import Monomorph.Config
import Monomorph.Diagnostic.Basic
import Monomorph.Text.Hash
import Monomorph.Unused.Set
import Monomorph.Ty.Basic
import Monomorph.Ty.Measure
import Monomorph.Ty.Match
import Monomorph.Ty.Params
import Monomorph.Ty.Render
import Monomorph.Ty.Subst
import Monomorph.Program.Basic
import Monomorph.Program.Declare
import Monomorph.Program.Resolve
import Monomorph.Ty.Table
import Monomorph.Unused.Analysis
import Monomorph.Unused.Analyzer
import Monomorph.Unused.Query
import Monomorph.Error
import Monomorph.Instance.Basic
import Monomorph.Instance.Late
import Monomorph.Instance.Symbol
import Monomorph.Collect.Roots
import Monomorph.Drop.Basic
import Monomorph.Graph.Usage
import Monomorph.Collect.Items
import Monomorph.Collect.Asking
import Monomorph.Output
import Monomorph.Proofs.Lists
import Monomorph.Proofs.Registration
import Monomorph.Proofs.Substitution
import Monomorph.Proofs.Resolution
import Monomorph.Proofs.Unused
import Monomorph.Proofs.Normalize
import Monomorph.Proofs.Scan
import Monomorph.Proofs.Fuel
import Monomorph.Proofs.Drop
import Monomorph.Proofs.Settle
import Monomorph.Proofs.Walk
import Monomorph.Proofs.Ending
import Monomorph.Proofs.Finite
import Monomorph.Proofs.Bounded
import Monomorph.Proofs.Graph
import Monomorph.Proofs.Collection
import Monomorph.Proofs.Exactness
import Monomorph.Proofs.Overflow
import Monomorph.Proofs.Classification
import Monomorph.Proofs.History
import Monomorph.Proofs.Termination
import Monomorph.Proofs.Closed
import Monomorph.Proofs.Linkage
import Monomorph.Proofs.Coverage
import Monomorph.Proofs.Collapse
import Monomorph.Proofs.Polymorphization
import Monomorph.Proofs.LateResolution
import Monomorph.Proofs.Neighbors
import Monomorph.Proofs.Sessions
import Monomorph.Proofs.Consulting
import Monomorph.Proofs.LateAgreement
import Monomorph.Proofs.Destructors
import Monomorph.Proofs.Dispatch
import Monomorph.Proofs.Report
import Monomorph.Proofs.Selection
import Monomorph.Proofs.Symbols
import Monomorph.Proofs.Signs
import Monomorph.Proofs.Readability
import Monomorph.Proofs.Collisions
import Monomorph.Proofs.Transparency
import Monomorph.Proofs.Building
import Monomorph.Proofs.Ties
import Monomorph.Proofs.LeastUse
import Monomorph.Proofs.Asking
import Monomorph.Proofs.Interleaving
import Monomorph.Proofs.Measures
import Monomorph.Proofs.Interning
import Monomorph.Proofs.Entering
import Monomorph.Proofs.Composition
import Monomorph.Proofs.Descent
import Monomorph.Proofs.Replacement
import Monomorph.Proofs.Spelling
import Monomorph.Proofs.Joining
import Monomorph.Proofs.UnitNames
import Monomorph.Proofs.Separation
import Monomorph.Proofs.Queries
import Monomorph.Proofs.ByteOrder
import Monomorph.Proofs.Indexing
import Monomorph.Proofs.TableBytes
import Monomorph.Proofs.Rooting
import Monomorph.Proofs.Retention
import Monomorph.Proofs.GlueParts
import Monomorph.Proofs.WellFormed
import Monomorph.Proofs.Masks
