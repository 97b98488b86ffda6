import Monomorph.Config
import Monomorph.Instance.Make

/-!
# Late resolution of calls

Code generation resolves calls when collection is over and must find the instances that were
collected. The table that the collection left may be out of date, so the set of the callee is
computed again and compared with its entry before the instance is made.
-/

namespace Monomorph

namespace Program

variable (p : Program)

/-- The instance that a call means, checked against a table of unused parameters. -/
def resolveLate (config : Config) (table : UnusedTable) (callee : ItemId) (args : Args) :
    Except Error Instance :=
  let fail := fun reason => Except.error (p.unresolved callee args .dummy reason)
  match p.resolve callee args with
  | .virtual => fail .virtualCall
  | .unresolved => fail (p.noImpl callee args)
  | .item target targetArgs =>
    -- checked before the set is computed: a wrong number of arguments has an error of its own
    match p.checkArity target targetArgs with
    | .error reason => fail reason
    | .ok () =>
      let analyzer : Analyzer := { enabled := config.polymorphize, known := table }
      -- the analyzer is for this one question, and a conflict in it is about the callee
      let (unused, analyzer) := analyzer.verify p target
      match analyzer.freeze with
      | .error c => .error (p.conflictError c)
      | .ok _ => .ok (p.instanceWith unused target targetArgs)

end Program

end Monomorph
