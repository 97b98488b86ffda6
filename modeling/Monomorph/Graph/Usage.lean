import Monomorph.Positions

/-!
# The usage graph

The usage graph says which instance needs which, and how. Nodes are numbered from zero; the uses
of a node are kept in increasing order without repetition, by target first and by kind second.

Who uses a node is kept as well. That list is filled while the sources are gone through in order: a
node is pushed once for each of its edges, and equal neighbours are left out at the end. What can be
reached from some nodes and who uses a node through others is found by a search in breadth, with a
mark on every node that has been met.
-/

namespace Monomorph

/-- A list without the elements that equal the one before them. -/
def dropRepeats {α : Type} [DecidableEq α] : List α → List α
  | [] => []
  | [a] => [a]
  | a :: b :: rest => if a = b then dropRepeats (b :: rest) else a :: dropRepeats (b :: rest)

/-- The number of a node. -/
abbrev NodeId := Nat

/-- How an instance needs another one. -/
inductive UseKind where
  | call
  | fnPtr
  | static
  | drop
  | vtable
  deriving DecidableEq, Repr, Inhabited

namespace UseKind

/-- The place of a kind among the kinds. -/
def rank : UseKind → Nat
  | call => 0
  | fnPtr => 1
  | static => 2
  | drop => 3
  | vtable => 4

/-- The written form. -/
def text : UseKind → String
  | call => "call"
  | fnPtr => "fn-ptr"
  | static => "static"
  | drop => "drop"
  | vtable => "vtable"

/-- A kind is told by its place. -/
theorem rank_inj {k l : UseKind} (h : k.rank = l.rank) : k = l := by
  cases k <;> cases l <;> first | rfl | exact absurd h (by decide)

end UseKind

/-- One use of a node. -/
structure Edge where
  target : NodeId
  kind : UseKind
  deriving DecidableEq, Repr

namespace Edge

/-- The order of edges: by target first and by kind second. -/
def le (e f : Edge) : Bool :=
  decide (e.target < f.target) || (e.target == f.target && decide (e.kind.rank ≤ f.kind.rank))

/-- Edges in increasing order, each once. -/
def normalize (es : List Edge) : List Edge := dropRepeats (es.mergeSort le)

end Edge

/-- Pushes a node to the users of each node that its edges lead to, once for each edge. -/
def pushUser (usedBy : Array (Array NodeId)) (u : NodeId) (es : List Edge) :
    Array (Array NodeId) :=
  es.foldl (fun usedBy e => usedBy.modify e.target (·.push u)) usedBy

/-- Goes through the edges of the nodes from `u` on. -/
def pushUsers : NodeId → List (List Edge) → Array (Array NodeId) → Array (Array NodeId)
  | _, [], usedBy => usedBy
  | u, es :: rest, usedBy => pushUsers (u + 1) rest (pushUser usedBy u es)

/-- The users of each of `n` nodes, given the edges of each. -/
def usersOfAll (n : Nat) (uses : List (List Edge)) : Array (List NodeId) :=
  (pushUsers 0 uses (Array.replicate n #[])).map fun us => dropRepeats us.toList

/-- A graph of uses between nodes that carry values in `α`. -/
structure UseGraph (α : Type) where
  nodes : List α
  /-- The uses of each node. -/
  uses : List (List Edge)
  /-- The users of each node. -/
  usedBy : Array (List NodeId)
  usedBy_eq : usedBy = usersOfAll nodes.length uses := by rfl

namespace UseGraph

variable {α : Type}

/-- The graph with given nodes and uses. Nodes without a list of uses have none. -/
def ofUses (nodes : List α) (uses : List (List Edge)) : UseGraph α :=
  -- what is given past the last node is left out
  let uses := nodes.mapIdx fun i _ => Edge.normalize (uses[i]?.getD [])
  { nodes, uses, usedBy := usersOfAll nodes.length uses }

variable (g : UseGraph α)

/-- The number of nodes. -/
def size : Nat := g.nodes.length

/-- The nodes in order. -/
def ids : List NodeId := List.range g.size

/-- The uses of a node. -/
def usesOf (u : NodeId) : List Edge := g.uses[u]?.getD []

/-- The nodes that a node uses, once for each edge. -/
def targets (u : NodeId) : List NodeId := (g.usesOf u).map Edge.target

/-- The nodes that use a node, in increasing order. -/
def users (v : NodeId) : List NodeId := g.usedBy[v]?.getD []

/-- The number of uses. -/
def edgeCount : Nat := g.uses.flatten.length

/-! ## Searches -/

/-- Marks the nodes of a list, and gives those that had no mark. -/
def meet (seen : Array Bool) : List NodeId → List NodeId × Array Bool
  | [] => ([], seen)
  | v :: vs =>
    -- a number past the marks is no node, and is passed over
    if seen[v]? = some false then
      let (met, seen) := meet (seen.setIfInBounds v true) vs
      (v :: met, seen)
    else meet seen vs

/-- Marks grow by the nodes met, so a search comes to an end. -/
theorem count_meet (seen : Array Bool) (vs : List NodeId) :
    (meet seen vs).2.count false + (meet seen vs).1.length = seen.count false := by
  induction vs generalizing seen with
  | nil => rfl
  | cons v vs ih =>
    rw [meet]
    split
    · next hv =>
      obtain ⟨hlt, hfalse⟩ := Array.getElem?_eq_some_iff.1 hv
      have hpos : 0 < seen.count false := Array.count_pos_iff.2 (hfalse ▸ Array.getElem_mem hlt)
      have hset : (seen.setIfInBounds v true).count false = seen.count false - 1 := by
        rw [Array.setIfInBounds_def, dif_pos hlt, Array.count_set, hfalse]
        rfl
      have hrest := ih (seen.setIfInBounds v true)
      simp only [List.length_cons]
      omega
    · exact ih seen

/-- Takes the nodes of a queue one by one, and puts those behind it that they lead to and that had
    no mark. Gives the nodes taken, in their order. -/
def visit (next : NodeId → List NodeId) (seen : Array Bool) (queue : List NodeId) : List NodeId :=
  match queue with
  | [] => []
  | v :: queue =>
    -- a node is marked when it is put behind the queue, so none stands there twice
    let found := meet seen (next v)
    v :: visit next found.2 (queue ++ found.1)
termination_by seen.count false + queue.length
decreasing_by
  -- a mark has been set for each node put behind the queue, and one node has left it
  have hcount := count_meet seen (next v)
  simp only [List.length_append, List.length_cons]
  omega

/-- Goes through a queue in the same way, and gives the nodes put behind it, in their order. -/
def follow (next : NodeId → List NodeId) (seen : Array Bool) (queue : List NodeId) :
    List NodeId :=
  match queue with
  | [] => []
  | v :: queue =>
    let found := meet seen (next v)
    found.1 ++ follow next found.2 (queue ++ found.1)
termination_by seen.count false + queue.length
decreasing_by
  have hcount := count_meet seen (next v)
  simp only [List.length_append, List.length_cons]
  omega

/-- No node has a mark. -/
def unseen : Array Bool := Array.replicate g.size false

/-- The nodes that can be reached from some nodes, these included, in increasing order. -/
def reachable (roots : List NodeId) : List NodeId :=
  -- a root that is given twice is visited once
  let found := meet g.unseen roots
  Positions.sort (visit g.targets found.2 found.1)

/-- The nodes that use a node, by itself or through others, in increasing order. The search starts
    from the node without a mark on it, so it is found if it uses itself in that way. -/
def transitiveUsers (v : NodeId) : List NodeId :=
  Positions.sort (follow g.users g.unseen [v])

/-- A text with the marks that end a quoted text made harmless. -/
def quote (s : String) : String :=
  String.ofList <| s.toList.flatMap fun c =>
    if c = '\\' then ['\\', '\\'] else if c = '"' then ['\\', '"'] else [c]

/-- The graph in the language of graph drawing tools. -/
def dot (label : NodeId → String) : String :=
  let nodeLines := g.ids.map fun u =>
    "    n" ++ toString u ++ " [label=\"" ++ quote (label u) ++ "\"];\n"
  let edgeLines := g.ids.flatMap fun u => (g.usesOf u).map fun e =>
    "    n" ++ toString u ++ " -> n" ++ toString e.target ++ " [label=\"" ++ e.kind.text ++
      "\"];\n"
  "digraph usage \x7b\n    node [shape=box];\n" ++ String.join nodeLines ++
    String.join edgeLines ++ "\x7d\n"

end UseGraph

end Monomorph
