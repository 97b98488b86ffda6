import Monomorph.Unused.Analysis
import Monomorph.Unused.Table

/-!
# The analyzer

The analyzer answers which parameters of an item are unused and remembers what it has answered.
It may start from a table that an earlier run left behind; entries of that table are believed when
they are asked for. `verify` computes a set again and notes a conflict if the remembered one
differs. At the end `freeze` gives the table of all answers, or the first conflict.

An item is declared before the closures inside it, so the sets of a program are computed from its
last item to its first, each with the sets of all later items at hand. Answers therefore depend on
the table the analyzer starts from and never on the order of the questions; the questions only
decide which entries the frozen table has. An analyzer that goes from question to question, as
`Monomorph.Unused.Query` has it, comes to the same.
-/

namespace Monomorph

/-- Two sets computed for one item that differ. -/
structure Conflict where
  item : ItemId
  stored : ParamSet
  computed : ParamSet
  deriving DecidableEq, Repr

/-- What the analyzer remembers. -/
structure Analyzer where
  /-- Whether parameters are analysed at all; otherwise all count as used. -/
  enabled : Bool
  known : UnusedTable := .empty
  /-- The conflicts found, in order. -/
  conflicts : List Conflict := []

namespace Analyzer

variable (a : Analyzer) (p : Program)

/-- The closures of item `i` among the items after it, with their sets. -/
def children (i : ItemId) (rest : List Item) (sets : List ParamSet) : ChildSets := fun callee =>
  -- an item that is declared earlier cannot be a closure inside this one
  if i < callee then
    match rest[callee - (i + 1)]? with
    | some it => if it.isClosureIn i then sets[callee - (i + 1)]? else none
    | none => none
  else none

/-- Computes the set of item `i` from the items after it and their sets. -/
def compute (i : ItemId) (it : Item) (rest : List Item) (sets : List ParamSet) : ParamSet :=
  if a.enabled then it.unusedParams (children i rest sets) else .empty

/-- The sets of a run of items that starts at position `i` and ends with the program. -/
def setsFrom : ItemId → List Item → List ParamSet
  | _, [] => []
  | i, it :: rest =>
    -- the later items first: their sets are what this one may ask for
    let sets := setsFrom (i + 1) rest
    (a.known.get? i).getD (a.compute i it rest sets) :: sets

/-- The set of an item, computed without regard to what is known of the item itself. -/
def computed (i : ItemId) : ParamSet :=
  let rest := p.items.toList.drop (i + 1)
  a.compute i (p.item i) rest (a.setsFrom (i + 1) rest)

/-- The unused parameters of an item. -/
def unused (i : ItemId) : ParamSet := (a.known.get? i).getD (a.computed p i)

/-- The sets of all items of a program. -/
def sets : Array ParamSet := (a.setsFrom 0 p.items.toList).toArray

/-- Answers from the sets of all items, where they are at hand. -/
def answer (sets : Array ParamSet) (i : ItemId) : ParamSet :=
  match sets[i]? with
  | some s => s
  | none => a.unused p i

/-- The closures whose sets are asked for when the set of item `i` is computed. -/
def asked (i : ItemId) (it : Item) (rest : List Item) : List ItemId :=
  match it.body with
  | some b =>
    if a.enabled && !it.generics.isEmpty then
      -- only whether there is a set matters here, not which
      (b.calls.map CallSite.callee).filter fun callee =>
        (children i rest (rest.map fun _ => .empty) callee).isSome
    else []
  | none => []

/-- The items from position `i` on whose sets are computed when those of `wanted` are asked for. -/
def consulted : ItemId → List Item → (wanted : List ItemId) → List ItemId
  | _, [], _ => []
  | i, it :: rest, wanted =>
    if i ∈ wanted ∧ a.known.get? i = none then
      -- its own questions come behind those that are waiting
      i :: consulted (i + 1) rest (wanted ++ a.asked i it rest)
    else consulted (i + 1) rest wanted

/-- The analyzer after it has been asked for the sets of some items. -/
def consult (wanted : List ItemId) : Analyzer :=
  let sets := a.sets p
  let items := a.consulted 0 p.items.toList wanted
  { a with known := items.foldl (fun t i => t.insert i (a.answer p sets i)) a.known }

/-- Computes the set of an item again and compares it with what is known. -/
def verify (i : ItemId) : ParamSet × Analyzer :=
  let set := a.computed p i
  -- the closures inside are remembered by this, the item itself is not
  let a' := a.consult p (a.asked i (p.item i) (p.items.toList.drop (i + 1)))
  match a.known.get? i with
  | some stored =>
    if stored = set then (set, a')
    else (set, { a' with conflicts := a'.conflicts ++ [⟨i, stored, set⟩] })
  | none => (set, a')

/-- Ends the analysis. -/
def freeze : Except Conflict UnusedTable :=
  match a.conflicts with
  | [] => .ok a.known
  -- the conflict that was noted first stands for all
  | c :: _ => .error c

/-- The set of an item is what is known of it, or what its body gives from the sets of the items
    behind it. -/
theorem getElem?_setsFrom (i k : Nat) (items : List Item) :
    (a.setsFrom i items)[k]? = items[k]?.map fun it =>
      let rest := items.drop (k + 1)
      (a.known.get? (i + k)).getD (a.compute (i + k) it rest (a.setsFrom (i + k + 1) rest)) := by
  -- The list of sets is built from its end, so an item's set sees those of all later items.
  induction items generalizing i k with
  | nil => simp [setsFrom]
  | cons it rest ih =>
    cases k with
    | zero => simp [setsFrom]
    | succ k =>
      rw [setsFrom, List.getElem?_cons_succ, List.getElem?_cons_succ, ih, List.drop_succ_cons,
        Nat.add_right_comm, Nat.add_assoc i k 1]

/-- One analysis of the whole program gives the answer to every question. -/
theorem answer_sets : a.answer p (a.sets p) = a.unused p := by
  funext i
  unfold answer
  split
  · next s h =>
    rw [sets, List.getElem?_toArray, getElem?_setsFrom, Nat.zero_add, Array.getElem?_toList] at h
    obtain ⟨it, hit, rfl⟩ := Option.map_eq_some_iff.1 h
    simp [unused, computed, Program.item, hit]
  · rfl

/-- What is known of an item is the answer about it. -/
theorem unused_of_known {i : ItemId} {s : ParamSet} (h : a.known.get? i = some s) :
    a.unused p i = s := by
  simp [unused, h]

end Analyzer

end Monomorph
