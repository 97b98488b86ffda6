import Monomorph.Unused.Analyzer

/-!
# Questions inside questions

`Analyzer.unused` says in advance what the set of an item is, and `Analyzer.consult` what is
remembered after it has been asked for. Here the analyzer works as the need arises. It is asked for
one set, and while it goes through the body of the item it asks itself for the sets of the closures
that it meets; every answer is remembered at once and is there for the next question.

A set is entered only if there is still no entry for its item when it has been computed. An entry
that has appeared in the meantime is handed out instead, and a conflict is noted if it differs.

Fuel bounds the depth of questions inside questions. As closures are declared after the items around
them, one more than there are items is enough, and then all comes out as it was said in advance
(`Analyzer.query_eq`).
-/

namespace Monomorph

/-- The positions that an operation uses, where the sets of closures have to be asked for. -/
def Action.indicesM {m : Type → Type} [Monad m] (child : ItemId → m (Option ParamSet)) :
    Action → m (List Nat)
  | .call _ callee args => do
    let unused ← child callee
    return callIndices (fun _ => unused) callee args
  -- no other operation has arguments for a function
  | act => pure (act.indices fun _ => none)

namespace Analyzer

/-- What asks an analyzer for sets. There is no outcome where fuel runs out. -/
abbrev Asking := StateT Analyzer Option

/-- Remembers the set of an item. -/
def remember (a : Analyzer) (i : ItemId) (set : ParamSet) : Analyzer :=
  { a with known := a.known.insert i set }

/-- Notes a conflict unless the remembered set is the computed one. -/
def compare (a : Analyzer) (i : ItemId) (stored computed : ParamSet) : Analyzer :=
  if stored = computed then a
  else { a with conflicts := a.conflicts ++ [⟨i, stored, computed⟩] }

/-- Computes the set of an item, asking for the sets of closures inside it as they are met. -/
def computing (p : Program) (ask : ItemId → Asking ParamSet) (i : ItemId) : Asking ParamSet := do
  let it := p.item i
  -- what has no parameters is not looked into
  if (← get).enabled && !it.generics.isEmpty then
    match it.body with
    | none => return .empty
    | some b =>
      -- the operations are gone through in order, so each question finds the answers before it
      let used ← b.ops.mapM fun op => op.action.indicesM fun callee =>
        if (p.item callee).isClosureIn i then some <$> ask callee else pure none
      return ((ParamSet.firstN it.generics.count).eraseAll
        (b.locals.flatMap Ty.indices ++ used.flatten)).settle (it.predicates.map Predicate.indices)
  else return .empty

/-- The unused parameters of an item: what is remembered, or else what is computed and from then on
    remembered. Nothing is remembered of an item that the program does not have. -/
def query (p : Program) : (fuel : Nat) → ItemId → Asking ParamSet
  | 0, _ => fun _ => none
  | fuel + 1, i => do
    match (← get).known.get? i with
    | some stored => return stored
    | none =>
      let set ← computing p (query p fuel) i
      -- looked up again, since a question on the way may have entered it
      match (← get).known.get? i with
      | some stored =>
        modify (compare · i stored set)
        return stored
      | none =>
        modify fun a => if i < p.items.size then a.remember i set else a
        return set

/-- Computes the set of an item again and compares it with what is remembered. -/
def verifying (p : Program) (fuel : Nat) (i : ItemId) : Asking ParamSet := do
  let set ← computing p (query p fuel) i
  if let some stored := (← get).known.get? i then modify (compare · i stored set)
  return set

end Analyzer

end Monomorph
