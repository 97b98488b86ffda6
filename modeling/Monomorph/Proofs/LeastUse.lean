import Mathlib.Data.Option.Basic
import Mathlib.Data.Set.Lattice
import Monomorph.Instance.Make
import Monomorph.Proofs.Building
import Monomorph.Proofs.LateAgreement
import Monomorph.Proofs.Ties
import Monomorph.Unused.Query

/-!
# The least use of parameters

What the analyzer answers is told by the program alone: the positions of an item that are not in the
least set that has what the body uses and respects the requirements (`Program.UsedIn`). The sets of
the closures inside an item enter into what its body uses, and as closures are declared after the
items around them, there is only one family of sets of this kind. So the order of operations, locals
and requirements makes no difference, and an analyzer that asks for the sets of closures in the
middle of its work comes to an end with the same answer (`Program.analyse`).
-/

namespace Monomorph

/-! ## What a body uses -/

/-- Whether a type mentions the parameter at a position. -/
def Ty.MentionsAt (t : Ty) (k : Nat) : Prop := ∃ sort, (sort, k) ∈ t.mentions

/-- Whether a slot mentions the parameter at a position. -/
def Arg.MentionsAt (a : Arg Ty) (k : Nat) : Prop := ∃ sort, (sort, k) ∈ a.mentioned

/-- Whether a requirement mentions the parameter at a position. -/
def Predicate.MentionsAt (pr : Predicate) (k : Nat) : Prop :=
  pr.subject.MentionsAt k ∨ ∃ a ∈ pr.args, a.MentionsAt k

/-- The types of operands, other than the arguments of functions. -/
def Action.operands : Action → List Ty
  | .call .. | .staticRef _ => []
  | .drop t | .layout _ t | .use t => [t]
  | .unsize source target => [source, target]

/-- Whether the body of an item uses a position, given the unused positions of closures. -/
inductive Program.BodyUses (p : Program) (sets : UnusedSets) (i : ItemId) (b : Body) : Nat → Prop
  | ofLocal {t : Ty} {k : Nat} (ht : t ∈ b.locals) (hk : t.MentionsAt k) : BodyUses p sets i b k
  | operand {op : Operation} {t : Ty} {k : Nat} (hop : op ∈ b.ops) (ht : t ∈ op.action.operands)
      (hk : t.MentionsAt k) : BodyUses p sets i b k
  /-- An argument counts unless it stands at an unused position of a closure inside the item. -/
  | argument {op : Operation} {kind : CallKind} {callee : ItemId} {args : Args} {j : Nat}
      {a : Arg Ty} {k : Nat} (hop : op ∈ b.ops) (hact : op.action = .call kind callee args)
      (ha : args[j]? = some a)
      (hused : ¬ ((p.item callee).isClosureIn i = true ∧ (sets callee).contains j = true))
      (hk : a.MentionsAt k) : BodyUses p sets i b k

/-- Whether a set of positions has all that the body of an item uses, and all positions of a
    requirement as soon as it has one of them or one of them is no position in a set of unused
    parameters. -/
structure Program.UsedIn (p : Program) (sets : UnusedSets) (i : ItemId) (b : Body) (S : Set Nat) :
    Prop where
  body : ∀ k, p.BodyUses sets i b k → k ∈ S
  predicate : ∀ pr ∈ (p.item i).predicates,
    (∃ k, pr.MentionsAt k ∧ (k ∈ S ∨ ParamSet.width ≤ k ∨ (p.item i).generics.count ≤ k)) →
      ∀ k, pr.MentionsAt k → k ∈ S

/-- Whether the set of an item has exactly the positions that the least such set leaves out. -/
structure Program.LeavesOut (p : Program) (enabled : Bool) (sets : UnusedSets) (i : ItemId) :
    Prop where
  least : enabled = true → ∀ b, (p.item i).body = some b → ∃ U,
    IsLeast {S | p.UsedIn sets i b S} U ∧ ∀ k, (sets i).contains k = true ↔
      k < min (p.item i).generics.count ParamSet.width ∧ k ∉ U
  empty : enabled = false ∨ (p.item i).body = none ∨ (p.item i).generics.isEmpty = true →
    sets i = .empty

/-! ## How the analysis finds it -/

/-- The positions that a type mentions are those the analysis counts in it. -/
theorem Ty.mentionsAt_iff {t : Ty} {k : Nat} : t.MentionsAt k ↔ k ∈ t.indices :=
  (Ty.mem_indices t).symm

/-- The positions that a slot mentions are those the analysis counts in it. -/
theorem Arg.mentionsAt_iff {a : Arg Ty} {k : Nat} : a.MentionsAt k ↔ k ∈ Args.indices [a] := by
  rw [Args.mem_indices]
  simp [Args.mentions, MentionsAt]

/-- Arguments count the positions that one of them mentions. -/
theorem Args.mem_indices_iff {args : Args} {k : Nat} :
    k ∈ args.indices ↔ ∃ a ∈ args, a.MentionsAt k := by
  rw [Args.mem_indices]
  simp only [Args.mentions, List.mem_flatMap, Arg.MentionsAt]
  constructor
  · rintro ⟨sort, a, ha, hk⟩
    exact ⟨a, ha, sort, hk⟩
  · rintro ⟨a, ha, sort, hk⟩
    exact ⟨sort, a, ha, hk⟩

/-- The positions that a requirement mentions are those the analysis counts in it. -/
theorem Predicate.mentionsAt_iff {pr : Predicate} {k : Nat} :
    pr.MentionsAt k ↔ k ∈ pr.indices := by
  rw [Predicate.indices, List.mem_append, ← Ty.mentionsAt_iff, Args.mem_indices_iff]
  rfl

namespace Program

variable {p : Program} {sets : UnusedSets} {i : ItemId} {b : Body} {S : Set Nat} {k : Nat}
  {enabled : Bool}

/-- The closures inside an item with their sets. -/
def closureSets (p : Program) (sets : UnusedSets) (i : ItemId) : ChildSets := fun callee =>
  if (p.item callee).isClosureIn i = true then some (sets callee) else none

/-- The arguments of a call count position by position. -/
theorem mem_callIndices {callee : ItemId} {args : Args} :
    k ∈ callIndices (p.closureSets sets i) callee args ↔ ∃ j a, args[j]? = some a ∧
      ¬ ((p.item callee).isClosureIn i = true ∧ (sets callee).contains j = true) ∧
        a.MentionsAt k := by
  rw [callIndices, closureSets]
  -- Only a call of an own closure leaves arguments out; any other one counts them all.
  by_cases hclosure : (p.item callee).isClosureIn i = true
  · simp only [hclosure, if_true, true_and, List.mem_flatMap, List.mem_filter]
    constructor
    · rintro ⟨⟨a, j⟩, ⟨hmem, hused⟩, hk⟩
      exact ⟨j, a, List.mk_mem_zipIdx_iff_getElem?.1 hmem, by simpa using hused,
        Arg.mentionsAt_iff.2 hk⟩
    · rintro ⟨j, a, ha, hused, hk⟩
      exact ⟨(a, j), ⟨List.mk_mem_zipIdx_iff_getElem?.2 ha, by simpa using hused⟩,
        Arg.mentionsAt_iff.1 hk⟩
  · simp only [hclosure, Bool.false_eq_true, false_and, not_false_eq_true, true_and]
    show k ∈ args.indices ↔ _
    rw [Args.mem_indices_iff]
    constructor
    · rintro ⟨a, ha, hk⟩
      obtain ⟨j, hj⟩ := List.mem_iff_getElem?.1 ha
      exact ⟨j, a, hj, hk⟩
    · rintro ⟨j, a, ha, hk⟩
      exact ⟨a, List.mem_of_getElem? ha, hk⟩

/-- An operation uses what its operands mention, or it is a call and uses arguments. -/
theorem mem_actionIndices {children : ChildSets} {act : Action} : k ∈ act.indices children ↔
    (∃ t ∈ act.operands, t.MentionsAt k) ∨ ∃ kind callee args,
      act = .call kind callee args ∧ k ∈ callIndices children callee args := by
  simp only [Ty.mentionsAt_iff]
  cases act <;> simp [Action.indices, Action.operands]

/-- The analysis takes the positions that a body uses from its operations, one by one. -/
theorem bodyUses_iff : p.BodyUses sets i b k ↔ k ∈ b.indices (p.closureSets sets i) := by
  rw [Body.indices, List.mem_append, List.mem_flatMap, List.mem_flatMap]
  -- The ways in which a body uses a position are its locals, the types in its operations and the
  -- arguments of its calls.
  constructor
  · intro h
    cases h with
    | ofLocal ht hk => exact .inl ⟨_, ht, Ty.mentionsAt_iff.1 hk⟩
    | operand hop ht hk => exact .inr ⟨_, hop, mem_actionIndices.2 (.inl ⟨_, ht, hk⟩)⟩
    | argument hop hact ha hused hk =>
      have hcall := mem_callIndices.2 ⟨_, _, ha, hused, hk⟩
      exact .inr ⟨_, hop, mem_actionIndices.2 (.inr ⟨_, _, _, hact, hcall⟩)⟩
  · rintro (⟨t, ht, hk⟩ | ⟨op, hop, hk⟩)
    · exact .ofLocal ht (Ty.mentionsAt_iff.2 hk)
    · rcases mem_actionIndices.1 hk with ⟨t, ht, hk⟩ | ⟨kind, callee, args, hact, hcall⟩
      · exact .operand hop ht hk
      · obtain ⟨j, a, ha, hused, hk⟩ := mem_callIndices.1 hcall
        exact .argument hop hact ha hused hk

/-- There is a least set that has what the body uses and respects the requirements. -/
theorem exists_isLeast_usedIn (p : Program) (sets : UnusedSets) (i : ItemId) (b : Body) :
    ∃ U, IsLeast {S | p.UsedIn sets i b S} U := by
  -- what all such sets have in common is one itself
  refine ⟨{k | ∀ S, p.UsedIn sets i b S → k ∈ S}, ⟨?_, ?_⟩, fun S hS k hk => hk S hS⟩
  · exact fun k hk S hS => hS.body k hk
  · rintro pr hpr ⟨j, hj, htouched⟩ k hk S hS
    exact hS.predicate pr hpr ⟨j, hj, htouched.imp_left fun h => h S hS⟩ k hk

/-- The positions that are no parameters of an item in a set. -/
def outside (p : Program) (i : ItemId) : Set Nat :=
  {k | ParamSet.width ≤ k ∨ (p.item i).generics.count ≤ k}

/-- The positions that can be in a set are the parameters as far as a mask is wide. -/
theorem notMem_outside : k ∉ p.outside i ↔
    k < min (p.item i).generics.count ParamSet.width := by
  simp only [outside, Set.mem_ofPred_eq, not_or, Nat.not_le, Nat.lt_min]
  exact and_comm

/-- The set of an item before it is settled. -/
def startSet (p : Program) (sets : UnusedSets) (i : ItemId) (b : Body) : ParamSet :=
  (ParamSet.firstN (p.item i).generics.count).eraseAll (b.indices (p.closureSets sets i))

/-- Before settling the positions in use are those the body uses and those outside. -/
theorem mem_used_startSet :
    k ∈ (p.startSet sets i b).used ↔ p.BodyUses sets i b k ∨ k ∈ p.outside i := by
  rw [startSet, ParamSet.mem_used, ParamSet.contains_eraseAll, ParamSet.contains_firstN,
    bodyUses_iff, outside, Set.mem_ofPred_eq]
  simp only [Bool.and_eq_false_iff, decide_eq_false_iff_not, not_not, Nat.not_lt]
  tauto

/-- With a body, an item's set is settled from the start. -/
theorem unusedParams_eq_settle (hb : (p.item i).body = some b) :
    (p.item i).unusedParams (p.closureSets sets i) =
      (p.startSet sets i b).settle ((p.item i).predicates.map Predicate.indices) := by
  rw [Item.unusedParams, hb, startSet]

/-- What has the uses of a body has, with the positions that are no parameters, all that settling
    asks for. -/
theorem UsedIn.respectsTies (h : p.UsedIn sets i b S) :
    (p.startSet sets i b).used ⊆ S ∪ p.outside i ∧
      ParamSet.RespectsTies ((p.item i).predicates.map Predicate.indices) (S ∪ p.outside i) := by
  refine ⟨fun k hk => (mem_used_startSet.1 hk).imp_left (h.body k), ?_⟩
  rintro group hgroup ⟨j, hj, htouched⟩ k hk
  obtain ⟨pr, hpr, rfl⟩ := List.mem_map.1 hgroup
  exact .inl (h.predicate pr hpr ⟨j, Predicate.mentionsAt_iff.2 hj, htouched⟩ k
    (Predicate.mentionsAt_iff.2 hk))

/-- The other way round, what settling comes to has the uses of a body. -/
theorem usedIn_of_respectsTies (hstart : (p.startSet sets i b).used ⊆ S)
    (hties : ParamSet.RespectsTies ((p.item i).predicates.map Predicate.indices) S) :
    p.UsedIn sets i b S where
  body k hk := hstart (mem_used_startSet.2 (.inl hk))
  -- a predicate that is touched from outside was touched at the start
  predicate := by
    rintro pr hpr ⟨j, hj, htouched⟩ k hk
    have hused : j ∈ S := htouched.elim id fun hout => hstart (mem_used_startSet.2 (.inr hout))
    exact hties _ (List.mem_map_of_mem hpr) ⟨j, Predicate.mentionsAt_iff.1 hj, hused⟩ k
      (Predicate.mentionsAt_iff.1 hk)

/-- What the analysis leaves out of the set of an item with a body. -/
theorem contains_unusedParams_iff (hb : (p.item i).body = some b) {U : Set Nat}
    (hU : IsLeast {S | p.UsedIn sets i b S} U) :
    ((p.item i).unusedParams (p.closureSets sets i)).contains k = true ↔
      k < min (p.item i).generics.count ParamSet.width ∧ k ∉ U := by
  obtain ⟨⟨hstart, hties⟩, hleast⟩ := ParamSet.isLeast_used_settle (p.startSet sets i b)
    ((p.item i).predicates.map Predicate.indices)
  rw [← unusedParams_eq_settle hb] at hstart hties hleast
  -- the analysis counts positions that are no parameters as used from the start
  have hused : ((p.item i).unusedParams (p.closureSets sets i)).used = U ∪ p.outside i := by
    refine Set.Subset.antisymm (hleast hU.1.respectsTies) (Set.union_subset ?_ ?_)
    · exact hU.2 (usedIn_of_respectsTies hstart hties)
    · exact fun j hj => hstart (mem_used_startSet.2 (.inr hj))
  rw [← Bool.not_eq_false, ← ParamSet.mem_used, hused, Set.mem_union, not_or, notMem_outside]
  exact and_comm

/-- Without a body or without parameters nothing is unused. -/
theorem unusedParams_eq_empty
    (h : (p.item i).body = none ∨ (p.item i).generics.isEmpty = true) :
    (p.item i).unusedParams (p.closureSets sets i) = .empty := by
  -- without a body nothing is known, and without parameters there is nothing to leave out
  cases hb : (p.item i).body with
  | none => rw [Item.unusedParams, hb]
  | some b =>
    have hparams : (p.item i).generics.count = 0 := by
      rw [hb] at h
      rw [Generics.count, List.isEmpty_iff.1 (h.resolve_left (Option.some_ne_none b))]
      rfl
    obtain ⟨U, hU⟩ := exists_isLeast_usedIn p sets i b
    refine ParamSet.ext_contains fun k => ?_
    rw [ParamSet.contains_empty, Bool.eq_false_iff, Ne, contains_unusedParams_iff hb hU, hparams]
    simp

/-- A set leaves out the least use exactly if it is what the analysis makes of the sets of
    closures. -/
theorem leavesOut_iff : p.LeavesOut enabled sets i ↔
    sets i = if enabled then (p.item i).unusedParams (p.closureSets sets i) else .empty := by
  -- Either way the set is the one that the analysis finds, by the least set that it leaves out.
  constructor
  · intro h
    cases enabled with
    | false => exact h.empty (.inl rfl)
    | true =>
      rw [if_pos rfl]
      cases hb : (p.item i).body with
      | none => rw [h.empty (.inr (.inl hb)), unusedParams_eq_empty (.inl hb)]
      | some b =>
        obtain ⟨U, hU, hset⟩ := h.least rfl b hb
        refine ParamSet.ext_contains fun k => ?_
        rw [Bool.eq_iff_iff, hset k, contains_unusedParams_iff hb hU]
  · intro h
    constructor
    · rintro rfl b hb
      obtain ⟨U, hU⟩ := exists_isLeast_usedIn p sets i b
      refine ⟨U, hU, fun k => ?_⟩
      rw [h, if_pos rfl, contains_unusedParams_iff hb hU]
    · rintro (rfl | hnone)
      · exact h
      · rw [h, unusedParams_eq_empty hnone, ite_self]

/-! ## The analyzer's answers -/

/-- With closures behind, the analyzer sees all of them. -/
theorem childSets_eq (h : p.ClosuresBehind) (a : Analyzer) (i : ItemId) :
    a.childSets p i = p.closureSets (a.unused p) i := by
  funext callee
  rw [Analyzer.childSets_apply, closureSets]
  by_cases hclosure : (p.item callee).isClosureIn i = true
  · rw [if_pos ⟨h i callee hclosure, hclosure⟩, if_pos hclosure]
  · rw [if_neg fun hc => hclosure hc.2, if_neg hclosure]

/-- The answers of an analyzer that knows nothing leave out the least use. -/
theorem leavesOut_unused (h : p.ClosuresBehind) (enabled : Bool) (i : ItemId) :
    p.LeavesOut enabled (Analyzer.unused { enabled } p) i := by
  rw [leavesOut_iff, Analyzer.unused_of_unknown { enabled } p (UnusedTable.get?_empty i),
    childSets_eq h]

/-- There is only one family of sets that leave out the least use. -/
theorem leavesOut_unique (h : p.ClosuresBehind) {sets sets' : UnusedSets}
    (hsets : ∀ i, p.LeavesOut enabled sets i) (hsets' : ∀ i, p.LeavesOut enabled sets' i) :
    sets = sets' := by
  funext i
  -- the set of an item depends on the sets of items behind it only
  induction hn : p.items.size - i using Nat.strongRecOn generalizing i with
  | _ n ih =>
    have hchildren : p.closureSets sets i = p.closureSets sets' i := by
      funext callee
      unfold closureSets
      split
      · next hclosure =>
        have hlt := h i callee hclosure
        have hless : p.items.size - callee < n :=
          hn ▸ Nat.sub_lt_sub_left (Nat.lt_trans hlt (lt_size_of_isClosureIn hclosure)) hlt
        rw [ih _ hless callee rfl]
      · rfl
    rw [leavesOut_iff.1 (hsets i), leavesOut_iff.1 (hsets' i), hchildren]

end Program

/-! ## Order makes no difference -/

/-- Whether two bodies differ in the order of locals and operations only. -/
structure Body.Reordered (b b' : Body) : Prop where
  locals : b.locals.Perm b'.locals
  ops : b.ops.Perm b'.ops

/-- Whether two items differ in the order of requirements, locals and operations only, as far as the
    analysis is concerned. -/
structure Item.Reordered (it it' : Item) : Prop where
  kind : it'.kind = it.kind
  generics : it'.generics = it.generics
  predicates : it.predicates.Perm it'.predicates
  body : Option.Rel Body.Reordered it.body it'.body

/-- Reordering can be undone. -/
theorem Body.Reordered.symm {b b' : Body} (h : b.Reordered b') : b'.Reordered b :=
  ⟨h.locals.symm, h.ops.symm⟩

/-- Reordering the body of an item can be undone. -/
theorem Item.Reordered.symm {it it' : Item} (h : it.Reordered it') : it'.Reordered it where
  kind := h.kind.symm
  generics := h.generics.symm
  predicates := h.predicates.symm
  body := by
    have hbody := h.body
    generalize it.body = b, it'.body = b' at hbody
    cases hbody with
    | some hb => exact .some hb.symm
    | none => exact .none

namespace Program

variable {p p' : Program} {sets : UnusedSets} {i : ItemId} {b b' : Body} {S : Set Nat} {k : Nat}
  {enabled : Bool}

/-- Reordering does not change which closures an item has. -/
theorem isClosureIn_of_reordered (h : ∀ i, (p.item i).Reordered (p'.item i)) (i c : ItemId) :
    (p'.item c).isClosureIn i = (p.item c).isClosureIn i := by
  rw [Item.isClosureIn, Item.isClosureIn, (h c).kind, (h c).generics]

/-- Reordering does not change what a body uses. -/
theorem BodyUses.of_reordered (h : ∀ i, (p.item i).Reordered (p'.item i)) (hb : b.Reordered b')
    (hk : p.BodyUses sets i b k) : p'.BodyUses sets i b' k := by
  -- a use is at the same place of the other body, and says the same there
  cases hk with
  | ofLocal ht hk => exact .ofLocal (hb.locals.mem_iff.1 ht) hk
  | operand hop ht hk => exact .operand (hb.ops.mem_iff.1 hop) ht hk
  | argument hop hact ha hused hk =>
    refine .argument (hb.ops.mem_iff.1 hop) hact ha ?_ hk
    rwa [isClosureIn_of_reordered h]

/-- Reordering does not change which sets have the uses of a body. -/
theorem UsedIn.of_reordered (h : ∀ i, (p.item i).Reordered (p'.item i)) (hb : b.Reordered b')
    (hS : p.UsedIn sets i b S) : p'.UsedIn sets i b' S where
  body k hk := hS.body k (hk.of_reordered (fun i => (h i).symm) hb.symm)
  predicate pr hpr := by
    rw [(h i).generics]
    exact hS.predicate pr ((h i).predicates.mem_iff.2 hpr)

/-- A set has the uses of a body exactly where it has those of the reordered one. -/
theorem usedIn_iff_of_reordered (h : ∀ i, (p.item i).Reordered (p'.item i))
    (hb : b.Reordered b') : p.UsedIn sets i b S ↔ p'.UsedIn sets i b' S :=
  ⟨.of_reordered h hb, .of_reordered (fun i => (h i).symm) hb.symm⟩

/-- Where the order differs, the same sets leave out the least use. -/
theorem LeavesOut.of_reordered (h : ∀ i, (p.item i).Reordered (p'.item i))
    (hsets : p'.LeavesOut enabled sets i) : p.LeavesOut enabled sets i where
  least henabled b hb := by
    -- the two bodies are reordered bodies of each other, or neither is there
    have hrel := (h i).body
    rw [hb] at hrel
    generalize hb' : (p'.item i).body = body' at hrel
    cases hrel with
    | some hrel =>
      obtain ⟨U, hU, hset⟩ := hsets.least henabled _ hb'
      simp only [← usedIn_iff_of_reordered h hrel] at hU
      rw [(h i).generics] at hset
      exact ⟨U, hU, hset⟩
  empty hempty := by
    refine hsets.empty (hempty.imp_right (Or.imp ?_ ?_))
    · intro hb
      have hrel := (h i).body
      rw [hb] at hrel
      generalize (p'.item i).body = body' at hrel
      cases hrel
      rfl
    · rw [(h i).generics]
      exact id

end Program

/-! ## Asking for closures in the middle -/

/-- An operation counts the same whether its closures are asked for or known in advance. -/
theorem Action.indicesM_eq {child : ItemId → Option (Option ParamSet)} {children : ChildSets}
    {act : Action} (h : ∀ kind callee args, act = .call kind callee args →
      child callee = some (children callee)) :
    act.indicesM child = some (act.indices children) := by
  cases act with
  | call kind callee args => simp [indicesM, indices, callIndices, h kind callee args rfl]
  | _ => rfl

namespace Program

/-- The set of an item, computed as the need for sets of closures arises: nothing is known in
    advance of the items, and requirements are gone through as long as anything changes. There is
    no answer if the fuel does not last for the depth of nested questions and for the rounds. -/
def analyse (p : Program) (enabled : Bool) : (fuel : Nat) → ItemId → Option ParamSet
  | 0, _ => none
  | fuel + 1, i =>
    if enabled && !(p.item i).generics.isEmpty then
      match (p.item i).body with
      | none => some .empty
      | some b => do
        let used ← b.ops.mapM fun op => op.action.indicesM fun callee =>
          if (p.item callee).isClosureIn i then (p.analyse enabled fuel callee).map some
          else some none
        let start := (ParamSet.firstN (p.item i).generics.count).eraseAll
          (b.locals.flatMap Ty.indices ++ used.flatten)
        start.tieLoop ((p.item i).predicates.map Predicate.indices) fuel
    else some .empty

/-- Answers to every element are answers to the list. -/
theorem mapM_eq_some_of_forall {α β : Type} {f : α → Option β} {g : α → β} {xs : List α}
    (h : ∀ x ∈ xs, f x = some (g x)) : xs.mapM f = some (xs.map g) := by
  induction xs with
  | nil => rfl
  | cons x xs ih =>
    rw [List.mapM_cons, h x List.mem_cons_self,
      ih fun y hy => h y (List.mem_cons_of_mem _ hy)]
    rfl

/-- Questions about closures come to an end, and so do the rounds. -/
theorem analyse_eq (h : p.ClosuresBehind) {rounds : Nat}
    (hrounds : ∀ i, (p.item i).predicates.length ≤ rounds) {fuel : Nat}
    (hfuel : rounds + (p.items.size - i) + 1 < fuel) :
    p.analyse enabled fuel i = some (Analyzer.unused { enabled } p i) := by
  induction fuel generalizing i with
  | zero => exact absurd hfuel (Nat.not_lt_zero _)
  | succ fuel ih =>
    have hset := leavesOut_unused h enabled i
    unfold analyse
    split
    · next hon =>
      rw [Bool.and_eq_true] at hon
      split
      · next hb => rw [hset.empty (.inr (.inl hb))]
      · next b hb =>
        have hops : ∀ op ∈ b.ops, (op.action.indicesM fun callee =>
            if (p.item callee).isClosureIn i then (p.analyse enabled fuel callee).map some
            else some none) =
              some (op.action.indices (p.closureSets (Analyzer.unused { enabled } p) i)) := by
          refine fun op _ => Action.indicesM_eq fun kind callee args _ => ?_
          unfold closureSets
          split
          · next hclosure =>
            -- a closure is behind, so there is less to ask about
            have hless := Nat.sub_lt_sub_left
              (Nat.lt_trans (h i callee hclosure) (lt_size_of_isClosureIn hclosure))
              (h i callee hclosure)
            rw [ih (by omega), Option.map_some]
          · rfl
        have hloop : ((p.startSet (Analyzer.unused { enabled } p) i b).loose
            ((p.item i).predicates.map Predicate.indices)).length < fuel := by
          refine Nat.lt_of_le_of_lt (ParamSet.length_loose_le _ _) ?_
          rw [List.length_map]
          have hrounds := hrounds i
          omega
        rw [mapM_eq_some_of_forall hops, leavesOut_iff.1 hset, if_pos hon.1,
          unusedParams_eq_settle hb]
        exact ParamSet.tieLoop_eq_settle hloop
    · next hoff =>
      refine congrArg some (hset.empty ?_).symm
      rw [Bool.and_eq_true, not_and_or, Bool.not_eq_true, Bool.not_eq_true,
        Bool.not_eq_false'] at hoff
      exact hoff.imp_right .inr

end Program

/-! ## The main result -/

namespace Analyzer

/-- Whether the answers of an analyzer are the sets that leave out the least use of each item. -/
structure FindsLeastUse (p : Program) (enabled : Bool) (a : Analyzer) : Prop where
  leavesOut : ∀ i, p.LeavesOut enabled (a.unused p) i
  /-- Nothing else does. -/
  unique : ∀ sets, (∀ i, p.LeavesOut enabled sets i) → sets = a.unused p
  /-- They can be computed by asking for closures when they are met. -/
  ends : ∃ enough, ∀ fuel, enough ≤ fuel → ∀ i, p.analyse enabled fuel i = some (a.unused p i)
  /-- The order of operations, locals and requirements makes no difference. -/
  reordered : ∀ (p' : Program) (a' : Analyzer), (∀ i, (p.item i).Reordered (p'.item i)) →
    a'.Unseeded p' enabled → a'.unused p' = a.unused p

/-- In a program that is built by declarations, the analyzer finds the least use. -/
theorem Unseeded.findsLeastUse {localName : String} {ds : List Declaration} {enabled : Bool}
    {a : Analyzer} (hds : (Program.start localName).Admits ds)
    (ha : a.Unseeded (.build localName ds) enabled) :
    a.FindsLeastUse (.build localName ds) enabled := by
  have hbehind := Program.closuresBehind_build hds
  generalize Program.build localName ds = p at ha hbehind
  have hleaves := Program.leavesOut_unused hbehind enabled
  have hunique : ∀ sets, (∀ i, p.LeavesOut enabled sets i) → sets = a.unused p := by
    intro sets hsets
    rw [ha.unused_eq]
    exact Program.leavesOut_unique hbehind hsets hleaves
  -- the answers leave out the least, and nothing else does
  refine ⟨ha.unused_eq ▸ hleaves, hunique, ?_, fun p' a' hreordered ha' => ?_⟩
  · -- the longest list of requirements bounds the rounds for every item
    let rounds := (Finset.range p.items.size).sup fun i => (p.item i).predicates.length
    have hrounds : ∀ i, (p.item i).predicates.length ≤ rounds := by
      intro i
      by_cases hi : i < p.items.size
      · exact Finset.le_sup (f := fun i => (p.item i).predicates.length) (Finset.mem_range.2 hi)
      · have hitem : p.item i = default := by simp [Program.item, Nat.le_of_not_lt hi]
        rw [hitem]
        exact Nat.zero_le _
    refine ⟨rounds + p.items.size + 2, fun fuel hfuel i => ?_⟩
    rw [ha.unused_eq]
    exact Program.analyse_eq hbehind hrounds (by omega)
  · have hbehind' : p'.ClosuresBehind := fun i c hclosure =>
      hbehind i c ((Program.isClosureIn_of_reordered hreordered i c).symm.trans hclosure)
    rw [ha'.unused_eq]
    exact hunique _ fun i =>
      (Program.leavesOut_unused hbehind' enabled i).of_reordered hreordered

/-- A function of three parameters that hands the second to a closure, which uses it. The third is
    tied to the second. -/
def tangle : List Declaration := [
  .item (.fn "f") [.param ⟨"T", .type⟩, .param ⟨"U", .type⟩, .param ⟨"V", .type⟩,
    .predicate { subject := .param 1, trait := 2, args := [.ty (.param 2)] }],
  .item (.closure 0 "c") [.body { ops := [{ action := .use (.param 0) }] }],
  .item (.trait "Tr") [],
  .body 0 { ops := [
    { action := .call .direct 1 [.ty (.param 1), .ty (.param 0), .ty (.param 2)] }] }]

/-- Only the first parameter is unused. -/
theorem findsLeastUse_tangle : (Program.start "app").Admits tangle ∧
    FindsLeastUse (.build "app" tangle) true { enabled := true } ∧
    Analyzer.unused { enabled := true } (.build "app" tangle) 0 = ⟨1⟩ := by
  have hadmits : (Program.start "app").Admits tangle := by
    refine ⟨trivial, ?_, trivial, trivial, trivial⟩
    show (0 : Nat) < 1
    decide
  exact ⟨hadmits, Unseeded.findsLeastUse hadmits (unseeded_new _ true), by decide +kernel⟩

end Analyzer

end Monomorph
