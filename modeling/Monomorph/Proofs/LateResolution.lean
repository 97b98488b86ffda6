import Mathlib.Logic.Relation
import Monomorph.Instance.Late
import Monomorph.Proofs.Building
import Monomorph.Proofs.Unused

/-!
# What late resolution checks

A call that is resolved late gets the set of its target computed again, and the entry that the
table has for the target is compared with it. The computation asks for the sets of the closures
inside the target, however, and those are answered from the table without a comparison. So a wrong
entry of such a closure decides unnoticed what the call comes to.

Where the entries of the closures are right, nothing else in the table matters: the call comes to
the instance that an analyzer makes that starts with nothing, or a wrong entry of the target is
reported (`Program.LateChecked`). Comparing the closures as well would be enough, since entries
cannot cover for each other: where each one agrees with the set computed from the others, all are
right (`Analyzer.rightInside_iff`).
-/

namespace Monomorph

open Relation

/-! ## The closures that are asked -/

/-- What a body uses depends on the sets of the closures that it names. -/
theorem Body.indices_congr {children children' : ChildSets} {b : Body}
    (h : ∀ site ∈ b.calls, children site.callee = children' site.callee) :
    b.indices children = b.indices children' := by
  -- Only calls look at the sets of closures, and each call is a site.
  have hops : ∀ op ∈ b.ops, op.action.indices children = op.action.indices children' := by
    intro op hop
    cases hact : op.action with
    | call kind callee args =>
      have hsite : ⟨kind, callee, args, op.span⟩ ∈ b.calls :=
        List.mem_filterMap.2 ⟨op, hop, by rw [hact]⟩
      have hcallee : children callee = children' callee := h _ hsite
      simp only [Action.indices, callIndices, hcallee]
    | _ => rfl
  rw [Body.indices, Body.indices, List.flatMap_congr hops]

/-- So do the unused parameters of an item. -/
theorem Item.unusedParams_congr {children children' : ChildSets} {it : Item}
    (h : ∀ b, it.body = some b → ∀ site ∈ b.calls,
      children site.callee = children' site.callee) :
    it.unusedParams children = it.unusedParams children' := by
  unfold Item.unusedParams
  split
  · rfl
  · next b hb => rw [Body.indices_congr (h b hb)]

/-- Whether item `c` is a closure inside item `i` and the body of `i` names it. -/
structure Program.Asks (p : Program) (i c : ItemId) : Prop where
  behind : i < c
  inside : (p.item c).isClosureIn i = true
  named : ∃ b, (p.item i).body = some b ∧ ∃ site ∈ b.calls, site.callee = c

/-- What an item asks for, however deep, lies behind it. -/
theorem Program.lt_of_transGen_asks {p : Program} {i c : ItemId} (h : TransGen p.Asks i c) :
    i < c := by
  induction h with
  | single h => exact h.behind
  | tail _ h ih => exact Nat.lt_trans ih h.behind

/-- Items are asked from the front to the back, so asking comes to an end. -/
theorem Program.wellFounded_asks (p : Program) : WellFounded fun c i => p.Asks i c := by
  refine Subrelation.wf ?_ (measure fun i => p.items.size - i).wf
  intro c i h
  exact Nat.sub_lt_sub_left (Nat.lt_trans h.behind (lt_size_of_isClosureIn h.inside)) h.behind

namespace Analyzer

variable {a b : Analyzer} {p : Program} {i : ItemId}

/-- The computed set of an item depends on the answers for the closures that it asks. -/
theorem computed_congr (henabled : a.enabled = b.enabled)
    (h : ∀ c, p.Asks i c → a.unused p c = b.unused p c) : a.computed p i = b.computed p i := by
  -- The set comes from those of the closures called, which both have alike.
  have hsets : (p.item i).unusedParams (a.childSets p i) =
      (p.item i).unusedParams (b.childSets p i) := by
    apply Item.unusedParams_congr
    intro body hbody site hsite
    rw [childSets_apply, childSets_apply]
    split
    · next hchild => rw [h site.callee ⟨hchild.1, hchild.2, body, hbody, site, hsite, rfl⟩]
    · rfl
  simp only [computed, compute, henabled]
  exact congrArg (fun s => if b.enabled = true then s else .empty) hsets

/-- The same analyzer before it knows anything. -/
def fresh (a : Analyzer) : Analyzer := { enabled := a.enabled }

/-- Without stored sets the answer is what is computed. -/
@[simp] theorem unused_fresh (a : Analyzer) (p : Program) (i : ItemId) :
    a.fresh.unused p i = a.fresh.computed p i := rfl

/-! ## Right entries -/

/-- Whether what is known of the closures inside an item, at any depth, is what an analyzer finds
    that knows nothing. -/
def RightInside (a : Analyzer) (p : Program) (i : ItemId) : Prop :=
  ∀ c s, TransGen p.Asks i c → a.known.get? c = some s → s = a.fresh.computed p c

/-- What is right inside an item is right inside everything it asks for. -/
theorem RightInside.of_asks {c : ItemId} (h : a.RightInside p i) (hc : TransGen p.Asks i c) :
    a.RightInside p c := fun d s hd => h d s (hc.trans hd)

/-- With right entries for the closures the set of an item is computed right. -/
theorem RightInside.computed_eq (h : a.RightInside p i) :
    a.computed p i = a.fresh.computed p i := by
  -- an answer for a closure is its entry, which is right, or is computed from closures inside it
  induction i using p.wellFounded_asks.induction with
  | _ i ih =>
    refine computed_congr rfl fun c hc => ?_
    rw [unused_fresh, unused]
    cases hknown : a.known.get? c with
    | none => exact ih c hc (h.of_asks (.single hc))
    | some s => exact h c s (.single hc) hknown

/-- Entries are right when each one agrees with the set computed from the others. -/
theorem rightInside_iff : a.RightInside p i ↔
    ∀ c s, TransGen p.Asks i c → a.known.get? c = some s → s = a.computed p c := by
  constructor
  · intro h c s hc hknown
    rw [(h.of_asks hc).computed_eq]
    exact h c s hc hknown
  · intro h c s hc hknown
    -- what is computed for a closure is right once the closures inside it are
    induction c using p.wellFounded_asks.transGen.induction generalizing s with
    | _ c ih =>
      have hinside : a.RightInside p c := by
        intro d t hd hdknown
        exact ih d (transGen_swap.1 hd) t (hc.trans hd) hdknown
      rw [← hinside.computed_eq]
      exact h c s hc hknown

/-! ## The comparison -/

/-- A verification answers what is computed. -/
@[simp] theorem verify_fst (a : Analyzer) (p : Program) (i : ItemId) :
    (a.verify p i).1 = a.computed p i := by
  unfold verify
  cases a.known.get? i with
  | none => rfl
  | some s => exact (apply_ite Prod.fst _ _ _).trans (ite_self _)

/-- The first comparison notes a conflict exactly if the item has an entry that is not the
    computed set. -/
theorem conflicts_verify (h : a.conflicts = []) : (a.verify p i).2.conflicts =
    match a.known.get? i with
    | some s => if s = a.computed p i then [] else [⟨i, s, a.computed p i⟩]
    | none => [] := by
  unfold verify
  cases a.known.get? i with
  | none => exact h
  | some s =>
    by_cases hs : s = a.computed p i
    · simpa [hs, consult] using h
    · simp [hs, consult, h]

end Analyzer

namespace Program

variable {p : Program} {config : Config} {table : UnusedTable} {callee target : ItemId}
  {args targetArgs : Args} {inst : Instance}

/-- The analyzer that late resolution asks. -/
def lateAnalyzer (config : Config) (table : UnusedTable) : Analyzer :=
  { enabled := config.polymorphize, known := table }

/-- The unused parameters as an analyzer finds them that starts with nothing. -/
def freshSets (p : Program) (config : Config) : UnusedSets :=
  Analyzer.unused { enabled := config.polymorphize } p

/-- With right sets inside, the late analyzer computes what a fresh one does. -/
theorem computed_lateAnalyzer (h : (lateAnalyzer config table).RightInside p target) :
    (lateAnalyzer config table).computed p target = p.freshSets config target :=
  h.computed_eq

/-! ## What a call comes to -/

/-- A call of an item with an argument for each parameter is decided by the comparison. -/
theorem resolveLate_of_item (hres : p.resolve callee args = .item target targetArgs)
    (hlength : targetArgs.length = (p.item target).generics.count) :
    let set := (lateAnalyzer config table).computed p target
    p.resolveLate config table callee args =
      match table.get? target with
      | some s =>
        if s = set then .ok (p.instanceWith set target targetArgs)
        else .error (p.conflictError ⟨target, s, set⟩)
      | none => .ok (p.instanceWith set target targetArgs) := by
  have harity : p.checkArity target targetArgs = .ok () := if_pos hlength
  have hconflicts := (lateAnalyzer config table).conflicts_verify (p := p) (i := target) rfl
  unfold lateAnalyzer at hconflicts ⊢
  simp only [resolveLate, hres, harity, Analyzer.verify_fst, Analyzer.freeze, hconflicts]
  -- The stored set, if there is one, is compared with the computed one.
  cases table.get? target with
  | none => rfl
  | some s =>
    by_cases hs : s = Analyzer.computed ⟨config.polymorphize, table, []⟩ p target
    · simp only [if_pos hs]
    · simp only [if_neg hs]

/-- A call that comes to an instance is a call of an item with an argument for each parameter. -/
theorem item_of_resolveLate (h : p.resolveLate config table callee args = .ok inst) :
    ∃ target targetArgs, p.resolve callee args = .item target targetArgs ∧
      targetArgs.length = (p.item target).generics.count := by
  unfold resolveLate at h
  split at h
  · exact nomatch h
  · exact nomatch h
  · next target targetArgs hres =>
    refine ⟨target, targetArgs, hres, ?_⟩
    -- With a wrong number of arguments the call would have been refused.
    by_contra hlength
    simp only [checkArity, hlength, if_false] at h
    exact nomatch h

/-! ## Where the check is enough -/

/-- Whether a call that is resolved late comes to what the collection made of it, or else to an
    error. -/
structure LateChecked (p : Program) (config : Config) (table : UnusedTable) (callee : ItemId)
    (args : Args) : Prop where
  /-- The only instance a call comes to is made with the sets of an analyzer that starts with
      nothing. -/
  sound : ∀ inst, p.resolveLate config table callee args = .ok inst → ∃ target targetArgs,
    p.resolve callee args = .item target targetArgs ∧
      p.instantiate (p.freshSets config) target targetArgs = .ok inst
  /-- The call does come to it unless the table has another set for its item. -/
  complete : ∀ target targetArgs inst, p.resolve callee args = .item target targetArgs →
    p.instantiate (p.freshSets config) target targetArgs = .ok inst →
    (∀ s, table.get? target = some s → s = p.freshSets config target) →
    p.resolveLate config table callee args = .ok inst
  /-- Another set is reported with the one found. -/
  reported : ∀ target targetArgs inst s, p.resolve callee args = .item target targetArgs →
    p.instantiate (p.freshSets config) target targetArgs = .ok inst →
    table.get? target = some s → s ≠ p.freshSets config target →
    p.resolveLate config table callee args =
      .error (p.conflictError ⟨target, s, p.freshSets config target⟩)

/-- A table has to be right about the closures inside the target, and about nothing else. -/
theorem resolveLate_checked
    (h : ∀ target targetArgs, p.resolve callee args = .item target targetArgs →
      (lateAnalyzer config table).RightInside p target) :
    p.LateChecked config table callee args where
  sound inst hinst := by
    -- an entry that differs would have been an error
    obtain ⟨target, targetArgs, hres, hlength⟩ := item_of_resolveLate hinst
    refine ⟨target, targetArgs, hres, ?_⟩
    rw [instantiate_eq_ok_iff]
    refine ⟨hlength, ?_⟩
    rw [resolveLate_of_item hres hlength, computed_lateAnalyzer (h _ _ hres)] at hinst
    split at hinst
    · split at hinst
      · exact (Except.ok.inj hinst).symm
      · exact nomatch hinst
    · exact (Except.ok.inj hinst).symm
  complete target targetArgs inst hres hinst hagrees := by
    obtain ⟨hlength, rfl⟩ := (instantiate_eq_ok_iff p _).1 hinst
    rw [resolveLate_of_item hres hlength, computed_lateAnalyzer (h _ _ hres)]
    cases hentry : table.get? target with
    | none => rfl
    | some s => exact if_pos (hagrees s hentry)
  reported target targetArgs inst s hres hinst hentry hdiffers := by
    obtain ⟨hlength, rfl⟩ := (instantiate_eq_ok_iff p _).1 hinst
    rw [resolveLate_of_item hres hlength, computed_lateAnalyzer (h _ _ hres), hentry]
    exact if_neg hdiffers

/-- A function of two parameters that hands both to a closure inside it, which uses the first. -/
def nested : Program where
  crates := ["app"]
  crateRegions := [0]
  regions := ["app"]
  items := #[
    { name := "f", path := "f", kind := .fn
      generics := { params := [⟨"T", .type⟩, ⟨"U", .type⟩] }
      body := some { ops := [
        { action := .call .direct 1 [.ty (.param 0), .ty (.param 1)] }] } },
    { name := "c", path := "f::c", kind := .closure
      generics := { parent := some 0, inherited := 2, params := [⟨"T", .type⟩, ⟨"U", .type⟩] }
      body := some { ops := [{ action := .use (.param 0) }] } }]

/-- With the right entry for the closure a wrong one for the function is reported. -/
theorem resolveLate_checked_nested :
    let table := (UnusedTable.empty.insert 1 ⟨2⟩).insert 0 (.firstN 2)
    let args : Args := [.ty (.prim .u8), .ty (.prim .u16)]
    (∀ target targetArgs, nested.resolve 0 args = .item target targetArgs →
      (lateAnalyzer {} table).RightInside nested target) ∧
    nested.LateChecked {} table 0 args ∧
    nested.resolveLate {} table 0 args = .error (nested.conflictError ⟨0, .firstN 2, ⟨2⟩⟩) := by
  intro table args
  have hright : ∀ target targetArgs, nested.resolve 0 args = .item target targetArgs →
      (lateAnalyzer {} table).RightInside nested target := by
    intro target targetArgs hres c s hc hentry
    obtain rfl : 0 = target := (Resolution.item.inj hres).1
    have hpos : c ≠ 0 := Nat.ne_of_gt (lt_of_transGen_asks hc)
    -- behind the function stands only the closure
    have hentry : table.get? c = some s := hentry
    simp only [table, UnusedTable.get?_insert, hpos, if_false] at hentry
    split at hentry
    · next hc =>
      subst hc
      obtain rfl := Option.some.inj hentry
      decide +kernel
    · exact nomatch hentry
  have hchecked := resolveLate_checked hright
  refine ⟨hright, hchecked, ?_⟩
  exact hchecked.reported 0 args ⟨.item 0, [.ty (.prim .u8), .ty (.param 1)]⟩ (.firstN 2) rfl
    (by decide +kernel) rfl (by decide +kernel)

/-- An entry that takes both parameters of the closure for unused is believed: the call comes to an
    instance that the collection never made. -/
theorem resolveLate_nested_stale :
    let table := UnusedTable.empty.insert 1 (.firstN 2)
    let args : Args := [.ty (.prim .u8), .ty (.prim .u16)]
    nested.resolveLate {} table 0 args = .ok ⟨.item 0, [.ty (.param 0), .ty (.param 1)]⟩ ∧
    nested.instantiate (nested.freshSets {}) 0 args =
      .ok ⟨.item 0, [.ty (.prim .u8), .ty (.param 1)]⟩ ∧
    ¬ nested.LateChecked {} table 0 args := by
  intro table args
  have hres : nested.resolve 0 args = .item 0 args := rfl
  have hset : (lateAnalyzer {} table).computed nested 0 = .firstN 2 := by decide +kernel
  have hlate : nested.resolveLate {} table 0 args =
      .ok ⟨.item 0, [.ty (.param 0), .ty (.param 1)]⟩ := by
    rw [resolveLate_of_item hres rfl, hset]
    rfl
  have hfresh : nested.instantiate (nested.freshSets {}) 0 args =
      .ok ⟨.item 0, [.ty (.prim .u8), .ty (.param 1)]⟩ := by rfl
  -- The late answer would have to be the fresh one, and they differ in the first argument.
  refine ⟨hlate, hfresh, fun hchecked => ?_⟩
  obtain ⟨target, targetArgs, hres, hinst⟩ := hchecked.sound _ hlate
  obtain ⟨rfl, rfl⟩ := Resolution.item.inj hres
  have hsame := Except.ok.inj (hfresh.symm.trans hinst)
  exact nomatch Arg.ty.inj (List.cons.inj (Instance.mk.inj hsame).2).1

end Program

end Monomorph
