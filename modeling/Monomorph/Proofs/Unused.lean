import Monomorph.Proofs.Substitution
import Monomorph.Unused.Analyzer

/-!
# What an unused parameter guarantees

Where the analyzer puts a parameter into the unused set of an item, no operation of the item's body
that other instances depend on mentions it; the one exception are arguments that a closure inside
the item does not use in its turn (`Analyzer.used_of_call`). Normalization may therefore replace the
arguments in unused slots, and only those.
-/

namespace Monomorph

/-! ## Ties only take away -/

namespace ParamSet

/-- What is left after erasing was there and was not erased. -/
theorem contains_of_contains_eraseAll {s : ParamSet} {is : List Nat} {i : Nat}
    (h : (s.eraseAll is).contains i = true) : s.contains i = true ∧ i ∉ is := by
  rw [contains_eraseAll, Bool.and_eq_true, decide_eq_true_eq] at h
  exact h

/-- Tying puts nothing into a set. -/
theorem contains_of_contains_tie {s : ParamSet} {group : List Nat} {i : Nat}
    (h : (s.tie group).contains i = true) : s.contains i = true := by
  unfold tie at h
  split at h
  · exact (contains_of_contains_eraseAll h).1
  · exact h

/-- Tying all groups puts nothing into a set. -/
theorem contains_of_contains_tieAll {s : ParamSet} {groups : List (List Nat)} {i : Nat}
    (h : (s.tieAll groups).contains i = true) : s.contains i = true := by
  unfold tieAll at h
  induction groups generalizing s with
  | nil => exact h
  | cons group groups ih => exact contains_of_contains_tie (ih h)

/-- Tying groups together never makes a parameter unused. -/
theorem contains_of_contains_settle {s : ParamSet} {groups : List (List Nat)} {i : Nat}
    (h : (s.settle groups).contains i = true) : s.contains i = true := by
  -- a round only takes positions out, and so does any number of rounds
  have rounds : ∀ (rs : List (List Nat)) (s : ParamSet),
      (rs.foldl (fun s _ => s.tieAll groups) s).contains i = true → s.contains i = true := by
    intro rs
    induction rs with
    | nil => exact fun s h => h
    | cons r rs ih => exact fun s h => contains_of_contains_tieAll (ih _ h)
  exact rounds groups s h

end ParamSet

/-! ## One item -/

/-- An unused parameter exists, the item has a body, and nothing the body uses mentions it. -/
theorem Item.contains_unusedParams {children : ChildSets} {it : Item} {i : Nat}
    (h : (it.unusedParams children).contains i = true) :
    ∃ b, it.body = some b ∧ i < it.generics.count ∧ i ∉ b.indices children := by
  -- without a body there are no unused parameters
  unfold Item.unusedParams at h
  split at h
  · simp at h
  · next b hb =>
    obtain ⟨hfirst, hbody⟩ :=
      ParamSet.contains_of_contains_eraseAll (ParamSet.contains_of_contains_settle h)
    rw [ParamSet.contains_firstN, Bool.and_eq_true, decide_eq_true_eq] at hfirst
    exact ⟨b, hb, hfirst.1, hbody⟩

namespace Analyzer

variable (a : Analyzer) (p : Program)

/-- The closures inside an item with their sets, as the analyzer sees them. -/
def childSets (i : ItemId) : ChildSets :=
  children i (p.items.toList.drop (i + 1)) (a.setsFrom (i + 1) (p.items.toList.drop (i + 1)))

/-- Where nothing is known of an item, its set is computed. -/
theorem unused_of_unknown {i : ItemId} (h : a.known.get? i = none) :
    a.unused p i = if a.enabled then (p.item i).unusedParams (a.childSets p i) else .empty := by
  simp only [unused, h, Option.getD_none, computed, compute, childSets]

/-- The analyzer takes the items behind an item that are closures inside it for such, each with its
    set. -/
theorem childSets_apply (i callee : ItemId) :
    a.childSets p i callee =
      if i < callee ∧ (p.item callee).isClosureIn i = true then some (a.unused p callee)
      else none := by
  unfold childSets children
  by_cases hlt : i < callee
  · -- the table that the answers come from starts right behind the item
    have hpos : i + 1 + (callee - (i + 1)) = callee := Nat.add_sub_of_le hlt
    simp only [hlt, if_true, true_and, getElem?_setsFrom, List.getElem?_drop, hpos,
      Array.getElem?_toList]
    cases hit : p.items[callee]? with
    | none =>
      have hitem : p.item callee = default := by simp [Program.item, hit]
      simp only [hitem]
      rfl
    | some it =>
      have hitem : p.item callee = it := by simp [Program.item, hit]
      simp only [hitem, Option.map_some, List.drop_drop, ← Nat.add_assoc, hpos]
      rw [unused, computed, hitem]
  · simp [hlt]

/-- What the analyzer takes for a closure inside an item is one, and it takes the closure's set. -/
theorem childSets_eq_some {i callee : ItemId} {s : ParamSet}
    (h : a.childSets p i callee = some s) :
    (p.item callee).kind = .closure ∧ s = a.unused p callee := by
  rw [childSets_apply] at h
  split at h
  · next hchild =>
    have hclosure := hchild.2
    rw [Item.isClosureIn, Bool.and_eq_true, beq_iff_eq] at hclosure
    exact ⟨hclosure.1, (Option.some.inj h).symm⟩
  · exact nomatch h

/-! ## What a body does not mention -/

section Body

variable {a p} {i : ItemId} {b : Body}

/-- An unused parameter is the analysis's answer to the body of the item. -/
theorem exists_body_of_unused (hknown : a.known.get? i = none) {k : Nat}
    (hk : (a.unused p i).contains k = true) :
    ∃ b, (p.item i).body = some b ∧ k < (p.item i).generics.count ∧
      k ∉ b.indices (a.childSets p i) := by
  rw [a.unused_of_unknown p hknown] at hk
  split at hk
  · exact Item.contains_unusedParams hk
  · simp at hk

/-- Unused positions are positions of parameters. -/
theorem lt_count_of_unused (hknown : a.known.get? i = none) {k : Nat}
    (hk : (a.unused p i).contains k = true) : k < (p.item i).generics.count := by
  obtain ⟨-, -, hlt, -⟩ := exists_body_of_unused hknown hk
  exact hlt

/-- What the body's operations use is used. -/
private theorem used_of_mem_indices (hknown : a.known.get? i = none)
    (hb : (p.item i).body = some b) {op : Operation} (hop : op ∈ b.ops) {k : Nat}
    (hk : k ∈ op.action.indices (a.childSets p i)) : (a.unused p i).contains k = false := by
  rw [Bool.eq_false_iff]
  intro hu
  obtain ⟨b', hb', -, hmem⟩ := exists_body_of_unused hknown hu
  obtain rfl := Option.some.inj (hb.symm.trans hb')
  exact hmem (List.mem_append_right _ (List.mem_flatMap.2 ⟨op, hop, hk⟩))

/-- Whatever the type of a dropped value mentions is used. -/
theorem used_of_drop (hknown : a.known.get? i = none) (hb : (p.item i).body = some b)
    {t : Ty} {span : Span} (hs : (t, span) ∈ b.drops) {m : Mention} (hm : m ∈ t.mentions) :
    (a.unused p i).contains m.2 = false := by
  -- a dropped value is the operand of an operation of the body
  obtain ⟨op, hop, he⟩ := List.mem_filterMap.1 hs
  split at he
  · next u hact =>
    obtain ⟨rfl, -⟩ := Prod.mk.inj (Option.some.inj he)
    apply used_of_mem_indices hknown hb hop
    rw [hact]
    exact (Ty.mem_indices _).2 ⟨m.1, hm⟩
  · exact nomatch he

/-- Whatever the two types of a coercion mention is used. -/
theorem used_of_unsize (hknown : a.known.get? i = none) (hb : (p.item i).body = some b)
    {source target : Ty} {span : Span} (hs : (source, target, span) ∈ b.unsizes) {m : Mention}
    (hm : m ∈ source.mentions ∨ m ∈ target.mentions) : (a.unused p i).contains m.2 = false := by
  obtain ⟨op, hop, he⟩ := List.mem_filterMap.1 hs
  -- The site is an operation that coerces, whose types are counted.
  split at he
  · next u v hact =>
    obtain ⟨rfl, hrest⟩ := Prod.mk.inj (Option.some.inj he)
    obtain ⟨rfl, -⟩ := Prod.mk.inj hrest
    apply used_of_mem_indices hknown hb hop
    rw [hact]
    refine List.mem_append.2 (hm.imp ?_ ?_) <;> exact fun hm => (Ty.mem_indices _).2 ⟨m.1, hm⟩
  · exact nomatch he

/-- Whatever an argument of a call mentions is used, unless the callee is a closure that does not
    use the argument. -/
theorem used_of_call (hknown : a.known.get? i = none) (hb : (p.item i).body = some b)
    {site : CallSite} (hs : site ∈ b.calls) {j : Nat} {arg : Arg Ty}
    (harg : site.args[j]? = some arg) {m : Mention} (hm : m ∈ arg.mentioned) :
    (a.unused p i).contains m.2 = false ∨
      (p.item site.callee).kind = .closure ∧ (a.unused p site.callee).contains j = true := by
  obtain ⟨op, hop, he⟩ := List.mem_filterMap.1 hs
  split at he
  · next kind callee args hact =>
    obtain rfl := Option.some.inj he
    have hused : ∀ k, k ∈ callIndices (a.childSets p i) callee args →
        (a.unused p i).contains k = false := fun k hk =>
      used_of_mem_indices hknown hb hop (by rw [hact]; exact hk)
    have hmem : ∀ as : Args, arg ∈ as → m.2 ∈ as.indices := fun as has =>
      (Args.mem_indices as).2 ⟨m.1, List.mem_flatMap.2 ⟨arg, has, hm⟩⟩
    cases hchild : a.childSets p i callee with
    | none =>
      -- all arguments count for a callee that is not a closure of the item
      refine .inl (hused _ ?_)
      rw [callIndices, hchild]
      exact hmem args (List.mem_of_getElem? harg)
    | some s =>
      obtain ⟨hkind, rfl⟩ := a.childSets_eq_some p hchild
      by_cases hj : (a.unused p callee).contains j = true
      · exact .inr ⟨hkind, hj⟩
      · -- for such a closure only the arguments count that it uses
        refine .inl (hused _ ?_)
        rw [callIndices, hchild]
        refine List.mem_flatMap.2 ⟨(arg, j), List.mem_filter.2 ⟨?_, by simpa using hj⟩, ?_⟩
        · exact List.mk_mem_zipIdx_iff_getElem?.2 harg
        · exact hmem [arg] List.mem_cons_self
  · exact nomatch he

end Body

end Analyzer

end Monomorph
