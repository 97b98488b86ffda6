import Monomorph.Proofs.Bounded

/-!
# Programs in which every type can be classified

A classification stops at the first part that needs drop, and whether a part does may depend on what
was classified before: where types lie inside themselves by value, an answer that was found under
way can take the place of the one that would have stopped the search in front of an endless part. So
that every type can be classified is asked for every memory that classifications leave behind
(`Program.AlwaysClassifies`). It is enough that every value is made of finitely many types, which
may lie inside themselves.
-/

namespace Monomorph

/-- What classifications, one after the other, can leave behind. -/
inductive DropMemo.Left (p : Program) : DropMemo → Prop
  | empty : Left p {}
  | next {m m' : DropMemo} {fuel : Nat} {t : Ty} {b : Bool} : Left p m →
    p.needsDrop fuel t m = some (b, m') → Left p m'

namespace Program

variable {p : Program}

/-- Every type can be classified, whatever was classified before. -/
def AlwaysClassifies (p : Program) : Prop :=
  ∀ m : DropMemo, m.Left p → ∀ t, ∃ fuel, (p.needsDrop fuel t m).isSome = true

/-! ## Scans -/

/-- Looking up glue is classifying some types, one after the other. -/
theorem preserves_left : p.Preserves (DropMemo.Left p) := fun _ _ _ _ _ hm h =>
  (settle_sifts (A := fun _ _ => True) (fun _ _ _ _ hm hb => ⟨trivial, hm.next hb⟩) hm h).2

/-- A scan ends if the types that it asks about can be classified. -/
theorem AlwaysClassifies.exists_settle (hp : p.AlwaysClassifies) (needs : List Need) {m : DropMemo}
    (hm : m.Left p) : ∃ fuel r, p.settle fuel needs m = some r := by
  induction needs generalizing m with
  | nil => exact ⟨0, _, rfl⟩
  | cons need rest ih =>
    cases need with
    | use n =>
      obtain ⟨fuel, ⟨ns, m'⟩, h⟩ := ih hm
      exact ⟨fuel, _, settle_use_eq_some_iff.2 ⟨ns, h, rfl⟩⟩
    | glue t kind span =>
      have hglue : ∃ fuel inst? m₁, DropMemo.Left p m₁ ∧ p.glue? fuel t m = some (inst?, m₁) := by
        by_cases hdyn : ∃ i, t = .dyn i
        · obtain ⟨i, rfl⟩ := hdyn
          exact ⟨0, _, m, hm, p.glue?_dyn 0 i m⟩
        · obtain ⟨fuel, h⟩ := hp m hm t
          obtain ⟨⟨b, m₁⟩, h⟩ := Option.isSome_iff_exists.1 h
          have hne : ∀ i, t ≠ .dyn i := fun i he => hdyn ⟨i, he⟩
          exact ⟨fuel, _, m₁, hm.next h, (glue?_eq_some_iff hne).2 ⟨b, h, rfl⟩⟩
      -- the rest goes on with what the type has left behind
      obtain ⟨fuel₁, inst?, m₁, hm₁, h₁⟩ := hglue
      obtain ⟨fuel₂, ⟨ns, m'⟩, h₂⟩ := ih hm₁
      have h₁ := glue?_mono (Nat.le_max_left fuel₁ fuel₂) h₁
      have h₂ := settle_mono (Nat.le_max_right fuel₁ fuel₂) h₂
      exact ⟨max fuel₁ fuel₂, _, settle_glue_eq_some_iff.2 ⟨inst?, m₁, ns, h₁, h₂, rfl⟩⟩

/-! ## Types that do not lie inside themselves -/

/-- Whatever a classification leaves in its memo is right. -/
theorem sound_of_left (hacyclic : p.ByValueAcyclic) {m : DropMemo} (h : m.Left p) : m.Sound p := by
  induction h with
  | empty => exact DropMemo.sound_empty
  | next _ hb ih => exact (classify_sound hacyclic (around_empty _) ih hb).2

/-! ## Values made of finitely many types -/

/-- Asking about parts ends when asking about each one ends. -/
theorem isSome_anyPart {ask : Ty → DropMemo → Option (Bool × DropMemo)} {parts : List DropPart}
    (h : ∀ part ∈ parts, ∀ u, part.ty = .ok u → ∀ m, (ask u m).isSome = true) (m : DropMemo) :
    (anyPart ask parts m).isSome = true := by
  induction parts generalizing m with
  | nil => rfl
  | cons part rest ih =>
    -- the search stops at the first part that matters, and a part without a type matters
    rw [Option.isSome_iff_exists]
    cases hu : part.ty with
    | error e => exact ⟨_, anyPart_cons_eq_some_iff.2 (.inl ⟨e, hu, rfl⟩)⟩
    | ok u =>
      obtain ⟨⟨b, m₁⟩, hask⟩ :=
        Option.isSome_iff_exists.1 (h part List.mem_cons_self u hu (m.note part.formed))
      cases b with
      | true => exact ⟨_, anyPart_cons_eq_some_iff.2 (.inr ⟨u, m₁, hu, .inl ⟨hask, rfl⟩⟩)⟩
      | false =>
        have hrest := ih (fun q hq => h q (List.mem_cons_of_mem _ hq)) m₁
        obtain ⟨r, hr⟩ := Option.isSome_iff_exists.1 hrest
        exact ⟨r, anyPart_cons_eq_some_iff.2 (.inr ⟨u, m₁, hu, .inr ⟨hask, hr⟩⟩)⟩

/-- Among finitely many types that have all that lies inside them, the fuel need not exceed the
    number of those that are not under classification. -/
private theorem isSome_classify {S : Finset Ty} (hS : ∀ t ∈ S, ∀ u, p.ByValue t u → u ∈ S)
    {n : Nat} {busy : Index Ty Unit}
    (hn : (S.filter fun t => busy.contains t = false).card ≤ n) {t : Ty} (ht : t ∈ S)
    (m : DropMemo) : (p.classify (n + 1) busy t m).isSome = true := by
  induction n generalizing busy t m with
  | zero =>
    -- all types are under classification, and so is this one
    have hbusy : busy.contains t = true := by
      by_contra h
      have hmem : t ∈ S.filter fun t => busy.contains t = false :=
        Finset.mem_filter.2 ⟨ht, by simpa using h⟩
      have := Finset.card_pos.2 ⟨t, hmem⟩
      omega
    unfold classify
    split
    · rfl
    · split
      · rfl
      · rfl
  | succ n ih =>
    unfold classify
    split
    · rfl
    · split
      · rfl
      · split
        · rfl
        · next hbusy =>
          split
          · rfl
          · rfl
          · next ps hshape =>
            rw [Option.isSome_map]
            apply isSome_anyPart
            intro part hpart u hu m
            refine ih ?_ (hS t ht u (byValue_of_part hshape hpart hu)) m
            -- this type is now under classification too
            have hsub : (S.filter fun s => (busy.insert t ()).contains s = false) ⊂
                S.filter fun s => busy.contains s = false := by
              refine Finset.ssubset_iff_of_subset ?_ |>.2 ⟨t, ?_, ?_⟩
              · intro s hs
                simp only [Finset.mem_filter, Index.contains_insert, Bool.or_eq_false_iff] at hs ⊢
                exact ⟨hs.1, hs.2.2⟩
              · exact Finset.mem_filter.2 ⟨ht, by simpa using hbusy⟩
              · simp [Index.contains_insert]
            have := Finset.card_lt_card hsub
            omega

/-- A type can be classified if only finitely many types lie inside it, whatever was classified
    before. -/
theorem exists_needsDrop_of_finite {t : Ty} (h : {u | Relation.ReflTransGen p.ByValue t u}.Finite)
    (m : DropMemo) : ∃ fuel, (p.needsDrop fuel t m).isSome = true := by
  refine ⟨_, isSome_classify (S := h.toFinset) ?_ (Nat.le_refl _) ?_ m⟩
  · intro u hu v hv
    rw [Set.Finite.mem_toFinset] at hu ⊢
    exact Relation.ReflTransGen.tail hu hv
  · rw [Set.Finite.mem_toFinset]
    exact .refl

/-- Where every value is made of finitely many types, every type can be classified. -/
theorem alwaysClassifies_of_finite
    (h : ∀ t, {u | Relation.ReflTransGen p.ByValue t u}.Finite) : p.AlwaysClassifies :=
  fun m _ t => exists_needsDrop_of_finite (h t) m

/-- Whether every field is a parameter or a type without parameters. -/
def GroundFields (p : Program) : Prop :=
  ∀ i fields, (p.item i).kind = .adt fields → ∀ f ∈ fields,
    (∃ k, f = .param k) ∨ f.hasParams = false

/-- A depth that no field of the program exceeds. -/
theorem exists_field_depth (p : Program) : ∃ d, ∀ i fields, (p.item i).kind = .adt fields →
    ∀ f ∈ fields, f.depth ≤ d := by
  let depths := (default :: p.items.toList).flatMap fun it => it.kind.fields.map Ty.depth
  refine ⟨depths.foldl max 0, fun i fields hkind f hf => ?_⟩
  apply (foldl_max_le_iff.1 (Nat.le_refl _)).2
  refine List.mem_flatMap.2 ⟨p.item i, item_mem i, ?_⟩
  rw [hkind]
  exact List.mem_map_of_mem hf

/-- If the fields of types are parameters or have none, only finitely many types lie by value inside
    each one: they are not deeper than it or than the fields are. -/
theorem GroundFields.finite (hp : p.GroundFields) (t : Ty) :
    {u | Relation.ReflTransGen p.ByValue t u}.Finite := by
  obtain ⟨d, hd⟩ := p.exists_field_depth
  apply (Ty.finite_of_letters_of_depth (t.letters ++ p.letters) (max t.depth d)).subset
  intro u hu
  -- by induction on the way from the type to what lies inside
  induction hu with
  | refl => exact ⟨List.subset_append_left _ _, Nat.le_max_left _ _⟩
  | @tail u v _ hstep ih =>
    obtain ⟨hletters, hdepth⟩ := ih
    have hslot : ∀ v, Arg.ty v ∈ u.node.slots →
        v.letters ⊆ t.letters ++ p.letters ∧ v.depth ≤ max t.depth d := by
      intro v hv
      refine ⟨hereditary_letters _ u hletters _ hv, ?_⟩
      -- what stands in a slot is even less deep than the type
      obtain ⟨k, hk⟩ : ∃ k, max t.depth d = k + 1 :=
        ⟨max t.depth d - 1, by have := t.one_le_depth; omega⟩
      rw [hk, ← u.of_node] at hdepth
      exact hk ▸ Nat.le_succ_of_le (Ty.depth_of_le_iff.1 hdepth v hv)
    obtain hv | ⟨i, args, fields, rfl, hkind, f, hf, hv⟩ := slot_or_field_of_byValue hstep
    · exact hslot v hv
    · obtain ⟨k, rfl⟩ | hground := hp i fields hkind f hf
      · rw [Ty.subst_param, Args.tyAt_eq_ok_iff] at hv
        exact hslot v (List.mem_of_getElem? hv)
      · obtain rfl := Except.ok.inj ((Ty.subst_of_hasParams_eq_false hground).symm.trans hv)
        exact ⟨List.subset_append_of_subset_right _ (letters_field_subset hkind hf),
          Nat.le_trans (hd i fields hkind f hf) (Nat.le_max_right _ _)⟩

end Program

end Monomorph
