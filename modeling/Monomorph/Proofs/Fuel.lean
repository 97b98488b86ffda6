import Monomorph.Collect.Items

/-!
# More fuel changes nothing

The searches of the model take fuel and give `none` when it runs out. Whatever ends with some fuel
ends in the same way with more, from the classification of a type up to a whole collection, so a
result does not depend on the fuel that was enough for it.
-/

namespace Monomorph

/-- What asking the first of some parts can come to. -/
theorem anyPart_cons_eq_some_iff {ask : Ty → DropMemo → Option (Bool × DropMemo)}
    {part : DropPart} {rest : List DropPart} {m : DropMemo} {r : Bool × DropMemo} :
    anyPart ask (part :: rest) m = some r ↔
      (∃ e, part.ty = .error e ∧ r = (true, m.note part.formed)) ∨
      ∃ t m₁, part.ty = .ok t ∧ ((ask t (m.note part.formed) = some (true, m₁) ∧ r = (true, m₁)) ∨
        (ask t (m.note part.formed) = some (false, m₁) ∧ anyPart ask rest m₁ = some r)) := by
  cases ht : part.ty with
  | error e => simp [anyPart, ht, eq_comm]
  | ok t =>
    simp only [anyPart, ht]
    cases hr : ask t (m.note part.formed) with
    | none => simp [hr]
    | some r₁ =>
      obtain ⟨b, m₁⟩ := r₁
      cases b <;> simp [hr, eq_comm]

/-- Asking parts goes the same way if every single answer does. -/
theorem anyPart_mono {ask ask' : Ty → DropMemo → Option (Bool × DropMemo)}
    (hask : ∀ t m r, ask t m = some r → ask' t m = some r) {parts : List DropPart} {m : DropMemo}
    {r : Bool × DropMemo} (h : anyPart ask parts m = some r) : anyPart ask' parts m = some r := by
  induction parts generalizing m with
  | nil => exact h
  | cons part rest ih =>
    -- the same parts are asked about, in the same order, until one of them answers
    rw [anyPart_cons_eq_some_iff] at h ⊢
    obtain h | ⟨t, m₁, ht, ⟨hm, hr⟩ | ⟨hm, hr⟩⟩ := h
    · exact .inl h
    · exact .inr ⟨t, m₁, ht, .inl ⟨hask _ _ _ hm, hr⟩⟩
    · exact .inr ⟨t, m₁, ht, .inr ⟨hask _ _ _ hm, ih hr⟩⟩

namespace Program

variable {p : Program} {fuel fuel' : Nat}

/-- A classification that has ended gives the same answer with more fuel. -/
theorem classify_mono (hle : fuel ≤ fuel') {busy : Index Ty Unit} {t : Ty} {m : DropMemo}
    {r : Bool × DropMemo} (h : p.classify fuel busy t m = some r) :
    p.classify fuel' busy t m = some r := by
  induction fuel generalizing fuel' busy t m r with
  | zero => exact nomatch h
  | succ fuel ih =>
    obtain ⟨k, rfl⟩ : ∃ k, fuel' = k + 1 := ⟨fuel' - 1, by omega⟩
    have hle : fuel ≤ k := by omega
    unfold classify at h ⊢
    split at h
    · next hprim => rw [if_pos hprim, h]
    · next hprim =>
      rw [if_neg hprim]
      -- only the last case asks further, with one unit of fuel less on both sides
      cases hfind : m.find? t with
      | some b => simpa only [hfind] using h
      | none =>
        simp only [hfind] at h ⊢
        split at h
        · next hbusy => rw [if_pos hbusy, h]
        · next hbusy =>
          rw [if_neg hbusy]
          cases hshape : p.dropShape t with
          | trivial => simpa only [hshape] using h
          | always => simpa only [hshape] using h
          | parts ps =>
            simp only [hshape] at h ⊢
            obtain ⟨r', hr', he⟩ := Option.map_eq_some_iff.1 h
            have hask := fun u m r (h : p.classify fuel (busy.insert t ()) u m = some r) => ih hle h
            rw [anyPart_mono hask hr', Option.map_some, he]

/-- So does the choice of glue for a type. -/
theorem glue?_mono (hle : fuel ≤ fuel') {t : Ty} {m : DropMemo} {r : Option Instance × DropMemo}
    (h : p.glue? fuel t m = some r) : p.glue? fuel' t m = some r := by
  unfold glue? needsDrop at h ⊢
  split at h
  · exact h
  · obtain ⟨r', hr', he⟩ := Option.map_eq_some_iff.1 h
    rw [classify_mono hle hr', Option.map_some, he]

/-- So does the settling of a list of needs. -/
theorem settle_mono (hle : fuel ≤ fuel') {needs : List Need} {m : DropMemo}
    {r : List Neighbor × DropMemo} (h : p.settle fuel needs m = some r) :
    p.settle fuel' needs m = some r := by
  induction needs generalizing m r with
  | nil => exact h
  | cons need rest ih =>
    cases need with
    | use n =>
      simp only [settle, Option.bind_eq_bind, Option.bind_eq_some_iff] at h ⊢
      obtain ⟨r', hr', h⟩ := h
      exact ⟨r', ih hr', h⟩
    | glue t kind span =>
      simp only [settle, Option.bind_eq_bind, Option.bind_eq_some_iff] at h ⊢
      obtain ⟨r₁, hr₁, r₂, hr₂, h⟩ := h
      exact ⟨r₁, glue?_mono hle hr₁, r₂, ih hr₂, h⟩

end Program

namespace Walk

variable {p : Program} {config : Config} {unused : UnusedSets} {fuel fuel' : Nat}

/-- So does the scan of an instance. -/
theorem scan_mono (hle : fuel ≤ fuel') {w w' : Walk} {inst : Instance}
    (h : w.scan p unused fuel inst = some w') : w.scan p unused fuel' inst = some w' := by
  simp only [scan, scanned, Option.bind_eq_bind, Option.bind_eq_some_iff] at h ⊢
  obtain ⟨r, hr, h⟩ := h
  exact ⟨r, Program.settle_mono hle hr, h⟩

/-- So does the entering of an instance, whose checks take no fuel. -/
theorem enter_mono (hle : fuel ≤ fuel') {w w' : Walk} {inst : Instance} {span : Span}
    (h : w.enter p config unused fuel inst span = some w') :
    w.enter p config unused fuel' inst span = some w' := by
  unfold enter enterBy claimBy at h ⊢
  -- only the scan takes fuel, and the three checks before it come out the same
  split at h
  · next hclaimed => rw [if_pos hclaimed, h]
  · next hclaimed =>
    rw [if_neg hclaimed]
    simp only at h ⊢
    split at h
    · next hlong => rw [if_pos hlong, h]
    · next hlong =>
      rw [if_neg hlong]
      split at h
      · next hdeep => rw [if_pos hdeep, h]
      · next hdeep =>
        rw [if_neg hdeep]
        split at h
        · next hgen => rw [if_pos hgen, scan_mono hle h]
        · next hgen => rw [if_neg hgen, h]

/-- So does one step of the walk. -/
theorem step_mono (hle : fuel ≤ fuel') {w w' : Walk}
    (h : w.step p config unused fuel = some w') : w.step p config unused fuel' = some w' := by
  unfold step stepBy at h ⊢
  split at h
  · exact enter_mono hle h
  · exact h
  · split at h
    · exact enter_mono hle h
    · exact h

/-- A walk that ends with some fuel ends in the same way with more. -/
theorem run_mono (hle : fuel ≤ fuel') {w w' : Walk}
    (h : w.run p config unused fuel = some w') : w.run p config unused fuel' = some w' := by
  induction fuel generalizing fuel' w with
  | zero => exact nomatch h
  | succ fuel ih =>
    obtain ⟨k, rfl⟩ : ∃ k, fuel' = k + 1 := ⟨fuel' - 1, by omega⟩
    have hle : fuel ≤ k := by omega
    unfold run runBy at h ⊢
    -- the step and the rest of the run have one unit of fuel less on both sides
    split at h
    · next hdone => rw [if_pos hdone, h]
    · next hdone =>
      rw [if_neg hdone]
      simp only [Option.bind_eq_bind, Option.bind_eq_some_iff] at h ⊢
      obtain ⟨w₁, hw₁, h⟩ := h
      exact ⟨w₁, step_mono hle hw₁, ih hle h⟩

end Walk

/-- A collection that ends with some fuel ends in the same way with more. -/
theorem Program.collect_mono {p : Program} {config : Config} {analyzer : Analyzer}
    {fuel fuel' : Nat} (hle : fuel ≤ fuel') {r : CollectResult}
    (h : p.collect config analyzer fuel = some r) : p.collect config analyzer fuel' = some r := by
  simp only [Program.collect, Option.bind_eq_bind, Option.bind_eq_some_iff] at h ⊢
  obtain ⟨w, hw, h⟩ := h
  exact ⟨w, Walk.run_mono hle hw, h⟩

end Monomorph
