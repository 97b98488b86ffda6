import Monomorph.Proofs.History

/-!
# One type has one answer

Whether a type that lies inside itself is said to need drop depends on what was asked before. But
once a type has been asked about its answer is remembered, and nothing overwrites what is remembered
(`Program.classify_retains`). So all questions about one type get the answer of the first, whatever
is asked in between: the answer is there in the memory that the first question leaves behind
(`Program.answer?_of_needsDrop`), and in every later one (`DropMemo.Later.retains`).
-/

namespace Monomorph

namespace DropMemo

/-- The answer that is given for a type without looking inside. -/
def answer? (m : DropMemo) (t : Ty) : Option Bool :=
  if t.isPrimitive then some false else m.find? t

/-- Whether everything that was remembered is so still. -/
def Retains (m m' : DropMemo) : Prop := ∀ t b, m.find? t = some b → m'.find? t = some b

variable {m m' : DropMemo} {t : Ty} {b : Bool}

/-- A memo retains its own answers. -/
theorem Retains.refl (m : DropMemo) : m.Retains m := fun _ _ h => h

/-- What is retained twice is retained. -/
theorem Retains.trans {m₁ m₂ m₃ : DropMemo} (h : m₁.Retains m₂) (h' : m₂.Retains m₃) :
    m₁.Retains m₃ := fun t b ht => h' t b (h t b ht)

/-- A new answer overwrites nothing. -/
theorem Retains.record (h : m.Retains m') (hnew : m.find? t = none) :
    m.Retains (m'.record t b) := by
  intro u c hu
  rw [find?_record]
  split
  · next he =>
    rw [← he, hnew] at hu
    cases hu
  · exact h u c hu

/-- An answer is given again by a memo that retains it. -/
theorem Retains.answer? (h : m.Retains m') (ht : m.answer? t = some b) : m'.answer? t = some b := by
  unfold DropMemo.answer? at ht ⊢
  by_cases hprim : t.isPrimitive = true
  · rwa [if_pos hprim] at ht ⊢
  · rw [if_neg hprim] at ht ⊢
    exact h t b ht

/-- A recorded answer is given again. -/
theorem answer?_record (hprim : ¬ t.isPrimitive = true) : (m.record t b).answer? t = some b := by
  rw [answer?, if_neg hprim, find?_record, if_pos rfl]

/-- What the memory says of a type is credible if all that is remembered is. -/
theorem Credible.answer {p : Program} (h : m.Credible p) (ht : m.answer? t = some b) :
    p.Credible t b := by
  unfold DropMemo.answer? at ht
  split at ht
  · next hprim =>
    obtain rfl := Option.some.inj ht
    exact fun _ => Program.not_needsDrop_of_isPrimitive hprim
  · exact h t b ht

end DropMemo

namespace Program

variable {p : Program} {t : Ty} {m m' : DropMemo} {b : Bool} {fuel : Nat} {busy : Index Ty Unit}

/-! ## One question -/

/-- A type whose answer is known is not searched. -/
theorem classify_of_answer? (h : m.answer? t = some b) :
    p.classify (fuel + 1) busy t m = some (b, m) := by
  unfold DropMemo.answer? at h
  split at h
  · next hprim =>
    obtain rfl := Option.some.inj h
    rw [classify, if_pos hprim]
  · next hprim => simp only [classify, if_neg hprim, h]

/-- Classifying a type overwrites no answer. -/
theorem classify_retains (h : p.classify fuel busy t m = some (b, m')) : m.Retains m' := by
  induction fuel generalizing busy t m m' b with
  | zero => cases h
  | succ fuel ih =>
    cases hanswer : m.answer? t with
    | some c =>
      have hsame := (classify_of_answer? hanswer).symm.trans h
      obtain ⟨-, rfl⟩ := Prod.mk.inj (Option.some.inj hsame)
      exact .refl m
    | none =>
      -- whatever is recorded for the type itself is new
      have hnew : m.find? t = none := by
        unfold DropMemo.answer? at hanswer
        split at hanswer
        · cases hanswer
        · exact hanswer
      cases classified_of_classify h with
      | primitive => exact .refl m
      | remembered => exact .refl m
      | assumed => exact .refl m
      | trivial => exact (DropMemo.Retains.refl m).record hnew
      | always => exact (DropMemo.Retains.refl m).record hnew
      | parts _ hr =>
        -- every part leaves behind a memory that retains the first one
        have hparts := searched_of_anyPart (I := m.Retains) (A := fun _ _ => True)
          (fun _ _ hm => hm) (fun _ _ _ _ _ _ _ hm h => ⟨trivial, hm.trans (ih h)⟩) (.refl m) hr
        exact hparts.2.record hnew

/-- The answer to a question is there for the next one. -/
theorem answer?_of_needsDrop (h : p.needsDrop fuel t m = some (b, m')) :
    m'.answer? t = some b := by
  cases fuel with
  | zero => cases h
  | succ fuel =>
    cases hanswer : m.answer? t with
    | some c =>
      have hsame := (classify_of_answer? hanswer).symm.trans h
      obtain ⟨rfl, rfl⟩ := Prod.mk.inj (Option.some.inj hsame)
      exact hanswer
    | none =>
      unfold DropMemo.answer? at hanswer
      split at hanswer
      · cases hanswer
      · next hprim =>
        cases classified_of_classify h with
        | primitive hp => exact absurd hp hprim
        | remembered hfind => exact absurd (hanswer.symm.trans hfind) (by simp)
        | assumed hbusy =>
          -- at the start of a question nothing is under classification
          exact absurd hbusy (by simp)
        | trivial => exact DropMemo.answer?_record hprim
        | always => exact DropMemo.answer?_record hprim
        | parts => exact DropMemo.answer?_record hprim

/-- A type that can be asked about at all has one answer for every larger fuel. -/
theorem exists_enough (h : ∃ fuel, (p.needsDrop fuel t m).isSome = true) :
    ∃ enough b m', ∀ fuel, enough ≤ fuel → p.needsDrop fuel t m = some (b, m') := by
  obtain ⟨enough, h⟩ := h
  obtain ⟨⟨b, m'⟩, h⟩ := Option.isSome_iff_exists.1 h
  exact ⟨enough, b, m', fun _ hle => classify_mono hle h⟩

/-! ## Many types, one after the other -/

/-- Of the types that are asked about those are kept that are said to need drop, and all of them
    have an answer afterwards. -/
theorem keepParts_eq_some {ts kept : List Ty}
    (h : keepParts (p.needsDrop fuel) ts m = some (kept, m')) : m.Retains m' ∧
      kept = ts.filter (fun t => m'.answer? t = some true) ∧
        ∀ t ∈ ts, ∃ b, m'.answer? t = some b := by
  induction ts generalizing m kept with
  | nil =>
    obtain ⟨rfl, rfl⟩ := Prod.mk.inj (Option.some.inj h)
    exact ⟨.refl m, rfl, List.forall_mem_nil _⟩
  | cons t ts ih =>
    obtain ⟨b, m₁, rest, hb, hrest, rfl⟩ := keepParts_cons_eq_some_iff.1 h
    obtain ⟨hretains, rfl, hanswers⟩ := ih hrest
    -- the later questions leave the first answer as it is
    have ht : m'.answer? t = some b := hretains.answer? (answer?_of_needsDrop hb)
    refine ⟨(classify_retains hb).trans hretains, ?_, List.forall_mem_cons.2 ⟨⟨b, ht⟩, hanswers⟩⟩
    rw [List.filter_cons, ht]
    cases b <;> rfl

/-- Types can be asked about one after the other if each of them can be at any time. -/
theorem exists_keepParts {ts : List Ty}
    (h : ∀ t ∈ ts, ∀ m, ∃ fuel, (p.needsDrop fuel t m).isSome = true) (m : DropMemo) :
    ∃ enough r, ∀ fuel, enough ≤ fuel → keepParts (p.needsDrop fuel) ts m = some r := by
  induction ts generalizing m with
  | nil => exact ⟨0, ([], m), fun _ _ => rfl⟩
  | cons t ts ih =>
    obtain ⟨ht, hts⟩ := List.forall_mem_cons.1 h
    obtain ⟨enough₁, b, m₁, hfirst⟩ := exists_enough (ht m)
    obtain ⟨enough₂, ⟨kept, m₂⟩, hrest⟩ := ih hts m₁
    -- the larger fuel does for the first type and for the others
    refine ⟨max enough₁ enough₂, (if b then t :: kept else kept, m₂), fun fuel hle => ?_⟩
    have h₁ := hfirst fuel (Nat.le_trans (Nat.le_max_left _ _) hle)
    have h₂ := hrest fuel (Nat.le_trans (Nat.le_max_right _ _) hle)
    exact keepParts_cons_eq_some_iff.2 ⟨b, m₁, kept, h₁, h₂, rfl⟩

end Program

/-! ## Any questions, one after the other -/

namespace DropMemo

/-- What one question leaves behind. -/
inductive Next (p : Program) (m m' : DropMemo) : Prop
  | needsDrop {fuel : Nat} {t : Ty} {b : Bool} : p.needsDrop fuel t m = some (b, m') → Next p m m'
  | glue {fuel : Nat} {t : Ty} {inst? : Option Instance} : p.glue? fuel t m = some (inst?, m') →
    Next p m m'
  | parts {fuel : Nat} {t : Ty} {r : Except SubstError DropParts} :
    p.dropParts fuel t m = some (r, m') → Next p m m'

/-- What any number of questions leaves behind. -/
def Later (p : Program) : DropMemo → DropMemo → Prop := Relation.ReflTransGen (Next p)

variable {p : Program} {m m' : DropMemo} {t : Ty} {b : Bool}

/-- Each question retains the answers so far. -/
theorem Next.retains (h : Next p m m') : m.Retains m' := by
  cases h with
  | needsDrop h => exact Program.classify_retains h
  | glue h =>
    obtain ⟨-, -, -, rfl⟩ | ⟨-, b, hb, -⟩ := Program.glue?_cases h
    · exact .refl m'
    · exact Program.classify_retains hb
  | parts h =>
    obtain ⟨e, -, -, rfl⟩ | ⟨parts, kept, -, hkept, -⟩ := Program.dropParts_eq_some_iff.1 h
    · exact .refl m
    · exact (Program.keepParts_eq_some hkept).1

/-- Later questions retain the answers so far. -/
theorem Later.retains (h : Later p m m') : m.Retains m' := by
  induction h with
  | refl => exact .refl m
  | tail _ hnext ih => exact ih.trans hnext.retains

end DropMemo

end Monomorph
