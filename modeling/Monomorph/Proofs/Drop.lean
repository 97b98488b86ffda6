import Mathlib.Logic.Relation
import Monomorph.Proofs.Fuel
import Monomorph.Proofs.Substitution

/-!
# Classification without memory

`Program.classify` remembers answers and takes a type for harmless while it is being classified, so
an answer may depend on the questions asked before. In a program where no type lies inside itself by
value neither shows: an answer found with any memory that such questions leave behind is the one
that `Program.Drops` gives, which knows nothing of memory, and whatever ends once ends from every
such memory (`classify_sound`, `classify_complete`).
-/

namespace Monomorph

namespace Program

/-- The types that lie by value directly inside a value of a type. -/
inductive ByValue (p : Program) : Ty → Ty → Prop
  | elem {ts : Tys} {u : Ty} : u ∈ ts.toList → ByValue p (.tuple ts) u
  | item {u : Ty} {n : Const} : n ≠ .value 0 → ByValue p (.array u n) u
  | slice {u : Ty} : ByValue p (.wrap .slice u) u
  | field {i : ItemId} {args : Slots} {fields : List Ty} {f u : Ty} :
    p.dropMethod? i = none → (p.item i).kind = .adt fields → f ∈ fields →
    f.subst args.toList = .ok u → ByValue p (.nominal .adt i args) u

/-- No type lies inside itself by value. -/
def ByValueAcyclic (p : Program) : Prop := ∀ t : Ty, ¬ Relation.TransGen p.ByValue t t

/-- Every type can be classified, starting without any answers. -/
def FiniteToClassify (p : Program) : Prop := ∀ t : Ty, ∃ fuel, (p.needsDrop fuel t {}).isSome = true

/-- Whether dropping a value of a type runs code, as it follows from the parts inside the value. -/
inductive Drops (p : Program) : Ty → Bool → Prop
  | trivial {t : Ty} : p.dropShape t = .trivial → Drops p t false
  | always {t : Ty} : p.dropShape t = .always → Drops p t true
  | harmless {t : Ty} {ps : List DropPart} {us : List Ty} : p.dropShape t = .parts ps →
    List.Forall₂ (fun part u => part.ty = .ok u) ps us → (∀ u ∈ us, Drops p u false) →
    Drops p t false
  /-- A part whose type cannot be made counts as one that needs drop. -/
  | broken {t : Ty} {pre post : List DropPart} {part : DropPart} {us : List Ty} {e : SubstError} :
    p.dropShape t = .parts (pre ++ part :: post) →
    List.Forall₂ (fun part u => part.ty = .ok u) pre us → (∀ u ∈ us, Drops p u false) →
    part.ty = .error e → Drops p t true
  | found {t : Ty} {pre post : List DropPart} {part : DropPart} {us : List Ty} {u : Ty} :
    p.dropShape t = .parts (pre ++ part :: post) →
    List.Forall₂ (fun part u => part.ty = .ok u) pre us → (∀ u ∈ us, Drops p u false) →
    part.ty = .ok u → Drops p u true → Drops p t true

variable {p : Program}

/-- The types whose parts are searched, with their parts. -/
inductive HasParts (p : Program) : Ty → List DropPart → Prop
  | tuple {ts : Tys} : HasParts p (.tuple ts) (ts.toList.map .inner)
  | array {v : Ty} {n : Const} : n ≠ .value 0 → HasParts p (.array v n) [.inner v]
  | slice {v : Ty} : HasParts p (.wrap .slice v) [.inner v]
  | fields {i : ItemId} {args : Slots} {fields : List Ty} : p.dropMethod? i = none →
    (p.item i).kind = .adt fields →
    HasParts p (.nominal .adt i args) (fields.map (.field args.toList))

/-- The parts that a type has are those of its layer. -/
theorem HasParts.dropShape {t : Ty} {ps : List DropPart} (h : p.HasParts t ps) :
    p.dropShape t = .parts ps := by
  cases h with
  | tuple => rfl
  | array => simp [Program.dropShape, Ty.node]
  | slice => rfl
  | fields hdrop hkind => simp [Program.dropShape, Ty.node, hdrop, hkind]

/-- Where the layer has parts, they are those of the type. -/
theorem hasParts_of_dropShape {t : Ty} {ps : List DropPart} (h : p.dropShape t = .parts ps) :
    p.HasParts t ps := by
  -- four layers have parts, and in the others the shape says something else
  cases t with
  | tuple ts =>
    obtain rfl : ts.toList.map .inner = ps := by simpa [dropShape, Ty.node] using h
    exact .tuple
  | array v n =>
    by_cases hn : n = .value 0
    · simp [dropShape, Ty.node, hn] at h
    · obtain rfl : [DropPart.inner v] = ps := by simpa [dropShape, Ty.node, hn] using h
      exact .array hn
  | wrap w v =>
    cases w with
    | slice =>
      obtain rfl : [DropPart.inner v] = ps := by simpa [dropShape, Ty.node] using h
      exact .slice
    | _ => simp [dropShape, Ty.node] at h
  | nominal k i args =>
    cases k with
    | adt =>
      simp only [dropShape, Ty.node] at h
      split at h
      · cases h
      · next hdrop =>
        split at h
        · next fields hkind =>
          obtain rfl : fields.map (.field args.toList) = ps := by simpa using h
          exact .fields (by simpa using hdrop) hkind
        · cases h
    | _ => simp [dropShape, Ty.node] at h
  | _ => simp [dropShape, Ty.node] at h

/-- A part stands in the type, or is a field of a type without drop method. -/
theorem part_cases {t : Ty} {ps : List DropPart} {part : DropPart}
    (hshape : p.dropShape t = .parts ps) (hpart : part ∈ ps) :
    (∃ u, part = .inner u ∧ p.ByValue t u) ∨
      ∃ i args fields f, t = .nominal .adt i args ∧ p.dropMethod? i = none ∧
        (p.item i).kind = .adt fields ∧ f ∈ fields ∧ part = .field args.toList f := by
  -- Only fields are made by putting in arguments; all other parts stand in the type.
  cases hasParts_of_dropShape hshape with
  | tuple =>
    obtain ⟨v, hv, rfl⟩ := List.mem_map.1 hpart
    exact .inl ⟨v, rfl, .elem hv⟩
  | array hn =>
    obtain rfl := List.mem_singleton.1 hpart
    exact .inl ⟨_, rfl, .item hn⟩
  | slice =>
    obtain rfl := List.mem_singleton.1 hpart
    exact .inl ⟨_, rfl, .slice⟩
  | fields hdrop hkind =>
    obtain ⟨f, hf, rfl⟩ := List.mem_map.1 hpart
    exact .inr ⟨_, _, _, f, rfl, hdrop, hkind, hf, rfl⟩

/-- The parts that are asked when a type is classified are those that lie inside it. -/
theorem byValue_of_part {t u : Ty} {ps : List DropPart} {part : DropPart}
    (hshape : p.dropShape t = .parts ps) (hpart : part ∈ ps) (hu : part.ty = .ok u) :
    p.ByValue t u := by
  obtain ⟨v, rfl, hv⟩ | ⟨i, args, fields, f, rfl, hdrop, hkind, hf, rfl⟩ := part_cases hshape hpart
  · obtain rfl := Except.ok.inj hu
    exact hv
  · exact .field hdrop hkind hf hu

/-- A value of a primitive type is harmless. -/
theorem drops_of_isPrimitive {t : Ty} (h : t.isPrimitive = true) : p.Drops t false := by
  cases t with
  | prim q => exact .trivial rfl
  | tuple ts =>
    cases ts with
    | nil =>
      have hshape : p.dropShape (.tuple .nil) = .parts [] := rfl
      exact .harmless hshape .nil (fun u hu => nomatch hu)
    | cons t ts => exact nomatch h
  | _ => exact nomatch h

/-- There is one answer at most. -/
theorem Drops.inj {t : Ty} {b c : Bool} (h : p.Drops t b) (h' : p.Drops t c) : b = c := by
  -- an answer differs from another one only if one of them passes a part that the other stops at
  have pass : ∀ {ps : List DropPart} {us : List Ty} {part : DropPart},
      List.Forall₂ (fun part u => part.ty = .ok u) ps us → part ∈ ps → ∃ u ∈ us, part.ty = .ok u :=
    fun hps hpart => forall₂_exists_right hps hpart
  induction h generalizing c with
  | trivial hs => cases h' <;> simp_all
  | always hs => cases h' <;> simp_all
  | harmless hs hps _ ih =>
    cases h' with
    | trivial hs' => rfl
    | always hs' => simp_all
    | harmless => rfl
    | broken hs' _ _ he =>
      obtain rfl := DropShape.parts.inj (hs.symm.trans hs')
      obtain ⟨u, -, hu⟩ := pass hps (List.mem_append_right _ List.mem_cons_self)
      simp_all
    | found hs' _ _ hv hdrops =>
      obtain rfl := DropShape.parts.inj (hs.symm.trans hs')
      obtain ⟨u, hu, huv⟩ := pass hps (List.mem_append_right _ List.mem_cons_self)
      obtain rfl := Except.ok.inj (huv.symm.trans hv)
      exact ih u hu hdrops
  | broken hs _ _ he =>
    cases h' with
    | trivial hs' => simp_all
    | harmless hs' hps _ =>
      obtain rfl := DropShape.parts.inj (hs'.symm.trans hs)
      obtain ⟨u, -, hu⟩ := pass hps (List.mem_append_right _ List.mem_cons_self)
      simp_all
    | _ => rfl
  | found hs _ _ hv _ _ ih =>
    cases h' with
    | trivial hs' => simp_all
    | harmless hs' hps hus =>
      obtain rfl := DropShape.parts.inj (hs'.symm.trans hs)
      obtain ⟨u, hu, huv⟩ := pass hps (List.mem_append_right _ List.mem_cons_self)
      obtain rfl := Except.ok.inj (huv.symm.trans hv)
      exact ih (hus u hu)
    | _ => rfl

/-- A part of a harmless value is harmless. -/
theorem Drops.part {t u : Ty} (h : p.Drops t false) {ps : List DropPart}
    (hshape : p.dropShape t = .parts ps) {part : DropPart} (hpart : part ∈ ps)
    (hu : part.ty = .ok u) : p.Drops u false := by
  -- A harmless value with parts passed each of them.
  cases h with
  | trivial hs =>
    rw [hshape] at hs
    exact nomatch hs
  | harmless hs hps hus =>
    obtain rfl := DropShape.parts.inj (hshape.symm.trans hs)
    obtain ⟨v, hv, hpv⟩ := forall₂_exists_right hps hpart
    obtain rfl := Except.ok.inj (hu.symm.trans hpv)
    exact hus _ hv

/-- A type whose layer always drops is not harmless. -/
theorem not_drops_false_of_always {t : Ty} (hshape : p.dropShape t = .always) :
    ¬ p.Drops t false := by
  intro h
  have hdrops : p.Drops t true := .always hshape
  exact Bool.false_ne_true (h.inj hdrops)

end Program

namespace DropMemo

/-- Whether everything remembered is true. -/
def Sound (p : Program) (m : DropMemo) : Prop := ∀ t b, m.find? t = some b → p.Drops t b

variable {p : Program}

/-- An empty memo remembers nothing untrue. -/
theorem sound_empty : Sound p {} := by
  intro t b h
  rw [find?, Index.get?_empty] at h
  exact nomatch h

/-- Noting types does not change what is remembered. -/
theorem Sound.note {m : DropMemo} (h : m.Sound p) (ts : List Ty) : (m.note ts).Sound p := h

/-- A true answer may be remembered. -/
theorem Sound.record {m : DropMemo} (h : m.Sound p) {t : Ty} {b : Bool} (ht : p.Drops t b) :
    (m.record t b).Sound p := by
  intro u c hu
  -- what is asked about is the new answer or one from before
  rw [find?, DropMemo.record, Index.get?_insert] at hu
  split at hu
  · next he =>
    obtain rfl := Option.some.inj hu
    exact he ▸ ht
  · exact h u c hu

end DropMemo

namespace Program

variable {p : Program}

/-- Whether the types under classification lie around a type by value. -/
def Around (p : Program) (busy : Index Ty Unit) (t : Ty) : Prop :=
  ∀ s, busy.contains s = true → Relation.TransGen p.ByValue s t

/-- Nothing lies around a type at first. -/
theorem around_empty (t : Ty) : p.Around {} t := by
  intro s hs
  rw [Index.contains_empty] at hs
  exact nomatch hs

/-- What lies around a type, and the type itself, lie around what is inside it. -/
theorem Around.insert {busy : Index Ty Unit} {t u : Ty} (h : p.Around busy t)
    (hu : p.ByValue t u) : p.Around (busy.insert t ()) u := by
  intro s hs
  rw [Index.contains_insert, Bool.or_eq_true, decide_eq_true_eq] at hs
  obtain rfl | hs := hs
  · exact .single hu
  · exact (h s hs).tail hu

/-- A type that does not lie inside itself is not among those around it. -/
theorem Around.contains_eq_false {busy : Index Ty Unit} {t : Ty} (h : p.Around busy t)
    (hacyclic : p.ByValueAcyclic) : busy.contains t = false := by
  rw [Bool.eq_false_iff]
  intro ht
  exact hacyclic t (h t ht)

/-! ## Answers are true -/

/-- What a classification can come to, where `ask` classifies the parts of the type. -/
inductive Classified (p : Program) (busy : Index Ty Unit)
    (ask : Ty → DropMemo → Option (Bool × DropMemo)) (t : Ty) (m : DropMemo) :
    Bool → DropMemo → Prop
  | primitive : t.isPrimitive = true → Classified p busy ask t m false m
  | remembered {b : Bool} : m.find? t = some b → Classified p busy ask t m b m
  /-- A type that is under classification counts as harmless. -/
  | assumed : busy.contains t = true → Classified p busy ask t m false m
  | trivial : p.dropShape t = .trivial → Classified p busy ask t m false (m.record t false)
  | always : p.dropShape t = .always → Classified p busy ask t m true (m.record t true)
  | parts {ps : List DropPart} {b : Bool} {m' : DropMemo} : p.dropShape t = .parts ps →
    anyPart ask ps m = some (b, m') → Classified p busy ask t m b (m'.record t b)

/-- A classification comes to one of its cases. -/
theorem classified_of_classify {fuel : Nat} {busy : Index Ty Unit} {t : Ty} {m m' : DropMemo}
    {b : Bool} (h : p.classify (fuel + 1) busy t m = some (b, m')) :
    p.Classified busy (p.classify fuel (busy.insert t ())) t m b m' := by
  -- The checks in their order: a primitive, a remembered type, a busy one, and then by the layer.
  unfold classify at h
  split at h
  · next hprim =>
    obtain ⟨rfl, rfl⟩ := Prod.mk.inj (Option.some.inj h)
    exact .primitive hprim
  · split at h
    · next hfind =>
      obtain ⟨rfl, rfl⟩ := Prod.mk.inj (Option.some.inj h)
      exact .remembered hfind
    · split at h
      · next hbusy =>
        obtain ⟨rfl, rfl⟩ := Prod.mk.inj (Option.some.inj h)
        exact .assumed hbusy
      · split at h
        · next hshape =>
          obtain ⟨rfl, rfl⟩ := Prod.mk.inj (Option.some.inj h)
          exact .trivial hshape
        · next hshape =>
          obtain ⟨rfl, rfl⟩ := Prod.mk.inj (Option.some.inj h)
          exact .always hshape
        · next hshape =>
          obtain ⟨⟨c, m₁⟩, hr, he⟩ := Option.map_eq_some_iff.1 h
          obtain ⟨rfl, rfl⟩ := Prod.mk.inj he
          exact .parts hshape hr

/-- How a search of parts ends, where `A` says what an answer tells: all are harmless, or one is
    reached that cannot be made or needs drop. -/
inductive Searched (A : Ty → Bool → Prop) (ps : List DropPart) : Bool → Prop
  | harmless {us : List Ty} : List.Forall₂ (fun part u => part.ty = .ok u) ps us →
    (∀ u ∈ us, A u false) → Searched A ps false
  | broken {pre post : List DropPart} {part : DropPart} {us : List Ty} {e : SubstError} :
    ps = pre ++ part :: post → List.Forall₂ (fun part u => part.ty = .ok u) pre us →
    (∀ u ∈ us, A u false) → part.ty = .error e → Searched A ps true
  | found {pre post : List DropPart} {part : DropPart} {us : List Ty} {u : Ty} :
    ps = pre ++ part :: post → List.Forall₂ (fun part u => part.ty = .ok u) pre us →
    (∀ u ∈ us, A u false) → part.ty = .ok u → A u true → Searched A ps true

/-- A harmless part in front does not matter. -/
private theorem Searched.cons {A : Ty → Bool → Prop} {part : DropPart} {ps : List DropPart} {u : Ty}
    {b : Bool} (h : Searched A ps b) (hu : part.ty = .ok u) (ha : A u false) :
    Searched A (part :: ps) b := by
  -- one more part in front makes no difference to what ends the search
  cases h with
  | harmless hpre hus => exact .harmless (.cons hu hpre) (List.forall_mem_cons.2 ⟨ha, hus⟩)
  | broken hps hpre hus he =>
    exact .broken (congrArg (part :: ·) hps) (.cons hu hpre) (List.forall_mem_cons.2 ⟨ha, hus⟩) he
  | found hps hpre hus hv hdrops =>
    exact .found (congrArg (part :: ·) hps) (.cons hu hpre) (List.forall_mem_cons.2 ⟨ha, hus⟩) hv
      hdrops

/-- If every answer keeps an invariant of the memory and tells something then, so does a search. -/
theorem searched_of_anyPart {I : DropMemo → Prop} {A : Ty → Bool → Prop}
    {ask : Ty → DropMemo → Option (Bool × DropMemo)} {ps : List DropPart}
    (hnote : ∀ m ts, I m → I (m.note ts))
    (hask : ∀ part ∈ ps, ∀ u, part.ty = .ok u → ∀ m b m', I m → ask u m = some (b, m') →
      A u b ∧ I m') {m m' : DropMemo} {b : Bool} (hm : I m)
    (h : anyPart ask ps m = some (b, m')) : Searched A ps b ∧ I m' := by
  induction ps generalizing m with
  | nil =>
    obtain ⟨rfl, rfl⟩ := Prod.mk.inj (Option.some.inj h)
    exact ⟨.harmless .nil (List.forall_mem_nil _), hm⟩
  | cons part rest ih =>
    have hm := hnote m part.formed hm
    -- The search stops at a part that cannot be made and at one that needs drop, and goes on behind
    -- any other.
    obtain ⟨e, he, hr⟩ | ⟨u, m₁, hu, hcase⟩ := anyPart_cons_eq_some_iff.1 h
    · obtain ⟨rfl, rfl⟩ := Prod.mk.inj hr
      exact ⟨.broken (List.nil_append _).symm .nil (List.forall_mem_nil _) he, hm⟩
    · have hpart := hask part List.mem_cons_self u hu (m.note part.formed)
      obtain ⟨hm₁, hr⟩ | ⟨hm₁, hr⟩ := hcase
      · obtain ⟨rfl, rfl⟩ := Prod.mk.inj hr
        obtain ⟨ha, hm'⟩ := hpart true m' hm hm₁
        exact ⟨.found (List.nil_append _).symm .nil (List.forall_mem_nil _) hu ha, hm'⟩
      · obtain ⟨ha, hm₁⟩ := hpart false m₁ hm hm₁
        obtain ⟨hrest, hm'⟩ := ih (fun q hq => hask q (List.mem_cons_of_mem _ hq)) hm₁ hr
        exact ⟨hrest.cons hu ha, hm'⟩

/-- A type drops as the search of its parts ends. -/
private theorem Searched.drops {t : Ty} {ps : List DropPart} {b : Bool}
    (h : Searched p.Drops ps b) (hshape : p.dropShape t = .parts ps) : p.Drops t b := by
  cases h with
  | harmless hpre hus => exact .harmless hshape hpre hus
  | broken hps hpre hus he => exact .broken (hps ▸ hshape) hpre hus he
  | found hps hpre hus hu hdrops => exact .found (hps ▸ hshape) hpre hus hu hdrops

/-- What is found with a memory of true answers is true, and only true answers are added. -/
theorem classify_sound (hacyclic : p.ByValueAcyclic) {fuel : Nat} {busy : Index Ty Unit} {t : Ty}
    {m m' : DropMemo} {b : Bool} (hbusy : p.Around busy t) (hm : m.Sound p)
    (h : p.classify fuel busy t m = some (b, m')) : p.Drops t b ∧ m'.Sound p := by
  induction fuel generalizing busy t m m' b with
  | zero => cases h
  | succ fuel ih =>
    cases classified_of_classify h with
    | primitive hprim => exact ⟨drops_of_isPrimitive hprim, hm⟩
    | remembered hfind => exact ⟨hm t b hfind, hm⟩
    | assumed hunder =>
      -- the type would lie inside itself
      exact absurd hunder (by simp [hbusy.contains_eq_false hacyclic])
    | trivial hshape => exact ⟨.trivial hshape, hm.record (.trivial hshape)⟩
    | always hshape => exact ⟨.always hshape, hm.record (.always hshape)⟩
    | @parts ps _ m₁ hshape hr =>
      -- the parts are classified with this type around them
      obtain ⟨hsearched, hm₁⟩ := searched_of_anyPart (fun m ts hm => hm.note ts)
        (fun part hpart u hu m b m' hm h =>
          ih (hbusy.insert (byValue_of_part hshape hpart hu)) hm h) hm hr
      have ht := hsearched.drops hshape
      exact ⟨ht, hm₁.record ht⟩

/-! ## Answers are found -/

/-- Whether a type is classified in one way from every memory of true answers, while some types
    are being classified. -/
def ClassifiesAs (p : Program) (busy : Index Ty Unit) (t : Ty) (b : Bool) : Prop :=
  ∀ m : DropMemo, m.Sound p → ∃ fuel m', m'.Sound p ∧ p.classify fuel busy t m = some (b, m')

/-- The same for a search of parts. -/
def SearchesAs (p : Program) (busy : Index Ty Unit) (ps : List DropPart) (b : Bool) : Prop :=
  ∀ m : DropMemo, m.Sound p →
    ∃ fuel m', m'.Sound p ∧ anyPart (p.classify fuel busy) ps m = some (b, m')

/-- Parts that do not need drop are passed over. -/
private theorem SearchesAs.append {busy : Index Ty Unit} {pre rest : List DropPart}
    {us : List Ty} {b : Bool} (hrest : p.SearchesAs busy rest b)
    (hpre : List.Forall₂ (fun part u => part.ty = .ok u) pre us)
    (hask : ∀ u ∈ us, p.ClassifiesAs busy u false) : p.SearchesAs busy (pre ++ rest) b := by
  induction hpre with
  | nil => exact hrest
  | @cons part u pre us hu _ ih =>
    intro m hm
    obtain ⟨fuel₁, m₁, hm₁, h₁⟩ := hask u List.mem_cons_self (m.note part.formed) (hm.note _)
    obtain ⟨fuel₂, m₂, hm₂, h₂⟩ := ih (fun v hv => hask v (List.mem_cons_of_mem _ hv)) m₁ hm₁
    -- the larger fuel does for the part and for those behind it
    have h₁ : p.classify (max fuel₁ fuel₂) busy u (m.note part.formed) = some (false, m₁) :=
      classify_mono (Nat.le_max_left fuel₁ fuel₂) h₁
    have h₂ : anyPart (p.classify (max fuel₁ fuel₂) busy) (pre ++ rest) m₁ = some (b, m₂) :=
      anyPart_mono (fun v m r => classify_mono (Nat.le_max_right fuel₁ fuel₂)) h₂
    have h : anyPart (p.classify (max fuel₁ fuel₂) busy) (part :: (pre ++ rest)) m =
        some (b, m₂) := anyPart_cons_eq_some_iff.2 (.inr ⟨u, m₁, hu, .inr ⟨h₁, h₂⟩⟩)
    exact ⟨max fuel₁ fuel₂, m₂, hm₂, h⟩

/-- A type is classified if its parts can be searched. -/
private theorem SearchesAs.classifiesAs (hacyclic : p.ByValueAcyclic) {busy : Index Ty Unit}
    {t : Ty} {b : Bool} (hdrops : p.Drops t b) {ps : List DropPart}
    (hshape : p.dropShape t = .parts ps) (hbusy : p.Around busy t)
    (hparts : p.SearchesAs (busy.insert t ()) ps b) : p.ClassifiesAs busy t b := by
  intro m hm
  by_cases hprim : t.isPrimitive = true
  · -- what comes without looking at the parts is the same answer
    obtain rfl := hdrops.inj (drops_of_isPrimitive hprim)
    exact ⟨1, m, hm, by rw [classify, if_pos hprim]⟩
  · cases hfind : m.find? t with
    | some c =>
      obtain rfl := hdrops.inj (hm t c hfind)
      exact ⟨1, m, hm, by simp only [classify, if_neg hprim, hfind]⟩
    | none =>
      -- The parts are searched with the type entered among the busy ones, where it was not before.
      obtain ⟨fuel, m', hm', h⟩ := hparts m hm
      have hclassify : p.classify (fuel + 1) busy t m = some (b, m'.record t b) := by
        simp only [classify, if_neg hprim, hfind, hbusy.contains_eq_false hacyclic, hshape, h,
          Option.map_some, Bool.false_eq_true, if_false]
      exact ⟨fuel + 1, m'.record t b, hm'.record hdrops, hclassify⟩

/-- A type without parts is classified at once. -/
private theorem classifiesAs_of_no_parts (hacyclic : p.ByValueAcyclic) {t : Ty} {b : Bool}
    (hdrops : p.Drops t b) {busy : Index Ty Unit} (hbusy : p.Around busy t)
    (hne : ∀ ps, p.dropShape t ≠ .parts ps) : p.ClassifiesAs busy t b := by
  intro m hm
  cases hr : p.classify 1 busy t m with
  | some r =>
    obtain ⟨c, m'⟩ := r
    obtain ⟨hc, hm'⟩ := classify_sound hacyclic hbusy hm hr
    obtain rfl := hdrops.inj hc
    exact ⟨1, m', hm', hr⟩
  | none =>
    -- the only branch of the classification without an answer asks for parts
    unfold classify at hr
    split at hr
    · cases hr
    · split at hr
      · cases hr
      · split at hr
        · cases hr
        · split at hr
          · cases hr
          · cases hr
          · next ps hps => exact absurd hps (hne ps)

/-- What holds of the parts by themselves holds while the type around them is classified. -/
private theorem classifiesAs_parts {t : Ty} {ps pre : List DropPart} {us : List Ty}
    (hshape : p.dropShape t = .parts ps) (hsub : ∀ part ∈ pre, part ∈ ps)
    (hpre : List.Forall₂ (fun part u => part.ty = .ok u) pre us)
    (ih : ∀ u ∈ us, ∀ {busy : Index Ty Unit}, p.Around busy u → p.ClassifiesAs busy u false)
    {busy : Index Ty Unit} (hbusy : p.Around busy t) :
    ∀ u ∈ us, p.ClassifiesAs (busy.insert t ()) u false := by
  intro u hu
  obtain ⟨part, hpart, hpu⟩ := forall₂_exists_left hpre hu
  exact ih u hu (hbusy.insert (byValue_of_part hshape (hsub part hpart) hpu))

/-- A type with an answer is classified from every memory of true answers. -/
theorem classify_complete (hacyclic : p.ByValueAcyclic) {t : Ty} {b : Bool} (h : p.Drops t b)
    {busy : Index Ty Unit} (hbusy : p.Around busy t) : p.ClassifiesAs busy t b := by
  -- by induction on the answer: the parts were answered before, with more types around them
  induction h generalizing busy with
  | trivial hs => exact classifiesAs_of_no_parts hacyclic (.trivial hs) hbusy (by simp [hs])
  | always hs => exact classifiesAs_of_no_parts hacyclic (.always hs) hbusy (by simp [hs])
  | @harmless t ps us hs hps hus ih =>
    apply SearchesAs.classifiesAs hacyclic (.harmless hs hps hus) hs hbusy
    have hnil : p.SearchesAs (busy.insert t ()) [] false := fun m hm => ⟨0, m, hm, rfl⟩
    have hsearch := hnil.append hps (classifiesAs_parts hs (fun _ h => h) hps ih hbusy)
    rwa [List.append_nil] at hsearch
  | @broken t pre post part us e hs hps hus he ih =>
    apply SearchesAs.classifiesAs hacyclic (.broken hs hps hus he) hs hbusy
    have hpart : p.SearchesAs (busy.insert t ()) (part :: post) true := fun m hm =>
      ⟨0, m.note part.formed, hm, anyPart_cons_eq_some_iff.2 (.inl ⟨e, he, rfl⟩)⟩
    have hsub : ∀ q ∈ pre, q ∈ pre ++ part :: post := fun _ => List.mem_append_left _
    exact hpart.append hps (classifiesAs_parts hs hsub hps ih hbusy)
  | @found t pre post part us v hs hps hus hv hdrops ih ihv =>
    apply SearchesAs.classifiesAs hacyclic (.found hs hps hus hv hdrops) hs hbusy
    have hby := byValue_of_part hs (List.mem_append_right _ List.mem_cons_self) hv
    have hpart : p.SearchesAs (busy.insert t ()) (part :: post) true := by
      intro m hm
      obtain ⟨fuel, m', hm', h⟩ := ihv (hbusy.insert hby) (m.note part.formed) (hm.note _)
      exact ⟨fuel, m', hm', anyPart_cons_eq_some_iff.2 (.inr ⟨v, m', hv, .inl ⟨h, rfl⟩⟩)⟩
    have hsub : ∀ q ∈ pre, q ∈ pre ++ part :: post := fun _ => List.mem_append_left _
    exact hpart.append hps (classifiesAs_parts hs hsub hps ih hbusy)

/-- Where every type can be classified at all, every type has an answer. -/
theorem FiniteToClassify.exists_drops (hfinite : p.FiniteToClassify) (hacyclic : p.ByValueAcyclic)
    (t : Ty) : ∃ b, p.Drops t b := by
  obtain ⟨fuel, h⟩ := hfinite t
  obtain ⟨⟨b, m⟩, h⟩ := Option.isSome_iff_exists.1 h
  exact ⟨b, (classify_sound hacyclic (around_empty t) DropMemo.sound_empty h).1⟩

/-! ## Programs in which values have an end -/

/-- Where every value is made of finitely many layers, no type lies inside itself. -/
theorem acyclic_of_wellFounded (h : WellFounded fun u t => p.ByValue t u) : p.ByValueAcyclic := by
  intro t
  induction t using h.transGen.induction with
  | h t ih =>
    intro ht
    exact ih t (Relation.transGen_swap.2 ht) ht

/-- Where all that lies inside has an answer, the type has one. -/
private theorem exists_drops_of_parts {t : Ty} {pre rest : List DropPart} {us : List Ty}
    (hshape : p.dropShape t = .parts (pre ++ rest))
    (hpre : List.Forall₂ (fun part u => part.ty = .ok u) pre us)
    (hus : ∀ u ∈ us, p.Drops u false) (hrest : ∀ u, p.ByValue t u → ∃ b, p.Drops u b) :
    ∃ b, p.Drops t b := by
  -- the parts are asked in their order, and `pre` are those that turned out harmless
  induction rest generalizing pre us with
  | nil =>
    rw [List.append_nil] at hshape
    exact ⟨false, .harmless hshape hpre hus⟩
  | cons part rest ih =>
    cases hpart : part.ty with
    | error e => exact ⟨true, .broken hshape hpre hus hpart⟩
    | ok u =>
      have hby := byValue_of_part hshape (List.mem_append_right _ List.mem_cons_self) hpart
      obtain ⟨b, hb⟩ := hrest u hby
      cases b with
      | true => exact ⟨true, .found hshape hpre hus hpart hb⟩
      | false =>
        have hshape' : p.dropShape t = .parts ((pre ++ [part]) ++ rest) := by
          rw [hshape, List.append_assoc, List.singleton_append]
        have hpre' := List.rel_append hpre (.cons hpart .nil)
        have hus' := List.forall_mem_append.2 ⟨hus, List.forall_mem_singleton.2 hb⟩
        exact ih hshape' hpre' hus'

/-- Where every value is made of finitely many layers, every type can be classified. -/
theorem finiteToClassify_of_wellFounded (h : WellFounded fun u t => p.ByValue t u) :
    p.FiniteToClassify := by
  have hdrops : ∀ t, ∃ b, p.Drops t b := by
    intro t
    induction t using h.induction with
    | h t ih =>
      -- The layer decides, or the parts do, which lie inside and have answers by induction.
      cases hshape : p.dropShape t with
      | trivial => exact ⟨false, .trivial hshape⟩
      | always => exact ⟨true, .always hshape⟩
      | parts ps =>
        have hshape' : p.dropShape t = .parts ([] ++ ps) := hshape
        exact exists_drops_of_parts hshape' .nil (fun u hu => nomatch hu) ih
  intro t
  obtain ⟨b, hb⟩ := hdrops t
  obtain ⟨fuel, m, -, hm⟩ := classify_complete (acyclic_of_wellFounded h) hb (around_empty t)
    {} DropMemo.sound_empty
  exact ⟨fuel, Option.isSome_iff_exists.2 ⟨_, hm⟩⟩

/-- Whether every field is a parameter or a type with nothing inside. -/
def FlatFields (p : Program) : Prop :=
  ∀ i fields, (p.item i).kind = .adt fields → ∀ f ∈ fields, (∃ k, f = .param k) ∨
    (f.hasParams = false ∧ ∀ ps, p.dropShape f ≠ .parts ps)

/-- What lies by value inside a type is the type of one of its parts. -/
theorem exists_part_of_byValue {t u : Ty} (h : p.ByValue t u) :
    ∃ ps part, p.dropShape t = .parts ps ∧ part ∈ ps ∧ part.ty = .ok u := by
  -- the part is the type itself or a field that becomes it
  cases h with
  | elem hu => exact ⟨_, .inner u, HasParts.tuple.dropShape, List.mem_map_of_mem hu, rfl⟩
  | item hn => exact ⟨_, .inner u, (HasParts.array hn).dropShape, List.mem_cons_self, rfl⟩
  | slice => exact ⟨_, .inner u, HasParts.slice.dropShape, List.mem_cons_self, rfl⟩
  | @field i args fields f u hdrop hkind hf hu =>
    exact ⟨_, .field args.toList f, (HasParts.fields hdrop hkind).dropShape,
      List.mem_map_of_mem hf, hu⟩

/-- What lies inside a value stands in its type, or is written in a field. -/
theorem slot_or_field_of_byValue {t u : Ty} (h : p.ByValue t u) : Arg.ty u ∈ t.node.slots ∨
    ∃ i args fields, t = .nominal .adt i args ∧ (p.item i).kind = .adt fields ∧
      ∃ f ∈ fields, f.subst args.toList = .ok u := by
  cases h with
  | elem hu => exact .inl (List.mem_map_of_mem hu)
  | item hn => exact .inl List.mem_cons_self
  | slice => exact .inl List.mem_cons_self
  | field hdrop hkind hf hu => exact .inr ⟨_, _, _, rfl, hkind, _, hf, hu⟩

/-- Where fields are flat, it stands in the type or has nothing inside in its turn. -/
private theorem slot_or_leaf_of_byValue (hflat : p.FlatFields) {t u : Ty} (h : p.ByValue t u) :
    Arg.ty u ∈ t.node.slots ∨ ∀ v, ¬ p.ByValue u v := by
  -- A field that is no parameter stands for itself, and is flat.
  obtain hslot | ⟨i, args, fields, rfl, hkind, f, hf, hu⟩ := slot_or_field_of_byValue h
  · exact .inl hslot
  · obtain ⟨k, rfl⟩ | ⟨hparams, hleaf⟩ := hflat _ _ hkind _ hf
    · rw [Ty.subst_param, Args.tyAt_eq_ok_iff] at hu
      exact .inl (List.mem_of_getElem? hu)
    · obtain rfl := Except.ok.inj ((Ty.subst_of_hasParams_eq_false hparams).symm.trans hu)
      right
      intro v hv
      obtain ⟨ps, -, hps, -⟩ := exists_part_of_byValue hv
      exact hleaf ps hps

/-- Flat fields make no value endless. -/
theorem FlatFields.wellFounded (hflat : p.FlatFields) : WellFounded fun u t => p.ByValue t u := by
  refine ⟨fun t => ?_⟩
  induction t using Ty.ind with
  | layer n ih =>
    -- From a type the way leads to a slot, which is smaller, or to a type that has nothing inside.
    apply Acc.intro _
    intro u hu
    obtain hslot | hleaf := slot_or_leaf_of_byValue hflat hu
    · rw [Ty.node_of] at hslot
      exact ih u hslot
    · exact Acc.intro _ fun v hv => absurd hv (hleaf v)

end Program

end Monomorph
