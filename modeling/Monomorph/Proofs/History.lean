import Monomorph.Proofs.Classification

/-!
# What answers owe to earlier questions

A type needs drop if something that runs code lies in it by value, however deep
(`Program.NeedsDrop`). The search for it remembers its answers and takes a type under classification
for harmless, so an answer may be remembered that was found on that assumption. Two invariants tell
how far the answers can be trusted all the same:

- whatever is remembered, a type that is said to need drop does, and one that is said not to does
  not if no type inside it lies inside itself (`DropMemo.Credible`);
- a search that starts afresh and finds nothing has seen all that lies inside the type: each type
  remembered as harmless runs nothing itself, and what lies directly inside it is remembered as
  harmless in its turn, or under classification still (`DropMemo.Closed`).
-/

namespace Monomorph

namespace Program

variable (p : Program)

/-- The types that run code when a value of them is dropped, whatever lies inside the value. -/
inductive DropsItself : Ty → Prop
  | box {t : Ty} : DropsItself (.wrap .box t)
  | object {i : ItemId} : DropsItself (.dyn i)
  | param {k : Nat} : DropsItself (.param k)
  | method {i : ItemId} {args : Slots} : (p.dropMethod? i).isSome = true →
    DropsItself (.nominal .adt i args)
  /-- A field whose type cannot be made. -/
  | broken {i : ItemId} {args : Slots} {fields : List Ty} {f : Ty} {e : SubstError} :
    p.dropMethod? i = none → (p.item i).kind = .adt fields → f ∈ fields →
    f.subst args.toList = .error e → DropsItself (.nominal .adt i args)

/-- Whether a type that runs code lies by value in a type, or is the type itself. -/
def NeedsDrop (t : Ty) : Prop := ∃ u, Relation.ReflTransGen p.ByValue t u ∧ p.DropsItself u

/-- Whether none of the types that lie by value in a type lies inside itself. -/
def Grounded (t : Ty) : Prop :=
  ∀ u, Relation.ReflTransGen p.ByValue t u → ¬ Relation.TransGen p.ByValue u u

variable {p} {t u : Ty}

/-! ## One layer -/

/-- A type whose layer always drops runs code itself. -/
theorem dropsItself_of_always (h : p.dropShape t = .always) : p.DropsItself t := by
  -- all the layers whose shape says so, one by one
  cases t with
  | dyn i => exact .object
  | param k => exact .param
  | array v n =>
    by_cases hn : n = .value 0
    · simp [dropShape, Ty.node, hn] at h
    · simp [dropShape, Ty.node] at h
  | wrap w v =>
    cases w with
    | box => exact .box
    | _ => simp [dropShape, Ty.node] at h
  | nominal k i args =>
    cases k with
    | adt =>
      simp only [dropShape, Ty.node] at h
      split at h
      · next hdrop => exact .method hdrop
      · split at h <;> cases h
    | _ => simp [dropShape, Ty.node] at h
  | _ => simp [dropShape, Ty.node] at h

/-- The top layer of a type shows whether the type runs code itself. -/
theorem dropsItself_iff : p.DropsItself t ↔ p.dropShape t = .always ∨
    ∃ ps part e, p.dropShape t = .parts ps ∧ part ∈ ps ∧ part.ty = .error e := by
  constructor
  · intro h
    -- All but the broken field are told by the layer alone.
    cases h with
    | box => exact .inl rfl
    | object => exact .inl rfl
    | param => exact .inl rfl
    | method hdrop => exact .inl (by simp only [dropShape, Ty.node, hdrop, if_true])
    | @broken i args fields f e hdrop hkind hf he =>
      exact .inr ⟨_, .field args.toList f, e, (HasParts.fields hdrop hkind).dropShape,
        List.mem_map_of_mem hf, he⟩
  · intro h
    obtain h | ⟨ps, part, e, hshape, hpart, he⟩ := h
    · exact dropsItself_of_always h
    · obtain ⟨v, rfl, -⟩ | ⟨i, args, fields, f, rfl, hdrop, hkind, hf, rfl⟩ :=
        part_cases hshape hpart
      · -- a part that stands in the type can be made
        cases he
      · exact .broken hdrop hkind hf he

/-- A type all of whose parts can be made runs no code itself, and what is true of the parts is true
    of all that lies directly inside it. -/
theorem inside_of_parts {Q : Ty → Prop} (hshape : p.dropShape t ≠ .always)
    (hparts : ∀ ps, p.dropShape t = .parts ps → ∀ part ∈ ps, ∃ u, part.ty = .ok u ∧ Q u) :
    ¬ p.DropsItself t ∧ ∀ u, p.ByValue t u → Q u := by
  constructor
  · intro hself
    -- A type that runs code itself does so by its layer or by a part that cannot be made.
    obtain halways | ⟨ps, part, e, hps, hpart, he⟩ := dropsItself_iff.1 hself
    · exact hshape halways
    · obtain ⟨u, hu, -⟩ := hparts ps hps part hpart
      exact nomatch he.symm.trans hu
  · intro u hu
    obtain ⟨ps, part, hps, hpart, hpu⟩ := exists_part_of_byValue hu
    obtain ⟨v, hv, hq⟩ := hparts ps hps part hpart
    obtain rfl := Except.ok.inj (hpu.symm.trans hv)
    exact hq

/-- A primitive runs no code. -/
theorem not_dropsItself_of_isPrimitive (h : t.isPrimitive = true) : ¬ p.DropsItself t := by
  intro hself
  cases hself <;> exact Bool.false_ne_true h

/-- Nothing lies inside a primitive. -/
-- a built-in type has nothing inside
theorem not_byValue_of_isPrimitive (h : t.isPrimitive = true) : ¬ p.ByValue t u := by
  intro hu
  cases hu with
  | @elem ts u hu =>
    cases ts with
    | nil => exact nomatch hu
    | cons v ts => exact Bool.false_ne_true h
  | item => exact Bool.false_ne_true h
  | slice => exact Bool.false_ne_true h
  | field => exact Bool.false_ne_true h

/-- A type needs drop if it runs code itself, or a type directly inside it needs drop. -/
theorem needsDrop_iff : p.NeedsDrop t ↔
    p.DropsItself t ∨ ∃ u, p.ByValue t u ∧ p.NeedsDrop u := by
  constructor
  · -- The first step of the way, if there is one, leads inside.
    intro ⟨v, hpath, hv⟩
    obtain rfl | ⟨u, hu, hpath⟩ := hpath.cases_head
    · exact .inl hv
    · exact .inr ⟨u, hu, v, hpath, hv⟩
  · intro h
    obtain h | ⟨u, hu, v, hpath, hv⟩ := h
    · exact ⟨t, .refl, h⟩
    · exact ⟨v, .head hu hpath, hv⟩

/-- A primitive does not need drop. -/
theorem not_needsDrop_of_isPrimitive (h : t.isPrimitive = true) : ¬ p.NeedsDrop t := by
  rw [needsDrop_iff]
  rintro (hself | ⟨u, hu, -⟩)
  · exact not_dropsItself_of_isPrimitive h hself
  · exact not_byValue_of_isPrimitive h hu

/-- What lies inside a grounded type is grounded. -/
theorem Grounded.byValue (h : p.Grounded t) (hu : p.ByValue t u) : p.Grounded u :=
  fun v hv => h v (.head hu hv)

/-! ## Answers after other questions -/

/-- What an answer says that was found after other questions: that the type needs drop, or that it
    does not if no type inside it lies inside itself. -/
def Credible (p : Program) (t : Ty) : Bool → Prop
  | true => p.NeedsDrop t
  | false => p.Grounded t → ¬ p.NeedsDrop t

end Program

namespace DropMemo

/-- Whether that is true of all that is remembered. -/
def Credible (p : Program) (m : DropMemo) : Prop := ∀ t b, m.find? t = some b → p.Credible t b

variable {p : Program} {m : DropMemo}

/-- What is recorded is remembered, and nothing else changes. -/
theorem find?_record {t u : Ty} {b : Bool} :
    (m.record t b).find? u = if t = u then some b else m.find? u :=
  Index.get?_insert m.answers t b u

/-- An empty memo remembers nothing wrong. -/
theorem credible_empty : Credible p {} := by
  intro t b h
  rw [find?, Index.get?_empty] at h
  cases h

/-- A right answer may be recorded. -/
theorem Credible.record (h : m.Credible p) {t : Ty} {b : Bool} (ht : p.Credible t b) :
    (m.record t b).Credible p := by
  intro u c hu
  -- the answer that was added is credible, and the others have been before
  rw [find?_record] at hu
  split at hu
  · next he =>
    obtain rfl := Option.some.inj hu
    exact he ▸ ht
  · exact h u c hu

end DropMemo

namespace Program

variable {p : Program} {t u : Ty} {m m' : DropMemo} {b : Bool}

/-- A type is harmless if it runs no code itself and all that lies directly inside it is. -/
theorem credible_false
    (h : ¬ p.DropsItself t ∧ ∀ u, p.ByValue t u → p.Credible u false) : p.Credible t false := by
  intro hgrounded hneeds
  obtain hself | ⟨u, hu, hneeds⟩ := needsDrop_iff.1 hneeds
  · exact h.1 hself
  · exact h.2 u hu (hgrounded.byValue hu) hneeds

/-- What a search of parts has found is credible for the type if every answer on the way is. -/
private theorem Searched.credible {ps : List DropPart} (h : Searched p.Credible ps b)
    (hshape : p.dropShape t = .parts ps) : p.Credible t b := by
  -- The search ended without finding anything, at a part that cannot be made, or at one that needs
  -- drop.
  cases h with
  | harmless hparts hus =>
    refine credible_false (inside_of_parts (by simp [hshape]) ?_)
    intro ps' hshape' part hpart
    obtain rfl := DropShape.parts.inj (hshape.symm.trans hshape')
    obtain ⟨u, hu, hpu⟩ := forall₂_exists_right hparts hpart
    exact ⟨u, hpu, hus u hu⟩
  | @broken _ _ part _ e hps _ _ he =>
    have hself : p.DropsItself t :=
      dropsItself_iff.2 (.inr ⟨ps, part, e, hshape, by simp [hps], he⟩)
    exact needsDrop_iff.2 (.inl hself)
  | @found _ _ part _ u hps _ _ hu hneeds =>
    have hinside : p.ByValue t u := byValue_of_part hshape (by simp [hps]) hu
    exact needsDrop_iff.2 (.inr ⟨u, hinside, hneeds⟩)

/-- What is found with a credible memory is credible, and so is the memory that is left. -/
theorem classify_credible {fuel : Nat} {busy : Index Ty Unit} (hbusy : p.Around busy t)
    (hm : m.Credible p) (h : p.classify fuel busy t m = some (b, m')) :
    p.Credible t b ∧ m'.Credible p := by
  induction fuel generalizing busy t m m' b with
  | zero => cases h
  | succ fuel ih =>
    cases classified_of_classify h with
    | primitive hprim => exact ⟨fun _ => not_needsDrop_of_isPrimitive hprim, hm⟩
    | remembered hfind => exact ⟨hm t b hfind, hm⟩
    | assumed hunder =>
      -- a type under classification lies inside itself
      exact ⟨fun hgrounded => absurd (hbusy t hunder) (hgrounded t .refl), hm⟩
    | trivial hshape =>
      have ht : p.Credible t false :=
        credible_false (inside_of_parts (by simp [hshape]) (by simp [hshape]))
      exact ⟨ht, hm.record ht⟩
    | always hshape =>
      have ht : p.Credible t true := needsDrop_iff.2 (.inl (dropsItself_of_always hshape))
      exact ⟨ht, hm.record ht⟩
    | @parts ps _ m₁ hshape hr =>
      obtain ⟨hsearched, hm₁⟩ := searched_of_anyPart (fun _ _ hm => hm)
        (fun part hpart u hu m b m' hm h =>
          ih (hbusy.insert (byValue_of_part hshape hpart hu)) hm h) hm hr
      have ht := hsearched.credible hshape
      exact ⟨ht, hm₁.record ht⟩

end Program

/-! ## Searches that find nothing -/

namespace DropMemo

variable {p : Program} {m m' : DropMemo} {busy : Index Ty Unit} {t u : Ty}

/-- Whether a search that has found nothing is done with a type, or still under way in it. -/
def Seen (busy : Index Ty Unit) (m : DropMemo) (t : Ty) : Prop :=
  t.isPrimitive = true ∨ m.find? t = some false ∨ busy.contains t = true

/-- Whether the types remembered as harmless run no code themselves, and the search has seen all
    that lies directly inside them. -/
def Closed (p : Program) (busy : Index Ty Unit) (m : DropMemo) : Prop :=
  ∀ t, m.find? t = some false → ¬ p.DropsItself t ∧ ∀ u, p.ByValue t u → m.Seen busy u

/-- Whether what was remembered as harmless is so still. -/
def Keeps (m m' : DropMemo) : Prop := ∀ t, m.find? t = some false → m'.find? t = some false

/-- What is kept twice is kept. -/
theorem Keeps.trans {m₁ m₂ m₃ : DropMemo} (h : m₁.Keeps m₂) (h' : m₂.Keeps m₃) : m₁.Keeps m₃ :=
  fun t ht => h' t (h t ht)

/-- Recording a type as harmless keeps the others. -/
theorem keeps_record : m.Keeps (m.record t false) := by
  intro u hu
  rw [find?_record]
  split
  · rfl
  · exact hu

/-- What was seen remains seen. -/
theorem Seen.keeps (h : m.Seen busy t) (hkeeps : m.Keeps m') : m'.Seen busy t :=
  h.imp_right (Or.imp_left (hkeeps t))

/-- An empty memo remembers nothing as harmless. -/
theorem closed_empty : Closed p busy {} := by
  intro t h
  rw [find?, Index.get?_empty] at h
  cases h

/-- When the search goes into a type, it may not have seen what lies inside. -/
theorem Closed.enter (h : m.Closed p busy) (t : Ty) : m.Closed p (busy.insert t ()) := by
  intro u hu
  refine ⟨(h u hu).1, fun v hv => ((h u hu).2 v hv).imp_right (Or.imp_right ?_)⟩
  intro hbusy
  rw [Index.contains_insert, hbusy, Bool.or_true]

/-- When it comes back, it has seen all that lies inside and remembers the type as harmless. -/
theorem Closed.leave (h : m.Closed p (busy.insert t ())) (ht : ¬ p.DropsItself t)
    (hinside : ∀ u, p.ByValue t u → m.Seen (busy.insert t ()) u) :
    (m.record t false).Closed p busy := by
  -- where the type itself was seen as under classification, it is remembered now
  have hseen : ∀ u, m.Seen (busy.insert t ()) u → (m.record t false).Seen busy u := by
    intro u hu
    obtain hprim | hfind | hbusy := hu
    · exact .inl hprim
    · exact .inr (.inl (keeps_record u hfind))
    · rw [Index.contains_insert, Bool.or_eq_true, decide_eq_true_eq] at hbusy
      obtain rfl | hbusy := hbusy
      · exact .inr (.inl (by rw [find?_record, if_pos rfl]))
      · exact .inr (.inr hbusy)
  intro u hu
  rw [find?_record] at hu
  split at hu
  · next he =>
    subst he
    exact ⟨ht, fun v hv => hseen v (hinside v hv)⟩
  · exact ⟨(h u hu).1, fun v hv => hseen v ((h u hu).2 v hv)⟩

/-- When nothing is under classification any more, a type that was seen does not need drop. -/
theorem Closed.not_needsDrop (h : m.Closed p {}) (ht : m.Seen {} t) : ¬ p.NeedsDrop t := by
  intro ⟨u, hpath, hu⟩
  -- everything on the way has been seen
  have hseen : m.Seen {} u := by
    clear hu
    induction hpath with
    | refl => exact ht
    | tail _ hstep ih =>
      obtain hprim | hfind | hbusy := ih
      · exact absurd hstep (Program.not_byValue_of_isPrimitive hprim)
      · exact (h _ hfind).2 _ hstep
      · exact absurd hbusy (by simp)
  obtain hprim | hfind | hbusy := hseen
  · exact Program.not_dropsItself_of_isPrimitive hprim hu
  · exact (h u hfind).1 hu
  · exact absurd hbusy (by simp)

end DropMemo

namespace Program

variable {p : Program} {t : Ty} {m m' : DropMemo} {busy : Index Ty Unit}

/-- What a search of parts leaves behind that finds nothing. -/
private theorem closed_of_anyPart {ask : Ty → DropMemo → Option (Bool × DropMemo)}
    {parts : List DropPart}
    (hask : ∀ u m m', m.Closed p busy → ask u m = some (false, m') →
      m'.Closed p busy ∧ m'.Seen busy u ∧ m.Keeps m')
    (hm : m.Closed p busy) (h : anyPart ask parts m = some (false, m')) :
    m'.Closed p busy ∧ (∀ part ∈ parts, ∃ u, part.ty = .ok u ∧ m'.Seen busy u) ∧ m.Keeps m' := by
  induction parts generalizing m with
  | nil =>
    obtain ⟨-, rfl⟩ := Prod.mk.inj (Option.some.inj h)
    exact ⟨hm, List.forall_mem_nil _, fun _ h => h⟩
  | cons part rest ih =>
    -- A search that found nothing went on past every part.
    obtain ⟨e, -, hr⟩ | ⟨u, m₁, hu, ⟨-, hr⟩ | ⟨hm₁, hr⟩⟩ := anyPart_cons_eq_some_iff.1 h
    · exact nomatch (Prod.mk.inj hr).1
    · exact nomatch (Prod.mk.inj hr).1
    · obtain ⟨hclosed, hseen, hkeeps⟩ := hask u (m.note part.formed) m₁ hm hm₁
      obtain ⟨hclosed', hrest, hkeeps'⟩ := ih hclosed hr
      exact ⟨hclosed', List.forall_mem_cons.2 ⟨⟨u, hu, hseen.keeps hkeeps'⟩, hrest⟩,
        hkeeps.trans hkeeps'⟩

/-- A search that finds nothing has seen all that lies inside the types it remembers. -/
theorem classify_closed {fuel : Nat} (hm : m.Closed p busy)
    (h : p.classify fuel busy t m = some (false, m')) :
    m'.Closed p busy ∧ m'.Seen busy t ∧ m.Keeps m' := by
  induction fuel generalizing busy t m m' with
  | zero => cases h
  | succ fuel ih =>
    have hnow : ∀ m : DropMemo, (m.record t false).Seen busy t := fun m =>
      .inr (.inl (by rw [DropMemo.find?_record, if_pos rfl]))
    generalize hb : false = b at h
    -- Only the cases with a negative answer concern the claim; of these the last goes into the
    -- parts.
    cases classified_of_classify h with
    | primitive hprim => exact ⟨hm, .inl hprim, fun _ h => h⟩
    | remembered hfind => exact ⟨hm, .inr (.inl (hb ▸ hfind)), fun _ h => h⟩
    | assumed hunder => exact ⟨hm, .inr (.inr hunder), fun _ h => h⟩
    | trivial hshape =>
      have hinside := inside_of_parts (p := p) (Q := m.Seen (busy.insert t ())) (t := t)
        (by simp [hshape]) (by simp [hshape])
      exact ⟨(hm.enter t).leave hinside.1 hinside.2, hnow m, DropMemo.keeps_record⟩
    | always hshape => exact nomatch hb
    | @parts ps _ m₁ hshape hr =>
      subst hb
      obtain ⟨hm₁, hseen, hkeeps⟩ := closed_of_anyPart (fun u m m' hm h => ih hm h) (hm.enter t) hr
      have hinside := inside_of_parts (p := p) (Q := m₁.Seen (busy.insert t ())) (t := t)
        (by simp [hshape]) (by
          intro ps' hshape'
          obtain rfl := DropShape.parts.inj (hshape.symm.trans hshape')
          exact hseen)
      exact ⟨hm₁.leave hinside.1 hinside.2, hnow m₁, hkeeps.trans DropMemo.keeps_record⟩

end Program

/-! ## The main result -/

/-- What questions, one after the other, can leave behind. -/
inductive DropMemo.Asked (p : Program) : DropMemo → Prop
  | nothing : Asked p {}
  | needsDrop {m m' : DropMemo} {fuel : Nat} {t : Ty} {b : Bool} : Asked p m →
    p.needsDrop fuel t m = some (b, m') → Asked p m'
  | glue {m m' : DropMemo} {fuel : Nat} {t : Ty} {inst? : Option Instance} : Asked p m →
    p.glue? fuel t m = some (inst?, m') → Asked p m'
  | parts {m m' : DropMemo} {fuel : Nat} {t : Ty} {r : Except SubstError DropParts} : Asked p m →
    p.dropParts fuel t m = some (r, m') → Asked p m'

namespace Program

variable {p : Program} {t : Ty} {m m' : DropMemo}

/-- What asking the first of some types to be kept can come to. -/
theorem keepParts_cons_eq_some_iff {ask : Ty → DropMemo → Option (Bool × DropMemo)}
    {ts kept : List Ty} : keepParts ask (t :: ts) m = some (kept, m') ↔
      ∃ b m₁ rest, ask t m = some (b, m₁) ∧ keepParts ask ts m₁ = some (rest, m') ∧
        kept = if b then t :: rest else rest := by
  simp only [keepParts, Option.bind_eq_bind, Option.bind_eq_some_iff, pure, Option.some.injEq,
    Prod.mk.injEq, Prod.exists]
  constructor
  · intro h
    obtain ⟨b, m₁, hb, rest, m₂, hrest, hkept, hm⟩ := h
    exact ⟨b, m₁, rest, hb, hm ▸ hrest, hkept.symm⟩
  · intro h
    obtain ⟨b, m₁, rest, hb, hrest, hkept⟩ := h
    exact ⟨b, m₁, hb, rest, m', hrest, hkept.symm, rfl⟩

/-- What is found of the parts of glue: that they cannot be made, or which of them are kept. -/
theorem dropParts_eq_some_iff {fuel : Nat} {r : Except SubstError DropParts} :
    p.dropParts fuel t m = some (r, m') ↔
      (∃ e, p.glueCandidates t = .error e ∧ r = .error e ∧ m' = m.note (p.glueFormed t)) ∨
      ∃ parts kept, p.glueCandidates t = .ok parts ∧
        keepParts (p.needsDrop fuel) parts.children (m.note (p.glueFormed t)) = some (kept, m') ∧
        r = .ok { parts with children := kept } := by
  -- The candidates decide: where they cannot be made nothing is asked, otherwise each child is.
  unfold dropParts
  cases p.glueCandidates t with
  | error e => simp [eq_comm]
  | ok parts =>
    simp only [Option.map_eq_some_iff, Prod.exists, Prod.mk.injEq]
    constructor
    · intro h
      obtain ⟨kept, m₁, hkept, hr, hm⟩ := h
      exact .inr ⟨parts, kept, rfl, hm ▸ hkept, hr.symm⟩
    · intro h
      obtain ⟨e, he, -⟩ | ⟨parts', kept, he, hkept, hr⟩ := h
      · cases he
      · obtain rfl := Except.ok.inj he
        exact ⟨kept, m', hkept, hr.symm, rfl⟩

/-- Looking for the parts that need drop is classifying some types, one after the other. -/
private theorem credible_of_keepParts {fuel : Nat} {ts kept : List Ty} (hm : m.Credible p)
    (h : keepParts (p.needsDrop fuel) ts m = some (kept, m')) : m'.Credible p := by
  induction ts generalizing m kept with
  | nil =>
    obtain ⟨-, rfl⟩ := Prod.mk.inj (Option.some.inj h)
    exact hm
  | cons t ts ih =>
    -- each answer leaves a credible memory for the next type
    obtain ⟨b, m₁, rest, hb, hrest, -⟩ := keepParts_cons_eq_some_iff.1 h
    exact ih (classify_credible (around_empty t) hm hb).2 hrest

/-- Whatever was asked, what is remembered is credible. -/
theorem credible_of_asked (h : m.Asked p) : m.Credible p := by
  -- Each question keeps the memo right, from the empty one on.
  induction h with
  | nothing => exact DropMemo.credible_empty
  | needsDrop _ hb ih => exact (classify_credible (around_empty _) ih hb).2
  | glue _ hglue ih =>
    obtain ⟨-, -, -, rfl⟩ | ⟨-, b, hb, -⟩ := glue?_cases hglue
    · exact ih
    · exact (classify_credible (around_empty _) ih hb).2
  | @parts m _ _ t _ _ hparts ih =>
    have hm : (m.note (p.glueFormed t)).Credible p := ih
    obtain ⟨e, -, -, rfl⟩ | ⟨parts, kept, -, hkept, -⟩ := dropParts_eq_some_iff.1 hparts
    · exact hm
    · exact credible_of_keepParts hm hkept

/-- What the answer for a type is worth that is found with some memory. -/
structure Answers (p : Program) (t : Ty) (m : DropMemo) (b : Bool) : Prop where
  /-- A type that is said to need drop does. -/
  sound : b = true → p.NeedsDrop t
  /-- Without any memory the answer is right either way. -/
  fresh : m = {} → (b = true ↔ p.NeedsDrop t)
  /-- So it is, whatever is remembered, if no type inside lies inside itself. -/
  grounded : p.Grounded t → (b = true ↔ p.NeedsDrop t)

/-- A type in which finitely many types lie by value is classified, whatever was asked before, and
    only a type that lies inside itself can make the answer depend on that. -/
theorem needsDrop_answers (hfinite : {u | Relation.ReflTransGen p.ByValue t u}.Finite)
    (hm : m.Asked p) : ∃ b m' enough,
      (∀ fuel, enough ≤ fuel → p.needsDrop fuel t m = some (b, m')) ∧ p.Answers t m b := by
  obtain ⟨enough, h⟩ := exists_needsDrop_of_finite hfinite m
  obtain ⟨⟨b, m'⟩, h⟩ := Option.isSome_iff_exists.1 h
  have hcredible := (classify_credible (around_empty t) (credible_of_asked hm) h).1
  have hsound : b = true → p.NeedsDrop t := by
    rintro rfl
    exact hcredible
  -- an answer is right either way if the one that the type is harmless is
  have hright : (b = false → ¬ p.NeedsDrop t) → (b = true ↔ p.NeedsDrop t) := by
    intro hharmless
    refine ⟨hsound, fun hneeds => ?_⟩
    by_contra hb
    exact hharmless (Bool.eq_false_of_not_eq_true hb) hneeds
  refine ⟨b, m', enough, fun fuel hle => classify_mono hle h, hsound, fun hfresh => hright ?_,
    fun hgrounded => hright ?_⟩
  · rintro rfl
    -- the search has seen everything and found nothing
    obtain ⟨hclosed, hseen, -⟩ := classify_closed (hfresh ▸ DropMemo.closed_empty) h
    exact hclosed.not_needsDrop hseen
  · rintro rfl
    exact hcredible hgrounded

/-- A program with two types that lie inside each other, the first of which owns a pointer. -/
def ring : Program where
  crates := ["app"]
  crateRegions := [0]
  regions := ["app"]
  items := #[
    { name := "Left", path := "Left", kind := .adt [.adt 1 [], .wrap .box (.prim .u8)] },
    { name := "Right", path := "Right", kind := .adt [.adt 0 []] }]

/-- No field in the ring mentions a parameter. -/
theorem groundFields_ring : ring.GroundFields := by
  intro i fields hkind f hf
  -- the two types of the ring have fields without parameters
  match i with
  | 0 =>
    obtain rfl := ItemKind.adt.inj hkind
    simp only [List.mem_cons, List.not_mem_nil, or_false] at hf
    obtain rfl | rfl := hf
    · exact .inr rfl
    · exact .inr rfl
  | 1 =>
    obtain rfl := ItemKind.adt.inj hkind
    obtain rfl := List.mem_singleton.1 hf
    exact .inr rfl
  | i + 2 => exact nomatch hkind

/-- The second of those types is classified after the first. -/
theorem needsDrop_answers_ring : ∃ b₁ m₁, ring.needsDrop 4 (.adt 0 []) {} = some (b₁, m₁) ∧
    {u | Relation.ReflTransGen ring.ByValue (.adt 1 []) u}.Finite ∧ m₁.Asked ring ∧
    ∃ b m' enough, (∀ fuel, enough ≤ fuel → ring.needsDrop fuel (.adt 1 []) m₁ = some (b, m')) ∧
      ring.Answers (.adt 1 []) m₁ b := by
  have hfirst : (ring.needsDrop 4 (.adt 0 []) {}).isSome = true := by decide +kernel
  obtain ⟨⟨b₁, m₁⟩, hfirst⟩ := Option.isSome_iff_exists.1 hfirst
  have hfinite := groundFields_ring.finite (.adt 1 [])
  have hasked : m₁.Asked ring := .needsDrop .nothing hfirst
  exact ⟨b₁, m₁, hfirst, hfinite, hasked, needsDrop_answers hfinite hasked⟩

example : (ring.needsDrop 4 (.adt 1 []) {}).map Prod.fst = some true := by decide +kernel

/-- Asked after the first type, the second one is taken for harmless. -/
example : ((ring.needsDrop 4 (.adt 0 []) {}).bind fun r =>
    (ring.needsDrop 4 (.adt 1 []) r.2).map Prod.fst) = some false := by decide +kernel

end Program

end Monomorph
