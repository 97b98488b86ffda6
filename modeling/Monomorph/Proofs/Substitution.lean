import Monomorph.Proofs.Lists
import Monomorph.Ty.Params
import Monomorph.Ty.Subst

/-!
# Laws of substitution

`Ty.subst` and `Args.subst` work through a type layer by layer and slot by slot; the shortcut for
types without parameters never shows in a result. From the equation of one layer follow

- when a substitution succeeds (`Ty.subst_isOk_iff`): every mention finds a slot of its sort,
- what the image mentions (`Ty.mem_mentions_subst`): what the slots mention that were put in,
- on what it depends (`Ty.subst_congr`): on the slots that are mentioned and no others.
-/

namespace Monomorph

/-! ## One layer -/

namespace TyNode

variable {α β ε : Type} {f : α → Except ε β} {g : Const → Except ε Const}

/-- Whether two layers are of one kind and differ at most in what stands below them. -/
def SameHead : TyNode α → TyNode β → Prop
  | prim p, prim q => p = q
  | tuple _, tuple _ => True
  | array _ _, array _ _ => True
  | wrap v _, wrap w _ => v = w
  | nominal k i _, nominal l j _ => k = l ∧ i = j
  | dyn i, dyn j => i = j
  | fnPtr _ _, fnPtr _ _ => True
  | param i, param j => i = j
  | _, _ => False

/-- Only a parameter has the head of a parameter. -/
theorem SameHead.ne_param {n : TyNode α} {n' : TyNode β} (h : n.SameHead n')
    (hn : ∀ i, n ≠ .param i) (i : Nat) : n' ≠ .param i := by
  rintro rfl
  cases n <;> first | exact hn _ rfl | exact h

/-- A layer is of its own kind. -/
@[simp] theorem SameHead.refl (n : TyNode α) : n.SameHead n := by
  cases n <;> simp [SameHead]

/-- A type slot succeeds where its type does. -/
theorem mapM_ty_eq_ok {t : α} {b : Arg β} :
    Arg.mapM f g (.ty t) = .ok b ↔ ∃ u, f t = .ok u ∧ .ty u = b :=
  map_eq_ok_iff

/-- A constant slot succeeds where its constant does. -/
theorem mapM_const_eq_ok {c : Const} {b : Arg β} :
    Arg.mapM f g (.const c) = .ok b ↔ ∃ d, g c = .ok d ∧ .const d = b :=
  map_eq_ok_iff

/-- Type slots succeed one by one where their types do. -/
private theorem forall₂_map_ty {ts : List α} {us : List β} :
    List.Forall₂ (fun a b => Arg.mapM f g a = .ok b) (ts.map .ty) (us.map .ty) ↔
      List.Forall₂ (fun t u => f t = .ok u) ts us := by
  simp only [List.forall₂_map_left_iff, List.forall₂_map_right_iff, mapM_ty_eq_ok, Arg.ty.injEq,
    exists_eq_right]

/-- The slots of a function type: those of its inputs and its output. -/
private theorem forall₂_map_ty_concat {ts : List α} {us : List β} {t : α} {u : β} :
    List.Forall₂ (fun a b => Arg.mapM f g a = .ok b) (ts.map .ty ++ [.ty t])
        (us.map .ty ++ [.ty u]) ↔
      List.Forall₂ (fun t u => f t = .ok u) ts us ∧ f t = .ok u := by
  rw [← List.map_singleton, ← List.map_append, ← List.map_singleton, ← List.map_append,
    forall₂_map_ty]
  constructor
  · -- the lists of inputs are as long as each other, so the outputs stand in the same place
    intro h
    have hl : ts.length = us.length := by simpa using h.length_eq
    have h₁ := List.forall₂_take ts.length h
    have h₂ := List.forall₂_drop ts.length h
    rw [List.take_left', hl, List.take_left'] at h₁ <;> try rfl
    rw [List.drop_left', hl, List.drop_left'] at h₂ <;> try rfl
    simp at h₂
    exact ⟨h₁, h₂⟩
  · rintro ⟨h, ht⟩
    exact List.rel_append h (.cons ht .nil)

/-- Running an action on a layer keeps its head and runs the action on what stands below. -/
theorem mapM_eq_ok_iff {n : TyNode α} {n' : TyNode β} :
    n.mapM f g = .ok n' ↔
      n.SameHead n' ∧ List.Forall₂ (fun a b => Arg.mapM f g a = .ok b) n.slots n'.slots := by
  -- By constructor: both layers are of one, and their slots correspond in order.
  cases n with
  | prim p => cases n' <;> simp [mapM, SameHead, slots, pure, Except.pure]
  | dyn i => cases n' <;> simp [mapM, SameHead, slots, pure, Except.pure]
  | param i => cases n' <;> simp [mapM, SameHead, slots, pure, Except.pure]
  | tuple ts =>
    simp only [mapM, map_eq_ok_iff, Monomorph.mapM_eq_ok_iff]
    cases n' <;> simp [SameHead, slots, forall₂_map_ty, -List.forall₂_map_left_iff,
      -List.forall₂_map_right_iff]
  | array t c =>
    simp only [mapM, bind_eq_ok_iff]
    cases n' <;> simp [SameHead, slots, mapM_ty_eq_ok, mapM_const_eq_ok, pure, Except.pure]
  | wrap w t =>
    simp only [mapM, map_eq_ok_iff]
    cases n' <;> simp [SameHead, slots, mapM_ty_eq_ok, and_comm]
  | nominal k i as =>
    simp only [mapM, map_eq_ok_iff, Monomorph.mapM_eq_ok_iff]
    cases n' <;> simp [SameHead, slots, and_comm]
  | fnPtr ins out =>
    simp only [mapM, bind_eq_ok_iff, Monomorph.mapM_eq_ok_iff]
    cases n' <;> simp [SameHead, slots, forall₂_map_ty_concat, pure, Except.pure]

/-- Running an action on a layer succeeds if it does on all that stands below. -/
theorem exists_mapM_eq_ok_iff {n : TyNode α} :
    (∃ n', n.mapM f g = .ok n') ↔ ∀ a ∈ n.slots, ∃ b, Arg.mapM f g a = .ok b := by
  -- A slot succeeds where what is in it does.
  have hty : ∀ t, (∃ b, Arg.mapM f g (.ty t) = .ok b) ↔ ∃ u, f t = .ok u := by
    simp [mapM_ty_eq_ok]
  have hconst : ∀ c, (∃ b, Arg.mapM f g (.const c) = .ok b) ↔ ∃ d, g c = .ok d := by
    simp [mapM_const_eq_ok]
  cases n with
  | prim p => simp [mapM, slots, pure, Except.pure]
  | dyn i => simp [mapM, slots, pure, Except.pure]
  | param i => simp [mapM, slots, pure, Except.pure]
  | tuple ts => simp [mapM, map_eq_ok_iff, slots, hty, ← Monomorph.exists_mapM_eq_ok_iff]
  | array t c =>
    simp only [mapM, bind_eq_ok_iff, slots, List.forall_mem_cons, hty, hconst]
    simp [pure, Except.pure]
  | wrap w t => simp [mapM, map_eq_ok_iff, slots, hty]
  | nominal k i as => simp [mapM, map_eq_ok_iff, slots, Monomorph.exists_mapM_eq_ok_iff]
  | fnPtr ins out =>
    simp only [mapM, bind_eq_ok_iff, slots, List.forall_mem_append, List.forall_mem_map,
      List.forall_mem_singleton, hty]
    rw [← Monomorph.exists_mapM_eq_ok_iff]
    simp [pure, Except.pure]

end TyNode

/-- Replaces what the slot of an argument list holds. -/
abbrev Arg.subst (args : Args) : Arg Ty → Except SubstError (Arg Ty) :=
  Arg.mapM (Ty.subst args) (Const.subst args)

/-- What is mentioned in a slot of an argument list. -/
abbrev Arg.mentioned (a : Arg Ty) : List Mention := (a.map Ty.mentions).mentions

namespace Ty

variable {args : Args}

/-- The equation of `subst` on one layer, with its shortcut. -/
private theorem subst_layer (args : Args) {n : TyNode Ty} (hn : ∀ i, n ≠ .param i) :
    (of n).subst args = if (of n).hasParams then of <$> n.mapM (Ty.subst args) (Const.subst args)
      else .ok (of n) := by
  -- The recursion is written out for each constructor, and so is the layer's traversal.
  cases n with
  | prim p => rw [of, Ty.subst.eq_def]; rfl
  | tuple ts =>
    rw [of, Ty.subst.eq_def]
    simp only [Tys.substFrom_ofList, TyNode.mapM]
    cases ts.mapM (Ty.subst args) <;> rfl
  | array t c =>
    rw [of, Ty.subst.eq_def]
    simp only [TyNode.mapM]
    cases t.subst args <;> [rfl; (cases c.subst args <;> rfl)]
  | wrap w t =>
    rw [of, Ty.subst.eq_def]
    simp only [TyNode.mapM]
    cases t.subst args <;> rfl
  | nominal k i as =>
    rw [of, Ty.subst.eq_def]
    simp only [Slots.substFrom_ofList, TyNode.mapM]
    cases as.mapM (Arg.mapM (Ty.subst args) (Const.subst args)) <;> rfl
  | dyn i => rw [of, Ty.subst.eq_def]; rfl
  | fnPtr ins out =>
    rw [of, Ty.subst.eq_def]
    simp only [Tys.substFrom_ofList, TyNode.mapM]
    cases ins.mapM (Ty.subst args) <;> [rfl; (cases out.subst args <;> rfl)]
  | param i => exact absurd rfl (hn i)

/-- A parameter is replaced by the type in its slot. -/
theorem subst_param (args : Args) (i : Nat) : (param i).subst args = args.tyAt i := by
  rw [Ty.subst.eq_def]; rfl

/-- A slot without parameters stays as it is. -/
private theorem subst_slot_of_hasParams_eq_false {a : Arg Ty}
    (h : (a.map measure).flags.hasParams = false) : a.subst args = .ok a := by
  -- a slot without parameters is a type without any, or a value
  cases a with
  | ty t => exact map_eq_ok_iff.2 ⟨t, subst_of_hasParams_eq_false h, rfl⟩
  | const c =>
    cases c with
    | value n => rfl
    | param i => exact absurd h (by simp [Arg.flags, Flags.hasParams])

/-- The equation of `subst`: what stands below a layer is replaced. The shortcut does not show,
    for where there is no parameter all slots stay as they are. -/
theorem subst_of (args : Args) {n : TyNode Ty} (hn : ∀ i, n ≠ .param i) :
    (of n).subst args = of <$> n.mapM (Ty.subst args) (Const.subst args) := by
  rw [subst_layer args hn]
  split
  · rfl
  · next h =>
    -- No slot has parameters, so each is left as it is.
    rw [hasParams_of, Bool.not_eq_true, Bool.or_eq_false_iff, List.any_eq_false] at h
    have hsame : n.mapM (Ty.subst args) (Const.subst args) = .ok n := by
      refine TyNode.mapM_eq_ok_iff.2 ⟨TyNode.SameHead.refl n, List.forall₂_same.2 fun a ha => ?_⟩
      exact subst_slot_of_hasParams_eq_false (Bool.eq_false_iff.2 (h.2 a ha))
    rw [hsame]
    rfl

/-- What the image of a layer is: the same layer over the images of its slots. -/
theorem subst_of_eq_ok_iff {n : TyNode Ty} (hn : ∀ i, n ≠ .param i) {u : Ty} :
    (of n).subst args = .ok u ↔ ∃ n', u = of n' ∧ n.SameHead n' ∧
      List.Forall₂ (fun a b => a.subst args = .ok b) n.slots n'.slots := by
  rw [subst_of args hn, map_eq_ok_iff]
  simp only [TyNode.mapM_eq_ok_iff, eq_comm (a := u)]
  exact exists_congr fun n' => and_comm

/-! ## Success -/

end Ty

/-- The sort of what a slot holds. -/
def Arg.kind : Arg Ty → ParamKind
  | .ty _ => .type
  | .const _ => .const

/-- Whether an argument list has a slot of the right sort for a mention. -/
def Args.Fits (args : Args) (m : Mention) : Prop := ∃ a, args[m.2]? = some a ∧ a.kind = m.1

namespace Args

variable {args : Args}

/-- A type is found exactly for a mention of a type that fits. -/
theorem tyAt_eq_ok_iff {i : Nat} {t : Ty} : args.tyAt i = .ok t ↔ args[i]? = some (.ty t) := by
  unfold tyAt
  cases args[i]? with
  | none => simp
  | some a => cases a <;> simp

/-- A constant is found exactly for a mention of a constant that fits. -/
theorem constAt_eq_ok_iff {i : Nat} {c : Const} :
    args.constAt i = .ok c ↔ args[i]? = some (.const c) := by
  unfold constAt
  cases args[i]? with
  | none => simp
  | some a => cases a <;> simp

/-- A type parameter fits where its slot has a type. -/
theorem fits_type_iff {i : Nat} : args.Fits (.type, i) ↔ ∃ t, args[i]? = some (.ty t) := by
  constructor
  · -- a slot that fits the mention of a type holds one
    rintro ⟨a, ha, hk⟩
    cases a with
    | ty t => exact ⟨t, ha⟩
    | const c => exact nomatch hk
  · rintro ⟨t, ht⟩
    exact ⟨_, ht, rfl⟩

/-- A constant parameter fits where its slot has a constant. -/
theorem fits_const_iff {i : Nat} : args.Fits (.const, i) ↔ ∃ c, args[i]? = some (.const c) := by
  constructor
  · rintro ⟨a, ha, hk⟩
    cases a with
    | ty t => exact nomatch hk
    | const c => exact ⟨c, ha⟩
  · rintro ⟨c, hc⟩
    exact ⟨_, hc, rfl⟩

end Args

namespace Ty

variable {args : Args}

/-- To prove something of every type, prove it of parameters and of a layer of any other kind whose
    children have it. -/
theorem ind_param {P : Ty → Prop} (param : ∀ i, P (.param i))
    (layer : ∀ n : TyNode Ty, (∀ i, n ≠ .param i) → (∀ t, .ty t ∈ n.slots → P t) → P (.of n))
    (t : Ty) : P t := by
  induction t using Ty.ind with
  | layer n ih =>
    -- a parameter is a layer too, but its own case
    by_cases hn : ∃ i, n = .param i
    · obtain ⟨i, rfl⟩ := hn
      exact param i
    · exact layer n (fun i h => hn ⟨i, h⟩) ih

/-- A parameter becomes the type in its slot. -/
theorem subst_param_eq_ok_iff {i : Nat} {u : Ty} :
    (param i).subst args = .ok u ↔ args[i]? = some (.ty u) := by
  rw [subst_param, Args.tyAt_eq_ok_iff]

/-- A constant is replaced exactly if what it mentions fits. -/
private theorem const_subst_isOk_iff {c : Const} :
    (∃ d, c.subst args = .ok d) ↔ ∀ m ∈ c.mentions, args.Fits m := by
  cases c with
  | value n => simp [Const.subst, Const.mentions]
  | param i => simp [Const.subst, Const.mentions, Args.constAt_eq_ok_iff, Args.fits_const_iff]

/-- A slot is replaced exactly if what it mentions fits, provided that this holds of types. -/
private theorem slot_subst_isOk_iff {a : Arg Ty}
    (ih : ∀ t, a = .ty t → ((∃ u, t.subst args = .ok u) ↔ ∀ m ∈ t.mentions, args.Fits m)) :
    (∃ b, a.subst args = .ok b) ↔ ∀ m ∈ a.mentioned, args.Fits m := by
  -- A slot succeeds where its type or constant does.
  cases a with
  | ty t =>
    have h : (∃ b, (Arg.ty t).subst args = .ok b) ↔ ∃ u, t.subst args = .ok u := by
      simp [TyNode.mapM_ty_eq_ok]
    exact h.trans (ih t rfl)
  | const c =>
    have h : (∃ b, (Arg.const c).subst args = .ok b) ↔ ∃ d, c.subst args = .ok d := by
      simp [TyNode.mapM_const_eq_ok]
    exact h.trans const_subst_isOk_iff

/-- What a layer mentions, if it is no parameter, is what its slots mention. -/
theorem mentions_of_ne_param {n : TyNode Ty} (hn : ∀ i, n ≠ .param i) :
    (of n).mentions = Args.mentions n.slots := by
  rw [mentions_of, TyNode.mentions, TyNode.slots_map, List.flatMap_map, Args.mentions]
  cases n with
  | param i => exact absurd rfl (hn i)
  | _ => rfl

/-- A layer that is no parameter mentions what its slots do. -/
theorem mem_mentions_of_ne_param {n : TyNode Ty} (hn : ∀ i, n ≠ .param i) {m : Mention} :
    m ∈ (of n).mentions ↔ ∃ a ∈ n.slots, m ∈ a.mentioned := by
  rw [mentions_of_ne_param hn, Args.mentions, List.mem_flatMap]

/-- A substitution succeeds exactly if there is a slot of the right sort for every mention. -/
theorem subst_isOk_iff (t : Ty) :
    (∃ u, t.subst args = .ok u) ↔ ∀ m ∈ t.mentions, args.Fits m := by
  induction t using Ty.ind_param with
  | param i =>
    rw [mentions_param, List.forall_mem_singleton, Args.fits_type_iff]
    simp only [subst_param_eq_ok_iff]
  | layer n hn ih =>
    -- a layer that is no parameter is kept, so it all depends on the slots
    simp only [mem_mentions_of_ne_param hn, subst_of args hn, map_eq_ok_iff]
    have hslots : (∃ n', n.mapM (Ty.subst args) (Const.subst args) = .ok n') ↔
        ∀ a ∈ n.slots, ∀ m ∈ a.mentioned, args.Fits m := by
      rw [TyNode.exists_mapM_eq_ok_iff]
      exact forall₂_congr fun a ha => slot_subst_isOk_iff fun t ht => ih t (ht ▸ ha)
    constructor
    · rintro ⟨u, n', hn', -⟩ m ⟨a, ha, hm⟩
      exact hslots.1 ⟨n', hn'⟩ a ha m hm
    · intro h
      obtain ⟨n', hn'⟩ := hslots.2 fun a ha m hm => h m ⟨a, ha, hm⟩
      exact ⟨_, n', hn', rfl⟩

/-! ## What an image mentions -/

/-- What is mentioned in the slot at the position of one of some mentions. -/
def MentionedAt (args : Args) (ms : List Mention) (m : Mention) : Prop :=
  ∃ q ∈ ms, ∃ a, args[q.2]? = some a ∧ m ∈ a.mentioned

/-- What one parameter brings in is what its argument mentions. -/
theorem mentionedAt_singleton {q m : Mention} {a : Arg Ty} (h : args[q.2]? = some a) :
    MentionedAt args [q] m ↔ m ∈ a.mentioned := by
  constructor
  · rintro ⟨r, hr, b, hb, hm⟩
    obtain rfl := List.mem_singleton.1 hr
    obtain rfl := Option.some.inj (h.symm.trans hb)
    exact hm
  · exact fun hm => ⟨q, List.mem_singleton.2 rfl, a, h, hm⟩

/-- A substituted constant mentions what its argument does. -/
private theorem mem_mentions_const_subst {c d : Const} (h : c.subst args = .ok d) {m : Mention} :
    m ∈ d.mentions ↔ MentionedAt args c.mentions m := by
  -- a constant that is a parameter mentions what its slot does
  cases c with
  | value n =>
    obtain rfl := Except.ok.inj h
    simp [Const.mentions, MentionedAt]
  | param i =>
    have hi : args[i]? = some (.const d) := Args.constAt_eq_ok_iff.1 h
    exact (mentionedAt_singleton (q := (.const, i)) hi).symm

/-- The image of a slot mentions what the slots mention that it mentions itself, provided that
    this holds of types. -/
private theorem mem_mentioned_slot_subst {a b : Arg Ty} (h : a.subst args = .ok b)
    {m : Mention} (ih : ∀ t, a = .ty t → ∀ u, t.subst args = .ok u →
      (m ∈ u.mentions ↔ MentionedAt args t.mentions m)) :
    m ∈ b.mentioned ↔ MentionedAt args a.mentioned m := by
  cases a with
  | ty t =>
    obtain ⟨u, hu, rfl⟩ := TyNode.mapM_ty_eq_ok.1 h
    exact ih t rfl u hu
  | const c =>
    obtain ⟨d, hd, rfl⟩ := TyNode.mapM_const_eq_ok.1 h
    exact mem_mentions_const_subst hd

/-- The image of a type mentions what the slots mention that the type mentions. -/
theorem mem_mentions_subst {t u : Ty} (h : t.subst args = .ok u) {m : Mention} :
    m ∈ u.mentions ↔ MentionedAt args t.mentions m := by
  induction t using Ty.ind_param generalizing u with
  | param i =>
    exact (mentionedAt_singleton (q := (.type, i)) (subst_param_eq_ok_iff.1 h)).symm
  | layer n hn ih =>
    obtain ⟨n', rfl, hhead, hslots⟩ := (subst_of_eq_ok_iff hn).1 h
    rw [mem_mentions_of_ne_param (hhead.ne_param hn)]
    have slot : ∀ a ∈ n.slots, ∀ b, a.subst args = .ok b →
        (m ∈ b.mentioned ↔ MentionedAt args a.mentioned m) := fun a ha b hb =>
      mem_mentioned_slot_subst hb fun t ht u hu => ih t (ht ▸ ha) hu
    -- Slots before and after correspond, and each is known by induction.
    constructor
    · rintro ⟨b, hb, hm⟩
      obtain ⟨a, ha, hab⟩ := forall₂_exists_left hslots hb
      obtain ⟨q, hq, hm⟩ := (slot a ha b hab).1 hm
      exact ⟨q, (mem_mentions_of_ne_param hn).2 ⟨a, ha, hq⟩, hm⟩
    · rintro ⟨q, hq, hm⟩
      obtain ⟨a, ha, hqa⟩ := (mem_mentions_of_ne_param hn).1 hq
      obtain ⟨b, hb, hab⟩ := forall₂_exists_right hslots ha
      exact ⟨b, hb, (slot a ha b hab).2 ⟨q, hqa, hm⟩⟩

/-! ## What a substitution depends on -/

/-- A slot is substituted alike by arguments that agree on what it mentions. -/
private theorem slot_subst_congr {args' : Args} {a b : Arg Ty} (h : a.subst args = .ok b)
    (hagree : ∀ q ∈ a.mentioned, args'[q.2]? = args[q.2]?)
    (ih : ∀ t, a = .ty t → ∀ u, t.subst args = .ok u →
      (∀ q ∈ t.mentions, args'[q.2]? = args[q.2]?) → t.subst args' = .ok u) :
    a.subst args' = .ok b := by
  cases a with
  | ty t =>
    obtain ⟨u, hu, rfl⟩ := TyNode.mapM_ty_eq_ok.1 h
    exact TyNode.mapM_ty_eq_ok.2 ⟨u, ih t rfl u hu hagree, rfl⟩
  | const c =>
    obtain ⟨d, hd, rfl⟩ := TyNode.mapM_const_eq_ok.1 h
    refine TyNode.mapM_const_eq_ok.2 ⟨d, ?_, rfl⟩
    -- a constant parameter looks at the slot that it mentions, and both lists have the same there
    cases c with
    | value n => exact hd
    | param i =>
      have hi : args'[i]? = args[i]? := hagree (.const, i) (List.mem_singleton.2 rfl)
      exact Args.constAt_eq_ok_iff.2 (hi.trans (Args.constAt_eq_ok_iff.1 hd))

/-- A substitution depends only on the slots that the type mentions. -/
theorem subst_congr {args' : Args} {t u : Ty} (h : t.subst args = .ok u)
    (hagree : ∀ q ∈ t.mentions, args'[q.2]? = args[q.2]?) : t.subst args' = .ok u := by
  induction t using Ty.ind_param generalizing u with
  | param i =>
    rw [mentions_param, List.forall_mem_singleton] at hagree
    exact subst_param_eq_ok_iff.2 (hagree.trans (subst_param_eq_ok_iff.1 h))
  | layer n hn ih =>
    -- The layer is kept, and its slots agree on what each of them mentions.
    obtain ⟨n', rfl, hhead, hslots⟩ := (subst_of_eq_ok_iff hn).1 h
    refine (subst_of_eq_ok_iff hn).2 ⟨n', rfl, hhead, forall₂_imp_mem hslots fun a ha b hab => ?_⟩
    refine slot_subst_congr hab ?_ fun t ht u hu => ih t (ht ▸ ha) hu
    exact fun q hq => hagree q ((mem_mentions_of_ne_param hn).2 ⟨a, ha, hq⟩)

end Ty

namespace Arg

variable {args : Args}

/-- A slot is replaced exactly if there is a slot of the right sort for every mention in it. -/
theorem subst_isOk_iff (a : Arg Ty) :
    (∃ b, a.subst args = .ok b) ↔ ∀ m ∈ a.mentioned, args.Fits m :=
  Ty.slot_subst_isOk_iff fun t _ => t.subst_isOk_iff

/-- The image of a slot mentions what the slots mention that it mentions itself. -/
theorem mem_mentioned_subst {a b : Arg Ty} (h : a.subst args = .ok b) {m : Mention} :
    m ∈ b.mentioned ↔ Ty.MentionedAt args a.mentioned m :=
  Ty.mem_mentioned_slot_subst h fun _ _ _ hu => Ty.mem_mentions_subst hu

/-- Replacing a slot depends only on the slots that it mentions. -/
theorem subst_congr {args' : Args} {a b : Arg Ty} (h : a.subst args = .ok b)
    (hagree : ∀ q ∈ a.mentioned, args'[q.2]? = args[q.2]?) : a.subst args' = .ok b :=
  Ty.slot_subst_congr h hagree fun _ _ _ hu hq => Ty.subst_congr hu hq

end Arg

namespace Args

/-- Substituting into an argument list goes slot by slot. -/
theorem subst_eq_ok_iff {args inner out : Args} :
    args.subst inner = .ok out ↔ List.Forall₂ (fun a b => a.subst args = .ok b) inner out :=
  mapM_eq_ok_iff

end Args

end Monomorph
