import Mathlib.Data.Finite.Prod
import Mathlib.Data.Set.Finite.Lattice
import Monomorph.Proofs.Normalize
import Monomorph.Proofs.Resolution

/-!
# Finitely many types

Apart from the built-in types and the type formers, a type is written with letters: the items it
names, the lengths of its lists, its constants and the positions of its parameters. A substitution
uses no letters that were not there. There are only finitely many types of given letters that are no
deeper than a given depth, and so only finitely many instances with such arguments.
-/

namespace Monomorph

/-! ## Letters -/

/-- What types are written with. -/
inductive Letter where
  | item (i : ItemId)
  /-- The length of a list of elements, of inputs or of arguments. -/
  | length (n : Nat)
  | value (n : Nat)
  | param (i : Nat)
  deriving DecidableEq

/-- The number in a letter. -/
def Letter.number : Letter → Nat
  | item n | length n | value n | param n => n

/-- The letter for a constant. -/
def Const.letter : Const → Letter
  | value n => .value n
  | param i => .param i

/-- The letters in a layer, without those in its slots. -/
def TyNode.head {α : Type} : TyNode α → List Letter
  | tuple ts => [.length ts.length]
  | nominal _ i as => [.item i, .length as.length]
  | dyn i => [.item i]
  | fnPtr ins _ => [.length ins.length]
  | param i => [.param i]
  | prim _ | array _ _ | wrap _ _ => []

/-- The letters in a slot, where those in types are known. -/
def Arg.spell : Arg (List Letter) → List Letter
  | ty ls => ls
  | const c => [c.letter]

/-- The letters in a layer, where those in its children are known. -/
def TyNode.spell (n : TyNode (List Letter)) : List Letter := n.head ++ n.slots.flatMap Arg.spell

/-- The letters that a type is written with. -/
def Ty.letters : Ty → List Letter := Ty.fold TyNode.spell

/-- The letters that a slot is written with. -/
abbrev Arg.letters (a : Arg Ty) : List Letter := (a.map Ty.letters).spell

namespace Ty

/-- The letters of a layer are its own and those of its slots. -/
theorem letters_of_subset_iff {n : TyNode Ty} {L : List Letter} : (of n).letters ⊆ L ↔
    n.head ⊆ L ∧ ∀ a ∈ n.slots, a.letters ⊆ L := by
  -- neither the layer's own letters nor the slots depend on the children being types
  have hhead : (n.map letters).head = n.head := by cases n <;> simp [TyNode.map, TyNode.head]
  have hslots : (n.slots.flatMap Arg.letters) ⊆ L ↔ ∀ a ∈ n.slots, a.letters ⊆ L := by
    constructor
    · exact fun h a ha l hl => h (List.mem_flatMap.2 ⟨a, ha, hl⟩)
    · intro h l hl
      obtain ⟨a, ha, hl⟩ := List.mem_flatMap.1 hl
      exact h a ha hl
  rw [letters, fold_of, TyNode.spell, ← letters, hhead, TyNode.slots_map, List.append_subset,
    List.flatMap_map, hslots]

end Ty

/-- The letters of a type are handed on to its slots. -/
theorem hereditary_letters (L : List Letter) : Hereditary fun a => a.letters ⊆ L := by
  intro t ht
  have ht : (Ty.of t.node).letters ⊆ L := t.of_node.symm ▸ ht
  exact (Ty.letters_of_subset_iff.1 ht).2

/-- Putting in arguments brings in no letters but theirs. -/
private theorem slot_letters_subst_subset {args : Args} {L : List Letter}
    (hargs : ∀ a ∈ args, a.letters ⊆ L) {a a' : Arg Ty} (ha : a.letters ⊆ L)
    (h : a.subst args = .ok a')
    (ih : ∀ t, a = .ty t → ∀ u, t.subst args = .ok u → u.letters ⊆ L) : a'.letters ⊆ L := by
  cases a with
  | ty t =>
    obtain ⟨u, hu, rfl⟩ := TyNode.mapM_ty_eq_ok.1 h
    exact ih t rfl u hu
  | const c =>
    obtain ⟨d, hd, rfl⟩ := TyNode.mapM_const_eq_ok.1 h
    -- a parameter brings in the letters of its slot
    cases c with
    | value k =>
      obtain rfl := Except.ok.inj hd
      exact ha
    | param i => exact hargs (.const d) (List.mem_of_getElem? (Args.constAt_eq_ok_iff.1 hd))

/-- A substitution uses no letters that were not there. -/
theorem Ty.letters_subst_subset {args : Args} {L : List Letter}
    (hargs : ∀ a ∈ args, a.letters ⊆ L) {t u : Ty} (ht : t.letters ⊆ L)
    (h : t.subst args = .ok u) : u.letters ⊆ L := by
  induction t using Ty.ind_param generalizing u with
  | param i => exact hargs (.ty u) (List.mem_of_getElem? (subst_param_eq_ok_iff.1 h))
  | layer n hn ih =>
    obtain ⟨n', rfl, hhead, hslots⟩ := (subst_of_eq_ok_iff hn).1 h
    obtain ⟨hown, hall⟩ := letters_of_subset_iff.1 ht
    -- all but a parameter keeps its own layer, so new letters can come from the slots only
    have hsame : n'.head = n.head := by
      have hlength := hslots.length_eq
      cases n <;> cases n' <;> simp_all [TyNode.SameHead, TyNode.head, TyNode.slots]
    refine letters_of_subset_iff.2 ⟨hsame ▸ hown, ?_⟩
    intro a' ha'
    obtain ⟨a, ha, hsub⟩ := forall₂_exists_left hslots ha'
    apply slot_letters_subst_subset hargs (hall a ha) hsub
    intro t he v hv
    subst he
    exact ih t ha (hall _ ha) hv

/-- Putting arguments into a slot brings in no letters but theirs. -/
theorem Arg.letters_subst_subset {args : Args} {L : List Letter}
    (hargs : ∀ a ∈ args, a.letters ⊆ L) {a a' : Arg Ty} (ha : a.letters ⊆ L)
    (h : a.subst args = .ok a') : a'.letters ⊆ L := by
  apply slot_letters_subst_subset hargs ha h
  intro t he u hu
  subst he
  exact Ty.letters_subst_subset hargs ha hu

/-! ## Depth -/

/-- A maximum is bounded where each number is. -/
theorem foldl_max_le_iff {ns : List Nat} {a b : Nat} :
    ns.foldl max a ≤ b ↔ a ≤ b ∧ ∀ n ∈ ns, n ≤ b := by
  induction ns generalizing a with
  | nil => simp
  | cons n ns ih =>
    rw [List.foldl_cons, ih, List.forall_mem_cons, Nat.max_le, and_assoc]

/-- A layer is one level deeper than the deepest slot. -/
theorem Ty.depth_of_le_iff {n : TyNode Ty} {d : Nat} :
    (of n).depth ≤ d + 1 ↔ ∀ t, Arg.ty t ∈ n.slots → t.depth ≤ d := by
  rw [depth, measure_of, Measure.ofNode, Nat.add_le_add_iff_right, foldl_max_le_iff]
  simp only [Nat.zero_le, true_and, TyNode.children, TyNode.slots_map, List.forall_mem_map]
  constructor
  · -- The children that are measured are the types among the slots.
    intro h t ht
    exact h t.measure (List.mem_filterMap.2 ⟨_, List.mem_map_of_mem ht, rfl⟩)
  · intro h m hm
    obtain ⟨a, ha, hm⟩ := List.mem_filterMap.1 hm
    obtain ⟨b, hb, rfl⟩ := List.mem_map.1 ha
    cases b with
    | ty t => exact Option.some.inj hm ▸ h t hb
    | const c => cases hm

/-! ## Finitely many layers -/

/-- There are only finitely many short lists over a finite set. -/
theorem finite_lists {α : Type} {s : Set α} (hs : s.Finite) (k : Nat) :
    {l : List α | l.length ≤ k ∧ ∀ a ∈ l, a ∈ s}.Finite := by
  -- A list that is not empty is an element in front of a shorter list.
  induction k with
  | zero =>
    apply (Set.finite_singleton []).subset
    intro l hl
    exact List.length_eq_zero_iff.1 (Nat.le_zero.1 hl.1)
  | succ k ih =>
    apply ((Set.finite_singleton []).union (hs.image2 List.cons ih)).subset
    intro l hl
    cases l with
    | nil => exact .inl rfl
    | cons a l =>
      have hlength : l.length ≤ k := Nat.le_of_succ_le_succ hl.1
      exact .inr ⟨a, hl.2 a List.mem_cons_self, l,
        ⟨hlength, fun b hb => hl.2 b (List.mem_cons_of_mem _ hb)⟩, rfl⟩

namespace TyNode

/-- The number of the item that a layer names or of the parameter that it is. -/
def number {α : Type} : TyNode α → Nat
  | nominal _ i _ => i
  | dyn i => i
  | param i => i
  | _ => 0

/-- A layer without what stands below it. -/
def shape {α : Type} : TyNode α → TyNode Unit
  | prim p => prim p
  | tuple _ => tuple []
  | array _ _ => array () (.value 0)
  | wrap w _ => wrap w ()
  | nominal k i _ => nominal k i []
  | dyn i => dyn i
  | fnPtr _ _ => fnPtr [] ()
  | param i => param i

/-- Layers are of one kind where their shapes are the same. -/
theorem sameHead_iff {α β : Type} {n : TyNode α} {n' : TyNode β} :
    n.SameHead n' ↔ n.shape = n'.shape := by
  cases n <;> cases n' <;> simp [SameHead, shape]

/-- Layers of one kind with a third are of one kind. -/
theorem SameHead.trans {α β γ : Type} {n : TyNode α} {n' : TyNode β} {n'' : TyNode γ}
    (h : n.SameHead n') (h' : n'.SameHead n'') : n.SameHead n'' :=
  sameHead_iff.2 ((sameHead_iff.1 h).trans (sameHead_iff.1 h'))

/-- A layer is its shape and its slots. -/
theorem eq_of_shape_of_slots {α : Type} {n n' : TyNode α} (hshape : n.shape = n'.shape)
    (hslots : n.slots = n'.slots) : n = n' := by
  have hinj : ∀ {ts us : List α}, ts.map Arg.ty = us.map Arg.ty → ts = us :=
    fun h => List.map_injective_iff.2 (fun _ _ h => Arg.ty.inj h) h
  -- two layers of one shape differ in their slots at most
  cases n <;> cases n' <;> simp_all [shape, slots]
  case tuple.tuple => exact hinj hslots
  case fnPtr.fnPtr =>
    exact hinj hslots.1

/-- The shapes of all layers whose number is below a bound. -/
def shapes (b : Nat) : List (TyNode Unit) :=
  Prim.all.map prim ++ [tuple [], array () (.value 0), fnPtr [] ()] ++
    [Wrapper.slice, .box, .ref .shared, .ref .exclusive, .raw .shared, .raw .exclusive].map
      (wrap · ()) ++
    (List.range (b + 1)).flatMap fun i =>
      [nominal .adt i [], nominal .fnDef i [], nominal .closure i [], dyn i, param i]

/-- A shape is among those up to its number. -/
theorem shape_mem_shapes {α : Type} {n : TyNode α} {b : Nat} (h : n.number ≤ b) :
    n.shape ∈ shapes b := by
  have hnumber : ∀ {i : Nat}, i ≤ b → i ∈ List.range (b + 1) :=
    fun hi => List.mem_range.2 (Nat.lt_succ_of_le hi)
  -- By constructor: only items and parameters have numbers, and all else is one of finitely many.
  cases n with
  | prim p => simp [shape, shapes, Prim.mem_all]
  | wrap w t =>
    cases w with
    | ref m => cases m <;> simp [shape, shapes]
    | raw m => cases m <;> simp [shape, shapes]
    | _ => simp [shape, shapes]
  | nominal k i as =>
    refine List.mem_append_right _ (List.mem_flatMap.2 ⟨i, hnumber h, ?_⟩)
    cases k <;> simp [shape]
  | dyn i => exact List.mem_append_right _ (List.mem_flatMap.2 ⟨i, hnumber h, by simp [shape]⟩)
  | param i => exact List.mem_append_right _ (List.mem_flatMap.2 ⟨i, hnumber h, by simp [shape]⟩)
  | _ => simp [shape, shapes]

/-- There are only finitely many layers over finitely many slots. -/
theorem finite_layers {α : Type} {s : Set (Arg α)} (hs : s.Finite) (b : Nat) :
    {n : TyNode α | n.number ≤ b ∧ n.slots.length ≤ b ∧ ∀ a ∈ n.slots, a ∈ s}.Finite := by
  have hinj : Function.Injective fun n : TyNode α => (n.shape, n.slots) := by
    intro n n' h
    exact eq_of_shape_of_slots (Prod.mk.inj h).1 (Prod.mk.inj h).2
  -- a layer is given by its shape and its slots, and there are finitely many of both
  refine Set.Finite.of_finite_image ?_ hinj.injOn
  apply ((shapes b).finite_toSet.prod (finite_lists hs b)).subset
  intro x hx
  obtain ⟨n, ⟨hnumber, hlength, hall⟩, rfl⟩ := hx
  exact ⟨shape_mem_shapes hnumber, hlength, hall⟩

end TyNode

/-! ## Finitely many types and instances -/

/-- A number above all numbers in an alphabet. -/
theorem exists_bound (L : List Letter) : ∃ b, ∀ l ∈ L, l.number ≤ b :=
  ⟨(L.map Letter.number).foldl max 0, fun _ hl =>
    (foldl_max_le_iff.1 (Nat.le_refl _)).2 _ (List.mem_map_of_mem hl)⟩

/-- The numbers in a layer are bounded by those in its letters; pointers to functions have one slot
    more than inputs, and arrays have two. -/
private theorem number_le_of_head {n : TyNode Ty} {L : List Letter} {b : Nat}
    (hb : ∀ l ∈ L, l.number ≤ b) (h : n.head ⊆ L) : n.number ≤ b + 2 ∧ n.slots.length ≤ b + 2 := by
  have hle : ∀ l ∈ n.head, l.number ≤ b := fun l hl => hb l (h hl)
  cases n <;> simp_all [TyNode.head, TyNode.number, TyNode.slots, Letter.number] <;> omega

/-- Slots of finitely many types and letters are finitely many. -/
private theorem finite_slots {s : Set Ty} (hs : s.Finite) (L : List Letter) :
    {a : Arg Ty | (∃ t ∈ s, a = .ty t) ∨ ∃ c : Const, c.letter ∈ L ∧ a = .const c}.Finite := by
  -- a constant is told by its letter
  have hconsts : {c : Const | c.letter ∈ L}.Finite := by
    apply (L.finite_toSet.preimage _).subset (fun c hc => hc)
    intro c _ d _ h
    cases c <;> cases d <;> simp_all [Const.letter]
  apply ((hs.image Arg.ty).union (hconsts.image Arg.const)).subset
  intro a ha
  obtain ⟨t, ht, rfl⟩ | ⟨c, hc, rfl⟩ := ha
  · exact .inl ⟨t, ht, rfl⟩
  · exact .inr ⟨c, hc, rfl⟩

/-- A slot that is written in letters is one of them. -/
private theorem mem_finite_slots {s : Set Ty} {L : List Letter} {a : Arg Ty} (ha : a.letters ⊆ L)
    (hs : ∀ t, a = .ty t → t ∈ s) :
    (∃ t ∈ s, a = .ty t) ∨ ∃ c : Const, c.letter ∈ L ∧ a = .const c := by
  cases a with
  | ty t => exact .inl ⟨t, hs t rfl, rfl⟩
  | const c => exact .inr ⟨c, ha (List.mem_singleton_self _), rfl⟩

/-- There are only finitely many types of given letters that are not too deep. -/
theorem Ty.finite_of_letters_of_depth (L : List Letter) (d : Nat) :
    {t : Ty | t.letters ⊆ L ∧ t.depth ≤ d}.Finite := by
  obtain ⟨b, hb⟩ := exists_bound L
  induction d with
  | zero =>
    apply Set.finite_empty.subset
    intro t ht
    exact absurd (Nat.le_trans t.one_le_depth ht.2) (by omega)
  | succ d ih =>
    -- the layer at the top stands over slots with less deep types
    apply ((TyNode.finite_layers (finite_slots ih L) (b + 2)).image of).subset
    intro t ht
    refine ⟨t.node, ?_, t.of_node⟩
    obtain ⟨hhead, hall⟩ := letters_of_subset_iff.1 (t.of_node.symm ▸ ht.1)
    have hdepth : (of t.node).depth ≤ d + 1 := t.of_node.symm ▸ ht.2
    obtain ⟨hnumber, hlength⟩ := number_le_of_head hb hhead
    refine ⟨hnumber, hlength, fun a ha => mem_finite_slots (hall a ha) ?_⟩
    rintro u rfl
    exact ⟨hall _ ha, depth_of_le_iff.1 hdepth u ha⟩

/-- A type among arguments is not deeper than their nesting. -/
theorem Args.levels_le_of_nesting {args : Args} {d : Nat} (h : args.nesting ≤ d) {t : Ty}
    (ht : Arg.ty t ∈ args) : t.depth ≤ d := by
  rw [nesting, foldl_max_le_iff, measures, List.map_map, List.forall_mem_map] at h
  exact h.2 _ ht

/-- Whether an instance is written with given letters: its item, the number of its arguments and
    the arguments. Drop glue is about no item and always has one argument. -/
structure Instance.WrittenIn (L : List Letter) (inst : Instance) : Prop where
  item : ∀ i, inst.item? = some i → .item i ∈ L ∧ .length inst.args.length ∈ L
  glue : inst.item? = none → inst.args.length = 1
  args : ∀ a ∈ inst.args, a.letters ⊆ L

/-- There are only finitely many instances of given letters that are not nested too deeply. -/
theorem Instance.finite_of_writtenIn (L : List Letter) (d : Nat) :
    {inst : Instance | inst.WrittenIn L ∧ inst.args.nesting ≤ d}.Finite := by
  obtain ⟨b, hb⟩ := exists_bound L
  -- What an instance is of is bounded by its item's number; its arguments are a bounded list of
  -- finitely many slots.
  have hwhat : {w : InstanceDef | ∀ i, w.item? = some i → i ≤ b}.Finite := by
    have hitems := (Set.finite_le_nat b).image InstanceDef.item
    have hstatics := (Set.finite_le_nat b).image InstanceDef.static
    have hshims := (Set.finite_le_nat b).image InstanceDef.vtableShim
    apply ((Set.finite_singleton InstanceDef.dropGlue).union
      (hitems.union (hstatics.union hshims))).subset
    intro w hw
    cases w with
    | dropGlue => exact .inl rfl
    | item i => exact .inr (.inl ⟨i, hw i rfl, rfl⟩)
    | static i => exact .inr (.inr (.inl ⟨i, hw i rfl, rfl⟩))
    | vtableShim i => exact .inr (.inr (.inr ⟨i, hw i rfl, rfl⟩))
  have hargs := finite_lists (finite_slots (Ty.finite_of_letters_of_depth L d) L) (b + 1)
  apply (hwhat.image2 Instance.mk hargs).subset
  intro inst hinst
  obtain ⟨hwritten, hdepth⟩ := hinst
  have hitem : ∀ i, inst.what.item? = some i → i ≤ b :=
    fun i hi => hb _ (hwritten.item i hi).1
  have hlength : inst.args.length ≤ b + 1 := by
    cases hi : inst.item? with
    | some i => exact Nat.le_succ_of_le (hb _ (hwritten.item i hi).2)
    | none =>
      rw [hwritten.glue hi]
      omega
  refine ⟨inst.what, hitem, inst.args, ⟨hlength, fun a ha => ?_⟩, rfl⟩
  apply mem_finite_slots (hwritten.args a ha)
  rintro t rfl
  exact ⟨hwritten.args _ ha, Args.levels_le_of_nesting hdepth ha⟩

end Monomorph
