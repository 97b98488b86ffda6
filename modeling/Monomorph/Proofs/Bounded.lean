import Monomorph.Proofs.Ending
import Monomorph.Proofs.Finite

/-!
# Finitely many instances within a depth

No rule of a scan makes letters: what the arguments of a needed instance are written with stood in
the program or in the arguments of the instance that needs it. So the letters of a program do for
all instances that are ever reached, and those within a depth limit are finitely many.
-/

namespace Monomorph

/-! ## The letters of a program -/

/-- The letters that the arguments of an item may come to have: their number and the placeholders
    for unused ones. -/
def Generics.letters (g : Generics) : List Letter :=
  .length g.count :: (List.range g.count).map .param

/-- The letters in the operations of a body. -/
def Body.letters (b : Body) : List Letter :=
  (b.calls.flatMap fun site => .item site.callee :: site.args.flatMap Arg.letters) ++
    (b.statics.map fun site => .item site.1) ++ (b.drops.flatMap fun site => site.1.letters) ++
      b.unsizes.flatMap fun site => site.1.letters

/-- The types of the fields, where an item has fields. -/
def ItemKind.fields : ItemKind → List Ty
  | adt fields => fields
  | _ => []

/-- The letters in an item. -/
def Item.letters (it : Item) : List Letter :=
  it.generics.letters ++ it.kind.fields.flatMap Ty.letters ++
    (it.body.map Body.letters).getD []

namespace Program

/-- The letters in a program. An item that is not declared reads as the default one. -/
def letters (p : Program) : List Letter :=
  p.itemIds.map .item ++ (p.dropMethods.map fun e => .item e.2) ++
    (default :: p.items.toList).flatMap Item.letters

variable {p : Program} {unused : UnusedSets}

/-- The items of a program are among its letters. -/
theorem item_mem_letters {i : ItemId} (h : i < p.items.size) : .item i ∈ p.letters :=
  List.mem_append_left _ (List.mem_append_left _ (List.mem_map_of_mem (List.mem_range.2 h)))

/-- Whatever is read as an item is one of the program or the default one. -/
theorem item_mem (i : ItemId) : p.item i ∈ default :: p.items.toList := by
  unfold item
  cases hi : p.items[i]? with
  | none => exact List.mem_cons_self
  | some it => exact List.mem_cons_of_mem _ (Array.mem_toList_iff.2 (Array.mem_of_getElem? hi))

/-- What an item mentions is among the letters of the program. -/
theorem letters_item_subset (i : ItemId) : (p.item i).letters ⊆ p.letters :=
  fun _ hl => List.mem_append_right _ (List.mem_flatMap.2 ⟨_, item_mem i, hl⟩)

/-- The parameters of an item are among the letters of the program. -/
theorem letters_generics_subset (i : ItemId) : (p.item i).generics.letters ⊆ p.letters :=
  fun _ hl => letters_item_subset i (List.mem_append_left _ (List.mem_append_left _ hl))

/-- What a field mentions is among the letters of the program. -/
theorem letters_field_subset {i : ItemId} {fields : List Ty} (h : (p.item i).kind = .adt fields)
    {f : Ty} (hf : f ∈ fields) : f.letters ⊆ p.letters := by
  intro l hl
  apply letters_item_subset i
  simp only [Item.letters, h, ItemKind.fields, List.mem_append, List.mem_flatMap]
  exact .inl (.inr ⟨f, hf, hl⟩)

/-- A declared drop method is among the letters of the program. -/
theorem dropMethod_mem_letters {i m : ItemId} (h : p.dropMethod? i = some m) :
    .item m ∈ p.letters := by
  have hmem : (i, m) ∈ p.dropMethods := by
    unfold dropMethod? at h
    -- by induction on the table, in which the first entry for an item counts
    generalize p.dropMethods = es at h
    induction es with
    | nil => exact nomatch h
    | cons e es ih =>
      obtain ⟨j, k⟩ := e
      rw [List.lookup_cons] at h
      split at h
      · next he =>
        obtain rfl := Option.some.inj h
        exact eq_of_beq he ▸ List.mem_cons_self
      · exact List.mem_cons_of_mem _ (ih h)
  exact List.mem_append_left _ (List.mem_append_right _ (List.mem_map.2 ⟨_, hmem, rfl⟩))

section Body

variable {i : ItemId} {b : Body}

/-- What a body mentions is among the letters of the program. -/
private theorem letters_body_subset (hb : (p.item i).body = some b) : b.letters ⊆ p.letters := by
  intro l hl
  apply letters_item_subset i
  simp only [Item.letters, hb, Option.map_some, Option.getD_some]
  exact List.mem_append_right _ hl

/-- What a body calls is among the letters of the program. -/
theorem callee_mem_letters (hb : (p.item i).body = some b) {site : CallSite}
    (hs : site ∈ b.calls) : .item site.callee ∈ p.letters := by
  apply letters_body_subset hb
  simp only [Body.letters, List.mem_append, List.mem_flatMap]
  exact .inl (.inl (.inl ⟨site, hs, List.mem_cons_self⟩))

/-- What a call passes mentions only letters of the program. -/
theorem letters_callArg_subset (hb : (p.item i).body = some b) {site : CallSite}
    (hs : site ∈ b.calls) {a : Arg Ty} (ha : a ∈ site.args) : a.letters ⊆ p.letters := by
  intro l hl
  apply letters_body_subset hb
  simp only [Body.letters, List.mem_append, List.mem_flatMap]
  exact .inl (.inl (.inl ⟨site, hs, List.mem_cons_of_mem _ (List.mem_flatMap.2 ⟨a, ha, hl⟩)⟩))

/-- A static that a body reads is among the letters of the program. -/
theorem static_mem_letters (hb : (p.item i).body = some b) {site : ItemId × Span}
    (hs : site ∈ b.statics) : .item site.1 ∈ p.letters := by
  apply letters_body_subset hb
  simp only [Body.letters, List.mem_append]
  exact .inl (.inl (.inr (List.mem_map.2 ⟨_, hs, rfl⟩)))

/-- What a body drops mentions only letters of the program. -/
theorem letters_dropped_subset (hb : (p.item i).body = some b) {t : Ty} {span : Span}
    (hs : (t, span) ∈ b.drops) : t.letters ⊆ p.letters := by
  intro l hl
  apply letters_body_subset hb
  simp only [Body.letters, List.mem_append]
  exact .inl (.inr (List.mem_flatMap.2 ⟨_, hs, hl⟩))

/-- What a body coerces mentions only letters of the program. -/
theorem letters_source_subset (hb : (p.item i).body = some b) {s t : Ty} {span : Span}
    (hs : (s, t, span) ∈ b.unsizes) : s.letters ⊆ p.letters := by
  intro l hl
  apply letters_body_subset hb
  simp only [Body.letters, List.mem_append]
  exact .inr (List.mem_flatMap.2 ⟨_, hs, hl⟩)

end Body

/-! ## Scans make no letters -/

/-- A placeholder mentions its own position. -/
private theorem letters_placeholder (k : ParamKind) (i : Nat) :
    (k.placeholder i).letters = [.param i] := by
  cases k with
  | type => rfl
  | const => rfl

/-- Normal form brings in no letters but positions of the item's own parameters. -/
private theorem letters_normalize_subset (i : ItemId) {args : Args} {s : ParamSet}
    (hargs : ∀ a ∈ args, a.letters ⊆ p.letters) :
    ∀ a ∈ (p.item i).generics.normalize s args, a.letters ⊆ p.letters := by
  intro a ha
  obtain ⟨k, hk⟩ := List.mem_iff_getElem?.1 ha
  rw [Generics.getElem?_normalize] at hk
  obtain ⟨b, hb, rfl⟩ := Option.map_eq_some_iff.1 hk
  -- A slot is either kept or replaced by the placeholder of its position.
  obtain h | ⟨param, hparam, -, h⟩ := (p.item i).generics.normalizeSlot_cases s k b
  · rw [h]
    exact hargs b (List.mem_of_getElem? hb)
  · have hlt : k < (p.item i).generics.count := (List.getElem?_eq_some_iff.1 hparam).1
    rw [h, letters_placeholder]
    intro l hl
    obtain rfl := List.mem_singleton.1 hl
    exact letters_generics_subset i
      (List.mem_cons_of_mem _ (List.mem_map_of_mem (List.mem_range.2 hlt)))

/-- An instance with accepted arguments is written as its item and its arguments are. -/
private theorem writtenIn_made {what : InstanceDef} {i : ItemId} {args : Args} {s : ParamSet}
    (hwhat : what.item? = some i) (hi : .item i ∈ p.letters)
    (hlength : args.length = (p.item i).generics.count)
    (hargs : ∀ a ∈ args, a.letters ⊆ p.letters) :
    Instance.WrittenIn p.letters ⟨what, (p.item i).generics.normalize s args⟩ where
  item j hj := by
    obtain rfl := Option.some.inj (hwhat.symm.trans hj)
    refine ⟨hi, ?_⟩
    show .length ((p.item i).generics.normalize s args).length ∈ p.letters
    rw [Generics.length_normalize, hlength]
    exact letters_generics_subset i List.mem_cons_self
  glue h := nomatch hwhat.symm.trans h
  args := letters_normalize_subset i hargs

/-- Glue is written in the letters of its type. -/
private theorem writtenIn_glue {t : Ty} (ht : t.letters ⊆ p.letters) :
    (Instance.glue t).WrittenIn p.letters where
  item _ hi := nomatch hi
  glue _ := rfl
  args := List.forall_mem_singleton.2 ht

/-- The methods in a vtable are items of the program. -/
private theorem lt_size_of_mem_vtableMethods {trait method : ItemId}
    (h : method ∈ p.vtableMethods trait) : method < p.items.size := by
  have hmem := mem_traitMethods.1 (List.mem_filter.1 h).1
  exact lt_size_of_kind_ne (by simp [hmem.2])

/-- An instance of an item is told by the item. -/
theorem item?_instanceDef (i : ItemId) : (p.instanceDef i).item? = some i := by
  unfold instanceDef
  split <;> rfl

/-- What an item of the program resolves to is one again. -/
private theorem target_mem_letters {i target : ItemId} {args targetArgs : Args}
    (hi : .item i ∈ p.letters) (h : p.resolve i args = .item target targetArgs) :
    .item target ∈ p.letters := by
  obtain rfl | hlt := resolve_target h
  · exact hi
  · exact item_mem_letters hlt

/-- Whatever an instance requires is written with the letters of the program if the instance is: an
    instance, or a type whose glue is asked for. -/
private theorem writtenIn_of_requires {inst : Instance} (hinst : inst.WrittenIn p.letters)
    {need : Need} (h : p.Requires unused inst need) :
    (∀ n, need = .use n → n.inst.WrittenIn p.letters) ∧
      ∀ t kind span, need = .glue t kind span → t.letters ⊆ p.letters := by
  have hereditary := hereditary_letters p.letters
  have hglue : ∀ t, inst.glueTy? = some t → t.letters ⊆ p.letters := by
    intro t ht
    unfold Instance.glueTy? at ht
    split at ht
    · obtain ⟨a, ha, hta⟩ := Option.bind_eq_some_iff.1 ht
      cases a with
      | ty u =>
        obtain rfl := Option.some.inj hta
        exact hinst.args _ (List.mem_of_mem_head? ha)
      | const c => exact nomatch hta
    · exact nomatch ht
  have hfield : ∀ (i : ItemId) (fields : List Ty) (args : Args) (f u : Ty),
      (p.item i).kind = .adt fields → f ∈ fields → (∀ a ∈ args, a.letters ⊆ p.letters) →
      f.subst args = .ok u → u.letters ⊆ p.letters :=
    fun i fields args f u hkind hf hargs hsub =>
      Ty.letters_subst_subset hargs (letters_field_subset hkind hf) hsub
  -- new arguments are made by substitution, by matching or out of fields, which make no letters
  cases h with
  | call hwhat hb hsite hargs hres hlength =>
    refine ⟨fun n hn => ?_, fun t kind span hn => nomatch hn⟩
    obtain rfl := Need.use.inj hn
    have hitem := target_mem_letters (callee_mem_letters hb hsite) hres
    refine writtenIn_made (item?_instanceDef _) hitem hlength (resolve_args hereditary hres ?_)
    intro a ha
    obtain ⟨a', ha', hsub⟩ := forall₂_exists_left (Args.subst_eq_ok_iff.1 hargs) ha
    exact Arg.letters_subst_subset hinst.args (letters_callArg_subset hb hsite ha') hsub
  | static hwhat hb hsite hlength =>
    refine ⟨fun n hn => ?_, fun t kind span hn => nomatch hn⟩
    obtain rfl := Need.use.inj hn
    exact writtenIn_made (item?_instanceDef _) (static_mem_letters hb hsite) hlength
      fun _ ha => nomatch ha
  | drop hwhat hb hsite hsub =>
    refine ⟨(fun n hn => nomatch hn), fun t kind span hn => ?_⟩
    obtain ⟨rfl, -, -⟩ := Need.glue.inj hn
    exact Ty.letters_subst_subset hinst.args (letters_dropped_subset hb hsite) hsub
  | object hwhat hb hsite hs ht hparts =>
    refine ⟨(fun n hn => nomatch hn), fun t kind span hn => ?_⟩
    obtain ⟨rfl, -, -⟩ := Need.glue.inj hn
    exact unsizeParts_source hereditary hparts
      (Ty.letters_subst_subset hinst.args (letters_source_subset hb hsite) hs)
  | entry hwhat hb hsite hs ht hparts hmethod hres hlength =>
    refine ⟨fun n hn => ?_, fun t kind span hn => nomatch hn⟩
    obtain rfl := Need.use.inj hn
    have hconcrete := unsizeParts_source hereditary hparts
      (Ty.letters_subst_subset hinst.args (letters_source_subset hb hsite) hs)
    have hitem := item_mem_letters (lt_size_of_mem_vtableMethods hmethod)
    exact writtenIn_made rfl (target_mem_letters hitem hres) hlength
      (resolve_args hereditary hres (List.forall_mem_singleton.2 hconcrete))
  | dropMethod ht hparts hmethod hlength =>
    refine ⟨fun n hn => ?_, fun t kind span hn => nomatch hn⟩
    obtain rfl := Need.use.inj hn
    obtain ⟨⟨i, hi⟩, hargs⟩ :=
      (glueCandidates_all hereditary hfield hparts (hglue _ ht)).2 _ _ hmethod
    exact writtenIn_made (item?_instanceDef _) (dropMethod_mem_letters hi) hlength hargs
  | part ht hparts hc =>
    refine ⟨(fun n hn => nomatch hn), fun t kind span hn => ?_⟩
    obtain ⟨rfl, -, -⟩ := Need.glue.inj hn
    exact (glueCandidates_all hereditary hfield hparts (hglue _ ht)).1 _ hc
  | shim hwhat hlength =>
    refine ⟨fun n hn => ?_, fun t kind span hn => nomatch hn⟩
    obtain rfl := Need.use.inj hn
    have hitem := (hinst.item _ (by rw [Instance.item?, hwhat]; rfl)).1
    exact writtenIn_made (item?_instanceDef _) hitem hlength hinst.args

variable {M : DropMemo → Prop} {config : Config} {roots : List Instance}

/-- A neighbor is written with the letters of the program if the instance is. -/
theorem writtenIn_of_neighborFrom {a b : Instance} (ha : a.WrittenIn p.letters)
    (h : p.NeighborFrom unused M a b) : b.WrittenIn p.letters := by
  obtain ⟨-, ns, hscan, n, hn, rfl⟩ := h
  obtain hreq | ⟨t, hreq, hglue⟩ := hscan.requires hn
  · exact (writtenIn_of_requires ha hreq).1 n rfl
  · rw [hglue]
    exact writtenIn_glue ((writtenIn_of_requires ha hreq).2 t _ _ rfl)

/-- Every instance that is reached is written with the letters of the program. -/
theorem writtenIn_of_reachedFrom (hroots : ∀ root ∈ roots, root.WrittenIn p.letters)
    {inst : Instance} (h : p.ReachedFrom unused M config roots inst) :
    inst.WrittenIn p.letters := by
  obtain ⟨root, hroot, hpath⟩ := h
  induction hpath with
  | refl => exact hroots root hroot
  | tail _ hstep ih => exact writtenIn_of_neighborFrom ih hstep.2

/-- The instances that are reached and not nested deeper than a limit are finitely many. -/
theorem finite_reachedFrom (hroots : ∀ root ∈ roots, root.WrittenIn p.letters) (d : Nat) :
    {inst | p.ReachedFrom unused M config roots inst ∧ inst.args.nesting ≤ d}.Finite := by
  apply (Instance.finite_of_writtenIn p.letters d).subset
  intro inst hinst
  exact ⟨writtenIn_of_reachedFrom hroots hinst.1, hinst.2⟩

/-- An item without parameters, such as the roots are, is written with the letters of the
    program. -/
theorem writtenIn_root {i : ItemId} (hi : i < p.items.size)
    (hempty : (p.item i).generics.isEmpty = true) {s : ParamSet} :
    (p.instanceWith s i []).WrittenIn p.letters :=
  writtenIn_made (item?_instanceDef i) (item_mem_letters hi)
    (congrArg List.length (List.isEmpty_iff.1 hempty)).symm fun _ ha => nomatch ha

end Program

end Monomorph
