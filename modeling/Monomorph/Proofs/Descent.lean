import Monomorph.Proofs.Composition
import Monomorph.Ty.TableSubst

/-!
# Replacing parameters handle by handle

`TyTable.subst` takes the type that a handle names, replaces its parameters and enters the image.
`TyTable.substDown` never sees a type: it goes down from handle to handle and enters the layers of
the image one by one. Both give one handle, and leave one table behind
(`TyTable.Valid.substDown_eq`).

`TyTable.Makes` says this of an action at any moment of the way down, when the table has grown since
the start. It holds of an action on a whole layer once it holds of what is done with the slots.
-/

namespace Monomorph

/-! ## Entering a layer -/

/-- Enters what stands below a layer, one slot after the other. -/
def TyNode.enter (n : TyNode Ty) (table : TyTable) : TyNode Handle × TyTable :=
  n.mapM (m := StateM TyTable) Ty.enter pure table

/-- Enters what a slot holds. -/
def Arg.enter (a : Arg Ty) (table : TyTable) : Arg Handle × TyTable :=
  a.mapM (m := StateM TyTable) Ty.enter pure table

/-- Enters the members of a list one after the other. -/
def enterEach {α β : Type} (enter : β → TyTable → α × TyTable) (bs : List β) (table : TyTable) :
    List α × TyTable :=
  bs.mapM (m := StateM TyTable) enter table

/-- The first one is entered before the others. -/
theorem enterEach_cons {α β : Type} (enter : β → TyTable → α × TyTable) (b : β) (bs : List β)
    (table : TyTable) : enterEach enter (b :: bs) table =
      ((enter b table).1 :: (enterEach enter bs (enter b table).2).1,
        (enterEach enter bs (enter b table).2).2) := by
  rw [enterEach, List.mapM_cons]
  rfl

/-- A list of types is entered type by type. -/
theorem Tys.enter_ofList (ts : List Ty) (table : TyTable) :
    (Tys.ofList ts).enter table = enterEach Ty.enter ts table := by
  induction ts generalizing table with
  | nil => rfl
  | cons t ts ih => rw [enterEach_cons, ← ih]; rfl

/-- A list of arguments is entered slot by slot. -/
theorem Slots.enter_ofList (as : Args) (table : TyTable) :
    (Slots.ofList as).enter table = enterEach Arg.enter as table := by
  induction as generalizing table with
  | nil => rfl
  | cons a as ih =>
    rw [enterEach_cons, ← ih]
    cases a <;> rfl

namespace TyTable

variable {base table table' : TyTable} {α β γ δ ρ σ : Type}

/-- What stands below a layer is entered as the types in any slots are. -/
theorem enters_slots (n : TyNode Ty) (table : TyTable) : (n.enter table).1.shape = n.shape ∧
    EntersArgs table n.slots (n.enter table).1.slots (n.enter table).2 := by
  -- each layer is entered slot by slot, and a list as the list of its slots
  cases n with
  | prim p => exact ⟨rfl, .nil table⟩
  | tuple ts =>
    have henters := (Tys.ofList ts).enters table
    rw [Tys.enter_ofList, Tys.toList_ofList] at henters
    exact ⟨rfl, henters⟩
  | array t c => exact ⟨rfl, (t.enters table).slot.append (.const _ c)⟩
  | wrap w t => exact ⟨rfl, (t.enters table).slot⟩
  | nominal k i as =>
    have henters := (Slots.ofList as).enters table
    rw [Slots.enter_ofList, Slots.toList_ofList] at henters
    exact ⟨rfl, henters⟩
  | dyn i => exact ⟨rfl, .nil table⟩
  | fnPtr ins out =>
    have henters := ((Tys.ofList ins).enters table).append (out.enters _).slot
    rw [Tys.enter_ofList, Tys.toList_ofList] at henters
    exact ⟨rfl, henters⟩
  | param i => exact ⟨rfl, .nil table⟩

/-- In a valid table a layer is entered after what stands below it, whether or not the whole has
    been seen. -/
theorem Valid.enter_of (hvalid : table.Valid) (n : TyNode Ty) :
    (Ty.of n).enter table = (n.enter table).2.intern (n.enter table).1 := by
  obtain ⟨hshape, hslots⟩ := enters_slots n table
  have hlayer := hslots.layer rfl hshape
  -- A type that the table knows is not entered again, and entering its layer would give the same
  -- handle.
  rw [Ty.enter.eq_def]
  split
  · next h hfound =>
    obtain ⟨hh, htable⟩ := hlayer.same hvalid h (names_of_handle? hfound)
    exact (Prod.ext hh htable).symm
  · cases n with
    | tuple ts => simp only [Ty.of, Tys.enter_ofList]; rfl
    | nominal k i as => simp only [Ty.of, Slots.enter_ofList]; rfl
    | fnPtr ins out => simp only [Ty.of, Tys.enter_ofList]; rfl
    | _ => rfl

/-! ## Actions -/

/-- An action after another one is done on the table that the first one leaves, unless that failed
    or ran out of fuel. -/
theorem bind_apply (x : Action α) (k : α → Action β) (table : TyTable) :
    (x >>= k) table = match x table with
      | none => none
      | some (.error e, table') => some (.error e, table')
      | some (.ok a, table') => k a table' := by
  -- an action that fails keeps the table that it has made up to then
  show (StateT.bind x (ExceptT.bindCont k)) table = _
  rw [StateT.bind]
  cases hx : x table with
  | none => rfl
  | some r =>
    obtain ⟨⟨e⟩ | ⟨a⟩, table'⟩ := r <;> rfl

/-- How a run compares with an image: it fails with the image, or gives what the image gets where
    it is entered, and leaves the same table. -/
inductive Yields (enter : β → TyTable → α × TyTable) (table table' : TyTable) :
    Except SubstError α → Except SubstError β → Prop
  | failed (e : SubstError) : Yields enter table table' (.error e) (.error e)
  | entered {a : α} {b : β} (h : enter b table = (a, table')) :
    Yields enter table table' (.ok a) (.ok b)

/-- What an action comes to on every table that is later than a given one: it ends, and adds to the
    table. If the table is valid and no shard gets full, it stays valid and the image is entered. -/
def Makes (base : TyTable) (x : Action α) (image : Except SubstError β)
    (enter : β → TyTable → α × TyTable) : Prop :=
  ∀ table, base.Extends table → ∃ r table', x table = some (r, table') ∧ table.Extends table' ∧
    (table.Valid → table'.Roomy → table'.Valid ∧ Yields enter table table' r image)

namespace Makes

variable {x : Action α} {y : Action γ} {image : Except SubstError β} {image' : Except SubstError δ}
  {enter : β → TyTable → α × TyTable} {enter' : δ → TyTable → γ × TyTable}
  {enter'' : σ → TyTable → ρ × TyTable}

/-- Nothing is entered for what is known. -/
theorem pure {a : α} {b : β}
    (h : ∀ table, base.Extends table → table.Valid → enter b table = (a, table)) :
    Makes base (pure a) (.ok b) enter := fun table hext =>
  ⟨.ok a, table, rfl, .refl table, fun hvalid _ => ⟨hvalid, .entered (h table hext hvalid)⟩⟩

/-- A failure leaves the table as it is. -/
theorem throw (e : SubstError) : Makes base (throw e : Action α) (.error e) enter := fun table _ =>
  ⟨.error e, table, rfl, .refl table, fun hvalid _ => ⟨hvalid, .failed e⟩⟩

/-- An action may look at the table first. -/
theorem read {k : TyTable → Action α}
    (h : ∀ table, base.Extends table → Makes base (k table) image enter) :
    Makes base (get >>= k) image enter := fun table hext => h table hext table hext

/-- What an action gives may be changed, along with its image. -/
theorem map (f : α → ρ) (g : β → σ) (hx : Makes base x image enter)
    (h : ∀ b table, enter'' (g b) table = (f (enter b table).1, (enter b table).2)) :
    Makes base (f <$> x) (g <$> image) enter'' := by
  intro table hext
  obtain ⟨r, table', hrun, hext', hmakes⟩ := hx table hext
  -- The result is mapped where there is one; the table goes its own way.
  refine ⟨f <$> r, table', ?_, hext', fun hvalid hroom => ?_⟩
  · rw [map_eq_pure_bind, bind_apply, hrun]
    cases r <;> rfl
  · obtain ⟨hvalid', hyields⟩ := hmakes hvalid hroom
    refine ⟨hvalid', ?_⟩
    cases hyields with
    | failed e => exact .failed e
    | entered henter => exact .entered (by rw [h, henter])

/-- One action after the other: their images are entered in turn. -/
theorem both (f : α → γ → ρ) (g : β → δ → σ) (hx : Makes base x image enter)
    (hy : Makes base y image' enter') (h : ∀ b d table, enter'' (g b d) table =
      (f (enter b table).1 (enter' d (enter b table).2).1, (enter' d (enter b table).2).2)) :
    Makes base (do return f (← x) (← y)) (do return g (← image) (← image')) enter'' := by
  intro table hext
  obtain ⟨r, table₁, hrun, hext₁, hmakes⟩ := hx table hext
  rw [bind_apply, hrun]
  cases r with
  | error e =>
    refine ⟨.error e, table₁, rfl, hext₁, fun hvalid hroom => ?_⟩
    obtain ⟨hvalid₁, hyields⟩ := hmakes hvalid hroom
    cases hyields
    exact ⟨hvalid₁, .failed e⟩
  | ok a =>
    obtain ⟨r', table₂, hrun', hext₂, hmakes'⟩ := hy table₁ (hext.trans hext₁)
    refine ⟨f a <$> r', table₂, ?_, hext₁.trans hext₂, fun hvalid hroom => ?_⟩
    · simp only [bind_apply, hrun']
      cases r' <;> rfl
    · obtain ⟨hvalid₁, hyields⟩ := hmakes hvalid (hext₂.roomy hroom)
      obtain ⟨hvalid₂, hyields'⟩ := hmakes' hvalid₁ hroom
      refine ⟨hvalid₂, ?_⟩
      -- the second action starts from the table in which the first image has been entered
      cases hyields with
      | entered henter =>
        cases hyields' with
        | failed e => exact .failed e
        | entered henter' => exact .entered (by rw [h, henter, henter'])

/-- The members of a list are dealt with one after the other. -/
theorem each {κ : Type} {f : κ → Action α} {F : κ → Except SubstError β} {ks : List κ}
    (h : ∀ k ∈ ks, Makes base (f k) (F k) enter) :
    Makes base (ks.mapM f) (ks.mapM F) (enterEach enter) := by
  induction ks with
  | nil => exact .pure fun table _ _ => rfl
  -- the first element, and then the others in the table that it has left
  | cons k ks ih =>
    rw [List.mapM_cons, List.mapM_cons]
    exact (h k List.mem_cons_self).both List.cons List.cons
      (ih fun l hl => h l (List.mem_cons_of_mem _ hl)) (enterEach_cons enter)

/-- Once what stands below a layer has been dealt with, the layer is entered. -/
theorem layer {x : Action (TyNode Handle)} {image : Except SubstError (TyNode Ty)}
    (hx : Makes base x image TyNode.enter) :
    Makes base (do modifyGet (intern (← x))) (Ty.of <$> image) Ty.enter := by
  intro table hext
  obtain ⟨r, table₁, hrun, hext₁, hmakes⟩ := hx table hext
  rw [bind_apply, hrun]
  -- The layer is interned only where its parts were made; that call may still fill up the table.
  cases r with
  | error e =>
    refine ⟨.error e, table₁, rfl, hext₁, fun hvalid hroom => ?_⟩
    obtain ⟨hvalid₁, hyields⟩ := hmakes hvalid hroom
    cases hyields
    exact ⟨hvalid₁, .failed e⟩
  | ok node =>
    have hgrows := table₁.extends_intern node
    refine ⟨_, (table₁.intern node).2, rfl, hext₁.trans hgrows, fun hvalid hroom => ?_⟩
    obtain ⟨-, hyields⟩ := hmakes hvalid (hgrows.roomy hroom)
    cases hyields with
    | @entered _ n henter =>
      have hlayer := hvalid.enter_of n
      rw [henter] at hlayer
      have hvalid' := ((Ty.of n).enters table).valid hvalid
      rw [hlayer] at hvalid'
      exact ⟨hvalid' hroom, .entered hlayer⟩

end Makes

/-! ## The way down -/

/-- Dealing with all the slots of a layer. -/
theorem makes_mapM {f : Handle → Action Handle} {g : Const → Action Const}
    {F : Ty → Except SubstError Ty} {G : Const → Except SubstError Const} {node : TyNode Handle}
    (hty : ∀ c, .ty c ∈ node.slots → Makes base (f c) (F (base.ty c)) Ty.enter)
    (hconst : ∀ c, Makes base (g c) (G c) Prod.mk) :
    Makes base (node.mapM f g) ((node.map base.ty).mapM F G) TyNode.enter := by
  have htys : ∀ hs : List Handle, (∀ c ∈ hs, Makes base (f c) (F (base.ty c)) Ty.enter) →
      Makes base (hs.mapM f) ((hs.map base.ty).mapM F) (enterEach Ty.enter) := fun hs hhs => by
    rw [List.mapM_map]
    exact .each hhs
  -- The parts of a layer are made from left to right, as they are entered.
  cases node with
  | prim p => exact .pure fun _ _ _ => rfl
  | tuple hs =>
    exact (htys hs fun c hc => hty c (List.mem_map_of_mem hc)).map TyNode.tuple TyNode.tuple fun _ _ => rfl
  | array h n =>
    exact (hty h List.mem_cons_self).both TyNode.array TyNode.array (hconst n) fun _ _ _ => rfl
  | wrap w h => exact (hty h List.mem_cons_self).map (TyNode.wrap w) (TyNode.wrap w) fun _ _ => rfl
  | nominal k i as =>
    refine Makes.map (TyNode.nominal k i) (TyNode.nominal k i) ?_ fun _ _ => rfl
    rw [List.mapM_map]
    refine .each fun a ha => ?_
    cases a with
    | ty c => exact (hty c ha).map Arg.ty Arg.ty fun _ _ => rfl
    | const c => exact (hconst c).map Arg.const Arg.const fun _ _ => rfl
  | dyn i => exact .pure fun _ _ _ => rfl
  | fnPtr ins out =>
    refine (htys ins fun c hc => hty c ?_).both TyNode.fnPtr TyNode.fnPtr (hty out ?_) fun _ _ _ => rfl
    · exact List.mem_append_left _ (List.mem_map_of_mem hc)
    · exact List.mem_append_right _ List.mem_cons_self
  | param i => exact .pure fun _ _ _ => rfl

/-- A constant is replaced as if the types were at hand. -/
theorem makes_substConst (args : List (Arg Handle)) (c : Const) :
    Makes base (substConst args c) (c.subst (args.map (Arg.map base.ty))) Prod.mk := by
  cases c with
  | value n => exact .pure fun _ _ _ => rfl
  -- The slot is looked up among the arguments, and only a constant is what it asks for.
  | param i =>
    rw [substConst, slotAt, Const.subst, Args.constAt, List.getElem?_map, List.length_map]
    cases args[i]? with
    | none => exact .throw _
    | some a =>
      cases a with
      | ty h => exact .throw _
      | const c => exact .pure fun _ _ _ => rfl

/-- A parameter is replaced by the handle in its slot, which names the type there. -/
theorem makes_param {args : List (Arg Handle)} (hargs : ∀ c, .ty c ∈ args → base.Knows c)
    (i : Nat) : Makes base (do match ← slotAt args i with
      | .ty h => return h
      | .const _ => throw (.wrongKind i)) (Args.tyAt (args.map (Arg.map base.ty)) i) Ty.enter := by
  rw [slotAt, Args.tyAt, List.getElem?_map, List.length_map]
  -- The same for a type, whose handle the table knows already.
  cases hslot : args[i]? with
  | none => exact .throw _
  | some a =>
    cases a with
    | const c => exact .throw _
    | ty h =>
      refine .pure fun table hext hvalid => ?_
      exact hvalid.add_eq (hext.names ⟨hargs h (List.mem_of_getElem? hslot), rfl⟩)

/-- With enough fuel the way down ends, and it makes the image of the type. -/
theorem Valid.makes_substDown (hvalid : base.Valid) {args : List (Arg Handle)}
    (hargs : ∀ c, .ty c ∈ args → base.Knows c) (fuel : Nat) :
    ∀ h, base.Knows h → (base.ty h).depth ≤ fuel → Makes base (substDown args fuel h)
      ((base.ty h).subst (args.map (Arg.map base.ty))) Ty.enter := by
  -- The fuel lasts for the depth, which is one less for each slot.
  induction fuel with
  | zero =>
    intro h _ hdepth
    exact absurd (Nat.le_trans (base.ty h).one_le_depth hdepth) (Nat.not_succ_le_zero 0)
  | succ fuel ih =>
    intro h hh hdepth
    refine .read fun table hext => ?_
    have hty : table.ty h = base.ty h := (hext.names ⟨hh, rfl⟩).ty_eq
    rw [measure_eq, hty]
    -- Without parameters the handle is left, and the type with it.
    split
    · next hparams =>
      obtain ⟨e, he⟩ := hh
      have hnode : table.nodeAt? h = some e.node :=
        nodeAt?_eq_some_iff.2 ⟨e, hext.keeps h e he, rfl⟩
      have hof : base.ty h = .of (e.node.map base.ty) :=
        (ty_eq_of_entryAt? he).trans (hvalid.ty_eq h e he)
      have hdepths : ∀ c, .ty c ∈ e.node.slots → (base.ty c).depth ≤ fuel := fun c hc => by
        rw [hof] at hdepth
        refine Ty.depth_of_le_iff.1 hdepth _ ?_
        rw [TyNode.slots_map]
        exact List.mem_map_of_mem hc
      rw [hnode, hof]
      by_cases hparam : ∃ i, e.node = .param i
      · obtain ⟨i, hi⟩ := hparam
        rw [hi]
        exact makes_param hargs i
      · have hn : ∀ i, e.node.map base.ty ≠ .param i := by
          intro i hi
          cases hk : e.node with
          | param j => exact hparam ⟨j, hk⟩
          | _ => rw [hk] at hi; cases hi
        rw [Ty.subst_of _ hn]
        have hlayer : Makes base _ _ Ty.enter := .layer <| makes_mapM
          (fun c hc => ih c (hvalid.child h e he c hc) (hdepths c hc)) (makes_substConst args)
        cases hk : e.node with
        | param i => exact absurd ⟨i, hk⟩ hparam
        | _ => rw [hk] at hlayer; exact hlayer
    · next hparams =>
      rw [Ty.subst_of_hasParams_eq_false (Bool.eq_false_iff.2 hparams)]
      exact .pure fun table hext hvalid => hvalid.add_eq (hext.names ⟨hh, rfl⟩)

/-- Dealing with the slots of an argument list. -/
theorem Valid.makes_substArgsDown (hvalid : base.Valid) {args inner : List (Arg Handle)}
    (hargs : ∀ c, .ty c ∈ args → base.Knows c) (hinner : ∀ c, .ty c ∈ inner → base.Knows c)
    {fuel : Nat} (hfuel : ∀ c, .ty c ∈ inner → (base.ty c).depth ≤ fuel) :
    Makes base (substArgsDown args fuel inner)
      (Args.subst (args.map (Arg.map base.ty)) (inner.map (Arg.map base.ty)))
      (enterEach Arg.enter) := by
  rw [substArgsDown, Args.subst, List.mapM_map]
  refine .each fun a ha => ?_
  -- a type among the arguments is made on the way down, and a constant needs no table
  cases a with
  | ty c =>
    exact (hvalid.makes_substDown hargs fuel c (hinner c ha) (hfuel c ha)).map Arg.ty Arg.ty
      fun _ _ => rfl
  | const c => exact (makes_substConst args c).map Arg.const Arg.const fun _ _ => rfl

/-- What is made from a valid table is what the image gets where it is entered there. -/
theorem Makes.exists_eq {x : Action α} {image : Except SubstError β}
    {enter : β → TyTable → α × TyTable} (hx : Makes base x image enter) (hvalid : base.Valid) :
    ∃ r table', x base = some (r, table') ∧ base.Extends table' ∧
      (table'.Roomy → (fun a => (a, table')) <$> r = (fun b => enter b base) <$> image) := by
  obtain ⟨r, table', hrun, hext, hmakes⟩ := hx base (.refl base)
  refine ⟨r, table', hrun, hext, fun hroom => ?_⟩
  cases (hmakes hvalid hroom).2 with
  | failed e => rfl
  | entered henter => exact congrArg Except.ok henter.symm

/-- In a valid table the way down from a handle ends, with fuel for as many layers as the type has.
    It adds to the table and, as long as no shard is full, fails as replacing the parameters of the
    type does, or ends with the same handle and the same table as entering the image. -/
theorem Valid.substDown_eq (hvalid : base.Valid) {args : List (Arg Handle)} {h : Handle}
    (hargs : ∀ c, .ty c ∈ args → base.Knows c) (hh : base.Knows h) {fuel : Nat}
    (hfuel : (base.ty h).depth ≤ fuel) :
    ∃ r table', substDown args fuel h base = some (r, table') ∧ base.Extends table' ∧
      (table'.Roomy → (fun u => (u, table')) <$> r = base.subst args h) :=
  (hvalid.makes_substDown hargs fuel h hh hfuel).exists_eq hvalid

/-- The same holds of the slots of an argument list. -/
theorem Valid.substArgsDown_eq (hvalid : base.Valid) {args inner : List (Arg Handle)}
    (hargs : ∀ c, .ty c ∈ args → base.Knows c) (hinner : ∀ c, .ty c ∈ inner → base.Knows c)
    {fuel : Nat} (hfuel : ∀ c, .ty c ∈ inner → (base.ty c).depth ≤ fuel) :
    ∃ r table', substArgsDown args fuel inner base = some (r, table') ∧ base.Extends table' ∧
      (table'.Roomy → (fun us => (us, table')) <$> r = base.substArgs args inner) := by
  obtain ⟨r, table', hrun, hext, heq⟩ :=
    (hvalid.makes_substArgsDown hargs hinner hfuel).exists_eq hvalid
  refine ⟨r, table', hrun, hext, fun hroom => ?_⟩
  rw [heq hroom, substArgs]
  simp only [Slots.enter_ofList]

end TyTable

end Monomorph
