import Monomorph.Program.Item
import Monomorph.Proofs.Entering
import Monomorph.Proofs.Substitution

/-!
# Substitutions one after the other

Argument lists act on types. Putting in `a` and then `b` comes to the same as putting in what `a`
becomes under `b` (`Ty.subst_subst`), and the list that puts every parameter for itself changes
nothing (`Ty.subst_identityArgs`). In a table the two ways do not only lead to equal types but to
one handle (`TyTable.SubstActs`), since a type that has a handle keeps it. Between the calls a table
may grow by other calls: what has been given once (`TyTable.Gave`) goes on naming the image.

`TyTable.subst` is said by way of types: the type of a handle, its image, the handle of the image.
`TyTable.substDown` finds the same handle without the types (`Monomorph.Proofs.Descent`).
-/

namespace Monomorph

/-! ## On types -/

/-- Two relations between lists, one after the other. -/
theorem forall₂_comp_mem {α β γ : Type} {R : α → β → Prop} {S : β → γ → Prop} {T : α → γ → Prop}
    {xs : List α} {ys : List β} {zs : List γ} (hR : List.Forall₂ R xs ys)
    (hS : List.Forall₂ S ys zs) (hcomp : ∀ x ∈ xs, ∀ y z, R x y → S y z → T x z) :
    List.Forall₂ T xs zs := by
  -- Both relations go element by element, and so does their composition.
  induction hR generalizing zs with
  | nil =>
    cases hS
    exact .nil
  | cons hxy _ ih =>
    cases hS with
    | cons hyz hS =>
      exact .cons (hcomp _ List.mem_cons_self _ _ hxy hyz)
        (ih hS fun x hx => hcomp x (List.mem_cons_of_mem _ hx))

namespace Ty

variable {a b a₁ : Args}

/-- Putting arguments into a slot twice is putting in composed ones. -/
private theorem slot_subst_subst {x y : Arg Ty} (ha : b.subst a = .ok a₁) (hx : x.subst a = .ok y)
    (ih : ∀ t, x = .ty t → ∀ u, t.subst a = .ok u →
      ∃ v, u.subst b = .ok v ∧ t.subst a₁ = .ok v) :
    ∃ z, y.subst b = .ok z ∧ x.subst a₁ = .ok z := by
  cases x with
  | ty t =>
    obtain ⟨u, hu, rfl⟩ := TyNode.mapM_ty_eq_ok.1 hx
    obtain ⟨v, hv, hv'⟩ := ih t rfl u hu
    exact ⟨.ty v, TyNode.mapM_ty_eq_ok.2 ⟨v, hv, rfl⟩, TyNode.mapM_ty_eq_ok.2 ⟨v, hv', rfl⟩⟩
  | const c =>
    obtain ⟨d, hd, rfl⟩ := TyNode.mapM_const_eq_ok.1 hx
    cases c with
    | value n =>
      obtain rfl := Except.ok.inj hd
      exact ⟨_, rfl, rfl⟩
    | param i =>
      -- the slot for the parameter is replaced in `a₁` as it is here
      obtain ⟨z, hz, hdz⟩ := forall₂_exists_getElem? (Args.subst_eq_ok_iff.1 ha)
        (Args.constAt_eq_ok_iff.1 hd)
      obtain ⟨d', hd', rfl⟩ := TyNode.mapM_const_eq_ok.1 hdz
      exact ⟨_, hdz, TyNode.mapM_const_eq_ok.2 ⟨d', Args.constAt_eq_ok_iff.2 hz, rfl⟩⟩

/-- Putting in one list after the other comes to putting in what the first becomes under the
    second. -/
theorem subst_subst {t t₁ : Ty} (ht : t.subst a = .ok t₁) (ha : b.subst a = .ok a₁) :
    ∃ u, t₁.subst b = .ok u ∧ t.subst a₁ = .ok u := by
  induction t using Ty.ind_param generalizing t₁ with
  | param i =>
    obtain ⟨z, hz, htz⟩ := forall₂_exists_getElem? (Args.subst_eq_ok_iff.1 ha)
      (subst_param_eq_ok_iff.1 ht)
    obtain ⟨u, hu, rfl⟩ := TyNode.mapM_ty_eq_ok.1 htz
    exact ⟨u, hu, subst_param_eq_ok_iff.2 hz⟩
  | layer n hn ih =>
    obtain ⟨n₁, rfl, hhead, hslots⟩ := (subst_of_eq_ok_iff hn).1 ht
    have hn₁ := hhead.ne_param hn
    have slot : ∀ x ∈ n.slots, ∀ y, x.subst a = .ok y →
        ∃ z, y.subst b = .ok z ∧ x.subst a₁ = .ok z := fun x hx y hy =>
      slot_subst_subst ha hy fun t ht u hu => ih t (ht ▸ hx) hu
    -- the image has an image, since all of its slots do
    have himage : ∀ y ∈ n₁.slots, ∃ z, y.subst b = .ok z := by
      intro y hy
      obtain ⟨x, hx, hxy⟩ := forall₂_exists_left hslots hy
      obtain ⟨z, hz, -⟩ := slot x hx y hxy
      exact ⟨z, hz⟩
    obtain ⟨n₂, hn₂⟩ := TyNode.exists_mapM_eq_ok_iff.2 himage
    obtain ⟨hhead₂, hslots₂⟩ := TyNode.mapM_eq_ok_iff.1 hn₂
    refine ⟨.of n₂, (subst_of_eq_ok_iff hn₁).2 ⟨n₂, rfl, hhead₂, hslots₂⟩,
      (subst_of_eq_ok_iff hn).2 ⟨n₂, rfl, hhead.trans hhead₂, ?_⟩⟩
    refine forall₂_comp_mem hslots hslots₂ fun x hx y z hxy hyz => ?_
    obtain ⟨z', hz', hxz'⟩ := slot x hx y hxy
    obtain rfl := Except.ok.inj (hz'.symm.trans hyz)
    exact hxz'

end Ty

/-- Whether generics declare a parameter of the right sort for a mention. -/
def Generics.Declares (g : Generics) (m : Mention) : Prop :=
  ∃ param, g.params[m.2]? = some param ∧ param.kind = m.1

namespace Generics

variable {g : Generics}

instance (m : Mention) : Decidable (g.Declares m) :=
  decidable_of_iff (g.params[m.2]?.map Param.kind = some m.1) Option.map_eq_some_iff

/-- A declared parameter stands at its own position. -/
theorem getElem?_identityArgs_of_declares {m : Mention} (hm : g.Declares m) :
    g.identityArgs[m.2]? = some (m.1.placeholder m.2) := by
  obtain ⟨param, hparam, hkind⟩ := hm
  rw [identityArgs, List.getElem?_mapIdx, hparam, Option.map_some, hkind]

end Generics

namespace Ty

variable {g : Generics}

/-- A slot with declared parameters is left as it is. -/
private theorem slot_subst_identityArgs {a : Arg Ty} (ha : ∀ m ∈ a.mentioned, g.Declares m)
    (ih : ∀ t, a = .ty t → t.subst g.identityArgs = .ok t) : a.subst g.identityArgs = .ok a := by
  cases a with
  | ty t => exact TyNode.mapM_ty_eq_ok.2 ⟨t, ih t rfl, rfl⟩
  | const c =>
    refine TyNode.mapM_const_eq_ok.2 ⟨c, ?_, rfl⟩
    cases c with
    | value n => rfl
    | param i =>
      have hi := ha (.const, i) (List.mem_singleton.2 rfl)
      exact Args.constAt_eq_ok_iff.2 (Generics.getElem?_identityArgs_of_declares hi)

/-- Putting every parameter for itself changes nothing. -/
theorem subst_identityArgs {t : Ty} (ht : ∀ m ∈ t.mentions, g.Declares m) :
    t.subst g.identityArgs = .ok t := by
  induction t using Ty.ind_param with
  | param i =>
    have hi := ht (.type, i) (List.mem_singleton.2 rfl)
    exact subst_param_eq_ok_iff.2 (Generics.getElem?_identityArgs_of_declares hi)
  -- The layer is rebuilt from its own slots.
  | layer n hn ih =>
    refine (subst_of_eq_ok_iff hn).2 ⟨n, rfl, TyNode.SameHead.refl n, ?_⟩
    refine List.forall₂_same.2 fun a ha => ?_
    have hmentions : ∀ m ∈ a.mentioned, g.Declares m := fun m hm =>
      ht m ((mem_mentions_of_ne_param hn).2 ⟨a, ha, hm⟩)
    refine slot_subst_identityArgs hmentions ?_
    rintro t rfl
    exact ih t ha hmentions

end Ty

/-! ## On handles -/

namespace TyTable

/-- Replaces the parameters of the type that a handle names, and enters the image. -/
def subst (table : TyTable) (args : List (Arg Handle)) (h : Handle) :
    Except SubstError (Handle × TyTable) :=
  (fun u => table.add u) <$> (table.ty h).subst (args.map (Arg.map table.ty))

/-- Replaces the parameters of the types in some slots, and enters the images. -/
def substArgs (table : TyTable) (args inner : List (Arg Handle)) :
    Except SubstError (List (Arg Handle) × TyTable) :=
  (fun as => (Slots.ofList as).enter table) <$>
    Args.subst (args.map (Arg.map table.ty)) (inner.map (Arg.map table.ty))

variable {table table' : TyTable} {args inner : List (Arg Handle)} {h : Handle}

/-- Handles are substituted where the types are, and the result is entered. -/
theorem subst_eq_ok_iff {as : Args} {t : Ty} (hargs : table.NamesArgs args as)
    (ht : table.Names h t) {r : Handle × TyTable} :
    table.subst args h = .ok r ↔ ∃ u, t.subst as = .ok u ∧ table.add u = r := by
  rw [subst, ht.ty_eq, hargs.map_eq, map_eq_ok_iff]

/-- Handles of arguments are substituted where the arguments are. -/
theorem substArgs_eq_ok_iff {as bs : Args} (hargs : table.NamesArgs args as)
    (hinner : table.NamesArgs inner bs) {r : List (Arg Handle) × TyTable} :
    table.substArgs args inner = .ok r ↔
      ∃ cs, as.subst bs = .ok cs ∧ (Slots.ofList cs).enter table = r := by
  rw [substArgs, hargs.map_eq, hinner.map_eq, map_eq_ok_iff]

/-- A call enters the image. -/
theorem enters_of_subst {as : Args} {t : Ty} {r : Handle} (hargs : table.NamesArgs args as)
    (ht : table.Names h t) (hsubst : table.subst args h = .ok (r, table')) :
    ∃ u, t.subst as = .ok u ∧ Enters table u r table' := by
  obtain ⟨u, hu, hadd⟩ := (subst_eq_ok_iff hargs ht).1 hsubst
  have henters := u.enters table
  rw [show u.enter table = (r, table') from hadd] at henters
  exact ⟨u, hu, henters⟩

/-- A call enters the images one after the other. -/
theorem enters_of_substArgs {as bs : Args} {rs : List (Arg Handle)}
    (hargs : table.NamesArgs args as) (hinner : table.NamesArgs inner bs)
    (hsubst : table.substArgs args inner = .ok (rs, table')) :
    ∃ cs, as.subst bs = .ok cs ∧ EntersArgs table cs rs table' := by
  obtain ⟨cs, hcs, hadd⟩ := (substArgs_eq_ok_iff hargs hinner).1 hsubst
  have henters := (Slots.ofList cs).enters table
  rw [hadd, Slots.toList_ofList] at henters
  exact ⟨cs, hcs, henters⟩

/-- Whether a call has given a handle for the image of a type. It was made of a valid table that
    knew all handles, at any time before there was the table at hand. -/
def Gave (table : TyTable) (args : List (Arg Handle)) (h r : Handle) : Prop :=
  ∃ before after : TyTable, before.Valid ∧ (∀ c, .ty c ∈ args → before.Knows c) ∧ before.Knows h ∧
    before.subst args h = .ok (r, after) ∧ after.Extends table

/-- Whether a call has given handles for the images of the types in some slots. -/
def GaveArgs (table : TyTable) (args inner rs : List (Arg Handle)) : Prop :=
  ∃ before after : TyTable, before.Valid ∧ (∀ c, .ty c ∈ args → before.Knows c) ∧
    (∀ c, .ty c ∈ inner → before.Knows c) ∧ before.substArgs args inner = .ok (rs, after) ∧
    after.Extends table

/-- A handle that a call has given goes on naming the image. -/
theorem Gave.names {r : Handle} (hgave : table.Gave args h r) (hroom : table.Roomy) :
    ∃ as t u, table.NamesArgs args as ∧ table.Names h t ∧ t.subst as = .ok u ∧
      table.Names r u := by
  obtain ⟨before, after, hvalid, hargs, hh, hsubst, hext⟩ := hgave
  have hargs : before.NamesArgs args _ := ⟨hargs, rfl⟩
  have hh : before.Names h _ := ⟨hh, rfl⟩
  -- what was put in was known by then, and goes on being named
  obtain ⟨u, hu, henters⟩ := enters_of_subst hargs hh hsubst
  have hfrom := henters.ext.trans hext
  exact ⟨_, _, u, hfrom.namesArgs hargs, hfrom.names hh, hu,
    hext.names (henters.names hvalid (hext.roomy hroom))⟩

/-- Handles that a call has given go on naming the images. -/
theorem GaveArgs.names {rs : List (Arg Handle)} (hgave : table.GaveArgs args inner rs)
    (hroom : table.Roomy) :
    ∃ as bs cs, table.NamesArgs args as ∧ table.NamesArgs inner bs ∧ as.subst bs = .ok cs ∧
      table.NamesArgs rs cs := by
  obtain ⟨before, after, hvalid, hargs, hinner, hsubst, hext⟩ := hgave
  have hargs : before.NamesArgs args _ := ⟨hargs, rfl⟩
  have hinner : before.NamesArgs inner _ := ⟨hinner, rfl⟩
  obtain ⟨cs, hcs, henters⟩ := enters_of_substArgs hargs hinner hsubst
  have hfrom := henters.ext.trans hext
  exact ⟨_, _, cs, hfrom.namesArgs hargs, hfrom.namesArgs hinner, hcs,
    hext.namesArgs (henters.names hvalid (hext.roomy hroom))⟩

/-- The laws of an action, on handles. -/
structure SubstActs (table : TyTable) : Prop where
  /-- The two ways to put in two lists end with one handle, whichever is gone first and whatever
      else is entered before, in between and later. -/
  subst_subst : ∀ {t t₁ : Handle} {a b a₁ : List (Arg Handle)},
    table.Gave a t t₁ → table.GaveArgs b a a₁ → table.Roomy →
      ∃ u table', table.subst b t₁ = .ok (u, table') ∧ table.subst a₁ t = .ok (u, table') ∧
        ∀ later : TyTable, table'.Extends later → later.Valid → later.Roomy →
          later.subst b t₁ = .ok (u, later) ∧ later.subst a₁ t = .ok (u, later)
  subst_identity : ∀ {g : Generics} {t : Handle} {ids : List (Arg Handle)}, table.Knows t →
    table.NamesArgs ids g.identityArgs → (∀ m ∈ (table.ty t).mentions, g.Declares m) →
      table.subst ids t = .ok (t, table)

/-- Substitution acts on the handles of a valid table. -/
theorem Valid.substActs (hvalid : table.Valid) : table.SubstActs where
  subst_subst {t t₁ a b a₁} hfirst hsecond hroom := by
    obtain ⟨as, s, s₁, ha, ht, hs₁, ht₁⟩ := hfirst.names hroom
    obtain ⟨bs, as', as₁, hb, ha', has₁, ha₁⟩ := hsecond.names hroom
    obtain rfl : as = as' := ha.map_eq.symm.trans ha'.map_eq
    obtain ⟨v, hv, hv'⟩ := Ty.subst_subst hs₁ has₁
    refine ⟨_, _, (subst_eq_ok_iff hb ht₁).2 ⟨v, hv, rfl⟩, (subst_eq_ok_iff ha₁ ht).2 ⟨v, hv', rfl⟩,
      fun later hlater hvalid' hroom' => ?_⟩
    -- the image has a handle then, so that it is not entered again
    have henters := v.enters table
    have hsame := hvalid'.add_eq (hlater.names (henters.names hvalid (hlater.roomy hroom')))
    have hext := henters.ext.trans hlater
    exact ⟨(subst_eq_ok_iff (hext.namesArgs hb) (hext.names ht₁)).2 ⟨v, hv, hsame⟩,
      (subst_eq_ok_iff (hext.namesArgs ha₁) (hext.names ht)).2 ⟨v, hv', hsame⟩⟩
  subst_identity {g t ids} ht hids hdeclares := by
    have ht : table.Names t (table.ty t) := ⟨ht, rfl⟩
    exact (subst_eq_ok_iff hids ht).2 ⟨_, Ty.subst_identityArgs hdeclares, hvalid.add_eq ht⟩

end TyTable

/-- Substitution is an action of argument lists, on types and on the handles of a table. -/
theorem subst_acts :
    (∀ {t t₁ : Ty} {a b a₁ : Args}, t.subst a = .ok t₁ → b.subst a = .ok a₁ →
      ∃ u, t₁.subst b = .ok u ∧ t.subst a₁ = .ok u) ∧
    (∀ {g : Generics} {t : Ty}, (∀ m ∈ t.mentions, g.Declares m) →
      t.subst g.identityArgs = .ok t) ∧
    ∀ {table : TyTable}, table.Valid → table.SubstActs :=
  ⟨Ty.subst_subst, Ty.subst_identityArgs, TyTable.Valid.substActs⟩

/-- A pair of a box and an array. -/
def boxAndArray : Ty := .tupleOf [.box (.param 0), .array (.param 1) (.param 2)]

/-- Arguments for it that have parameters themselves. -/
def outerArgs : Args := [.ty (.param 0), .ty (.box (.param 0)), .const (.param 1)]

/-- Arguments for those. -/
def innerArgs : Args := [.ty .unit, .const (.value 3)]

/-- Generics that declare what the pair mentions. -/
def pairGenerics : Generics := { params := [⟨"T", .type⟩, ⟨"U", .type⟩, ⟨"N", .const⟩] }

/-- A table that has seen the pair: its parts have the handles 19 to 22, and the pair has 23. -/
def pairTable : TyTable := ((TyTable.startWith fun _ => 0).add boxAndArray).2

/-- The handles of the arguments there. -/
def outerHandles : List (Arg Handle) := [.ty 19, .ty 20, .const (.param 1)]

/-- The handles of the arguments for those. -/
def innerHandles : List (Arg Handle) := [.ty 18, .const (.value 3)]

/-- Both laws for a boxed array, as types and as handles. -/
theorem subst_acts_boxAndArray :
    (∃ t₁ a₁ u, boxAndArray.subst outerArgs = .ok t₁ ∧ innerArgs.subst outerArgs = .ok a₁ ∧
      t₁.subst innerArgs = .ok u ∧ boxAndArray.subst a₁ = .ok u) ∧
    boxAndArray.subst pairGenerics.identityArgs = .ok boxAndArray ∧
    ∃ t₁ table₁ a₁ table₂ u table₃,
      pairTable.subst outerHandles 23 = .ok (t₁, table₁) ∧
      table₁.substArgs innerHandles outerHandles = .ok (a₁, table₂) ∧
      table₂.subst innerHandles t₁ = .ok (u, table₃) ∧
      table₂.subst a₁ 23 = .ok (u, table₃) ∧ table₃.subst a₁ 23 = .ok (u, table₃) := by
  refine ⟨?types, subst_acts.2.1 (by decide +kernel), ?handles⟩
  case types =>
    have h₁ : boxAndArray.subst outerArgs = .ok _ := rfl
    have h₂ : innerArgs.subst outerArgs = .ok _ := rfl
    obtain ⟨u, hu, hu'⟩ := subst_acts.1 h₁ h₂
    exact ⟨_, _, u, h₁, h₂, hu, hu'⟩
  case handles =>
    -- The table of the pair grows by the first two substitutions before the third.
    have hvalid : pairTable.Valid :=
      (boxAndArray.enters _).valid (TyTable.valid_startWith _) (by decide +kernel)
    have hknows : ∀ h ∈ [18, 19, 20, 23], pairTable.Knows h := by decide +kernel
    have hpair : pairTable.Names 23 _ := ⟨hknows 23 (by decide), rfl⟩
    have houter : pairTable.NamesArgs outerHandles _ := ⟨by simp [outerHandles, hknows], rfl⟩
    have hinner : pairTable.NamesArgs innerHandles _ := ⟨by simp [innerHandles, hknows], rfl⟩
    have h₁ : pairTable.subst outerHandles 23 = .ok (_, _) := rfl
    obtain ⟨_, -, henters₁⟩ := TyTable.enters_of_subst houter hpair h₁
    have hvalid₁ := henters₁.valid hvalid (by decide +kernel)
    have houter₁ := henters₁.ext.namesArgs houter
    have hinner₁ := henters₁.ext.namesArgs hinner
    obtain ⟨_, -, henters₂⟩ := TyTable.enters_of_substArgs hinner₁ houter₁ rfl
    have hvalid₂ := henters₂.valid hvalid₁ (by decide +kernel)
    obtain ⟨u, table₃, h₃, h₃', hlater⟩ := (subst_acts.2.2 hvalid₂).subst_subst
      ⟨_, _, hvalid, houter.knows, hpair.knows, h₁, henters₂.ext⟩
      ⟨_, _, hvalid₁, hinner₁.knows, houter₁.knows, rfl, .refl _⟩ (by decide +kernel)
    have ht₁ := henters₂.ext.names (henters₁.names hvalid (by decide +kernel))
    have hroom₃ : table₃.Roomy := by
      obtain rfl := congrArg Prod.snd (Except.ok.inj h₃)
      decide +kernel
    obtain ⟨_, -, henters₃⟩ :=
      TyTable.enters_of_subst (henters₂.ext.namesArgs hinner₁) ht₁ h₃
    exact ⟨_, _, _, _, u, table₃, h₁, rfl, h₃, h₃',
      (hlater table₃ (.refl _) (henters₃.valid hvalid₂ hroom₃) hroom₃).2⟩

end Monomorph
