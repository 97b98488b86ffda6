import Monomorph.Proofs.Neighbors

/-!
# No destructor is lost

Where a value is dropped, the drop methods of all that it owns have to be run. Glue is looked for
level by level: glue that would run nothing is left out, and what the rest leads to is found when
its own glue is looked at. Types that own each other through boxes make this go round in circles.

A type that owns one with a drop method is never taken for harmless (`Program.Owns.harmless`), so
the glue for it is collected along the whole way there, and the glue at the end calls the method
(`Program.exists_destructor`).
-/

namespace Monomorph

namespace Program

open Relation

/-! ## Ownership -/

/-- The types whose values are owned directly by a value of a type. A trait object in a box is
    dropped through its vtable. -/
inductive Owns (p : Program) : Ty → Ty → Prop
  | elem {ts : Tys} {u : Ty} : u ∈ ts.toList → Owns p (.tuple ts) u
  | item {u : Ty} {n : Const} : n ≠ .value 0 → Owns p (.array u n) u
  | slice {u : Ty} : Owns p (.wrap .slice u) u
  | pointee {u : Ty} : (∀ i, u ≠ .dyn i) → Owns p (.wrap .box u) u
  | field {i : ItemId} {args : Slots} {fields : List Ty} {f u : Ty} :
    (p.item i).kind = .adt fields → f ∈ fields → f.subst args.toList = .ok u →
    Owns p (.nominal .adt i args) u

variable {p : Program} {t u : Ty}

/-- A type with a destructor of its own is always dropped. -/
theorem dropShape_adt_of_dropMethod {i : ItemId} {args : Slots} {method : ItemId}
    (h : p.dropMethod? i = some method) : p.dropShape (.nominal .adt i args) = .always := by
  simp [dropShape, Ty.node, h]

/-- A harmless value owns nothing but harmless ones. -/
theorem Owns.harmless (h : p.Owns t u) (ht : p.Drops t false) : p.Drops u false := by
  cases h with
  | elem hu => exact ht.part rfl (List.mem_map.2 ⟨u, hu, rfl⟩) rfl
  | item hn => exact ht.part (HasParts.array hn).dropShape List.mem_cons_self rfl
  | slice => exact ht.part rfl List.mem_cons_self rfl
  | pointee _ =>
    -- a box is freed at least
    exact absurd ht (not_drops_false_of_always rfl)
  | @field i args fields f u hkind hf hu =>
    cases hmethod : p.dropMethod? i with
    | some method =>
      exact absurd ht (not_drops_false_of_always (dropShape_adt_of_dropMethod hmethod))
    | none =>
      have hshape := (@HasParts.fields p i args fields hmethod hkind).dropShape
      exact ht.part hshape (List.mem_map.2 ⟨f, hf, rfl⟩) hu

/-- What a value owns is among the types that its glue is made of. -/
theorem Owns.mem_children (h : p.Owns t u) {parts : DropParts}
    (hparts : p.glueCandidates t = .ok parts) : u ∈ parts.children := by
  -- each form of ownership is one branch of the glue's own table
  cases h with
  | elem hu =>
    obtain rfl := Except.ok.inj hparts
    exact hu
  | item _ =>
    obtain rfl := Except.ok.inj hparts
    exact List.mem_cons_self
  | slice =>
    obtain rfl := Except.ok.inj hparts
    exact List.mem_cons_self
  | pointee hne =>
    have hbox : p.glueCandidates (.wrap .box u) = .ok { children := [u] } := by
      cases u with
      | dyn i => exact absurd rfl (hne i)
      | _ => rfl
    obtain rfl := Except.ok.inj (hbox.symm.trans hparts)
    exact List.mem_cons_self
  | field hkind hf hu =>
    simp only [glueCandidates, Ty.node, hkind, bind_eq_ok_iff] at hparts
    obtain ⟨children, hchildren, hparts⟩ := hparts
    obtain rfl := Except.ok.inj hparts
    obtain ⟨v, hv, hfv⟩ := forall₂_exists_right (mapM_eq_ok_iff.1 hchildren) hf
    obtain rfl := Except.ok.inj (hu.symm.trans hfv)
    exact hv

/-- A trait object owns nothing that the program can name. -/
theorem Owns.ne_dyn (h : p.Owns t u) (i : ItemId) : t ≠ .dyn i := by
  rintro rfl
  cases h

/-- The glue for a type with a drop method begins with the method. -/
theorem method_of_glueCandidates {i : ItemId} {args : Slots} {method : ItemId} {parts : DropParts}
    (hmethod : p.dropMethod? i = some method)
    (hparts : p.glueCandidates (.nominal .adt i args) = .ok parts) :
    parts.method = some (method, args.toList) := by
  simp only [glueCandidates, Ty.node] at hparts
  -- whatever the fields are
  split at hparts
  all_goals
    obtain ⟨children, -, hparts⟩ := bind_eq_ok_iff.1 hparts
    obtain rfl := Except.ok.inj hparts
    simp [hmethod]

/-! ## The way to a destructor -/

section Collected

variable {config : Config} {a : Analyzer} {fuel : Nat} {r : CollectResult} {c : Collection}
  {inst : Instance}

/-- Glue that is asked for leads on to what the value owns. -/
theorem uses_glue_of_owned (hacyclic : p.ByValueAcyclic) (h : p.collect config a fuel = some r)
    (hc : r.outcome = .ok c) (hinst : c.contains inst = true)
    (hgen : (p.info inst).isGenerated = true) {needs : List Need}
    (hneeds : (p.needs (a.unused p) inst).Finds needs) {kind : UseKind} {span : Span}
    (hneed : .glue t kind span ∈ needs) (howned : ReflTransGen p.Owns t u)
    (hu : p.Drops u true) (hne : ∀ i, u ≠ .dyn i) : c.Uses inst (.glue t) kind := by
  obtain ⟨i, hdyn⟩ | hfalse | ⟨-, huses⟩ :=
    glue_of_collect hacyclic h hc hinst hgen hneeds hneed
  · -- a trait object owns nothing
    obtain rfl | ⟨v, howns, -⟩ := howned.cases_head
    · exact absurd hdyn (hne i)
    · exact absurd hdyn (howns.ne_dyn i)
  · -- whatever is owned by a harmless value is harmless
    have hharmless : p.Drops u false := by
      clear hneed hu hne
      induction howned with
      | refl => exact hfalse
      | tail _ howns ih => exact howns.harmless ih
    exact absurd (hharmless.inj hu) Bool.false_ne_true
  · exact huses

/-- Glue asks for that of all its parts and calls the drop method. -/
theorem finds_glue {needs : List Need} (hneeds : (p.needs (a.unused p) (.glue t)).Finds needs) :
    ∃ parts, p.glueCandidates t = .ok parts ∧
      (∀ u ∈ parts.children, .glue u .drop .dummy ∈ needs) ∧
      ∀ method args, parts.method = some (method, args) → ∃ target,
        p.instantiate (a.unused p) method args = .ok target ∧
          .use ⟨target, .call, .dummy⟩ ∈ needs := by
  have hglue : (p.glueNeeds (a.unused p) (.glue t) t).Finds needs := hneeds
  -- glue without a method needs its children only; with one, the method comes first
  obtain ⟨parts, hparts, ⟨hnone, rfl⟩ | ⟨method, args, target, hmethod, htarget, rfl⟩⟩ :=
    finds_glueNeeds.1 hglue
  · refine ⟨parts, hparts, fun u hu => List.mem_map.2 ⟨u, hu, rfl⟩, fun method args h => ?_⟩
    exact absurd (hnone.symm.trans h).symm (Option.some_ne_none _)
  · refine ⟨parts, hparts, fun u hu => ?_, fun method' args' h => ?_⟩
    · exact List.mem_cons_of_mem _ (List.mem_map.2 ⟨u, hu, rfl⟩)
    · obtain ⟨rfl, rfl⟩ := Prod.mk.inj (Option.some.inj (hmethod.symm.trans h))
      exact ⟨target, htarget, List.mem_cons_self⟩

/-- From collected glue the glue for everything owned is reached. -/
theorem exists_glue_path (hacyclic : p.ByValueAcyclic) (h : p.collect config a fuel = some r)
    (hc : r.outcome = .ok c) (howned : ReflTransGen p.Owns t u) (hu : p.Drops u true)
    (hne : ∀ i, u ≠ .dyn i) (ht : c.contains (.glue t) = true) :
    ReflTransGen (fun x y => c.Uses x y .drop) (.glue t) (.glue u) ∧
      c.contains (.glue u) = true := by
  induction howned using ReflTransGen.head_induction_on with
  | refl => exact ⟨.refl, ht⟩
  | head howns hrest ih =>
    -- the glue for the type asks for that of what is owned next, and the way goes on from there
    obtain ⟨needs, hneeds, -⟩ := exists_finds_of_collect h hc ht rfl
    obtain ⟨parts, hparts, hchildren, -⟩ := finds_glue hneeds
    have huses := uses_glue_of_owned hacyclic h hc ht rfl hneeds
      (hchildren _ (howns.mem_children hparts)) hrest hu hne
    obtain ⟨hpath, hcontains⟩ := ih huses.contains
    exact ⟨.head huses hpath, hcontains⟩

/-- Where a collected body drops a value, the drop method of everything it owns is collected and
    reached through glue. -/
theorem exists_destructor (hacyclic : p.ByValueAcyclic) (h : p.collect config a fuel = some r)
    (hc : r.outcome = .ok c) {b : Body} (hbody : c.Generates p inst b) {s : Ty} {span : Span}
    (hdrop : (s, span) ∈ b.drops) : ∃ t, s.subst inst.args = .ok t ∧
      ∀ i args method, ReflTransGen p.Owns t (.nominal .adt i args) →
        p.dropMethod? i = some method →
        ∃ target, p.instantiate (a.unused p) method args.toList = .ok target ∧
          c.contains target = true ∧
          TransGen (fun x y => c.Uses x y .drop) inst (.glue (.nominal .adt i args)) ∧
          c.Uses (.glue (.nominal .adt i args)) target .call := by
  obtain ⟨i, needs, hfinds, hneeds, -⟩ := exists_bodyFinds_of_collect h hc hbody
  obtain ⟨ms, hms, hsub⟩ := exists_finds_drop hfinds hdrop
  obtain ⟨t, ht, rfl⟩ := finds_dropNeeds.1 hms
  refine ⟨t, ht, fun i args method howned hmethod => ?_⟩
  have hu : p.Drops (.nominal .adt i args) true := .always (dropShape_adt_of_dropMethod hmethod)
  have hne : ∀ j, Ty.nominal .adt i args ≠ .dyn j := fun j => nofun
  have hfirst := uses_glue_of_owned hacyclic h hc hbody.contains hbody.generated hneeds
    (hsub List.mem_cons_self) howned hu hne
  obtain ⟨hpath, hlast⟩ := exists_glue_path hacyclic h hc howned hu hne hfirst.contains
  -- the glue at the end calls the method
  obtain ⟨needs, hneeds, huses⟩ := exists_finds_of_collect h hc hlast rfl
  obtain ⟨parts, hparts, -, hcalls⟩ := finds_glue hneeds
  obtain ⟨target, htarget, hcall⟩ :=
    hcalls method args.toList (method_of_glueCandidates hmethod hparts)
  exact ⟨target, htarget, (huses _ hcall).contains, .head' hfirst hpath, huses _ hcall⟩

end Collected

/-- In the gallery the pair with a wall owns a frame, inside the wall that is behind a pointer. -/
theorem exists_destructor_gallery : ∃ r c t target,
    gallery.collect {} { enabled := true } 40 = some r ∧ r.outcome = .ok c ∧
      (Ty.tuple (.ofList [.prim .u8, .wrap .box (.param 0)])).subst [.ty (.adt 6 [])] = .ok t ∧
      ReflTransGen gallery.Owns t (.adt 5 []) ∧
      gallery.instantiate (Analyzer.unused { enabled := true } gallery) 9 [] = .ok target ∧
        c.contains target = true ∧
        TransGen (fun x y => c.Uses x y .drop) ⟨.item 1, [.ty (.adt 6 [])]⟩ (.glue (.adt 5 [])) ∧
        c.Uses (.glue (.adt 5 [])) target .call := by
  obtain ⟨r, c, hr, hc, hcontains⟩ := exists_collection_gallery
  -- the pair owns the box, the box owns the wall, and the wall owns what has the destructor
  have hbody : c.Generates gallery ⟨.item 1, [.ty (.adt 6 [])]⟩ (gallery.item 1).body.get! :=
    ⟨hcontains _ (List.mem_cons_of_mem _ List.mem_cons_self), rfl, rfl⟩
  obtain ⟨t, ht, hdestroys⟩ :=
    exists_destructor acyclic_gallery hr hc hbody List.mem_cons_self
  have hsubst : (Ty.tuple (.ofList [.prim .u8, .wrap .box (.param 0)])).subst
      [.ty (.adt 6 [])] = .ok (.tuple (.ofList [.prim .u8, .wrap .box (.adt 6 [])])) := by
    rfl
  obtain rfl := Except.ok.inj (hsubst.symm.trans ht)
  have hpair : gallery.Owns (.tuple (.ofList [.prim .u8, .wrap .box (.adt 6 [])]))
      (.wrap .box (.adt 6 [])) := .elem (List.mem_cons_of_mem _ List.mem_cons_self)
  have hbox : gallery.Owns (.wrap .box (.adt 6 [])) (.adt 6 []) := .pointee fun i => nofun
  have hwall : gallery.Owns (.adt 6 []) (.adt 5 []) :=
    .field rfl (List.mem_cons_of_mem _ List.mem_cons_self) rfl
  have howned := ((ReflTransGen.single hpair).tail hbox).tail hwall
  obtain ⟨target, htarget, hnode, hpath, hcall⟩ := hdestroys 5 .nil 9 howned rfl
  exact ⟨r, c, _, target, hr, hc, hsubst, howned, htarget, hnode, hpath, hcall⟩

end Program

end Monomorph
