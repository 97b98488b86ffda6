import Monomorph.Proofs.Neighbors
import Monomorph.Proofs.Normalize

/-!
# Dispatch through vtables is complete

A call through a vtable needs no instance, so a missing entry would not be noticed where the call
is. Entries are collected where the object is created: by the body that turns a pointer to a
concrete type into a pointer to a trait object, however deep below other pointers the type lies
(`Coerces`). Whatever the vtable has to point to is then used by that body, and each entry calls
nothing but the instance of its method (`Program.hasVtable_of_collect`).
-/

namespace Monomorph

/-! ## Coercions -/

/-- Whether a coercion makes a trait object of a concrete type, below as many pointers on both
    sides. -/
inductive Coerces : (source target concrete : Ty) → (trait : ItemId) → Prop
  | object {t : Ty} {trait : ItemId} : (∀ i, t ≠ .dyn i) → Coerces t (.dyn trait) t trait
  | ref {m n : Mutability} {s t concrete : Ty} {trait : ItemId} : Coerces s t concrete trait →
    Coerces (.wrap (.ref m) s) (.wrap (.ref n) t) concrete trait
  | raw {m n : Mutability} {s t concrete : Ty} {trait : ItemId} : Coerces s t concrete trait →
    Coerces (.wrap (.raw m) s) (.wrap (.raw n) t) concrete trait
  | refRaw {m n : Mutability} {s t concrete : Ty} {trait : ItemId} : Coerces s t concrete trait →
    Coerces (.wrap (.ref m) s) (.wrap (.raw n) t) concrete trait
  | box {s t concrete : Ty} {trait : ItemId} : Coerces s t concrete trait →
    Coerces (.wrap .box s) (.wrap .box t) concrete trait

/-- What is turned into a trait object was none before. -/
theorem Coerces.concrete_ne_dyn {s t concrete : Ty} {trait : ItemId}
    (h : Coerces s t concrete trait) (i : ItemId) : concrete ≠ .dyn i := by
  induction h with
  | object hne => exact hne i
  | ref _ ih => exact ih
  | raw _ ih => exact ih
  | refRaw _ ih => exact ih
  | box _ ih => exact ih

/-- The pointers around a coercion are stripped down to the concrete type and the trait. -/
theorem Coerces.unsizeParts_eq {s t concrete : Ty} {trait : ItemId}
    (h : Coerces s t concrete trait) : unsizeParts s t = some (concrete, trait) := by
  -- pointers are stripped alike on both sides until the target is an object
  induction h with
  | @object t trait hne =>
    cases t with
    | dyn i => exact absurd rfl (hne i)
    | _ => rfl
  | ref _ ih => exact ih
  | raw _ ih => exact ih
  | refRaw _ ih => exact ih
  | box _ ih => exact ih

namespace Program

variable {p : Program} {unused : UnusedSets}

/-! ## Entries -/

/-- A method is looked for in a vtable only for a trait object. -/
theorem eq_dyn_of_resolve_eq_virtual {method : ItemId} {self : Ty} {own : Args}
    (h : p.resolve method (.ty self :: own) = .virtual) : ∃ i, self = .dyn i := by
  have hresolves := p.resolves_resolve method (.ty self :: own)
  rw [h] at hresolves
  cases hresolves with
  | object => exact ⟨_, rfl⟩

/-- Arguments that have been normalized for an entry make the same instance as before. -/
theorem instantiate_normalize {i : ItemId} {args : Args} :
    p.instantiate unused i ((p.item i).generics.normalize (unused i) args) =
      p.instantiate unused i args := by
  simp only [instantiate, checkArity, instanceWith, Generics.length_normalize,
    Generics.normalize_normalize]

/-- An entry can be made where the instance of its method can. -/
theorem instantiate_of_vtableShim {i : ItemId} {args : Args} {shim : Instance}
    (h : p.vtableShim unused i args = .ok shim) :
    p.instantiate unused i args = .ok (p.instanceWith (unused i) i args) := by
  obtain ⟨hlength, -⟩ := vtableShim_eq_ok_iff.1 h
  exact (instantiate_eq_ok_iff p unused).2 ⟨hlength, rfl⟩

/-! ## Vtables -/

/-- Whether everything that the vtable of a type for a trait has to point to is collected and used
    by an instance. -/
structure HasVtable (p : Program) (unused : UnusedSets) (c : Collection) (inst : Instance)
    (concrete : Ty) (trait : ItemId) : Prop where
  /-- A method without parameters of its own has an entry, which calls it and uses nothing else. -/
  method : ∀ m ∈ p.traitMethods trait, (p.item m).generics.ownCount = 0 →
    ∃ target targetArgs shim callee, p.resolve m [.ty concrete] = .item target targetArgs ∧
      p.vtableShim unused target targetArgs = .ok shim ∧
      c.contains shim = true ∧ c.Uses inst shim .vtable ∧
      p.instantiate unused target targetArgs = .ok callee ∧ c.contains callee = true ∧
      ∀ y kind, c.Uses shim y kind ↔ y = callee ∧ kind = .call
  /-- The type has glue if it needs drop. -/
  glue : (∃ fuel m, p.needsDrop fuel concrete {} = some (true, m)) →
    c.contains (.glue concrete) = true ∧ c.Uses inst (.glue concrete) .vtable

variable {config : Config} {a : Analyzer} {fuel : Nat} {r : CollectResult} {c : Collection}
  {inst : Instance}

/-- A collected entry uses the instance of its method, and nothing else. -/
theorem uses_shim_iff (h : p.collect config a fuel = some r) (hc : r.outcome = .ok c)
    {i : ItemId} {args : Args} {shim : Instance}
    (hshim : p.vtableShim (a.unused p) i args = .ok shim) (hcontains : c.contains shim = true)
    {y : Instance} {kind : UseKind} :
    c.Uses shim y kind ↔ y = p.instanceWith (a.unused p i) i args ∧ kind = .call := by
  have hinst := instantiate_of_vtableShim hshim
  obtain ⟨-, rfl⟩ := vtableShim_eq_ok_iff.1 hshim
  obtain ⟨ns, ⟨hfail, _, _, _, -, hsettle⟩, huses⟩ :=
    exists_scan_of_collect preserves_true trivial h hc hcontains rfl
  -- a scan of the entry finds the instance made of arguments that are normalized already
  obtain ⟨target, htarget, hfound⟩ := finds_shim.1 (Needs.finds_found hfail)
  obtain rfl := Except.ok.inj (hinst.symm.trans (instantiate_normalize.symm.trans htarget))
  rw [hfound] at hsettle
  obtain ⟨ms, hms, rfl⟩ := settle_use_eq_some_iff.1 hsettle
  obtain ⟨rfl, -⟩ := Prod.mk.inj (Option.some.inj hms)
  rw [huses]
  simp [eq_comm]

/-- What is found for an object is its vtable. -/
theorem hasVtable_of_finds (hacyclic : p.ByValueAcyclic) (h : p.collect config a fuel = some r)
    (hc : r.outcome = .ok c) (hinst : c.contains inst = true)
    (hgen : (p.info inst).isGenerated = true) {needs ms : List Need}
    (hneeds : (p.needs (a.unused p) inst).Finds needs)
    (huses : ∀ n, .use n ∈ needs → c.Uses inst n.inst n.kind) {concrete : Ty} {trait : ItemId}
    {span : Span} (hms : (p.vtableNeeds (a.unused p) concrete trait span).Finds ms)
    (hsub : ms ⊆ needs) (hne : ∀ i, concrete ≠ .dyn i) :
    p.HasVtable (a.unused p) c inst concrete trait := by
  -- the vtable needs its glue and one entry for each method of the trait
  obtain ⟨entries, hentries, rfl⟩ := finds_vtableNeeds.1 hms
  constructor
  case method =>
    intro m hm hown
    have hmem : m ∈ p.vtableMethods trait := List.mem_filter.2 ⟨hm, beq_iff_eq.2 hown⟩
    obtain ⟨ks, hks, hkssub⟩ := hentries.of_mem_gather hmem
    obtain ⟨hvirtual, -⟩ | ⟨target, targetArgs, shim, hres, hshim, rfl⟩ :=
      finds_methodNeeds.1 hks
    · -- only an object is asked for its methods when the program runs
      obtain ⟨i, hdyn⟩ := eq_dyn_of_resolve_eq_virtual hvirtual
      exact absurd hdyn (hne i)
    · have hused := huses _ (hsub (List.mem_cons_of_mem _ (hkssub List.mem_cons_self)))
      have hcalls := @uses_shim_iff p config a fuel r c h hc target targetArgs shim hshim
        hused.contains
      refine ⟨target, targetArgs, shim, _, hres, hshim, hused.contains, hused,
        instantiate_of_vtableShim hshim, ?_, fun y kind => hcalls⟩
      exact (hcalls.2 ⟨rfl, rfl⟩).contains
  case glue =>
    intro ⟨fuel', m, hdrop⟩
    obtain ⟨hdrops, -⟩ :=
      classify_sound hacyclic (around_empty concrete) DropMemo.sound_empty hdrop
    have hneed : Need.glue concrete .vtable span ∈ needs := hsub List.mem_cons_self
    obtain ⟨i, hdyn⟩ | hfalse | ⟨-, hused⟩ :=
      glue_of_collect hacyclic h hc hinst hgen hneeds hneed
    · exact absurd hdyn (hne i)
    · exact absurd (hfalse.inj hdrops) Bool.false_ne_true
    · exact ⟨hused.contains, hused⟩

/-- Where a collected body makes a trait object, everything its vtable points to is collected. -/
theorem hasVtable_of_collect (hacyclic : p.ByValueAcyclic) (h : p.collect config a fuel = some r)
    (hc : r.outcome = .ok c) {b : Body} (hbody : c.Generates p inst b) {s t : Ty} {span : Span}
    (hunsize : (s, t, span) ∈ b.unsizes) : ∃ s' t', s.subst inst.args = .ok s' ∧
      t.subst inst.args = .ok t' ∧ ∀ concrete trait, Coerces s' t' concrete trait →
        p.HasVtable (a.unused p) c inst concrete trait := by
  obtain ⟨i, needs, hfinds, hneeds, huses⟩ := exists_bodyFinds_of_collect h hc hbody
  obtain ⟨ms, hms, hsub⟩ := exists_finds_unsize hfinds hunsize
  obtain ⟨s', hs', t', ht', hobject⟩ := finds_unsizeNeeds.1 hms
  refine ⟨s', t', hs', ht', fun concrete trait hcoerces => ?_⟩
  rw [objectNeeds, hcoerces.unsizeParts_eq] at hobject
  exact hasVtable_of_finds hacyclic h hc hbody.contains hbody.generated hneeds huses hobject
    hsub hcoerces.concrete_ne_dyn

/-- In the gallery the object made below two pointers has an entry for the method without
    parameters of its own, and glue for the frame. -/
theorem hasVtable_of_collect_gallery : ∃ r c,
    gallery.collect {} { enabled := true } 40 = some r ∧ r.outcome = .ok c ∧
      gallery.HasVtable (Analyzer.unused { enabled := true } gallery) c ⟨.item 0, []⟩
        (.adt 5 []) 2 ∧
      c.Uses ⟨.item 0, []⟩ ⟨.vtableShim 8, []⟩ .vtable ∧
      c.Uses ⟨.vtableShim 8, []⟩ ⟨.item 8, []⟩ .call ∧
      c.Uses ⟨.item 0, []⟩ (.glue (.adt 5 [])) .vtable := by
  obtain ⟨r, c, hr, hc, hcontains⟩ := exists_collection_gallery
  have hbody : c.Generates gallery ⟨.item 0, []⟩ (gallery.item 0).body.get! :=
    ⟨hcontains _ List.mem_cons_self, rfl, rfl⟩
  obtain ⟨s', t', hs, ht, hobjects⟩ :=
    hasVtable_of_collect acyclic_gallery hr hc hbody List.mem_cons_self
  have hsource : (Ty.wrap (.ref .exclusive) (.wrap .box (.adt 5 []))).subst [] =
      .ok (.wrap (.ref .exclusive) (.wrap .box (.adt 5 []))) := by
    rfl
  have htarget : (Ty.wrap (.raw .shared) (.wrap .box (.dyn 2))).subst [] =
      .ok (.wrap (.raw .shared) (.wrap .box (.dyn 2))) := by
    rfl
  obtain rfl := Except.ok.inj (hsource.symm.trans hs)
  obtain rfl := Except.ok.inj (htarget.symm.trans ht)
  have hvtable := hobjects (.adt 5 []) 2 (.refRaw (.box (.object fun i => nofun)))
  obtain ⟨target, targetArgs, shim, callee, hres, hshim, -, huses, hcallee, -, hcalls⟩ :=
    hvtable.method 3 (by decide +kernel) rfl
  obtain ⟨rfl, rfl⟩ := Resolution.item.inj (resolve_gallery.symm.trans hres)
  obtain ⟨-, rfl⟩ := vtableShim_eq_ok_iff.1 hshim
  obtain ⟨-, rfl⟩ := (instantiate_eq_ok_iff gallery _).1 hcallee
  exact ⟨r, c, hr, hc, hvtable, huses, (hcalls _ _).2 ⟨rfl, rfl⟩,
    (hvtable.glue ⟨1, _, rfl⟩).2⟩

end Program

end Monomorph
