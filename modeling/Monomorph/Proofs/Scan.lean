import Monomorph.Collect.Needs
import Monomorph.Proofs.Lists

/-!
# What a scan finds

`Program.needs` collects what an instance needs and stops at the first failure, which never ends a
run (`neverFatal_needs`). A scan that does not fail finds exactly the needs of every part, one after
the other; the `finds` lemmas say so for one rule each. `Program.Requires` lists the ways in which
an instance comes to need something, and `requires_of_finds` says that a scan finds nothing else.
-/

namespace Monomorph

namespace Needs

/-- The scan does not fail, and `ns` is what it finds. -/
def Finds (n : Needs) (ns : List Need) : Prop := n.failure = none ∧ n.found = ns

/-- A scan finds one list of needs. -/
theorem Finds.inj {n : Needs} {ns ms : List Need} (h : n.Finds ns) (h' : n.Finds ms) : ns = ms :=
  h.2.symm.trans h'.2

/-- A scan without a failure finds what it has found. -/
theorem finds_found {n : Needs} (h : n.failure = none) : n.Finds n.found := ⟨h, rfl⟩

/-- What is given as found is found. -/
theorem finds_ofFound {ns ms : List Need} {formed : List Ty} :
    ({ found := ns, formed } : Needs).Finds ms ↔ ms = ns := by
  simp [Finds, eq_comm]

/-- The empty scan finds nothing. -/
theorem finds_empty {ns : List Need} : ({} : Needs).Finds ns ↔ ns = [] := finds_ofFound

/-- A scan that fails does not count as finding anything. -/
theorem not_finds_failure {e : Error} {found ns : List Need} {formed : List Ty} :
    ¬ ({ found, failure := some e, formed } : Needs).Finds ns := by
  simp [Finds]

/-- Two scans in a row find what the first finds and then what the second does. -/
theorem finds_andThen {n : Needs} {next : Unit → Needs} {ns : List Need} :
    (n.andThen next).Finds ns ↔
      ∃ ms ks, n.Finds ms ∧ (next ()).Finds ks ∧ ns = ms ++ ks := by
  constructor
  · -- a failure of either part is a failure of both together
    rintro ⟨hfail, rfl⟩
    obtain ⟨hn, hnext⟩ := failure_andThen_eq_none.1 hfail
    exact ⟨_, _, finds_found hn, finds_found hnext, found_andThen hn⟩
  · rintro ⟨ms, ks, ⟨hn, rfl⟩, ⟨hnext, rfl⟩, rfl⟩
    exact ⟨failure_andThen_eq_none.2 ⟨hn, hnext⟩, found_andThen hn⟩

/-- A result is found as the one need it may be. -/
theorem finds_ofResult {formed : List Ty} {r : Except Error (Option Need)} {ns : List Need} :
    (ofResult formed r).Finds ns ↔ ∃ need, r = .ok need ∧ ns = need.toList := by
  cases r with
  | ok need => simp [ofResult, finds_ofFound]
  | error e => simp [ofResult, not_finds_failure]

variable {α : Type} {f g : α → Needs} {as : List α} {ns : List Need}

/-- A list of sites is scanned site by site. -/
theorem finds_gather_cons {a : α} : (gather f (a :: as)).Finds ns ↔
    ∃ ms ks, (f a).Finds ms ∧ (gather f as).Finds ks ∧ ns = ms ++ ks := finds_andThen

/-- All that is found for a list is found for one of its members. -/
theorem Finds.exists_of_mem_gather (h : (gather f as).Finds ns) {need : Need} (hn : need ∈ ns) :
    ∃ a ∈ as, ∃ ms, (f a).Finds ms ∧ need ∈ ms := by
  obtain ⟨hfail, rfl⟩ := h
  rw [found_gather hfail, List.mem_flatMap] at hn
  obtain ⟨a, ha, hneed⟩ := hn
  exact ⟨a, ha, _, finds_found (failure_gather_eq_none.1 hfail a ha), hneed⟩

/-- What is found for a member of a list is found for the list. -/
theorem Finds.of_mem_gather (h : (gather f as).Finds ns) {a : α} (ha : a ∈ as) :
    ∃ ms, (f a).Finds ms ∧ ms ⊆ ns := by
  obtain ⟨hfail, rfl⟩ := h
  refine ⟨_, finds_found (failure_gather_eq_none.1 hfail a ha), fun need hneed => ?_⟩
  rw [found_gather hfail]
  exact List.mem_flatMap.2 ⟨a, ha, hneed⟩

/-- Two scans of a list find corresponding needs if they do for every member. -/
theorem Finds.gather_map {k : Need → Need}
    (hmem : ∀ a ∈ as, ∀ ms, (f a).Finds ms → (g a).Finds (ms.map k))
    (h : (gather f as).Finds ns) : (gather g as).Finds (ns.map k) := by
  -- The needs come in the order of the sites, so those of the first stand in front.
  induction as generalizing ns with
  | nil =>
    obtain rfl := finds_empty.1 h
    exact finds_empty.2 rfl
  | cons a as ih =>
    obtain ⟨ms, ks, hms, hks, rfl⟩ := finds_gather_cons.1 h
    have ha := hmem a List.mem_cons_self ms hms
    have has := ih (fun b hb => hmem b (List.mem_cons_of_mem _ hb)) hks
    exact finds_gather_cons.2 ⟨_, _, ha, has, List.map_append⟩

/-- They find the same if they do for every member. -/
theorem Finds.gather_congr (hmem : ∀ a ∈ as, ∀ ms, (f a).Finds ms → (g a).Finds ms)
    (h : (gather f as).Finds ns) : (gather g as).Finds ns := by
  have hmap := h.gather_map (k := id) fun a ha ms hms => ms.map_id.symm ▸ hmem a ha ms hms
  rwa [ns.map_id] at hmap

end Needs

namespace Program

open Needs

variable {p : Program} {unused : UnusedSets}

/-! ## Making instances -/

/-- Reporting a failure does not change what succeeds. -/
theorem orUnresolved_eq_ok_iff {ε α : Type} {i : ItemId} {args : Args} {span : Span}
    {reason : ε → Reason} {r : Except ε α} {a : α} :
    p.orUnresolved i args span reason r = .ok a ↔ r = .ok a := by
  cases r <;> simp [orUnresolved, Except.mapError]

/-- A vtable shim is made exactly where the arguments are as many as the method's parameters. -/
theorem vtableShim_eq_ok_iff {m : ItemId} {args : Args} {inst : Instance} :
    p.vtableShim unused m args = .ok inst ↔ args.length = (p.item m).generics.count ∧
      inst = ⟨.vtableShim m, (p.item m).generics.normalize (unused m) args⟩ := by
  unfold vtableShim checkArity
  by_cases h : args.length = (p.item m).generics.count
  · simp [h, bind, Except.bind, pure, Except.pure, eq_comm]
  · simp [h, bind, Except.bind]

/-- A call has no callee exactly where it goes through a vtable. -/
theorem callee_eq_none_iff {i : ItemId} {args : Args} :
    p.callee unused i args = .ok none ↔ p.resolve i args = .virtual := by
  unfold callee
  split
  · next h => split <;> simp [map_eq_ok_iff, h]
  · next h => simp [h]
  · next h => simp [h]

/-- The callee is the instance of what the call resolves to, if that can be called. -/
theorem callee_eq_some_iff {i : ItemId} {args : Args} {inst : Instance} :
    p.callee unused i args = .ok (some inst) ↔ ∃ target targetArgs,
      p.resolve i args = .item target targetArgs ∧ (p.item target).kind.isCallable = true ∧
        p.instantiate unused target targetArgs = .ok inst := by
  -- three outcomes of the look-up, of which only an item has an instance
  unfold callee
  split
  · next target targetArgs h =>
    simp only [h, Resolution.item.injEq]
    constructor
    · intro he
      split at he
      · next hcall =>
        obtain ⟨inst', hinst, heq⟩ := map_eq_ok_iff.1 he
        exact ⟨target, targetArgs, ⟨rfl, rfl⟩, hcall, Option.some.inj heq ▸ hinst⟩
      · exact nomatch he
    · rintro ⟨_, _, ⟨rfl, rfl⟩, hcall, hinst⟩
      rw [if_pos hcall, hinst]
      rfl
  · next h => simp [h]
  · next h => simp [h]

/-! ## One rule each -/

/-- What is needed of a type is looked for once its arguments are put in. -/
theorem finds_needsOfSubst {i : ItemId} {args : Args} {span : Span} {t : Ty} {next : Ty → Needs}
    {ns : List Need} : (p.needsOfSubst i args span t next).Finds ns ↔
      ∃ u, t.subst args = .ok u ∧ (next u).Finds ns := by
  unfold needsOfSubst
  split
  · next h => simp [h, not_finds_failure]
  · next u h => simp [h, finds_andThen, finds_ofFound]

/-- A call needs its callee, of the kind of the call, if it has one. -/
theorem finds_callNeeds {args : Args} {site : CallSite} {ns : List Need} :
    (p.callNeeds unused args site).Finds ns ↔ ∃ callArgs, args.subst site.args = .ok callArgs ∧
      ∃ inst?, p.callee unused site.callee callArgs = .ok inst? ∧
        ns = (inst?.map fun inst => Need.use ⟨inst, site.kind.useKind, site.span⟩).toList := by
  -- two steps in a row: the arguments of the call, and then what they lead to
  simp only [callNeeds, finds_ofResult, bind_eq_ok_iff, orUnresolved_eq_ok_iff, pure, Except.pure,
    Except.ok.injEq]
  constructor
  · rintro ⟨need, ⟨callArgs, hargs, inst?, hinst, rfl⟩, rfl⟩
    exact ⟨callArgs, hargs, inst?, hinst, rfl⟩
  · rintro ⟨callArgs, hargs, inst?, hinst, rfl⟩
    exact ⟨_, ⟨callArgs, hargs, inst?, hinst, rfl⟩, rfl⟩

/-- An instance that is needed in any case is found exactly if it can be made. -/
private theorem finds_use {ε : Type} {formed : List Ty} {i : ItemId} {args : Args}
    {span span' : Span} {reason : ε → Reason} {r : Except ε Instance} {kind : UseKind}
    {ns : List Need} :
    (ofResult formed (do
      let inst ← p.orUnresolved i args span reason r
      return some (.use ⟨inst, kind, span'⟩))).Finds ns ↔
        ∃ inst, r = .ok inst ∧ ns = [.use ⟨inst, kind, span'⟩] := by
  simp only [finds_ofResult, bind_eq_ok_iff, orUnresolved_eq_ok_iff, pure, Except.pure,
    Except.ok.injEq]
  constructor
  · rintro ⟨need, ⟨inst, hinst, rfl⟩, rfl⟩
    exact ⟨inst, hinst, rfl⟩
  · rintro ⟨inst, hinst, rfl⟩
    exact ⟨_, ⟨inst, hinst, rfl⟩, rfl⟩

/-- An access needs the static. -/
theorem finds_staticNeeds {site : ItemId × Span} {ns : List Need} :
    (p.staticNeeds unused site).Finds ns ↔ ∃ inst, p.instantiate unused site.1 [] = .ok inst ∧
      ns = [.use ⟨inst, .static, site.2⟩] :=
  finds_use

/-- A drop needs the glue of the dropped type. -/
theorem finds_dropNeeds {i : ItemId} {args : Args} {site : Ty × Span} {ns : List Need} :
    (p.dropNeeds i args site).Finds ns ↔
      ∃ t, site.1.subst args = .ok t ∧ ns = [.glue t .drop site.2] := by
  simp only [dropNeeds, finds_needsOfSubst, finds_ofFound]

/-- A slot of a vtable needs the shim of the method it resolves to, and none where there is no
    method. -/
theorem finds_methodNeeds {concrete : Ty} {span : Span} {method : ItemId} {ns : List Need} :
    (p.methodNeeds unused concrete span method).Finds ns ↔
      (p.resolve method [.ty concrete] = .virtual ∧ ns = []) ∨
      ∃ target targetArgs inst, p.resolve method [.ty concrete] = .item target targetArgs ∧
        p.vtableShim unused target targetArgs = .ok inst ∧ ns = [.use ⟨inst, .vtable, span⟩] := by
  -- only a method that some item provides has an entry
  unfold methodNeeds
  split
  · next target targetArgs h =>
    rw [finds_use]
    simp only [h, Resolution.item.injEq]
    constructor
    · rintro ⟨inst, hinst, rfl⟩
      exact .inr ⟨target, targetArgs, inst, ⟨rfl, rfl⟩, hinst, rfl⟩
    · rintro (⟨hv, -⟩ | ⟨_, _, inst, ⟨rfl, rfl⟩, hinst, rfl⟩)
      · cases hv
      · exact ⟨inst, hinst, rfl⟩
  · next h => simp [h, finds_ofResult]
  · next h => simp [h, finds_ofResult]

/-- A vtable needs the glue of the concrete type and, behind it, what its slots need. -/
theorem finds_vtableNeeds {concrete : Ty} {trait : ItemId} {span : Span} {ns : List Need} :
    (p.vtableNeeds unused concrete trait span).Finds ns ↔ ∃ ms,
      (gather (p.methodNeeds unused concrete span) (p.vtableMethods trait)).Finds ms ∧
        ns = .glue concrete .vtable span :: ms := by
  simp [vtableNeeds, finds_andThen, finds_ofFound]

/-- What a coercion of one type to another needs, when both are known. -/
def objectNeeds (p : Program) (unused : UnusedSets) (source target : Ty) (span : Span) : Needs :=
  match unsizeParts source target with
  | some (concrete, trait) => p.vtableNeeds unused concrete trait span
  | none => {}

/-- A coercion needs what its two types need once the arguments are put in. -/
theorem finds_unsizeNeeds {i : ItemId} {args : Args} {site : Ty × Ty × Span} {ns : List Need} :
    (p.unsizeNeeds unused i args site).Finds ns ↔
      ∃ source, site.1.subst args = .ok source ∧ ∃ target, site.2.1.subst args = .ok target ∧
        (p.objectNeeds unused source target site.2.2).Finds ns := by
  simp only [unsizeNeeds, finds_needsOfSubst]
  rfl

/-- A body needs what its calls, statics, drops and coercions need, in this order. -/
theorem finds_bodyNeeds {i : ItemId} {args : Args} {b : Body} {ns : List Need} :
    (p.bodyNeeds unused i args b).Finds ns ↔ ∃ calls statics drops unsizes,
      (gather (p.callNeeds unused args) b.calls).Finds calls ∧
      (gather (p.staticNeeds unused) b.statics).Finds statics ∧
      (gather (p.dropNeeds i args) b.drops).Finds drops ∧
      (gather (p.unsizeNeeds unused i args) b.unsizes).Finds unsizes ∧
        ns = calls ++ (statics ++ (drops ++ unsizes)) := by
  -- the four lists come one behind the other
  simp only [bodyNeeds, finds_andThen]
  constructor
  · rintro ⟨cs, _, hc, ⟨ss, _, hs, ⟨ds, us, hd, hu, rfl⟩, rfl⟩, rfl⟩
    exact ⟨cs, ss, ds, us, hc, hs, hd, hu, rfl⟩
  · rintro ⟨cs, ss, ds, us, hc, hs, hd, hu, rfl⟩
    exact ⟨cs, _, hc, ⟨ss, _, hs, ⟨ds, us, hd, hu, rfl⟩, rfl⟩, rfl⟩

section Parts

variable {i : ItemId} {args : Args} {b : Body} {ns : List Need}

/-- What is found for a body has in it what each call needs. -/
theorem exists_finds_call (h : (p.bodyNeeds unused i args b).Finds ns) {site : CallSite}
    (hs : site ∈ b.calls) : ∃ ms, (p.callNeeds unused args site).Finds ms ∧ ms ⊆ ns := by
  obtain ⟨calls, statics, drops, unsizes, hcalls, -, -, -, rfl⟩ := finds_bodyNeeds.1 h
  obtain ⟨ms, hms, hsub⟩ := hcalls.of_mem_gather hs
  exact ⟨ms, hms, fun _ hn => List.mem_append_left _ (hsub hn)⟩

/-- It has in it what each dropped value needs. -/
theorem exists_finds_drop (h : (p.bodyNeeds unused i args b).Finds ns) {site : Ty × Span}
    (hs : site ∈ b.drops) : ∃ ms, (p.dropNeeds i args site).Finds ms ∧ ms ⊆ ns := by
  obtain ⟨calls, statics, drops, unsizes, -, -, hdrops, -, rfl⟩ := finds_bodyNeeds.1 h
  obtain ⟨ms, hms, hsub⟩ := hdrops.of_mem_gather hs
  refine ⟨ms, hms, fun _ hn => ?_⟩
  exact List.mem_append_right _ (List.mem_append_right _ (List.mem_append_left _ (hsub hn)))

/-- It has in it what each coercion needs. -/
theorem exists_finds_unsize (h : (p.bodyNeeds unused i args b).Finds ns) {site : Ty × Ty × Span}
    (hs : site ∈ b.unsizes) : ∃ ms, (p.unsizeNeeds unused i args site).Finds ms ∧ ms ⊆ ns := by
  obtain ⟨calls, statics, drops, unsizes, -, -, -, hunsizes, rfl⟩ := finds_bodyNeeds.1 h
  obtain ⟨ms, hms, hsub⟩ := hunsizes.of_mem_gather hs
  refine ⟨ms, hms, fun _ hn => ?_⟩
  exact List.mem_append_right _ (List.mem_append_right _ (List.mem_append_right _ (hsub hn)))

end Parts

/-- Drop glue needs the declared method, if there is one, and the glue of each part. -/
theorem finds_glueNeeds {inst : Instance} {t : Ty} {ns : List Need} :
    (p.glueNeeds unused inst t).Finds ns ↔ ∃ parts, p.glueCandidates t = .ok parts ∧
      ((parts.method = none ∧ ns = parts.children.map fun c => Need.glue c .drop .dummy) ∨
      ∃ method args target, parts.method = some (method, args) ∧
        p.instantiate unused method args = .ok target ∧
        ns = .use ⟨target, .call, .dummy⟩ ::
          parts.children.map fun c => Need.glue c .drop .dummy) := by
  unfold glueNeeds
  split
  · next h => simp [h, not_finds_failure]
  · next parts h =>
    simp only [h, Except.ok.injEq, exists_eq_left']
    split
    · next hm => simp [hm, finds_ofFound]
    · next method args hm =>
      simp only [hm]
      split
      · next target ht =>
        rw [orUnresolved_eq_ok_iff] at ht
        simp [ht, finds_ofFound]
      · -- The failure that is reported is that of the instance, so there is no such instance.
        next e ht =>
        have hne : ∀ target, p.instantiate unused method args ≠ .ok target := by
          intro target h
          rw [orUnresolved_eq_ok_iff.2 h] at ht
          exact nomatch ht
        simp [hne, not_finds_failure]

/-- An item needs what its body needs, and cannot do without one. -/
theorem finds_item {inst : Instance} {i : ItemId}
    (hwhat : inst.what = .item i ∨ inst.what = .static i) {ns : List Need} :
    (p.needs unused inst).Finds ns ↔
      ∃ b, (p.item i).body = some b ∧ (p.bodyNeeds unused i inst.args b).Finds ns := by
  cases hb : (p.item i).body with
  | none => obtain hwhat | hwhat := hwhat <;> simp [needs, hwhat, hb, not_finds_failure]
  | some b => obtain hwhat | hwhat := hwhat <;> simp [needs, hwhat, hb]

/-- A shim needs the method behind it. -/
theorem finds_shim {i : ItemId} {args : Args} {ns : List Need} :
    (p.needs unused ⟨.vtableShim i, args⟩).Finds ns ↔
      ∃ target, p.instantiate unused i args = .ok target ∧
        ns = [.use ⟨target, .call, .dummy⟩] :=
  finds_use

/-! ## Everything that can be needed -/

/-- The ways in which an instance comes to need something. -/
inductive Requires (p : Program) (unused : UnusedSets) (inst : Instance) : Need → Prop where
  | call {i : ItemId} {b : Body} {site : CallSite} {callArgs targetArgs : Args} {target : ItemId} :
    inst.what = .item i ∨ inst.what = .static i → (p.item i).body = some b → site ∈ b.calls →
    inst.args.subst site.args = .ok callArgs →
    p.resolve site.callee callArgs = .item target targetArgs →
    targetArgs.length = (p.item target).generics.count →
    Requires p unused inst
      (.use ⟨p.instanceWith (unused target) target targetArgs, site.kind.useKind, site.span⟩)
  | static {i : ItemId} {b : Body} {site : ItemId × Span} :
    inst.what = .item i ∨ inst.what = .static i → (p.item i).body = some b → site ∈ b.statics →
    ([] : Args).length = (p.item site.1).generics.count →
    Requires p unused inst (.use ⟨p.instanceWith (unused site.1) site.1 [], .static, site.2⟩)
  | drop {i : ItemId} {b : Body} {t u : Ty} {span : Span} :
    inst.what = .item i ∨ inst.what = .static i → (p.item i).body = some b →
    (t, span) ∈ b.drops → t.subst inst.args = .ok u →
    Requires p unused inst (.glue u .drop span)
  | object {i : ItemId} {b : Body} {s t s' t' concrete : Ty} {span : Span} {trait : ItemId} :
    inst.what = .item i ∨ inst.what = .static i → (p.item i).body = some b →
    (s, t, span) ∈ b.unsizes → s.subst inst.args = .ok s' → t.subst inst.args = .ok t' →
    unsizeParts s' t' = some (concrete, trait) →
    Requires p unused inst (.glue concrete .vtable span)
  | entry {i : ItemId} {b : Body} {s t s' t' concrete : Ty} {span : Span}
      {trait method target : ItemId} {targetArgs : Args} :
    inst.what = .item i ∨ inst.what = .static i → (p.item i).body = some b →
    (s, t, span) ∈ b.unsizes → s.subst inst.args = .ok s' → t.subst inst.args = .ok t' →
    unsizeParts s' t' = some (concrete, trait) → method ∈ p.vtableMethods trait →
    p.resolve method [.ty concrete] = .item target targetArgs →
    targetArgs.length = (p.item target).generics.count →
    Requires p unused inst (.use ⟨⟨.vtableShim target,
      (p.item target).generics.normalize (unused target) targetArgs⟩, .vtable, span⟩)
  | dropMethod {t : Ty} {parts : DropParts} {method : ItemId} {args : Args} :
    inst.glueTy? = some t → p.glueCandidates t = .ok parts →
    parts.method = some (method, args) → args.length = (p.item method).generics.count →
    Requires p unused inst (.use ⟨p.instanceWith (unused method) method args, .call, .dummy⟩)
  | part {t c : Ty} {parts : DropParts} :
    inst.glueTy? = some t → p.glueCandidates t = .ok parts → c ∈ parts.children →
    Requires p unused inst (.glue c .drop .dummy)
  | shim {i : ItemId} :
    inst.what = .vtableShim i → inst.args.length = (p.item i).generics.count →
    Requires p unused inst (.use ⟨p.instanceWith (unused i) i inst.args, .call, .dummy⟩)

section Requires

variable {inst : Instance} {i : ItemId} {b : Body} {ns : List Need} {need : Need}

/-- What the scan finds of a coercion is the glue of an object or an entry of its vtable. -/
private theorem requires_of_finds_unsize (hwhat : inst.what = .item i ∨ inst.what = .static i)
    (hb : (p.item i).body = some b) {site : Ty × Ty × Span} (hsite : site ∈ b.unsizes)
    (h : (p.unsizeNeeds unused i inst.args site).Finds ns) (hn : need ∈ ns) :
    p.Requires unused inst need := by
  obtain ⟨source, hs, target, ht, h⟩ := finds_unsizeNeeds.1 h
  -- a coercion that makes no object needs nothing
  unfold objectNeeds at h
  split at h
  · next concrete trait hparts =>
    obtain ⟨ms, hms, rfl⟩ := finds_vtableNeeds.1 h
    rcases List.mem_cons.1 hn with rfl | hn
    · exact .object hwhat hb hsite hs ht hparts
    · obtain ⟨method, hmethod, ks, hks, hn⟩ := hms.exists_of_mem_gather hn
      rcases finds_methodNeeds.1 hks with ⟨-, rfl⟩ | ⟨_, _, shim, hres, hshim, rfl⟩
      · exact nomatch hn
      · obtain ⟨hlen, rfl⟩ := vtableShim_eq_ok_iff.1 hshim
        obtain rfl := List.mem_singleton.1 hn
        exact .entry hwhat hb hsite hs ht hparts hmethod hres hlen
  · obtain rfl := finds_empty.1 h
    exact nomatch hn

/-- What the scan finds of a body is required by one of its operations. -/
private theorem requires_of_finds_body (hwhat : inst.what = .item i ∨ inst.what = .static i)
    (hb : (p.item i).body = some b) (h : (p.bodyNeeds unused i inst.args b).Finds ns)
    (hn : need ∈ ns) : p.Requires unused inst need := by
  obtain ⟨calls, statics, drops, unsizes, hcalls, hstatics, hdrops, hunsizes, rfl⟩ :=
    finds_bodyNeeds.1 h
  -- calls, statics, drops and coercions, in the order in which the body is scanned
  simp only [List.mem_append] at hn
  rcases hn with hn | hn | hn | hn
  · obtain ⟨site, hsite, ms, hms, hn⟩ := hcalls.exists_of_mem_gather hn
    obtain ⟨callArgs, hargs, inst?, hcallee, rfl⟩ := finds_callNeeds.1 hms
    cases inst? with
    | none =>
      -- a call through a trait object needs nothing
      exact nomatch hn
    | some target =>
      obtain ⟨_, _, hres, -, hinst⟩ := callee_eq_some_iff.1 hcallee
      obtain ⟨hlen, rfl⟩ := (instantiate_eq_ok_iff p unused).1 hinst
      obtain rfl := List.mem_singleton.1 hn
      exact .call hwhat hb hsite hargs hres hlen
  · obtain ⟨site, hsite, ms, hms, hn⟩ := hstatics.exists_of_mem_gather hn
    obtain ⟨target, hinst, rfl⟩ := finds_staticNeeds.1 hms
    obtain ⟨hlen, rfl⟩ := (instantiate_eq_ok_iff p unused).1 hinst
    obtain rfl := List.mem_singleton.1 hn
    exact .static hwhat hb hsite hlen
  · obtain ⟨site, hsite, ms, hms, hn⟩ := hdrops.exists_of_mem_gather hn
    obtain ⟨t, ht, rfl⟩ := finds_dropNeeds.1 hms
    obtain rfl := List.mem_singleton.1 hn
    exact .drop hwhat hb hsite ht
  · obtain ⟨site, hsite, ms, hms, hn⟩ := hunsizes.exists_of_mem_gather hn
    exact requires_of_finds_unsize hwhat hb hsite hms hn

/-- What the scan finds of drop glue is its method or the glue of a part. -/
private theorem requires_of_finds_glue {t : Ty} (ht : inst.glueTy? = some t)
    (h : (p.glueNeeds unused inst t).Finds ns) (hn : need ∈ ns) : p.Requires unused inst need := by
  obtain ⟨parts, hparts, h⟩ := finds_glueNeeds.1 h
  have child : need ∈ (parts.children.map fun c => Need.glue c .drop .dummy) →
      p.Requires unused inst need := by
    intro hn
    obtain ⟨c, hc, rfl⟩ := List.mem_map.1 hn
    exact .part ht hparts hc
  -- Where a method is declared it comes first, and the parts follow it.
  rcases h with ⟨-, rfl⟩ | ⟨method, args, target, hmethod, hinst, rfl⟩
  · exact child hn
  · rcases List.mem_cons.1 hn with rfl | hn
    · obtain ⟨hlen, rfl⟩ := (instantiate_eq_ok_iff p unused).1 hinst
      exact .dropMethod ht hparts hmethod hlen
    · exact child hn

/-- Whatever a scan finds is required by one of the rules. -/
theorem requires_of_finds (h : (p.needs unused inst).Finds ns) (hn : need ∈ ns) :
    p.Requires unused inst need := by
  obtain ⟨what, args⟩ := inst
  -- Functions and statics are scanned alike.
  have body : ∀ i, what = .item i ∨ what = .static i → p.Requires unused ⟨what, args⟩ need := by
    intro i hwhat
    obtain ⟨b, hb, h⟩ := (finds_item hwhat).1 h
    exact requires_of_finds_body hwhat hb h hn
  cases what with
  | item i => exact body i (.inl rfl)
  | static i => exact body i (.inr rfl)
  | dropGlue =>
    simp only [needs] at h
    split at h
    · next t ht => exact requires_of_finds_glue ht h hn
    · obtain rfl := finds_empty.1 h
      cases hn
  | vtableShim i =>
    obtain ⟨target, hinst, rfl⟩ := finds_shim.1 h
    obtain ⟨hlen, rfl⟩ := (instantiate_eq_ok_iff p unused).1 hinst
    obtain rfl := List.mem_singleton.1 hn
    exact .shim rfl hlen

end Requires

end Program

/-! ## Failures -/

namespace Needs

/-- Whether a failure, if there is one, does not end a run. -/
def NeverFatal (n : Needs) : Prop := ∀ e, n.failure = some e → e.isFatal = false

/-- A scan that only finds does not end a run. -/
theorem neverFatal_ofFound {found : List Need} {formed : List Ty} :
    ({ found, formed } : Needs).NeverFatal := fun _ h => nomatch h

/-- A scan is as harmless as its failure. -/
theorem neverFatal_failure {found : List Need} {formed : List Ty} {e : Error}
    (h : e.isFatal = false) : ({ found, failure := some e, formed } : Needs).NeverFatal :=
  fun _ he => Option.some.inj he ▸ h

/-- Two scans that do not end a run do not end it in a row. -/
theorem NeverFatal.andThen {n : Needs} {next : Unit → Needs} (h : n.NeverFatal)
    (hnext : (next ()).NeverFatal) : (n.andThen next).NeverFatal := by
  intro e he
  unfold Needs.andThen at he
  split at he
  · exact h e he
  · exact hnext e he

/-- A list of sites none of which ends a run does not end it. -/
theorem neverFatal_gather {α : Type} {f : α → Needs} (h : ∀ a, (f a).NeverFatal) (as : List α) :
    (gather f as).NeverFatal := by
  induction as with
  | nil => exact neverFatal_ofFound
  | cons a as ih => exact (h a).andThen ih

/-- A result is as harmless as its error. -/
theorem neverFatal_ofResult {formed : List Ty} {r : Except Error (Option Need)}
    (h : ∀ e, r = .error e → e.isFatal = false) : (ofResult formed r).NeverFatal := by
  cases r with
  | ok need => exact neverFatal_ofFound
  | error e => exact neverFatal_failure (h e rfl)

end Needs

namespace Program

open Needs

variable {p : Program} {unused : UnusedSets}

/-- What succeeds has no error to be fatal. -/
private theorem isFatal_pure {α : Type} (a : α) (e : Error)
    (h : (pure a : Except Error α) = .error e) : e.isFatal = false := nomatch h

/-- A failure that was reported as unresolved is not fatal, whatever is done before it. -/
private theorem isFatal_orUnresolved_bind {ε α β : Type} {i : ItemId} {args : Args} {span : Span}
    {reason : ε → Reason} {r : Except ε α} {f : α → Except Error β}
    (hf : ∀ a e, f a = .error e → e.isFatal = false) (e : Error)
    (h : (p.orUnresolved i args span reason r >>= f) = .error e) : e.isFatal = false := by
  cases r with
  | error e' =>
    obtain rfl := Except.error.inj h
    rfl
  | ok a => exact hf a e h

/-- A failing substitution does not end a run. -/
private theorem neverFatal_needsOfSubst {i : ItemId} {args : Args} {span : Span} {t : Ty}
    {next : Ty → Needs} (h : ∀ u, (next u).NeverFatal) :
    (p.needsOfSubst i args span t next).NeverFatal := by
  unfold needsOfSubst
  split
  · exact neverFatal_failure rfl
  · exact neverFatal_ofFound.andThen (h _)

/-- No call ends a run. -/
private theorem neverFatal_callNeeds (args : Args) (site : CallSite) :
    (p.callNeeds unused args site).NeverFatal :=
  neverFatal_ofResult (isFatal_orUnresolved_bind fun _ =>
    isFatal_orUnresolved_bind fun _ => isFatal_pure _)

/-- No slot of a vtable ends a run. -/
private theorem neverFatal_methodNeeds (concrete : Ty) (span : Span) (method : ItemId) :
    (p.methodNeeds unused concrete span method).NeverFatal := by
  -- the look-up fails with an unresolved instance or not at all
  apply neverFatal_ofResult
  split
  · exact isFatal_orUnresolved_bind fun _ => isFatal_pure _
  · exact isFatal_pure _
  · intro e h
    obtain rfl := Except.error.inj h
    rfl

/-- No coercion ends a run. -/
private theorem neverFatal_unsizeNeeds (i : ItemId) (args : Args) (site : Ty × Ty × Span) :
    (p.unsizeNeeds unused i args site).NeverFatal := by
  refine neverFatal_needsOfSubst fun source => neverFatal_needsOfSubst fun target => ?_
  split
  · exact neverFatal_ofFound.andThen (neverFatal_gather (neverFatal_methodNeeds _ _) _)
  · exact neverFatal_ofFound

/-- No body ends a run. -/
private theorem neverFatal_bodyNeeds (i : ItemId) (args : Args) (b : Body) :
    (p.bodyNeeds unused i args b).NeverFatal := by
  -- the four parts of a body one after the other
  refine (neverFatal_gather (neverFatal_callNeeds args) _).andThen ?_
  refine (neverFatal_gather (fun site => ?_) _).andThen ?_
  · exact neverFatal_ofResult (isFatal_orUnresolved_bind fun _ => isFatal_pure _)
  refine (neverFatal_gather (fun site => ?_) _).andThen ?_
  · exact neverFatal_needsOfSubst fun _ => neverFatal_ofFound
  · exact neverFatal_gather (neverFatal_unsizeNeeds i args) _

/-- No drop glue ends a run. -/
private theorem neverFatal_glueNeeds (inst : Instance) (t : Ty) :
    (p.glueNeeds unused inst t).NeverFatal := by
  unfold glueNeeds
  split
  · exact neverFatal_failure rfl
  · split
    · exact neverFatal_ofFound
    · split
      · exact neverFatal_ofFound
      · next method args _ e he =>
        apply neverFatal_failure
        exact isFatal_orUnresolved_bind (f := pure) (fun _ => isFatal_pure _) e (by rw [he]; rfl)

/-- A scan that fails does not end a run. -/
theorem neverFatal_needs (inst : Instance) : (p.needs unused inst).NeverFatal := by
  unfold needs
  split
  -- the body of a function and the initial value of a static
  iterate 2
    split
    · exact neverFatal_bodyNeeds _ inst.args _
    · exact neverFatal_failure rfl
  · split
    · exact neverFatal_glueNeeds inst _
    · exact neverFatal_ofFound
  · exact neverFatal_ofResult (isFatal_orUnresolved_bind fun _ => isFatal_pure _)

end Program

end Monomorph
