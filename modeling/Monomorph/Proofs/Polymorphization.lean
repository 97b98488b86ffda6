import Monomorph.Proofs.Collapse
import Monomorph.Proofs.Exactness

/-!
# Normalization only merges instances

Two collections of one program are compared: the first leaves all arguments as they are, the second
normalizes them. What an instance needs when nothing is normalized, its normal form needs in normal
form (`finds_normalized`): calls are resolved for the same arguments, the instances are normalized
as they are made, and a body does not see that its own arguments are (`bodyNeeds_of_agree`). So the
needed instances of the second collection are the normal forms of those of the first.
-/

namespace Monomorph

/-- The answer that all parameters are used. -/
def UnusedSets.none : UnusedSets := fun _ => .empty

/-- An analyzer that is switched off takes all parameters for used. -/
theorem Analyzer.unused_of_disabled (p : Program) :
    Analyzer.unused { enabled := false } p = UnusedSets.none := by
  funext i
  have hunknown : UnusedTable.empty.get? i = none := rfl
  rw [Analyzer.unused_of_unknown _ p hunknown]
  rfl

/-! ## Normal forms -/

namespace Program

variable (p : Program) (unused : UnusedSets)

/-- A neighbor whose instance is normalized. -/
def normalizedNeighbor (n : Neighbor) : Neighbor := { n with inst := p.normalized unused n.inst }

/-- A need whose instance is normalized. Types are never changed. -/
def normalizedNeed : Need → Need
  | .use n => .use (p.normalizedNeighbor unused n)
  | .glue t kind span => .glue t kind span

/-- An instance of an item is normalized by what the item does not use. -/
theorem normalized_of_item? {inst : Instance} {i : ItemId} (h : inst.item? = some i) :
    p.normalized unused inst =
      ⟨inst.what, (p.item i).generics.normalize (unused i) inst.args⟩ := by
  simp only [normalized, h]

/-- Glue is in normal form as it stands. -/
@[simp] theorem normalized_glue (t : Ty) : p.normalized unused (.glue t) = .glue t := rfl

/-- Drop glue of any arguments is in normal form as it stands. -/
theorem normalized_dropGlue (args : Args) :
    p.normalized unused ⟨.dropGlue, args⟩ = ⟨.dropGlue, args⟩ := rfl

/-- Normalizing later comes to the same as normalizing when an instance is made. -/
theorem normalized_instanceWith (i : ItemId) (args : Args) :
    p.normalized unused (p.instanceWith .empty i args) = p.instanceWith (unused i) i args := by
  have hitem : (p.instanceWith .empty i args).item? = some i := item?_instanceDef i
  rw [p.normalized_of_item? unused hitem]
  simp only [instanceWith, Generics.normalize_empty]

/-- Normal form of a shim does not depend on whether it was made with sets. -/
theorem normalized_vtableShim (i : ItemId) (args : Args) :
    p.normalized unused ⟨.vtableShim i, (p.item i).generics.normalize .empty args⟩ =
      ⟨.vtableShim i, (p.item i).generics.normalize (unused i) args⟩ := by
  have hitem : (⟨.vtableShim i, (p.item i).generics.normalize .empty args⟩ : Instance).item? =
    some i := rfl
  rw [p.normalized_of_item? unused hitem, Generics.normalize_empty]

/-- What is known of an instance does not depend on the arguments of its item. -/
theorem info_normalized (inst : Instance) : p.info (p.normalized unused inst) = p.info inst := by
  obtain ⟨what, args⟩ := inst
  -- what is known of an instance comes from its item
  cases what with
  | item i => rfl
  | static i => rfl
  | dropGlue => rfl
  | vtableShim i => rfl

end Program

/-! ## Scans -/

section Scans

variable {p : Program} {unused : UnusedSets} {ns : List Need}

namespace Program

/-- A call with the same arguments comes to the normal form of the same instance. -/
theorem callee_normalized {i : ItemId} {args : Args} {inst? : Option Instance}
    (h : p.callee .none i args = .ok inst?) :
    p.callee unused i args = .ok (inst?.map (p.normalized unused)) := by
  cases inst? with
  | none => exact callee_eq_none_iff.2 (callee_eq_none_iff.1 h)
  | some inst =>
    -- resolution sees the same arguments, and the instance is normalized when it is made
    obtain ⟨target, targetArgs, hres, hcallable, hinst⟩ := callee_eq_some_iff.1 h
    obtain ⟨hlen, rfl⟩ := (instantiate_eq_ok_iff p .none).1 hinst
    apply callee_eq_some_iff.2
    refine ⟨target, targetArgs, hres, hcallable, ?_⟩
    rw [instantiate_eq_ok_iff]
    exact ⟨hlen, p.normalized_instanceWith unused target targetArgs⟩

/-- With sets, a call needs the normal form of what it needed without. -/
theorem callNeeds_normalized {args : Args} {site : CallSite}
    (h : (p.callNeeds .none args site).Finds ns) :
    (p.callNeeds unused args site).Finds (ns.map (p.normalizedNeed unused)) := by
  obtain ⟨out, hout, inst?, hcallee, rfl⟩ := finds_callNeeds.1 h
  apply finds_callNeeds.2
  refine ⟨out, hout, _, callee_normalized hcallee, ?_⟩
  cases inst? <;> rfl

/-- With sets, an access needs the normal form of what it needed without. -/
theorem staticNeeds_normalized {site : ItemId × Span} (h : (p.staticNeeds .none site).Finds ns) :
    (p.staticNeeds unused site).Finds (ns.map (p.normalizedNeed unused)) := by
  obtain ⟨inst, hinst, rfl⟩ := finds_staticNeeds.1 h
  obtain ⟨hlen, rfl⟩ := (instantiate_eq_ok_iff p .none).1 hinst
  apply finds_staticNeeds.2
  refine ⟨_, (instantiate_eq_ok_iff p unused).2 ⟨hlen, rfl⟩, ?_⟩
  -- the instance that is made from normalized arguments is the normalized instance
  rw [← p.normalized_instanceWith unused]
  rfl

/-- With sets, a slot of a vtable needs the normal form of what it needed without. -/
theorem methodNeeds_normalized {concrete : Ty} {span : Span} {method : ItemId}
    (h : (p.methodNeeds .none concrete span method).Finds ns) :
    (p.methodNeeds unused concrete span method).Finds (ns.map (p.normalizedNeed unused)) := by
  apply finds_methodNeeds.2
  -- the method that is found does not depend on which parameters are unused
  obtain ⟨hvirtual, rfl⟩ | ⟨target, targetArgs, inst, hres, hshim, rfl⟩ := finds_methodNeeds.1 h
  · exact .inl ⟨hvirtual, rfl⟩
  · obtain ⟨hlen, rfl⟩ := vtableShim_eq_ok_iff.1 hshim
    right
    refine ⟨target, targetArgs, _, hres, vtableShim_eq_ok_iff.2 ⟨hlen, rfl⟩, ?_⟩
    rw [← p.normalized_vtableShim unused]
    rfl

/-- With sets, a vtable needs the normal form of what it needed without. -/
theorem objectNeeds_normalized {source target : Ty} {span : Span}
    (h : (p.objectNeeds .none source target span).Finds ns) :
    (p.objectNeeds unused source target span).Finds (ns.map (p.normalizedNeed unused)) := by
  unfold objectNeeds at h ⊢
  split at h
  · obtain ⟨ms, hms, rfl⟩ := finds_vtableNeeds.1 h
    apply finds_vtableNeeds.2
    exact ⟨_, hms.gather_map fun method _ _ hm => methodNeeds_normalized hm, rfl⟩
  · obtain rfl := Needs.finds_empty.1 h
    exact Needs.finds_empty.2 rfl

/-- Drop glue needs the normal form of the drop method that it calls. -/
theorem glueNeeds_normalized {inst : Instance} {t : Ty}
    (h : (p.glueNeeds .none inst t).Finds ns) :
    (p.glueNeeds unused inst t).Finds (ns.map (p.normalizedNeed unused)) := by
  -- a type whose glue is asked for is left as it is
  have hchildren : ∀ ts : List Ty,
      (ts.map fun c => Need.glue c .drop .dummy).map (p.normalizedNeed unused) =
        ts.map fun c => Need.glue c .drop .dummy := by
    intro ts
    rw [List.map_map]
    rfl
  obtain ⟨parts, hparts, h⟩ := finds_glueNeeds.1 h
  apply finds_glueNeeds.2
  refine ⟨parts, hparts, ?_⟩
  obtain ⟨hmethod, rfl⟩ | ⟨method, args, target, hmethod, hinst, rfl⟩ := h
  · exact .inl ⟨hmethod, hchildren _⟩
  · obtain ⟨hlen, rfl⟩ := (instantiate_eq_ok_iff p .none).1 hinst
    right
    refine ⟨method, args, _, hmethod, (instantiate_eq_ok_iff p unused).2 ⟨hlen, rfl⟩, ?_⟩
    rw [List.map_cons, hchildren, ← p.normalized_instanceWith unused]
    rfl

/-- The entry of a vtable needs the normal form of its method. -/
theorem shimNeeds_normalized {i : ItemId} {args : Args}
    (h : (p.needs .none ⟨.vtableShim i, args⟩).Finds ns) :
    (p.needs unused ⟨.vtableShim i, (p.item i).generics.normalize (unused i) args⟩).Finds
      (ns.map (p.normalizedNeed unused)) := by
  obtain ⟨target, hinst, rfl⟩ := finds_shim.1 h
  obtain ⟨hlen, rfl⟩ := (instantiate_eq_ok_iff p .none).1 hinst
  apply finds_shim.2
  refine ⟨_, (instantiate_eq_ok_iff p unused).2 ⟨?_, rfl⟩, ?_⟩
  · rw [Generics.length_normalize, hlen]
  · -- the arguments are normalized already
    have hsame : p.instanceWith (unused i) i ((p.item i).generics.normalize (unused i) args) =
        p.instanceWith (unused i) i args := by
      rw [instanceWith, instanceWith, Generics.normalize_normalize]
    rw [hsame, ← p.normalized_instanceWith unused]
    rfl

/-- With sets, a body needs the normal form of what it needed without. -/
theorem bodyNeeds_normalized {i : ItemId} {args : Args} {b : Body}
    (h : (p.bodyNeeds .none i args b).Finds ns) :
    (p.bodyNeeds unused i args b).Finds (ns.map (p.normalizedNeed unused)) := by
  obtain ⟨calls, statics, drops, unsizes, hcalls, hstatics, hdrops, hunsizes, rfl⟩ :=
    finds_bodyNeeds.1 h
  -- Each of the four scans goes site by site, and no site is asked in another way.
  have hcalls : (Needs.gather (p.callNeeds unused args) b.calls).Finds
      (calls.map (p.normalizedNeed unused)) :=
    hcalls.gather_map fun _ _ _ h => callNeeds_normalized h
  have hstatics : (Needs.gather (p.staticNeeds unused) b.statics).Finds
      (statics.map (p.normalizedNeed unused)) :=
    hstatics.gather_map fun _ _ _ h => staticNeeds_normalized h
  have hdrops : (Needs.gather (p.dropNeeds i args) b.drops).Finds
      (drops.map (p.normalizedNeed unused)) := by
    apply hdrops.gather_map
    intro site _ ms hms
    obtain ⟨t, ht, rfl⟩ := finds_dropNeeds.1 hms
    exact finds_dropNeeds.2 ⟨t, ht, rfl⟩
  have hunsizes : (Needs.gather (p.unsizeNeeds unused i args) b.unsizes).Finds
      (unsizes.map (p.normalizedNeed unused)) := by
    apply hunsizes.gather_map
    intro site _ ms hms
    obtain ⟨source, hsource, target, htarget, hms⟩ := finds_unsizeNeeds.1 hms
    exact finds_unsizeNeeds.2 ⟨source, hsource, target, htarget, objectNeeds_normalized hms⟩
  apply finds_bodyNeeds.2
  refine ⟨_, _, _, _, hcalls, hstatics, hdrops, hunsizes, ?_⟩
  simp only [List.map_append]

/-- What an instance needs when nothing is normalized, its normal form needs in normal form: the
    instances that are made are normalized, and the body does not see that its own arguments are. -/
theorem finds_normalized {a : Analyzer} (hfresh : ∀ i, a.known.get? i = none) {inst : Instance}
    (hkinds : ∀ i, inst.item? = some i → inst.args.HasKinds (p.item i).generics)
    (h : (p.needs .none inst).Finds ns) :
    (p.needs (a.unused p) (p.normalized (a.unused p) inst)).Finds
      (ns.map (p.normalizedNeed (a.unused p))) := by
  obtain ⟨what, args⟩ := inst
  -- The scan with sets starts from arguments in normal form, which agree with the given ones
  -- wherever the body looks.
  have body : ∀ i, what = .item i ∨ what = .static i → args.HasKinds (p.item i).generics →
      (p.needs (a.unused p) ⟨what, (p.item i).generics.normalize (a.unused p i) args⟩).Finds
        (ns.map (p.normalizedNeed (a.unused p))) := by
    intro i hwhat hkinds
    obtain ⟨b, hb, h⟩ := (finds_item hwhat).1 h
    have h : (p.bodyNeeds (a.unused p) i args b).Finds (ns.map (p.normalizedNeed (a.unused p))) :=
      bodyNeeds_normalized h
    exact (finds_item hwhat).2 ⟨b, hb, bodyNeeds_of_agree hfresh hb (hkinds.agree_normalize _) h⟩
  cases what with
  | item i => exact body i (.inl rfl) (hkinds i rfl)
  | static i => exact body i (.inr rfl) (hkinds i rfl)
  | dropGlue =>
    rw [normalized_dropGlue]
    simp only [needs] at h ⊢
    split at h
    · exact glueNeeds_normalized h
    · obtain rfl := Needs.finds_empty.1 h
      exact Needs.finds_empty.2 rfl
  | vtableShim i => exact shimNeeds_normalized h

end Program

end Scans

namespace Program

variable {p : Program} {unused : UnusedSets}

/-- Which types need drop has nothing to do with normalization. -/
theorem Settles.normalized {needs : List Need} {ns : List Neighbor} (h : p.Settles needs ns) :
    p.Settles (needs.map (p.normalizedNeed unused)) (ns.map (p.normalizedNeighbor unused)) := by
  -- normalizing changes instances and no type, so the same glue is left out
  induction h with
  | nil => exact .nil
  | use _ ih => exact .use ih
  | object _ ih => exact .object ih
  | harmless hdrops _ ih => exact .harmless hdrops ih
  | glue hne hdrops _ ih => exact .glue hne hdrops ih

section Needed

variable (hacyclic : p.ByValueAcyclic) {a : Analyzer} (hfresh : ∀ i, a.known.get? i = none)

include hacyclic hfresh

/-- With sets, an instance in normal form finds the normal form of its neighbours. -/
theorem Scans.normalized {inst : Instance} {ns : List Neighbor}
    (hkinds : ∀ i, inst.item? = some i → inst.args.HasKinds (p.item i).generics)
    (h : p.Scans .none inst ns) :
    p.Scans (a.unused p) (p.normalized (a.unused p) inst)
      (ns.map (p.normalizedNeighbor (a.unused p))) := by
  rw [scans_iff hacyclic] at h ⊢
  obtain ⟨hfail, hsettles⟩ := h
  obtain ⟨hfail', hfound⟩ := finds_normalized hfresh hkinds (Needs.finds_found hfail)
  rw [hfound]
  exact ⟨hfail', hsettles.normalized⟩

variable {roots roots' : List Instance}
  (hroots : roots' = roots.map (p.normalized (a.unused p)))
  (hkinds : ∀ inst i, p.Needed .none roots inst → inst.item? = some i →
    inst.args.HasKinds (p.item i).generics)

include hroots hkinds

/-- What is needed without sets is needed with them in normal form. -/
theorem Needed.normalized {inst : Instance} (h : p.Needed .none roots inst) :
    p.Needed (a.unused p) roots' (p.normalized (a.unused p) inst) := by
  -- On the way from a root each step is a scan, and both ends are taken to normal form.
  induction h with
  | root hroot =>
    apply Needed.root
    rw [hroots]
    exact List.mem_map_of_mem hroot
  | @neighbor inst ns n hinst hgen hscan hn ih =>
    have hgen : (p.info (p.normalized (a.unused p) inst)).isGenerated = true := by
      rw [info_normalized]
      exact hgen
    have hscan := hscan.normalized hacyclic hfresh fun i => hkinds inst i hinst
    exact ih.neighbor hgen hscan (List.mem_map_of_mem hn)

variable (hscans : ∀ inst, p.Needed .none roots inst → (p.info inst).isGenerated = true →
  ∃ ns, p.Scans .none inst ns)

include hscans

/-- Nothing is needed in normal form that is not needed without normalization. -/
theorem needed_normalized_iff {inst : Instance} : p.Needed (a.unused p) roots' inst ↔
    ∃ inst', p.Needed .none roots inst' ∧ p.normalized (a.unused p) inst' = inst := by
  constructor
  · intro h
    induction h with
    | root hroot =>
      rw [hroots] at hroot
      obtain ⟨inst', hinst, rfl⟩ := List.mem_map.1 hroot
      exact ⟨inst', .root hinst, rfl⟩
    | @neighbor inst ns n _ hgen hscan hn ih =>
      obtain ⟨inst', hinst, rfl⟩ := ih
      rw [info_normalized] at hgen
      obtain ⟨ns', hscan'⟩ := hscans inst' hinst hgen
      -- the scan of the normal form is the normal form of the scan
      have hsame := hscan.inj hacyclic
        (hscan'.normalized hacyclic hfresh fun i => hkinds inst' i hinst)
      rw [hsame] at hn
      obtain ⟨n', hn', rfl⟩ := List.mem_map.1 hn
      exact ⟨n'.inst, hinst.neighbor hgen hscan' hn', rfl⟩
  · rintro ⟨inst', hinst, rfl⟩
    exact hinst.normalized hacyclic hfresh hroots hkinds

/-- The uses in normal form are the normal forms of the uses without normalization. -/
theorem neededUse_normalized_iff {x y : Instance} {kind : UseKind} :
    p.NeededUse (a.unused p) roots' x y kind ↔ ∃ x' y', p.NeededUse .none roots x' y' kind ∧
      p.normalized (a.unused p) x' = x ∧ p.normalized (a.unused p) y' = y := by
  constructor
  · intro h
    obtain ⟨hneeded, hgen, ns, hscan, n, hn, hy, hkind⟩ := h
    obtain ⟨x', hx, rfl⟩ :=
      (needed_normalized_iff hacyclic hfresh hroots hkinds hscans).1 hneeded
    rw [info_normalized] at hgen
    obtain ⟨ns', hscan'⟩ := hscans x' hx hgen
    -- again the two scans are the same but for normalization
    have hsame := hscan.inj hacyclic
      (hscan'.normalized hacyclic hfresh fun i => hkinds x' i hx)
    rw [hsame] at hn
    obtain ⟨n', hn', rfl⟩ := List.mem_map.1 hn
    exact ⟨x', n'.inst, ⟨hx, hgen, ns', hscan', n', hn', rfl, hkind⟩, rfl, hy⟩
  · intro h
    obtain ⟨x', y', ⟨hneeded, hgen, ns, hscan, n, hn, rfl, hkind⟩, rfl, rfl⟩ := h
    have hgen' : (p.info (p.normalized (a.unused p) x')).isGenerated = true := by
      rw [info_normalized]
      exact hgen
    exact ⟨hneeded.normalized hacyclic hfresh hroots hkinds, hgen', _,
      hscan.normalized hacyclic hfresh fun i => hkinds x' i hneeded,
      _, List.mem_map_of_mem hn, rfl, hkind⟩

end Needed

/-- Normal forms meet no limit that was not met without normalization. -/
theorem within_normalized {config : Config} {inst : Instance} (h : config.Within inst) :
    config.Within (p.normalized unused inst) :=
  ⟨Nat.le_trans (p.nodeCount_normalized_le unused inst) h.1,
    Nat.le_trans (p.nesting_normalized_le unused inst) h.2⟩

/-- If a walk that leaves all arguments as they are ends without errors, the needed normal forms are
    within the limits, and their scans succeed. -/
theorem Needed.within_of_complete (hacyclic : p.ByValueAcyclic) {a : Analyzer}
    (hfresh : ∀ i, a.known.get? i = none) {config : Config} {roots roots' : List Instance}
    (hroots : roots' = roots.map (p.normalized (a.unused p)))
    (hkinds : ∀ inst i, p.Needed .none roots inst → inst.item? = some i →
      inst.args.HasKinds (p.item i).generics)
    {w : Walk} (hw : Walk.Complete p config .none roots w) {inst : Instance}
    (h : p.Needed (a.unused p) roots' inst) : config.Within inst ∧
      ((p.info inst).isGenerated = true → ∃ ns, p.Scans (a.unused p) inst ns) := by
  -- the instance stands for one of the full walk, and has its bounds and its scan
  obtain ⟨inst', hinst', rfl⟩ := (needed_normalized_iff hacyclic hfresh hroots hkinds
    fun inst hneeded => (hw.within_of_needed hacyclic hneeded).2).1 h
  obtain ⟨hwithin, hscans⟩ := hw.within_of_needed hacyclic hinst'
  refine ⟨within_normalized hwithin, ?_⟩
  intro hgen
  rw [info_normalized] at hgen
  obtain ⟨ns, hscan⟩ := hscans hgen
  exact ⟨_, hscan.normalized hacyclic hfresh fun i => hkinds inst' i hinst'⟩

/-- The roots of the second collection are the normal forms of those of the first. -/
theorem roots_normalized (p : Program) (unused : UnusedSets) (config : Config) :
    p.roots unused config = (p.roots .none config).map (p.normalized unused) := by
  unfold roots
  rw [List.map_map]
  apply List.map_congr_left
  intro i _
  exact (p.normalized_instanceWith unused i []).symm

/-! ## The main result -/

/-- Normalization only merges instances: if a program has a collection without it, it has one with
    it unless two instances have one symbol. The instances are the normal forms of those collected
    without normalization, and so are the users and the used. -/
theorem collect_normalized (hacyclic : p.ByValueAcyclic) {config : Config} {fuel : Nat}
    {r : CollectResult} {c : Collection}
    (h : p.collect { config with polymorphize := false } { enabled := false } fuel = some r)
    (hc : r.outcome = .ok c)
    (hkinds : ∀ inst i, c.contains inst = true → inst.item? = some i →
      inst.args.HasKinds (p.item i).generics) :
    ∃ r' enough, (∀ fuel, enough ≤ fuel →
        p.collect { config with polymorphize := true } { enabled := true } fuel = some r') ∧
      ((∃ s t u, r'.outcome = .error [.symbolClash s t u]) ∨ ∃ c', r'.outcome = .ok c' ∧
        (∀ inst, c'.contains inst = true ↔ ∃ inst', c.contains inst' = true ∧
          p.normalized (Analyzer.unused { enabled := true } p) inst' = inst) ∧
        ∀ a b kind, c'.Uses a b kind ↔ ∃ a' b', c.Uses a' b' kind ∧
          p.normalized (Analyzer.unused { enabled := true } p) a' = a ∧
          p.normalized (Analyzer.unused { enabled := true } p) b' = b) := by
  have hfresh : ∀ i, ({ enabled := true } : Analyzer).known.get? i = none := fun _ => rfl
  -- of the second analyzer nothing else is needed
  generalize ({ enabled := true } : Analyzer) = a at hfresh ⊢
  obtain ⟨hw, hfinish⟩ := complete_of_collect hacyclic h hc
  rw [Analyzer.unused_of_disabled] at hw hfinish
  have hexact := hw.isExact hfinish hacyclic
  have hkinds : ∀ inst i, p.Needed .none (p.roots .none config) inst → inst.item? = some i →
      inst.args.HasKinds (p.item i).generics := by
    intro inst i hneeded
    exact hkinds inst i ((hexact.contains_iff inst).2 hneeded)
  have hscans : ∀ inst, p.Needed .none (p.roots .none config) inst →
      (p.info inst).isGenerated = true → ∃ ns, p.Scans .none inst ns :=
    fun inst hneeded => (hw.within_of_needed hacyclic hneeded).2
  have hroots := p.roots_normalized (a.unused p) config
  -- the second walk ends without errors as well
  have hnormal : ∀ inst, p.Needed (a.unused p) (p.roots (a.unused p) config) inst →
      config.Within inst ∧
        ((p.info inst).isGenerated = true → ∃ ns, p.Scans (a.unused p) inst ns) :=
    fun inst hinst => hinst.within_of_complete hacyclic hfresh hroots hkinds hw
  obtain ⟨w, enough, hw', hcollect⟩ :=
    @exists_complete p { config with polymorphize := true } hacyclic a
      (fun inst hinst => (hnormal inst hinst).1) (fun inst hinst => (hnormal inst hinst).2)
  refine ⟨_, enough, hcollect, ?_⟩
  obtain hclash | ⟨c', hc'⟩ := Walk.finish_cases (p.roots (a.unused p) config)
    (p.rootWarnings config.mode) hw'.fatal hw'.errors
  · exact .inl hclash
  · -- both collections are exact, so what is said of needed instances is said of nodes and edges
    have hexact' := hw'.isExact hc' hacyclic
    refine .inr ⟨c', hc', ?_, ?_⟩
    · intro inst
      rw [hexact'.contains_iff]
      simp only [hexact.contains_iff]
      exact needed_normalized_iff hacyclic hfresh hroots hkinds hscans
    · intro x y kind
      rw [hexact'.uses_iff hacyclic]
      simp only [hexact.uses_iff hacyclic]
      exact neededUse_normalized_iff hacyclic hfresh hroots hkinds hscans

/-- The sample program has a collection without normalization, with arguments of the declared
    sorts, and one with it, where two instances have become one. -/
theorem collect_normalized_sample : ∃ r c,
    sample.collect { polymorphize := false } { enabled := false } 20 = some r ∧
      r.outcome = .ok c ∧ ∃ r' c' enough, (∀ fuel, enough ≤ fuel →
        sample.collect { polymorphize := true } { enabled := true } fuel = some r') ∧
      r'.outcome = .ok c' ∧
        (∀ inst, c'.contains inst = true ↔ ∃ inst', c.contains inst' = true ∧
          sample.normalized (Analyzer.unused { enabled := true } sample) inst' = inst) ∧
        (∀ a b kind, c'.Uses a b kind ↔ ∃ a' b', c.Uses a' b' kind ∧
          sample.normalized (Analyzer.unused { enabled := true } sample) a' = a ∧
          sample.normalized (Analyzer.unused { enabled := true } sample) b' = b) ∧
        c.contains ⟨.item 2, [.ty (.adt 3 [])]⟩ = true ∧
        c.contains ⟨.item 2, [.ty (.prim .u8)]⟩ = true ∧
        c'.contains ⟨.item 2, [.ty (.param 0)]⟩ = true := by
  obtain ⟨r, c, hr, hc, hseen⟩ :=
    @exists_outcome sample { polymorphize := false } { enabled := false } 20 (fun r =>
      (r.walk.records.all fun s => s.inst.item?.all fun i =>
        decide (s.inst.args.HasKinds (sample.item i).generics)) &&
      decide (∀ inst ∈ [(⟨.item 2, [.ty (.adt 3 [])]⟩ : Instance),
        ⟨.item 2, [.ty (.prim .u8)]⟩], inst ∈ r.walk.records.map Record.inst))
      (by decide +kernel)
  obtain ⟨hkinds, hinsts⟩ := Bool.and_eq_true_iff.1 hseen
  have hcontains : ∀ inst ∈ [(⟨.item 2, [.ty (.adt 3 [])]⟩ : Instance),
      ⟨.item 2, [.ty (.prim .u8)]⟩], c.contains inst = true := fun inst hinst =>
    (contains_iff_exists_record hr hc).2 (List.mem_map.1 (of_decide_eq_true hinsts inst hinst))
  obtain ⟨r', enough, hcollect, houtcome⟩ :=
    @collect_normalized sample acyclic_sample {} 20 r c hr hc (by
      intro inst i hinst hitem
      obtain ⟨s, hs, rfl⟩ := (contains_iff_exists_record hr hc).1 hinst
      have hs := List.all_eq_true.1 hkinds s hs
      rw [hitem] at hs
      exact of_decide_eq_true hs)
  -- with enough fuel the second walk is the one that is known to end well
  obtain ⟨r₂, c', hr₂, hc', -⟩ := exists_collection_sample
  have hr' := hcollect _ (Nat.le_max_left enough 20)
  obtain rfl := Option.some.inj (hr'.symm.trans (collect_mono (Nat.le_max_right enough 20) hr₂))
  obtain ⟨s, t, u, hclash⟩ | ⟨c₂, hc₂, hinsts', huses'⟩ := houtcome
  · exact nomatch hc'.symm.trans hclash
  · obtain rfl := Except.ok.inj (hc'.symm.trans hc₂)
    have hguard := hcontains ⟨.item 2, [.ty (.adt 3 [])]⟩ (by simp)
    have hu8 := hcontains ⟨.item 2, [.ty (.prim .u8)]⟩ (by simp)
    have hnormal : sample.normalized (Analyzer.unused { enabled := true } sample)
        ⟨.item 2, [.ty (.prim .u8)]⟩ = ⟨.item 2, [.ty (.param 0)]⟩ := by decide +kernel
    exact ⟨r, c, hr, hc, r', c', enough, hcollect, hc', hinsts', huses', hguard, hu8,
      (hinsts' _).2 ⟨_, hu8, hnormal⟩⟩

end Program

end Monomorph
