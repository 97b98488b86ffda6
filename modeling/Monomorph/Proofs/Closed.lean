import Monomorph.Proofs.Exactness
import Monomorph.Proofs.Normalize
import Monomorph.Proofs.Unused

/-!
# No parameter leaks into generated code

Whatever instance a walk claims, each of its slots mentions no parameter, or it is the placeholder
of its own parameter and the analyzer says that this parameter is unused (`Instance.Settled`). The
types of drop glue mention nothing at all. Placeholders are put in by normalization only, and what
the analysis says of a body keeps them out of everything that the body needs; the one way through
is an argument for a closure, and that is cleaned when the closure itself is normalized.
-/

namespace Monomorph

/-- A type that mentions no parameter has slots that mention none. -/
theorem hereditary_closed : Hereditary fun a => a.mentioned = [] := by
  intro t ht a ha
  rw [List.eq_nil_iff_forall_not_mem] at ht ⊢
  intro m hm
  -- what a slot mentions, the layer around it does
  apply ht m
  have hlayer : m ∈ (Ty.of t.node).mentions := Ty.mem_mentions_of.2 (.inr ⟨a, ha, hm⟩)
  rwa [Ty.of_node] at hlayer

/-- Putting arguments that mention nothing into a type leaves nothing mentioned. -/
theorem Ty.closed_subst {args : Args} {t u : Ty} (h : t.subst args = .ok u)
    (hclosed : ∀ m ∈ t.mentions, ∀ a, args[m.2]? = some a → a.mentioned = []) :
    u.mentions = [] := by
  rw [List.eq_nil_iff_forall_not_mem]
  intro m hm
  obtain ⟨q, hq, a, ha, hma⟩ := (mem_mentions_subst h).1 hm
  rw [hclosed q hq a ha] at hma
  exact nomatch hma

/-- Whether every slot of an instance mentions no parameter, or is the placeholder of a parameter
    that the instance's item does not use; for drop glue only the former. -/
structure Instance.Settled (p : Program) (unused : UnusedSets) (inst : Instance) : Prop where
  slot : ∀ j a, inst.args[j]? = some a → a.mentioned = [] ∨ ∃ i param, inst.item? = some i ∧
    (p.item i).generics.params[j]? = some param ∧ a = param.kind.placeholder j ∧
      (unused i).contains j = true
  glue : inst.what = .dropGlue → ∃ t, inst.args = [.ty t] ∧ t.mentions = []

namespace Program

variable {p : Program} {unused : UnusedSets} {inst : Instance}

/-! ## What is made of closed arguments -/

/-- Glue of a closed type is settled. -/
private theorem settled_glue {t : Ty} (ht : t.mentions = []) :
    (Instance.glue t).Settled p unused where
  slot j a ha := by
    have ha : a ∈ [Arg.ty t] := List.mem_of_getElem? ha
    rw [List.mem_singleton.1 ha]
    exact .inl ht
  glue _ := ⟨t, rfl, ht⟩

/-- Normalization settles arguments whose used slots mention nothing. -/
private theorem settled_normalize {what : InstanceDef} {i : ItemId} {args : Args}
    (hwhat : what.item? = some i) (hlength : args.length = (p.item i).generics.count)
    (hargs : ∀ j a, args[j]? = some a → a.mentioned = [] ∨ (unused i).contains j = true) :
    Instance.Settled p unused ⟨what, (p.item i).generics.normalize (unused i) args⟩ where
  slot j a ha := by
    have ha : ((p.item i).generics.normalize (unused i) args)[j]? = some a := ha
    cases hused : (unused i).contains j with
    | false =>
      -- a used slot is left as it is
      rw [Generics.getElem?_normalize_of_used hused] at ha
      obtain h | h := hargs j a ha
      · exact .inl h
      · exact nomatch hused.symm.trans h
    | true =>
      -- an unused slot has its own placeholder
      have hlt : j < args.length := by
        have := (List.getElem?_eq_some_iff.1 ha).1
        rwa [Generics.length_normalize] at this
      obtain ⟨param, hparam⟩ : ∃ param, (p.item i).generics.params[j]? = some param :=
        ⟨_, List.getElem?_eq_getElem (Nat.lt_of_lt_of_eq hlt hlength)⟩
      rw [Generics.getElem?_normalize_of_unused hused hparam hlt] at ha
      exact .inr ⟨i, _, hwhat, hparam, (Option.some.inj ha).symm, hused⟩
  glue h := by
    have h : what = .dropGlue := h
    rw [h] at hwhat
    exact nomatch hwhat

/-- An instance of an item with closed arguments is settled. -/
private theorem settled_instanceWith {i : ItemId} {args : Args}
    (hlength : args.length = (p.item i).generics.count)
    (hargs : ∀ a ∈ args, a.mentioned = []) :
    (p.instanceWith (unused i) i args).Settled p unused :=
  settled_normalize (item?_instanceDef i) hlength fun _ _ ha =>
    .inl (hargs _ (List.mem_of_getElem? ha))

/-- A field with closed arguments put in is closed. -/
private theorem closed_field (i : ItemId) (fields : List Ty) (args : Args) (f u : Ty)
    (_ : (p.item i).kind = .adt fields) (_ : f ∈ fields) (hargs : ∀ a ∈ args, a.mentioned = [])
    (h : f.subst args = .ok u) : u.mentions = [] :=
  Ty.closed_subst h fun _ _ a ha => hargs a (List.mem_of_getElem? ha)

/-- Settled glue is for a closed type. -/
private theorem closed_of_glueTy? (h : inst.Settled p unused) {t : Ty}
    (ht : inst.glueTy? = some t) : t.mentions = [] := by
  unfold Instance.glueTy? at ht
  split at ht
  · next hwhat =>
    obtain ⟨u, hu, hclosed⟩ := h.glue hwhat
    rw [hu] at ht
    obtain rfl := Option.some.inj ht
    exact hclosed
  · exact nomatch ht

/-! ## What a settled instance requires -/

section Requires

variable {a : Analyzer} {i : ItemId} {b : Body}

/-- What the body does not leave unused is closed in a settled instance. -/
private theorem closed_of_used (h : inst.Settled p (a.unused p))
    (hwhat : inst.what = .item i ∨ inst.what = .static i) {k : Nat}
    (hk : (a.unused p i).contains k = false) {arg : Arg Ty} (harg : inst.args[k]? = some arg) :
    arg.mentioned = [] := by
  have hitem : inst.item? = some i := by
    obtain h | h := hwhat <;> rw [Instance.item?, h] <;> rfl
  -- a slot of a settled instance is closed or the placeholder of an unused parameter
  obtain h | ⟨j, param, hj, -, -, hcontains⟩ := h.slot k arg harg
  · exact h
  · obtain rfl := Option.some.inj (hitem.symm.trans hj)
    rw [hk] at hcontains
    cases hcontains

/-- The arguments of a call, for a settled instance, mention nothing but in slots that the callee
    leaves unused, and in those only if the callee is a closure. -/
private theorem closed_callArgs (hknown : ∀ i, a.known.get? i = none)
    (h : inst.Settled p (a.unused p)) (hwhat : inst.what = .item i ∨ inst.what = .static i)
    (hb : (p.item i).body = some b) {site : CallSite} (hsite : site ∈ b.calls) {callArgs : Args}
    (hargs : inst.args.subst site.args = .ok callArgs) {j : Nat} {arg : Arg Ty}
    (harg : callArgs[j]? = some arg) : arg.mentioned = [] ∨
      (p.item site.callee).kind = .closure ∧ (a.unused p site.callee).contains j = true := by
  have hslots := Args.subst_eq_ok_iff.1 hargs
  obtain ⟨arg₀, harg₀, hsub⟩ := forall₂_exists_getElem? hslots.flip harg
  by_cases hclosure : (p.item site.callee).kind = .closure ∧
      (a.unused p site.callee).contains j = true
  · exact .inr hclosure
  · left
    rw [List.eq_nil_iff_forall_not_mem]
    intro m hm
    obtain ⟨q, hq, arg', harg', hm⟩ := (Arg.mem_mentioned_subst hsub).1 hm
    -- whatever the argument mentions is used, so the slot put there mentions nothing
    obtain hused | hskip := Analyzer.used_of_call (hknown i) hb hsite harg₀ hq
    · rw [closed_of_used h hwhat hused harg'] at hm
      exact nomatch hm
    · exact hclosure hskip

/-- Whatever a settled instance requires is settled: an instance, or a type whose glue is asked
    for. -/
theorem settled_of_requires (hknown : ∀ i, a.known.get? i = none)
    (h : inst.Settled p (a.unused p)) {need : Need} (hneed : p.Requires (a.unused p) inst need) :
    (∀ n, need = .use n → n.inst.Settled p (a.unused p)) ∧
      ∀ t kind span, need = .glue t kind span → t.mentions = [] := by
  have hcandidates : ∀ {t : Ty} {parts : DropParts}, inst.glueTy? = some t →
      p.glueCandidates t = .ok parts → (∀ c ∈ parts.children, c.mentions = []) ∧
        ∀ m margs, parts.method = some (m, margs) →
          (∃ i, p.dropMethod? i = some m) ∧ ∀ arg ∈ margs, arg.mentioned = [] :=
    fun ht hparts =>
      glueCandidates_all hereditary_closed closed_field hparts (closed_of_glueTy? h ht)
  have hsource : ∀ {i : ItemId} {b : Body} {s t s' : Ty} {span : Span},
      inst.what = .item i ∨ inst.what = .static i → (p.item i).body = some b →
      (s, t, span) ∈ b.unsizes → s.subst inst.args = .ok s' → s'.mentions = [] := by
    intro i b s t s' span hwhat hb hsite hs
    apply Ty.closed_subst hs
    intro m hm arg harg
    exact closed_of_used h hwhat (Analyzer.used_of_unsize (hknown i) hb hsite (.inl hm)) harg
  cases hneed with
  | @call i b site callArgs targetArgs target hwhat hb hsite hargs hres hlength =>
    refine ⟨fun n hn => ?_, fun t kind span hn => nomatch hn⟩
    obtain rfl := Need.use.inj hn
    by_cases hclosure : (p.item site.callee).kind = .closure
    · -- a closure is called as it is, and its own normalization puts the placeholders in
      have hself := @resolve_of_not_traitMethod p site.callee callArgs
        fun trait htrait => nomatch hclosure.symm.trans htrait
      obtain ⟨rfl, rfl⟩ := Resolution.item.inj (hself.symm.trans hres)
      refine settled_normalize (item?_instanceDef _) hlength fun j arg harg => ?_
      exact (closed_callArgs hknown h hwhat hb hsite hargs harg).imp_right And.right
    · refine settled_instanceWith hlength (resolve_args hereditary_closed hres fun arg harg => ?_)
      obtain ⟨j, hj⟩ := List.mem_iff_getElem?.1 harg
      obtain hclosed | hskip := closed_callArgs hknown h hwhat hb hsite hargs hj
      · exact hclosed
      · exact absurd hskip.1 hclosure
  | static hwhat hb hsite hlength =>
    refine ⟨fun n hn => ?_, fun t kind span hn => nomatch hn⟩
    obtain rfl := Need.use.inj hn
    exact settled_instanceWith hlength fun arg harg => nomatch harg
  | drop hwhat hb hsite hsub =>
    refine ⟨(fun n hn => nomatch hn), fun t kind span hn => ?_⟩
    obtain ⟨rfl, -, -⟩ := Need.glue.inj hn
    apply Ty.closed_subst hsub
    intro m hm arg harg
    exact closed_of_used h hwhat (Analyzer.used_of_drop (hknown _) hb hsite hm) harg
  | object hwhat hb hsite hs ht hparts =>
    refine ⟨(fun n hn => nomatch hn), fun t kind span hn => ?_⟩
    obtain ⟨rfl, -, -⟩ := Need.glue.inj hn
    exact unsizeParts_source hereditary_closed hparts (hsource hwhat hb hsite hs)
  | entry hwhat hb hsite hs ht hparts hmethod hres hlength =>
    refine ⟨fun n hn => ?_, fun t kind span hn => nomatch hn⟩
    obtain rfl := Need.use.inj hn
    have hconcrete := unsizeParts_source hereditary_closed hparts (hsource hwhat hb hsite hs)
    have hargs := resolve_args hereditary_closed hres (List.forall_mem_singleton.2 hconcrete)
    exact settled_normalize rfl hlength fun _ _ harg =>
      .inl (hargs _ (List.mem_of_getElem? harg))
  | dropMethod ht hparts hmethod hlength =>
    refine ⟨fun n hn => ?_, fun t kind span hn => nomatch hn⟩
    obtain rfl := Need.use.inj hn
    exact settled_instanceWith hlength ((hcandidates ht hparts).2 _ _ hmethod).2
  | part ht hparts hc =>
    refine ⟨(fun n hn => nomatch hn), fun t kind span hn => ?_⟩
    obtain ⟨rfl, -, -⟩ := Need.glue.inj hn
    exact (hcandidates ht hparts).1 _ hc
  | @shim i hwhat hlength =>
    refine ⟨fun n hn => ?_, fun t kind span hn => nomatch hn⟩
    obtain rfl := Need.use.inj hn
    -- the shim is for the same item, so its placeholders stand in slots that are unused again
    refine settled_normalize (item?_instanceDef _) hlength fun j arg harg => ?_
    have hitem : inst.item? = some i := by
      rw [Instance.item?, hwhat]
      rfl
    obtain hclosed | ⟨k, -, hk, -, -, hcontains⟩ := h.slot j arg harg
    · exact .inl hclosed
    · obtain rfl := Option.some.inj (hitem.symm.trans hk)
      exact .inr hcontains

end Requires

/-! ## What is reached -/

variable {a : Analyzer} {M : DropMemo → Prop} {config : Config}

/-- Every neighbor of a settled instance is settled. -/
theorem settled_of_neighborFrom (hknown : ∀ i, a.known.get? i = none) {b : Instance}
    (h : inst.Settled p (a.unused p)) (hb : p.NeighborFrom (a.unused p) M inst b) :
    b.Settled p (a.unused p) := by
  obtain ⟨-, ns, hscan, n, hn, rfl⟩ := hb
  obtain hreq | ⟨t, hreq, hglue⟩ := hscan.requires hn
  · exact (settled_of_requires hknown h hreq).1 n rfl
  · rw [hglue]
    exact settled_glue ((settled_of_requires hknown h hreq).2 t _ _ rfl)

/-- A root is settled. -/
theorem settled_root {root : Instance} (hroot : root ∈ p.roots unused config) :
    root.Settled p unused := by
  obtain ⟨i, hi, rfl⟩ := List.mem_map.1 hroot
  have hempty := (p.mem_rootItems.1 hi).2.2
  refine settled_instanceWith ?_ fun arg harg => nomatch harg
  rw [Generics.count, List.isEmpty_iff.1 hempty]
  rfl

/-- Every instance that is reached from the roots is settled. -/
theorem settled_of_reachedFrom (hknown : ∀ i, a.known.get? i = none)
    (h : p.ReachedFrom (a.unused p) M config (p.roots (a.unused p) config) inst) :
    inst.Settled p (a.unused p) := by
  obtain ⟨root, hroot, hpath⟩ := h
  induction hpath with
  | refl => exact settled_root hroot
  | tail _ hstep ih => exact settled_of_neighborFrom hknown ih hstep.2

/-- No parameter leaks: with an analyzer that starts from nothing, every instance that a collection
    claims is settled, in whatever order the walk goes, however far it has come, and also where it
    ends in an error. -/
theorem collect_settled (p : Program) (config : Config) (enabled : Bool) :
    (∀ w, Relation.ReflTransGen (Walk.Moves p config (Analyzer.unused { enabled } p))
        (Walk.start p (Analyzer.unused { enabled } p) (p.rootItems config.mode)) w →
      ∀ inst, w.claimed.contains inst = true →
        inst.Settled p (Analyzer.unused { enabled } p)) ∧
    ∀ fuel r, p.collect config { enabled } fuel = some r →
      ∀ inst, r.walk.claimed.contains inst = true →
        inst.Settled p (Analyzer.unused { enabled } p) := by
  -- what is remembered of types does not matter, and so types may lie inside themselves
  have hpreserves : p.Preserves fun _ => True := fun _ _ _ _ _ _ _ => trivial
  have walk : ∀ w, Relation.ReflTransGen (Walk.Moves p config (Analyzer.unused { enabled } p))
      (Walk.start p (Analyzer.unused { enabled } p) (p.rootItems config.mode)) w →
      ∀ inst, w.claimed.contains inst = true → inst.Settled p (Analyzer.unused { enabled } p) := by
    intro w hmoves inst hclaimed
    have hinv := (inv_startWalk trivial (Analyzer.unused { enabled } p)).reach hpreserves hmoves
    exact settled_of_reachedFrom (fun i => UnusedTable.get?_empty i)
      (hinv.reached inst (.inl hclaimed))
  refine ⟨walk, ?_⟩
  intro fuel r hr
  obtain ⟨w, hrun, rfl⟩ := collect_eq_some_iff.1 hr
  exact walk w (Walk.moves_of_run hrun).1

/-- The sample program claims the instance of a function that does not use its parameter. -/
theorem collect_settled_sample : ∃ r, sample.collect {} { enabled := true } 20 = some r ∧
    r.walk.claimed.contains ⟨.item 2, [.ty (.param 0)]⟩ = true ∧
      Instance.Settled sample (Analyzer.unused { enabled := true } sample)
        ⟨.item 2, [.ty (.param 0)]⟩ := by
  -- the walk is run once, and the instance is one of those that it has entered
  have hrun : ((sample.collect {} { enabled := true } 20).any fun r =>
      r.walk.claimed.contains ⟨.item 2, [.ty (.param 0)]⟩) = true := by
    decide +kernel
  obtain ⟨r, hr, hclaimed⟩ := Option.any_eq_true _ _ |>.1 hrun
  exact ⟨r, hr, hclaimed, (collect_settled sample {} true).2 20 r hr _ hclaimed⟩

end Program

end Monomorph
