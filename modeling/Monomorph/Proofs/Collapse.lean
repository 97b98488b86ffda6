import Monomorph.Proofs.Normalize
import Monomorph.Proofs.Scan
import Monomorph.Proofs.Sessions

/-!
# Arguments that make no difference

The instances of an item for two argument lists are one exactly if the lists agree in the slots that
the item uses. That is no loss: the scan of the body sees the arguments only where the body mentions
a parameter, and all that it mentions is used, but for what it hands to a closure inside the item
that does not use it in its turn. Such arguments are gone once the instance of the closure is made.
So a body with arguments that agree in the used slots finds the same, or fails for both.
-/

namespace Monomorph

open Needs

/-! ## What a body makes of its arguments -/

section Site

variable {a : Analyzer} (hfresh : ∀ i, a.known.get? i = none) {p : Program} {i : ItemId} {b : Body}
  (hb : (p.item i).body = some b) {args args' : Args} (hagree : args.Agree (a.unused p i) args')

include hfresh hb hagree

/-- A dropped type is the same for arguments that agree. -/
theorem Ty.subst_of_drop {t u : Ty} {span : Span} (hs : (t, span) ∈ b.drops)
    (h : t.subst args = .ok u) : t.subst args' = .ok u :=
  Ty.subst_congr h fun _ hm => hagree.used _ (Analyzer.used_of_drop (hfresh i) hb hs hm)

/-- So are the types of a coercion. -/
theorem Ty.subst_of_unsize {source target t u : Ty} {span : Span}
    (hs : (source, target, span) ∈ b.unsizes) (ht : t = source ∨ t = target)
    (h : t.subst args = .ok u) : t.subst args' = .ok u := by
  apply Ty.subst_congr h
  intro m hm
  have hm : m ∈ source.mentions ∨ m ∈ target.mentions := by
    obtain rfl | rfl := ht
    · exact .inl hm
    · exact .inr hm
  exact hagree.used _ (Analyzer.used_of_unsize (hfresh i) hb hs hm)

/-- The arguments of a call are the same but for what a closure does not use. -/
theorem Args.subst_of_call {site : CallSite} (hs : site ∈ b.calls) {out : Args}
    (h : args.subst site.args = .ok out) :
    ∃ out', args'.subst site.args = .ok out' ∧ out'.length = out.length ∧
      ∀ j, ((p.item site.callee).kind = .closure →
        (a.unused p site.callee).contains j = false) → out'[j]? = out[j]? := by
  have hslots := Args.subst_eq_ok_iff.1 h
  -- there is a slot of the right sort for every mention, as there was before
  have hexists : ∃ out', args'.subst site.args = .ok out' := by
    apply exists_mapM_eq_ok_iff.2
    intro arg harg
    obtain ⟨out₁, -, hout⟩ := forall₂_exists_right hslots harg
    apply (Arg.subst_isOk_iff arg).2
    intro m hm
    exact hagree.fits m ((Arg.subst_isOk_iff arg).1 ⟨out₁, hout⟩ m hm)
  obtain ⟨out', hout'⟩ := hexists
  have hslots' := Args.subst_eq_ok_iff.1 hout'
  refine ⟨out', hout', hslots'.length_eq.symm.trans hslots.length_eq, ?_⟩
  intro j hj
  cases harg : site.args[j]? with
  | none =>
    -- beyond the arguments of the call neither list has a slot
    have hj := List.getElem?_eq_none_iff.1 harg
    have hlen := hslots.length_eq
    have hlen' := hslots'.length_eq
    rw [List.getElem?_eq_none (by omega), List.getElem?_eq_none (by omega)]
  | some arg =>
    obtain ⟨out₁, hout₁, hsub⟩ := forall₂_exists_getElem? hslots harg
    obtain ⟨out₂, hout₂, hsub'⟩ := forall₂_exists_getElem? hslots' harg
    have hsame : arg.subst args' = .ok out₁ := by
      apply Arg.subst_congr hsub
      intro m hm
      obtain hused | ⟨hclosure, hunused⟩ := Analyzer.used_of_call (hfresh i) hb hs harg hm
      · exact hagree.used _ hused
      · exact nomatch (hj hclosure).symm.trans hunused
    rw [hout₁, hout₂, Except.ok.inj (hsub'.symm.trans hsame)]

namespace Program

/-- A call comes to the same instance. -/
theorem callee_of_call {site : CallSite} (hs : site ∈ b.calls) {out : Args}
    (h : args.subst site.args = .ok out) : ∃ out', args'.subst site.args = .ok out' ∧
      p.callee (a.unused p) site.callee out' = p.callee (a.unused p) site.callee out := by
  obtain ⟨out', hout', hlen, hsame⟩ := Args.subst_of_call hfresh hb hagree hs h
  refine ⟨out', hout', ?_⟩
  by_cases hclosure : (p.item site.callee).kind = .closure
  · -- the arguments differ only where the closure's own normalization makes them equal
    have hresolve : ∀ as, p.resolve site.callee as = .item site.callee as := by
      intro as
      apply resolve_of_not_traitMethod
      intro trait hkind
      exact nomatch hclosure.symm.trans hkind
    have hnormal : (p.item site.callee).generics.normalize (a.unused p site.callee) out' =
        (p.item site.callee).generics.normalize (a.unused p site.callee) out :=
      (Generics.normalize_eq_iff hlen fun j hj =>
        Analyzer.lt_count_of_unused (hfresh site.callee) hj).2 fun j hj => hsame j fun _ => hj
    have hinst : p.instantiate (a.unused p) site.callee out' =
        p.instantiate (a.unused p) site.callee out := by
      simp only [instantiate, checkArity, instanceWith, hlen, hnormal]
    simp only [callee, hresolve, hinst]
  · -- all other callees are called with the same arguments
    have hsame : out' = out := by
      apply List.ext_getElem?
      intro j
      exact hsame j fun h => absurd h hclosure
    rw [hsame]

variable {ns : List Need}

/-- A call site finds the same callee under arguments that agree on what the body uses. -/
theorem callNeeds_of_agree {site : CallSite} (hs : site ∈ b.calls)
    (h : (p.callNeeds (a.unused p) args site).Finds ns) :
    (p.callNeeds (a.unused p) args' site).Finds ns := by
  obtain ⟨out, hout, inst?, hcallee, rfl⟩ := finds_callNeeds.1 h
  obtain ⟨out', hout', hsame⟩ := callee_of_call hfresh hb hagree hs hout
  exact finds_callNeeds.2 ⟨out', hout', inst?, hsame.trans hcallee, rfl⟩

/-- What a body finds with some arguments it finds with all that agree with them. -/
theorem bodyNeeds_of_agree (h : (p.bodyNeeds (a.unused p) i args b).Finds ns) :
    (p.bodyNeeds (a.unused p) i args' b).Finds ns := by
  obtain ⟨calls, statics, drops, unsizes, hcalls, hstatics, hdrops, hunsizes, rfl⟩ :=
    finds_bodyNeeds.1 h
  -- four kinds of sites, each of which substitutes only types that the analysis has seen
  have hcalls := hcalls.gather_congr fun site hs _ h => callNeeds_of_agree hfresh hb hagree hs h
  have hdrops : (gather (p.dropNeeds i args') b.drops).Finds drops := by
    apply hdrops.gather_congr
    intro site hs ms hms
    obtain ⟨t, ht, rfl⟩ := finds_dropNeeds.1 hms
    exact finds_dropNeeds.2 ⟨t, Ty.subst_of_drop hfresh hb hagree hs ht, rfl⟩
  have hunsizes : (gather (p.unsizeNeeds (a.unused p) i args') b.unsizes).Finds unsizes := by
    apply hunsizes.gather_congr
    intro site hs ms hms
    obtain ⟨source, hsource, target, htarget, hms⟩ := finds_unsizeNeeds.1 hms
    have hsource := Ty.subst_of_unsize hfresh hb hagree hs (.inl rfl) hsource
    have htarget := Ty.subst_of_unsize hfresh hb hagree hs (.inr rfl) htarget
    exact finds_unsizeNeeds.2 ⟨source, hsource, target, htarget, hms⟩
  exact finds_bodyNeeds.2 ⟨_, _, _, _, hcalls, hstatics, hdrops, hunsizes, rfl⟩

/-- So does an item. -/
theorem needs_of_agree (h : (p.needs (a.unused p) ⟨p.instanceDef i, args⟩).Finds ns) :
    (p.needs (a.unused p) ⟨p.instanceDef i, args'⟩).Finds ns := by
  have hwhat : p.instanceDef i = .item i ∨ p.instanceDef i = .static i := by
    unfold instanceDef
    split
    · exact .inr rfl
    · exact .inl rfl
  obtain ⟨b', hb', h⟩ := (finds_item hwhat).1 h
  obtain rfl := Option.some.inj (hb.symm.trans hb')
  exact (finds_item hwhat).2 ⟨b, hb, bodyNeeds_of_agree hfresh hb hagree h⟩

end Program

end Site

/-! ## The main result -/

/-- What it means that of two argument lists for an item the used slots alone make a difference. -/
structure Program.Collapses (p : Program) (unused : UnusedSets) (i : ItemId) (args args' : Args) :
    Prop where
  /-- The two instances are one exactly if the lists agree in the used slots. -/
  instance_iff : p.instantiate unused i args = p.instantiate unused i args' ↔
    ∀ k, (unused i).contains k = false → args[k]? = args'[k]?
  /-- If they do, the scan of the body fails for both lists as they are, or returns the same
      neighbors for both, whatever is remembered of types that were classified before. -/
  scans : (∀ k, (unused i).contains k = false → args[k]? = args'[k]?) →
    ((p.needs unused ⟨p.instanceDef i, args⟩).failure.isSome = true ∧
      (p.needs unused ⟨p.instanceDef i, args'⟩).failure.isSome = true) ∨
    ((p.needs unused ⟨p.instanceDef i, args⟩).failure = none ∧
      (p.needs unused ⟨p.instanceDef i, args'⟩).failure = none ∧
      ∀ fuel m, p.settle fuel (p.needs unused ⟨p.instanceDef i, args⟩).found m =
        p.settle fuel (p.needs unused ⟨p.instanceDef i, args'⟩).found m)

namespace Program

/-- Argument lists of the declared sorts have one instance exactly if they agree in the slots that
    the item uses, and then its body has the same neighbors for both. -/
theorem collapses_of_unseeded {p : Program} {a : Analyzer} {enabled : Bool}
    (ha : Analyzer.Extends p { enabled } a) {i : ItemId} {b : Body}
    (hb : (p.item i).body = some b) {args args' : Args}
    (hlen : args.length = (p.item i).generics.count)
    (hlen' : args'.length = (p.item i).generics.count)
    (hkinds : args.HasKinds (p.item i).generics) (hkinds' : args'.HasKinds (p.item i).generics) :
    p.Collapses (a.unused p) i args args' := by
  rw [ha.unused_eq]
  have hfresh : ∀ i, ({ enabled } : Analyzer).known.get? i = none := fun _ => rfl
  generalize ({ enabled } : Analyzer) = a at hfresh ⊢
  constructor
  case instance_iff =>
    rw [← Generics.normalize_eq_iff (hlen.trans hlen'.symm) fun k hk =>
      Analyzer.lt_count_of_unused (hfresh i) hk]
    have hargs := (instantiate_eq_ok_iff p (a.unused p)).2 ⟨hlen, rfl⟩
    have hargs' := (instantiate_eq_ok_iff p (a.unused p)).2 ⟨hlen', rfl⟩
    rw [hargs, hargs']
    simp only [instanceWith, Except.ok.injEq, Instance.mk.injEq, true_and]
  case scans =>
    intro h
    have hagree := hkinds.agree hlen hkinds' hlen' fun k hk => (h k hk).symm
    have hagree' := hkinds'.agree hlen' hkinds hlen h
    have hfinds : ∀ ns, (p.needs (a.unused p) ⟨p.instanceDef i, args⟩).Finds ns ↔
        (p.needs (a.unused p) ⟨p.instanceDef i, args'⟩).Finds ns :=
      fun ns => ⟨needs_of_agree hfresh hb hagree, needs_of_agree hfresh hb hagree'⟩
    -- the scans agree on failing, since each list that one finds is found by the other
    cases hfail : (p.needs (a.unused p) ⟨p.instanceDef i, args⟩).failure with
    | none =>
      obtain ⟨hfail', hfound⟩ := (hfinds _).1 (finds_found hfail)
      refine .inr ⟨rfl, hfail', fun fuel m => ?_⟩
      rw [hfound]
    | some e =>
      refine .inl ⟨rfl, ?_⟩
      by_contra hsome
      have hnone := Option.not_isSome_iff_eq_none.1 hsome
      exact nomatch hfail.symm.trans ((hfinds _).2 (finds_found hnone)).1

/-- The function of the nested program hands its second argument only to a closure that does not
    use it. -/
theorem collapses_nested :
    (Analyzer.Extends nested { enabled := true } { enabled := true }) ∧
    nested.Collapses (Analyzer.unused { enabled := true } nested) 0
      [.ty (.prim .u8), .ty (.prim .u16)] [.ty (.prim .u8), .ty (.prim .u32)] ∧
    nested.instantiate (Analyzer.unused { enabled := true } nested) 0
        [.ty (.prim .u8), .ty (.prim .u16)] =
      nested.instantiate (Analyzer.unused { enabled := true } nested) 0
        [.ty (.prim .u8), .ty (.prim .u32)] := by
  have hextends := Analyzer.Extends.refl nested { enabled := true }
  exact ⟨hextends, collapses_of_unseeded hextends rfl rfl rfl (by decide +kernel)
    (by decide +kernel), by decide +kernel⟩

end Program

end Monomorph
