import Monomorph.Proofs.Neighbors
import Monomorph.Proofs.Sessions

/-!
# Late resolution finds what was collected

A call is resolved once when its body is scanned and again when code is generated. The scan makes
the instance with the sets of the analyzer that is asked on the way; late resolution makes it with a
set computed again, which it compares with the table that the analyzer has left. Both come to the
same for an analyzer that started with nothing, whatever it has been asked
(`Program.resolveLate_eq`): its entries are the sets that are computed for their items, so there is
nothing to report. So a call in a collected body is resolved late to an instance that is collected.
-/

namespace Monomorph

namespace Analyzer

variable {a b : Analyzer} {p : Program} {enabled : Bool}

/-- Whether an analyzer started with nothing and has only remembered answers since. -/
structure Unseeded (p : Program) (enabled : Bool) (a : Analyzer) : Prop where
  extended : Extends p { enabled } a
  conflicts : a.conflicts = []

/-- A new analyzer has been given no entries. -/
theorem unseeded_new (p : Program) (enabled : Bool) : Unseeded p enabled { enabled } :=
  ⟨.refl p _, rfl⟩

/-- What it computes is what a new analyzer answers. -/
theorem Unseeded.computed_eq (h : a.Unseeded p enabled) (i : ItemId) :
    a.computed p i = Analyzer.unused { enabled } p i :=
  h.extended.computed_eq i

/-- Its answers are those of a new one. -/
theorem Unseeded.unused_eq (h : a.Unseeded p enabled) :
    a.unused p = Analyzer.unused { enabled } p :=
  h.extended.unused_eq

/-- No entry that was remembered is in conflict. -/
theorem Unseeded.conflict?_eq_none (h : a.Unseeded p enabled) (i : ItemId) :
    a.conflict? p i = none := by
  rw [h.extended.conflict?_eq, conflict?_eq_none_iff]
  intro s hs
  exact absurd hs.symm (Option.some_ne_none s)

/-- Asking it more changes nothing about that. -/
theorem Unseeded.session (h : a.Unseeded p enabled) {qs : List Query}
    {sets : List (ItemId × ParamSet)} (hs : Session p a qs sets b) : b.Unseeded p enabled where
  extended := h.extended.trans hs.extended
  conflicts := by
    rw [hs.conflicts, h.conflicts, List.nil_append, List.filterMap_eq_nil_iff]
    exact fun i _ => h.conflict?_eq_none i

/-- A collection leaves it without entries of another's making. -/
theorem Unseeded.collect (h : a.Unseeded p enabled) {config : Config} {fuel : Nat}
    {r : CollectResult} (hr : p.collect config a fuel = some r) :
    r.analyzer.Unseeded p enabled := by
  have hask : a.ask p (.collect config fuel) =
      some (r.walk.asked.map fun i => (i, a.unused p i), r.analyzer) := by
    rw [ask, hr, Option.map_some]
  exact h.session (session_of_ask hask)

/-- Its memory can be frozen as it is. -/
theorem Unseeded.freeze_eq (h : a.Unseeded p enabled) : a.freeze = .ok a.known :=
  freeze_eq_ok_iff.2 ⟨h.conflicts, rfl⟩

end Analyzer

namespace Program

variable {p : Program} {config : Config} {table : UnusedTable} {unused : UnusedSets}
  {callee : ItemId} {args : Args}

/-! ## One call -/

/-- Nothing but a call through a vtable is taken for one. -/
theorem callee_ne_virtualCall : p.callee unused callee args ≠ .error .virtualCall := by
  unfold Program.callee
  -- a virtual call is what the look-up says, and `callee` turns it into no callee at all
  split
  · next target targetArgs _ =>
    split
    · unfold instantiate checkArity
      by_cases h : targetArgs.length = (p.item target).generics.count
      · simp [h, bind, Except.bind, pure, Except.pure, Functor.map, Except.map]
      · simp [h, bind, Except.bind, Functor.map, Except.map]
    · simp
  · simp
  · unfold noImpl
    split <;> simp

/-- What is left to do late is to give the reason why there is no instance. -/
theorem resolveLate_eq
    (hright : ∀ i s, table.get? i = some s → s = p.freshSets config i)
    (hcallable : ∀ target targetArgs, p.resolve callee args = .item target targetArgs →
      (p.item target).kind.isCallable = true) :
    p.resolveLate config table callee args =
      match p.callee (p.freshSets config) callee args with
      | .ok (some inst) => .ok inst
      | .ok none => .error (p.unresolved callee args .dummy .virtualCall)
      | .error reason => .error (p.unresolved callee args .dummy reason) := by
  cases hres : p.resolve callee args with
  | virtual => simp only [resolveLate, Program.callee, hres]
  | unresolved => simp only [resolveLate, Program.callee, hres]
  | item target targetArgs =>
    have hcall : (p.item target).kind.isCallable = true := hcallable _ _ hres
    by_cases hlength : targetArgs.length = (p.item target).generics.count
    · -- the entry of the target, if there is one, is the set computed again
      have hinside : (lateAnalyzer config table).RightInside p target :=
        fun i s _ hs => hright i s hs
      have hinst := (instantiate_eq_ok_iff p (p.freshSets config)).2 ⟨hlength, rfl⟩
      have hcallee := callee_eq_some_iff.2 ⟨target, targetArgs, hres, hcall, hinst⟩
      rw [resolveLate_of_item hres hlength, computed_lateAnalyzer hinside, hcallee]
      cases hentry : table.get? target with
      | none => rfl
      | some s => simp only [if_pos (hright target s hentry)]
    · -- both count the arguments before they ask for a set
      simp [resolveLate, Program.callee, hres, hcall, instantiate, checkArity, hlength, bind,
        Except.bind, Functor.map, Except.map]

/-- Whether late resolution of a call agrees with the resolution in a scan. -/
structure LateAgrees (p : Program) (config : Config) (table : UnusedTable) (unused : UnusedSets)
    (callee : ItemId) (args : Args) : Prop where
  instance_iff : ∀ inst, p.resolveLate config table callee args = .ok inst ↔
    p.callee unused callee args = .ok (some inst)
  virtual_iff : p.resolveLate config table callee args =
      .error (p.unresolved callee args .dummy .virtualCall) ↔
    p.callee unused callee args = .ok none
  /-- Any other failure is the same in both. -/
  reason_iff : ∀ reason, p.callee unused callee args = .error reason ↔ reason ≠ .virtualCall ∧
    p.resolveLate config table callee args = .error (p.unresolved callee args .dummy reason)
  unresolved : ∀ e, p.resolveLate config table callee args = .error e →
    ∃ reason, e = p.unresolved callee args .dummy reason
  /-- The table is not contradicted. -/
  consistent : ∀ x, p.resolveLate config table callee args ≠ .error (p.conflictError x)

/-- The cases of the equation, one for each outcome of the scan. -/
theorem lateAgrees_of_right
    (hright : ∀ i s, table.get? i = some s → s = p.freshSets config i)
    (hcallable : ∀ target targetArgs, p.resolve callee args = .item target targetArgs →
      (p.item target).kind.isCallable = true) :
    p.LateAgrees config table (p.freshSets config) callee args := by
  -- the agreement is read off the one equation between the two resolutions
  have hlate := resolveLate_eq hright hcallable
  cases hcallee : p.callee (p.freshSets config) callee args with
  | ok inst? =>
    rw [hcallee] at hlate
    cases inst? with
    | some inst => constructor <;> simp [hlate, hcallee]
    | none =>
      constructor <;>
        simp [hlate, hcallee, unresolved, conflictError, @eq_comm _ Reason.virtualCall]
  | error reason =>
    have hne : reason ≠ .virtualCall := by
      intro hreason
      rw [hreason] at hcallee
      exact callee_ne_virtualCall hcallee
    rw [hcallee] at hlate
    constructor
    case reason_iff =>
      intro reason'
      simp only [hlate, hcallee, unresolved, Except.error.injEq, Error.unresolved.injEq,
        true_and, and_true]
      constructor
      · rintro rfl
        exact ⟨hne, rfl⟩
      · exact fun h => h.2
    all_goals simp [hlate, hcallee, hne, unresolved, conflictError]

/-! ## The calls of collected bodies -/

variable {a : Analyzer} {c : Collection} {inst : Instance} {body : Body}

/-- A call in a body that has been collected comes late to what the collection has for it. -/
theorem exists_resolveLate_of_collect (ha : a.Unseeded p config.polymorphize) {config' : Config}
    {fuel : Nat} {r : CollectResult} (h : p.collect config' a fuel = some r)
    (hc : r.outcome = .ok c) (hright : ∀ i s, table.get? i = some s → s = p.freshSets config i)
    (hbody : c.Generates p inst body) {site : CallSite} (hsite : site ∈ body.calls) :
    ∃ callArgs, inst.args.subst site.args = .ok callArgs ∧
      (p.resolve site.callee callArgs = .virtual ∨
        ∃ target, p.resolveLate config table site.callee callArgs = .ok target ∧
          c.contains target = true ∧ c.Uses inst target site.kind.useKind) := by
  obtain ⟨i, needs, hfinds, -, huses⟩ := exists_bodyFinds_of_collect h hc hbody
  -- the scan was answered as it would have been without what the analyzer remembers
  have hsets : a.unused p = p.freshSets config := ha.extended.unused_eq
  rw [hsets] at hfinds
  obtain ⟨ms, hms, hsub⟩ := exists_finds_call hfinds hsite
  obtain ⟨callArgs, hargs, inst?, hcallee, rfl⟩ := finds_callNeeds.1 hms
  refine ⟨callArgs, hargs, ?_⟩
  cases inst? with
  | none => exact .inl (callee_eq_none_iff.1 hcallee)
  | some target =>
    right
    have hused := huses _ (hsub List.mem_cons_self)
    refine ⟨target, ?_, hused.contains, hused⟩
    -- the scan has seen that what is called can be called
    obtain ⟨i, args, hres, hcall, -⟩ := callee_eq_some_iff.1 hcallee
    have hcallable : ∀ j args', p.resolve site.callee callArgs = .item j args' →
        (p.item j).kind.isCallable = true := by
      intro j args' hj
      obtain ⟨rfl, -⟩ := Resolution.item.inj (hres.symm.trans hj)
      exact hcall
    exact ((lateAgrees_of_right hright hcallable).instance_iff target).2 hcallee

variable {qs : List Query} {sets : List (ItemId × ParamSet)}

/-- Whatever an analyzer that starts with nothing is asked, late resolution with its table agrees
    with such analyzers and finds what is collected with it. -/
theorem resolveLate_agrees
    (h : Analyzer.askAll { enabled := config.polymorphize } p qs = some (sets, a)) :
    (∃ table, a.freeze = .ok table ∧
      ∀ qs' sets' b, Analyzer.askAll { enabled := config.polymorphize } p qs' = some (sets', b) →
        ∀ callee args, (∀ target targetArgs, p.resolve callee args = .item target targetArgs →
          (p.item target).kind.isCallable = true) →
        p.LateAgrees config table (b.unused p) callee args) ∧
    ∀ config' fuel r c, p.collect config' a fuel = some r → r.outcome = .ok c →
      ∃ table, r.analyzer.freeze = .ok table ∧ ∀ inst body, c.Generates p inst body →
        ∀ site ∈ body.calls, ∃ callArgs, inst.args.subst site.args = .ok callArgs ∧
          (p.resolve site.callee callArgs = .virtual ∨
            ∃ target, p.resolveLate config table site.callee callArgs = .ok target ∧
              c.contains target = true ∧ c.Uses inst target site.kind.useKind) := by
  have unseeded : ∀ {qs sets b}, Analyzer.askAll { enabled := config.polymorphize } p qs =
      some (sets, b) → b.Unseeded p config.polymorphize := fun h =>
    (Analyzer.unseeded_new p _).session (Analyzer.session_of_askAll h)
  have ha := unseeded h
  constructor
  · refine ⟨_, ha.freeze_eq, fun qs' sets' b hb callee args hcallable => ?_⟩
    have hsets : b.unused p = p.freshSets config := (unseeded hb).extended.unused_eq
    rw [hsets]
    exact lateAgrees_of_right ha.extended.added hcallable
  · intro config' fuel r c hr hc
    -- what the collection has asked is remembered like everything else
    have hafter := ha.collect hr
    refine ⟨_, hafter.freeze_eq, fun inst body hbody site hsite => ?_⟩
    exact exists_resolveLate_of_collect ha hr hc hafter.extended.added hbody hsite

/-- In the gallery the pointer to the method of a trait is resolved late to the method of the block
    that implements it, which has been collected. -/
theorem resolveLate_agrees_gallery : ∃ sets a table r c t target,
    Analyzer.askAll { enabled := true } gallery [.unused 1] = some (sets, a) ∧
      a.freeze = .ok table ∧
      gallery.LateAgrees {} table (Analyzer.unused { enabled := true } gallery) 3
        [.ty (.adt 5 [])] ∧
      gallery.collect {} a 40 = some r ∧ r.outcome = .ok c ∧ r.analyzer.freeze = .ok t ∧
        gallery.resolveLate {} t 3 [.ty (.adt 5 [])] = .ok target ∧
          c.contains target = true ∧ c.Uses ⟨.item 0, []⟩ target .fnPtr := by
  have hask : Analyzer.askAll { enabled := true } gallery [.unused 1] =
      some ([(1, Analyzer.unused { enabled := true } gallery 1)],
        Analyzer.consult { enabled := true } gallery [1]) := rfl
  obtain ⟨⟨table, htable, hagrees⟩, hcollect⟩ := @resolveLate_agrees gallery {} _ _ _ hask
  have hcallable : ∀ target targetArgs,
      gallery.resolve 3 [.ty (.adt 5 [])] = .item target targetArgs →
        (gallery.item target).kind.isCallable = true := by
    intro target targetArgs h
    -- one question is asked before, and the call site in `main` is the one resolved again
    obtain ⟨rfl, -⟩ := Resolution.item.inj (resolve_gallery.symm.trans h)
    rfl
  obtain ⟨r, c, hr, hc, hcontains⟩ := @exists_collection gallery {}
    (Analyzer.consult { enabled := true } gallery [1]) 40 [⟨.item 0, []⟩] (by decide +kernel)
  obtain ⟨t, ht, hlate⟩ := hcollect {} 40 r c hr hc
  have hbody : c.Generates gallery ⟨.item 0, []⟩ (gallery.item 0).body.get! :=
    ⟨hcontains _ List.mem_cons_self, rfl, rfl⟩
  obtain ⟨callArgs, hargs, hcase⟩ :=
    hlate _ _ hbody ⟨.pointer, 3, [.ty (.adt 5 [])], .dummy⟩ (by decide +kernel)
  have hsubst : Args.subst [] [.ty (.adt 5 [])] = .ok [.ty (.adt 5 [])] := rfl
  obtain rfl := Except.ok.inj (hsubst.symm.trans hargs)
  rw [resolve_gallery] at hcase
  obtain ⟨target, htarget, hnode, huses⟩ := hcase.resolve_left (by decide)
  exact ⟨_, _, table, r, c, t, target, hask, htable, hagrees [] [] _ rfl 3 _ hcallable, hr, hc,
    ht, htarget, hnode, huses⟩

end Program

end Monomorph
