import Mathlib.Data.List.Chain
import Monomorph.Proofs.Exactness

/-!
# When a walk overflows

A walk goes on from an instance only if it is within the limits, code is generated for it and its
scan succeeds. `Program.Wanted` is the least set of instances that is closed under going on. In a
program where no type lies inside itself by value, a walk is ended by a limit exactly if a wanted
instance is beyond one, whatever the order of its steps. The stack of the model's own order is a
trail (`Program.IsTrail`), and so the chain that an error tells is one.
-/

namespace Monomorph

/-! ## Wanted instances and trails -/

namespace Program

variable (p : Program) (config : Config) (unused : UnusedSets) (roots : List Instance)

/-- Whether a walk goes on from one instance to the other: the one is within the limits, code is
    generated for it, and its scan returns the other. -/
def LeadsTo (a b : Instance) : Prop :=
  config.Within a ∧ (p.info a).isGenerated = true ∧
    ∃ ns, p.Scans unused a ns ∧ ∃ n ∈ ns, n.inst = b

/-- The least set of instances that contains the roots and, with every member that is within the
    limits, for which code is generated and whose scan succeeds, all neighbors of it. -/
inductive Wanted : Instance → Prop
  | root {inst : Instance} : inst ∈ roots → Wanted inst
  | step {a b : Instance} : Wanted a → p.LeadsTo config unused a b → Wanted b

/-- Different instances, the first of which is a root, that lead from each one to the next. -/
structure IsTrail (trail : List Instance) : Prop where
  root : ∀ inst ∈ trail.head?, inst ∈ roots
  linked : trail.IsChain (p.LeadsTo config unused)
  nodup : trail.Nodup

/-- What the error says that ends a walk at an instance beyond the limits, if a trail leads to the
    instance. The length comes first. -/
inductive Overruns (trail : List Instance) (inst : Instance) : Error → Prop
  | tooLong {span : Span} : config.lengthLimit < inst.args.nodeCount →
    Overruns trail inst
      (.typeLength (inst.text p) inst.args.nodeCount config.lengthLimit span)
  | tooDeep {span : Span} : inst.args.nodeCount ≤ config.lengthLimit →
    config.depthLimit < inst.args.nesting →
    Overruns trail inst
      (.overflow (inst.text p) config.depthLimit ((trail ++ [inst]).map (Instance.text p)) span)

variable {p config unused roots} {trail : List Instance} {inst : Instance}

/-- The empty trail leads nowhere. -/
theorem IsTrail.nil : p.IsTrail config unused roots [] where
  root _ h := nomatch h
  linked := .nil
  nodup := .nil

/-- A trail is continued by an instance that it leads to and that is new. -/
theorem isTrail_append_iff : p.IsTrail config unused roots (trail ++ [inst]) ↔
    p.IsTrail config unused roots trail ∧ inst ∉ trail ∧ (trail = [] → inst ∈ roots) ∧
      ∀ a ∈ trail.getLast?, p.LeadsTo config unused a inst := by
  -- each of the three properties is one of the trail so far and one of the new end
  have hlinked : (trail ++ [inst]).IsChain (p.LeadsTo config unused) ↔
      trail.IsChain (p.LeadsTo config unused) ∧
        ∀ a ∈ trail.getLast?, p.LeadsTo config unused a inst := by
    simp [List.isChain_append]
  have hnodup : (trail ++ [inst]).Nodup ↔ trail.Nodup ∧ inst ∉ trail := by
    rw [List.nodup_append_comm, List.singleton_append, List.nodup_cons, and_comm]
  have hroot : (∀ a ∈ (trail ++ [inst]).head?, a ∈ roots) ↔
      (∀ a ∈ trail.head?, a ∈ roots) ∧ (trail = [] → inst ∈ roots) := by
    cases trail <;> simp
  constructor
  · intro h
    obtain ⟨hlinked, hnext⟩ := hlinked.1 h.linked
    obtain ⟨hnodup, hnew⟩ := hnodup.1 h.nodup
    obtain ⟨hroot, hstart⟩ := hroot.1 h.root
    exact ⟨⟨hroot, hlinked, hnodup⟩, hnew, hstart, hnext⟩
  · intro ⟨h, hnew, hstart, hnext⟩
    exact ⟨hroot.2 ⟨h.root, hstart⟩, hlinked.2 ⟨h.linked, hnext⟩, hnodup.2 ⟨h.nodup, hnew⟩⟩

/-- A trail leads to wanted instances only. -/
theorem IsTrail.wanted (h : p.IsTrail config unused roots (trail ++ [inst])) :
    p.Wanted config unused roots inst := by
  induction trail using List.reverseRecOn generalizing inst with
  | nil => exact .root ((isTrail_append_iff.1 h).2.2.1 rfl)
  | append_singleton trail a ih =>
    obtain ⟨htrail, -, -, hnext⟩ := isTrail_append_iff.1 h
    exact .step (ih htrail) (hnext a (by simp))

/-- An instance that overruns a limit is not within the limits. -/
theorem Overruns.not_within {e : Error} (h : p.Overruns config trail inst e) :
    ¬ config.Within inst := by
  intro hwithin
  cases h with
  | tooLong hlong => exact Nat.not_le.2 hlong hwithin.1
  | tooDeep _ hdeep => exact Nat.not_le.2 hdeep hwithin.2

/-- What is reached is wanted, since what was remembered makes no difference to a scan. -/
theorem wanted_of_reachedFrom (hacyclic : p.ByValueAcyclic)
    (h : p.ReachedFrom unused (DropMemo.Sound p) config roots inst) :
    p.Wanted config unused roots inst := by
  obtain ⟨root, hroot, hpath⟩ := h
  -- each step of the way is a scan by the true answers
  induction hpath with
  | refl => exact .root hroot
  | tail _ hstep ih =>
    obtain ⟨hwithin, hgen, ns, hscan, hn⟩ := hstep
    exact .step ih ⟨hwithin, hgen, ns, (scansFrom_sound hacyclic).1 hscan, hn⟩

end Program

/-! ## Errors -/

/-- Whether an error says that an instance is beyond a limit. -/
def Error.isLimit : Error → Bool
  | overflow .. | typeLength .. => true
  | unresolved .. | conflict .. | placement _ | symbolClash .. => false

/-- What is reported of an overrun is a limit. -/
theorem Program.Overruns.isLimit {p : Program} {config : Config} {trail : List Instance}
    {inst : Instance} {e : Error} (h : p.Overruns config trail inst e) : e.isLimit = true := by
  cases h <;> rfl

/-- A limit that is reported ends the run. -/
theorem Error.isFatal_of_isLimit {e : Error} (h : e.isLimit = true) : e.isFatal = true := by
  cases e <;> first | rfl | exact nomatch h

namespace Walk

/-! ## Every order of steps -/

/-- Whether the walk of a program can come to this in some order. -/
def Possible (p : Program) (config : Config) (unused : UnusedSets) (w : Walk) : Prop :=
  Relation.ReflTransGen (Moves p config unused) (start p unused (p.rootItems config.mode)) w

variable {p : Program} {config : Config} {unused : UnusedSets} {roots : List Instance} {w : Walk}

/-- What a collection ends with is possible. -/
theorem possible_of_run {fuel : Nat}
    (h : (start p unused (p.rootItems config.mode)).run p config unused fuel = some w) :
    Possible p config unused w ∧ w.isDone = true :=
  moves_of_run h

/-- A possible walk keeps the invariant of walks. -/
theorem Possible.inv {M : DropMemo → Prop} (hM : p.Preserves M) (hempty : M {})
    (h : Possible p config unused w) : Inv p config unused M (p.roots unused config) w :=
  (Program.inv_startWalk hempty unused).reach hM h

/-- Nothing but a limit stops a walk. -/
theorem Possible.isLimit (h : Possible p config unused w) {e : Error} (he : w.fatal = some e) :
    e.isLimit = true := by
  -- only the last move can have stopped the walk
  cases h with
  | refl => exact nomatch he
  | @tail w₁ _ _ hmove =>
    obtain ⟨hfatal, ⟨stack, rfl, -⟩ | ⟨inst, span, w₂, hw₂, hentered⟩⟩ := hmove.cases
    · exact nomatch hfatal.symm.trans he
    · have hfatal : w₂.fatal = none := hw₂.fatal.trans hfatal
      cases hentered with
      | tooLong =>
        obtain rfl := Option.some.inj he
        rfl
      | tooDeep =>
        obtain rfl := Option.some.inj he
        rfl
      | again => exact nomatch hfatal.symm.trans he
      | linked => exact nomatch hfatal.symm.trans he
      | broken => exact nomatch hfatal.symm.trans he
      | scanned => exact nomatch hfatal.symm.trans he

variable (hacyclic : p.ByValueAcyclic)
  (hinv : Inv p config unused (DropMemo.Sound p) roots w) (hdone : w.isDone = true)

include hacyclic hinv hdone

/-- When a walk is done and was not stopped, all that is wanted has been recorded. -/
theorem exists_record_of_wanted (hfatal : w.fatal = none) {inst : Instance}
    (h : p.Wanted config unused roots inst) : ∃ r ∈ w.records, r.inst = inst := by
  have hahead := not_ahead_of_isDone hdone hfatal
  induction h with
  | root hroot =>
    obtain hclaimed | h := hinv.started _ hroot
    · exact hinv.claimed hfatal _ hclaimed
    · exact absurd h (hahead _)
  | step _ hstep ih =>
    obtain ⟨r, hr, rfl⟩ := ih
    obtain ⟨-, hgen, ns, hscan, n, hn, rfl⟩ := hstep
    -- the record has the neighbors of the scan as its uses, since the scan succeeded
    have huse : (n.inst, n.kind) ∈ r.uses := by
      have hkept := hinv.kept r hr
      cases hkept with
      | linked hgen' => exact nomatch hgen'.symm.trans hgen
      | broken _ hfail => exact nomatch hfail.symm.trans hscan.1
      | scanned _ hscan' =>
        obtain rfl := hscan.inj hacyclic ((Program.scansFrom_sound hacyclic).1 hscan')
        exact List.mem_map_of_mem hn
    obtain hclaimed | h := hinv.closed r hr _ huse
    · exact hinv.claimed hfatal _ hclaimed
    · exact absurd h (hahead _)

/-- A walk is stopped exactly if a wanted instance is beyond the limits. -/
theorem isSome_fatal_iff : w.fatal.isSome = true ↔
    ∃ inst, p.Wanted config unused roots inst ∧ ¬ config.Within inst := by
  constructor
  · intro h
    obtain ⟨inst, hclaimed, hlimit⟩ := hinv.fatal h
    exact ⟨inst, Program.wanted_of_reachedFrom hacyclic (hinv.reached inst (.inl hclaimed)), hlimit⟩
  · intro ⟨inst, hwanted, hlimit⟩
    by_contra h
    -- otherwise the instance would have been recorded, which those beyond the limits are not
    have hfatal := Option.not_isSome_iff_eq_none.1 h
    obtain ⟨r, hr, rfl⟩ := exists_record_of_wanted hacyclic hinv hdone hfatal hwanted
    exact hlimit (hinv.within r hr)

omit hacyclic hdone

/-- A limit error is what stopped the walk, and is reported alone. -/
theorem eq_of_limit_mem_finish {warnings : List Diagnostic} {es : List Error}
    (h : w.finish p roots warnings = .error es) {e : Error} (he : e ∈ es)
    (hlimit : e.isLimit = true) : w.fatal = some e ∧ es = [e] := by
  -- The outcome is the fatal error, the errors gathered, or a clash; only the first can be a limit.
  obtain ⟨e', hfatal, rfl⟩ | ⟨-, rfl | ⟨s, t, u, rfl⟩⟩ := cases_of_finish h
  · obtain rfl := List.mem_singleton.1 he
    exact ⟨hfatal, rfl⟩
  · -- the errors gathered come from scans, which do not fail for a limit
    obtain ⟨r, -, -, hfail⟩ := hinv.errors e (mem_report.1 he)
    have hfatal := Program.neverFatal_needs r.inst e hfail
    exact nomatch hfatal.symm.trans (Error.isFatal_of_isLimit hlimit)
  · obtain rfl := List.mem_singleton.1 he
    exact nomatch hlimit

end Walk

/-! ## The chain -/

namespace Walk

/-- What remains true of the stack of a walk in the model's order: it is a trail, and from every
    link the walk goes on to what is left there. If the walk was stopped, a trail leads to the
    instance that stopped it. -/
structure Trailed (p : Program) (config : Config) (unused : UnusedSets) (roots : List Instance)
    (w : Walk) : Prop where
  memo : w.drops.Sound p
  waiting : ∀ root ∈ w.waiting, root ∈ roots
  trail : p.IsTrail config unused roots w.chain
  claimed : ∀ inst ∈ w.chain, w.claimed.contains inst = true
  pending : ∀ f ∈ w.stack, ∀ n ∈ f.pending, p.LeadsTo config unused f.inst n.inst
  fatal : ∀ e, w.fatal = some e → ∃ trail inst,
    p.IsTrail config unused roots (trail ++ [inst]) ∧ p.Overruns config trail inst e

variable {p : Program} {config : Config} {unused : UnusedSets} {roots : List Instance}
  {w w' : Walk}

/-- The chain of a walk is the way to the instance being scanned. -/
theorem chain_of_stack {f : Frame} {stack : List Frame} (h : w.stack = f :: stack) :
    w.chain = (stack.map Frame.inst).reverse ++ [f.inst] := by
  rw [chain, h, List.map_cons, List.reverse_cons]

namespace Trailed

/-- Entering an instance that the end of the chain leads to keeps the chain a trail. -/
private theorem entered (hacyclic : p.ByValueAcyclic) (h : Trailed p config unused roots w)
    {inst : Instance} {span : Span} (hstart : w.chain = [] → inst ∈ roots)
    (hnext : ∀ a ∈ w.chain.getLast?, p.LeadsTo config unused a inst)
    (hentered : Entered p config unused w inst span w') : Trailed p config unused roots w' := by
  -- an instance that was not claimed is not on the chain
  have htrail : w.claimed.contains inst = false →
      p.IsTrail config unused roots (w.chain ++ [inst]) := by
    intro hnew
    refine Program.isTrail_append_iff.2 ⟨h.trail, ?_, hstart, hnext⟩
    intro hmem
    exact nomatch hnew.symm.trans (h.claimed inst hmem)
  have hclaimed : ∀ a ∈ w.chain, (w.claimed.insert inst ()).contains a = true := by
    intro a ha
    rw [Index.contains_insert, h.claimed a ha, Bool.or_true]
  cases hentered with
  | again => exact h
  | tooLong hnew hlong =>
    refine ⟨h.memo, h.waiting, h.trail, hclaimed, h.pending, ?_⟩
    intro e he
    obtain rfl := Option.some.inj he
    exact ⟨w.chain, inst, htrail hnew, .tooLong hlong⟩
  | tooDeep hnew hlong hdeep =>
    refine ⟨h.memo, h.waiting, h.trail, hclaimed, h.pending, ?_⟩
    intro e he
    obtain rfl := Option.some.inj he
    exact ⟨w.chain, inst, htrail hnew, .tooDeep hlong hdeep⟩
  | linked => exact ⟨h.memo, h.waiting, h.trail, hclaimed, h.pending, h.fatal⟩
  | broken _ _ _ _ hsettle =>
    exact ⟨Program.preserves_sound hacyclic _ _ _ _ _ h.memo hsettle, h.waiting, h.trail, hclaimed,
      h.pending, h.fatal⟩
  | @scanned fuel ns drops hnew hwithin hgen hfail hsettle =>
    have hscan : p.Scans unused inst ns :=
      (Program.scansFrom_sound hacyclic).1 ⟨hfail, fuel, _, _, h.memo, hsettle⟩
    have hchain : chain { w with stack := ⟨inst, ns⟩ :: w.stack } = w.chain ++ [inst] :=
      List.reverse_cons
    constructor
    case memo => exact Program.preserves_sound hacyclic _ _ _ _ _ h.memo hsettle
    case waiting => exact h.waiting
    case trail => exact hchain ▸ htrail hnew
    case claimed =>
      intro a ha
      obtain ha | ha := List.mem_append.1 (hchain ▸ ha)
      · exact hclaimed a ha
      · obtain rfl := List.mem_singleton.1 ha
        show (w.claimed.insert a ()).contains a = true
        simp [Index.contains_insert]
    case pending =>
      intro f hf n hn
      obtain rfl | hf := List.mem_cons.1 hf
      · exact ⟨hwithin, hgen, ns, hscan, n, hn, rfl⟩
      · exact h.pending f hf n hn
    case fatal => exact h.fatal

/-- Whatever a step does, the stack remains a trail. -/
theorem step (hacyclic : p.ByValueAcyclic) (h : Trailed p config unused roots w)
    (hdone : w.isDone = false) {fuel : Nat} (hstep : w.step p config unused fuel = some w') :
    Trailed p config unused roots w' := by
  rw [isDone, Bool.or_eq_false_iff] at hdone
  unfold Walk.step stepBy at hstep
  split at hstep
  · next inst n pending stack hstack =>
    -- one neighbor less is pending at the end of the chain, and it is entered
    have hchain : chain { w with stack := ⟨inst, pending⟩ :: stack } =
        (stack.map Frame.inst).reverse ++ [inst] := List.reverse_cons
    have hsame := hchain.trans (chain_of_stack hstack).symm
    have hleads : p.LeadsTo config unused inst n.inst :=
      h.pending ⟨inst, n :: pending⟩ (by simp [hstack]) n List.mem_cons_self
    have h' : Trailed p config unused roots { w with stack := ⟨inst, pending⟩ :: stack } := by
      refine ⟨h.memo, h.waiting, hsame ▸ h.trail, fun a ha => h.claimed a (hsame ▸ ha), ?_, h.fatal⟩
      intro f hf k hk
      obtain rfl | hf := List.mem_cons.1 hf
      · exact h.pending ⟨inst, n :: pending⟩ (by simp [hstack]) k (List.mem_cons_of_mem _ hk)
      · exact h.pending f (by simp [hstack, hf]) k hk
    refine h'.entered hacyclic ?_ ?_ (entered_of_enter hstep)
    · simp [hchain]
    · simpa [hchain] using hleads
  · next inst stack hstack =>
    obtain rfl := Option.some.inj hstep
    have hchain := chain_of_stack hstack
    have htrail := h.trail
    rw [hchain, Program.isTrail_append_iff] at htrail
    refine ⟨h.memo, h.waiting, htrail.1, ?_, ?_, h.fatal⟩
    · exact fun a ha => h.claimed a (hchain ▸ List.mem_append_left _ ha)
    · exact fun f hf => h.pending f (by simp [hstack, hf])
  · next hstack =>
    split at hstep
    · next root waiting hwaiting =>
      have hempty : w.chain = [] := by simp [chain, hstack]
      have h' : Trailed p config unused roots { w with waiting } :=
        ⟨h.memo, fun a ha => h.waiting a (by simp [hwaiting, ha]), h.trail, h.claimed, h.pending,
          h.fatal⟩
      have hroot : root ∈ roots := h.waiting root (by simp [hwaiting])
      refine h'.entered hacyclic (fun _ => hroot) ?_ (entered_of_enter hstep)
      have hempty' : chain { w with waiting } = [] := hempty
      simp [hempty']
    · next hwaiting => simp [hstack, hwaiting] at hdone

/-- What holds at the start of a run holds at its end. -/
theorem run (hacyclic : p.ByValueAcyclic) (h : Trailed p config unused roots w) {fuel : Nat}
    (hrun : w.run p config unused fuel = some w') : Trailed p config unused roots w' := by
  -- A walk that is not done takes a step, which keeps the trail.
  induction fuel generalizing w with
  | zero => exact nomatch hrun
  | succ fuel ih =>
    unfold Walk.run runBy at hrun
    split at hrun
    · next hdone =>
      obtain rfl := Option.some.inj hrun
      exact h
    · next hdone =>
      simp only [Option.bind_eq_bind, Option.bind_eq_some_iff] at hrun
      obtain ⟨w₁, hstep, hrun⟩ := hrun
      exact ih (h.step hacyclic (by simpa using hdone) hstep) hrun

end Trailed

/-- A walk starts with an empty trail. -/
theorem trailed_start : Trailed p config unused (p.roots unused config)
    (start p unused (p.rootItems config.mode)) where
  memo := DropMemo.sound_empty
  waiting _ h := h
  trail := .nil
  claimed _ h := nomatch h
  pending _ h := nomatch h
  fatal _ h := nomatch h

end Walk

/-! ## The main result -/

/-- What it means that the limits decide how a collection ends. -/
structure CollectResult.LimitsDecide (p : Program) (config : Config) (unused : UnusedSets)
    (r : CollectResult) : Prop where
  /-- A limit error is reported exactly if a wanted instance is beyond the limits. -/
  limit_iff : (∃ e, e.isLimit = true ∧ r.outcome = .error [e]) ↔
    ∃ inst, p.Wanted config unused (p.roots unused config) inst ∧ ¬ config.Within inst
  /-- It is reported alone, and tells a trail to such an instance. -/
  reported : ∀ es, r.outcome = .error es → ∀ e ∈ es, e.isLimit = true → es = [e] ∧
    ∃ trail inst, p.Wanted config unused (p.roots unused config) inst ∧ ¬ config.Within inst ∧
      p.IsTrail config unused (p.roots unused config) (trail ++ [inst]) ∧
        p.Overruns config trail inst e
  /-- The same instances decide if the walk takes another order. -/
  ordered : ∀ w, Walk.Possible p config unused w → w.isDone = true →
    ((∃ e, e.isLimit = true ∧
        w.finish p (p.roots unused config) (p.rootWarnings config.mode) = .error [e]) ↔
      ∃ inst, p.Wanted config unused (p.roots unused config) inst ∧ ¬ config.Within inst)

namespace Program

/-- A collection ends with a limit error exactly if an instance that the walk cannot do without is
    beyond the limits. -/
theorem collect_limitsDecide {p : Program} {config : Config} (hacyclic : p.ByValueAcyclic)
    (hfinite : p.FiniteToClassify) (a : Analyzer) :
    ∃ r enough, (∀ fuel, enough ≤ fuel → p.collect config a fuel = some r) ∧
      r.LimitsDecide p config (a.unused p) := by
  -- the walk ends, since every type that it asks about can be classified
  obtain ⟨r, enough, hcollect⟩ := exists_collect config (preserves_sound hacyclic)
    DropMemo.sound_empty a (fun inst _ _ _ m hm => by
      obtain ⟨ns, hns⟩ := exists_settles (hfinite.exists_drops hacyclic)
        (p.needs (a.unused p) inst).found
      obtain ⟨fuel, m', h⟩ := settle_complete hacyclic hns hm
      exact ⟨fuel, _, h⟩)
  obtain ⟨w, hrun, rfl⟩ := collect_eq_some_iff.1 (hcollect enough (Nat.le_refl _))
  obtain ⟨hw, hdone⟩ := Walk.possible_of_run hrun
  refine ⟨_, enough, hcollect, ?_⟩
  have hordered : ∀ w, Walk.Possible p config (a.unused p) w → w.isDone = true →
      ((∃ e, e.isLimit = true ∧ w.finish p (p.roots (a.unused p) config)
          (p.rootWarnings config.mode) = .error [e]) ↔
        ∃ inst, p.Wanted config (a.unused p) (p.roots (a.unused p) config) inst ∧
          ¬ config.Within inst) := by
    intro w hw hdone
    have hinv := hw.inv (preserves_sound hacyclic) DropMemo.sound_empty
    rw [← Walk.isSome_fatal_iff hacyclic hinv hdone]
    constructor
    · intro ⟨e, hlimit, he⟩
      rw [(Walk.eq_of_limit_mem_finish hinv he (List.mem_singleton_self e) hlimit).1]
      rfl
    · intro hsome
      obtain ⟨e, he⟩ := Option.isSome_iff_exists.1 hsome
      exact ⟨e, hw.isLimit he, by rw [Walk.finish, he]⟩
  refine ⟨hordered w hw hdone, ?_, hordered⟩
  intro es hes e he hlimit
  have hinv := hw.inv (preserves_sound hacyclic) DropMemo.sound_empty
  obtain ⟨hfatal, rfl⟩ := Walk.eq_of_limit_mem_finish hinv hes he hlimit
  obtain ⟨trail, inst, htrail, hover⟩ := (Walk.trailed_start.run hacyclic hrun).fatal e hfatal
  exact ⟨rfl, trail, inst, htrail.wanted, hover.not_within, htrail, hover⟩

/-- A program with a function that calls itself for a pointer to its argument. -/
def spiral : Program where
  crates := ["app"]
  crateRegions := [0]
  regions := ["app"]
  items := #[
    { name := "main", path := "main", kind := .fn
      body := some { ops := [{ action := .call .direct 1 [.ty (.prim .u8)] }] } },
    { name := "wrap", path := "wrap", kind := .fn, generics := { params := [⟨"T", .type⟩] }
      body := some { ops := [
        { action := .drop (.param 0) },
        { action := .call .direct 1 [.ty (.wrap .box (.param 0))] }] } }]
  entries := [0]

/-- The fields in the spiral are flat. -/
theorem flatFields_spiral : spiral.FlatFields := by
  intro i fields hkind
  match i with
  | 0 | 1 => exact nomatch hkind
  | i + 2 => exact nomatch hkind

/-- The limits decide how the collection of that program ends. -/
theorem collect_limitsDecide_spiral : spiral.ByValueAcyclic ∧ spiral.FiniteToClassify ∧
    ∃ r enough, (∀ fuel, enough ≤ fuel →
        spiral.collect { depthLimit := 2 } { enabled := true } fuel = some r) ∧
      r.LimitsDecide spiral { depthLimit := 2 } (Analyzer.unused { enabled := true } spiral) := by
  have hwf := flatFields_spiral.wellFounded
  exact ⟨acyclic_of_wellFounded hwf, finiteToClassify_of_wellFounded hwf,
    collect_limitsDecide (acyclic_of_wellFounded hwf) (finiteToClassify_of_wellFounded hwf)
      { enabled := true }⟩

example : (spiral.collect { depthLimit := 2 } { enabled := true } 20).map (·.walk.fatal) =
    some (some (.overflow "wrap<Box<Box<u8>>>" 2
      ["main", "wrap<u8>", "wrap<Box<u8>>", "wrap<Box<Box<u8>>>"] .dummy)) := by
  decide +kernel

end Program

end Monomorph
