import Monomorph.Proofs.Classification
import Monomorph.Proofs.Overflow

/-!
# Collecting comes to an end

If the types of a program can be classified, its collection ends under every configuration: only
finitely many instances can be claimed within the depth limit, each one is claimed once, and the
first one beyond a limit stops the walk (`CollectResult.Ends`). So where no finite set of instances
has all that is needed (`Program.Suffices`), the walk ends at a limit.
-/

namespace Monomorph

namespace Walk

variable {p : Program} {config : Config} {unused : UnusedSets} {roots : List Instance}
  {w w' : Walk}

/-! ## Claims -/

/-- A move claims nothing, or an instance that was not claimed before; it stops the walk exactly if
    that instance is beyond the limits. -/
theorem Moves.claims (h : Moves p config unused w w') :
    (w'.claimed = w.claimed ∧ w'.fatal = none) ∨
      ∃ inst, w.claimed.contains inst = false ∧ w'.claimed = w.claimed.insert inst () ∧
        (w'.fatal = none ↔ config.Within inst) := by
  obtain ⟨hfatal, ⟨stack, rfl, -⟩ | ⟨inst, span, w₁, hw₁, hentered⟩⟩ := h.cases
  · exact .inl ⟨rfl, hfatal⟩
  · have hfatal₁ : w₁.fatal = none := hw₁.fatal.trans hfatal
    rw [← hw₁.claimed]
    -- an instance is claimed before the checks of its size, also where they fail
    cases hentered with
    | again => exact .inl ⟨rfl, hfatal₁⟩
    | tooLong hnew hlong =>
      exact .inr ⟨inst, hnew, rfl, nofun, fun hwithin => absurd hwithin.1 (Nat.not_le.2 hlong)⟩
    | tooDeep hnew _ hdeep =>
      exact .inr ⟨inst, hnew, rfl, nofun, fun hwithin => absurd hwithin.2 (Nat.not_le.2 hdeep)⟩
    | linked hnew hwithin => exact .inr ⟨inst, hnew, rfl, fun _ => hwithin, fun _ => hfatal₁⟩
    | broken hnew hwithin => exact .inr ⟨inst, hnew, rfl, fun _ => hwithin, fun _ => hfatal₁⟩
    | scanned hnew hwithin => exact .inr ⟨inst, hnew, rfl, fun _ => hwithin, fun _ => hfatal₁⟩

/-- At most one instance beyond the limits is claimed, and none unless the walk was stopped. -/
theorem Possible.beyond (h : Possible p config unused w) {a : Instance}
    (ha : w.claimed.contains a = true) (hlimit : ¬ config.Within a) : w.fatal.isSome = true ∧
      ∀ b, w.claimed.contains b = true → ¬ config.Within b → b = a := by
  induction h generalizing a with
  | refl => exact nomatch (Index.contains_empty a).symm.trans ha
  | @tail w₁ w₂ _ hmove ih =>
    -- the walk was not stopped before, so all that was claimed is within the limits
    have hwithin : ∀ b, w₁.claimed.contains b = true → config.Within b := by
      intro b hb
      by_contra hlimit
      have hsome := (ih hb hlimit).1
      rw [hmove.cases.1] at hsome
      exact nomatch hsome
    -- so the only one beyond them is what the last move claims
    obtain ⟨hclaimed, -⟩ | ⟨inst, -, hclaimed, hstop⟩ := hmove.claims
    · exact absurd (hwithin a (hclaimed ▸ ha)) hlimit
    · have hbeyond : ∀ b, w₂.claimed.contains b = true → ¬ config.Within b → inst = b := by
        intro b hb hlimit
        rw [hclaimed, Index.contains_insert, Bool.or_eq_true, decide_eq_true_eq] at hb
        exact hb.resolve_right fun hb => hlimit (hwithin b hb)
      obtain rfl := hbeyond a ha hlimit
      refine ⟨Option.isSome_iff_ne_none.2 fun hnone => hlimit (hstop.1 hnone), ?_⟩
      exact fun b hb hlimit => (hbeyond b hb hlimit).symm

end Walk

/-! ## What is needed without end -/

namespace Program

variable {p : Program} {unused : UnusedSets} {roots : List Instance}

/-- Whether a set has all that is needed: the roots and, with every generated member whose scan does
    not fail, all that a scan of it returns. -/
structure Suffices (p : Program) (unused : UnusedSets) (roots : List Instance)
    (S : Set Instance) : Prop where
  roots : ∀ root ∈ roots, root ∈ S
  closed : ∀ inst ∈ S, (p.info inst).isGenerated = true →
    (p.needs unused inst).failure = none →
      ∃ ns, p.ScansFrom unused (DropMemo.Left p) inst ns ∧ ∀ n ∈ ns, n.inst ∈ S

/-- Where no type lies inside itself, nothing suffices that lacks a needed instance. -/
theorem Suffices.needed_subset (hacyclic : p.ByValueAcyclic) {S : Set Instance}
    (h : p.Suffices unused roots S) : {inst | p.Needed unused roots inst} ⊆ S := by
  intro inst hneeded
  induction hneeded with
  | root hroot => exact h.roots _ hroot
  | neighbor _ hgen hscan hn ih =>
    -- a scan of the walk starts with entries left by earlier ones, and comes to the same
    obtain ⟨ns', ⟨hfail, fuel, m, m', hm, hsettle⟩, hns'⟩ := h.closed _ ih hgen hscan.1
    have hscan' : p.Scans unused _ ns' := (scansFrom_sound hacyclic).1
      ⟨hfail, fuel, m, m', sound_of_left hacyclic hm, hsettle⟩
    obtain rfl := hscan.inj hacyclic hscan'
    exact hns' _ hn

end Program

namespace Walk

variable {p : Program} {config : Config} {unused : UnusedSets} {roots : List Instance} {w : Walk}

/-- What a walk has recorded suffices when the walk is done and was not stopped. -/
theorem suffices_records (hinv : Inv p config unused (DropMemo.Left p) roots w)
    (hdone : w.isDone = true) (hfatal : w.fatal = none) :
    p.Suffices unused roots {inst | inst ∈ w.records.map Record.inst} := by
  have hahead := not_ahead_of_isDone hdone hfatal
  have hrecorded : ∀ inst, w.claimed.contains inst = true ∨ w.Ahead inst →
      inst ∈ w.records.map Record.inst := by
    -- when the walk has ended, nothing is ahead: what was claimed has a record
    intro inst h
    obtain hclaimed | h := h
    · obtain ⟨r, hr, rfl⟩ := hinv.claimed hfatal inst hclaimed
      exact List.mem_map_of_mem hr
    · exact absurd h (hahead inst)
  constructor
  case roots => exact fun root hroot => hrecorded root (hinv.started root hroot)
  case closed =>
    intro inst hinst hgen hfail
    obtain ⟨r, hr, rfl⟩ := List.mem_map.1 hinst
    have hkept := hinv.kept r hr
    have hclosed := hinv.closed r hr
    cases hkept with
    | linked hgen' => exact nomatch hgen'.symm.trans hgen
    | broken _ hfail' => exact nomatch hfail'.symm.trans hfail
    | @scanned inst ns _ hscan =>
      exact ⟨ns, hscan, fun n hn => hrecorded n.inst (hclosed _ (List.mem_map_of_mem hn))⟩

end Walk

/-! ## The main result -/

/-- What it means that a collection comes to an end. -/
structure CollectResult.Ends (p : Program) (config : Config) (unused : UnusedSets)
    (r : CollectResult) : Prop where
  /-- Only finitely many instances are reached within the depth limit. -/
  finite : {inst | p.ReachedFrom unused (DropMemo.Left p) config (p.roots unused config) inst ∧
    inst.args.nesting ≤ config.depthLimit}.Finite
  /-- They are written as the program is. -/
  written : ∀ inst, p.ReachedFrom unused (DropMemo.Left p) config (p.roots unused config) inst →
    inst.WrittenIn p.letters
  /-- Whatever the order of the walk, what it claims is reached. -/
  reached : ∀ w, Walk.Possible p config unused w → ∀ inst, w.claimed.contains inst = true →
    p.ReachedFrom unused (DropMemo.Left p) config (p.roots unused config) inst
  /-- No instance is claimed twice, and the walk goes on only while the instances that it claims
      are within the limits. -/
  once : ∀ w w', Walk.Possible p config unused w → Walk.Moves p config unused w w' →
    (w'.claimed = w.claimed ∧ w'.fatal = none) ∨
      ∃ inst, w.claimed.contains inst = false ∧ w'.claimed = w.claimed.insert inst () ∧
        (w'.fatal = none ↔ config.Within inst)
  /-- The first instance beyond the limits is the last one that is claimed. -/
  stopped : ∀ w, Walk.Possible p config unused w → ∀ a, w.claimed.contains a = true →
    ¬ config.Within a → w.isDone = true ∧ (∀ w', ¬ Walk.Moves p config unused w w') ∧
      ∀ b, w.claimed.contains b = true → ¬ config.Within b → b = a
  /-- Where nothing finite suffices, the collection ends with a limit error. -/
  endless : (∀ S, p.Suffices unused (p.roots unused config) S → S.Infinite) →
    ∃ e, e.isLimit = true ∧ r.outcome = .error [e]
  /-- Where no type lies inside itself, that is where infinitely many instances are needed. -/
  infinite : p.ByValueAcyclic → {inst | p.Needed unused (p.roots unused config) inst}.Infinite →
    ∃ e, e.isLimit = true ∧ r.outcome = .error [e]

namespace Program

/-- Where all types can be classified, every collection comes to an end. -/
theorem collect_ends {p : Program} (hp : p.AlwaysClassifies) (config : Config) (a : Analyzer) :
    ∃ r enough, (∀ fuel, enough ≤ fuel → p.collect config a fuel = some r) ∧
      r.Ends p config (a.unused p) := by
  obtain ⟨r, enough, hcollect⟩ := exists_collect config preserves_left .empty a
    (fun inst _ _ _ m hm => hp.exists_settle (p.needs (a.unused p) inst).found hm)
  refine ⟨r, enough, hcollect, ?_⟩
  obtain ⟨w, hrun, rfl⟩ := collect_eq_some_iff.1 (hcollect enough (Nat.le_refl _))
  obtain ⟨hw, hdone⟩ := Walk.possible_of_run hrun
  -- without an error that stopped the walk, its records would be finitely many that suffice
  have hendless : (∀ S, p.Suffices (a.unused p) (p.roots (a.unused p) config) S → S.Infinite) →
      ∃ e, e.isLimit = true ∧ w.finish p (p.roots (a.unused p) config)
        (p.rootWarnings config.mode) = .error [e] := by
    intro hinfinite
    cases hfatal : w.fatal with
    | some e => exact ⟨e, hw.isLimit hfatal, by rw [Walk.finish, hfatal]⟩
    | none =>
      have hsuffices := Walk.suffices_records (hw.inv preserves_left .empty) hdone hfatal
      exact absurd (w.records.map Record.inst).finite_toSet (hinfinite _ hsuffices)
  constructor
  case finite => exact finite_reachedFrom (writtenIn_roots _) config.depthLimit
  case written => exact fun inst hinst => writtenIn_of_reachedFrom (writtenIn_roots _) hinst
  case reached =>
    exact fun w hw inst hinst => (hw.inv preserves_left .empty).reached inst (.inl hinst)
  case once => exact fun w w' _ hmove => hmove.claims
  case stopped =>
    intro w hw b hb hlimit
    obtain ⟨hfatal, hunique⟩ := hw.beyond hb hlimit
    refine ⟨by rw [Walk.isDone, hfatal, Bool.true_or], fun w' hmove => ?_, hunique⟩
    rw [hmove.cases.1] at hfatal
    exact Bool.false_ne_true hfatal
  case endless => exact hendless
  case infinite =>
    exact fun hacyclic hinfinite => hendless fun S hS => hinfinite.mono (hS.needed_subset hacyclic)

/-- A program with a function that calls itself for a pointer to its argument, and a type that lies
    inside itself. -/
def coil : Program where
  crates := ["app"]
  crateRegions := [0]
  regions := ["app"]
  items := #[
    { name := "main", path := "main", kind := .fn
      body := some { ops := [
        { action := .drop (.adt 2 []) },
        { action := .call .direct 1 [.ty (.prim .u8)] }] } },
    { name := "wrap", path := "wrap", kind := .fn, generics := { params := [⟨"T", .type⟩] }
      body := some { ops := [
        { action := .drop (.param 0) },
        { action := .call .direct 1 [.ty (.wrap .box (.param 0))] }] } },
    { name := "Knot", path := "Knot", kind := .adt [.adt 2 []] }]
  entries := [0]

/-- The fields of the coil's type mention no parameter. -/
theorem groundFields_coil : coil.GroundFields := by
  intro i fields hkind f hf
  match i with
  | 0 | 1 => exact nomatch hkind
  | 2 =>
    obtain rfl := ItemKind.adt.inj hkind
    obtain rfl := List.mem_singleton.1 hf
    exact .inr rfl
  | i + 3 => exact nomatch hkind

/-- The coil's type lies inside itself by value. -/
theorem not_acyclic_coil : ¬ coil.ByValueAcyclic := fun h =>
  h (.adt 2 []) (.single (.field rfl rfl List.mem_cons_self rfl))

/-- A pointer to a pointer and so on, to a number. -/
def boxed : Nat → Ty
  | 0 => .prim .u8
  | n + 1 => .wrap .box (boxed n)

/-- The pointers are different from each other. -/
theorem boxed_injective : Function.Injective boxed := by
  intro m n h
  induction m generalizing n with
  | zero =>
    cases n with
    | zero => rfl
    | succ n => exact nomatch h
  | succ m ih =>
    cases n with
    | zero => exact nomatch h
    | succ n => rw [ih (Ty.wrap.inj h).2]

/-- That program needs its function for all those pointers. -/
theorem infinite_of_suffices_coil {S : Set Instance}
    (hS : coil.Suffices (Analyzer.unused { enabled := true } coil)
      (coil.roots (Analyzer.unused { enabled := true } coil) {}) S) : S.Infinite := by
  -- what a scan finds in any case is among its neighbors
  have hnext : ∀ {inst : Instance} {n : Neighbor}, inst ∈ S →
      (coil.info inst).isGenerated = true →
      (coil.needs (Analyzer.unused { enabled := true } coil) inst).failure = none →
      .use n ∈ (coil.needs (Analyzer.unused { enabled := true } coil) inst).found →
      n.inst ∈ S := by
    intro inst n hinst hgen hfail hn
    obtain ⟨ns, ⟨-, fuel, m, m', -, hsettle⟩, hns⟩ := hS.closed inst hinst hgen hfail
    exact hns n ((sifts_of_settle hsettle).of_use hn)
  -- the program starts with the number itself, and each pointer asks for the next
  have hmem : ∀ n, ⟨.item 1, [.ty (boxed n)]⟩ ∈ S := by
    intro n
    induction n with
    | zero =>
      have hroot : ⟨.item 0, []⟩ ∈ S := hS.roots _ List.mem_cons_self
      exact hnext (n := ⟨⟨.item 1, [.ty (.prim .u8)]⟩, .call, .dummy⟩) hroot rfl rfl
        List.mem_cons_self
    | succ n ih =>
      exact hnext (n := ⟨⟨.item 1, [.ty (boxed (n + 1))]⟩, .call, .dummy⟩) ih rfl rfl
        List.mem_cons_self
  refine Set.infinite_of_injective_forall_mem ?_ hmem
  intro m n h
  exact boxed_injective (Arg.ty.inj (List.cons.inj (Instance.mk.inj h).2).1)

/-- The collection of that program ends, with a limit error. -/
theorem collect_ends_coil : ¬ coil.ByValueAcyclic ∧ coil.AlwaysClassifies ∧
    ∃ r enough, (∀ fuel, enough ≤ fuel → coil.collect {} { enabled := true } fuel = some r) ∧
      r.Ends coil {} (Analyzer.unused { enabled := true } coil) ∧
        ∃ e, e.isLimit = true ∧ r.outcome = .error [e] := by
  have halways := alwaysClassifies_of_finite groundFields_coil.finite
  obtain ⟨r, enough, hcollect, hends⟩ := collect_ends halways {} { enabled := true }
  exact ⟨not_acyclic_coil, halways, r, enough, hcollect, hends,
    hends.endless fun S hS => infinite_of_suffices_coil hS⟩

end Program

end Monomorph
