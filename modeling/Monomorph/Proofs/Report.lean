import Mathlib.Data.List.Destutter
import Mathlib.Data.List.Duplicate
import Monomorph.Proofs.Neighbors
import Monomorph.Proofs.Overflow

/-!
# The report of failed scans

Errors of failed scans are gathered as the walk goes on. In the end they are sorted by their
wording, and those that equal the one before them are left out. The wording does not tell the place,
so errors of one wording remain in the order in which they were found, and an error that was found
again after another one of its wording is reported twice (`Walk.Reports.apart`). Where the wording
tells all errors apart every one of them is reported once (`Walk.Reports.nodup`).
-/

namespace Monomorph

/-! ## Equal neighbours -/

section Repeats

variable {α : Type} [DecidableEq α]

/-- Leaving out equal neighbours is leaving out stutters. -/
theorem dropRepeats_eq_destutter (as : List α) : dropRepeats as = as.destutter (· ≠ ·) := by
  fun_induction dropRepeats as with
  | case1 => rfl
  | case2 => rfl
  -- an element is left out where it equals the next one
  | case3 b rest ih => simpa [List.destutter_cons_cons, List.destutter_cons'] using ih
  | case4 b c rest hne ih =>
    simpa [List.destutter_cons_cons, List.destutter_cons', hne] using ih

/-- What is left is in the order it was in. -/
theorem dropRepeats_sublist (as : List α) : (dropRepeats as).Sublist as := by
  rw [dropRepeats_eq_destutter]
  exact List.destutter_sublist _ as

/-- No two neighbours are equal any more. -/
theorem isChain_dropRepeats (as : List α) : (dropRepeats as).IsChain (· ≠ ·) := by
  rw [dropRepeats_eq_destutter]
  exact List.isChain_destutter _ as

end Repeats

namespace Walk

variable {p : Program} {config : Config} {unused : UnusedSets} {w : Walk} {e : Error}

/-! ## What is reported -/

/-- Whether an error comes from the scan of an instance that the walk has entered. -/
def Failed (p : Program) (unused : UnusedSets) (w : Walk) (e : Error) : Prop :=
  ∃ inst, w.claimed.contains inst = true ∧ (p.info inst).isGenerated = true ∧
    (p.needs unused inst).failure = some e

/-- What is true of the errors that a walk reports when scans have failed. -/
structure Reports (p : Program) (unused : UnusedSets) (w : Walk) (es : List Error) : Prop where
  sorted : es.Pairwise fun a b => a.message ≤ b.message
  mem_iff : ∀ e, e ∈ es ↔ w.Failed p unused e
  /-- An error is reported again only behind another one of its wording. -/
  apart : ∀ before between after e, es = before ++ e :: (between ++ e :: after) →
    ∃ a ∈ between, a ≠ e ∧ a.message = e.message
  /-- So it is reported once if the wording tells all errors apart. -/
  nodup : (∀ a b, w.Failed p unused a → w.Failed p unused b → a.message = b.message → a = b) →
    es.Nodup

/-- Reported errors are in the order of their messages. -/
theorem pairwise_report : w.report.Pairwise fun a b => a.message ≤ b.message := by
  -- leaving out repeats keeps the order
  have hsorted : (w.errors.reverse.mergeSort fun a b => Text.le a.message b.message).Pairwise
      fun a b => Text.le a.message b.message = true := by
    refine List.pairwise_mergeSort ?_ ?_ _
    · exact fun a b c hab hbc => Text.le_trans hab hbc
    · exact fun a b => Text.le_total _ _
  exact (hsorted.sublist (dropRepeats_sublist _)).imp Text.le_iff.1

/-- Between two equal reported errors there is another one with their message. -/
theorem apart_report {before between after : List Error}
    (h : w.report = before ++ e :: (between ++ e :: after)) :
    ∃ a ∈ between, a ≠ e ∧ a.message = e.message := by
  have hchain := isChain_dropRepeats (w.errors.reverse.mergeSort fun a b =>
    Text.le a.message b.message)
  have hsorted := w.pairwise_report
  rw [← report] at hchain
  rw [h] at hchain hsorted
  have hchain := (List.isChain_append.1 hchain).2.1
  have hsorted := (List.pairwise_append.1 hsorted).2.1
  cases between with
  | nil =>
    -- the error would stand next to itself
    exact absurd rfl (List.isChain_cons_cons.1 hchain).1
  | cons a between =>
    -- what comes next is not before the error in the order, and not behind it
    obtain ⟨hnext, hrest⟩ := List.pairwise_cons.1 hsorted
    have hle : e.message ≤ a.message := hnext a List.mem_cons_self
    have hge : a.message ≤ e.message := (List.pairwise_cons.1 hrest).1 e (by simp)
    exact ⟨a, List.mem_cons_self, (List.isChain_cons_cons.1 hchain).1.symm,
      String.le_antisymm hge hle⟩

/-- Where the message tells errors apart, none is reported twice. -/
theorem nodup_report (h : ∀ a ∈ w.report, ∀ b ∈ w.report, a.message = b.message → a = b) :
    w.report.Nodup := by
  by_contra hdup
  obtain ⟨e, he⟩ := List.exists_duplicate_iff_not_nodup.2 hdup
  obtain ⟨front, rest, hsplit, hfront, hrest⟩ :=
    List.cons_sublist_iff.1 (List.duplicate_iff_sublist.1 he)
  obtain ⟨before, between, rfl⟩ := List.append_of_mem hfront
  obtain ⟨between', after, rfl⟩ := List.append_of_mem (List.singleton_sublist.1 hrest)
  -- between the two there would be a different error of the same wording
  have hsplit : w.report = before ++ e :: ((between ++ between') ++ e :: after) := by
    simp [hsplit]
  obtain ⟨a, ha, hne, hmessage⟩ := apart_report hsplit
  refine hne (h a ?_ e ?_ hmessage)
  · rw [hsplit]
    exact List.mem_append_right _ (List.mem_cons_of_mem _ (List.mem_append_left _ ha))
  · simp [hsplit]

variable {M : DropMemo → Prop} {roots : List Instance}

/-- A walk that nothing stopped has gathered the errors of all scans that failed. -/
theorem Inv.mem_errors_iff (hinv : Inv p config unused M roots w) (hfatal : w.fatal = none) :
    e ∈ w.errors ↔ w.Failed p unused e := by
  constructor
  · intro he
    obtain ⟨r, hr, hgen, hfail⟩ := hinv.errors e he
    exact ⟨r.inst, hinv.recorded r hr, hgen, hfail⟩
  · intro ⟨inst, hclaimed, hgen, hfail⟩
    -- the record of the instance says that its scan failed
    obtain ⟨r, hr, rfl⟩ := hinv.claimed hfatal inst hclaimed
    have hkept := hinv.kept r hr
    cases hkept with
    | linked hgen' => exact nomatch hgen'.symm.trans hgen
    | broken _ hfail' he =>
      obtain rfl := Option.some.inj (hfail'.symm.trans hfail)
      exact he
    | scanned _ hscan => exact nomatch hscan.1.symm.trans hfail

/-- The report of a walk is sorted and has the failures of its scans. -/
theorem Inv.reports (hinv : Inv p config unused M roots w) (hfatal : w.fatal = none) :
    w.Reports p unused w.report := by
  have hmem : ∀ e, e ∈ w.report ↔ w.Failed p unused e :=
    fun e => mem_report.trans (hinv.mem_errors_iff hfatal)
  constructor
  case sorted => exact pairwise_report
  case mem_iff => exact hmem
  case apart => exact fun before between after e h => apart_report h
  case nodup =>
    intro h
    exact nodup_report fun a ha b hb => h a b ((hmem a).1 ha) ((hmem b).1 hb)

/-- When a walk has ended, in whatever order, and was not stopped by a limit, it reports the scans
    that failed if there are any. -/
theorem Possible.reports (hw : Possible p config unused w) (hfatal : w.fatal = none)
    (he : w.Failed p unused e) (warnings : List Diagnostic) :
    ∃ es, w.finish p (p.roots unused config) warnings = .error es ∧ w.Reports p unused es := by
  have hinv := hw.inv Program.preserves_true trivial
  have herrors : w.errors ≠ [] := List.ne_nil_of_mem ((hinv.mem_errors_iff hfatal).2 he)
  exact ⟨w.report, finish_eq_report _ warnings hfatal herrors, hinv.reports hfatal⟩

/-- Where no type lies inside itself by value, the same scans fail in every order. -/
theorem Possible.failed_iff (hacyclic : p.ByValueAcyclic) (hw : Possible p config unused w)
    (hdone : w.isDone = true) (hfatal : w.fatal = none) : w.Failed p unused e ↔
      ∃ inst, p.Wanted config unused (p.roots unused config) inst ∧
        (p.info inst).isGenerated = true ∧ (p.needs unused inst).failure = some e := by
  have hinv := hw.inv (Program.preserves_sound hacyclic) DropMemo.sound_empty
  constructor
  · intro ⟨inst, hclaimed, h⟩
    exact ⟨inst, Program.wanted_of_reachedFrom hacyclic (hinv.reached inst (.inl hclaimed)), h⟩
  · intro ⟨inst, hwanted, h⟩
    obtain ⟨r, hr, rfl⟩ := exists_record_of_wanted hacyclic hinv hdone hfatal hwanted
    exact ⟨r.inst, hinv.recorded r hr, h⟩

end Walk

/-- What it means that a collection tells which scans have failed. -/
structure CollectResult.TellsFailures (p : Program) (config : Config) (unused : UnusedSets)
    (r : CollectResult) : Prop where
  /-- If no limit stopped the walk and a scan failed, the failed scans are reported. -/
  told : r.walk.fatal = none → (∃ e, r.walk.Failed p unused e) →
    ∃ es, r.outcome = .error es ∧ r.walk.Reports p unused es
  /-- So they are if the walk takes another order. -/
  ordered : ∀ w, Walk.Possible p config unused w → w.isDone = true → w.fatal = none →
    (∃ e, w.Failed p unused e) →
      ∃ es, w.finish p (p.roots unused config) (p.rootWarnings config.mode) = .error es ∧
        w.Reports p unused es
  /-- Where no type lies inside itself by value, all orders tell the same errors. -/
  same : p.ByValueAcyclic → ∀ w, Walk.Possible p config unused w → w.isDone = true →
    w.fatal = none → ∀ e, w.Failed p unused e ↔
      ∃ inst, p.Wanted config unused (p.roots unused config) inst ∧
        (p.info inst).isGenerated = true ∧ (p.needs unused inst).failure = some e

namespace Program

/-- A collection that no limit ended reports the errors of all scans that failed and nothing else,
    in the order of their wording. -/
theorem collect_tellsFailures {p : Program} {config : Config} {a : Analyzer} {fuel : Nat}
    {r : CollectResult} (h : p.collect config a fuel = some r) :
    r.TellsFailures p config (a.unused p) := by
  obtain ⟨w, hrun, rfl⟩ := collect_eq_some_iff.1 h
  have hw := (Walk.possible_of_run hrun).1
  -- the first two hold of any walk that has ended, the last one where no type lies inside itself
  constructor
  case told => exact fun hfatal ⟨e, he⟩ => hw.reports hfatal he _
  case ordered => exact fun w hw _ hfatal ⟨e, he⟩ => hw.reports hfatal he _
  case same => exact fun hacyclic w hw hdone hfatal e => hw.failed_iff hacyclic hdone hfatal

/-- A program with two functions that show a truth value, for which nothing implements that. The
    first one is generic and is called on both sides of the second. -/
def unshown : Program where
  crates := ["app"]
  crateRegions := [0]
  regions := ["app"]
  items := #[
    { name := "main", path := "main", kind := .fn
      body := some { ops := [
        { action := .call .direct 3 [.ty (.prim .u8)] },
        { action := .call .direct 4 [] },
        { action := .call .direct 3 [.ty (.prim .u16)] }] } },
    { name := "Show", path := "Show", kind := .trait
      generics := { params := [⟨"Self", .type⟩] } },
    { name := "show", path := "Show::show", kind := .traitMethod 1
      generics := { parent := some 1, inherited := 1, params := [⟨"Self", .type⟩] } },
    { name := "log", path := "log", kind := .fn, generics := { params := [⟨"T", .type⟩] }
      body := some { ops := [
        { action := .use (.param 0) },
        { action := .call .direct 2 [.ty (.prim .bool)], span := ⟨1, 10, 14⟩ }] } },
    { name := "flush", path := "flush", kind := .fn
      body := some { ops := [
        { action := .call .direct 2 [.ty (.prim .bool)], span := ⟨1, 20, 24⟩ }] } }]
  entries := [0]

/-- That nothing implements showing a truth value, found at a place of that program. -/
def unshownAt (span : Span) : Error := .unresolved "Show::show<bool>" (.noImpl "Show" "bool") span

/-- The generic function is entered twice, so its error is found on both sides of the other. -/
theorem exists_collect_unshown : ∃ r, unshown.collect {} { enabled := true } 20 = some r ∧
    r.walk.fatal = none ∧ r.walk.errors =
      [unshownAt ⟨1, 10, 14⟩, unshownAt ⟨1, 20, 24⟩, unshownAt ⟨1, 10, 14⟩] := by
  -- the three errors are those of one walk, which is run once
  have hrun : ((unshown.collect {} { enabled := true } 20).any fun r =>
      r.walk.fatal.isNone && decide (r.walk.errors =
        [unshownAt ⟨1, 10, 14⟩, unshownAt ⟨1, 20, 24⟩, unshownAt ⟨1, 10, 14⟩])) = true := by
    decide +kernel
  simpa only [Option.any_eq_true, Bool.and_eq_true, Option.isNone_iff_eq_none,
    decide_eq_true_eq] using hrun

/-- The collection of that program tells which scans failed. -/
theorem collect_tellsFailures_unshown : ∃ r, unshown.collect {} { enabled := true } 20 = some r ∧
    r.TellsFailures unshown {} (Analyzer.unused { enabled := true } unshown) ∧
      r.walk.fatal = none ∧
        ∃ e, r.walk.Failed unshown (Analyzer.unused { enabled := true } unshown) e := by
  obtain ⟨r, hr, hfatal, herrors⟩ := exists_collect_unshown
  refine ⟨r, hr, collect_tellsFailures hr, hfatal, unshownAt ⟨1, 10, 14⟩, ?_⟩
  -- The error was gathered on the way, so a scan failed with it.
  obtain ⟨w, hrun, rfl⟩ := collect_eq_some_iff.1 hr
  have hinv := (Walk.possible_of_run hrun).1.inv preserves_true trivial
  rw [← hinv.mem_errors_iff hfatal, herrors]
  exact List.mem_cons_self

/-- Two of the three errors reported there are equal. -/
theorem collect_unshown_repeats : ∃ r es, unshown.collect {} { enabled := true } 20 = some r ∧
    r.walk.fatal = none ∧ r.outcome = .error es ∧
      es = [unshownAt ⟨1, 10, 14⟩, unshownAt ⟨1, 20, 24⟩, unshownAt ⟨1, 10, 14⟩] ∧ ¬ es.Nodup := by
  obtain ⟨r, hr, hfatal, herrors⟩ := exists_collect_unshown
  obtain ⟨w, -, rfl⟩ := collect_eq_some_iff.1 hr
  have hreport : w.report =
      [unshownAt ⟨1, 10, 14⟩, unshownAt ⟨1, 20, 24⟩, unshownAt ⟨1, 10, 14⟩] := by
    -- all three have one wording, so sorting leaves them as they were found
    rw [Walk.report, herrors, List.mergeSort_of_pairwise (by decide +kernel)]
    decide +kernel
  refine ⟨_, _, hr, hfatal, Walk.finish_eq_report _ _ hfatal ?_, hreport, ?_⟩
  · exact herrors ▸ List.cons_ne_nil _ _
  · rw [hreport]
    decide +kernel

end Program

end Monomorph
