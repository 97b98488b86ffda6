import Monomorph.Proofs.Neighbors

/-!
# Roots in both modes

An item is a candidate if it is anchored, which is so in both modes, or if it can stand alone and
the mode is eager. Candidates come from two lists that overlap; each is taken once, and a generic
one is left out with a warning. Only what is not generic can stand alone, so the modes differ in
roots and never in warnings (`Program.picksRoots`), and the lazy roots are among the eager ones. In
a program where no type lies inside itself by value, an eager collection has everything that a lazy
one has, since a needed instance stays needed when there are more roots.
-/

namespace Monomorph

/-! ## Each once -/

variable {α : Type} [BEq α] [LawfulBEq α]

/-- Leaving out repetitions keeps every element once. -/
theorem nodup_eraseDups (xs : List α) : xs.eraseDups.Nodup := by
  cases xs with
  | nil => simp
  | cons a xs =>
    rw [List.eraseDups_cons, List.nodup_cons, List.mem_eraseDups]
    exact ⟨by simp, nodup_eraseDups _⟩
termination_by xs.length
decreasing_by exact Nat.lt_succ_of_le (List.length_filter_le _ _)

/-- It does not matter whether repetitions or unwanted elements are left out first. -/
theorem filter_eraseDups (f : α → Bool) (xs : List α) :
    xs.eraseDups.filter f = (xs.filter f).eraseDups := by
  cases xs with
  | nil => simp
  | cons a xs =>
    have hcomm : (xs.filter fun b => !b == a).filter f = (xs.filter f).filter fun b => !b == a := by
      simp only [List.filter_filter, Bool.and_comm]
    rw [List.eraseDups_cons, List.filter_cons, List.filter_cons, filter_eraseDups f _, hcomm]
    split
    · rw [List.eraseDups_cons]
    · next hf =>
      -- an unwanted element is not among the wanted ones that follow
      have hrest : ((xs.filter f).filter fun b => !b == a) = xs.filter f := by
        refine List.filter_eq_self.2 fun b hb => ?_
        have hfb := (List.mem_filter.1 hb).2
        grind
      rw [hrest]
termination_by xs.length
decreasing_by exact Nat.lt_succ_of_le (List.length_filter_le _ _)

namespace Program

/-! ## Candidates -/

variable (p : Program) (i : ItemId)

/-- Whether an item has to exist in both modes: an entry point, or something local that is called or
    is a static, and that is a static or has forced linkage. -/
def IsAnchored : Prop :=
  i ∈ p.entries ∨ i < p.items.size ∧ (p.item i).provenance.isLocal = true ∧
    ((p.item i).kind.isCallable = true ∨ (p.item i).kind = .static) ∧
      ((p.item i).kind = .static ∨ (p.item i).provenance.forced = true)

/-- Whether an item is a local function or a local method of a block, and has a body. -/
def IsLocalFunction : Prop :=
  i < p.items.size ∧ (p.item i).provenance.isLocal = true ∧
    ((p.item i).kind = .fn ∨ ∃ method, (p.item i).kind = .implMethod method) ∧
      ∃ b, (p.item i).body = some b

/-- Whether an item has parameters. -/
def IsGeneric : Prop := (p.item i).generics.isEmpty = false

variable {p i} {mode : Mode}

/-- The test for a static is whether the item is one. -/
theorem isStatic_iff {kind : ItemKind} : kind.isStatic = true ↔ kind = .static := by
  cases kind <;> simp [ItemKind.isStatic]

/-- An eager root is a function or method with a body and without parameters. -/
theorem isEagerRoot_iff {it : Item} : isEagerRoot it = true ↔
    (it.kind = .fn ∨ ∃ method, it.kind = .implMethod method) ∧ it.generics.isEmpty = true ∧
      ∃ b, it.body = some b := by
  rw [← Option.isSome_iff_exists]
  cases hkind : it.kind <;> simp [isEagerRoot, hkind]

/-- Who is a candidate: what is anchored, and in eager mode functions without parameters. -/
theorem mem_rootCandidates : i ∈ p.rootCandidates mode ↔
    p.IsAnchored i ∨ mode = .eager ∧ p.IsLocalFunction i ∧ ¬ p.IsGeneric i := by
  -- The test whether an item can be called is met by every function and method.
  have hcallable : ∀ kind : ItemKind, (kind = .fn ∨ ∃ method, kind = .implMethod method) →
      kind.isCallable = true := by
    intro kind h
    obtain rfl | ⟨method, rfl⟩ := h <;> rfl
  have hkind := hcallable (p.item i).kind
  rw [rootCandidates, List.mem_eraseDups, List.mem_append, mem_itemsWhere]
  simp only [isForcedRoot, Bool.and_eq_true, Bool.or_eq_true, beq_iff_eq, isStatic_iff,
    isEagerRoot_iff, IsAnchored, IsLocalFunction, IsGeneric, Bool.not_eq_false]
  grind

/-- The walk starts from exactly the candidates that have no parameters. -/
theorem mem_rootItems_iff : i ∈ p.rootItems mode ↔ i < p.items.size ∧ ¬ p.IsGeneric i ∧
    (p.IsAnchored i ∨ mode = .eager ∧ p.IsLocalFunction i) := by
  rw [mem_rootItems, mem_rootCandidates, IsGeneric, Bool.not_eq_false]
  grind

/-- Candidates come from two lists in turn; no item is in both, so sorting them is enough. -/
theorem increasing_rootItems : (p.rootItems mode).Pairwise (· < ·) :=
  Positions.increasing_sort ((nodup_eraseDups _).filter _)

/-! ## Warnings -/

variable (p mode) in
/-- The candidates that have parameters. -/
def genericCandidates : List ItemId :=
  (p.rootCandidates mode).filter fun i => !(p.item i).generics.isEmpty

/-- No generic candidate is warned about twice. -/
theorem nodup_genericCandidates : (p.genericCandidates mode).Nodup :=
  (nodup_eraseDups _).filter _

/-- The generic candidates are the anchored items with parameters. -/
theorem mem_genericCandidates :
    i ∈ p.genericCandidates mode ↔ p.IsGeneric i ∧ p.IsAnchored i := by
  rw [genericCandidates, List.mem_filter, mem_rootCandidates, Bool.not_eq_true', IsGeneric]
  grind

/-- Eager mode adds no generic candidates. -/
theorem genericCandidates_eager : p.genericCandidates .eager = p.genericCandidates .lazy := by
  -- the mode decides about functions that can stand alone, and a generic one cannot
  have hforced : ∀ i, (p.item i).generics.isEmpty = false →
      isForcedRoot .eager (p.item i) = isForcedRoot .lazy (p.item i) := by
    intro i hgeneric
    have heager : isEagerRoot (p.item i) = false := by
      simp [isEagerRoot, hgeneric]
    simp [isForcedRoot, heager]
  -- the two lists of candidates are compared after taking the generic ones
  simp only [genericCandidates, rootCandidates, filter_eraseDups, List.filter_append, itemsWhere,
    List.filter_filter]
  congr 2
  refine List.filter_congr fun i _ => ?_
  cases hgeneric : (p.item i).generics.isEmpty with
  | true => rfl
  | false => rw [hforced i hgeneric]

end Program

/-! ## More roots -/

section

variable {p : Program} {unused : UnusedSets} {roots roots' : List Instance}

/-- What is needed stays needed when there are more roots. -/
theorem Program.Needed.mono (hroots : ∀ root ∈ roots, root ∈ roots') {inst : Instance}
    (h : p.Needed unused roots inst) : p.Needed unused roots' inst := by
  induction h with
  | root hroot => exact .root (hroots _ hroot)
  | neighbor _ hgen hscan hn ih => exact .neighbor ih hgen hscan hn

/-- With more roots more uses are needed. -/
theorem Program.NeededUse.mono (hroots : ∀ root ∈ roots, root ∈ roots') {x y : Instance}
    {kind : UseKind} (h : p.NeededUse unused roots x y kind) :
    p.NeededUse unused roots' x y kind := by
  obtain ⟨hx, huse⟩ := h
  exact ⟨hx.mono hroots, huse⟩

end

/-- Whether all instances and uses of a collection are those of another one, too. -/
structure Collection.IsPart (c c' : Collection) : Prop where
  contains : ∀ inst, c.contains inst = true → c'.contains inst = true
  uses : ∀ x y kind, c.Uses x y kind → c'.Uses x y kind

/-- What is collected from some roots is a part of what is collected from more. -/
theorem Collection.IsExact.isPart {p : Program} (hacyclic : p.ByValueAcyclic)
    {unused : UnusedSets} {roots roots' : List Instance} {c c' : Collection}
    (hc : c.IsExact p unused roots) (hc' : c'.IsExact p unused roots')
    (hroots : ∀ root ∈ roots, root ∈ roots') : c.IsPart c' where
  contains inst h := (hc'.contains_iff inst).2 (((hc.contains_iff inst).1 h).mono hroots)
  uses _ _ _ h := (hc'.uses_iff hacyclic).2 (((hc.uses_iff hacyclic).1 h).mono hroots)

/-! ## The main result -/

namespace Program

/-- What it means that the walk starts from the right items, and that eager mode only adds. -/
structure PicksRoots (p : Program) : Prop where
  increasing : ∀ mode, (p.rootItems mode).Pairwise (· < ·)
  mem_iff : ∀ mode i, i ∈ p.rootItems mode ↔ i < p.items.size ∧ ¬ p.IsGeneric i ∧
    (p.IsAnchored i ∨ mode = .eager ∧ p.IsLocalFunction i)
  lazy_subset : ∀ i ∈ p.rootItems .lazy, i ∈ p.rootItems .eager
  /-- There is one warning for each generic item that is anchored, in either mode. -/
  warned : ∃ ids : List ItemId, ids.Nodup ∧ (∀ i, i ∈ ids ↔ p.IsGeneric i ∧ p.IsAnchored i) ∧
    ∀ mode, p.rootWarnings mode = ids.map p.genericRootWarning
  warning : ∀ i, (p.genericRootWarning i).code.text = "W7001" ∧
    (p.genericRootWarning i).severity = .warning
  /-- The user gets these warnings with a collection. -/
  told : ∀ config a fuel r c, p.collect config a fuel = some r → r.outcome = .ok c →
    c.warnings = p.rootWarnings config.mode
  /-- An eager collection has all instances and uses of a lazy one, whatever the limits are. -/
  grows : p.ByValueAcyclic → ∀ (lazy eager : Config) a fuel fuel' r r' c c', lazy.mode = .lazy →
    eager.mode = .eager → p.collect lazy a fuel = some r → r.outcome = .ok c →
      p.collect eager a fuel' = some r' → r'.outcome = .ok c' → c.IsPart c'

variable {p : Program}

/-- Every lazy root is an eager one. -/
theorem lazy_subset_eager {i : ItemId} (h : i ∈ p.rootItems .lazy) : i ∈ p.rootItems .eager := by
  obtain ⟨hi, hgeneric, hanchored | ⟨hmode, -⟩⟩ := mem_rootItems_iff.1 h
  · exact mem_rootItems_iff.2 ⟨hi, hgeneric, .inl hanchored⟩
  · cases hmode

/-- The warning about a generic root has its code and is no error. -/
theorem code_genericRootWarning (i : ItemId) :
    (p.genericRootWarning i).code = .genericRoot ∧
      (p.genericRootWarning i).severity = .warning := by
  unfold genericRootWarning Diagnostic.withLabel
  split <;> exact ⟨rfl, rfl⟩

/-- What is collected lazily is a part of what is collected eagerly. -/
theorem isPart_of_collect (hacyclic : p.ByValueAcyclic) {lazy eager : Config} {a : Analyzer}
    {fuel fuel' : Nat} {r r' : CollectResult} {c c' : Collection} (hlazy : lazy.mode = .lazy)
    (heager : eager.mode = .eager) (h : p.collect lazy a fuel = some r) (hc : r.outcome = .ok c)
    (h' : p.collect eager a fuel' = some r') (hc' : r'.outcome = .ok c') : c.IsPart c' := by
  obtain ⟨hw, hfinish⟩ := complete_of_collect hacyclic h hc
  obtain ⟨hw', hfinish'⟩ := complete_of_collect hacyclic h' hc'
  refine (hw.isExact hfinish hacyclic).isPart hacyclic (hw'.isExact hfinish' hacyclic) ?_
  intro root hroot
  rw [roots, hlazy] at hroot
  rw [roots, heager]
  obtain ⟨i, hi, rfl⟩ := List.mem_map.1 hroot
  exact List.mem_map_of_mem (lazy_subset_eager hi)

/-- Every program's roots are picked by these rules. -/
theorem picksRoots (p : Program) : p.PicksRoots where
  increasing _ := increasing_rootItems
  mem_iff _ _ := mem_rootItems_iff
  lazy_subset _ := lazy_subset_eager
  warned := by
    -- Both modes warn about the candidates of the lazy mode, as no eager one is generic.
    refine ⟨p.genericCandidates .lazy, nodup_genericCandidates, fun i => mem_genericCandidates, ?_⟩
    intro mode
    cases mode with
    | lazy => rfl
    | eager =>
      rw [← genericCandidates_eager]
      rfl
  warning i := by
    obtain ⟨hcode, hseverity⟩ := code_genericRootWarning (p := p) i
    exact ⟨by rw [hcode, Code.text], hseverity⟩
  told config a fuel r c h hc := by
    obtain ⟨w, -, rfl⟩ := collect_eq_some_iff.1 h
    obtain ⟨-, -, -, rfl⟩ := Walk.finish_eq_ok_iff.1 hc
    rfl
  grows hacyclic _ _ _ _ _ _ _ _ _ hlazy heager h hc h' hc' :=
    isPart_of_collect hacyclic hlazy heager h hc h' hc'

/-- A program with a generic function that is an entry point and has forced linkage, a function
    that nothing calls and a static. -/
def depot : Program where
  crates := ["app"]
  crateRegions := [0]
  regions := ["app"]
  items := #[
    { name := "main", path := "main", kind := .fn
      body := some { ops := [{ action := .call .direct 1 [.ty (.prim .u8)] }] } },
    { name := "keep", path := "keep", kind := .fn, generics := { params := [⟨"T", .type⟩] }
      body := some { ops := [{ action := .drop (.param 0) }] }, provenance := { forced := true } },
    { name := "spare", path := "spare", kind := .fn
      body := some { ops := [
        { action := .call .direct 1 [.ty (.wrap .box (.prim .bool))] },
        { action := .staticRef 3 }] } },
    { name := "TABLE", path := "TABLE", kind := .static, body := some {} }]
  entries := [0, 1, 0, 1]

/-- No type in the depot lies inside itself. -/
theorem acyclic_depot : depot.ByValueAcyclic := by
  have hflat : depot.FlatFields := by
    intro i fields hkind
    match i with
    | 0 | 1 | 2 | 3 => exact nomatch hkind
    | i + 4 => exact nomatch hkind
  exact acyclic_of_wellFounded hflat.wellFounded

/-- Both modes succeed there, and what the lazy one collects is part of what the eager one does. -/
theorem picksRoots_depot : depot.ByValueAcyclic ∧ ∃ r c r' c',
    depot.collect {} { enabled := true } 20 = some r ∧ r.outcome = .ok c ∧
      depot.collect { mode := .eager } { enabled := true } 20 = some r' ∧ r'.outcome = .ok c' ∧
        c'.contains ⟨.item 2, []⟩ = true ∧ c.IsPart c' := by
  -- The eager run takes in one function more, which is how the two results differ.
  obtain ⟨r, c, hr, hc, -⟩ := @exists_collection depot {} { enabled := true } 20 []
    (by decide +kernel)
  obtain ⟨r', c', hr', hc', hcontains⟩ :=
    @exists_collection depot { mode := .eager } { enabled := true } 20 [⟨.item 2, []⟩]
      (by decide +kernel)
  exact ⟨acyclic_depot, r, c, r', c', hr, hc, hr', hc', hcontains _ List.mem_cons_self,
    (picksRoots depot).grows acyclic_depot _ _ _ _ _ _ _ _ _ rfl rfl hr hc hr' hc'⟩

example : depot.rootItems .lazy = [0, 3] ∧ depot.rootItems .eager = [0, 2, 3] ∧
    depot.rootWarnings .eager = [depot.genericRootWarning 1] := by
  decide +kernel

end Program

end Monomorph
