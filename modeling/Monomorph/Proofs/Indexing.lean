import Monomorph.Proofs.ByteOrder
import Monomorph.Proofs.Neighbors
import Monomorph.Proofs.Overflow

/-!
# Numbers of instances

The instances of a collection are numbered in the order of their symbols, and everything that a
collection says goes by these numbers: its symbols, its edges and its roots
(`Collection.IsIndexed`). Symbols are compared between neighbours of the sorted list only. That is
enough: where a walk ends without errors there is a collection unless two instances have one symbol,
and if two have, the error names such a symbol and two instances that have it
(`Program.collect_numbers`).
-/

namespace Monomorph

/-- What it means that a collection goes by the numbers of its instances. -/
structure Collection.IsIndexed (p : Program) (roots : List Instance) (c : Collection) : Prop where
  /-- The numbers are those below the size. -/
  exists_member_iff : ∀ i, (∃ m, c.member? i = some m) ↔ i < c.size
  /-- Symbols increase in the order of their bytes. -/
  increasing : ∀ i j m n, c.member? i = some m → c.member? j = some n → i < j →
    Text.bytes m.symbol < Text.bytes n.symbol
  symbol : ∀ i m, c.member? i = some m → m.symbol = m.inst.symbol p
  /-- What is known of a node is what is known of its instance; the size of glue is found later. -/
  info : ∀ i m, c.member? i = some m → ∃ size, m.info = { p.info m.inst with size }
  nodeOf?_member : ∀ i m, c.member? i = some m → c.nodeOf? m.inst = some i
  nodeOf?_other : ∀ inst, (∀ i m, c.member? i = some m → m.inst ≠ inst) → c.nodeOf? inst = none
  target_lt : ∀ i, ∀ e ∈ c.graph.usesOf i, e.target < c.size
  increasing_roots : c.roots.Pairwise (· < ·)
  exists_root : ∀ root ∈ roots, ∃ i, c.nodeOf? root = some i
  mem_roots_iff : ∀ i, i ∈ c.roots ↔ ∃ root ∈ roots, c.nodeOf? root = some i
  isRoot_iff : ∀ i, c.isRoot i = true ↔ i ∈ c.roots

namespace Walk

variable {p : Program} {config : Config} {unused : UnusedSets} {M : DropMemo → Prop}
  {roots : List Instance} {w : Walk} {warnings : List Diagnostic} {c : Collection}

/-! ## Collections are indexed -/

/-- The roots of the result are increasing in number. -/
theorem increasing_roots_finish (h : w.finish p roots warnings = .ok c) :
    c.roots.Pairwise (· < ·) := by
  obtain ⟨-, -, -, rfl⟩ := finish_eq_ok_iff.1 h
  exact List.pairwise_lt_range.filter _

/-- What a walk comes to is indexed, in whatever order it went. -/
theorem Inv.isIndexed (hinv : Inv p config unused M roots w) (hdone : w.isDone = true)
    (h : w.finish p roots warnings = .ok c) : c.IsIndexed p roots := by
  have hnodup := nodup_members_finish h hinv.nodup
  obtain ⟨hfatal, -, -, -⟩ := finish_eq_ok_iff.1 h
  constructor
  case exists_member_iff =>
    intro i
    rw [← Option.isSome_iff_exists, Collection.member?, isSome_getElem?]
    rfl
  case increasing =>
    intro i j m n hm hn hlt
    obtain ⟨hi, rfl⟩ := List.getElem?_eq_some_iff.1 hm
    obtain ⟨hj, rfl⟩ := List.getElem?_eq_some_iff.1 hn
    -- members are sorted by symbols, and these are compared as bytes
    have hsorted := List.pairwise_iff_getElem.1 (pairwise_members_finish h) i j hi hj hlt
    exact Text.lt_iff_bytes_lt.1 hsorted
  case symbol =>
    intro i m hm
    obtain ⟨r, -, rfl⟩ := (mem_members_finish h).1 (List.mem_of_getElem? hm)
    rfl
  case info =>
    intro i m hm
    obtain ⟨r, hr, rfl⟩ := (mem_members_finish h).1 (List.mem_of_getElem? hm)
    exact (hinv.kept r hr).info
  case nodeOf?_member =>
    intro i m hm
    exact (Collection.nodeOf?_eq_some_iff hnodup).2 ⟨m, hm, rfl⟩
  case nodeOf?_other =>
    intro inst hother
    by_contra hsome
    obtain ⟨i, hi⟩ := Option.ne_none_iff_exists'.1 hsome
    obtain ⟨m, hm, hinst⟩ := (Collection.nodeOf?_eq_some_iff hnodup).1 hi
    exact hother i m hm hinst
  case target_lt => exact fun i e => target_lt_finish h hinv.nodup
  case increasing_roots => exact increasing_roots_finish h
  case exists_root =>
    -- roots have been claimed since nothing lies ahead, and what is claimed is recorded
    intro root hroot
    obtain hclaimed | hahead := hinv.started root hroot
    · obtain ⟨r, hr, rfl⟩ := hinv.claimed hfatal root hclaimed
      obtain ⟨i, hi⟩ := List.mem_iff_getElem?.1 ((mem_members_finish h).2 ⟨r, hr, rfl⟩)
      exact ⟨i, (Collection.nodeOf?_eq_some_iff hnodup).2 ⟨_, hi, rfl⟩⟩
    · exact absurd hahead (not_ahead_of_isDone hdone hfatal root)
  case mem_roots_iff =>
    intro i
    simp only [mem_roots_finish h, Collection.nodeOf?_eq_some_iff hnodup]
    constructor
    · rintro ⟨m, hm, hroot⟩
      exact ⟨m.inst, hroot, m, hm, rfl⟩
    · rintro ⟨root, hroot, m, hm, hinst⟩
      exact ⟨m, hm, hinst ▸ hroot⟩
  case isRoot_iff =>
    intro i
    rw [Collection.isRoot, List.contains_iff_mem]

/-! ## Clashes -/

/-- Whether two different instances have been recorded that have one symbol. -/
structure Clash (p : Program) (w : Walk) (x y : Instance) : Prop where
  left : ∃ r ∈ w.records, r.inst = x
  right : ∃ r ∈ w.records, r.inst = y
  ne : x ≠ y
  symbol : x.symbol p = y.symbol p

/-- A clash has no direction. -/
theorem Clash.symm {x y : Instance} (h : w.Clash p x y) : w.Clash p y x :=
  ⟨h.right, h.left, h.ne.symm, h.symbol.symm⟩

/-- The neighbours found have one symbol. -/
theorem exists_of_findClash {ms : List Member} {a b : Member} (h : findClash ms = some (a, b)) :
    a.symbol = b.symbol ∧ ∃ before after, ms = before ++ a :: b :: after := by
  -- the members are in symbol order, so equal symbols stand next to each other
  fun_induction findClash ms with
  | case1 a' b' rest he =>
    obtain ⟨rfl, rfl⟩ := Prod.mk.inj (Option.some.inj h)
    exact ⟨he, [], rest, rfl⟩
  | case2 a' b' rest _ ih =>
    obtain ⟨he, before, after, hrest⟩ := ih h
    exact ⟨he, a' :: before, after, by rw [hrest, List.cons_append]⟩
  | case3 => exact absurd h (Option.some_ne_none _).symm

/-- The pair that the search reports does clash. -/
theorem clash_of_findClash (hnodup : (w.records.map Record.inst).Nodup) {a b : Member}
    (h : findClash (w.members p) = some (a, b)) :
    w.Clash p a.inst b.inst ∧ a.symbol = a.inst.symbol p := by
  obtain ⟨he, before, after, hms⟩ := exists_of_findClash h
  have hmem : ∀ m ∈ [a, b], m ∈ w.members p := by
    rw [hms]
    simp
  obtain ⟨r, hr, rfl⟩ := mem_members.1 (hmem a (by simp))
  obtain ⟨s, hs, rfl⟩ := mem_members.1 (hmem b (by simp))
  -- the two stand at different places, so their instances differ
  have hne : r.inst ≠ s.inst := by
    have hnodup := nodup_members (p := p) hnodup
    rw [hms, List.map_append, List.map_cons, List.map_cons] at hnodup
    have hnot := (List.nodup_cons.1 (List.nodup_append.1 hnodup).2.1).1
    intro he
    exact hnot (he ▸ List.mem_cons_self)
  exact ⟨⟨⟨r, hr, rfl⟩, ⟨s, hs, rfl⟩, hne, he⟩, rfl⟩

/-- A walk that ended without errors comes to a collection if no symbols clash. -/
theorem exists_finish_of_not_clash (hnodup : (w.records.map Record.inst).Nodup)
    (hfatal : w.fatal = none) (herrors : w.errors = []) (h : ∀ x y, ¬ w.Clash p x y) :
    ∃ c, w.finish p roots warnings = .ok c := by
  have hclash : findClash (w.members p) = none := by
    cases hfind : findClash (w.members p) with
    | none => rfl
    | some ab => exact absurd (clash_of_findClash hnodup hfind).1 (h _ _)
  exact ⟨_, finish_eq_ok_iff.2 ⟨hfatal, herrors, hclash, rfl⟩⟩

/-- No symbols clash in what comes to a collection. -/
theorem not_clash_finish (h : w.finish p roots warnings = .ok c) (x y : Instance) :
    ¬ w.Clash p x y := by
  intro ⟨⟨r, hr, hx⟩, ⟨s, hs, hy⟩, hne, hsymbol⟩
  subst hx hy
  have hmem := symbol_inj_finish h ((mem_members_finish h).2 ⟨r, hr, rfl⟩)
    ((mem_members_finish h).2 ⟨s, hs, rfl⟩) hsymbol
  exact hne (congrArg Member.inst hmem)

/-- A walk that ended without errors reports two instances with one symbol if there are such. -/
theorem exists_finish_of_clash (hnodup : (w.records.map Record.inst).Nodup)
    (hfatal : w.fatal = none) (herrors : w.errors = []) {x y : Instance} (h : w.Clash p x y) :
    ∃ x y, w.Clash p x y ∧ w.finish p roots warnings =
      .error [.symbolClash (x.symbol p) (x.text p) (y.text p)] := by
  cases hfind : findClash (w.members p) with
  | none =>
    -- without neighbours that clash there would be a collection
    have hok : ∃ c, w.finish p roots warnings = .ok c :=
      ⟨_, finish_eq_ok_iff.2 ⟨hfatal, herrors, hfind, rfl⟩⟩
    obtain ⟨c, hc⟩ := hok
    exact absurd h (not_clash_finish hc x y)
  | some ab =>
    obtain ⟨a, b⟩ := ab
    obtain ⟨hab, hsymbol⟩ := clash_of_findClash hnodup hfind
    have hfinish : w.finish p roots warnings = .error [clashError p a b] := by
      simp [finish, hfatal, herrors, hfind]
    -- the error names the two in the order of their texts
    rw [hfinish, clashError, hsymbol]
    split
    · exact ⟨_, _, hab, rfl⟩
    · exact ⟨_, _, hab.symm, by rw [hab.symbol]⟩

/-! ## The main result -/

/-- What it means that what a walk comes to goes by the symbols of the instances recorded. -/
structure Numbers (p : Program) (roots : List Instance) (w : Walk)
    (outcome : Except (List Error) Collection) : Prop where
  indexed : ∀ c, outcome = .ok c → c.IsIndexed p roots
  /-- Where the walk ended without errors, there is a collection unless symbols clash. -/
  exists_ok_iff : w.fatal = none → w.errors = [] →
    ((∃ c, outcome = .ok c) ↔ ∀ x y, ¬ w.Clash p x y)
  /-- Otherwise a symbol that clashes is reported and nothing else. -/
  reported : w.fatal = none → w.errors = [] → (∃ x y, w.Clash p x y) → ∃ x y, w.Clash p x y ∧
    outcome = .error [.symbolClash (x.symbol p) (x.text p) (y.text p)]

/-- What a finished walk comes to is numbered by symbol, or it reports a clash. -/
theorem Inv.numbers (hinv : Inv p config unused M roots w) (hdone : w.isDone = true) :
    w.Numbers p roots (w.finish p roots warnings) where
  indexed _ hc := hinv.isIndexed hdone hc
  exists_ok_iff hfatal herrors := by
    constructor
    · intro ⟨c, hc⟩
      exact not_clash_finish hc
    · exact exists_finish_of_not_clash hinv.nodup hfatal herrors
  reported hfatal herrors := by
    intro ⟨x, y, h⟩
    exact exists_finish_of_clash hinv.nodup hfatal herrors h

end Walk

namespace Program

/-- A collection goes by the numbers that symbols give to its instances, and where two instances
    have one symbol there is none. So it is in whatever order the walk goes. -/
theorem collect_numbers {p : Program} {config : Config} {a : Analyzer} {fuel : Nat}
    {r : CollectResult} (h : p.collect config a fuel = some r) :
    r.walk.Numbers p (p.roots (a.unused p) config) r.outcome ∧
      ∀ w, Walk.Possible p config (a.unused p) w → w.isDone = true →
        w.Numbers p (p.roots (a.unused p) config)
          (w.finish p (p.roots (a.unused p) config) (p.rootWarnings config.mode)) := by
  have hordered : ∀ w, Walk.Possible p config (a.unused p) w → w.isDone = true →
      w.Numbers p (p.roots (a.unused p) config)
        (w.finish p (p.roots (a.unused p) config) (p.rootWarnings config.mode)) :=
    fun w hw hdone => (hw.inv preserves_true trivial).numbers hdone
  obtain ⟨w, hrun, rfl⟩ := collect_eq_some_iff.1 h
  obtain ⟨hw, hdone⟩ := Walk.possible_of_run hrun
  exact ⟨hordered w hw hdone, hordered⟩

/-- A program with two functions whose paths are spelled alike. -/
def twins : Program where
  crates := ["app"]
  crateRegions := [0]
  regions := ["app"]
  items := #[
    { name := "go", path := "impl Up::go", kind := .fn, body := some {} },
    { name := "go", path := "impl_Up::go", kind := .fn, body := some {} }]
  entries := [0, 1]

/-- The walk over that program ends without errors, and the symbols of its two functions clash. -/
theorem exists_clash_twins : ∃ r, twins.collect {} { enabled := true } 20 = some r ∧
    r.walk.fatal = none ∧ r.walk.errors = [] ∧
      r.walk.Clash twins ⟨.item 0, []⟩ ⟨.item 1, []⟩ := by
  -- the walk is run once, and what matters of it is read off
  have hrun : ((twins.collect {} { enabled := true } 20).any fun r =>
      r.walk.fatal.isNone && decide (r.walk.errors = []) &&
        decide (r.walk.records.map Record.inst = [⟨.item 1, []⟩, ⟨.item 0, []⟩])) = true := by
    decide +kernel
  simp only [Option.any_eq_true, Bool.and_eq_true, Option.isNone_iff_eq_none,
    decide_eq_true_eq] at hrun
  obtain ⟨r, hr, ⟨hfatal, herrors⟩, hrecords⟩ := hrun
  have hmem : ∀ x ∈ [⟨.item 1, []⟩, ⟨.item 0, []⟩], ∃ s ∈ r.walk.records, s.inst = x := by
    rw [← hrecords]
    exact fun x hx => List.mem_map.1 hx
  refine ⟨r, hr, hfatal, herrors, hmem _ (by simp), hmem _ (by simp), by simp, ?_⟩
  decide +kernel

/-- A program with a collection goes by its numbers, and that program has none since its two
    functions have one symbol. -/
theorem collect_numbers_twins :
    (∃ r c, gallery.collect {} { enabled := true } 40 = some r ∧ r.outcome = .ok c ∧
      c.IsIndexed gallery (gallery.roots (Analyzer.unused { enabled := true } gallery) {})) ∧
    ∃ r, twins.collect {} { enabled := true } 20 = some r ∧ r.walk.fatal = none ∧
      r.walk.errors = [] ∧ ∃ x y, r.walk.Clash twins x y ∧
        r.outcome = .error [.symbolClash (x.symbol twins) (x.text twins) (y.text twins)] := by
  constructor
  · obtain ⟨r, c, hr, hc, -⟩ := exists_collection_gallery
    exact ⟨r, c, hr, hc, (collect_numbers hr).1.indexed c hc⟩
  · obtain ⟨r, hr, hfatal, herrors, hclash⟩ := exists_clash_twins
    exact ⟨r, hr, hfatal, herrors, (collect_numbers hr).1.reported hfatal herrors ⟨_, _, hclash⟩⟩

end Program

end Monomorph
