import Monomorph.Collect.Items
import Monomorph.Proofs.LateResolution

/-!
# Sessions with an analyzer

One analyzer is asked many questions, and each leaves entries behind that later ones are answered
from. That changes no answer: what is added is what would have been computed anyway
(`Analyzer.Extends`), so only the entries that the analyzer started with can make a difference.

Those are believed when they are asked for. An entry is compared with the set computed for its item
when the item is verified and at no other time, so a session that ends without a conflict vouches
for the sets that rest on verified entries, and for no others (`Analyzer.CrossChecked`). For an
analyzer that starts with nothing these are all sets.
-/

namespace Monomorph

open Relation

/-- After some insertions an item has its own set. -/
theorem UnusedTable.get?_foldl_insert (f : ItemId → ParamSet) (is : List ItemId) (t : UnusedTable)
    (j : ItemId) : (is.foldl (fun t i => t.insert i (f i)) t).get? j =
      if j ∈ is then some (f j) else t.get? j := by
  induction is generalizing t with
  | nil => simp
  | cons i is ih =>
    rw [List.foldl_cons, ih, get?_insert]
    by_cases hj : j = i
    · simp [hj]
    · simp [hj]

namespace Analyzer

variable {a b c : Analyzer} {p : Program}

/-! ## Remembering answers -/

/-- Whether an analyzer is another one that has remembered some of its own answers since. -/
structure Extends (p : Program) (a b : Analyzer) : Prop where
  enabled : b.enabled = a.enabled
  kept : ∀ i s, a.known.get? i = some s → b.known.get? i = some s
  added : ∀ i s, b.known.get? i = some s → s = a.unused p i

/-- A table extends itself. -/
theorem Extends.refl (p : Program) (a : Analyzer) : a.Extends p a where
  enabled := rfl
  kept _ _ h := h
  added _ _ h := (a.unused_of_known p h).symm

/-- What is not known after answers have been remembered was not known before. -/
theorem Extends.known_eq_none (h : a.Extends p b) {i : ItemId} (hi : b.known.get? i = none) :
    a.known.get? i = none := by
  rw [Option.eq_none_iff_forall_ne_some] at hi ⊢
  exact fun s hs => hi s (h.kept i s hs)

/-- Remembered answers change no computation. -/
theorem Extends.computed_eq (h : a.Extends p b) (i : ItemId) :
    b.computed p i = a.computed p i := by
  -- a closure is answered by an entry, which is the old answer, or from closures inside it
  induction i using p.wellFounded_asks.induction with
  | _ i ih =>
    refine computed_congr h.enabled fun c hc => ?_
    cases hknown : b.known.get? c with
    | some s => rw [b.unused_of_known p hknown, h.added c s hknown]
    | none =>
      simp only [unused, hknown, h.known_eq_none hknown, Option.getD_none]
      exact ih c hc

/-- Remembered answers change no answer. -/
theorem Extends.unused_eq (h : a.Extends p b) : b.unused p = a.unused p := by
  -- an entry that was added is what had been computed
  funext i
  cases hknown : b.known.get? i with
  | some s => rw [b.unused_of_known p hknown, h.added i s hknown]
  | none =>
    simp only [unused, hknown, h.known_eq_none hknown, Option.getD_none]
    exact h.computed_eq i

/-- What extends an extension extends the first analyzer. -/
theorem Extends.trans (hab : a.Extends p b) (hbc : b.Extends p c) : a.Extends p c where
  enabled := hbc.enabled.trans hab.enabled
  kept i s h := hbc.kept i s (hab.kept i s h)
  added i s h := by rw [hbc.added i s h, hab.unused_eq]

/-- Only what is not known is consulted. -/
theorem known_eq_none_of_mem_consulted {i k : ItemId} {items : List Item} {wanted : List ItemId}
    (h : k ∈ a.consulted i items wanted) : a.known.get? k = none := by
  induction items generalizing i wanted with
  | nil => exact absurd h List.not_mem_nil
  | cons it rest ih =>
    unfold consulted at h
    split at h
    · -- only an item without an entry is consulted
      next hi =>
      obtain rfl | h := List.mem_cons.1 h
      · exact hi.2
      · exact ih h
    · exact ih h

/-- Asking for sets leaves the answers that were not known before. -/
theorem extends_consult (a : Analyzer) (p : Program) (wanted : List ItemId) :
    a.Extends p (a.consult p wanted) := by
  have hget : ∀ i, (a.consult p wanted).known.get? i =
      if i ∈ a.consulted 0 p.items.toList wanted then some (a.unused p i)
      else a.known.get? i := by
    intro i
    rw [consult, UnusedTable.get?_foldl_insert, answer_sets]
  -- Of an item that was known nothing changes, and what is new is the answer about it.
  constructor
  case enabled => rfl
  case kept =>
    intro i s h
    rw [hget, if_neg, h]
    intro hmem
    exact Option.some_ne_none s (h.symm.trans (known_eq_none_of_mem_consulted hmem))
  case added =>
    intro i s h
    rw [hget] at h
    split at h
    · exact (Option.some.inj h).symm
    · exact (a.unused_of_known p h).symm

/-- Noting conflicts changes no answer. -/
theorem Extends.withConflicts (h : a.Extends p b) (cs : List Conflict) :
    a.Extends p { b with conflicts := cs } := ⟨h.enabled, h.kept, h.added⟩

/-! ## Comparing entries -/

/-- The conflict that comes out when the entry of an item is compared with its computed set. -/
def conflict? (a : Analyzer) (p : Program) (i : ItemId) : Option Conflict :=
  match a.known.get? i with
  | some s => if s = a.computed p i then none else some ⟨i, s, a.computed p i⟩
  | none => none

/-- There is a conflict where the stored set is not the computed one. -/
theorem conflict?_eq_some_iff {i : ItemId} {x : Conflict} : a.conflict? p i = some x ↔
    x.item = i ∧ a.known.get? i = some x.stored ∧ x.computed = a.computed p i ∧
      x.stored ≠ x.computed := by
  obtain ⟨j, stored, computed⟩ := x
  unfold conflict?
  split
  · -- a conflict needs an entry that is not what is computed
    next s hs =>
    rw [hs]
    split
    · next he => grind
    · next he => grind
  · next hs => simp [hs]

/-- There is no conflict where the stored set, if any, is the computed one. -/
theorem conflict?_eq_none_iff {i : ItemId} : a.conflict? p i = none ↔
    ∀ s, a.known.get? i = some s → s = a.computed p i := by
  unfold conflict?
  split
  · next s hs => simp [hs]
  · next hs => simp [hs]

/-- Remembered answers are in no conflict, and the old entries are as they were. -/
theorem Extends.conflict?_eq (h : a.Extends p b) (i : ItemId) :
    b.conflict? p i = a.conflict? p i := by
  cases hknown : a.known.get? i with
  | some s => simp only [conflict?, hknown, h.kept i s hknown, h.computed_eq]
  -- an entry made since then is what the first analyzer computed, so it is in no conflict
  | none =>
    have hnone : a.conflict? p i = none := by simp only [conflict?, hknown]
    rw [hnone, conflict?_eq_none_iff]
    intro s hs
    rw [h.added i s hs, h.computed_eq, unused, hknown, Option.getD_none]

/-- A verification consults some items and notes the conflict, if there is one. -/
theorem exists_verify_snd (a : Analyzer) (p : Program) (i : ItemId) : ∃ wanted,
    (a.verify p i).2 =
      { a.consult p wanted with conflicts := a.conflicts ++ (a.conflict? p i).toList } := by
  refine ⟨a.asked i (p.item i) (p.items.toList.drop (i + 1)), ?_⟩
  cases hknown : a.known.get? i with
  | none => simp [verify, conflict?, hknown, consult]
  | some s =>
    by_cases hs : s = a.computed p i
    · simp [verify, conflict?, hknown, hs, consult]
    · simp [verify, conflict?, hknown, hs, consult]

end Analyzer

/-! ## Questions -/

/-- A question to an analyzer. An entry of a vtable is made like an instance, and to normalize
    arguments or to resolve a call asks for a set or makes an instance. -/
inductive Query where
  | unused (i : ItemId)
  | verify (i : ItemId)
  | make (i : ItemId) (args : Args)
  | collect (config : Config) (fuel : Nat)

/-- The item whose entry is compared. -/
def Query.compared? : Query → Option ItemId
  | verify i => some i
  | unused _ | make .. | collect .. => none

/-- The items compared are those verified. -/
theorem Query.mem_compared {qs : List Query} {i : ItemId} :
    i ∈ qs.filterMap Query.compared? ↔ .verify i ∈ qs := by
  rw [List.mem_filterMap]
  -- the other questions compare nothing
  constructor
  · intro ⟨q, hq, hi⟩
    cases q with
    | verify j =>
      obtain rfl := Option.some.inj hi
      exact hq
    | unused j => exact absurd hi.symm (Option.some_ne_none i)
    | make j args => exact absurd hi.symm (Option.some_ne_none i)
    | collect config fuel => exact absurd hi.symm (Option.some_ne_none i)
  · intro hq
    exact ⟨_, hq, rfl⟩

namespace Analyzer

/-- The sets that are handed out or that instances are made with when a question is answered, each
    with its item, and the analyzer after it. There is no answer if collecting runs out of fuel. -/
def ask (a : Analyzer) (p : Program) : Query → Option (List (ItemId × ParamSet) × Analyzer)
  | .unused i => some ([(i, a.unused p i)], a.consult p [i])
  | .verify i => some ([(i, (a.verify p i).1)], (a.verify p i).2)
  | .make i args =>
    match p.instantiate (a.unused p) i args with
    | .ok _ => some ([(i, a.unused p i)], a.consult p [i])
    | .error _ => some ([], a)
  | .collect config fuel => (p.collect config a fuel).map fun r =>
      (r.walk.asked.map fun i => (i, a.unused p i), r.analyzer)

/-- Answers questions, one after the other. -/
def askAll (a : Analyzer) (p : Program) :
    List Query → Option (List (ItemId × ParamSet) × Analyzer)
  | [] => some ([], a)
  | q :: qs => do
    let (sets, b) ← a.ask p q
    let (later, c) ← b.askAll p qs
    return (sets ++ later, c)

variable {a b c : Analyzer} {p : Program} {q : Query} {qs : List Query}
  {sets later : List (ItemId × ParamSet)}

/-- What some questions make of an analyzer, and the sets that were used to answer them. -/
structure Session (p : Program) (a : Analyzer) (qs : List Query)
    (sets : List (ItemId × ParamSet)) (b : Analyzer) : Prop where
  extended : a.Extends p b
  conflicts : b.conflicts = a.conflicts ++ (qs.filterMap Query.compared?).filterMap (a.conflict? p)
  /-- Only the one who verifies gets the computed set where there is an entry. -/
  used : ∀ i s, (i, s) ∈ sets → s = a.unused p i ∨ .verify i ∈ qs ∧ s = a.computed p i

/-- A question that compares nothing is answered by what is known, and leaves answers behind. -/
private theorem session_consult (hq : q.compared? = none) (is wanted : List ItemId) :
    Session p a [q] (is.map fun i => (i, a.unused p i)) (a.consult p wanted) where
  extended := a.extends_consult p wanted
  conflicts := by simp [consult, hq]
  used i s h := by
    obtain ⟨j, -, he⟩ := List.mem_map.1 h
    obtain ⟨rfl, rfl⟩ := Prod.mk.inj he
    exact .inl rfl

/-- What one question does. -/
theorem session_of_ask (h : a.ask p q = some (sets, b)) : Session p a [q] sets b := by
  -- All questions but a verification only consult, each its own items.
  cases q with
  | unused i =>
    obtain ⟨rfl, rfl⟩ := Prod.mk.inj (Option.some.inj h)
    exact session_consult rfl [i] [i]
  | verify i =>
    obtain ⟨rfl, rfl⟩ := Prod.mk.inj (Option.some.inj h)
    obtain ⟨wanted, hb⟩ := a.exists_verify_snd p i
    constructor
    case extended =>
      rw [hb]
      exact (a.extends_consult p wanted).withConflicts _
    case conflicts =>
      rw [hb]
      cases hi : a.conflict? p i with
      | none => simp [Query.compared?, hi]
      | some x => simp [Query.compared?, hi]
    case used =>
      intro j s hs
      obtain ⟨rfl, rfl⟩ := Prod.mk.inj (List.mem_singleton.1 hs)
      exact .inr ⟨List.mem_cons_self, a.verify_fst p j⟩
  | make i args =>
    simp only [ask] at h
    split at h
    · obtain ⟨rfl, rfl⟩ := Prod.mk.inj (Option.some.inj h)
      exact session_consult rfl [i] [i]
    · -- without an instance nothing was asked
      obtain ⟨rfl, rfl⟩ := Prod.mk.inj (Option.some.inj h)
      exact ⟨.refl p a, by simp [Query.compared?], fun i s h => absurd h List.not_mem_nil⟩
  | collect config fuel =>
    obtain ⟨r, hr, he⟩ := Option.map_eq_some_iff.1 h
    obtain ⟨rfl, rfl⟩ := Prod.mk.inj he
    simp only [Program.collect, Option.bind_eq_bind, Option.bind_eq_some_iff, pure,
      Option.some.injEq] at hr
    obtain ⟨w, -, rfl⟩ := hr
    exact session_consult rfl w.asked w.asked

/-- What comes later finds the same answers and the same conflicts. -/
theorem Session.cons (h : Session p a [q] sets b) (hlater : Session p b qs later c) :
    Session p a (q :: qs) (sets ++ later) c where
  extended := h.extended.trans hlater.extended
  -- Conflicts depend on the stored and the computed sets, and an extension leaves both as they are.
  conflicts := by
    have hsame : b.conflict? p = a.conflict? p := funext h.extended.conflict?_eq
    rw [hlater.conflicts, h.conflicts, hsame, List.append_assoc, ← List.filterMap_append,
      ← List.filterMap_append, List.singleton_append]
  used i s hs := by
    obtain hs | hs := List.mem_append.1 hs
    · refine (h.used i s hs).imp_right fun hq => ⟨?_, hq.2⟩
      rw [List.mem_singleton.1 hq.1]
      exact List.mem_cons_self
    · rw [← h.extended.unused_eq, ← h.extended.computed_eq]
      exact (hlater.used i s hs).imp_right fun hq => ⟨List.mem_cons_of_mem _ hq.1, hq.2⟩

/-- What a whole session does. -/
theorem session_of_askAll (h : a.askAll p qs = some (sets, b)) : Session p a qs sets b := by
  induction qs generalizing a sets with
  | nil =>
    obtain ⟨rfl, rfl⟩ := Prod.mk.inj (Option.some.inj h)
    exact ⟨.refl p a, by simp, fun i s h => absurd h List.not_mem_nil⟩
  | cons q qs ih =>
    -- The first question is answered, and the others by the table that it leaves.
    simp only [askAll, Option.bind_eq_bind, Option.bind_eq_some_iff, pure, Option.some.injEq,
      Prod.exists, Prod.mk.injEq] at h
    obtain ⟨first, b', hask, later, c, hlater, rfl, rfl⟩ := h
    exact (session_of_ask hask).cons (ih hlater)

/-! ## What the end of a session vouches for -/

/-- The table is handed out where there were no conflicts. -/
theorem freeze_eq_ok_iff {t : UnusedTable} :
    a.freeze = .ok t ↔ a.conflicts = [] ∧ t = a.known := by
  unfold freeze
  cases a.conflicts with
  | nil => simp [eq_comm]
  | cons x xs => simp

/-- The conflict that is reported is one that was noted. -/
theorem mem_of_freeze_eq_error {x : Conflict} (h : a.freeze = .error x) : x ∈ a.conflicts := by
  unfold freeze at h
  cases hconflicts : a.conflicts with
  | nil => simp [hconflicts] at h
  | cons y ys =>
    simp only [hconflicts, Except.error.injEq] at h
    exact h ▸ List.mem_cons_self

/-- What the end of a session says of the entries that an analyzer started with and of the sets
    that were used. -/
structure CrossChecked (p : Program) (a : Analyzer) (qs : List Query)
    (sets : List (ItemId × ParamSet)) (b : Analyzer) : Prop where
  /-- The analysis ends exactly if every entry that was compared is the computed set. -/
  ends_iff : (∃ t, b.freeze = .ok t) ↔
    ∀ i s, .verify i ∈ qs → a.known.get? i = some s → s = a.computed p i
  /-- Otherwise an entry that was compared is reported together with the computed set. -/
  reported : ∀ x, b.freeze = .error x → .verify x.item ∈ qs ∧
    a.known.get? x.item = some x.stored ∧ x.computed = a.computed p x.item ∧
      x.stored ≠ x.computed
  /-- If it ends, a set is what an analyzer finds that knows nothing, provided that the entries for
      its item and for the closures inside have been compared. -/
  right : ∀ t, b.freeze = .ok t → ∀ i s, (i, s) ∈ sets ∨ t.get? i = some s →
    (∀ c, (c = i ∨ TransGen p.Asks i c) → (a.known.get? c).isSome = true → .verify c ∈ qs) →
    s = a.fresh.computed p i

/-- Verifying is the only comparison there is. -/
theorem askAll_crossChecked {enabled : Bool} {table : UnusedTable}
    (h : askAll { enabled, known := table } p qs = some (sets, b)) :
    CrossChecked p { enabled, known := table } qs sets b := by
  have hsession := session_of_askAll h
  generalize ha : ({ enabled, known := table } : Analyzer) = a at hsession
  have hconflicts : b.conflicts = (qs.filterMap Query.compared?).filterMap (a.conflict? p) := by
    rw [hsession.conflicts, ← ha, List.nil_append]
  have hends : (∃ t, b.freeze = .ok t) ↔
      ∀ i s, .verify i ∈ qs → a.known.get? i = some s → s = a.computed p i := by
    simp only [freeze_eq_ok_iff, exists_and_left, exists_eq, and_true, hconflicts,
      List.filterMap_eq_nil_iff, Query.mem_compared, conflict?_eq_none_iff]
    exact ⟨fun h i s hi => h i hi s, fun h i hi s => h i s hi⟩
  refine ⟨hends, ?_, ?_⟩
  · intro x hx
    have hmem := mem_of_freeze_eq_error hx
    rw [hconflicts, List.mem_filterMap] at hmem
    obtain ⟨i, hi, hx⟩ := hmem
    obtain ⟨rfl, hstored, hcomputed, hne⟩ := conflict?_eq_some_iff.1 hx
    exact ⟨Query.mem_compared.1 hi, hstored, hcomputed, hne⟩
  · intro t ht i s hs hverified
    have hagrees := hends.1 ⟨t, ht⟩
    have entry : ∀ c s, (c = i ∨ TransGen p.Asks i c) → a.known.get? c = some s →
        s = a.computed p c := fun c s hc hknown =>
      hagrees c s (hverified c hc (Option.isSome_iff_exists.2 ⟨s, hknown⟩)) hknown
    -- the compared entries of the closures agree with each other, and so they are right
    have hinside : a.RightInside p i := rightInside_iff.2 fun c s hc => entry c s (.inr hc)
    have hunused : a.unused p i = a.computed p i := by
      cases hknown : a.known.get? i with
      | some s => rw [a.unused_of_known p hknown, entry i s (.inl rfl) hknown]
      | none => rw [unused, hknown, Option.getD_none]
    rw [← hinside.computed_eq]
    obtain hs | hs := hs
    · obtain rfl | ⟨-, rfl⟩ := hsession.used i s hs
      · exact hunused
      · rfl
    · obtain ⟨-, rfl⟩ := freeze_eq_ok_iff.1 ht
      rw [hsession.extended.added i s hs, hunused]

/-- An instance is made with a wrong entry first; then the entry is verified and reported. -/
theorem askAll_crossChecked_nested : ∃ sets b,
    askAll { enabled := true, known := UnusedTable.empty.insert 1 (.firstN 2) } .nested
        [.make 1 [.ty (.prim .u8), .ty (.prim .u16)], .collect {} 5, .verify 1] = some (sets, b) ∧
      CrossChecked .nested { enabled := true, known := UnusedTable.empty.insert 1 (.firstN 2) }
        [.make 1 [.ty (.prim .u8), .ty (.prim .u16)], .collect {} 5, .verify 1] sets b ∧
      b.freeze = .error ⟨1, .firstN 2, ⟨2⟩⟩ := by
  -- the run is computed once, and the conflict that it notes is read off
  have hrun : ((askAll { enabled := true, known := UnusedTable.empty.insert 1 (.firstN 2) } .nested
      [.make 1 [.ty (.prim .u8), .ty (.prim .u16)], .collect {} 5, .verify 1]).any fun r =>
        decide (r.2.conflicts = [⟨1, .firstN 2, ⟨2⟩⟩])) = true := by
    decide +kernel
  obtain ⟨⟨sets, b⟩, hask, hconflicts⟩ := Option.any_eq_true _ _ |>.1 hrun
  refine ⟨sets, b, hask, askAll_crossChecked hask, ?_⟩
  rw [freeze, of_decide_eq_true hconflicts]

/-- An entry that is never verified is believed, wrong as it may be, and even where parameters are
    not analysed and all of them count as used; the analysis ends as if nothing were the matter. -/
theorem askAll_nested_stale :
    (∃ b t, askAll { enabled := true, known := UnusedTable.empty.insert 1 (.firstN 2) } .nested
        [.unused 1] = some ([(1, .firstN 2)], b) ∧ b.freeze = .ok t ∧
      .firstN 2 ≠ Analyzer.unused { enabled := true } .nested 1) ∧
    ∃ b t, askAll { enabled := false, known := UnusedTable.empty.insert 1 ⟨2⟩ } .nested
        [.unused 1] = some ([(1, ⟨2⟩)], b) ∧ b.freeze = .ok t ∧
      ⟨2⟩ ≠ Analyzer.unused { enabled := false } .nested 1 :=
  ⟨⟨_, _, rfl, rfl, by decide +kernel⟩, ⟨_, _, rfl, rfl, by decide +kernel⟩⟩

end Analyzer

end Monomorph
