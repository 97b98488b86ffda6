import Monomorph.Proofs.LateAgreement

/-!
# What an analyzer remembers cannot be told from its answers

An analyzer that starts with nothing, or with a table that is right, answers every question as if it
were the first one it is asked, in whatever order the questions come (`Analyzer.Transparent`). What
it remembers at any time are answers of an analyzer that knows nothing (`Analyzer.Unseeded`); each
question keeps it so, and so the table in the end is right again and can be what a later session
starts with.
-/

namespace Monomorph

/-- A question to an analyzer. -/
inductive Question where
  | unused (i : ItemId)
  | verify (i : ItemId)
  | normalize (i : ItemId) (args : Args)
  | make (i : ItemId) (args : Args)
  | makeShim (method : ItemId) (args : Args)
  | collect (config : Config) (fuel : Nat)

/-- What comes back. -/
inductive Answer where
  | set (s : ParamSet)
  | args (as : Args)
  | made (result : Except Reason Instance)
  | collected (walk : Walk) (outcome : Except (List Error) Collection)

/-- Whether every entry of a table is what an analyzer finds that knows nothing. -/
def UnusedTable.IsRight (p : Program) (enabled : Bool) (t : UnusedTable) : Prop :=
  ∀ i s, t.get? i = some s → s = Analyzer.unused { enabled } p i

namespace Analyzer

variable (a : Analyzer) (p : Program)

/-- The analyzer after something was made of an item. Where the number of arguments is wrong it is
    not asked. -/
def afterMaking (i : ItemId) : Except Reason Instance → Analyzer
  | .ok _ => a.consult p [i]
  | .error _ => a

/-- Answers a question. There is no answer if collecting runs out of fuel. -/
def respond : Question → Option (Answer × Analyzer)
  | .unused i => some (.set (a.unused p i), a.consult p [i])
  | .verify i => some (.set (a.verify p i).1, (a.verify p i).2)
  | .normalize i args =>
    some (.args ((p.item i).generics.normalize (a.unused p i) args), a.consult p [i])
  | .make i args =>
    let result := p.instantiate (a.unused p) i args
    some (.made result, a.afterMaking p i result)
  | .makeShim method args =>
    let result := p.vtableShim (a.unused p) method args
    some (.made result, a.afterMaking p method result)
  | .collect config fuel =>
    (p.collect config a fuel).map fun r => (.collected r.walk r.outcome, r.analyzer)

/-- Answers questions, one after the other. -/
def respondAll : Analyzer → List Question → Option (List Answer × Analyzer)
  | a, [] => some ([], a)
  | a, q :: qs => do
    let (answer, b) ← a.respond p q
    let (answers, c) ← respondAll b qs
    return (answer :: answers, c)

/-- The answer of an analyzer that has never been asked anything. -/
def firstAnswer (enabled : Bool) (q : Question) : Option Answer :=
  (respond { enabled } p q).map Prod.fst

variable {a b : Analyzer} {p : Program} {enabled : Bool} {q : Question} {qs : List Question}
  {answer : Answer} {answers : List Answer}

/-! ## Analyzers whose entries are right -/

/-- A right table is as good as none. -/
theorem unseeded_of_isRight {t : UnusedTable} (h : t.IsRight p enabled) :
    Unseeded p enabled { enabled, known := t } where
  extended := ⟨rfl, fun _ _ hs => absurd hs (by simp), h⟩
  conflicts := rfl

/-- Without seeds the stored sets are right. -/
theorem Unseeded.isRight (h : a.Unseeded p enabled) : a.known.IsRight p enabled :=
  h.extended.added

/-- Consulting brings in no seeds. -/
theorem Unseeded.consult (h : a.Unseeded p enabled) (wanted : List ItemId) :
    (a.consult p wanted).Unseeded p enabled :=
  ⟨h.extended.trans (a.extends_consult p wanted), h.conflicts⟩

/-- What is verified is found again. -/
theorem Unseeded.verify (h : a.Unseeded p enabled) (i : ItemId) :
    (a.verify p i).2.Unseeded p enabled ∧ a.Extends p (a.verify p i).2 := by
  obtain ⟨wanted, hverify⟩ := a.exists_verify_snd p i
  have hextends := (a.extends_consult p wanted).withConflicts a.conflicts
  rw [hverify, h.conflict?_eq_none, Option.toList_none, List.append_nil]
  exact ⟨⟨h.extended.trans hextends, h.conflicts⟩, hextends⟩

/-- Making an instance brings in no seeds, and only extends the table. -/
theorem Unseeded.afterMaking (h : a.Unseeded p enabled) (i : ItemId)
    (result : Except Reason Instance) :
    (a.afterMaking p i result).Unseeded p enabled ∧ a.Extends p (a.afterMaking p i result) := by
  cases result with
  | ok _ => exact ⟨h.consult [i], a.extends_consult p [i]⟩
  | error _ => exact ⟨h, .refl p a⟩

/-! ## What is asked for is remembered -/

/-- Among the items whose sets are computed are those that are asked for and not known. -/
theorem mem_consulted {i k : Nat} {items : List Item} {wanted : List ItemId} (hk : k ∈ wanted)
    (hle : i ≤ k) (hlt : k < i + items.length) (hknown : a.known.get? k = none) :
    k ∈ a.consulted i items wanted := by
  induction items generalizing i wanted with
  | nil => exact absurd hlt (Nat.not_lt.2 hle)
  | cons it rest ih =>
    have hrest : ∀ wanted', k ∈ wanted' → k ≠ i → k ∈ a.consulted (i + 1) rest wanted' :=
      fun wanted' hk hne => ih hk (by omega) (by rw [List.length_cons] at hlt; omega)
    unfold consulted
    -- The item wanted is the first one, or it is still wanted when the pass gets to it.
    by_cases hi : k = i
    · subst hi
      rw [if_pos ⟨hk, hknown⟩]
      exact List.mem_cons_self
    · split
      · exact List.mem_cons_of_mem _ (hrest _ (List.mem_append_left _ hk) hi)
      · exact hrest _ hk hi

/-- An item that is asked for has an entry afterwards. -/
theorem get?_consult {i : ItemId} (hi : i < p.items.size) :
    (a.consult p [i]).known.get? i = some (a.unused p i) := by
  rw [consult, UnusedTable.get?_foldl_insert, answer_sets]
  cases hknown : a.known.get? i with
  | some s => rw [a.unused_of_known p hknown, ite_self]
  | none =>
    refine if_pos (mem_consulted List.mem_cons_self (Nat.zero_le i) ?_ hknown)
    rwa [Nat.zero_add, Array.length_toList]

/-! ## One question and many -/

/-- The answer to a question depends on nothing that is remembered. -/
theorem Unseeded.map_respond (h : a.Unseeded p enabled) (q : Question) :
    (a.respond p q).map Prod.fst = firstAnswer p enabled q := by
  unfold firstAnswer
  have hsets := h.unused_eq
  cases q with
  | verify i =>
    simp only [respond, Option.map_some, verify_fst, h.computed_eq]
    rfl
  | collect config fuel =>
    -- the walk goes by the answers, and these are the same
    simp only [respond, Option.map_map, Program.collect, answer_sets, hsets]
    cases Walk.run p config (Analyzer.unused { enabled } p) fuel
      (Walk.start p (Analyzer.unused { enabled } p) (p.rootItems config.mode)) <;> rfl
  | _ => simp only [respond, Option.map_some, hsets]

/-- What one question does to an analyzer whose entries are right. -/
structure Responds (p : Program) (enabled : Bool) (a : Analyzer) (q : Question) (b : Analyzer) :
    Prop where
  unseeded : b.Unseeded p enabled
  extended : a.Extends p b
  remembered : ∀ i < p.items.size, q = .unused i → b.known.get? i = some (a.unused p i)

/-- Every question extends the table by right answers. -/
theorem Unseeded.responds (h : a.Unseeded p enabled) (hq : a.respond p q = some (answer, b)) :
    Responds p enabled a q b := by
  -- All questions but the last two consult the item they name; a failed instance asks for nothing.
  cases q with
  | unused i =>
    obtain ⟨-, rfl⟩ := Prod.mk.inj (Option.some.inj hq)
    refine ⟨h.consult [i], a.extends_consult p [i], fun j hj hij => ?_⟩
    obtain rfl := Question.unused.inj hij
    exact get?_consult hj
  | verify i =>
    obtain ⟨-, rfl⟩ := Prod.mk.inj (Option.some.inj hq)
    exact ⟨(h.verify i).1, (h.verify i).2, nofun⟩
  | normalize i args =>
    obtain ⟨-, rfl⟩ := Prod.mk.inj (Option.some.inj hq)
    exact ⟨h.consult [i], a.extends_consult p [i], nofun⟩
  | make i args =>
    obtain ⟨-, rfl⟩ := Prod.mk.inj (Option.some.inj hq)
    exact ⟨(h.afterMaking i _).1, (h.afterMaking i _).2, nofun⟩
  | makeShim method args =>
    obtain ⟨-, rfl⟩ := Prod.mk.inj (Option.some.inj hq)
    exact ⟨(h.afterMaking method _).1, (h.afterMaking method _).2, nofun⟩
  | collect config fuel =>
    obtain ⟨r, hr, he⟩ := Option.map_eq_some_iff.1 hq
    obtain ⟨-, rfl⟩ := Prod.mk.inj he
    obtain ⟨w, -, rfl⟩ := Program.collect_eq_some_iff.1 hr
    exact ⟨h.consult w.asked, a.extends_consult p w.asked, nofun⟩

/-- So do many: every answer is a first answer. -/
theorem Unseeded.map_respondAll (h : a.Unseeded p enabled) (qs : List Question) :
    (respondAll p a qs).map Prod.fst = qs.mapM (firstAnswer p enabled) := by
  induction qs generalizing a with
  | nil => rfl
  | cons q qs ih =>
    -- The first question is answered as by a fresh table, and so are the others by the table it
    -- leaves.
    rw [List.mapM_cons, ← h.map_respond q, respondAll]
    cases hq : a.respond p q with
    | none => rfl
    | some r =>
      obtain ⟨answer, b⟩ := r
      simp only [Option.bind_eq_bind, Option.bind_some, Option.map_some,
        ← ih (h.responds hq).unseeded]
      cases respondAll p b qs <;> rfl

/-- What many questions do. -/
theorem Unseeded.respondsAll (h : a.Unseeded p enabled)
    (hqs : respondAll p a qs = some (answers, b)) :
    b.Unseeded p enabled ∧ a.Extends p b ∧
      ∀ i < p.items.size, .unused i ∈ qs → b.known.get? i = some (a.unused p i) := by
  induction qs generalizing a answers with
  | nil =>
    obtain ⟨-, rfl⟩ := Prod.mk.inj (Option.some.inj hqs)
    exact ⟨h, .refl p a, fun i _ hi => absurd hi List.not_mem_nil⟩
  | cons q qs ih =>
    simp only [respondAll, Option.bind_eq_bind, Option.bind_eq_some_iff, pure, Option.some.injEq,
      Prod.exists, Prod.mk.injEq] at hqs
    obtain ⟨answer, c, hq, answers, b, hqs, -, rfl⟩ := hqs
    have hfirst := h.responds hq
    obtain ⟨hb, hextends, hremembered⟩ := ih hfirst.unseeded hqs
    refine ⟨hb, hfirst.extended.trans hextends, fun i hi hmem => ?_⟩
    -- what the first question has left behind, the others keep
    rcases List.mem_cons.1 hmem with hnow | hlater
    · exact hextends.kept i _ (hfirst.remembered i hi hnow.symm)
    · rw [hremembered i hi hlater, hfirst.extended.unused_eq]

/-- Whether an analyzer answers every question as one that has never been asked anything, and comes
    to a right table in the end. -/
structure Transparent (p : Program) (enabled : Bool) (a : Analyzer) : Prop where
  /-- Questions have answers exactly if each has one by itself, and then these are the answers. -/
  answers_eq : ∀ qs, (respondAll p a qs).map Prod.fst = qs.mapM (firstAnswer p enabled)
  /-- There is no conflict, and the table has what was asked for. -/
  ends : ∀ qs answers b, respondAll p a qs = some (answers, b) →
    ∃ t, b.freeze = .ok t ∧ t.IsRight p enabled ∧ ∀ i < p.items.size, .unused i ∈ qs →
      t.get? i = some (Analyzer.unused { enabled } p i)

/-- A table without seeds does not show in the answers. -/
theorem Unseeded.isTransparent (h : a.Unseeded p enabled) : Transparent p enabled a where
  answers_eq := h.map_respondAll
  ends qs answers b hqs := by
    obtain ⟨hb, -, hremembered⟩ := h.respondsAll hqs
    refine ⟨b.known, hb.freeze_eq, hb.isRight, fun i hi hmem => ?_⟩
    rw [hremembered i hi hmem, h.unused_eq]

/-- Remembering is transparent for an analyzer that starts with nothing and for one that starts with
    a right table, such as an earlier session comes to. -/
theorem transparent (p : Program) (enabled : Bool) : Transparent p enabled { enabled } ∧
    ∀ t : UnusedTable, t.IsRight p enabled → Transparent p enabled { enabled, known := t } :=
  ⟨(unseeded_new p enabled).isTransparent, fun _ h => (unseeded_of_isRight h).isTransparent⟩

/-- The table of an earlier session is written and read again, and then a session starts with it. -/
theorem transparent_nested :
    let t := (UnusedTable.empty.insert 1 ⟨2⟩).insert 0 ⟨2⟩
    (∃ answers b t₀, respondAll .nested { enabled := true } [.unused 0] = some (answers, b) ∧
      b.freeze = .ok t₀ ∧ UnusedTable.ofBytes t₀.toBytes = .ok t) ∧
    t.IsRight .nested true ∧ Transparent .nested true { enabled := true, known := t } := by
  intro t
  have hright : t.IsRight .nested true := by
    -- The table stores two sets, each of which is the one computed.
    intro i s hs
    simp only [t, UnusedTable.get?_insert] at hs
    split at hs
    · next hi =>
      subst hi
      obtain rfl := Option.some.inj hs
      decide +kernel
    · split at hs
      · next hi =>
        subst hi
        obtain rfl := Option.some.inj hs
        decide +kernel
      · exact nomatch hs
  exact ⟨⟨_, _, _, rfl, rfl, rfl⟩, hright, (transparent _ _).2 t hright⟩

end Analyzer

end Monomorph
