import Monomorph.Proofs.Settle

/-!
# What every walk keeps true

A walk may enter what lies ahead of it in any order (`Walk.Moves`); the order of `Walk.step` is one
of them. `Walk.Entered` lists what entering an instance can do, and `Walk.Inv` is what remains true
of the claimed instances, the records and what lies ahead, whichever instance is entered next. The
invariant leaves open what is remembered of classified types: any property `M` will do that looking
up glue preserves.
-/

namespace Monomorph

/-- Whether the arguments of an instance are within both limits. -/
def Config.Within (c : Config) (inst : Instance) : Prop :=
  inst.args.nodeCount ≤ c.lengthLimit ∧ inst.args.nesting ≤ c.depthLimit

namespace Program

variable (p : Program) (unused : UnusedSets) (M : DropMemo → Prop)

/-- What is known of an instance once its neighbors are. -/
def infoAfter (inst : Instance) (ns : List Neighbor) : Info :=
  if inst.what = .dropGlue then { p.info inst with size := ns.length + 1 } else p.info inst

/-- Whether looking up glue keeps a property of what is remembered. -/
def Preserves : Prop := ∀ (fuel : Nat) (needs : List Need) (m m' : DropMemo) (ns : List Neighbor),
  M m → p.settle fuel needs m = some (ns, m') → M m'

/-- Whether code is generated for one instance and its scan returns the other as a neighbor. -/
def NeighborFrom (a b : Instance) : Prop :=
  (p.info a).isGenerated = true ∧ ∃ ns, p.ScansFrom unused M a ns ∧ ∃ n ∈ ns, n.inst = b

/-- Whether an instance is reached from the roots by way of instances within the limits. -/
def ReachedFrom (config : Config) (roots : List Instance) (inst : Instance) : Prop :=
  ∃ root ∈ roots,
    Relation.ReflTransGen (fun a b => config.Within a ∧ p.NeighborFrom unused M a b) root inst

end Program

namespace Walk

/-- Whether an instance is still to be entered, for the first time or once more. -/
def Ahead (w : Walk) (inst : Instance) : Prop :=
  inst ∈ w.waiting ∨ ∃ f ∈ w.stack, ∃ n ∈ f.pending, n.inst = inst

/-! ## Entering an instance -/

/-- What entering an instance makes of a walk. -/
inductive Entered (p : Program) (config : Config) (unused : UnusedSets) (w : Walk)
    (inst : Instance) (span : Span) : Walk → Prop
  | again : w.claimed.contains inst = true → Entered p config unused w inst span w
  | tooLong : w.claimed.contains inst = false → inst.args.nodeCount > config.lengthLimit →
    Entered p config unused w inst span { w with
      claimed := w.claimed.insert inst ()
      fatal := some (.typeLength (inst.text p) inst.args.nodeCount config.lengthLimit span) }
  | tooDeep : w.claimed.contains inst = false → inst.args.nodeCount ≤ config.lengthLimit →
    inst.args.nesting > config.depthLimit →
    Entered p config unused w inst span { w with
      claimed := w.claimed.insert inst ()
      fatal := some (.overflow (inst.text p) config.depthLimit
        ((w.chain ++ [inst]).map (Instance.text p)) span) }
  | linked : w.claimed.contains inst = false → config.Within inst →
    (p.info inst).isGenerated = false →
    Entered p config unused w inst span { w with
      claimed := w.claimed.insert inst ()
      records := ⟨inst, p.info inst, []⟩ :: w.records }
  | broken {fuel : Nat} {ns : List Neighbor} {drops : DropMemo} {e : Error} :
    w.claimed.contains inst = false → config.Within inst → (p.info inst).isGenerated = true →
    (p.needs unused inst).failure = some e →
    p.settle fuel (p.needs unused inst).found w.drops = some (ns, drops) →
    Entered p config unused w inst span { w with
      claimed := w.claimed.insert inst ()
      records := ⟨inst, p.info inst, []⟩ :: w.records
      drops
      asked := (p.needs unused inst).items ++ w.asked
      formed := (p.needs unused inst).types ++ w.formed
      errors := e :: w.errors }
  | scanned {fuel : Nat} {ns : List Neighbor} {drops : DropMemo} :
    w.claimed.contains inst = false → config.Within inst → (p.info inst).isGenerated = true →
    (p.needs unused inst).failure = none →
    p.settle fuel (p.needs unused inst).found w.drops = some (ns, drops) →
    Entered p config unused w inst span { w with
      claimed := w.claimed.insert inst ()
      records := ⟨inst, p.infoAfter inst ns, ns.map fun n => (n.inst, n.kind)⟩ :: w.records
      drops
      asked := (p.needs unused inst).items ++ w.asked
      formed := (p.needs unused inst).types ++ w.formed
      stack := ⟨inst, ns⟩ :: w.stack }

variable {p : Program} {config : Config} {unused : UnusedSets}

/-- An instance is entered in one of the ways there are. -/
theorem entered_of_enter {fuel : Nat} {w w' : Walk} {inst : Instance} {span : Span}
    (h : w.enter p config unused fuel inst span = some w') :
    Entered p config unused w inst span w' := by
  -- the splits are the checks in their order: claimed before, too long, too deep, generated
  unfold enter enterBy at h
  split at h
  · next hclaimed =>
    obtain rfl := Option.some.inj h
    exact .again hclaimed
  · next hclaimed =>
    rw [Bool.not_eq_true] at hclaimed
    unfold claimBy at h
    simp only at h
    split at h
    · next hlong =>
      obtain rfl := Option.some.inj h
      exact .tooLong hclaimed hlong
    · next hlong =>
      split at h
      · next hdeep =>
        obtain rfl := Option.some.inj h
        exact .tooDeep hclaimed (by omega) hdeep
      · next hdeep =>
        have hwithin : config.Within inst := ⟨by omega, by omega⟩
        split at h
        · next hgen =>
          simp only [scan, scanned, Option.bind_eq_bind, Option.bind_eq_some_iff, Prod.exists] at h
          obtain ⟨ns, drops, hsettle, h⟩ := h
          split at h
          · next e hfail =>
            obtain rfl := Option.some.inj h
            exact .broken hclaimed hwithin hgen hfail hsettle
          · next hfail =>
            obtain rfl := Option.some.inj h
            exact .scanned hclaimed hwithin hgen hfail hsettle
        · next hgen =>
          obtain rfl := Option.some.inj h
          exact .linked hclaimed hwithin (by simpa using hgen)

/-! ## Moves in any order -/

/-- A walk goes on with anything that lies ahead of it, wherever that stands. -/
inductive Moves (p : Program) (config : Config) (unused : UnusedSets) (w : Walk) : Walk → Prop
  | pending {w' : Walk} {fuel : Nat} {above below : List Frame} {inst : Instance}
      {before after : List Neighbor} {n : Neighbor} :
    w.fatal = none → w.stack = above ++ ⟨inst, before ++ n :: after⟩ :: below →
    ({ w with stack := above ++ ⟨inst, before ++ after⟩ :: below } : Walk).enter p config unused
      fuel n.inst n.span = some w' → Moves p config unused w w'
  | pop {above below : List Frame} {inst : Instance} :
    w.fatal = none → w.stack = above ++ ⟨inst, []⟩ :: below →
    Moves p config unused w { w with stack := above ++ below }
  | root {w' : Walk} {fuel : Nat} {before after : List Instance} {root : Instance} :
    w.fatal = none → w.waiting = before ++ root :: after →
    ({ w with waiting := before ++ after } : Walk).enter p config unused fuel root .dummy =
      some w' →
    Moves p config unused w w'

/-- The order of the model is one of the orders that are possible. -/
theorem moves_of_step {fuel : Nat} {w w' : Walk} (hdone : w.isDone = false)
    (h : w.step p config unused fuel = some w') : Moves p config unused w w' := by
  rw [isDone, Bool.or_eq_false_iff] at hdone
  have hfatal : w.fatal = none := by simpa using hdone.1
  -- the model goes on with the first neighbor of the topmost link, then with the next root
  unfold step stepBy at h
  split at h
  · next inst n pending stack hstack =>
    exact @Moves.pending p config unused w w' fuel [] stack inst [] pending n hfatal hstack h
  · next inst stack hstack =>
    obtain rfl := Option.some.inj h
    exact @Moves.pop p config unused w [] stack inst hfatal hstack
  · next hstack =>
    split at h
    · next root waiting hwaiting =>
      exact @Moves.root p config unused w w' fuel [] waiting root hfatal hwaiting h
    · next hwaiting =>
      -- nothing would be left to do
      simp [hstack, hwaiting] at hdone

/-- A run is made of moves and ends when nothing is left to do. -/
theorem moves_of_run {fuel : Nat} {w w' : Walk} (h : w.run p config unused fuel = some w') :
    Relation.ReflTransGen (Moves p config unused) w w' ∧ w'.isDone = true := by
  induction fuel generalizing w with
  | zero => exact nomatch h
  -- A walk that is not done takes a step, and each step is one of the moves.
  | succ fuel ih =>
    unfold run runBy at h
    split at h
    · next hdone =>
      obtain rfl := Option.some.inj h
      exact ⟨.refl, hdone⟩
    · next hdone =>
      simp only [Option.bind_eq_bind, Option.bind_eq_some_iff] at h
      obtain ⟨w₁, hstep, h⟩ := h
      obtain ⟨hmoves, hdone'⟩ := ih h
      exact ⟨.head (moves_of_step (by simpa using hdone) hstep) hmoves, hdone'⟩

/-- Whether `w₁` is `w` but for one place in which `inst` lies ahead. -/
structure Without (w : Walk) (inst : Instance) (w₁ : Walk) : Prop where
  claimed : w₁.claimed = w.claimed
  records : w₁.records = w.records
  drops : w₁.drops = w.drops
  errors : w₁.errors = w.errors
  fatal : w₁.fatal = w.fatal
  here : w.Ahead inst
  ahead : ∀ j, w₁.Ahead j → w.Ahead j
  left : ∀ j, w.Ahead j → w₁.Ahead j ∨ j = inst

/-- Claiming the instance adds it to what was claimed. -/
theorem Without.contains_insert {w w₁ : Walk} {inst : Instance} (hw : Without w inst w₁)
    (j : Instance) : (w₁.claimed.insert inst ()).contains j = true ↔
      inst = j ∨ w.claimed.contains j = true := by
  rw [Index.contains_insert, hw.claimed, Bool.or_eq_true, decide_eq_true_eq]

/-- What was claimed or lay ahead still does once the instance is claimed. -/
theorem Without.moved {w w₁ w' : Walk} {inst : Instance} (hw : Without w inst w₁)
    (hclaimed : ∀ j, inst = j ∨ w.claimed.contains j = true → w'.claimed.contains j = true)
    (hahead : ∀ j, w₁.Ahead j → w'.Ahead j) {j : Instance}
    (hj : w.claimed.contains j = true ∨ w.Ahead j) :
    w'.claimed.contains j = true ∨ w'.Ahead j := by
  obtain hj | hj := hj
  · exact .inl (hclaimed j (.inr hj))
  · obtain hj | rfl := hw.left j hj
    · exact .inr (hahead j hj)
    · exact .inl (hclaimed j (.inl rfl))

/-- A move takes an empty link away, or takes something that lies ahead and enters it. -/
theorem Moves.cases {w w' : Walk} (h : Moves p config unused w w') : w.fatal = none ∧
    ((∃ stack, w' = { w with stack } ∧ ∀ j, w'.Ahead j ↔ w.Ahead j) ∨
      ∃ inst span w₁, Without w inst w₁ ∧ Entered p config unused w₁ inst span w') := by
  -- What is taken off the stack or the list is exactly what is no longer ahead.
  cases h with
  | @pending _ _ above below inst before after n hfatal hstack h =>
    refine ⟨hfatal, .inr ⟨n.inst, n.span, _, ?_, entered_of_enter h⟩⟩
    constructor <;> try rfl
    · right
      exact ⟨⟨inst, before ++ n :: after⟩, by simp [hstack], n, by simp, rfl⟩
    · intro j hj
      simp only [Ahead, hstack, List.mem_append, List.mem_cons] at hj ⊢
      grind
    · intro j hj
      simp only [Ahead, hstack, List.mem_append, List.mem_cons] at hj ⊢
      grind
  | @pop above below inst hfatal hstack =>
    refine ⟨hfatal, .inl ⟨above ++ below, rfl, ?_⟩⟩
    intro j
    simp only [Ahead, hstack, List.mem_append, List.mem_cons]
    grind
  | @root _ _ before after root hfatal hwaiting h =>
    refine ⟨hfatal, .inr ⟨root, .dummy, _, ?_, entered_of_enter h⟩⟩
    constructor <;> try rfl
    · exact .inl (by simp [hwaiting])
    · intro j hj
      simp only [Ahead, hwaiting, List.mem_append, List.mem_cons] at hj ⊢
      grind
    · intro j hj
      simp only [Ahead, hwaiting, List.mem_append, List.mem_cons] at hj ⊢
      grind

/-! ## The invariant -/

/-- What a record can say: that the instance is linked only, that its scan failed, or what its scan
    returned. -/
inductive Kept (p : Program) (unused : UnusedSets) (M : DropMemo → Prop) (errors : List Error) :
    Record → Prop
  | linked {inst : Instance} : (p.info inst).isGenerated = false →
    Kept p unused M errors ⟨inst, p.info inst, []⟩
  | broken {inst : Instance} {e : Error} : (p.info inst).isGenerated = true →
    (p.needs unused inst).failure = some e → e ∈ errors →
    Kept p unused M errors ⟨inst, p.info inst, []⟩
  | scanned {inst : Instance} {ns : List Neighbor} : (p.info inst).isGenerated = true →
    p.ScansFrom unused M inst ns →
    Kept p unused M errors ⟨inst, p.infoAfter inst ns, ns.map fun n => (n.inst, n.kind)⟩

/-- What remains true of a walk from some roots. -/
structure Inv (p : Program) (config : Config) (unused : UnusedSets) (M : DropMemo → Prop)
    (roots : List Instance) (w : Walk) : Prop where
  memo : M w.drops
  nodup : (w.records.map Record.inst).Nodup
  claimed : w.fatal = none → ∀ inst, w.claimed.contains inst = true →
    ∃ r ∈ w.records, r.inst = inst
  recorded : ∀ r ∈ w.records, w.claimed.contains r.inst = true
  within : ∀ r ∈ w.records, config.Within r.inst
  kept : ∀ r ∈ w.records, Kept p unused M w.errors r
  closed : ∀ r ∈ w.records, ∀ u ∈ r.uses, w.claimed.contains u.1 = true ∨ w.Ahead u.1
  started : ∀ root ∈ roots, w.claimed.contains root = true ∨ w.Ahead root
  reached : ∀ inst, w.claimed.contains inst = true ∨ w.Ahead inst →
    p.ReachedFrom unused M config roots inst
  errors : ∀ e ∈ w.errors, ∃ r ∈ w.records, (p.info r.inst).isGenerated = true ∧
    (p.needs unused r.inst).failure = some e
  fatal : w.fatal.isSome = true → ∃ inst, w.claimed.contains inst = true ∧ ¬ config.Within inst

variable {M : DropMemo → Prop} {roots : List Instance} {w w₁ w' : Walk} {inst : Instance}

/-- A walk starts with its invariant. -/
theorem inv_start (hM : M {}) {w : Walk} (hw : w = { waiting := roots, asked := w.asked }) :
    Inv p config unused M roots w := by
  have hahead : ∀ j, w.Ahead j ↔ j ∈ roots := by
    intro j
    rw [hw]
    simp [Ahead]
  have hclaimed : ∀ j, w.claimed.contains j = false := by
    intro j
    rw [hw]
    exact Index.contains_empty j
  constructor
  case memo => rw [hw]; exact hM
  case started => exact fun root hroot => .inr ((hahead root).2 hroot)
  case reached =>
    intro j hj
    rw [hclaimed, hahead] at hj
    exact ⟨j, by simpa using hj, .refl⟩
  all_goals rw [hw]
  all_goals simp [Index.contains_empty]

/-- A record is kept with more errors. -/
theorem Kept.mono {errors errors' : List Error} (hsub : ∀ e ∈ errors, e ∈ errors') {r : Record}
    (h : Kept p unused M errors r) : Kept p unused M errors' r := by
  cases h with
  | linked hgen => exact .linked hgen
  | broken hgen hfail he => exact .broken hgen hfail (hsub _ he)
  | scanned hgen hscan => exact .scanned hgen hscan

/-- The uses of a record are neighbors of its instance. -/
theorem Kept.neighbor {errors : List Error} {r : Record} (h : Kept p unused M errors r)
    {u : Instance × UseKind} (hu : u ∈ r.uses) : p.NeighborFrom unused M r.inst u.1 := by
  cases h with
  | linked hgen => exact nomatch hu
  | broken hgen hfail he => exact nomatch hu
  | scanned hgen hscan =>
    obtain ⟨n, hn, rfl⟩ := List.mem_map.1 hu
    exact ⟨hgen, _, hscan, n, hn, rfl⟩

namespace Inv

/-- Nothing is lost when an instance that was claimed before is not entered again. -/
private theorem without (hinv : Inv p config unused M roots w) (hw : Without w inst w₁)
    (hagain : w₁.claimed.contains inst = true) : Inv p config unused M roots w₁ := by
  -- What was taken off had been claimed before, so nothing depends on it.
  have hclaimed : ∀ j, inst = j ∨ w.claimed.contains j = true →
      w₁.claimed.contains j = true := by
    intro j hj
    obtain rfl | hj := hj
    · exact hagain
    · rw [hw.claimed]
      exact hj
  constructor
  case memo => rw [hw.drops]; exact hinv.memo
  case nodup => rw [hw.records]; exact hinv.nodup
  case claimed => rw [hw.records, hw.claimed, hw.fatal]; exact hinv.claimed
  case recorded => rw [hw.records, hw.claimed]; exact hinv.recorded
  case within => rw [hw.records]; exact hinv.within
  case kept => rw [hw.records, hw.errors]; exact hinv.kept
  case closed =>
    rw [hw.records]
    intro r hr u hu
    exact hw.moved hclaimed (fun _ h => h) (hinv.closed r hr u hu)
  case started =>
    exact fun root hroot => hw.moved hclaimed (fun _ h => h) (hinv.started root hroot)
  case reached =>
    intro j hj
    rw [hw.claimed] at hj
    exact hinv.reached j (hj.imp_right (hw.ahead j))
  case errors => rw [hw.records, hw.errors]; exact hinv.errors
  case fatal => rw [hw.claimed, hw.fatal]; exact hinv.fatal

/-- An instance beyond the limits is claimed and ends the walk. -/
private theorem beyond (hinv : Inv p config unused M roots w) (hw : Without w inst w₁)
    (hlimit : ¬ config.Within inst) (e : Error) : Inv p config unused M roots
      { w₁ with claimed := w₁.claimed.insert inst (), fatal := some e } := by
  have hins := hw.contains_insert
  have hmove := @Without.moved w w₁
    { w₁ with claimed := w₁.claimed.insert inst (), fatal := some e } inst hw (fun j => (hins j).2)
    (fun _ h => h)
  constructor
  case memo => show M w₁.drops; rw [hw.drops]; exact hinv.memo
  case nodup => show (w₁.records.map Record.inst).Nodup; rw [hw.records]; exact hinv.nodup
  case claimed =>
    -- the instance is claimed without a record, which the invariant allows of a walk that stops
    exact fun h => nomatch h
  case recorded =>
    intro r hr
    have hr : r ∈ w.records := hw.records ▸ hr
    exact (hins _).2 (.inr (hinv.recorded r hr))
  case within => exact fun r hr => hinv.within r (hw.records ▸ hr)
  case kept => exact fun r hr => hw.errors.symm ▸ hinv.kept r (hw.records ▸ hr)
  case closed => exact fun r hr u hu => hmove (hinv.closed r (hw.records ▸ hr) u hu)
  case started => exact fun root hroot => hmove (hinv.started root hroot)
  case reached =>
    intro j hj
    obtain hj | hj := hj
    · obtain rfl | hj := (hins j).1 hj
      · exact hinv.reached inst (.inr hw.here)
      · exact hinv.reached j (.inl hj)
    · exact hinv.reached j (.inr (hw.ahead j hj))
  case errors =>
    intro e he
    obtain ⟨r, hr, h⟩ := hinv.errors e (hw.errors ▸ he)
    exact ⟨r, hw.records.symm ▸ hr, h⟩
  case fatal => exact fun _ => ⟨inst, (hins inst).2 (.inl rfl), hlimit⟩

/-- An instance within the limits is claimed and recorded, and its uses come to lie ahead. -/
private theorem record (hinv : Inv p config unused M roots w) (hw : Without w inst w₁)
    (hfatal : w.fatal = none) (hnew : w₁.claimed.contains inst = false)
    (hwithin : config.Within inst) {r : Record} (hr : r.inst = inst)
    (hclaimed : w'.claimed = w₁.claimed.insert inst ()) (hrecords : w'.records = r :: w₁.records)
    (hfatal' : w'.fatal = w₁.fatal) (hmemo : M w'.drops)
    (herrors : ∀ e ∈ w₁.errors, e ∈ w'.errors)
    (herror : ∀ e ∈ w'.errors, e ∈ w₁.errors ∨ (p.info inst).isGenerated = true ∧
      (p.needs unused inst).failure = some e)
    (hkept : Kept p unused M w'.errors r)
    (hahead : ∀ j, w'.Ahead j ↔ w₁.Ahead j ∨ ∃ u ∈ r.uses, u.1 = j) :
    Inv p config unused M roots w' := by
  have hins : ∀ j, w'.claimed.contains j = true ↔ inst = j ∨ w.claimed.contains j = true := by
    rw [hclaimed]
    exact hw.contains_insert
  have hleft : ∀ j, w₁.Ahead j → w'.Ahead j := fun j hj => (hahead j).2 (.inl hj)
  have hmem : ∀ s, s ∈ w'.records ↔ s = r ∨ s ∈ w.records := by
    intro s
    rw [hrecords, List.mem_cons, hw.records]
  -- recorded instances are claimed, so this one has no record yet
  have hold : ∀ s ∈ w.records, s.inst ≠ inst := by
    intro s hs he
    have := hinv.recorded s hs
    rw [he, ← hw.claimed, hnew] at this
    exact nomatch this
  have hreach : p.ReachedFrom unused M config roots inst := hinv.reached inst (.inr hw.here)
  constructor
  case memo => exact hmemo
  case nodup =>
    rw [hrecords, hw.records, List.map_cons, List.nodup_cons]
    refine ⟨?_, hinv.nodup⟩
    intro h
    obtain ⟨s, hs, he⟩ := List.mem_map.1 h
    exact hold s hs (he.trans hr)
  case claimed =>
    intro _ j hj
    obtain rfl | hj := (hins j).1 hj
    · exact ⟨r, (hmem r).2 (.inl rfl), hr⟩
    · obtain ⟨s, hs, he⟩ := hinv.claimed hfatal j hj
      exact ⟨s, (hmem s).2 (.inr hs), he⟩
  case recorded =>
    intro s hs
    obtain rfl | hs := (hmem s).1 hs
    · exact (hins _).2 (.inl hr.symm)
    · exact (hins _).2 (.inr (hinv.recorded s hs))
  case within =>
    intro s hs
    obtain rfl | hs := (hmem s).1 hs
    · exact hr ▸ hwithin
    · exact hinv.within s hs
  case kept =>
    intro s hs
    obtain rfl | hs := (hmem s).1 hs
    · exact hkept
    · exact (hinv.kept s hs).mono fun e he => herrors e (hw.errors ▸ he)
  case closed =>
    intro s hs u hu
    obtain rfl | hs := (hmem s).1 hs
    · -- the uses of the new record were put on the stack
      exact .inr ((hahead u.1).2 (.inr ⟨u, hu, rfl⟩))
    · exact hw.moved (fun j => (hins j).2) hleft (hinv.closed s hs u hu)
  case started =>
    exact fun root hroot => hw.moved (fun j => (hins j).2) hleft (hinv.started root hroot)
  case reached =>
    intro j hj
    obtain hj | hj := hj
    · obtain rfl | hj := (hins j).1 hj
      · exact hreach
      · exact hinv.reached j (.inl hj)
    · obtain hj | ⟨u, hu, rfl⟩ := (hahead j).1 hj
      · exact hinv.reached j (.inr (hw.ahead j hj))
      · -- what is new ahead is one link further from the roots
        obtain ⟨root, hroot, hpath⟩ := hreach
        exact ⟨root, hroot, hpath.tail ⟨hwithin, hr ▸ hkept.neighbor hu⟩⟩
  case errors =>
    intro e he
    obtain he | ⟨hgen, hfail⟩ := herror e he
    · obtain ⟨s, hs, h⟩ := hinv.errors e (hw.errors ▸ he)
      exact ⟨s, (hmem s).2 (.inr hs), h⟩
    · exact ⟨r, (hmem r).2 (.inl rfl), hr ▸ hgen, hr ▸ hfail⟩
  case fatal =>
    intro h
    rw [hfatal', hw.fatal, hfatal] at h
    cases h

/-- Whatever a move does, the invariant remains true. -/
theorem moves (hM : p.Preserves M) (hinv : Inv p config unused M roots w)
    (h : Moves p config unused w w') : Inv p config unused M roots w' := by
  obtain ⟨hfatal, ⟨stack, rfl, hahead⟩ | ⟨inst, span, w₁, hw, h⟩⟩ := h.cases
  · constructor
    -- only the stack changed, and what lies ahead did not
    case closed => exact fun r hr u hu => (hinv.closed r hr u hu).imp_right (hahead _).2
    case started => exact fun root hroot => (hinv.started root hroot).imp_right (hahead _).2
    case reached => exact fun j hj => hinv.reached j (hj.imp_right (hahead j).1)
    case memo => exact hinv.memo
    case nodup => exact hinv.nodup
    case claimed => exact hinv.claimed
    case recorded => exact hinv.recorded
    case within => exact hinv.within
    case kept => exact hinv.kept
    case errors => exact hinv.errors
    case fatal => exact hinv.fatal
  · have hmemo : M w₁.drops := hw.drops.symm ▸ hinv.memo
    cases h with
    | again hagain => exact hinv.without hw hagain
    | tooLong hnew hlong => exact hinv.beyond hw (fun hwithin => by have := hwithin.1; omega) _
    | tooDeep hnew hlong hdeep =>
      exact hinv.beyond hw (fun hwithin => by have := hwithin.2; omega) _
    | linked hnew hwithin hgen =>
      refine hinv.record hw hfatal hnew hwithin rfl rfl rfl rfl hmemo (fun e he => he)
        (fun e he => .inl he) (.linked hgen) ?_
      intro j
      simp [Ahead]
    | broken hnew hwithin hgen hfail hsettle =>
      refine hinv.record hw hfatal hnew hwithin rfl rfl rfl rfl (hM _ _ _ _ _ hmemo hsettle)
        (fun e he => List.mem_cons_of_mem _ he) ?_ (.broken hgen hfail List.mem_cons_self) ?_
      · intro e he
        obtain rfl | he := List.mem_cons.1 he
        · exact .inr ⟨hgen, hfail⟩
        · exact .inl he
      · intro j
        simp [Ahead]
    | scanned hnew hwithin hgen hfail hsettle =>
      refine hinv.record hw hfatal hnew hwithin rfl rfl rfl rfl (hM _ _ _ _ _ hmemo hsettle)
        (fun e he => he) (fun e he => .inl he)
        (.scanned hgen ⟨hfail, _, _, _, hmemo, hsettle⟩) ?_
      intro j
      simp [Ahead]
      grind

/-- What holds at the start holds wherever the walk gets. -/
theorem reach (hM : p.Preserves M) (hinv : Inv p config unused M roots w)
    (h : Relation.ReflTransGen (Moves p config unused) w w') :
    Inv p config unused M roots w' := by
  induction h with
  | refl => exact hinv
  | tail _ hmove ih => exact ih.moves hM hmove

end Inv

end Walk

end Monomorph
