import Monomorph.Proofs.Walk

/-!
# Walks that end

A walk claims every instance once, and between two claims it only takes away what lies ahead. So it
ends as soon as the instances that can be reached within the limits are finitely many and the types
that it asks about can be classified (`Walk.exists_run`).
-/

namespace Monomorph

namespace Walk

variable {p : Program} {config : Config} {unused : UnusedSets} {M : DropMemo → Prop}
  {roots : List Instance}

/-- How many steps the walk takes at most before it claims an instance. -/
def todo (w : Walk) : Nat :=
  (w.stack.flatMap Frame.pending).length + w.stack.length + w.waiting.length

/-- An instance can be entered if the types that its scan asks about can be classified. -/
theorem exists_enter {w : Walk} {inst : Instance} {span : Span}
    (hsettle : config.Within inst → (p.info inst).isGenerated = true →
      ∃ fuel r, p.settle fuel (p.needs unused inst).found w.drops = some r) :
    ∃ fuel w', w.enter p config unused fuel inst span = some w' := by
  -- the checks come one after the other, and only the last of them needs fuel
  by_cases hclaimed : w.claimed.contains inst = true
  · exact ⟨0, w, if_pos hclaimed⟩
  · by_cases hlong : inst.args.nodeCount > config.lengthLimit
    · exact ⟨0, _, (if_neg hclaimed).trans (if_pos hlong)⟩
    · by_cases hdeep : inst.args.nesting > config.depthLimit
      · exact ⟨0, _, (if_neg hclaimed).trans ((if_neg hlong).trans (if_pos hdeep))⟩
      · by_cases hgen : (p.info inst).isGenerated = true
        · obtain ⟨fuel, ⟨ns, drops⟩, h⟩ := hsettle ⟨by omega, by omega⟩ hgen
          refine ⟨fuel, ?_⟩
          simp only [enter, enterBy, if_neg hclaimed, claimBy, if_neg hlong, if_neg hdeep, if_pos hgen,
            scan, scanned, h, Option.bind_eq_bind, Option.bind_some]
          split <;> exact ⟨_, rfl⟩
        · exact ⟨0, _, (if_neg hclaimed).trans ((if_neg hlong).trans ((if_neg hdeep).trans
            (if_neg hgen)))⟩

/-- Entering an instance leaves the walk as it was, ends it, or claims the instance. -/
theorem Entered.progress {w w' : Walk} {inst : Instance} {span : Span}
    (h : Entered p config unused w inst span w') :
    w' = w ∨ w'.isDone = true ∨ w.claimed.contains inst = false ∧ config.Within inst ∧
      w'.claimed = w.claimed.insert inst () := by
  -- what was claimed before changes nothing, and a check that fails ends the walk
  cases h with
  | again => exact .inl rfl
  | tooLong => exact .inr (.inl rfl)
  | tooDeep => exact .inr (.inl rfl)
  | linked hnew hwithin => exact .inr (.inr ⟨hnew, hwithin, rfl⟩)
  | broken hnew hwithin => exact .inr (.inr ⟨hnew, hwithin, rfl⟩)
  | scanned hnew hwithin => exact .inr (.inr ⟨hnew, hwithin, rfl⟩)

/-- A step ends the walk, has less to do for the same claims, or claims an instance. -/
theorem progress_of_step {fuel : Nat} {w w' : Walk} (hdone : w.isDone = false)
    (h : w.step p config unused fuel = some w') :
    w'.isDone = true ∨ (w'.claimed = w.claimed ∧ w'.todo < w.todo) ∨
      ∃ inst, w.Ahead inst ∧ w.claimed.contains inst = false ∧ config.Within inst ∧
        w'.claimed = w.claimed.insert inst () := by
  unfold step stepBy at h
  split at h
  · next inst n pending stack hstack =>
    have here : w.Ahead n.inst := .inr ⟨⟨inst, n :: pending⟩, by simp [hstack], n, by simp, rfl⟩
    obtain rfl | hend | ⟨hnew, hwithin, hclaimed⟩ := (entered_of_enter h).progress
    · -- the neighbor was claimed before, and now it is no longer pending
      refine .inr (.inl ⟨rfl, ?_⟩)
      simp only [todo, hstack, List.flatMap_cons, List.length_append, List.length_cons]
      omega
    · exact .inl hend
    · exact .inr (.inr ⟨n.inst, here, hnew, hwithin, hclaimed⟩)
  · next inst stack hstack =>
    obtain rfl := Option.some.inj h
    refine .inr (.inl ⟨rfl, ?_⟩)
    simp only [todo, hstack, List.flatMap_cons, List.length_append, List.length_cons,
      List.length_nil]
    omega
  · next hstack =>
    split at h
    · next root waiting hwaiting =>
      have here : w.Ahead root := .inl (by simp [hwaiting])
      obtain rfl | hend | ⟨hnew, hwithin, hclaimed⟩ := (entered_of_enter h).progress
      · refine .inr (.inl ⟨rfl, ?_⟩)
        simp only [todo, hwaiting, List.length_cons]
        omega
      · exact .inl hend
      · exact .inr (.inr ⟨root, here, hnew, hwithin, hclaimed⟩)
    · next hwaiting => simp [isDone, hstack, hwaiting] at hdone

/-- A step can be taken if the types that are asked about can be classified. -/
theorem exists_step {w : Walk} (hsettle : ∀ inst, w.Ahead inst → config.Within inst →
      (p.info inst).isGenerated = true →
        ∃ fuel r, p.settle fuel (p.needs unused inst).found w.drops = some r) :
    ∃ fuel w', w.step p config unused fuel = some w' := by
  unfold step stepBy
  -- what is ahead of the walk is a neighbor at the end of the chain, or else a root
  split
  · next inst n pending stack hstack =>
    exact exists_enter (hsettle n.inst
      (.inr ⟨⟨inst, n :: pending⟩, by simp [hstack], n, by simp, rfl⟩))
  · exact ⟨0, _, rfl⟩
  · split
    · next root waiting hwaiting => exact exists_enter (hsettle root (.inl (by simp [hwaiting])))
    · exact ⟨0, _, rfl⟩

/-- The run goes on after a step. -/
private theorem exists_run_of_step {fuel : Nat} {w w₁ : Walk} (hdone : w.isDone = false)
    (hstep : w.step p config unused fuel = some w₁)
    (hrun : ∃ fuel w', w₁.run p config unused fuel = some w') :
    ∃ fuel w', w.run p config unused fuel = some w' := by
  obtain ⟨fuel', w', hrun⟩ := hrun
  -- fuel for both the step and what follows it, and one more for having gone on
  refine ⟨max fuel fuel' + 1, w', ?_⟩
  have hstep := step_mono (Nat.le_max_left fuel fuel') hstep
  have hrun := run_mono (Nat.le_max_right fuel fuel') hrun
  unfold step at hstep
  unfold run at hrun ⊢
  simp only [runBy, hdone, Bool.false_eq_true, if_false, hstep, Option.bind_eq_bind,
    Option.bind_some, hrun]

/-- A walk ends if a finite list has all instances that it can claim within the limits, and the
    types that their scans ask about can be classified. -/
theorem exists_run (hM : p.Preserves M)
    (hsettle : ∀ inst, p.ReachedFrom unused M config roots inst → config.Within inst →
      (p.info inst).isGenerated = true → ∀ m, M m →
        ∃ fuel r, p.settle fuel (p.needs unused inst).found m = some r)
    {L : List Instance} {w : Walk} (hinv : Inv p config unused M roots w)
    (hL : ∀ inst, p.ReachedFrom unused M config roots inst → config.Within inst →
      w.claimed.contains inst = false → inst ∈ L) :
    ∃ fuel w', w.run p config unused fuel = some w' := by
  -- the list of what can be claimed shrinks, and between two claims there is less to do
  generalize hn : L.length = n
  induction n using Nat.strongRecOn generalizing L w with
  | ind n ihn =>
    generalize hk : w.todo = k
    induction k using Nat.strongRecOn generalizing w with
    | ind k ihk =>
      cases hdone : w.isDone with
      | true => exact ⟨1, w, if_pos hdone⟩
      | false =>
        have hsteps : ∀ inst, w.Ahead inst → config.Within inst →
            (p.info inst).isGenerated = true →
              ∃ fuel r, p.settle fuel (p.needs unused inst).found w.drops = some r :=
          fun inst hahead hwithin hgen =>
            hsettle inst (hinv.reached inst (.inr hahead)) hwithin hgen _ hinv.memo
        obtain ⟨fuel, w₁, hstep⟩ := exists_step hsteps
        have hinv₁ := hinv.moves hM (moves_of_step hdone hstep)
        apply exists_run_of_step hdone hstep
        obtain hend | ⟨hsame, hless⟩ | ⟨inst, hahead, hnew, hwithin, hclaimed⟩ :=
          progress_of_step hdone hstep
        · exact ⟨1, w₁, if_pos hend⟩
        · -- nothing was claimed, so the list stays and there is less to do
          refine ihk w₁.todo (hk ▸ hless) hinv₁ ?_ rfl
          rw [hsame]
          exact hL
        · -- the claimed instance leaves the list, and how much there is to do starts anew
          have hmem := hL inst (hinv.reached inst (.inr hahead)) hwithin hnew
          have hshort : (L.erase inst).length < n := by
            rw [List.length_erase_of_mem hmem]
            have := List.length_pos_of_mem hmem
            omega
          refine ihn _ hshort hinv₁ ?_ rfl
          intro j hreach hwithin hj
          rw [hclaimed, Index.contains_insert, Bool.or_eq_false_iff, decide_eq_false_iff_not] at hj
          exact (List.mem_erase_of_ne (Ne.symm hj.1)).2 (hL j hreach hwithin hj.2)

end Walk

end Monomorph
