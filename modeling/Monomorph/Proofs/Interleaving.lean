import Monomorph.Collect.Asking
import Monomorph.Proofs.Asking
import Monomorph.Proofs.Bounded
import Monomorph.Proofs.Exactness

/-!
# A walk that asks on its way

`Program.collecting` asks for sets of unused parameters one at a time, each time an instance is
about to be made, and the analyzer remembers what it has answered. `Program.collect` takes all sets
from the analyzer as it is in the beginning, and consults it in the end for all that were used. Both
come to one collection and to one analyzer (`Program.collecting_eq`): what is remembered on the way
changes no later answer, and asking in many goes leaves what asking at once leaves.
-/

namespace Monomorph

open Analyzer (Asking Gives)

variable {p : Program} {a : Analyzer} {ask : ItemId → Asking ParamSet} {α : Type}

/-! ## What an instance needs -/

/-- What asking on the way finds out about needs: the sets of the items are asked for of which
    instances are made. -/
def Needs.Tells (p : Program) (a : Analyzer) (x : Asking Needs) (n : Needs) : Prop :=
  Gives p a x n n.items

namespace Needs

variable {x next : Asking Needs} {n m : Needs}

/-- After a step that succeeds, the next one's items come behind. -/
theorem items_andThen (h : n.failure = none) :
    (n.andThen fun _ => m).items = n.items ++ m.items := by
  simp only [items, insts, found_andThen h, List.filterMap_append]

/-- Steps without items have none in a row. -/
theorem items_andThen_eq_nil {next : Unit → Needs} (hn : n.items = [])
    (hnext : (next ()).items = []) : (n.andThen next).items = [] := by
  cases hfail : n.failure with
  | some e => rwa [Needs.andThen, hfail]
  | none => rw [items_andThen (m := next ()) hfail, hn, hnext, List.append_nil]

/-- Where no instance is made, nothing is asked for. -/
theorem Tells.pure (h : n.items = []) : Tells p a (pure n) n := by
  rw [Tells, h]
  exact Gives.pure n

/-- What comes next is asked about unless there has been a failure. -/
theorem Tells.andThen (hx : Tells p a x n) (hnext : n.failure = none → Tells p a next m) :
    Tells p a (andThenM x next) (n.andThen fun _ => m) := by
  -- A failing step ends the row, so the items of the next one are asked for only where it is taken.
  cases hfail : n.failure with
  | some e =>
    have hsame : (n.andThen fun _ => m) = n := by rw [Needs.andThen, hfail]
    rw [Tells, hsame, ← List.append_nil n.items]
    refine hx.bind ?_
    simp only [hfail]
    exact Gives.pure n
  | none =>
    rw [Tells, items_andThen hfail]
    refine hx.bind ?_
    simp only [hfail]
    exact (hnext hfail).then_pure fun m => n.andThen fun _ => m

/-- The members of a list are asked about one after the other. -/
theorem Tells.gather {f : α → Asking Needs} {g : α → Needs} {as : List α}
    (h : ∀ a' ∈ as, Tells p a (f a') (g a')) : Tells p a (gatherM f as) (gather g as) := by
  induction as with
  | nil => exact .pure rfl
  | cons b as ih =>
    exact (h b List.mem_cons_self).andThen fun _ => ih fun c hc => h c (List.mem_cons_of_mem _ hc)

end Needs

namespace Program

open Needs (Tells)

/-- The item of an instance that was to be made. -/
def itemsMade (made : Except Reason (Option Instance)) : List ItemId :=
  match made with
  | .ok inst? => inst?.toList.filterMap Instance.item?
  | .error _ => []

/-- A need asks for the item of what was made, if anything was. -/
theorem items_needFor (formed : List Ty) (i : ItemId) (args : Args) (kind : UseKind) (span : Span)
    (made : Except Reason (Option Instance)) :
    (Needs.ofResult formed (p.needFor i args kind span made)).items = itemsMade made := by
  cases made with
  | error e => rfl
  | ok inst? => cases inst? <;> rfl

/-- A need for something made is reported as unresolved or used. -/
theorem needFor_some (i : ItemId) (args : Args) (kind : UseKind) (span : Span)
    (made : Except Reason Instance) : p.needFor i args kind span (some <$> made) = do
      let inst ← p.orUnresolved i args span id made
      return some (.use ⟨inst, kind, span⟩) := by
  cases made <;> rfl

variable (hask : ∀ i, Gives p a (ask i) (a.unused p i) [i])
include hask

/-- Making an instance asks for the set of its item, once the arguments are accepted. -/
theorem gives_makeM {make : ParamSet → Instance} {i : ItemId} {args : Args}
    {made : Except Reason Instance} (hmake : (make (a.unused p i)).item? = some i)
    (hmade : made = do
      p.checkArity i args
      return make (a.unused p i)) :
    Gives p a (p.makeM ask make i args) made (itemsMade (some <$> made)) := by
  subst hmade
  unfold makeM
  -- a wrong number of arguments is found out before any set is asked for
  cases p.checkArity i args with
  | error e => exact .pure _
  | ok _ =>
    have hitems : itemsMade (.ok (some (make (a.unused p i)))) = [i] := by
      simp [itemsMade, hmake]
    have hgives := (hask i).then_pure fun s => (.ok (make s) : Except Reason Instance)
    rw [← hitems] at hgives
    exact hgives

/-- An instance is made by asking for the set of its item. -/
theorem gives_instantiateM (i : ItemId) (args : Args) :
    Gives p a (p.instantiateM ask i args) (p.instantiate (a.unused p) i args)
      (itemsMade (some <$> p.instantiate (a.unused p) i args)) :=
  gives_makeM hask (item?_instanceDef i) rfl

/-- A vtable shim is made by asking for the set of its method. -/
theorem gives_vtableShimM (i : ItemId) (args : Args) :
    Gives p a (p.vtableShimM ask i args) (p.vtableShim (a.unused p) i args)
      (itemsMade (some <$> p.vtableShim (a.unused p) i args)) :=
  gives_makeM hask rfl rfl

/-- A callee is found by asking for the set of what the call resolves to. -/
theorem gives_calleeM (i : ItemId) (args : Args) :
    Gives p a (p.calleeM ask i args) (p.callee (a.unused p) i args)
      (itemsMade (p.callee (a.unused p) i args)) := by
  unfold calleeM callee
  cases p.resolve i args with
  | item target targetArgs =>
    -- a target that cannot be called is not asked about
    by_cases hcallable : (p.item target).kind.isCallable = true
    · simp only [hcallable, if_true]
      exact (gives_instantiateM hask target targetArgs).then_pure fun made => some <$> made
    · simp only [hcallable]
      exact .pure _
  | virtual => exact .pure _
  | unresolved => exact .pure _

omit hask in
/-- Once an instance has been made, the need for it is told. -/
theorem tells_needFor {x : Asking (Except Reason Instance)} {made : Except Reason Instance}
    (hx : Gives p a x made (itemsMade (some <$> made))) (formed : List Ty) (i : ItemId)
    (args : Args) (kind : UseKind) (span : Span) :
    Tells p a (do
      let made ← x
      return .ofResult formed (p.needFor i args kind span (some <$> made)))
      (.ofResult formed do
        let inst ← p.orUnresolved i args span id made
        return some (.use ⟨inst, kind, span⟩)) := by
  rw [← needFor_some, Tells, items_needFor]
  exact hx.then_pure fun made =>
    Needs.ofResult formed (p.needFor i args kind span (some <$> made))

/-- A call asks for the sets that its needs come from. -/
theorem tells_callNeedsM (args : Args) (site : CallSite) :
    Tells p a (p.callNeedsM ask args site) (p.callNeeds (a.unused p) args site) := by
  unfold callNeedsM callNeeds
  -- the arguments of a call are put in before the callee is looked up
  cases p.orUnresolved site.callee site.args site.span .subst (args.subst site.args) with
  | error e => exact .pure rfl
  | ok callArgs =>
    have hneed := items_needFor (p := p) (args.formed site.args) site.callee callArgs site.kind.useKind
      site.span (p.callee (a.unused p) site.callee callArgs)
    have hcallee := (gives_calleeM hask site.callee callArgs).then_pure fun made =>
      Needs.ofResult (args.formed site.args)
        (p.needFor site.callee callArgs site.kind.useKind site.span made)
    rw [← hneed] at hcallee
    exact hcallee

/-- An access to a static asks for the sets that its needs come from. -/
theorem tells_staticNeedsM (site : ItemId × Span) :
    Tells p a (p.staticNeedsM ask site) (p.staticNeeds (a.unused p) site) :=
  tells_needFor (gives_instantiateM hask site.1 []) [] site.1 [] .static site.2

/-- A slot of a vtable asks for the sets that its needs come from. -/
theorem tells_methodNeedsM (concrete : Ty) (span : Span) (method : ItemId) :
    Tells p a (p.methodNeedsM ask concrete span method)
      (p.methodNeeds (a.unused p) concrete span method) := by
  unfold methodNeedsM methodNeeds
  cases p.resolve method [.ty concrete] with
  | item target targetArgs =>
    exact tells_needFor (gives_vtableShimM hask target targetArgs) [] target targetArgs .vtable span
  | virtual => exact .pure rfl
  | unresolved => exact .pure rfl

omit hask in
/-- Putting in arguments asks for nothing by itself. -/
theorem tells_needsOfSubstM (i : ItemId) (args : Args) (span : Span) (t : Ty)
    {next : Ty → Asking Needs} {next' : Ty → Needs} (h : ∀ u, Tells p a (next u) (next' u)) :
    Tells p a (p.needsOfSubstM i args span t next) (p.needsOfSubst i args span t next') := by
  unfold needsOfSubstM needsOfSubst
  cases t.subst args with
  | error e => exact .pure rfl
  | ok u => exact Tells.andThen (.pure rfl) fun _ => h u

/-- A coercion asks for the sets that its needs come from. -/
theorem tells_unsizeNeedsM (i : ItemId) (args : Args) (site : Ty × Ty × Span) :
    Tells p a (p.unsizeNeedsM ask i args site) (p.unsizeNeeds (a.unused p) i args site) := by
  -- both types are made before anything is asked
  refine tells_needsOfSubstM i args _ _ fun source => tells_needsOfSubstM i args _ _ fun target => ?_
  cases unsizeParts source target with
  | some parts =>
    refine Tells.andThen (.pure rfl) fun _ => .gather fun m _ => ?_
    exact tells_methodNeedsM hask parts.1 site.2.2 m
  | none => exact .pure rfl

omit hask in
/-- Nothing is asked for about values that are dropped. -/
theorem items_dropNeeds (i : ItemId) (args : Args) (sites : List (Ty × Span)) :
    (Needs.gather (p.dropNeeds i args) sites).items = [] := by
  induction sites with
  | nil => rfl
  | cons site sites ih =>
    -- the type of a dropped value is made, and no instance
    refine Needs.items_andThen_eq_nil ?_ ih
    unfold dropNeeds needsOfSubst
    cases site.1.subst args <;> rfl

/-- A body asks for the sets that its needs come from, in the order of its operations. -/
theorem tells_bodyNeedsM (i : ItemId) (args : Args) (b : Body) :
    Tells p a (p.bodyNeedsM ask i args b) (p.bodyNeeds (a.unused p) i args b) := by
  refine Tells.andThen (.gather fun site _ => tells_callNeedsM hask args site) fun _ => ?_
  refine Tells.andThen (.gather fun site _ => tells_staticNeedsM hask site) fun _ => ?_
  refine Tells.andThen (.pure (items_dropNeeds i args b.drops)) fun _ => ?_
  exact .gather fun site _ => tells_unsizeNeedsM hask i args site

omit hask in
/-- Nor is anything about glue. -/
theorem items_glue (ns : List Need) (kind : UseKind) (span : Span) (ts : List Ty)
    (failure : Option Error) (formed : List Ty) :
    ({ found := ns ++ ts.map fun t => .glue t kind span, failure, formed } : Needs).items =
      ({ found := ns, failure, formed } : Needs).items := by
  have hglue : (ts.map fun t => Need.glue t kind span).filterMap Need.inst? = [] := by
    simp [List.filterMap_map, Need.inst?]
  simp only [Needs.items, Needs.insts, List.filterMap_append, hglue, List.append_nil]

/-- Drop glue asks for the set of the declared method alone. -/
theorem tells_glueNeedsM (inst : Instance) (t : Ty) :
    Tells p a (p.glueNeedsM ask inst t) (p.glueNeeds (a.unused p) inst t) := by
  unfold glueNeedsM glueNeeds
  cases p.glueCandidates t with
  | error e => exact .pure rfl
  | ok parts =>
    -- the parts inside need no question; only the method has one
    cases hmethod : parts.method with
    | none =>
      simp only [hmethod]
      exact .pure (items_glue [] .drop .dummy parts.children none (p.glueFormed t))
    | some m =>
      obtain ⟨method, args⟩ := m
      simp only [hmethod]
      have hmade := gives_instantiateM hask method args
      cases hinst : p.instantiate (a.unused p) method args with
      | error e =>
        have hitems := items_glue [] .drop .dummy parts.children
          (some (p.unresolved method args .dummy e)) (p.glueFormed t)
        rw [hinst] at hmade
        exact (hmade.then_pure _).congr fun k => iff_of_eq (congrArg (k ∈ ·) hitems.symm)
      | ok inst =>
        have hitems := items_glue [.use ⟨inst, .call, .dummy⟩] .drop .dummy parts.children none
          (p.glueFormed t)
        rw [hinst] at hmade
        exact (hmade.then_pure _).congr fun k => iff_of_eq (congrArg (k ∈ ·) hitems.symm)

/-- Asking on the way finds out what an instance needs, and asks for the sets of what is made. -/
theorem tells_needsM (inst : Instance) :
    Tells p a (p.needsM ask inst) (p.needs (a.unused p) inst) := by
  unfold needsM needs
  -- The scan of an instance goes by what it is, and so does the one that asks.
  cases inst.what with
  | item i | static i =>
    cases hbody : (p.item i).body with
    | some b =>
      simp only [hbody]
      exact tells_bodyNeedsM hask i inst.args b
    | none =>
      simp only [hbody]
      exact .pure rfl
  | dropGlue =>
    cases inst.glueTy? with
    | some t => exact tells_glueNeedsM hask inst t
    | none => exact .pure rfl
  | vtableShim i =>
    exact tells_needFor (gives_instantiateM hask i inst.args) [] i inst.args .call .dummy

end Program

/-! ## The walk -/

namespace Walk

variable {config : Config}

/-- Whether a walk that asks on its way comes to where another walk comes to, and the analyzer to
    where asking in the end for all sets leads that the walk has used. -/
def Follows (p : Program) (a : Analyzer) (w : Walk) (x : Asking Walk) (y : Option Walk) : Prop :=
  x (a.consult p w.asked) = y.map fun w' => (w', a.consult p w'.asked)

/-- A scan notes the items whose sets it has used. -/
theorem asked_scanned {fuel : Nat} {w w' : Walk} {inst : Instance} {needs : Needs}
    (h : w.scanned p fuel inst needs = some w') : w'.asked = needs.items ++ w.asked := by
  simp only [scanned, Option.bind_eq_bind, Option.bind_eq_some_iff, Prod.exists] at h
  obtain ⟨ns, drops, -, h⟩ := h
  split at h
  · obtain rfl := Option.some.inj h
    rfl
  · obtain rfl := Option.some.inj h
    rfl

namespace Follows

variable {scan : Walk → Instance → Asking Walk} {scan' : Walk → Instance → Option Walk}

/-- A step that asks for nothing leaves the table as it is. -/
theorem pure {w w' : Walk} (h : w'.asked = w.asked) :
    Follows p a w (Pure.pure w') (some w') := by
  rw [Follows, ← h]
  rfl

/-- Entering an instance asks for nothing but what its scan asks for. -/
theorem enterBy (hscan : ∀ w inst, Follows p a w (scan w inst) (scan' w inst)) (w : Walk)
    (inst : Instance) (span : Span) :
    Follows p a w (w.enterBy p config scan inst span) (w.enterBy p config scan' inst span) := by
  unfold Walk.enterBy claimBy
  -- A claim is turned away in one of three ways or made; only the last one can lead to a scan.
  by_cases hclaimed : w.claimed.contains inst = true
  · simp only [hclaimed, if_true]
    exact .pure rfl
  · simp only [hclaimed]
    by_cases hlong : inst.args.nodeCount > config.lengthLimit
    · simp only [hlong, if_true]
      exact .pure rfl
    · by_cases hdeep : inst.args.nesting > config.depthLimit
      · simp only [hlong, hdeep, if_true, if_false]
        exact .pure rfl
      · by_cases hgen : (p.info inst).isGenerated = true
        · simp only [hlong, hdeep, hgen, if_true, if_false]
          exact hscan _ inst
        · simp only [hlong, hdeep, hgen, if_false]
          exact .pure rfl

/-- So does a step. -/
theorem stepBy (hscan : ∀ w inst, Follows p a w (scan w inst) (scan' w inst)) (w : Walk) :
    Follows p a w (w.stepBy p config scan) (w.stepBy p config scan') := by
  unfold Walk.stepBy
  -- only entering an instance may ask, and the other steps ask nothing on both sides
  rcases hstack : w.stack with _ | ⟨⟨inst, _ | ⟨n, pending⟩⟩, stack⟩
  · rcases hwaiting : w.waiting with _ | ⟨root, waiting⟩
    · exact .pure rfl
    · exact enterBy hscan { w with waiting, stack := [] } root .dummy
  · exact .pure rfl
  · exact enterBy hscan { w with stack := ⟨inst, pending⟩ :: stack } n.inst n.span

/-- A run asks for what its scans ask for. -/
theorem runBy {scan : Nat → Walk → Instance → Asking Walk}
    {scan' : Nat → Walk → Instance → Option Walk}
    (hscan : ∀ fuel w inst, Follows p a w (scan fuel w inst) (scan' fuel w inst)) (fuel : Nat)
    (w : Walk) : Follows p a w (w.runBy p config (fun _ => none) scan fuel)
      (w.runBy p config none scan' fuel) := by
  induction fuel generalizing w with
  | zero => rfl
  | succ fuel ih =>
    -- A step of the walk leaves the table where the next one starts from.
    unfold Walk.runBy
    by_cases hdone : w.isDone = true
    · simp only [hdone, if_true]
      exact .pure rfl
    · simp only [hdone]
      have hstep : Follows p a w (w.stepBy p config (scan fuel)) (w.stepBy p config (scan' fuel)) :=
        stepBy (hscan fuel) w
      rw [Follows] at hstep
      rw [if_neg Bool.false_ne_true, if_neg Bool.false_ne_true, Follows, Analyzer.asking_bind, hstep]
      cases w.stepBy p config (scan' fuel) with
      | none => rfl
      | some w₁ => exact ih w₁

end Follows

/-- A scan that asks on its way comes to what it comes to for the sets that the analyzer has. -/
theorem follows_scanM (hask : ∀ i, Gives p a (ask i) (a.unused p i) [i]) (fuel : Nat) (w : Walk)
    (inst : Instance) :
    Follows p a w (scanM p ask fuel w inst) (w.scan p (a.unused p) fuel inst) := by
  -- The needs are found with the table of what was asked for before, and after them it has the
  -- items of the needs as well.
  have hneeds := p.tells_needsM hask inst (a.consult p w.asked) (a.extends_consult p w.asked)
  rw [Follows, scanM, Analyzer.asking_bind, hneeds, Option.bind_some, Analyzer.consult_consult, scan]
  show (w.scanned p fuel inst (p.needs (a.unused p) inst) >>= fun w' => pure (w', _)) = _
  cases hscanned : w.scanned p fuel inst (p.needs (a.unused p) inst) with
  | none => rfl
  | some w' =>
    have hsame : a.consult p (w.asked ++ (p.needs (a.unused p) inst).items) =
        a.consult p w'.asked := Analyzer.consult_congr_mem fun k => by
      rw [asked_scanned hscanned, List.mem_append, List.mem_append, or_comm]
    rw [hsame]
    rfl

end Walk

/-- Collecting with questions on the way comes to the same collection or the same errors as
    collecting with the sets that the analyzer has in the beginning, and leaves the same entries and
    conflicts in the analyzer. -/
theorem Program.collecting_eq (h : p.ClosuresBehind) (config : Config) (a : Analyzer)
    (fuel : Nat) : p.collecting config fuel a =
      (p.collect config a fuel).map fun r => ((r.walk, r.outcome), r.analyzer) := by
  have hask : ∀ i, Gives p a (Analyzer.query p (p.items.size + 1) i) (a.unused p i) [i] := fun i =>
    Analyzer.gives_query h a (Nat.lt_succ_of_le (Nat.sub_le _ _))
  -- The roots ask for one set each, in their order, before the walk starts.
  have hroots := Gives.mapM (a := a) fun i (_ : i ∈ p.rootItems config.mode) =>
    (hask i).map (p.instanceWith · i [])
  rw [List.flatMap_singleton'] at hroots
  have hstart := hroots a (.refl p a)
  rw [collecting, Walk.startM, Analyzer.asking_bind, Analyzer.asking_bind, hstart]
  let start := Walk.start p (a.unused p) (p.rootItems config.mode)
  have hwalk : Walk.Follows p a start (start.runBy p config _ _ fuel) (start.run p config _ fuel) :=
    Walk.Follows.runBy (Walk.follows_scanM hask) fuel start
  rw [Walk.Follows] at hwalk
  show (start.runBy p config _ (Walk.scanM p _) fuel >>= fun walk => pure (walk, _) : Asking _)
    (a.consult p start.asked) = _
  rw [Analyzer.asking_bind, hwalk, collect, a.answer_sets]
  show _ = Option.map _ ((start.run p config (a.unused p) fuel).bind _)
  rw [Walk.run]
  cases start.runBy p config none (Walk.scan p (a.unused p)) fuel with
  | none => rfl
  | some w => rfl

end Monomorph
