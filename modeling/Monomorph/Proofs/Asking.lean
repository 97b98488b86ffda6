import Monomorph.Proofs.Consulting
import Monomorph.Proofs.LeastUse

/-!
# Asking as the need arises

An analyzer that asks itself for the sets of closures when it meets them, and remembers every answer
at once, gives the answers that are said in advance and remembers what is said in advance
(`Analyzer.query_eq`, `Analyzer.verifying_eq`). While the set of an item is computed only closures
behind it are asked for, so no entry for the item itself appears in the meantime. If another asker
had made one, it would be the computed set, and comparing the two would find no conflict
(`Analyzer.Extends.compare_eq`).

`Analyzer.Gives` says what asking comes to. It holds at any later time as well, when the analyzer has
remembered more of its own answers, and so it carries over from single questions to whatever is made
up of them.
-/

namespace Monomorph

namespace Analyzer

variable {a b : Analyzer} {p : Program} {ws vs : List ItemId} {i k : ItemId} {α β γ : Type}

/-! ## What is made up of questions -/

/-- Questions in a row hand the table on. -/
theorem asking_bind (x : Asking α) (f : α → Asking β) (b : Analyzer) :
    (x >>= f) b = (x b).bind fun q => f q.1 q.2 := rfl

/-- What asking comes to, also for an analyzer that has remembered some of its own answers since:
    there is a result, and the sets of some items have been asked for. -/
def Gives (p : Program) (a : Analyzer) (x : Asking α) (r : α) (ws : List ItemId) : Prop :=
  ∀ b, a.Extends p b → x b = some (r, b.consult p ws)

namespace Gives

variable {x : Asking α} {r : α} {f : α → Asking β} {s : β}

/-- Nothing has to be asked for what is known. -/
theorem pure (r : α) : Gives p a (pure r) r [] := fun b _ => by
  rw [consult_nil]
  rfl

/-- One question after the other. -/
theorem bind (hx : Gives p a x r ws) (hf : Gives p a (f r) s vs) :
    Gives p a (x >>= f) s (ws ++ vs) := by
  intro b hext
  have hlater := hf (b.consult p ws) (hext.trans (b.extends_consult p ws))
  rw [consult_consult] at hlater
  rw [asking_bind, hx b hext]
  exact hlater

/-- What is done with an answer asks for nothing more. -/
theorem map (g : α → β) (hx : Gives p a x r ws) : Gives p a (g <$> x) (g r) ws := by
  have hbind := hx.bind (f := fun r => Pure.pure (g r)) (.pure (g r))
  rw [List.append_nil] at hbind
  rwa [map_eq_pure_bind]

/-- What was asked for may be worked on. -/
theorem then_pure (g : α → β) (hx : Gives p a x r ws) :
    Gives p a (x >>= fun r => Pure.pure (g r)) (g r) ws := by
  rw [← map_eq_pure_bind]
  exact hx.map g

/-- An analyzer may be looked at first. -/
theorem read {f : Analyzer → Asking α} (h : ∀ b, a.Extends p b → Gives p a (f b) r ws) :
    Gives p a (get >>= f) r ws := fun b hext => h b hext b hext

/-- Only which sets are asked for makes a difference. -/
theorem congr (hx : Gives p a x r ws) (h : ∀ k, k ∈ ws ↔ k ∈ vs) : Gives p a x r vs := by
  intro b hext
  rw [hx b hext, consult_congr_mem h]

/-- The members of a list are dealt with one after the other. -/
theorem mapM {f : γ → Asking α} {g : γ → α} {w : γ → List ItemId} {xs : List γ}
    (h : ∀ x ∈ xs, Gives p a (f x) (g x) (w x)) :
    Gives p a (xs.mapM f) (xs.map g) (xs.flatMap w) := by
  induction xs with
  | nil => exact .pure []
  | cons x xs ih =>
    rw [List.mapM_cons]
    -- what has been asked for the first element is remembered when the others are looked at
    have hrest := (ih fun y hy => h y (List.mem_cons_of_mem _ hy)).map (g x :: ·)
    rw [map_eq_pure_bind] at hrest
    exact (h x List.mem_cons_self).bind hrest

end Gives

/-! ## The set of one item -/

/-- The closures inside an item that an operation names. -/
def closuresIn (p : Program) (i : ItemId) (op : Operation) : List ItemId :=
  match op.action with
  | .call _ callee _ => if (p.item callee).isClosureIn i then [callee] else []
  | _ => []

/-- The closures that an operation asks for are those it calls. -/
theorem mem_closuresIn_iff {op : Operation} : k ∈ closuresIn p i op ↔
    (p.item k).isClosureIn i = true ∧ ∃ kind args, op.action = .call kind k args := by
  unfold closuresIn
  split
  · next kind callee args hact =>
    split <;> grind
  · next hact => grind

/-- What an operation uses is found with a question for the closure that it names, if any. -/
theorem gives_indicesM {ask : ItemId → Asking ParamSet} {op : Operation}
    (hask : ∀ c ∈ closuresIn p i op, Gives p a (ask c) (a.unused p c) [c]) :
    Gives p a (op.action.indicesM fun callee =>
        if (p.item callee).isClosureIn i then some <$> ask callee else pure none)
      (op.action.indices (p.closureSets (a.unused p) i)) (closuresIn p i op) := by
  -- Only the call of an own closure asks for a set.
  unfold closuresIn at hask ⊢
  cases hact : op.action with
  | call kind callee args =>
    rw [hact] at hask
    simp only [Action.indicesM, Action.indices, callIndices, Program.closureSets]
    by_cases hclosure : (p.item callee).isClosureIn i = true
    · simp only [hclosure, if_true] at hask ⊢
      have hcallee := hask callee List.mem_cons_self
      exact (hcallee.map some).then_pure fun unused => callIndices (fun _ => unused) callee args
    · simp only [hclosure, Bool.false_eq_true, if_false]
      exact (Gives.pure none).then_pure fun unused => callIndices (fun _ => unused) callee args
  | _ => exact .pure _

/-- The closures that are asked for while the set of an item is computed. -/
theorem mem_inside_iff_closuresIn (h : p.ClosuresBehind) {b : Body}
    (hb : (p.item i).body = some b) (hon : (a.enabled && !(p.item i).generics.isEmpty) = true) :
    k ∈ b.ops.flatMap (closuresIn p i) ↔ k ∈ a.inside p i := by
  rw [mem_inside_iff, List.mem_flatMap]
  simp only [mem_closuresIn_iff, hon, true_and]
  -- A call site is an operation that calls, and every such operation is a site.
  constructor
  · rintro ⟨op, hop, hclosure, kind, args, hact⟩
    have hsite : ⟨kind, k, args, op.span⟩ ∈ b.calls :=
      List.mem_filterMap.2 ⟨op, hop, by rw [hact]⟩
    exact ⟨h i k hclosure, hclosure, b, hb, _, hsite, rfl⟩
  · rintro ⟨-, hclosure, b', hb', site, hsite, rfl⟩
    obtain rfl := Option.some.inj (hb.symm.trans hb')
    obtain ⟨op, hop, hact⟩ := List.mem_filterMap.1 hsite
    split at hact
    · next kind callee args hcall =>
      obtain rfl := Option.some.inj hact
      exact ⟨op, hop, hclosure, kind, args, hcall⟩
    · cases hact

/-- There is nothing to compute without a body or without parameters, or if nothing is analysed. -/
theorem computed_eq_empty (h : p.ClosuresBehind) (hoff : a.enabled = false ∨
      (p.item i).body = none ∨ (p.item i).generics.isEmpty = true) :
    a.computed p i = .empty := by
  have hcomputed : a.computed p i =
      if a.enabled then (p.item i).unusedParams (a.childSets p i) else .empty := rfl
  rw [hcomputed, Program.childSets_eq h]
  -- nothing is analysed at all, or there is nothing in the item to analyse
  rcases hoff with hoff | hnone
  · rw [hoff]
    rfl
  · rw [Program.unusedParams_eq_empty hnone, ite_self]

/-- The set of an item is computed with questions for the closures inside it. -/
theorem gives_computing (h : p.ClosuresBehind) {ask : ItemId → Asking ParamSet}
    (hask : ∀ c, p.Asks i c → Gives p a (ask c) (a.unused p c) [c]) :
    Gives p a (computing p ask i) (a.computed p i) (a.inside p i) := by
  -- The switch and the number of parameters are looked at before the body is.
  refine .read fun b hext => ?_
  have henabled : b.enabled = a.enabled := hext.enabled
  rw [henabled]
  split
  · next hon =>
    cases hb : (p.item i).body with
    | none =>
      rw [computed_eq_empty h (.inr (.inl hb))]
      refine (Gives.pure _).congr fun k => iff_of_false List.not_mem_nil fun hk => ?_
      obtain ⟨b, hb', -⟩ := (mem_inside_iff.1 hk).2.named
      exact Option.some_ne_none b (hb'.symm.trans hb)
    | some b =>
      have hcomputed : a.computed p i = ((ParamSet.firstN (p.item i).generics.count).eraseAll
          (b.locals.flatMap Ty.indices ++
            (b.ops.map fun op => op.action.indices (p.closureSets (a.unused p) i)).flatten)).settle
          ((p.item i).predicates.map Predicate.indices) := by
        rw [computed, compute, if_pos ((Bool.and_eq_true _ _).mp hon).1]
        show (p.item i).unusedParams (a.childSets p i) = _
        rw [Program.childSets_eq h, Item.unusedParams, hb]
        simp only [Body.indices, List.flatMap_def]
      rw [hcomputed]
      have hops := Gives.mapM (a := a) fun op (hop : op ∈ b.ops) =>
        gives_indicesM fun c hc => hask c ((mem_inside_iff.1
          ((mem_inside_iff_closuresIn h hb hon).1 (List.mem_flatMap.2 ⟨op, hop, hc⟩))).2)
      refine Gives.congr ?_ fun k => mem_inside_iff_closuresIn h hb hon
      rw [← List.append_nil (b.ops.flatMap _)]
      exact hops.bind (.pure _)
  · next hoff =>
    have hempty : a.enabled = false ∨ (p.item i).generics.isEmpty = true := by
      rw [Bool.and_eq_true, not_and_or, Bool.not_eq_true, Bool.not_eq_true,
        Bool.not_eq_false'] at hoff
      exact hoff
    rw [computed_eq_empty h (hempty.imp_right .inr)]
    exact (Gives.pure _).congr fun k => iff_of_false List.not_mem_nil fun hk =>
      hoff (mem_inside_iff.1 hk).1

/-! ## Questions -/

/-- An entry that appears for an item while its set is computed, whoever has asked for it, is that
    set: the comparison notes no conflict. -/
theorem Extends.compare_eq (h : a.Extends p b) (hnew : a.known.get? i = none) {s : ParamSet}
    (hs : b.known.get? i = some s) : b.compare i s (a.computed p i) = b := by
  have hsame : s = a.computed p i := by
    rw [h.added i s hs, unused, hnew, Option.getD_none]
  rw [compare, if_pos hsame]

/-- An item that the program does not have is not remembered. -/
theorem consult_singleton_of_size_le (hi : p.items.size ≤ i) : a.consult p [i] = a := by
  refine eq_of_get? rfl rfl fun k => ?_
  rw [get?_known_consult, if_neg]
  rintro ⟨hk, hconsults⟩
  have hle := hconsults.le (i := i) fun j hj => Nat.le_of_eq (List.mem_singleton.1 hj).symm
  exact Nat.not_lt.2 (Nat.le_trans hi hle) hk

/-- Behind the last item nothing is asked for. -/
theorem consult_inside_of_size_le (hi : p.items.size ≤ i) : a.consult p (a.inside p i) = a := by
  -- an item past the end has no body, and no closure inside
  have hnone : ∀ k, k ∈ a.inside p i ↔ k ∈ ([] : List ItemId) := fun k => by
    refine iff_of_false (fun hk => ?_) List.not_mem_nil
    obtain ⟨b, hb, -⟩ := (mem_inside_iff.1 hk).2.named
    rw [p.item_eq_default (Nat.not_lt.2 hi)] at hb
    cases hb
  rw [consult_congr_mem hnone, consult_nil]

/-- What is known is handed out. -/
theorem query_of_known {fuel : Nat} {s : ParamSet} (h : a.known.get? i = some s) :
    query p (fuel + 1) i a = some (s, a) := by
  rw [query, asking_bind]
  simp only [get, getThe, MonadStateOf.get, StateT.get, pure, Option.bind_some, h]
  rfl

/-- What is computed is remembered, if there is still no entry for the item. -/
theorem query_of_new {fuel : Nat} {s : ParamSet} (h : a.known.get? i = none)
    (hcomputing : computing p (query p fuel) i a = some (s, b)) (hnew : b.known.get? i = none) :
    query p (fuel + 1) i a = some (s, if i < p.items.size then b.remember i s else b) := by
  rw [query, asking_bind]
  simp only [get, getThe, MonadStateOf.get, StateT.get, pure, Option.bind_some, h]
  rw [asking_bind, hcomputing, Option.bind_some, asking_bind]
  simp only [StateT.get, pure, Option.bind_some, hnew]
  rfl

/-- With fuel for the closures behind an item its set is found, and remembered with theirs. -/
theorem gives_query (h : p.ClosuresBehind) (a : Analyzer) {fuel : Nat}
    (hfuel : p.items.size - i < fuel) : Gives p a (query p fuel i) (a.unused p i) [i] := by
  induction fuel generalizing i a with
  | zero => exact absurd hfuel (Nat.not_lt_zero _)
  | succ fuel ih =>
    intro b hext
    have hcomputing : computing p (query p fuel) i b =
        some (b.computed p i, b.consult p (b.inside p i)) := by
      refine gives_computing h (fun c hc => ih b ?_) b (.refl p b)
      have hc' := Program.lt_size_of_isClosureIn hc.inside
      exact Nat.lt_of_lt_of_le (Nat.sub_lt_sub_left (Nat.lt_trans hc.behind hc') hc.behind)
        (Nat.le_of_lt_succ hfuel)
    rw [← hext.unused_eq]
    cases hknown : b.known.get? i with
    | some s =>
      rw [query_of_known hknown, b.unused_of_known p hknown, consult_singleton_of_known hknown]
    | none =>
      -- closures are behind the item, so no entry for it has appeared
      have hself := (b.known_consult_inside p i).trans hknown
      rw [query_of_new hknown hcomputing hself]
      by_cases hi : i < p.items.size
      · rw [if_pos hi, consult_singleton hi hknown, unused, hknown, Option.getD_none]
      · have hsize := Nat.le_of_not_lt hi
        rw [if_neg hi, consult_singleton_of_size_le hsize, consult_inside_of_size_le hsize, unused,
          hknown, Option.getD_none]

/-- A question is answered as was said in advance, and leaves behind what was said in advance. -/
theorem query_eq (h : p.ClosuresBehind) (a : Analyzer) (i : ItemId) {fuel : Nat}
    (hfuel : p.items.size < fuel) : query p fuel i a = some (a.unused p i, a.consult p [i]) :=
  gives_query h a (Nat.lt_of_le_of_lt (Nat.sub_le _ _) hfuel) a (.refl p a)

/-- A verification computes the set and compares it with what is known. -/
theorem verify_eq (a : Analyzer) (p : Program) (i : ItemId) :
    a.verify p i = (a.computed p i, match a.known.get? i with
      | some stored => (a.consult p (a.inside p i)).compare i stored (a.computed p i)
      | none => a.consult p (a.inside p i)) := by
  unfold verify compare
  -- with nothing remembered there is nothing to compare with
  cases a.known.get? i with
  | none => rfl
  | some stored =>
    by_cases hsame : stored = a.computed p i
    · simp only [hsame, if_true]
      rfl
    · simp only [hsame, if_false]
      rfl

/-- So is the comparison of an entry. -/
theorem verifying_eq (h : p.ClosuresBehind) (a : Analyzer) (i : ItemId) {fuel : Nat}
    (hfuel : p.items.size < fuel) : verifying p fuel i a = some (a.verify p i) := by
  -- the questions come to consulting the closures inside, and then the comparison is made
  have hcomputing := gives_computing h (a := a) (i := i)
    (fun c _ => gives_query h a (Nat.lt_of_le_of_lt (Nat.sub_le _ c) hfuel)) a (.refl p a)
  rw [verifying, asking_bind, hcomputing, Option.bind_some, asking_bind, verify_eq,
    ← a.known_consult_inside p i]
  simp only [get, getThe, MonadStateOf.get, StateT.get, pure, Option.bind_some]
  cases (a.consult p (a.inside p i)).known.get? i <;> rfl

end Analyzer

end Monomorph
