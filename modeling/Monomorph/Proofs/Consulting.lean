import Monomorph.Proofs.Sessions
import Monomorph.Proofs.TableBytes
import Monomorph.Unused.Query

/-!
# What is asked along with a question

When the analyzer is asked for some sets, it asks itself for those of the closures inside the items,
as far as they are not known (`Analyzer.Consults`). What is remembered in the end is told by which
items are asked for, in whatever order this happens: asking in several goes leaves what asking for
everything at once leaves (`Analyzer.consult_consult`).
-/

namespace Monomorph

namespace Analyzer

variable {a b : Analyzer} {p : Program} {W V : ItemId → Prop} {ws vs : List ItemId} {i k : ItemId}

/-! ## The items whose sets are computed -/

/-- The closures whose sets are asked for when the set of an item is computed. -/
def inside (a : Analyzer) (p : Program) (i : ItemId) : List ItemId :=
  a.asked i (p.item i) (p.items.toList.drop (i + 1))

/-- Which items the sets are computed of when some are asked for: those of which nothing is known,
    and from there on the closures inside them of which nothing is known. -/
inductive Consults (a : Analyzer) (p : Program) (W : ItemId → Prop) : ItemId → Prop
  | wanted {k : ItemId} (hk : W k) (hnew : a.known.get? k = none) : Consults a p W k
  | inside {i k : ItemId} (hi : Consults a p W i) (hk : k ∈ a.inside p i)
    (hnew : a.known.get? k = none) : Consults a p W k

/-- Which items are taken for closures inside an item does not depend on their sets. -/
theorem isSome_children : (children i (p.items.toList.drop (i + 1))
    ((p.items.toList.drop (i + 1)).map fun _ => .empty) k).isSome = true ↔
      i < k ∧ (p.item k).isClosureIn i = true := by
  -- The place of `k` among the items behind `i` is counted from `i + 1`.
  unfold children
  by_cases hlt : i < k
  · have hpos : i + 1 + (k - (i + 1)) = k := Nat.add_sub_of_le hlt
    simp only [hlt, if_true, true_and, List.getElem?_map, List.getElem?_drop, hpos,
      Array.getElem?_toList, Program.item]
    cases p.items[k]? with
    | none => simp [Item.isClosureIn, show (default : Item).generics.parent = none from rfl]
    | some it => cases hclosure : it.isClosureIn i <;> simp [hclosure]
  · simp [hlt]

/-- They are the closures that the body of the item names. -/
theorem mem_inside_iff : k ∈ a.inside p i ↔
    (a.enabled && !(p.item i).generics.isEmpty) = true ∧ p.Asks i k := by
  -- An item without a body, or one that is not analysed, asks for nothing.
  unfold inside asked
  cases hbody : (p.item i).body with
  | none =>
    refine iff_of_false List.not_mem_nil fun ⟨_, hasks⟩ => ?_
    obtain ⟨b, hb, -⟩ := hasks.named
    exact Option.some_ne_none b (hb.symm.trans hbody)
  | some b =>
    by_cases hon : (a.enabled && !(p.item i).generics.isEmpty) = true
    · simp only [hon, if_true, true_and, List.mem_filter, List.mem_map, isSome_children]
      constructor
      · rintro ⟨⟨site, hsite, rfl⟩, hlt, hclosure⟩
        exact ⟨hlt, hclosure, b, hbody, site, hsite, rfl⟩
      · rintro ⟨hlt, hclosure, b', hb', site, hsite, rfl⟩
        obtain rfl := Option.some.inj (hbody.symm.trans hb')
        exact ⟨⟨site, hsite, rfl⟩, hlt, hclosure⟩
    · simp [hon]

/-- An item asks only for items behind it. -/
theorem lt_of_mem_inside (h : k ∈ a.inside p i) : i < k := (mem_inside_iff.1 h).2.behind

namespace Consults

/-- Only what is not known is consulted. -/
theorem known_eq_none (h : a.Consults p W k) : a.known.get? k = none := by
  cases h with
  | wanted _ hnew => exact hnew
  | inside _ _ hnew => exact hnew

/-- What is computed for some items is computed wherever these are. -/
theorem trans (h : a.Consults p W k)
    (hW : ∀ j, W j → a.known.get? j = none → a.Consults p V j) : a.Consults p V k := by
  induction h with
  | wanted hk hnew => exact hW _ hk hnew
  | inside _ hk hnew ih => exact .inside ih hk hnew

/-- More is consulted where more is wanted. -/
theorem mono (h : a.Consults p W k) (hW : ∀ j, W j → V j) : a.Consults p V k :=
  h.trans fun j hj hnew => .wanted (hW j hj) hnew

/-- Closures are behind what they are inside of. -/
theorem le (h : a.Consults p W k) (hW : ∀ j, W j → i ≤ j) : i ≤ k := by
  induction h with
  | wanted hk _ => exact hW _ hk
  | inside _ hk _ ih => exact Nat.le_trans ih (Nat.le_of_lt (lt_of_mem_inside hk))

/-- What is consulted depends only on what is wanted. -/
theorem congr (h : ∀ j, W j ↔ V j) : a.Consults p W k ↔ a.Consults p V k :=
  ⟨fun hk => hk.mono fun j => (h j).1, fun hk => hk.mono fun j => (h j).2⟩

/-- In place of an item of which nothing is known the closures inside it may be asked for. -/
theorem unfold_iff (hi : W i) (hnew : a.known.get? i = none) : a.Consults p W k ↔
    k = i ∨ a.Consults p (fun j => W j ∧ j ≠ i ∨ j ∈ a.inside p i) k := by
  constructor
  · -- A question for `i` is answered by `i` itself, and everything asked for in it becomes wanted.
    intro h
    induction h with
    | @wanted j hj hnewj =>
      by_cases hji : j = i
      · exact .inl hji
      · exact .inr (.wanted (.inl ⟨hj, hji⟩) hnewj)
    | inside _ hj hnewj ih =>
      rcases ih with rfl | hlater
      · exact .inr (.wanted (.inr hj) hnewj)
      · exact .inr (.inside hlater hj hnewj)
  · have hself : a.Consults p W i := .wanted hi hnew
    rintro (rfl | h)
    · exact hself
    · exact h.trans fun j hj hnew => hj.elim (fun hj => .wanted hj.1 hnew)
        fun hj => .inside hself hj hnew

/-- An item of which something is known need not be asked for. -/
theorem skip_iff (hknown : W i → a.known.get? i ≠ none) :
    a.Consults p W k ↔ a.Consults p (fun j => W j ∧ j ≠ i) k := by
  refine ⟨fun h => h.trans fun j hj hnew => .wanted ⟨hj, ?_⟩ hnew, fun h => h.mono fun j hj => hj.1⟩
  rintro rfl
  exact hknown hj hnew

end Consults

/-- Going through the items from one position on finds those whose sets are computed. -/
theorem mem_consulted_from (n : ItemId) : ∀ (rest : List Item), rest = p.items.toList.drop n →
    ∀ ws, k ∈ a.consulted n rest ws ↔
      k < p.items.size ∧ a.Consults p (fun j => j ∈ ws ∧ n ≤ j) k := by
  -- The pass goes over the items from `n` on; what is wanted before `n` has been dealt with.
  intro rest
  induction rest generalizing n with
  | nil =>
    intro hrest ws
    refine iff_of_false List.not_mem_nil fun ⟨hlt, hk⟩ => ?_
    have hsize : p.items.size ≤ n := by
      rw [← Array.length_toList]
      exact List.drop_eq_nil_iff.1 hrest.symm
    exact Nat.not_lt.2 (Nat.le_trans hsize (hk.le fun j hj => hj.2)) hlt
  | cons it rest ih =>
    intro hrest ws
    have hget : p.items.toList[n]? = some it := by
      rw [← Nat.add_zero n, ← List.getElem?_drop, ← hrest]
      rfl
    have hlt : n < p.items.size := by
      rw [← Array.length_toList]
      exact (List.getElem?_eq_some_iff.1 hget).1
    have hitem : p.item n = it := by
      rw [Array.getElem?_toList] at hget
      rw [Program.item, hget]
      rfl
    have htail : rest = p.items.toList.drop (n + 1) := by
      rw [← List.tail_drop, ← hrest, List.tail_cons]
    have hinside : a.asked n it rest = a.inside p n := by rw [inside, hitem, htail]
    unfold consulted
    split
    · -- The item is consulted, and what it asks for lies behind it and is still to come.
      next hn =>
      have hwanted : ∀ j, (j ∈ ws ∧ n ≤ j) ∧ j ≠ n ∨ j ∈ a.inside p n ↔
          j ∈ ws ++ a.inside p n ∧ n + 1 ≤ j := by
        intro j
        have hbehind : j ∈ a.inside p n → n + 1 ≤ j := lt_of_mem_inside
        rw [List.mem_append]
        grind
      have hunfold := Consults.unfold_iff (p := p) (k := k) (W := fun j => j ∈ ws ∧ n ≤ j) (i := n)
        ⟨hn.1, Nat.le_refl n⟩ hn.2
      rw [Consults.congr hwanted] at hunfold
      rw [List.mem_cons, ih (n + 1) htail, hinside, hunfold]
      constructor
      · rintro (rfl | hk)
        · exact ⟨hlt, .inl rfl⟩
        · exact ⟨hk.1, .inr hk.2⟩
      · rintro ⟨hk, hself | hlater⟩
        · exact .inl hself
        · exact .inr ⟨hk, hlater⟩
    · -- The item is known or not wanted, so it adds nothing.
      next hn =>
      have hwanted : ∀ j, (j ∈ ws ∧ n ≤ j) ∧ j ≠ n ↔ j ∈ ws ∧ n + 1 ≤ j := by
        intro j
        grind
      have hskip := Consults.skip_iff (p := p) (k := k) (W := fun j => j ∈ ws ∧ n ≤ j) (i := n)
        fun hj hnew => hn ⟨hj.1, hnew⟩
      rw [ih (n + 1) htail, hskip, Consults.congr hwanted]

/-- The sets that are computed when some are asked for. -/
theorem mem_consulted_iff : k ∈ a.consulted 0 p.items.toList ws ↔
    k < p.items.size ∧ a.Consults p (· ∈ ws) k := by
  rw [mem_consulted_from 0 p.items.toList rfl]
  simp only [Nat.zero_le, and_true]

/-! ## What is remembered -/

open Classical in
/-- What is known after some sets have been asked for. -/
theorem get?_known_consult (a : Analyzer) (p : Program) (ws : List ItemId) (k : ItemId) :
    (a.consult p ws).known.get? k =
      if k < p.items.size ∧ a.Consults p (· ∈ ws) k then some (a.unused p k)
      else a.known.get? k := by
  rw [consult, UnusedTable.get?_foldl_insert, answer_sets]
  simp only [mem_consulted_iff]

/-- An analyzer is told by what it knows of each item. -/
theorem eq_of_get? (henabled : a.enabled = b.enabled) (hconflicts : a.conflicts = b.conflicts)
    (hknown : ∀ k, a.known.get? k = b.known.get? k) : a = b := by
  cases a
  cases b
  cases henabled
  cases hconflicts
  cases UnusedTable.ext_get? hknown
  rfl

/-- What is remembered does not depend on the order in which the sets are asked for, and a set that
    would be computed along with others need not be asked for. -/
theorem consult_congr (h : ∀ k, a.Consults p (· ∈ ws) k ↔ a.Consults p (· ∈ vs) k) :
    a.consult p ws = a.consult p vs :=
  eq_of_get? rfl rfl fun k => by
    rw [get?_known_consult, get?_known_consult]
    classical exact if_congr (and_congr_right fun _ => h k) rfl rfl

/-- Tables after questions depend only on which items were asked for. -/
theorem consult_congr_mem (h : ∀ k, k ∈ ws ↔ k ∈ vs) : a.consult p ws = a.consult p vs :=
  consult_congr fun _ => Consults.congr h

/-- Asking for nothing leaves everything as it is. -/
theorem consult_nil (a : Analyzer) (p : Program) : a.consult p [] = a := by
  refine eq_of_get? rfl rfl fun k => ?_
  rw [get?_known_consult, if_neg]
  rintro ⟨-, hk⟩
  induction hk with
  | wanted hk _ => exact List.not_mem_nil hk
  | inside _ _ _ ih => exact ih

/-- So does asking for a set that is known. -/
theorem consult_singleton_of_known {s : ParamSet} (h : a.known.get? i = some s) :
    a.consult p [i] = a := by
  rw [← consult_nil a p, consult_nil a p]
  refine eq_of_get? rfl rfl fun k => ?_
  rw [get?_known_consult, if_neg]
  rintro ⟨-, hk⟩
  -- The only item wanted is known, so there is nothing to begin with.
  induction hk with
  | wanted hk hnew =>
    obtain rfl := List.mem_singleton.1 hk
    exact Option.some_ne_none s (h.symm.trans hnew)
  | inside _ _ _ ih => exact ih

/-- What is new after some sets have been asked for was new before, and is not one of those. -/
theorem known_consult_eq_none_iff : (a.consult p ws).known.get? k = none ↔
    a.known.get? k = none ∧ ¬ (k < p.items.size ∧ a.Consults p (· ∈ ws) k) := by
  rw [get?_known_consult]
  split
  · next h => simp [h]
  · next h => simp [h]

/-- Asking in two goes computes in the second what is left of asking for everything at once. -/
theorem consults_append_iff (hk : k < p.items.size) : a.Consults p (· ∈ ws ++ vs) k ↔
    a.Consults p (· ∈ ws) k ∨ (a.consult p ws).Consults p (· ∈ vs) k := by
  constructor
  · intro h
    -- Whatever the first questions have not reached is still not known when the others are asked.
    induction h with
    | @wanted j hj hnew =>
      by_cases hdone : a.Consults p (· ∈ ws) j
      · exact .inl hdone
      · refine .inr (.wanted ?_ (known_consult_eq_none_iff.2 ⟨hnew, fun h => hdone h.2⟩))
        exact (List.mem_append.1 hj).resolve_left fun hmem => hdone (.wanted hmem hnew)
    | @inside i j _ hj hnew ih =>
      by_cases hdone : a.Consults p (· ∈ ws) j
      · exact .inl hdone
      · have hlater := (ih (Nat.lt_trans (lt_of_mem_inside hj) hk)).resolve_left fun hi =>
          hdone (.inside hi hj hnew)
        exact .inr (.inside hlater hj (known_consult_eq_none_iff.2 ⟨hnew, fun h => hdone h.2⟩))
  · rintro (h | h)
    · exact h.mono fun j hj => List.mem_append_left _ hj
    · induction h with
      | wanted hj hnew =>
        exact .wanted (List.mem_append_right _ hj) (known_consult_eq_none_iff.1 hnew).1
      | @inside i j _ hj hnew ih =>
        exact .inside (ih (Nat.lt_trans (lt_of_mem_inside hj) hk)) hj
          (known_consult_eq_none_iff.1 hnew).1

/-- Asking in two goes leaves what asking for everything at once leaves. -/
theorem consult_consult (a : Analyzer) (p : Program) (ws vs : List ItemId) :
    (a.consult p ws).consult p vs = a.consult p (ws ++ vs) := by
  refine eq_of_get? rfl rfl fun k => ?_
  rw [get?_known_consult, get?_known_consult, get?_known_consult,
    (a.extends_consult p ws).unused_eq]
  -- Either way of asking keeps the same sets, so it matters only which items are reached.
  by_cases hk : k < p.items.size
  · have happend : a.Consults p (· ∈ ws ++ vs) k ↔ _ := consults_append_iff hk
    by_cases hlater : (a.consult p ws).Consults p (· ∈ vs) k
    · rw [if_pos ⟨hk, hlater⟩, if_pos ⟨hk, happend.2 (.inr hlater)⟩]
    · rw [if_neg fun h => hlater h.2]
      classical exact if_congr (and_congr_right fun _ => (happend.trans (or_iff_left hlater)).symm) rfl rfl
  · rw [if_neg fun h => hk h.1, if_neg fun h => hk h.1, if_neg fun h => hk h.1]

/-- Asking for an item that is not known comes to asking for the closures inside it and then
    remembering its set. -/
theorem consult_singleton (hi : i < p.items.size) (hnew : a.known.get? i = none) :
    a.consult p [i] = (a.consult p (a.inside p i)).remember i (a.unused p i) := by
  refine eq_of_get? rfl rfl fun k => ?_
  rw [remember, UnusedTable.get?_insert, get?_known_consult, get?_known_consult]
  have hwanted : ∀ j, j ∈ [i] ∧ j ≠ i ∨ j ∈ a.inside p i ↔ j ∈ a.inside p i := by simp
  have hunfold := Consults.unfold_iff (p := p) (k := k) (W := (· ∈ [i])) List.mem_cons_self hnew
  rw [Consults.congr hwanted] at hunfold
  -- The item's own set is remembered last, and everything inside has been consulted by then.
  by_cases hk : k = i
  · subst hk
    rw [if_pos ⟨hi, hunfold.2 (.inl rfl)⟩, if_pos rfl]
  · rw [if_neg hk]
    classical exact if_congr (and_congr_right fun _ => hunfold.trans (or_iff_right hk)) rfl rfl

/-- The closures inside an item are computed without the item. -/
theorem known_consult_inside (a : Analyzer) (p : Program) (i : ItemId) :
    (a.consult p (a.inside p i)).known.get? i = a.known.get? i := by
  rw [get?_known_consult, if_neg]
  rintro ⟨-, h⟩
  exact Nat.lt_irrefl i (h.le fun j hj => lt_of_mem_inside hj)

end Analyzer

end Monomorph
