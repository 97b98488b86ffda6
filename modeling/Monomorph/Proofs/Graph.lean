import Mathlib.Data.List.Nodup
import Mathlib.Logic.Relation
import Monomorph.Graph.Usage

/-!
# What a usage graph says

The uses of a node are strictly increasing, by target and then by kind. The users of a node come in
order although nothing sorts them: sources are gone through in increasing order, so what has been
pushed never falls, and what is left without equal neighbours increases (`UseGraph.mem_users`,
`UseGraph.increasing_users`).

A search meets every node once. What it comes to is exactly what can be reached
(`UseGraph.mem_reachable`, `UseGraph.mem_transitiveUsers`), whatever the order in which a queue is
worked off.
-/

namespace Monomorph

open Relation

/-! ## Equal neighbours -/

section Repeats

variable {α : Type} [DecidableEq α]

/-- Equal neighbours are left out once, so no element is lost. -/
theorem mem_dropRepeats {a : α} {as : List α} : a ∈ dropRepeats as ↔ a ∈ as := by
  fun_induction dropRepeats as with
  | case1 => rfl
  | case2 => rfl
  | case3 b rest ih => simp [ih]
  | case4 b c rest hne ih => simp [ih]

/-- A list in order is in strict order once equal neighbours are left out. -/
theorem pairwise_dropRepeats {R S : α → α → Prop} (hstrict : ∀ a b, R a b → a ≠ b → S a b)
    (htrans : ∀ a b c, S a b → R b c → S a c) {as : List α} (h : as.Pairwise R) :
    (dropRepeats as).Pairwise S := by
  fun_induction dropRepeats as with
  | case1 => exact .nil
  | case2 a => exact List.pairwise_singleton _ a
  | case3 b rest ih => exact ih h.of_cons
  | case4 a b rest hne ih =>
    -- the next element is larger, and those behind it do not fall
    refine List.pairwise_cons.2 ⟨fun x hx => ?_, ih h.of_cons⟩
    obtain ⟨ha, hrest⟩ := List.pairwise_cons.1 h
    have hab : S a b := hstrict a b (ha b List.mem_cons_self) hne
    obtain rfl | hx := List.mem_cons.1 (mem_dropRepeats.1 hx)
    · exact hab
    · exact htrans a b x hab ((List.pairwise_cons.1 hrest).1 x hx)

/-- A list of positions that never falls increases once equal neighbours are left out. -/
theorem increasing_dropRepeats {xs : List Nat} (h : xs.Pairwise (· ≤ ·)) :
    Positions.Increasing (dropRepeats xs) :=
  pairwise_dropRepeats (fun _ _ => Nat.lt_of_le_of_ne) (fun _ _ _ => Nat.lt_of_lt_of_le) h

end Repeats

/-! ## Uses in order -/

namespace Edge

/-- The order of uses: by target first and by kind second. -/
def Before (e f : Edge) : Prop :=
  e.target < f.target ∨ e.target = f.target ∧ e.kind.rank < f.kind.rank

/-- Edges are ordered by target and then by kind. -/
theorem le_iff {e f : Edge} :
    e.le f = true ↔ e.target < f.target ∨ e.target = f.target ∧ e.kind.rank ≤ f.kind.rank := by
  simp [le]

/-- Of any two edges one comes first. -/
theorem le_total (e f : Edge) : (e.le f || f.le e) = true := by
  rw [Bool.or_eq_true, le_iff, le_iff]
  grind

/-- The order of edges is transitive. -/
theorem le_trans {e f g : Edge} (hef : e.le f = true) (hfg : f.le g = true) : e.le g = true := by
  rw [le_iff] at *
  grind

/-- Edges at one place in the order are the same edge. -/
theorem before_of_le {e f : Edge} (h : e.le f = true) (hne : e ≠ f) : e.Before f := by
  obtain ⟨target, kind⟩ := e
  obtain ⟨target', kind'⟩ := f
  obtain hlt | ⟨htarget, hkind⟩ := le_iff.1 h
  · exact .inl hlt
  · -- at one target, kinds of one rank would be one kind and the edges equal
    refine .inr ⟨htarget, Nat.lt_of_le_of_ne hkind fun hrank => hne ?_⟩
    exact congrArg₂ Edge.mk htarget (UseKind.rank_inj hrank)

/-- Uses are kept in strict order, so none of them twice. -/
theorem pairwise_normalize (es : List Edge) : (normalize es).Pairwise Before := by
  -- equal edges are neighbours once they are sorted, and one of each is left
  have hsorted : (es.mergeSort le).Pairwise fun e f => e.le f = true := by
    apply List.pairwise_mergeSort
    · exact fun _ _ _ => le_trans
    · exact le_total
  refine pairwise_dropRepeats (fun _ _ => before_of_le) (fun e f g hef hfg => ?_) hsorted
  rw [le_iff] at hfg
  unfold Before at *
  grind

/-- Sorting and leaving out repetitions loses no edge. -/
theorem mem_normalize {es : List Edge} {e : Edge} : e ∈ normalize es ↔ e ∈ es := by
  rw [normalize, mem_dropRepeats, List.mem_mergeSort]

end Edge

/-! ## Sources in order -/

/-- The sources of the edges to a node, one for each edge, where the nodes from `u` on have the
    given edges. -/
def sourcesFrom (v : NodeId) : NodeId → List (List Edge) → List NodeId
  | _, [] => []
  | u, es :: rest =>
    (es.filter fun e => e.target == v).map (fun _ => u) ++ sourcesFrom v (u + 1) rest

/-- One node is pushed for each of its edges, and other lists are left as they are. -/
theorem getElem?_pushUser (usedBy : Array (Array NodeId)) (u v : NodeId) (es : List Edge) :
    (pushUser usedBy u es)[v]?.map Array.toList = usedBy[v]?.map fun us =>
      us.toList ++ (es.filter fun e => e.target == v).map fun _ => u := by
  induction es generalizing usedBy with
  | nil => simp [pushUser]
  | cons e es ih =>
    rw [pushUser, List.foldl_cons, ← pushUser, ih, Array.getElem?_modify]
    -- an edge to the node adds one more entry, and any other edge none
    by_cases hv : e.target = v
    · cases usedBy[v]? <;> simp [hv]
    · simp [hv]

/-- After all nodes each list has the sources of its node behind what it had before. -/
theorem getElem?_pushUsers (u v : NodeId) (uses : List (List Edge))
    (usedBy : Array (Array NodeId)) :
    (pushUsers u uses usedBy)[v]?.map Array.toList =
      usedBy[v]?.map fun us => us.toList ++ sourcesFrom v u uses := by
  induction uses generalizing u usedBy with
  | nil => simp [pushUsers, sourcesFrom]
  | cons es rest ih =>
    have hpush := getElem?_pushUser usedBy u v es
    rw [pushUsers, ih, sourcesFrom]
    cases hold : usedBy[v]? <;> cases hnew : (pushUser usedBy u es)[v]? <;> simp_all

/-- A node is among the sources where it has an edge to the target. -/
theorem mem_sourcesFrom {v w u : NodeId} {uses : List (List Edge)} :
    w ∈ sourcesFrom v u uses ↔
      ∃ i, w = u + i ∧ v ∈ (uses[i]?.getD []).map Edge.target := by
  induction uses generalizing u with
  | nil => simp [sourcesFrom]
  | cons es rest ih =>
    have hfirst : w ∈ (es.filter fun e => e.target == v).map (fun _ => u) ↔
        w = u ∧ v ∈ es.map Edge.target := by
      simp only [List.mem_map, List.mem_filter, beq_iff_eq]
      grind
    rw [sourcesFrom, List.mem_append, hfirst, ih]
    -- the first list is that of `u` itself, the others are those of the nodes behind it
    constructor
    · rintro (⟨rfl, hv⟩ | ⟨i, rfl, hv⟩)
      · exact ⟨0, rfl, hv⟩
      · exact ⟨i + 1, by rw [Nat.add_assoc, Nat.add_comm 1], hv⟩
    · rintro ⟨i, rfl, hv⟩
      cases i with
      | zero => exact .inl ⟨rfl, hv⟩
      | succ i => exact .inr ⟨i, by rw [Nat.add_assoc, Nat.add_comm 1], hv⟩

/-- Sources are met in increasing order. -/
theorem pairwise_sourcesFrom (v u : NodeId) (uses : List (List Edge)) :
    (sourcesFrom v u uses).Pairwise (· ≤ ·) := by
  induction uses generalizing u with
  | nil => exact .nil
  | cons es rest ih =>
    -- The sources in one node's edges are that node, and all others come behind it.
    refine List.pairwise_append.2 ⟨?_, ih (u + 1), ?_⟩
    · rw [List.pairwise_map]
      exact List.pairwise_of_forall fun _ _ => Nat.le_refl u
    · intro x hx y hy
      obtain ⟨-, -, rfl⟩ := List.mem_map.1 hx
      obtain ⟨i, rfl, -⟩ := mem_sourcesFrom.1 hy
      exact Nat.le_trans (Nat.le_succ u) (Nat.le_add_right _ i)

namespace UseGraph

variable {α : Type}

/-- The uses of a node in a graph made from uses are those given for it, put in order. -/
theorem usesOf_ofUses (nodes : List α) (uses : List (List Edge)) (u : NodeId) :
    (ofUses nodes uses).usesOf u =
      if u < nodes.length then Edge.normalize (uses[u]?.getD []) else [] := by
  -- nothing was given for a number that is no node
  unfold usesOf ofUses
  rw [List.getElem?_mapIdx]
  split
  · next h =>
    rw [List.getElem?_eq_getElem h]
    rfl
  · next h =>
    have hnone : nodes[u]? = none := List.getElem?_eq_none (Nat.le_of_not_lt h)
    rw [hnone]
    rfl

/-- The uses of a node in a graph made from uses. -/
theorem mem_usesOf_ofUses {nodes : List α} {uses : List (List Edge)} {u : NodeId} {e : Edge} :
    e ∈ (ofUses nodes uses).usesOf u ↔ u < nodes.length ∧ e ∈ uses[u]?.getD [] := by
  rw [usesOf_ofUses]
  split
  · next h => simp [h, Edge.mem_normalize]
  · next h => simp [h]

/-- A graph keeps the uses of every node in strict order, whatever it was made from. -/
theorem pairwise_usesOf_ofUses (nodes : List α) (uses : List (List Edge)) (u : NodeId) :
    ((ofUses nodes uses).usesOf u).Pairwise Edge.Before := by
  rw [usesOf_ofUses]
  split
  · exact Edge.pairwise_normalize _
  · exact .nil

section Users

variable (g : UseGraph α)

/-- The users of a node are what the pushes have come to. -/
theorem users_eq (v : NodeId) :
    g.users v = if v < g.size then dropRepeats (sourcesFrom v 0 g.uses) else [] := by
  have hpushed := getElem?_pushUsers 0 v g.uses (Array.replicate g.nodes.length #[])
  -- Before the pushes every node has an empty list, and there is one for each node.
  rw [Array.getElem?_replicate] at hpushed
  rw [users, g.usedBy_eq, usersOfAll, Array.getElem?_map, size]
  split
  · next hv =>
    rw [if_pos hv, Option.map_some] at hpushed
    obtain ⟨us, hus, hlist⟩ := Option.map_eq_some_iff.1 hpushed
    rw [hus, Option.map_some, Option.getD_some, hlist, List.nil_append]
  · next hv =>
    rw [if_neg hv, Option.map_none, Option.map_eq_none_iff] at hpushed
    rw [hpushed]
    rfl

/-- The two indices say the same: one node uses another exactly if it is among its users. -/
theorem mem_users {u v : NodeId} : u ∈ g.users v ↔ v < g.size ∧ v ∈ g.targets u := by
  rw [users_eq]
  split
  · next hv => simp [hv, mem_dropRepeats, mem_sourcesFrom, targets, usesOf]
  · next hv => simp [hv]

/-- The users of a node come in increasing order. -/
theorem increasing_users (v : NodeId) : Positions.Increasing (g.users v) := by
  rw [users_eq]
  split
  · exact increasing_dropRepeats (pairwise_sourcesFrom v 0 g.uses)
  · exact .nil

end Users

/-! ## Searches -/

section Search

variable {next : NodeId → List NodeId} {seen : Array Bool} {vs queue : List NodeId} {v : NodeId}

/-- The nodes met are those of the list that had no mark. -/
theorem mem_meet : v ∈ (meet seen vs).1 ↔ v ∈ vs ∧ seen[v]? = some false := by
  -- A node that is met gets its mark at once, so it is met only the first time.
  induction vs generalizing seen with
  | nil => simp [meet]
  | cons w vs ih =>
    rw [meet]
    split
    · next hw =>
      simp only [List.mem_cons, ih]
      by_cases hv : v = w
      · simp [hv, hw]
      · simp [hv, Ne.symm hv]
    · next hw =>
      rw [ih, List.mem_cons]
      by_cases hv : v = w
      · simp [hv, hw]
      · simp [hv]

/-- No node is met twice. -/
theorem nodup_meet (seen : Array Bool) (vs : List NodeId) : (meet seen vs).1.Nodup := by
  induction vs generalizing seen with
  | nil => exact .nil
  | cons w vs ih =>
    rw [meet]
    split
    · -- what is met later had no mark, and `w` has one by then
      refine List.nodup_cons.2 ⟨fun hw => ?_, ih _⟩
      have hmark := (mem_meet.1 hw).2
      rw [Array.getElem?_setIfInBounds, if_pos rfl] at hmark
      split at hmark
      · exact Bool.noConfusion (Option.some.inj hmark)
      · exact absurd hmark.symm (Option.some_ne_none false)
    · exact ih seen

/-- The nodes without a mark are then those that had none and have not been met. -/
theorem getElem?_meet :
    (meet seen vs).2[v]? = some false ↔ seen[v]? = some false ∧ v ∉ vs := by
  -- Marks are only set, and exactly at the nodes of the list that have a place.
  induction vs generalizing seen with
  | nil => simp [meet]
  | cons w vs ih =>
    rw [meet]
    split
    · next hw =>
      simp only [ih, List.mem_cons, not_or]
      by_cases hv : v = w
      · obtain ⟨hlt, -⟩ := Array.getElem?_eq_some_iff.1 hw
        simp [hv, hlt]
      · simp [hv, Ne.symm hv]
    · next hw =>
      rw [ih, List.mem_cons, not_or]
      by_cases hv : v = w
      · simp [hv, hw]
      · simp [hv]

/-- First in, first out: the nodes taken from a queue are those in it and then those put behind. -/
theorem visit_eq (next : NodeId → List NodeId) (seen : Array Bool) (queue : List NodeId) :
    visit next seen queue = queue ++ follow next seen queue := by
  fun_induction visit next seen queue with
  | case1 => rw [follow]; rfl
  | case2 seen v queue found ih => rw [follow, ih, List.cons_append, List.append_assoc]

/-- What is put behind a queue had no mark and comes after a node of the queue. -/
theorem transGen_of_mem_follow (h : v ∈ follow next seen queue) :
    seen[v]? = some false ∧ ∃ t ∈ queue, TransGen (fun a b => b ∈ next a) t v := by
  fun_induction follow next seen queue with
  | case1 => exact absurd h List.not_mem_nil
  | case2 seen u queue found ih =>
    -- What is found was found next to `u`, or later from what stands in the queue by then.
    obtain h | h := List.mem_append.1 h
    · obtain ⟨hnext, hmark⟩ := mem_meet.1 h
      exact ⟨hmark, u, List.mem_cons_self, .single hnext⟩
    · obtain ⟨hmark, t, ht, hpath⟩ := ih h
      refine ⟨(getElem?_meet.1 hmark).1, ?_⟩
      obtain ht | ht := List.mem_append.1 ht
      · exact ⟨t, List.mem_cons_of_mem u ht, hpath⟩
      · -- the search came to `t` from `u`
        exact ⟨u, List.mem_cons_self, .head (mem_meet.1 ht).1 hpath⟩

/-- Whatever follows a node of the queue, or one put behind it, is put behind it unless it had a
    mark. -/
theorem follow_closed (next : NodeId → List NodeId) (seen : Array Bool) (queue : List NodeId) :
    ∀ u ∈ queue ++ follow next seen queue, ∀ v ∈ next u, seen[v]? = some false →
      v ∈ follow next seen queue := by
  fun_induction follow next seen queue with
  | case1 => exact fun u hu => absurd hu List.not_mem_nil
  | case2 seen w queue found ih =>
    intro u hu v hv hmark
    by_cases hmet : v ∈ found.1
    · exact List.mem_append_left _ hmet
    · have hw : v ∉ next w := fun hw => hmet (mem_meet.2 ⟨hw, hmark⟩)
      refine List.mem_append_right _ (ih u ?_ v hv (getElem?_meet.2 ⟨hmark, hw⟩))
      -- the node that `v` follows is not the one just taken, so it is still to come
      obtain rfl | hu := List.mem_cons.1 hu
      · exact absurd hv hw
      · rwa [List.append_assoc]

/-- No node is put behind a queue twice. -/
theorem nodup_follow (next : NodeId → List NodeId) (seen : Array Bool) (queue : List NodeId) :
    (follow next seen queue).Nodup := by
  fun_induction follow next seen queue with
  | case1 => exact .nil
  | case2 seen u queue found ih =>
    refine List.nodup_append.2 ⟨nodup_meet _ _, ih, fun x hx y hy hxy => ?_⟩
    -- what is met now has its mark when the rest of the queue is followed
    have hmark := getElem?_meet.1 (transGen_of_mem_follow (hxy ▸ hy)).1
    exact hmark.2 (mem_meet.1 hx).1

/-- Every node that comes after the queue is put behind it, where only nodes of the queue have
    marks. -/
theorem mem_follow_of_transGen {t : NodeId} (ht : t ∈ queue)
    (hmarks : ∀ a, ∀ b ∈ next a, seen[b]? = some false ∨ b ∈ queue)
    (h : TransGen (fun a b => b ∈ next a) t v) : v ∈ queue ++ follow next seen queue := by
  -- The search is closed: whatever is next to a node found or queued is found or queued.
  have hstep : ∀ a ∈ queue ++ follow next seen queue, ∀ b ∈ next a,
      b ∈ queue ++ follow next seen queue := by
    intro a ha b hb
    obtain hmark | hmem := hmarks a b hb
    · exact List.mem_append_right _ (follow_closed next seen queue a ha b hb hmark)
    · exact List.mem_append_left _ hmem
  induction h with
  | single hv => exact hstep t (List.mem_append_left _ ht) _ hv
  | tail _ hv ih => exact hstep _ ih _ hv

end Search

/-! ## Reachability -/

section Reachable

variable (g : UseGraph α)

/-- Before the search no node has a mark. -/
theorem getElem?_unseen {v : NodeId} : g.unseen[v]? = some false ↔ v < g.size := by
  simp [unseen, Array.getElem?_replicate]

variable {g}

/-- A node is reachable exactly if there is a path to it from one of the nodes given. -/
theorem mem_reachable (htargets : ∀ u, ∀ v ∈ g.targets u, v < g.size) {s : List NodeId}
    {v : NodeId} : v ∈ g.reachable s ↔
      ∃ t ∈ s, t < g.size ∧ ReflTransGen (fun a b => b ∈ g.targets a) t v := by
  -- The search begins with the nodes asked for, as far as there are such nodes.
  have hstart : ∀ t, t ∈ (meet g.unseen s).1 ↔ t ∈ s ∧ t < g.size := fun t => by
    rw [mem_meet, getElem?_unseen]
  rw [reachable, Positions.mem_sort, visit_eq]
  constructor
  · intro h
    obtain h | h := List.mem_append.1 h
    · obtain ⟨hs, hv⟩ := (hstart v).1 h
      exact ⟨v, hs, hv, .refl⟩
    · obtain ⟨-, t, ht, hpath⟩ := transGen_of_mem_follow h
      obtain ⟨hs, ht⟩ := (hstart t).1 ht
      exact ⟨t, hs, ht, hpath.to_reflTransGen⟩
  · rintro ⟨t, hs, ht, hpath⟩
    have htmem := (hstart t).2 ⟨hs, ht⟩
    obtain rfl | hpath := reflTransGen_iff_eq_or_transGen.1 hpath
    · exact List.mem_append_left _ htmem
    · -- all nodes with marks are in the queue that the search begins with
      refine mem_follow_of_transGen htmem (fun a b hb => ?_) hpath
      have hlt := htargets a b hb
      by_cases hbs : b ∈ s
      · exact .inr ((hstart b).2 ⟨hbs, hlt⟩)
      · exact .inl (getElem?_meet.2 ⟨g.getElem?_unseen.2 hlt, hbs⟩)

/-- What is reachable comes in increasing order. -/
theorem increasing_reachable (g : UseGraph α) (s : List NodeId) :
    Positions.Increasing (g.reachable s) := by
  refine Positions.increasing_sort ?_
  rw [visit_eq]
  refine List.nodup_append.2 ⟨nodup_meet _ _, nodup_follow _ _ _, fun x hx y hy hxy => ?_⟩
  -- what is put behind the queue has no mark, and what is in it has one
  have hmark := getElem?_meet.1 (transGen_of_mem_follow (hxy ▸ hy)).1
  exact hmark.2 (mem_meet.1 hx).1

/-- A node is a user of another one, by itself or through others, exactly if there is a way to it
    along users. -/
theorem mem_transitiveUsers (husers : ∀ u, ∀ v ∈ g.users u, v < g.size) {u v : NodeId} :
    v ∈ g.transitiveUsers u ↔ TransGen (fun a b => b ∈ g.users a) u v := by
  rw [transitiveUsers, Positions.mem_sort]
  constructor
  · intro h
    obtain ⟨-, t, ht, hpath⟩ := transGen_of_mem_follow h
    rwa [List.mem_singleton.1 ht] at hpath
  · intro hpath
    have hclosed := follow_closed g.users g.unseen [u]
    -- nothing has a mark at first, the node itself included
    induction hpath with
    | single hv =>
      exact hclosed u (List.mem_append_left _ (List.mem_singleton_self u)) _ hv
        (g.getElem?_unseen.2 (husers _ _ hv))
    | tail _ hv ih =>
      exact hclosed _ (List.mem_append_right _ ih) _ hv (g.getElem?_unseen.2 (husers _ _ hv))

/-- All users come in increasing order. -/
theorem increasing_transitiveUsers (g : UseGraph α) (u : NodeId) :
    Positions.Increasing (g.transitiveUsers u) :=
  Positions.increasing_sort (nodup_follow _ _ _)

end Reachable

end UseGraph

end Monomorph
