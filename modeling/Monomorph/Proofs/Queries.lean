import Monomorph.Proofs.Graph

/-!
# Answers of a usage graph

What a usage graph answers is said in terms of the edges that it was made from, which may be given
in any order, repeated, and for some of the nodes only (`UseGraph.Reflects`). Following uses and
following them backwards are two readings of one relation, `UseGraph.Leads`; the index of uses gives
the one and the index of users the other, and each search comes to just what its relation reaches
(`UseGraph.reflects_ofUses`).
-/

namespace Monomorph

open Relation

namespace UseGraph

open Positions

variable {α : Type}

/-! ## A graph and the edges it was made from -/

/-- Whether some edge that is given for a node leads to another one. -/
def Leads (n : Nat) (uses : List (List Edge)) (u v : NodeId) : Prop :=
  u < n ∧ ∃ kind, (⟨v, kind⟩ : Edge) ∈ uses[u]?.getD []

/-- What a graph of `n` nodes is to answer if it was made from given edges. -/
structure Reflects (g : UseGraph α) (n : Nat) (uses : List (List Edge)) : Prop where
  sorted : ∀ u, (g.usesOf u).Pairwise Edge.Before
  mem_usesOf : ∀ u e, e ∈ g.usesOf u ↔ u < n ∧ e ∈ uses[u]?.getD []
  users_increasing : ∀ u, Increasing (g.users u)
  mem_users : ∀ u v, v ∈ g.users u ↔ Leads n uses v u
  reachable_increasing : ∀ s, Increasing (g.reachable s)
  mem_reachable : ∀ s v, v ∈ g.reachable s ↔
    ∃ t ∈ s, t < n ∧ ReflTransGen (Leads n uses) t v
  transitiveUsers_increasing : ∀ u, Increasing (g.transitiveUsers u)
  mem_transitiveUsers : ∀ u v, v ∈ g.transitiveUsers u ↔ TransGen (Leads n uses) v u
  /-- A node is its own user exactly if one of its uses leads back to it. -/
  cycle : ∀ u, u ∈ g.transitiveUsers u ↔
    ∃ v, Leads n uses u v ∧ ReflTransGen (Leads n uses) v u
  dual : ∀ u v, v ∈ g.transitiveUsers u ↔ u ∈ g.reachable (g.targets v)

section Made

variable {nodes : List α} {uses : List (List Edge)}

/-- The targets of a node are the ends of its edges. -/
theorem mem_targets_iff {u v : NodeId} :
    v ∈ (ofUses nodes uses).targets u ↔ Leads nodes.length uses u v := by
  rw [targets, List.mem_map, Leads, ← exists_and_left]
  constructor
  · rintro ⟨e, he, rfl⟩
    exact ⟨e.kind, mem_usesOf_ofUses.1 he⟩
  · rintro ⟨kind, he⟩
    exact ⟨_, mem_usesOf_ofUses.2 he, rfl⟩

variable (h : ∀ es ∈ uses, ∀ e ∈ es, e.target < nodes.length)
include h

/-- Edges lead to nodes. -/
theorem Leads.lt_right {u v : NodeId} (huv : Leads nodes.length uses u v) : v < nodes.length := by
  obtain ⟨-, kind, he⟩ := huv
  cases hes : uses[u]? with
  | none =>
    rw [hes] at he
    exact absurd he List.not_mem_nil
  | some es =>
    rw [hes] at he
    exact h es (List.mem_of_getElem? hes) _ he

/-- The users of a node are the nodes with an edge to it. -/
theorem mem_users_iff {u v : NodeId} :
    v ∈ (ofUses nodes uses).users u ↔ Leads nodes.length uses v u := by
  rw [mem_users, mem_targets_iff]
  exact and_iff_right_of_imp fun huv => huv.lt_right h

/-- A node is reachable from some nodes if a path leads to it from one of them. -/
theorem mem_reachable_iff {s : List NodeId} {v : NodeId} :
    v ∈ (ofUses nodes uses).reachable s ↔
      ∃ t ∈ s, t < nodes.length ∧ ReflTransGen (Leads nodes.length uses) t v := by
  have hrel : (fun a b => b ∈ (ofUses nodes uses).targets a) = Leads nodes.length uses := by
    funext a b
    exact propext mem_targets_iff
  rw [mem_reachable fun u v hv => (mem_targets_iff.1 hv).lt_right h, hrel]
  rfl

/-- The transitive users of a node are those with a path of one edge or more to it. -/
theorem mem_transitiveUsers_iff {u v : NodeId} :
    v ∈ (ofUses nodes uses).transitiveUsers u ↔ TransGen (Leads nodes.length uses) v u := by
  have hrel : (fun a b => b ∈ (ofUses nodes uses).users a) =
      Function.swap (Leads nodes.length uses) := by
    funext a b
    exact propext (mem_users_iff h)
  -- what is followed along users is a path of uses, read from its end
  rw [mem_transitiveUsers fun u v hv => ((mem_users_iff h).1 hv).1, hrel, transGen_swap]

/-- Whatever edges a graph is made from, if they lead to its nodes it answers what they say. -/
theorem reflects_ofUses : (ofUses nodes uses).Reflects nodes.length uses where
  sorted := pairwise_usesOf_ofUses nodes uses
  mem_usesOf _ _ := mem_usesOf_ofUses
  users_increasing := increasing_users _
  mem_users _ _ := mem_users_iff h
  reachable_increasing := increasing_reachable _
  mem_reachable _ _ := mem_reachable_iff h
  transitiveUsers_increasing := increasing_transitiveUsers _
  mem_transitiveUsers _ _ := mem_transitiveUsers_iff h
  cycle _ := (mem_transitiveUsers_iff h).trans TransGen.head'_iff
  dual u v := by
    rw [mem_transitiveUsers_iff h, mem_reachable_iff h, TransGen.head'_iff]
    constructor
    · rintro ⟨t, ht, hpath⟩
      exact ⟨t, mem_targets_iff.2 ht, ht.lt_right h, hpath⟩
    · rintro ⟨t, ht, -, hpath⟩
      exact ⟨t, mem_targets_iff.1 ht, hpath⟩

end Made

/-- The edges of a graph of five nodes, out of order and with one edge given twice. The fourth node
    uses itself; nothing is given for the fifth. -/
def tangle : List (List Edge) :=
  [[⟨2, .drop⟩, ⟨1, .call⟩, ⟨1, .call⟩], [⟨2, .static⟩], [], [⟨3, .call⟩]]

/-- The graph of five nodes answers what its edges say. -/
theorem reflects_ofUses_tangle : (∀ es ∈ tangle, ∀ e ∈ es, e.target < 5) ∧
    (ofUses ["a", "b", "c", "d", "e"] tangle).Reflects 5 tangle :=
  have h : ∀ es ∈ tangle, ∀ e ∈ es, e.target < 5 := by decide
  ⟨h, reflects_ofUses h⟩

example : (ofUses ["a", "b", "c", "d", "e"] tangle).usesOf 0 = [⟨1, .call⟩, ⟨2, .drop⟩] := by cbv

example : (ofUses ["a", "b", "c", "d", "e"] tangle).transitiveUsers 3 = [3] := by cbv

end UseGraph

end Monomorph
