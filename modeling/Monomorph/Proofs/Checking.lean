import Mathlib.Data.List.Nodup
import Monomorph.Partition.Check
import Monomorph.Proofs.Lists

/-!
# What the check of the units accepts

The check accepts units exactly if they keep the rules (`Collection.Checked`), whatever the units
are: `Collection.check_eq_ok_iff`. What has been entered after some of the units is the unit of each
of their nodes and buckets (`Homes.Reflects`). One unit is accepted behind others exactly if all of
them together keep the rules about units (`Collection.exists_enterUnit_iff`), so by induction all of
them do if the first part of the check comes to its end.
-/

namespace Monomorph

namespace Homes

variable {h : Homes} {i j : NodeId} {b b' : Bucket} {home : Nat}

/-- A node has the home that was entered last. -/
theorem node?_setNode (hi : i < h.ofNode.size) :
    (h.setNode i home).node? j = if i = j then some home else h.node? j := by
  rw [node?, setNode, Array.getElem?_setIfInBounds]
  split
  · next hij =>
    simp
  · rfl

/-- A bucket has the home that was entered last. -/
theorem bucket?_setBucket :
    (h.setBucket b home).bucket? b' = if b' = b then some home else h.bucket? b' := by
  rw [bucket?, setBucket, List.lookup_cons]
  by_cases hb : b' = b
  · simp [hb]
  · rw [beq_eq_false_iff_ne.2 hb, if_neg hb, bucket?]

/-- The homes once all buckets and nodes of a unit are entered. -/
def setUnit (h : Homes) (u : Plan) (home : Nat) : Homes :=
  u.nodes.foldl (fun h i => h.setNode i home) (u.buckets.foldl (fun h b => h.setBucket b home) h)

/-- Entering some buckets says nothing of nodes. -/
theorem ofNode_foldl_setBucket (bs : List Bucket) :
    (bs.foldl (fun h b => h.setBucket b home) h).ofNode = h.ofNode := by
  induction bs generalizing h with
  | nil => rfl
  | cons b bs ih => exact ih

/-- Entering some nodes says nothing of buckets. -/
theorem ofBucket_foldl_setNode (ns : List NodeId) :
    (ns.foldl (fun h i => h.setNode i home) h).ofBucket = h.ofBucket := by
  induction ns generalizing h with
  | nil => rfl
  | cons i ns ih => exact ih

/-- Entering some buckets gives them the home and leaves the others. -/
theorem bucket?_foldl_setBucket (bs : List Bucket) :
    (bs.foldl (fun h b => h.setBucket b home) h).bucket? b' =
      if b' ∈ bs then some home else h.bucket? b' := by
  induction bs generalizing h with
  | nil => rfl
  | cons b bs ih =>
    rw [List.foldl_cons, ih, bucket?_setBucket]
    by_cases hbs : b' ∈ bs <;> by_cases hb : b' = b <;> simp [hbs, hb]

/-- Entering some nodes gives them the home and leaves the others. -/
theorem node?_foldl_setNode {ns : List NodeId} (hlt : ∀ i ∈ ns, i < h.ofNode.size) :
    (ns.foldl (fun h i => h.setNode i home) h).node? j =
      if j ∈ ns then some home else h.node? j := by
  induction ns generalizing h with
  | nil => rfl
  | cons i ns ih =>
    obtain ⟨hi, hns⟩ := List.forall_mem_cons.1 hlt
    rw [List.foldl_cons, ih (by simpa [setNode] using hns), node?_setNode hi]
    -- the last time that the node is entered counts, and each time it is for the same unit
    by_cases hj : j ∈ ns <;> by_cases hij : i = j <;> simp [hj, hij, eq_comm (a := j)]

/-- The number of nodes does not change. -/
theorem size_foldl_setNode (ns : List NodeId) :
    (ns.foldl (fun h i => h.setNode i home) h).ofNode.size = h.ofNode.size := by
  induction ns generalizing h with
  | nil => rfl
  | cons i ns ih => rw [List.foldl_cons, ih, setNode, Array.size_setIfInBounds]

/-- What the homes are after some numbered units: those of their nodes and of their buckets. -/
structure Reflects (size : Nat) (seen : List (Plan × Nat)) (h : Homes) : Prop where
  size_eq : h.ofNode.size = size
  node : ∀ i home, h.node? i = some home ↔ ∃ u, (u, home) ∈ seen ∧ i ∈ u.nodes
  bucket : ∀ b home, h.bucket? b = some home ↔ ∃ u, (u, home) ∈ seen ∧ b ∈ u.buckets

/-- An empty table reflects that no unit was entered. -/
theorem reflects_empty (size : Nat) : Reflects size [] (empty size) where
  size_eq := Array.size_replicate
  node := fun i home => by
    rw [node?, empty, Array.getElem?_replicate]
    split <;> simp
  bucket := fun b home => by simp [bucket?, empty]

end Homes

namespace Collection

variable (p : Program) (c : Collection)

/-! ## One unit -/

/-- Numbered units that keep the rules about units: none is empty, none has a bucket of another one,
    and no node is in them twice. -/
structure Apart (xs : List (Plan × Nat)) : Prop where
  nonempty : ∀ x ∈ xs, x.1.nodes ≠ []
  buckets : ∀ x ∈ xs, ∀ y ∈ xs, ∀ b ∈ x.1.buckets, b ∈ y.1.buckets → x.2 = y.2
  nodes : (xs.flatMap fun x => x.1.nodes).Nodup

variable {p c} {us : List Plan} {u : Plan} {home : Nat} {h h' : Homes} {x : Plan × Nat}
  {seen xs : List (Plan × Nat)}

/-- Units that are apart are so without the last ones. -/
theorem Apart.left (hall : Apart (seen ++ xs)) : Apart seen where
  nonempty := fun x hx => hall.nonempty x (List.mem_append_left _ hx)
  buckets := fun x hx y hy =>
    hall.buckets x (List.mem_append_left _ hx) y (List.mem_append_left _ hy)
  nodes := by
    have hnodes := hall.nodes
    rw [List.flatMap_append] at hnodes
    exact (List.nodup_append.1 hnodes).1

/-- Units and one behind them keep the rules if they do, and the one does beside them. -/
theorem apart_concat_iff : Apart (seen ++ [(u, home)]) ↔ Apart seen ∧ u.nodes ≠ [] ∧
    (∀ b ∈ u.buckets, ∀ x ∈ seen, b ∈ x.1.buckets → x.2 = home) ∧ u.nodes.Nodup ∧
      ∀ i ∈ u.nodes, ∀ x ∈ seen, i ∉ x.1.nodes := by
  -- The last unit is compared with each one before it.
  constructor
  · intro hall
    have hnodes := hall.nodes
    rw [List.flatMap_append, List.nodup_append'] at hnodes
    obtain ⟨-, hnodup, hdisjoint⟩ := hnodes
    have hlast : (u, home) ∈ seen ++ [(u, home)] := by simp
    refine ⟨hall.left, hall.nonempty _ hlast, fun b hb x hx hbx => ?_, by simpa using hnodup,
      fun i hi x hx hix => ?_⟩
    · exact hall.buckets x (List.mem_append_left _ hx) _ hlast b hbx hb
    · exact hdisjoint (List.mem_flatMap.2 ⟨x, hx, hix⟩) (by simpa using hi)
  · intro ⟨hseen, hnodes, hbuckets, hnodup, hfree⟩
    constructor
    case nonempty =>
      intro x hx
      obtain hx | hx := List.mem_append.1 hx
      · exact hseen.nonempty x hx
      · exact List.mem_singleton.1 hx ▸ hnodes
    case buckets =>
      intro x hx y hy b hbx hby
      -- Two units of the list are both old, both the last one, or one of each.
      obtain hx | hx := List.mem_append.1 hx <;> obtain hy | hy := List.mem_append.1 hy
      · exact hseen.buckets x hx y hy b hbx hby
      · obtain rfl := List.mem_singleton.1 hy
        exact hbuckets b hby x hx hbx
      · obtain rfl := List.mem_singleton.1 hx
        exact (hbuckets b hbx y hy hby).symm
      · rw [List.mem_singleton.1 hx, List.mem_singleton.1 hy]
    case nodes =>
      rw [List.flatMap_append, List.nodup_append']
      refine ⟨hseen.nodes, by simpa using hnodup, fun i hi hi' => ?_⟩
      obtain ⟨x, hx, hix⟩ := List.mem_flatMap.1 hi
      exact hfree i (by simpa using hi') x hx hix

/-- A bucket is entered unless another unit has it. -/
theorem enterBucket_eq_ok_iff {b : Bucket} : enterBucket us u home h b = .ok h' ↔
    (∀ other, h.bucket? b = some other → other = home) ∧ h' = h.setBucket b home := by
  unfold enterBucket
  -- a bucket may be met again, but only in the same unit
  cases hb : h.bucket? b with
  | none => simp [eq_comm]
  | some other =>
    by_cases hother : other = home
    · simp [hother, eq_comm]
    · simp [hother]

/-- A node is entered unless some unit has it. -/
theorem enterNode_eq_ok_iff {i : NodeId} : c.enterNode p us u home h i = .ok h' ↔
    h.node? i = none ∧ h' = h.setNode i home := by
  unfold enterNode
  cases hi : h.node? i <;> simp [eq_comm]

/-- The buckets of a unit are entered unless another unit has one of them. They may repeat. -/
theorem enterBuckets_eq_ok_iff {bs : List Bucket} :
    bs.foldlM (enterBucket us u home) h = .ok h' ↔
      (∀ b ∈ bs, ∀ other, h.bucket? b = some other → other = home) ∧
        h' = bs.foldl (fun h b => h.setBucket b home) h := by
  induction bs generalizing h with
  | nil => simp [pure, Except.pure, eq_comm]
  | cons b bs ih =>
    simp only [List.foldlM_cons, bind_eq_ok_iff, enterBucket_eq_ok_iff, List.foldl_cons]
    -- entering `b` changes what is known of `b` only, and to this unit
    have hrest : (∀ b' ∈ bs, ∀ other, (h.setBucket b home).bucket? b' = some other →
        other = home) ↔ ∀ b' ∈ bs, b' ≠ b → ∀ other, h.bucket? b' = some other → other = home := by
      refine forall₂_congr fun b' _ => ?_
      rw [Homes.bucket?_setBucket]
      by_cases hb : b' = b <;> simp [hb, eq_comm]
    constructor
    · rintro ⟨_, ⟨hb, rfl⟩, hrun⟩
      obtain ⟨hbs, rfl⟩ := ih.1 hrun
      refine ⟨List.forall_mem_cons.2 ⟨hb, fun b' hb' => ?_⟩, rfl⟩
      by_cases heq : b' = b
      · exact heq ▸ hb
      · exact hrest.1 hbs b' hb' heq
    · rintro ⟨hbs, rfl⟩
      obtain ⟨hb, hbs⟩ := List.forall_mem_cons.1 hbs
      exact ⟨_, ⟨hb, rfl⟩, ih.2 ⟨hrest.2 fun b' hb' _ => hbs b' hb', rfl⟩⟩

/-- The nodes of a unit are entered if no unit has one of them, and none is in this one twice. -/
theorem enterNodes_eq_ok_iff {ns : List NodeId} (hlt : ∀ i ∈ ns, i < h.ofNode.size) :
    ns.foldlM (c.enterNode p us u home) h = .ok h' ↔
      (ns.Nodup ∧ ∀ i ∈ ns, h.node? i = none) ∧
        h' = ns.foldl (fun h i => h.setNode i home) h := by
  induction ns generalizing h with
  | nil => simp [pure, Except.pure, eq_comm]
  | cons i ns ih =>
    obtain ⟨hi, hns⟩ := List.forall_mem_cons.1 hlt
    have ih := ih (h := h.setNode i home) (by simpa [Homes.setNode] using hns)
    simp only [List.foldlM_cons, bind_eq_ok_iff, enterNode_eq_ok_iff, List.foldl_cons,
      List.nodup_cons, List.forall_mem_cons]
    -- behind `i` a node is free if it was free before and is not `i`
    have hrest : (∀ j ∈ ns, (h.setNode i home).node? j = none) ↔
        i ∉ ns ∧ ∀ j ∈ ns, h.node? j = none := by
      simp only [Homes.node?_setNode hi]
      constructor
      · intro hfree
        exact ⟨fun hmem => by simpa using hfree i hmem, fun j hj => by grind⟩
      · intro ⟨hmem, hfree⟩ j hj
        rw [if_neg (by grind), hfree j hj]
    rw [hrest] at ih
    constructor
    · rintro ⟨_, ⟨hfree, rfl⟩, hrun⟩
      obtain ⟨⟨hnodup, hmem, hfrees⟩, rfl⟩ := ih.1 hrun
      exact ⟨⟨⟨hmem, hnodup⟩, hfree, hfrees⟩, rfl⟩
    · rintro ⟨⟨⟨hmem, hnodup⟩, hfree, hfrees⟩, rfl⟩
      exact ⟨_, ⟨hfree, rfl⟩, ih.2 ⟨⟨hnodup, hmem, hfrees⟩, rfl⟩⟩

/-- What it takes to enter a unit. -/
theorem enterUnit_eq_ok_iff (hlt : ∀ i ∈ u.nodes, i < h.ofNode.size) :
    c.enterUnit p us h (u, home) = .ok h' ↔
      (u.nodes ≠ [] ∧ (∀ b ∈ u.buckets, ∀ other, h.bucket? b = some other → other = home) ∧
        u.nodes.Nodup ∧ ∀ i ∈ u.nodes, h.node? i = none) ∧ h' = h.setUnit u home := by
  have hempty : u.nodes.isEmpty = true ↔ u.nodes = [] := List.isEmpty_iff
  rw [enterUnit]
  by_cases hnodes : u.nodes = []
  · simp [hnodes]
  · rw [if_neg (mt hempty.1 hnodes)]
    simp only [bind_eq_ok_iff, enterBuckets_eq_ok_iff]
    -- the nodes are looked up after the buckets were entered, which does not matter to them
    have hofNode : (u.buckets.foldl (fun h b => h.setBucket b home) h).ofNode = h.ofNode :=
      Homes.ofNode_foldl_setBucket u.buckets
    have hnode : ∀ i, (u.buckets.foldl (fun h b => h.setBucket b home) h).node? i = h.node? i :=
      fun i => by rw [Homes.node?, hofNode, Homes.node?]
    constructor
    · rintro ⟨_, ⟨hbuckets, rfl⟩, hrun⟩
      obtain ⟨⟨hnodup, hfree⟩, rfl⟩ := (enterNodes_eq_ok_iff (hofNode ▸ hlt)).1 hrun
      exact ⟨⟨hnodes, hbuckets, hnodup, fun i hi => hnode i ▸ hfree i hi⟩, rfl⟩
    · rintro ⟨⟨-, hbuckets, hnodup, hfree⟩, rfl⟩
      exact ⟨_, ⟨hbuckets, rfl⟩, (enterNodes_eq_ok_iff (hofNode ▸ hlt)).2
        ⟨⟨hnodup, fun i hi => (hnode i).trans (hfree i hi)⟩, rfl⟩⟩

/-! ## All units -/

variable (hlt : ∀ x ∈ xs, ∀ i ∈ x.1.nodes, i < c.size)

/-- After a unit is entered, it is known as well as those before. -/
theorem reflects_enterUnit (hr : h.Reflects c.size seen) (hlt : ∀ i ∈ x.1.nodes, i < c.size)
    (hok : c.enterUnit p us h x = .ok h') : h'.Reflects c.size (seen ++ [x]) := by
  obtain ⟨u, home⟩ := x
  rw [← hr.size_eq] at hlt
  obtain ⟨⟨-, hbuckets, -, hfree⟩, rfl⟩ := (enterUnit_eq_ok_iff hlt).1 hok
  have hofNode : (u.buckets.foldl (fun h b => h.setBucket b home) h).ofNode = h.ofNode :=
    Homes.ofNode_foldl_setBucket u.buckets
  have hofBucket : (h.setUnit u home).ofBucket =
      (u.buckets.foldl (fun h b => h.setBucket b home) h).ofBucket :=
    Homes.ofBucket_foldl_setNode u.nodes
  -- what holds of some unit now holds of one of those before, or of this one
  have hsplit : ∀ (P : Plan → Prop) (k : Nat), (∃ v, (v, k) ∈ seen ++ [(u, home)] ∧ P v) ↔
      (∃ v, (v, k) ∈ seen ∧ P v) ∨ home = k ∧ P u := by
    intro P k
    simp only [List.mem_append, List.mem_singleton, Prod.mk.injEq, or_and_right, exists_or]
    exact or_congr_right ⟨fun ⟨_, ⟨rfl, heq⟩, hv⟩ => ⟨heq.symm, hv⟩,
      fun ⟨heq, hv⟩ => ⟨u, ⟨rfl, heq.symm⟩, hv⟩⟩
  constructor
  case size_eq =>
    rw [Homes.setUnit, Homes.size_foldl_setNode, hofNode]
    exact hr.size_eq
  case node =>
    intro i k
    rw [hsplit (fun v => i ∈ v.nodes), ← hr.node, Homes.setUnit,
      Homes.node?_foldl_setNode (hofNode ▸ hlt), Homes.node?, hofNode, ← Homes.node?]
    -- a node of the unit had no home before
    split
    · next hi => simp [hfree i hi, hi]
    · next hi => simp [hi]
  case bucket =>
    intro b k
    rw [hsplit (fun v => b ∈ v.buckets), ← hr.bucket, Homes.bucket?, hofBucket,
      ← Homes.bucket?, Homes.bucket?_foldl_setBucket]
    -- a bucket of the unit had this home before, if any
    split
    · next hb =>
      simp only [Option.some.injEq, hb, and_true]
      exact ⟨.inr, fun hk => hk.elim (fun hk => (hbuckets b hb k hk).symm) id⟩
    · next hb => simp [hb]

/-- One unit is accepted behind others exactly if all of them together keep the rules. -/
theorem exists_enterUnit_iff (hr : h.Reflects c.size seen) (hseen : Apart seen)
    (hlt : ∀ i ∈ x.1.nodes, i < c.size) :
    (∃ h', c.enterUnit p us h x = .ok h') ↔ Apart (seen ++ [x]) := by
  obtain ⟨u, home⟩ := x
  rw [← hr.size_eq] at hlt
  simp only [apart_concat_iff, hseen, true_and, enterUnit_eq_ok_iff hlt, exists_and_left, exists_eq,
    and_true, hr.bucket, Option.eq_none_iff_forall_ne_some, ne_eq, hr.node, not_exists, not_and]
  -- both sides say the same, one by numbers of units and the other by numbered units
  refine and_congr_right fun _ => and_congr ?_ (and_congr_right fun _ => ?_)
  · exact forall₂_congr fun b _ => ⟨fun hb x hx hbx => hb x.2 ⟨x.1, hx, hbx⟩,
      fun hb other ⟨v, hv, hbv⟩ => hb (v, other) hv hbv⟩
  · exact forall₂_congr fun i _ => ⟨fun hi x hx => hi x.2 x.1 hx, fun hi k v hv => hi (v, k) hv⟩

include hlt in
/-- If all units are entered they keep the rules, and they are known then. -/
theorem reflects_enterUnits (hr : h.Reflects c.size seen) (hseen : Apart seen)
    (hok : xs.foldlM (c.enterUnit p us) h = .ok h') :
    h'.Reflects c.size (seen ++ xs) ∧ Apart (seen ++ xs) := by
  induction xs generalizing seen h with
  | nil =>
    obtain rfl := Except.ok.inj hok
    rw [List.append_nil]
    exact ⟨hr, hseen⟩
  | cons x xs ih =>
    -- The first unit is entered, and then the others after it.
    obtain ⟨hx, hxs⟩ := List.forall_mem_cons.1 hlt
    rw [List.foldlM_cons, bind_eq_ok_iff] at hok
    obtain ⟨h₁, hstep, hrun⟩ := hok
    have hrest := ih hxs (reflects_enterUnit hr hx hstep)
      ((exists_enterUnit_iff hr hseen hx).1 ⟨h₁, hstep⟩) hrun
    rwa [List.append_assoc] at hrest

include hlt in
/-- Units that keep the rules are entered. -/
theorem exists_enterUnits (hr : h.Reflects c.size seen) (hall : Apart (seen ++ xs)) :
    ∃ h', xs.foldlM (c.enterUnit p us) h = .ok h' := by
  induction xs generalizing seen h with
  | nil => exact ⟨h, rfl⟩
  | cons x xs ih =>
    obtain ⟨hx, hxs⟩ := List.forall_mem_cons.1 hlt
    -- the unit that is entered next is moved to those that have been
    have hassoc : Apart ((seen ++ [x]) ++ xs) := by rwa [List.append_assoc]
    obtain ⟨h₁, hstep⟩ := (exists_enterUnit_iff hr hall.left hx).2 hassoc.left
    obtain ⟨h', hrun⟩ := ih hxs (reflects_enterUnit hr hx hstep) hassoc
    exact ⟨h', by rw [List.foldlM_cons, bind_eq_ok_iff]; exact ⟨h₁, hstep, hrun⟩⟩

/-! ## The check -/

variable (c us) in
/-- The rules that units have to keep. -/
structure Checked : Prop where
  nonempty : ∀ u ∈ us, u.nodes ≠ []
  /-- A bucket lies in one unit. -/
  buckets : ∀ {j k : Nat} {u v : Plan} {b : Bucket}, us[j]? = some u → us[k]? = some v →
    b ∈ u.buckets → b ∈ v.buckets → j = k
  nodes : (us.flatMap Plan.nodes).Nodup
  /-- What is placed is generated, and it is in the unit of its bucket. -/
  bucket : ∀ u ∈ us, ∀ i ∈ u.nodes, ∃ b ∈ u.buckets, c.bucket? i = some b
  /-- What is generated is placed. -/
  placed : ∀ i ∈ c.graph.ids, (c.bucket? i).isSome = true → ∃ u ∈ us, i ∈ u.nodes

/-- Units with their numbers are told apart by these. -/
theorem apart_zipIdx_iff : Apart us.zipIdx ↔ (∀ u ∈ us, u.nodes ≠ []) ∧
    (∀ {j k : Nat} {u v : Plan} {b : Bucket}, us[j]? = some u → us[k]? = some v →
      b ∈ u.buckets → b ∈ v.buckets → j = k) ∧ (us.flatMap Plan.nodes).Nodup := by
  -- A unit's place in the list is its home, so equal homes mean the same unit.
  have hnodes : (us.zipIdx.flatMap fun x => x.1.nodes) = us.flatMap Plan.nodes := by
    conv => rhs; rw [← List.zipIdx_map_fst 0 us]
    exact (List.flatMap_map _ _ _).symm
  have hmem : ∀ u home, (u, home) ∈ us.zipIdx ↔ us[home]? = some u := fun u home =>
    List.mem_zipIdx_iff_getElem?
  constructor
  · intro ⟨hnonempty, hbuckets, hnodup⟩
    refine ⟨fun u hu => ?_, fun {j k u v b} hu hv hbu hbv => ?_, hnodes ▸ hnodup⟩
    · obtain ⟨home, hhome⟩ := List.mem_iff_getElem?.1 hu
      exact hnonempty (u, home) ((hmem u home).2 hhome)
    · exact hbuckets (u, j) ((hmem u j).2 hu) (v, k) ((hmem v k).2 hv) b hbu hbv
  · intro ⟨hnonempty, hbuckets, hnodup⟩
    refine ⟨fun ⟨u, home⟩ hx => ?_, fun ⟨u, j⟩ hx ⟨v, k⟩ hy b hbu hbv => ?_, hnodes ▸ hnodup⟩
    · exact hnonempty u (List.mem_of_getElem? ((hmem u home).1 hx))
    · exact hbuckets ((hmem u j).1 hx) ((hmem v k).1 hy) hbu hbv

/-- The last parts of the check go by the homes. -/
theorem checkExcluded_eq_ok_iff {i : NodeId} :
    c.checkExcluded p us h i = .ok () ↔ h.node? i = none := by
  unfold checkExcluded
  cases h.node? i <;> simp

/-- The check of a node passes where it is in the unit of its bucket, if it has one. -/
theorem checkPlaced_eq_ok_iff {i : NodeId} : c.checkPlaced p h i = .ok () ↔
    ∀ b, c.bucket? i = some b → ∃ home, h.node? i = some home ∧ h.bucket? b = some home := by
  unfold checkPlaced
  -- a node without a bucket is not looked at
  cases c.bucket? i with
  | none => simp
  | some b =>
    cases h.node? i with
    | none => simp
    | some home => by_cases hb : h.bucket? b = some home <;> simp [hb]

/-- The check accepts units exactly if they keep the rules, so its reports tell of every breach. -/
theorem check_eq_ok_iff (hlt : ∀ u ∈ us, ∀ i ∈ u.nodes, i < c.size) :
    c.check p us = .ok () ↔ c.Checked us := by
  have hlt' : ∀ x ∈ us.zipIdx, ∀ i ∈ x.1.nodes, i < c.size := fun x hx =>
    hlt x.1 (List.fst_mem_of_mem_zipIdx hx)
  have hempty := Homes.reflects_empty c.size
  have hnil : Apart [] := ⟨by simp, by simp, .nil⟩
  have hmem : ∀ u home, (u, home) ∈ us.zipIdx ↔ us[home]? = some u := fun u home =>
    List.mem_zipIdx_iff_getElem?
  unfold check
  simp only [bind_eq_ok_iff, forM_eq_ok_iff, checkExcluded_eq_ok_iff, checkPlaced_eq_ok_iff]
  constructor
  · rintro ⟨h, hrun, ⟨⟩, hexcluded, hplaced⟩
    obtain ⟨hr, hapart⟩ := reflects_enterUnits hlt' hempty hnil hrun
    rw [List.nil_append] at hr hapart
    obtain ⟨hnonempty, hbuckets, hnodes⟩ := apart_zipIdx_iff.1 hapart
    refine ⟨hnonempty, hbuckets, hnodes, fun u hu i hi => ?_, fun i hi hb => ?_⟩
    · have hid : i ∈ c.graph.ids := List.mem_range.2 (hlt u hu i hi)
      obtain ⟨home, hhome⟩ := List.mem_iff_getElem?.1 hu
      have hnode : h.node? i = some home := (hr.node i home).2 ⟨u, (hmem u home).2 hhome, hi⟩
      -- a node without a bucket is not placed, and that of a bucket is in the unit that has it
      cases hb : c.bucket? i with
      | none =>
        have hnone := hexcluded i (List.mem_filter.2 ⟨hid, by simp [hb]⟩)
        exact nomatch hnone.symm.trans hnode
      | some b =>
        obtain ⟨home', hnode', hbucket⟩ := hplaced i hid b hb
        obtain rfl := Option.some.inj (hnode.symm.trans hnode')
        obtain ⟨v, hv, hbv⟩ := (hr.bucket b home).1 hbucket
        obtain rfl := Option.some.inj (hhome.symm.trans ((hmem v home).1 hv))
        exact ⟨b, hbv, rfl⟩
    · obtain ⟨b, hb⟩ := Option.isSome_iff_exists.1 hb
      obtain ⟨home, hnode, -⟩ := hplaced i hi b hb
      obtain ⟨u, hu, hiu⟩ := (hr.node i home).1 hnode
      exact ⟨u, List.mem_of_getElem? ((hmem u home).1 hu), hiu⟩
  · intro ⟨hnonempty, hbuckets, hnodes, hbucket, hplaced⟩
    have hapart := apart_zipIdx_iff.2 ⟨hnonempty, hbuckets, hnodes⟩
    obtain ⟨h, hrun⟩ : ∃ h, us.zipIdx.foldlM (c.enterUnit p us) (Homes.empty c.size) = .ok h :=
      exists_enterUnits hlt' hempty hapart
    have hr := (reflects_enterUnits hlt' hempty hnil hrun).1
    rw [List.nil_append] at hr
    refine ⟨h, hrun, (), fun i hi => ?_, fun i hi b hb => ?_⟩
    · rw [Option.eq_none_iff_forall_ne_some]
      intro home hnode
      obtain ⟨u, hu, hiu⟩ := (hr.node i home).1 hnode
      obtain ⟨b, -, hb⟩ := hbucket u (List.mem_of_getElem? ((hmem u home).1 hu)) i hiu
      have hnone := (List.mem_filter.1 hi).2
      rw [hb] at hnone
      exact nomatch hnone
    · obtain ⟨u, hu, hiu⟩ := hplaced i hi (Option.isSome_iff_exists.2 ⟨b, hb⟩)
      obtain ⟨home, hhome⟩ := List.mem_iff_getElem?.1 hu
      obtain ⟨b', hbu, hb'⟩ := hbucket u hu i hiu
      obtain rfl := Option.some.inj (hb.symm.trans hb')
      exact ⟨home, (hr.node i home).2 ⟨u, (hmem u home).2 hhome, hiu⟩,
        (hr.bucket b home).2 ⟨u, (hmem u home).2 hhome, hbu⟩⟩

end Collection

end Monomorph
