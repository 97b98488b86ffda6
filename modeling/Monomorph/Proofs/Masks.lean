import Mathlib.Data.Finset.Sort
import Mathlib.Data.List.Induction
import Monomorph.Proofs.Signs
import Monomorph.Unused.Set

/-!
# Masks stand for finite sets

A mask of 64 bits stands for the finite set of the positions of its bits
(`ParamSet.Represents`): looking up a position, listing, counting, asking for emptiness and writing
all tell of that one set. Each way to change a mask does to it what is done to the set, so the two
go together through any number of changes (`ParamSet.refines`). Positions from 64 on are in no mask,
and changes to them change nothing.
-/

namespace Monomorph

/-! ## Lists of numbers as text -/

namespace Text

/-- What stands behind the first of several numbers. -/
def numbersRest : List Nat → List Char
  | [] => []
  | ns => ',' :: ' ' :: (commas (ns.map toString)).toList

/-- The first number is written in front of the rest. -/
theorem toList_commas_cons (n : Nat) (ns : List Nat) :
    (commas ((n :: ns).map toString)).toList = (toString n).toList ++ numbersRest ns := by
  cases ns with
  | nil => simp [commas, numbersRest]
  | cons m ns => simp [commas, join_cons_cons, numbersRest]

/-- What is written behind a number is no digit. -/
theorem ends_numbersRest (ns : List Nat) : Ends (numbersRest ns) := by
  cases ns with
  | nil => exact fun c hc => absurd hc (Option.not_mem_none c)
  | cons n ns => exact ends_cons (by decide)

/-- A list with a number is written as something. -/
theorem commas_cons_ne_nil (n : Nat) (ns : List Nat) :
    (commas ((n :: ns).map toString)).toList ≠ [] := by
  rw [toList_commas_cons, toList_toString]
  exact List.append_ne_nil_of_left_ne_nil Nat.toDigits_ne_nil _

/-- Lists that go on alike are written alike. -/
theorem commas_eq_of_numbersRest_eq {ns ms : List Nat} (h : numbersRest ns = numbersRest ms) :
    (commas (ns.map toString)).toList = (commas (ms.map toString)).toList := by
  -- both lists are empty or neither is, for only the empty one writes nothing
  cases ns with
  | nil =>
    cases ms with
    | nil => rfl
    | cons m ms => exact absurd h (List.cons_ne_nil _ _).symm
  | cons n ns =>
    cases ms with
    | nil => exact absurd h (List.cons_ne_nil _ _)
    | cons m ms => exact (List.cons.inj (List.cons.inj h).2).2

/-- Numbers with commas in between are read back one by one. -/
theorem commas_toString_inj {ns ms : List Nat}
    (h : (commas (ns.map toString)).toList = (commas (ms.map toString)).toList) : ns = ms := by
  induction ns generalizing ms with
  | nil =>
    cases ms with
    | nil => rfl
    | cons m ms => exact absurd h.symm (commas_cons_ne_nil m ms)
  | cons n ns ih =>
    cases ms with
    | nil => exact absurd h (commas_cons_ne_nil n ns)
    | cons m ms =>
      -- The first number is read up to the comma, and the others behind it.
      rw [toList_commas_cons, toList_commas_cons] at h
      obtain ⟨rfl, hrest⟩ := toString_append_inj (ends_numbersRest ns) (ends_numbersRest ms) h
      rw [ih (commas_eq_of_numbersRest_eq hrest)]

end Text

namespace ParamSet

/-! ## What a mask tells -/

/-- Whether a mask tells of a finite set of positions, whatever it is asked. -/
structure Represents (s : ParamSet) (S : Finset Nat) : Prop where
  contains : ∀ i, s.contains i = true ↔ i ∈ S
  /-- The members are listed in increasing order. -/
  members : s.members = S.sort (· ≤ ·)
  size : s.size = S.card
  isEmpty : s.isEmpty = true ↔ S = ∅

variable {s t : ParamSet} {S T : Finset Nat}

/-- No position is listed twice. -/
theorem nodup_members : s.members.Nodup := List.nodup_range.filter _

/-- Positions are listed in increasing order. -/
theorem pairwise_members : s.members.Pairwise (· ≤ ·) :=
  (List.pairwise_lt_range.imp Nat.le_of_lt).filter _

/-- Bits are counted one by one from the last position on. -/
theorem cpopNatRec_eq_length (mask : BitVec 64) (n : Nat) :
    mask.cpopNatRec n 0 = ((List.range n).filter mask.getLsbD).length := by
  induction n with
  | zero => rfl
  -- the bits below the next one are counted already
  | succ n ih =>
    rw [BitVec.cpopNatRec_succ, BitVec.cpopNatRec_eq, ih, List.range_succ, List.filter_append,
      List.length_append, Nat.zero_add]
    cases h : mask.getLsbD n <;> simp [h]

/-- The size of a set is the number of its members. -/
theorem size_eq_length : s.size = s.members.length := by
  have hbits : s.members = (List.range 64).filter s.mask.getLsbD :=
    List.filter_congr fun i _ => s.contains_eq_getLsbD i
  rw [size, BitVec.toNat_cpop, cpopNatRec_eq_length, hbits]

/-- A set is empty where it is the empty mask. -/
theorem isEmpty_iff : s.isEmpty = true ↔ s = .empty := by
  rw [isEmpty, beq_iff_eq, empty]
  cases s
  simp

/-- Looking up positions settles all else. -/
theorem represents_of_contains (h : ∀ i, s.contains i = true ↔ i ∈ S) : s.Represents S := by
  -- The set is that of the members, listed without repetition and in order.
  have hS : S = s.members.toFinset := by
    ext i
    rw [List.mem_toFinset, mem_members, h]
  constructor
  case contains => exact h
  case members => rw [hS, (List.toFinset_sort _ nodup_members).2 pairwise_members]
  case size => rw [size_eq_length, hS, List.toFinset_card_of_nodup nodup_members]
  case isEmpty =>
    rw [isEmpty_iff, Finset.eq_empty_iff_forall_notMem]
    constructor
    · rintro rfl i hi
      exact absurd ((h i).2 hi) (by simp)
    · intro hnone
      refine ext_contains fun i => ?_
      rw [contains_empty, Bool.eq_false_iff]
      exact fun hi => hnone i ((h i).1 hi)

/-- The masks of two sets are equal exactly if the sets are. -/
theorem Represents.eq_iff (hs : s.Represents S) (ht : t.Represents T) : s = t ↔ S = T := by
  constructor
  · rintro rfl
    ext i
    rw [← hs.contains, ht.contains]
  · rintro rfl
    refine ext_contains fun i => Bool.eq_iff_iff.2 ?_
    rw [hs.contains, ht.contains]

/-- Sets are told apart by how they are written. -/
theorem text_inj (h : s.text = t.text) : s = t := by
  have htext : "\x7b".toList ++ ((Text.commas (s.members.map toString)).toList ++ "\x7d".toList) =
      "\x7b".toList ++ ((Text.commas (t.members.map toString)).toList ++ "\x7d".toList) := by
    simpa [text] using congrArg String.toList h
  -- the members can be read off between the braces
  have hmembers : s.members = t.members :=
    Text.commas_toString_inj (List.append_cancel_right (List.append_cancel_left htext))
  refine ext_contains fun i => Bool.eq_iff_iff.2 ?_
  rw [← mem_members, ← mem_members, hmembers]

/-! ## Changes -/

/-- A change to a set of unused positions. -/
inductive Update where
  /-- All parameters count as used. -/
  | allUsed
  /-- The first parameters, as many as are given, count as unused, and no others. -/
  | allUnused (n : Nat)
  /-- One parameter counts as used. -/
  | markUsed (i : Nat)

/-- What a change does to a mask. -/
def update (s : ParamSet) : Update → ParamSet
  | .allUsed => .empty
  | .allUnused n => .firstN n
  | .markUsed i => s.erase i

/-- The mask after changes that start from the one without members. -/
def updated (us : List Update) : ParamSet := us.foldl update .empty

/-- What a change does to a finite set. No position from 64 on is ever in it. -/
def Update.onPositions (S : Finset Nat) : Update → Finset Nat
  | .allUsed => ∅
  | .allUnused n => Finset.range (min n width)
  | .markUsed i => S.erase i

/-- The finite set after changes that start from the empty one. -/
def Update.positions (us : List Update) : Finset Nat := us.foldl onPositions ∅

/-- A change does the same to a mask and to the set it stands for. -/
theorem Represents.update (h : s.Represents S) (u : Update) :
    (s.update u).Represents (u.onPositions S) := by
  refine represents_of_contains fun i => ?_
  -- each update does to a bit what it does to the position
  cases u with
  | allUsed => simp [ParamSet.update, Update.onPositions]
  | allUnused n => simp [ParamSet.update, Update.onPositions, contains_firstN]
  | markUsed j =>
    rw [ParamSet.update, contains_erase, Update.onPositions, Finset.mem_erase, ← h.contains]
    simp [and_comm]

/-- Updates of a mask represent updates of the set. -/
theorem represents_updated (us : List Update) : (updated us).Represents (Update.positions us) := by
  induction us using List.reverseRecOn with
  | nil => exact represents_of_contains fun i => by simp [updated, Update.positions]
  | append_singleton us u ih =>
    rw [updated, Update.positions, List.foldl_concat, List.foldl_concat]
    exact ih.update u

/-- Through any number of changes a mask stands for the set that is changed in the same way, masks
    are equal exactly if the sets are, and they are written alike exactly if they are equal. -/
theorem refines (us vs : List Update) :
    (updated us).Represents (Update.positions us) ∧
      (updated us = updated vs ↔ Update.positions us = Update.positions vs) ∧
      ((updated us).text = (updated vs).text ↔ updated us = updated vs) :=
  ⟨represents_updated us, (represents_updated us).eq_iff (represents_updated vs), text_inj,
    congrArg text⟩

example : (updated [.allUnused 100, .markUsed 64, .markUsed 0]).size = 63 := by decide

end ParamSet

end Monomorph
