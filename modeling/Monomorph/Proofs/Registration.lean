import Mathlib.Data.List.Induction
import Monomorph.Program.Basic

/-!
# What is found in the registry

Items are entered one by one, each entry goes to one list, and nothing is ever taken out again. So
what is entered for a trait are the items declared for it, in the order of declaration and none of
them twice (`Program.traitMethods_eq`, `Program.impls_eq`), and of the methods that a block has for
the same method of its trait the last one is found (`Program.implMethod?_eq`).
-/

namespace Monomorph

namespace Item

/-- Whether an item is a method of a trait. -/
def isMethodOf (trait : ItemId) (it : Item) : Bool := it.kind == .traitMethod trait

/-- Whether an item is a block that implements a trait. -/
def isImplOf (trait : ItemId) (it : Item) : Bool :=
  match it.kind with
  | .impl tr _ => tr == trait
  | _ => false

/-- Whether an item is a method that a block has for a method of its trait. -/
def isImplMethod (impl method : ItemId) (it : Item) : Bool :=
  it.kind == .implMethod method && it.generics.parent == some impl

/-- The positions of the items that have a property. -/
def places (f : Item → Bool) (items : Array Item) : List ItemId :=
  (List.range items.size).filter fun i => f (items[i]?.getD default)

/-- A new item that has the property adds its place to the end. -/
theorem places_push (f : Item → Bool) (items : Array Item) (it : Item) :
    places f (items.push it) =
      if f it = true then places f items ++ [items.size] else places f items := by
  -- the items that were there keep their positions
  have hold : (List.range items.size).filter (fun i => f ((items.push it)[i]?.getD default)) =
      places f items := by
    refine List.filter_congr fun i hi => ?_
    rw [Array.getElem?_push, if_neg (Nat.ne_of_lt (List.mem_range.1 hi))]
  rw [places, Array.size_push, List.range_succ, List.filter_append, hold]
  by_cases h : f it = true <;> simp [h]

end Item

open Item

namespace Registry

variable (r : Registry) (i : ItemId) (it : Item)

/-! ## One entry -/

/-- A method is listed under its trait. -/
theorem methodsOf_add (trait : ItemId) : (r.add i it).methodsOf trait =
    if it.isMethodOf trait = true then r.methodsOf trait ++ [i] else r.methodsOf trait := by
  rw [add, isMethodOf]
  cases it.kind with
  | traitMethod tr => simp [methodsOf, listOf_pushTo]
  | implMethod method => cases it.generics.parent <;> rfl
  | _ => rfl

/-- A block is listed under its trait. -/
theorem implsOf_add (trait : ItemId) : (r.add i it).implsOf trait =
    if it.isImplOf trait = true then r.implsOf trait ++ [i] else r.implsOf trait := by
  rw [add, isImplOf]
  cases it.kind with
  | impl tr pattern => simp [implsOf, listOf_pushTo]
  | implMethod method => cases it.generics.parent <;> rfl
  | _ => rfl

/-- A method of a block takes the place of the one before it. -/
theorem implMethod?_add (impl method : ItemId) : (r.add i it).implMethod? impl method =
    if it.isImplMethod impl method = true then some i else r.implMethod? impl method := by
  rw [add, isImplMethod]
  cases it.kind with
  | implMethod m =>
    cases it.generics.parent with
    | none => simp
    | some block =>
      rw [implMethod?, List.lookup_cons]
      -- Only the entry of the same block and method is replaced.
      by_cases hkey : (impl, method) = (block, m)
      · obtain ⟨rfl, rfl⟩ := Prod.mk.inj hkey
        simp
      · have hne : ((impl, method) == (block, m)) = false := beq_eq_false_iff_ne.2 hkey
        have hother : ¬ (m = method ∧ block = impl) := fun h => hkey (by rw [h.1, h.2])
        simp [hne, hother, implMethod?]
  | _ => rfl

/-! ## All entries -/

/-- What is so of an empty registry and is kept by every entry is so of the registry of any items. -/
theorem ofItems_ind {P : Array Item → Registry → Prop} (start : P #[] {})
    (push : ∀ items r it, P items r → P (items.push it) (r.add items.size it))
    (items : Array Item) : P items (ofItems items) := by
  -- the items are registered from the first one on
  obtain ⟨its⟩ := items
  induction its using List.reverseRecOn with
  | nil => exact start
  | append_singleton its it ih =>
    have h := push _ _ it ih
    rwa [← ofItems_push, List.push_toArray] at h

variable (items : Array Item)

/-- The methods registered for a trait are those among the items. -/
theorem methodsOf_ofItems (trait : ItemId) :
    (ofItems items).methodsOf trait = places (isMethodOf trait) items := by
  refine ofItems_ind (P := fun items r => r.methodsOf trait = places (isMethodOf trait) items)
    rfl (fun items r it ih => ?_) items
  rw [methodsOf_add, places_push, ih]

/-- The blocks registered for a trait are those among the items. -/
theorem implsOf_ofItems (trait : ItemId) :
    (ofItems items).implsOf trait = places (isImplOf trait) items := by
  refine ofItems_ind (P := fun items r => r.implsOf trait = places (isImplOf trait) items)
    rfl (fun items r it ih => ?_) items
  rw [implsOf_add, places_push, ih]

/-- The method registered for a block is the last one among the items. -/
theorem implMethod?_ofItems (impl method : ItemId) :
    (ofItems items).implMethod? impl method =
      (places (isImplMethod impl method) items).getLast? := by
  refine ofItems_ind
    (P := fun items r => r.implMethod? impl method =
      (places (isImplMethod impl method) items).getLast?) rfl (fun items r it ih => ?_) items
  rw [implMethod?_add, places_push, ih]
  -- a new provider is the last one of all
  split
  · rw [List.getLast?_concat]
  · rfl

end Registry

namespace Program

variable {p : Program} {trait impl method i : ItemId}

/-- The methods of a trait are the items declared as such, in the order of declaration. -/
theorem traitMethods_eq (h : (p.item trait).kind = .trait) :
    p.traitMethods trait = p.itemsWhere (isMethodOf trait) := by
  rw [traitMethods, h, p.registered]
  exact Registry.methodsOf_ofItems p.items trait

/-- The blocks of a trait are the items declared as such, in the order of declaration. -/
theorem impls_eq : p.impls trait = p.itemsWhere (isImplOf trait) := by
  rw [impls, p.registered]
  exact Registry.implsOf_ofItems p.items trait

/-- A block has the method declared last for a method of its trait. -/
theorem implMethod?_eq :
    p.implMethod? impl method = (p.itemsWhere (isImplMethod impl method)).getLast? := by
  rw [implMethod?, p.registered]
  exact Registry.implMethod?_ofItems p.items impl method

/-- A position past the end counts as a function. -/
theorem lt_size_of_kind_ne (h : (p.item i).kind ≠ .fn) : i < p.items.size := by
  refine Decidable.byContradiction fun hi => h ?_
  rw [p.item_eq_default hi]
  rfl

/-- Items with a property are listed in increasing order. -/
theorem increasing_itemsWhere (f : Item → Bool) : (p.itemsWhere f).Pairwise (· < ·) :=
  List.pairwise_lt_range.filter _

/-- The methods of a trait are the items that say so. -/
theorem mem_traitMethods : i ∈ p.traitMethods trait ↔
    (p.item trait).kind = .trait ∧ (p.item i).kind = .traitMethod trait := by
  by_cases htrait : (p.item trait).kind = .trait
  · rw [traitMethods_eq htrait, mem_itemsWhere, isMethodOf, beq_iff_eq, and_iff_right htrait,
      and_iff_right_iff_imp]
    intro hkind
    exact lt_size_of_kind_ne (by simp [hkind])
  · -- what is no trait has no methods
    have hnone : p.traitMethods trait = [] := by
      unfold traitMethods
      split
      · next hkind => exact absurd hkind htrait
      · rfl
    simp [hnone, htrait]

/-- The methods of a trait come in increasing order. -/
theorem increasing_traitMethods : (p.traitMethods trait).Pairwise (· < ·) := by
  unfold traitMethods
  split
  · -- the methods are those of the items in their order
    next htrait =>
    rw [p.registered, Registry.methodsOf_ofItems]
    exact List.pairwise_lt_range.filter _
  · exact .nil

/-- The test for a block is whether the item is one of the trait. -/
theorem isImplOf_iff {it : Item} :
    it.isImplOf trait = true ↔ ∃ pattern, it.kind = .impl trait pattern := by
  rw [isImplOf]
  cases it.kind <;> simp

/-- The blocks of a trait are the items that say so. -/
theorem mem_impls :
    i ∈ p.impls trait ↔ ∃ pattern, (p.item i).kind = .impl trait pattern := by
  rw [impls_eq, mem_itemsWhere, isImplOf_iff, and_iff_right_iff_imp]
  rintro ⟨pattern, hkind⟩
  exact lt_size_of_kind_ne (by simp [hkind])

/-- The blocks of a trait come in increasing order. -/
theorem increasing_impls : (p.impls trait).Pairwise (· < ·) := by
  rw [impls_eq]
  exact increasing_itemsWhere _

end Program

end Monomorph
