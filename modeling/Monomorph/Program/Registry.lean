import Monomorph.Program.Item

/-!
# The registry of traits

Calls of trait methods are resolved often and items are added once, so what an item means for a
trait is entered into a registry when it is added: a method joins the methods of its trait, a block
the blocks that implement the trait, and the method that a block has for a method of the trait takes
the place of one entered before. Later changes to bodies and fields enter nothing
(`Registry.ofItems_modify`).
-/

namespace Monomorph

/-- What is entered about traits. -/
structure Registry where
  /-- The methods of each trait, in the order of declaration. -/
  methods : List (ItemId × List ItemId) := []
  /-- The blocks that implement each trait, in the order of declaration. -/
  impls : List (ItemId × List ItemId) := []
  /-- The methods that blocks have for methods of their traits, the newest first. -/
  implMethods : List ((ItemId × ItemId) × ItemId) := []

namespace Registry

/-- The items entered for another one. -/
def listOf (ls : List (ItemId × List ItemId)) (k : ItemId) : List ItemId := (ls.lookup k).getD []

/-- Enters an item for another one, behind those that are there. -/
def pushTo (k i : ItemId) : List (ItemId × List ItemId) → List (ItemId × List ItemId)
  | [] => [(k, [i])]
  | (j, is) :: ls => if j = k then (j, is ++ [i]) :: ls else (j, is) :: pushTo k i ls

/-- The methods entered for a trait. -/
def methodsOf (r : Registry) (trait : ItemId) : List ItemId := listOf r.methods trait

/-- The blocks entered for a trait. -/
def implsOf (r : Registry) (trait : ItemId) : List ItemId := listOf r.impls trait

/-- The method entered for a block and a method of its trait. -/
def implMethod? (r : Registry) (impl method : ItemId) : Option ItemId :=
  r.implMethods.lookup (impl, method)

/-- Enters the item at a position. -/
def add (r : Registry) (i : ItemId) (it : Item) : Registry :=
  match it.kind, it.generics.parent with
  -- only what a block has for a method is entered under its parent too
  | .traitMethod trait, _ => { r with methods := pushTo trait i r.methods }
  | .impl trait _, _ => { r with impls := pushTo trait i r.impls }
  | .implMethod method, some impl =>
    { r with implMethods := ((impl, method), i) :: r.implMethods }
  | _, _ => r

/-- Enters items that stand one behind the other, the first at position `i`. -/
def addFrom (r : Registry) (i : ItemId) : List Item → Registry
  | [] => r
  | it :: its => (r.add i it).addFrom (i + 1) its

/-- What is entered about a list of items. -/
def ofItems (items : Array Item) : Registry := ({} : Registry).addFrom 0 items.toList

/-- Nothing is listed in an empty registry. -/
@[simp] theorem listOf_nil (j : ItemId) : listOf [] j = [] := rfl

/-- An item's list is the one under its own key. -/
theorem listOf_cons (l : ItemId × List ItemId) (ls : List (ItemId × List ItemId)) (j : ItemId) :
    listOf (l :: ls) j = if l.1 = j then l.2 else listOf ls j := by
  rw [listOf, List.lookup_cons]
  -- a look-up compares the other way round
  by_cases h : l.1 = j
  · simp [h]
  · have hj : (j == l.1) = false := by simp [Ne.symm h]
    simp [h, hj, listOf]

/-- Pushing under one key adds to that key's list and to no other. -/
theorem listOf_pushTo (ls : List (ItemId × List ItemId)) (k i j : ItemId) :
    listOf (pushTo k i ls) j = if k = j then listOf ls j ++ [i] else listOf ls j := by
  induction ls with
  | nil => simp [pushTo, listOf_cons]
  | cons l ls ih =>
    rw [pushTo]
    split
    · next h => simp only [listOf_cons, h]; split <;> rfl
    · next h =>
      simp only [listOf_cons, ih]
      -- the list of `j` is in front or behind, and only one of `j` and `k` can be in front
      by_cases hj : l.1 = j
      · simp [hj, show k ≠ j from fun hk => h (hj.trans hk.symm)]
      · simp [hj]

/-- Items are registered in the order they stand in. -/
theorem addFrom_append (r : Registry) (i : ItemId) (its its' : List Item) :
    r.addFrom i (its ++ its') = (r.addFrom i its).addFrom (i + its.length) its' := by
  induction its generalizing r i with
  | nil => rfl
  | cons it its ih =>
    rw [List.cons_append, addFrom, ih, addFrom, List.length_cons, Nat.add_right_comm, Nat.add_assoc]

/-- A new item is entered behind all others. -/
theorem ofItems_push (items : Array Item) (it : Item) :
    ofItems (items.push it) = (ofItems items).add items.size it := by
  simp [ofItems, addFrom_append, addFrom]

/-- A change to an item that leaves alone what is entered about it changes nothing. -/
theorem addFrom_modify {f : Item → Item} (hf : ∀ r j it, add r j (f it) = add r j it)
    (r : Registry) (i k : ItemId) (its : List Item) :
    r.addFrom i (its.modify k f) = r.addFrom i its := by
  induction its generalizing r i k with
  | nil => simp
  | cons it its ih =>
    cases k with
    -- at the position of the change the item is entered as before, and all others are the same
    | zero => rw [List.modify_zero_cons, addFrom, hf, addFrom]
    | succ k => rw [List.modify_succ_cons, addFrom, ih, addFrom]

/-- A change of an item that registration does not look at leaves the registry as it is. -/
theorem ofItems_modify {f : Item → Item} (hf : ∀ r j it, add r j (f it) = add r j it)
    (items : Array Item) (k : ItemId) : ofItems (items.modify k f) = ofItems items := by
  rw [ofItems, Array.toList_modify, addFrom_modify hf, ofItems]

end Registry

end Monomorph
