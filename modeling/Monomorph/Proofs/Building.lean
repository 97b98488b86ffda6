import Mathlib.Tactic.ByContra
import Monomorph.Program.Declare
import Monomorph.Unused.Analysis

/-!
# What declarations keep

A program is built one declaration at a time, and what holds of the items that are there is kept by
each further declaration. A closure is put into an item that is there already, so it stands behind
it (`Program.closuresBehind_build`): no change to an item changes what sort of item it is or what it
is inside of (`Item.Becomes`).
-/

namespace Monomorph

/-! ## What changes leave alone -/

/-- The last fields count. -/
theorem ItemKind.withFields_withFields (k : ItemKind) (ts us : List Ty) :
    (k.withFields ts).withFields us = k.withFields us := by
  cases k <;> rfl

/-- Only a type can be told from what it is without its fields. -/
theorem ItemKind.withFields_eq_iff {k k' : ItemKind} (h : ∀ ts, k' ≠ .adt ts) (ts : List Ty) :
    k.withFields ts = k' ↔ k = k' := by
  cases k with
  | adt us => exact ⟨fun he => absurd he.symm (h ts), fun he => absurd he.symm (h us)⟩
  | _ => rfl

/-- Whether an item is another one after changes to it: of the same sort up to fields, inside the
    same item, and with parameters added behind at most. -/
structure Item.Becomes (it it' : Item) : Prop where
  kind : it'.kind.withFields [] = it.kind.withFields []
  parent : it'.generics.parent = it.generics.parent
  inherited : it'.generics.inherited = it.generics.inherited
  params : it.generics.params <+: it'.generics.params

namespace Item.Becomes

variable {it it' it'' : Item}

/-- An item becomes itself. -/
theorem refl (it : Item) : it.Becomes it := ⟨rfl, rfl, rfl, List.prefix_rfl⟩

/-- What an item becomes twice it becomes. -/
theorem trans (h : it.Becomes it') (h' : it'.Becomes it'') : it.Becomes it'' where
  kind := h'.kind.trans h.kind
  parent := h'.parent.trans h.parent
  inherited := h'.inherited.trans h.inherited
  params := h.params.trans h'.params

/-- An item may get a body. -/
theorem withBody (it : Item) (b : Body) : it.Becomes (it.withBody b) :=
  ⟨rfl, rfl, rfl, List.prefix_rfl⟩

/-- An item may get fields. -/
theorem withFields (it : Item) (ts : List Ty) : it.Becomes (it.withFields ts) :=
  ⟨it.kind.withFields_withFields ts [], rfl, rfl, List.prefix_rfl⟩

/-- A closure stays inside of its item. -/
theorem isClosureIn (h : it.Becomes it') (i : ItemId) :
    it'.isClosureIn i = it.isClosureIn i := by
  have hclosure : ∀ k : ItemKind, k.withFields [] = .closure ↔ k = .closure := fun _ =>
    ItemKind.withFields_eq_iff (by simp) []
  rw [Bool.eq_iff_iff]
  simp only [Item.isClosureIn, Bool.and_eq_true, beq_iff_eq]
  rw [← hclosure it'.kind, h.kind, hclosure, h.parent]

end Item.Becomes

namespace Program

variable {p : Program}

/-- An edit keeps what a draft was declared as. -/
theorem becomes_edit (dr : Draft) (e : Edit) : dr.item.Becomes (p.edit dr e).item := by
  cases e with
  | param param => exact ⟨rfl, rfl, rfl, List.prefix_append _ _⟩
  | body b => exact .withBody dr.item b
  | fields ts => exact .withFields dr.item ts
  | _ => exact ⟨rfl, rfl, rfl, List.prefix_rfl⟩

/-- Edits keep what a draft was declared as. -/
theorem becomes_edits (dr : Draft) (es : List Edit) :
    dr.item.Becomes (es.foldl p.edit dr).item := by
  induction es generalizing dr with
  | nil => exact .refl dr.item
  | cons e es ih => exact (becomes_edit dr e).trans (ih (p.edit dr e))

/-- A change of one item leaves the others and makes this one what it may become. -/
theorem becomes_modifyItem {f : Item → Item}
    {hf : ∀ (r : Registry) j it, r.add j (f it) = r.add j it}
    (hbecomes : ∀ it : Item, it.Becomes (f it)) (j i : ItemId) :
    (p.item i).Becomes ((p.modifyItem j f hf).item i) := by
  rw [item_modifyItem]
  split
  · exact hbecomes (p.item i)
  · exact .refl (p.item i)

end Program

/-! ## Closures -/

/-- Whether the item that a closure is declared inside of is there. -/
def Declaration.FitsIn (p : Program) : Declaration → Prop
  | .item (.closure parent _) _ => parent < p.items.size
  | _ => True

namespace Program

/-- Whether every closure is declared after the item that it is inside of. -/
def ClosuresBehind (p : Program) : Prop :=
  ∀ i c, (p.item c).isClosureIn i = true → i < c

/-- Whether declarations put closures only into items that are there. -/
def Admits : Program → List Declaration → Prop
  | _, [] => True
  | p, d :: ds => d.FitsIn p ∧ (p.declare d).Admits ds

variable {p : Program} {d : Declaration}

/-- A closure inside of an item is an item of the program. -/
theorem lt_size_of_isClosureIn {i c : ItemId} (h : (p.item c).isClosureIn i = true) :
    c < p.items.size := by
  by_contra hc
  -- there is no closure past the last item
  rw [p.item_eq_default hc] at h
  exact Bool.false_ne_true h

/-- An item that is declared as a closure is inside the item that is given for it. -/
theorem exists_closure_of_draft {subject : Subject} {i : ItemId}
    (h : (p.draft subject).item.isClosureIn i = true) : ∃ name, subject = .closure i name := by
  cases subject with
  | closure parent name =>
    rw [Item.isClosureIn, Bool.and_eq_true, beq_iff_eq, beq_iff_eq] at h
    exact ⟨name, by rw [Option.some.inj h.2]⟩
  | _ =>
    exact absurd h (by
      simp [draft, Draft.ofName, Draft.inside, Draft.addParam, Item.isClosureIn])

/-- No declaration puts a closure in front of the item around it. -/
theorem ClosuresBehind.declare (h : p.ClosuresBehind) (hd : d.FitsIn p) :
    (p.declare d).ClosuresBehind := by
  intro i c hclosure
  cases d with
  | item subject edits =>
    let added := p.finish (edits.foldl p.edit (p.draft subject))
    have hitem : (p.declare (.item subject edits)).item c =
        if c = p.items.size then added else p.item c := p.item_addItem added c
    rw [hitem] at hclosure
    split at hclosure
    · next hc =>
      -- the new item is behind all others
      have hdraft := ((p.becomes_edits (p.draft subject) edits).isClosureIn i).symm.trans hclosure
      obtain ⟨name, rfl⟩ := exists_closure_of_draft hdraft
      exact hc ▸ hd
    · exact h i c hclosure
  | body j b =>
    rw [declare, (becomes_modifyItem (fun it => .withBody it b) j c).isClosureIn] at hclosure
    exact h i c hclosure
  | fields j ts =>
    rw [declare, (becomes_modifyItem (fun it => .withFields it ts) j c).isClosureIn] at hclosure
    exact h i c hclosure
  | _ => exact h i c hclosure

/-- Declarations that can be carried out keep closures behind. -/
theorem ClosuresBehind.declareAll {ds : List Declaration} (h : p.ClosuresBehind)
    (hds : p.Admits ds) : (ds.foldl Program.declare p).ClosuresBehind := by
  induction ds generalizing p with
  | nil => exact h
  | cons d ds ih => exact ih (h.declare hds.1) hds.2

/-- What is built from declarations has closures behind their items. -/
theorem closuresBehind_build {localName : String} {ds : List Declaration}
    (hds : (start localName).Admits ds) : (build localName ds).ClosuresBehind := by
  refine ClosuresBehind.declareAll (fun i c hclosure => ?_) hds
  exact absurd (lt_size_of_isClosureIn hclosure) (Nat.not_lt_zero c)

end Program

end Monomorph
