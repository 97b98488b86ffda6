import Monomorph.Program.Resolve
import Monomorph.Proofs.Lists
import Monomorph.Proofs.Matching
import Monomorph.Proofs.Registration

/-!
# Which method a call means

A block implements a trait for a type if its pattern mentions all parameters of the block and
becomes the type under some arguments, of which there is only one list (`Program.Implements`). The
first such block in the order of declaration is selected, and only that one is asked for the
method (`Program.Means`): a block that lacks the method hides the blocks behind it, while a block
with a parameter that its pattern does not mention hides nothing. Resolution finds exactly this
(`Program.resolve_eq_iff`).
-/

namespace Monomorph

namespace Program

variable (p : Program)

/-! ## Blocks and their methods -/

/-- Whether a block implements a trait for a type with these arguments: its pattern mentions every
    parameter and becomes the type. -/
def Implements (trait impl : ItemId) (t : Ty) (args : Args) : Prop :=
  ∃ pattern, (p.item impl).kind = .impl trait pattern ∧
    args.length = (p.item impl).generics.count ∧
    (∀ i < args.length, ∃ k, (k, i) ∈ pattern.mentions) ∧ pattern.subst args = .ok t

/-- Whether a block is the first that implements a trait for a type, and with which arguments. -/
structure Selects (trait impl : ItemId) (t : Ty) (args : Args) : Prop where
  implements : p.Implements trait impl t args
  unique : ∀ args', p.Implements trait impl t args' → args' = args
  first : ∀ earlier < impl, ∀ args', ¬ p.Implements trait earlier t args'

/-- Whether a method is the one that a block has for a method of its trait. If it has several, the
    last one counts. -/
structure Provides (impl method target : ItemId) : Prop where
  kind : (p.item target).kind = .implMethod method
  parent : (p.item target).generics.parent = some impl
  last : ∀ i, (p.item i).kind = .implMethod method → (p.item i).generics.parent = some impl →
    i ≤ target

/-- What a method of a trait means for an implementing type and the method's own arguments. -/
inductive Means (trait method : ItemId) (t : Ty) (own : Args) : Resolution → Prop
  | provided {impl target : ItemId} {args : Args} : p.Selects trait impl t args →
    p.Provides impl method target → Means trait method t own (.item target (args ++ own))
  | inherited {impl : ItemId} {args : Args} : p.Selects trait impl t args →
    (∀ target, ¬ p.Provides impl method target) → (p.item method).body.isSome = true →
    Means trait method t own (.item method (.ty t :: own))
  | missing {impl : ItemId} {args : Args} : p.Selects trait impl t args →
    (∀ target, ¬ p.Provides impl method target) → (p.item method).body = none →
    Means trait method t own .unresolved
  | unimplemented : (∀ impl args, ¬ p.Implements trait impl t args) →
    Means trait method t own .unresolved

variable {p} {trait impl method : ItemId} {t : Ty} {args own : Args}

/-! ## Looking things up -/

/-- A block has a pattern for a trait if it is declared as an impl of that trait. -/
theorem implPattern?_eq_some_iff {pattern : Ty} :
    p.implPattern? trait impl = some pattern ↔ (p.item impl).kind = .impl trait pattern := by
  unfold implPattern?
  split
  · next tr pat hkind =>
    rw [hkind]
    split <;> simp_all
  · next hkind => exact ⟨nofun, fun h => absurd h (hkind trait pattern)⟩

/-- The method that is looked up in a block is the last one that the block has for it. -/
theorem implMethod?_eq_some_iff {target : ItemId} :
    p.implMethod? impl method = some target ↔ p.Provides impl method target := by
  rw [implMethod?_eq, getLast?_eq_some_iff_of_increasing (increasing_itemsWhere _)]
  simp only [mem_itemsWhere, Item.isImplMethod, Bool.and_eq_true, beq_iff_eq]
  constructor
  · rintro ⟨⟨-, hkind, hparent⟩, hlast⟩
    -- a method is an item of the program, for a position past the end is none
    refine ⟨hkind, hparent, fun i hi hp => hlast i ⟨?_, hi, hp⟩⟩
    exact lt_size_of_kind_ne (by simp [hi])
  · rintro ⟨hkind, hparent, hlast⟩
    exact ⟨⟨lt_size_of_kind_ne (by simp [hkind]), hkind, hparent⟩,
      fun i hi => hlast i hi.2.1 hi.2.2⟩

/-- No method is found in a block that has none for it. -/
theorem implMethod?_eq_none_iff :
    p.implMethod? impl method = none ↔ ∀ target, ¬ p.Provides impl method target := by
  simp only [Option.eq_none_iff_forall_ne_some, ne_eq, implMethod?_eq_some_iff]

section Patterns

variable (hpatterns : ∀ i tr pattern, (p.item i).kind = .impl tr pattern → pattern.IsPattern)
include hpatterns

/-- Matching gives the arguments with which a block implements the trait. -/
theorem implArgs?_eq_some_iff :
    p.implArgs? trait t impl = some args ↔ p.Implements trait impl t args := by
  simp only [implArgs?, Option.bind_eq_bind, Option.bind_eq_some_iff, implPattern?_eq_some_iff]
  refine exists_congr fun pattern => and_congr_right fun hkind => ?_
  rw [(hpatterns impl trait pattern hkind).matchArgs_eq_some_iff]
  refine and_congr_right fun hlength => ?_
  rw [hlength]

/-- Matching fails where no arguments make the pattern the type. -/
theorem implArgs?_eq_none_iff :
    p.implArgs? trait t impl = none ↔ ∀ args, ¬ p.Implements trait impl t args := by
  simp only [Option.eq_none_iff_forall_ne_some, ne_eq, implArgs?_eq_some_iff hpatterns]

omit hpatterns in
/-- A block that implements a trait is among the blocks of the trait. -/
theorem Implements.mem_impls (h : p.Implements trait impl t args) : impl ∈ p.impls trait := by
  obtain ⟨pattern, hkind, -⟩ := h
  exact Program.mem_impls.2 ⟨pattern, hkind⟩

/-- The block that is selected is the first that implements the trait. -/
theorem selectImpl?_eq_some_iff :
    p.selectImpl? trait t = some (impl, args) ↔ p.Selects trait impl t args := by
  rw [selectImpl?, findSome?_eq_some_iff_of_increasing increasing_impls]
  simp only [Option.map_eq_some_iff, Option.map_eq_none_iff, Prod.mk.injEq,
    implArgs?_eq_some_iff hpatterns, implArgs?_eq_none_iff hpatterns]
  constructor
  · rintro ⟨_, -, ⟨_, himpl, rfl, rfl⟩, hfirst⟩
    refine ⟨himpl, fun args' himpl' => ?_, fun earlier hlt args' himpl' => ?_⟩
    · -- both lists are what matching the pattern gives
      rw [← implArgs?_eq_some_iff hpatterns] at himpl himpl'
      exact Option.some.inj (himpl'.symm.trans himpl)
    · exact hfirst earlier himpl'.mem_impls hlt args' himpl'
  · intro h
    exact ⟨impl, h.implements.mem_impls, ⟨args, h.implements, rfl, rfl⟩,
      fun earlier _ hlt => h.first earlier hlt⟩

/-- No block is selected where none implements the trait. -/
theorem selectImpl?_eq_none_iff :
    p.selectImpl? trait t = none ↔ ∀ impl args, ¬ p.Implements trait impl t args := by
  rw [selectImpl?, List.findSome?_eq_none_iff]
  simp only [Option.map_eq_none_iff, implArgs?_eq_none_iff hpatterns]
  exact ⟨fun h impl args himpl => h impl himpl.mem_impls args himpl, fun h impl _ => h impl⟩

/-- What a method resolves to is what it means. -/
theorem means_resolveFor : p.Means trait method t own (p.resolveFor trait method t own) := by
  unfold resolveFor
  split
  · next hnone => exact .unimplemented ((selectImpl?_eq_none_iff hpatterns).1 hnone)
  · next impl args hselect =>
    have hselects := (selectImpl?_eq_some_iff hpatterns).1 hselect
    split
    · next target htarget => exact .provided hselects (implMethod?_eq_some_iff.1 htarget)
    · next hlacks =>
      have hlacks := implMethod?_eq_none_iff.1 hlacks
      split
      · next hbody => exact .inherited hselects hlacks hbody
      · next hbody => exact .missing hselects hlacks (by simpa using hbody)

/-- A method means one thing only. -/
theorem Means.eq_resolveFor {r : Resolution} (h : p.Means trait method t own r) :
    p.resolveFor trait method t own = r := by
  -- a meaning fixes what each of the three look-ups gives
  cases h with
  | provided hselects hprovides =>
    simp [resolveFor, (selectImpl?_eq_some_iff hpatterns).2 hselects,
      implMethod?_eq_some_iff.2 hprovides]
  | inherited hselects hlacks hbody =>
    simp [resolveFor, (selectImpl?_eq_some_iff hpatterns).2 hselects,
      implMethod?_eq_none_iff.2 hlacks, hbody]
  | missing hselects hlacks hbody =>
    simp [resolveFor, (selectImpl?_eq_some_iff hpatterns).2 hselects,
      implMethod?_eq_none_iff.2 hlacks, hbody]
  | unimplemented hnone => simp [resolveFor, (selectImpl?_eq_none_iff hpatterns).2 hnone]

end Patterns

/-- A call of a method of a trait comes to what the method means for the type in the first slot,
    unless that is a parameter or the trait's own object. -/
theorem resolve_eq_iff
    (hpatterns : ∀ i tr pattern, (p.item i).kind = .impl tr pattern → pattern.IsPattern)
    (hkind : (p.item method).kind = .traitMethod trait) (hparam : ∀ i, t ≠ .param i)
    (hdyn : t ≠ .dyn trait) (r : Resolution) :
    p.resolve method (.ty t :: own) = r ↔ p.Means trait method t own r := by
  -- neither a parameter nor the trait's own object stops the look-up
  have hresolve : p.resolve method (.ty t :: own) = p.resolveFor trait method t own := by
    unfold resolve
    rw [hkind]
    split <;> simp_all
  rw [hresolve]
  constructor
  · rintro rfl
    exact means_resolveFor hpatterns
  · exact Means.eq_resolveFor hpatterns

/-- A trait for pairs with three blocks. The first one has a parameter that its pattern does not
    mention, so it is passed over. The second one is for an array with an element and the third one
    for all pairs. -/
def shelf : Program where
  crates := ["app"]
  crateRegions := [0]
  regions := ["app"]
  items := #[
    { name := "Show", path := "Show", kind := .trait
      generics := { params := [⟨"Self", .type⟩] } },
    { name := "show", path := "Show::show", kind := .traitMethod 0
      generics := { parent := some 0, inherited := 1,
                    params := [⟨"Self", .type⟩, ⟨"U", .type⟩] } },
    { name := "Pair", path := "Pair", kind := .adt []
      generics := { params := [⟨"A", .type⟩, ⟨"B", .type⟩] } },
    { name := "impl-Show-0", path := "impl-Show-0"
      kind := .impl 0 (.adt 2 [.ty (.param 0), .ty (.param 1)])
      generics := { params := [⟨"A", .type⟩, ⟨"B", .type⟩, ⟨"C", .type⟩] } },
    { name := "impl-Show-1", path := "impl-Show-1"
      kind := .impl 0 (.adt 2 [.ty (.array (.param 0) (.param 1)), .ty (.param 0)])
      generics := { params := [⟨"T", .type⟩, ⟨"N", .const⟩] } },
    { name := "show", path := "impl-Show-1::show", kind := .implMethod 1
      generics := { parent := some 4, inherited := 2,
                    params := [⟨"T", .type⟩, ⟨"N", .const⟩, ⟨"U", .type⟩] }
      body := some {} },
    { name := "impl-Show-2", path := "impl-Show-2"
      kind := .impl 0 (.adt 2 [.ty (.param 0), .ty (.param 1)])
      generics := { params := [⟨"A", .type⟩, ⟨"B", .type⟩] } }]

/-- The blocks of the shelf are declared for patterns. -/
theorem isPattern_shelf (i tr : ItemId) (pattern : Ty)
    (hkind : (shelf.item i).kind = .impl tr pattern) : pattern.IsPattern := by
  have hparam : ∀ i, (Ty.param i).IsPattern := Ty.isPattern_param
  match i with
  | 0 | 1 | 2 | 5 => exact nomatch hkind
  | 3 | 6 =>
    obtain ⟨-, rfl⟩ := ItemKind.impl.inj hkind
    exact Ty.isPattern_of trivial (by simp [TyNode.slots, hparam])
  | 4 =>
    obtain ⟨-, rfl⟩ := ItemKind.impl.inj hkind
    have harray : (Ty.array (.param 0) (.param 1)).IsPattern :=
      Ty.isPattern_of (n := .array (.param 0) (.param 1)) trivial (by simp [TyNode.slots, hparam])
    exact Ty.isPattern_of trivial (by simp [TyNode.slots, hparam, harray])
  | i + 7 => exact nomatch hkind

/-- A method of the shelf means the one of the block for arrays. -/
theorem means_shelf :
    shelf.Means 0 1 (.adt 2 [.ty (.array (.prim .u8) (.value 3)), .ty (.prim .u8)])
      [.ty (.prim .bool)] (.item 5 [.ty (.prim .u8), .const (.value 3), .ty (.prim .bool)]) :=
  (resolve_eq_iff isPattern_shelf rfl (by simp [Ty.of]) (by simp [Ty.of]) _).1 (by decide +kernel)

end Program

end Monomorph
