import Mathlib.Order.Bounds.Basic
import Monomorph.Proofs.Building
import Monomorph.Proofs.Selection

/-!
# Programs that are built

A declaration adds an item behind those that are there, or it fills in a part of one that takes no
parameter away, does not change what sort of item it is and moves it into no other item. So an item
stays what it was declared as and inside of the item that it was declared in, whose parameters it
begins with (`Program.Built`). What a program has to say about its items is then told by the list of
the subjects that were declared (`Program.isWellFormed_build`): the methods and the blocks of a
trait, the method that a block has for a method of its trait, and the item at a path.
-/

namespace Monomorph

/-! ## What is declared -/

namespace Subject

/-- The item that a new one is declared inside of. -/
def parent? : Subject → Option ItemId
  | .closure parent _ => some parent
  | .traitMethod tr _ => some tr
  | .implMethod block _ => some block
  | .fn _ | .static _ | .adt _ | .trait _ | .impl .. => none

/-- What sort of item is declared. A type has no fields yet. -/
def kind : Subject → ItemKind
  | .fn _ => .fn
  | .closure .. => .closure
  | .static _ => .static
  | .adt _ => .adt []
  | .trait _ => .trait
  | .traitMethod tr _ => .traitMethod tr
  | .impl tr pattern => .impl tr pattern
  | .implMethod _ method => .implMethod method

variable {s : Subject} {i : ItemId}

/-- Only the declaration of a trait's method makes one. -/
theorem kind_eq_traitMethod_iff :
    s.kind = .traitMethod i ↔ ∃ name, s = .traitMethod i name := by
  cases s <;> simp [kind]

/-- Only the declaration of a block makes one. -/
theorem kind_eq_impl_iff {pattern : Ty} : s.kind = .impl i pattern ↔ s = .impl i pattern := by
  cases s <;> simp [kind]

/-- A method of a block is told by its sort and the block that it is in. -/
theorem kind_eq_implMethod_iff {method : ItemId} :
    s.kind = .implMethod method ∧ s.parent? = some i ↔ s = .implMethod i method := by
  cases s <;> simp [kind, parent?, and_comm]

end Subject

namespace Declaration

/-- The subject, where an item is declared. -/
def subject? : Declaration → Option Subject
  | .item subject _ => some subject
  | _ => none

/-- Whether the item that a new one is declared inside of is there. -/
def Fits (p : Program) (d : Declaration) : Prop :=
  ∀ parent ∈ d.subject?.bind Subject.parent?, parent < p.items.size

instance (p : Program) (d : Declaration) : Decidable (d.Fits p) :=
  inferInstanceAs (Decidable (∀ parent ∈ d.subject?.bind Subject.parent?, parent < p.items.size))

end Declaration

namespace Program

/-- Whether items are declared only inside of items that are there by then. -/
def Takes : Program → List Declaration → Prop
  | _, [] => True
  | p, d :: ds => d.Fits p ∧ (p.declare d).Takes ds

instance decidableTakes : (p : Program) → (ds : List Declaration) → Decidable (p.Takes ds)
  | _, [] => inferInstanceAs (Decidable True)
  | p, d :: ds =>
    have := decidableTakes (p.declare d) ds
    inferInstanceAs (Decidable (d.Fits p ∧ (p.declare d).Takes ds))

variable {p : Program} {ss : List Subject} {s : Subject} {d : Declaration} {it : Item}

/-! ## Items that were declared -/

/-- A draft is of the sort that is declared. -/
theorem kind_draft (s : Subject) : (p.draft s).item.kind = s.kind := by
  cases s <;> rfl

/-- A draft stands inside of the item that it is declared in. -/
theorem parent_draft (s : Subject) : (p.draft s).item.generics.parent = s.parent? := by
  cases s <;> rfl

/-- The draft of an item inside another one has just the parameters of that. -/
theorem generics_draft {parent : ItemId} (h : s.parent? = some parent) :
    (p.draft s).item.generics.inherited = (p.item parent).generics.params.length ∧
      (p.draft s).item.generics.params = (p.item parent).generics.params := by
  cases s with
  | closure | traitMethod | implMethod =>
    obtain rfl := Option.some.inj h
    exact ⟨rfl, rfl⟩
  | _ => exact nomatch h

/-- Whether an item stands behind another one and begins with all its parameters, and knows how many
    these are. -/
structure IsInside (p : Program) (parent i : ItemId) : Prop where
  behind : parent < i
  params : (p.item parent).generics.params <+: (p.item i).generics.params
  inherited : (p.item i).generics.inherited = (p.item parent).generics.params.length

/-- Whether the items of a program are what they were declared as, one for each subject, and are
    inside of the items that they were declared in. -/
structure Built (p : Program) (ss : List Subject) : Prop where
  size : p.items.size = ss.length
  kind : ∀ i s, ss[i]? = some s → (p.item i).kind.withFields [] = s.kind
  parent : ∀ i s, ss[i]? = some s → (p.item i).generics.parent = s.parent?
  inside : ∀ i parent, (p.item i).generics.parent = some parent → p.IsInside parent i

/-- Only an item of the program is inside of another one. -/
theorem lt_size_of_parent {i parent : ItemId}
    (h : (p.item i).generics.parent = some parent) : i < p.items.size := by
  refine Decidable.byContradiction fun hi => ?_
  rw [p.item_eq_default hi] at h
  exact absurd h (Option.some_ne_none parent).symm

/-- A new item that begins with the parameters of the item around it. -/
theorem Built.addItem (h : p.Built ss) (hkind : it.kind.withFields [] = s.kind)
    (hparent : it.generics.parent = s.parent?)
    (hinside : ∀ parent, s.parent? = some parent → parent < p.items.size ∧
      (p.item parent).generics.params <+: it.generics.params ∧
      it.generics.inherited = (p.item parent).generics.params.length) :
    (p.addItem it).Built (ss ++ [s]) := by
  have hnew : (p.addItem it).item ss.length = it := by rw [item_addItem, if_pos h.size.symm]
  have hold : ∀ {i}, i < ss.length → (p.addItem it).item i = p.item i := fun hi => by
    rw [item_addItem, if_neg (Nat.ne_of_lt (h.size.symm ▸ hi))]
  have hlt : ∀ {i t}, ss[i]? = some t → i < ss.length := fun hi =>
    (List.getElem?_eq_some_iff.1 hi).1
  -- Each fact is asked of an old item, where nothing has changed, or of the new one, which stands
  -- at the end.
  constructor
  case size => simp [Program.addItem, h.size]
  case kind =>
    intro i t hi
    rcases getElem?_concat_eq_some hi with hi | ⟨rfl, rfl⟩
    · rw [hold (hlt hi)]
      exact h.kind i t hi
    · rw [hnew]
      exact hkind
  case parent =>
    intro i t hi
    rcases getElem?_concat_eq_some hi with hi | ⟨rfl, rfl⟩
    · rw [hold (hlt hi)]
      exact h.parent i t hi
    · rw [hnew]
      exact hparent
  case inside =>
    intro i parent hi
    by_cases hnewItem : i = ss.length
    · subst hnewItem
      rw [hnew, hparent] at hi
      obtain ⟨hthere, hparams, hcount⟩ := hinside parent hi
      rw [h.size] at hthere
      refine ⟨hthere, ?_, ?_⟩ <;> rw [hnew, hold hthere]
      · exact hparams
      · exact hcount
    · -- the item was there, and so was the one around it
      have hsame : (p.addItem it).item i = p.item i := by
        rw [item_addItem, if_neg (h.size ▸ hnewItem)]
      rw [hsame] at hi
      have hin := h.inside i parent hi
      have hthere : parent < ss.length :=
        Nat.lt_trans hin.behind (h.size ▸ lt_size_of_parent hi)
      refine ⟨hin.behind, ?_, ?_⟩ <;> rw [hsame, hold hthere]
      · exact hin.params
      · exact hin.inherited

/-- Changes that leave alone the sort of every item and its parameters. -/
theorem Built.congr {p' : Program} (h : p.Built ss) (hsize : p'.items.size = p.items.size)
    (hkind : ∀ i, (p'.item i).kind.withFields [] = (p.item i).kind.withFields [])
    (hgenerics : ∀ i, (p'.item i).generics = (p.item i).generics) : p'.Built ss where
  size := hsize.trans h.size
  kind i s hi := (hkind i).trans (h.kind i s hi)
  parent i s hi := by rw [hgenerics]; exact h.parent i s hi
  inside i parent hi := by
    rw [hgenerics] at hi
    -- the parent has the parameters that it had, so what lies inside it still begins with them
    have hin := h.inside i parent hi
    exact ⟨hin.behind, by rw [hgenerics, hgenerics]; exact hin.params,
      by rw [hgenerics, hgenerics]; exact hin.inherited⟩

/-- A change that leaves an item's sort and parameters alone keeps what was declared. -/
theorem Built.modifyItem (h : p.Built ss) {f : Item → Item}
    (hf : ∀ (r : Registry) j it, r.add j (f it) = r.add j it)
    (hbecomes : ∀ it : Item, it.Becomes (f it)) (hgenerics : ∀ it, (f it).generics = it.generics)
    (j : ItemId) : (p.modifyItem j f hf).Built ss := by
  refine h.congr (by simp [Program.modifyItem])
    (fun i => (becomes_modifyItem hbecomes j i).kind) fun i => ?_
  rw [item_modifyItem]
  -- a position past the end is not changed at all
  split
  · exact hgenerics (p.item i)
  · rfl

/-- A declaration adds the item that it declares and leaves all others what they are. -/
theorem Built.declare (h : p.Built ss) (hd : d.Fits p) :
    (p.declare d).Built (ss ++ [d].filterMap Declaration.subject?) := by
  have hnone : p.Built (ss ++ []) := (List.append_nil ss).symm ▸ h
  -- A new item comes with its edits made; every other declaration changes an item that is there, or
  -- none.
  cases d with
  | item s edits =>
    have hbecomes := p.becomes_edits (p.draft s) edits
    refine h.addItem (s := s) ?_ (hbecomes.parent.trans (parent_draft s)) fun parent hparent => ?_
    · refine hbecomes.kind.trans ?_
      rw [kind_draft]
      cases s <;> rfl
    · obtain ⟨hinherited, hparams⟩ := generics_draft (p := p) hparent
      refine ⟨hd parent hparent, ?_, hbecomes.inherited.trans hinherited⟩
      rw [← hparams]
      exact hbecomes.params
  | body j b =>
    exact hnone.modifyItem (fun r j it => r.add_withBody j it b) (fun it => .withBody it b)
      (fun _ => rfl) j
  | fields j ts =>
    exact hnone.modifyItem (fun r j it => r.add_withFields j it ts) (fun it => .withFields it ts)
      (fun _ => rfl) j
  | _ => exact hnone.congr rfl (fun _ => rfl) fun _ => rfl

/-- Declarations in a row add the items that they declare, in this order. -/
theorem Built.declareAll {ds : List Declaration} (h : p.Built ss) (hds : p.Takes ds) :
    (ds.foldl Program.declare p).Built (ss ++ ds.filterMap Declaration.subject?) := by
  induction ds generalizing p ss with
  | nil => simpa using h
  | cons d ds ih =>
    have hrest := ih (h.declare hds.1) hds.2
    rwa [List.append_assoc, ← List.filterMap_append] at hrest

/-- What is built from declarations has the items that they declare. -/
theorem built_build {localName : String} {ds : List Declaration}
    (hds : (start localName).Takes ds) :
    (build localName ds).Built (ds.filterMap Declaration.subject?) := by
  -- at the start there is no item, so nothing has to hold
  have hstart : (start localName).Built [] := by
    refine ⟨rfl, fun i s hi => ?_, fun i s hi => ?_, fun i parent hi => ?_⟩
    · exact absurd hi (by simp)
    · exact absurd hi (by simp)
    · exact absurd (lt_size_of_parent hi) (Nat.not_lt_zero i)
  have h := hstart.declareAll hds
  rwa [List.nil_append] at h

/-! ## What a program says about its items -/

section Built

variable {i : ItemId} {k : ItemKind} (h : p.Built ss)
include h

/-- Items other than functions and types are of the sort that they were declared as. -/
theorem Built.kind_eq_iff (hfn : k ≠ .fn) (hadt : ∀ ts, k ≠ .adt ts) :
    (p.item i).kind = k ↔ ∃ s, ss[i]? = some s ∧ s.kind = k := by
  constructor
  · rintro rfl
    -- only a position of the program has a kind other than that of a function
    have hi : i < ss.length := h.size ▸ lt_size_of_kind_ne hfn
    refine ⟨ss[i], List.getElem?_eq_getElem hi, ?_⟩
    rw [← h.kind i _ (List.getElem?_eq_getElem hi)]
    exact (ItemKind.withFields_eq_iff hadt []).2 rfl
  · rintro ⟨s, hs, rfl⟩
    exact (ItemKind.withFields_eq_iff hadt []).1 (h.kind i s hs)

/-- The methods of a trait are those that were declared in it. -/
theorem Built.mem_traitMethods_iff {trait : ItemId} (htrait : (p.item trait).kind = .trait) :
    i ∈ p.traitMethods trait ↔ ∃ name, ss[i]? = some (.traitMethod trait name) := by
  rw [mem_traitMethods, and_iff_right htrait, h.kind_eq_iff (by simp) (by simp)]
  simp [Subject.kind_eq_traitMethod_iff]

/-- The blocks of a trait are those that were declared for it. -/
theorem Built.mem_impls_iff {trait : ItemId} :
    i ∈ p.impls trait ↔ ∃ pattern, ss[i]? = some (.impl trait pattern) := by
  rw [mem_impls]
  refine exists_congr fun pattern => ?_
  rw [h.kind_eq_iff (by simp) (by simp)]
  simp [Subject.kind_eq_impl_iff]

/-- The item at a position is a method that a block has for a method of its trait exactly if it was
    declared as that. -/
theorem Built.isImplMethod_iff {impl method : ItemId} :
    (p.item i).isImplMethod impl method = true ↔ ss[i]? = some (.implMethod impl method) := by
  rw [Item.isImplMethod, Bool.and_eq_true, beq_iff_eq, beq_iff_eq,
    h.kind_eq_iff (by simp) (by simp)]
  -- an item that provides a method was declared as doing so, in the block that it is in
  constructor
  · rintro ⟨⟨s, hs, hkind⟩, hparent⟩
    rw [h.parent i s hs] at hparent
    rw [hs, Subject.kind_eq_implMethod_iff.1 ⟨hkind, hparent⟩]
  · intro hs
    exact ⟨⟨_, hs, rfl⟩, h.parent i _ hs⟩

end Built

/-- Whether an item lies in a crate at a path. -/
def IsAt (p : Program) (c : CrateId) (path : String) (i : ItemId) : Prop :=
  i < p.items.size ∧ (p.item i).provenance.origin = c ∧ (p.item i).path = path

/-- The test that finding makes is whether an item lies there. -/
theorem isAt_iff {c : CrateId} {path : String} {i : ItemId} (hi : i < p.items.size) :
    (p.items[i].provenance.origin == c && p.items[i].path == path) = true ↔ p.IsAt c path i := by
  simp [IsAt, item, hi]

/-- The item that is found is the first one that lies there. -/
theorem find?_eq_some_iff {c : CrateId} {path : String} {i : ItemId} :
    p.find? c path = some i ↔ IsLeast {i | p.IsAt c path i} i := by
  rw [find?, Array.findIdx?_eq_some_iff_getElem]
  constructor
  · -- none of those in front has the path
    rintro ⟨hi, hat, hfirst⟩
    refine ⟨(isAt_iff hi).1 hat, fun j hj => Nat.le_of_not_lt fun hlt => ?_⟩
    exact hfirst j hlt ((isAt_iff hj.1).2 hj)
  · rintro ⟨hat, hleast⟩
    refine ⟨hat.1, (isAt_iff hat.1).2 hat, fun j hlt hj => ?_⟩
    exact Nat.not_le_of_lt hlt (hleast ((isAt_iff (Nat.lt_trans hlt hat.1)).1 hj))

/-- Nothing is found exactly where no item lies there. -/
theorem find?_eq_none_iff {c : CrateId} {path : String} :
    p.find? c path = none ↔ ∀ i, ¬ p.IsAt c path i := by
  rw [find?, Array.findIdx?_eq_none_iff]
  constructor
  · intro h i hat
    exact Bool.eq_false_iff.1 (h _ (Array.getElem_mem hat.1)) ((isAt_iff hat.1).2 hat)
  · intro h it hit
    obtain ⟨i, hi, rfl⟩ := Array.getElem_of_mem hit
    exact Bool.eq_false_iff.2 fun hat => h i ((isAt_iff hi).1 hat)

/-- The block that is selected is the first of the trait's blocks that has arguments for the type. -/
theorem selectImpl?_eq_some_iff_first {trait impl : ItemId} {t : Ty} {args : Args} :
    p.selectImpl? trait t = some (impl, args) ↔ p.implArgs? trait t impl = some args ∧
      ∀ earlier < impl, p.implArgs? trait t earlier = none := by
  have hmem : ∀ {i as}, p.implArgs? trait t i = some as → i ∈ p.impls trait := by
    intro i as has
    rw [implArgs?, Option.bind_eq_bind, Option.bind_eq_some_iff] at has
    obtain ⟨pattern, hpattern, -⟩ := has
    exact mem_impls.2 ⟨pattern, implPattern?_eq_some_iff.1 hpattern⟩
  -- The blocks of a trait are listed in increasing order, so the first that fits in the list is the
  -- first that fits at all.
  rw [selectImpl?, findSome?_eq_some_iff_of_increasing increasing_impls]
  simp only [Option.map_eq_some_iff, Option.map_eq_none_iff, Prod.mk.injEq]
  constructor
  · rintro ⟨_, -, ⟨_, hargs, rfl, rfl⟩, hfirst⟩
    refine ⟨hargs, fun earlier hlt => Option.eq_none_iff_forall_ne_some.2 fun as has => ?_⟩
    rw [hfirst earlier (hmem has) hlt] at has
    exact Option.some_ne_none as has.symm
  · rintro ⟨hargs, hfirst⟩
    exact ⟨impl, hmem hargs, ⟨args, hargs, rfl, rfl⟩, fun earlier _ hlt => hfirst earlier hlt⟩

/-! ## What a built program says -/

/-- What holds of a program with items of the given subjects: what it says of its traits, blocks and
    paths is what was declared. -/
structure IsWellFormed (p : Program) (ss : List Subject) : Prop extends p.Built ss where
  /-- A trait has the methods declared in it, each once and in the order of declaration. -/
  methods : ∀ trait, (p.item trait).kind = .trait → (p.traitMethods trait).Pairwise (· < ·) ∧
    ∀ i, i ∈ p.traitMethods trait ↔ ∃ name, ss[i]? = some (.traitMethod trait name)
  /-- A trait has the blocks declared for it, each once and in the order of declaration. -/
  impls : ∀ trait, (p.impls trait).Pairwise (· < ·) ∧
    ∀ i, i ∈ p.impls trait ↔ ∃ pattern, ss[i]? = some (.impl trait pattern)
  /-- The first of these blocks that fits a type is selected for it. -/
  selects : ∀ trait t impl args, p.selectImpl? trait t = some (impl, args) ↔
    p.implArgs? trait t impl = some args ∧ ∀ earlier < impl, p.implArgs? trait t earlier = none
  /-- A block has the method that was declared last for a method of its trait. -/
  provides : ∀ impl method target, p.implMethod? impl method = some target ↔
    IsGreatest {i | ss[i]? = some (.implMethod impl method)} target
  /-- The first item at a path of a crate is found. -/
  finds : ∀ c path i, p.find? c path = some i ↔ IsLeast {i | p.IsAt c path i} i
  /-- An item is found if there is any. -/
  findsNone : ∀ c path, p.find? c path = none ↔ ∀ i, ¬ p.IsAt c path i

/-- The method that is given for a block is the last one that was declared. -/
theorem Built.implMethod?_eq_some_iff (h : p.Built ss) {impl method target : ItemId} :
    p.implMethod? impl method = some target ↔
      IsGreatest {i | ss[i]? = some (.implMethod impl method)} target := by
  -- the methods that are looked through are those declared for the block
  have hmem : ∀ i, i ∈ p.itemsWhere (Item.isImplMethod impl method) ↔
      ss[i]? = some (.implMethod impl method) := by
    intro i
    rw [mem_itemsWhere, h.isImplMethod_iff, and_iff_right_iff_imp, h.size]
    exact fun hs => (List.getElem?_eq_some_iff.1 hs).1
  rw [implMethod?_eq, getLast?_eq_some_iff_of_increasing (increasing_itemsWhere _), hmem]
  simp only [hmem]
  rfl

/-- Whatever is declared, in whatever order, makes a well-formed program. -/
theorem isWellFormed_build {localName : String} {ds : List Declaration}
    (hds : (start localName).Takes ds) :
    (build localName ds).IsWellFormed (ds.filterMap Declaration.subject?) := by
  have h := built_build hds
  exact {
    toBuilt := h
    methods := fun _ htrait => ⟨increasing_traitMethods, fun _ => h.mem_traitMethods_iff htrait⟩
    impls := fun _ => ⟨increasing_impls, fun _ => h.mem_impls_iff⟩
    selects := fun _ _ _ _ => selectImpl?_eq_some_iff_first
    provides := fun _ _ _ => h.implMethod?_eq_some_iff
    finds := fun _ _ _ => find?_eq_some_iff
    findsNone := fun _ _ => find?_eq_none_iff }

/-- A trait with a method, a type whose fields mention it, and a block that has the method twice. A
    closure in the second one gets a body after items behind it. -/
def workshop : List Declaration := [
  .item (.trait "Show") [],
  .item (.traitMethod 0 "show") [.param ⟨"F", .type⟩],
  .item (.adt "List") [.param ⟨"T", .type⟩],
  .item (.impl 0 (.adt 2 [.ty (.param 0)])) [.param ⟨"T", .type⟩],
  .item (.implMethod 3 1) [.param ⟨"F", .type⟩, .body {}],
  .fields 2 [.param 0, .box (.adt 2 [.ty (.param 0)])],
  .item (.implMethod 3 1) [.param ⟨"F", .type⟩, .path "List::show"],
  .item (.closure 5 "each") [.param ⟨"N", .const⟩],
  .item (.fn "main") [.visibility .everyone],
  .body 6 { ops := [⟨.use (.param 1), .dummy⟩] },
  .entry 7]

/-- The workshop is well-formed, and of the two methods of its block the later one counts. -/
theorem isWellFormed_workshop : (start "app").Takes workshop ∧
    (build "app" workshop).IsWellFormed (workshop.filterMap Declaration.subject?) ∧
    (build "app" workshop).implMethod? 3 1 = some 5 :=
  ⟨by decide, isWellFormed_build (by decide), by decide⟩

end Program

end Monomorph
