import Monomorph.Proofs.Readability

/-!
# When symbols collide

The hash in a symbol stands for written arguments. Where crates and paths are called by plain names,
different arguments are written differently, and so two instances of one item have the same symbol
only if the hash fails to tell two different texts apart (`Program.PlainNames.tellsApart`). This
holds for arguments with placeholders too, since a position has one sort for all instances of an
item.
-/

namespace Monomorph

open Text

/-! ## Names in a program -/

namespace Program

/-- Whether the crates and the paths of all items are plain words with colons in between, and no
    two items have the same crate name and path. -/
structure PlainNames (p : Program) : Prop where
  crate : ∀ i < p.items.size,
    ∀ c ∈ (p.crateName (p.item i).provenance.origin).toList, Symbol.isPlain c = true
  segment : ∀ i < p.items.size, ∀ s ∈ segments (p.item i).path.toList,
    ∀ c ∈ s, Symbol.isPlain c = true
  apart : ∀ i < p.items.size, ∀ j < p.items.size,
    p.crateName (p.item i).provenance.origin = p.crateName (p.item j).provenance.origin →
      (p.item i).path = (p.item j).path → i = j

variable {p : Program}

/-- A qualified name is the crate, two colons and the path. -/
theorem toList_qualifiedNames (i : ItemId) : (p.qualifiedNames.item i).toList =
    (p.crateName (p.item i).provenance.origin).toList ++
      ':' :: ':' :: (p.item i).path.toList := by
  simp [qualifiedNames]

/-- Plain names spell items so that a reader can tell them apart. -/
theorem PlainNames.isClear (h : p.PlainNames) :
    p.qualifiedNames.IsClear (· < p.items.size) where
  param _ := rfl
  crate i hi := ⟨_, _, toList_qualifiedNames i, h.crate i hi⟩
  spelled i hi c hc := by
    rw [Bool.or_eq_true, beq_iff_eq]
    have hpath : c ∈ (p.item i).path.toList → Symbol.isPlain c = true ∨ c = ':' := by
      intro hc
      rw [← joinSegments_segments (p.item i).path.toList] at hc
      rcases Symbol.mem_joinSegments hc with hc | ⟨s, hs, hc⟩
      · right
        simpa using hc
      · exact .inl (h.segment i hi s hs c hc)
    rw [toList_qualifiedNames] at hc
    rcases List.mem_append.1 hc with hc | hc
    · exact .inl (h.crate i hi c hc)
    · rcases List.mem_cons.1 hc with rfl | hc
      · exact .inr rfl
      · rcases List.mem_cons.1 hc with rfl | hc
        · exact .inr rfl
        · exact hpath hc
  inj i j hi hj hname := by
    rw [← String.toList_inj, toList_qualifiedNames, toList_qualifiedNames] at hname
    -- the name of the crate ends at the first colon
    obtain ⟨hcrate, hpath⟩ := append_inj_of_span (h.crate i hi) (by simp [Symbol.isPlain])
      (h.crate j hj) (by simp [Symbol.isPlain]) hname
    simp only [List.cons.injEq, true_and] at hpath
    exact h.apart i hi j hj (String.toList_inj.1 hcrate) (String.toList_inj.1 hpath)

end Program

/-! ## Arguments of instances -/

/-- Whether arguments have no parameters and name only items that there are. -/
structure Args.Concrete (p : Program) (args : Args) : Prop where
  closed : args.mentions = []
  items : ∀ a ∈ args, ∀ i, .item i ∈ a.letters → i < p.items.size

/-- Whether an instance is what its item is instantiated as, or an entry of a vtable for it, and
    each slot has no parameters or is the placeholder of its own parameter. -/
structure Instance.Proper (p : Program) (inst : Instance) : Prop where
  what : ∀ i, inst.item? = some i → inst.what = p.instanceDef i ∨ inst.what = .vtableShim i
  slot : ∀ j (a : Arg Ty), inst.args[j]? = some a → a.mentioned = [] ∨
    ∃ (i : ItemId) (param : Param), inst.item? = some i ∧
      (p.item i).generics.params[j]? = some param ∧ a = param.kind.placeholder j
  items : ∀ a ∈ inst.args, ∀ i, .item i ∈ a.letters → i < p.items.size

/-- The sort that a position has for an instance of an item. -/
def Program.sortAt (p : Program) (item? : Option ItemId) (k : Nat) : ParamKind :=
  match item?.bind fun i => (p.item i).generics.params[k]? with
  | some param => param.kind
  | none => .type

/-- Closed arguments mention no parameter, so any assignment of sorts fits them. -/
theorem Args.Concrete.sorted {p : Program} {args : Args} (h : args.Concrete p)
    (sort : Nat → ParamKind) {a : Arg Ty} (ha : a ∈ args) : a.Sorted (· < p.items.size) sort where
  items := h.items a ha
  sorts m hm := by
    have hmem : m ∈ args.mentions := List.mem_flatMap.2 ⟨a, ha, hm⟩
    rw [h.closed] at hmem
    exact absurd hmem List.not_mem_nil

/-- An identity slot mentions the parameter of its own position, with the sort the item gives it. -/
theorem Instance.Proper.sorted {p : Program} {inst : Instance} (h : inst.Proper p) {a : Arg Ty}
    (ha : a ∈ inst.args) : a.Sorted (· < p.items.size) (p.sortAt inst.item?) where
  items := h.items a ha
  sorts m hm := by
    -- a slot is closed, or it holds the parameter that it stands for
    obtain ⟨j, hj⟩ := List.mem_iff_getElem?.1 ha
    rcases h.slot j a hj with hclosed | ⟨i, param, hitem, hparam, rfl⟩
    · rw [hclosed] at hm
      exact absurd hm List.not_mem_nil
    · have hsort : p.sortAt inst.item? j = param.kind := by
        simp [Program.sortAt, hitem, hparam]
      have hmention : m = (param.kind, j) := by
        cases hkind : param.kind <;> rw [hkind] at hm <;> exact List.mem_singleton.1 hm
      rw [hmention, hsort]

/-- Instances of one item are of one sort if both are entries of vtables or none is. -/
theorem Instance.Proper.what_eq {p : Program} {x y : Instance} (hx : x.Proper p) (hy : y.Proper p)
    (hitem : x.item? = y.item?)
    (hshim : (∃ i, x.what = .vtableShim i) ↔ ∃ i, y.what = .vtableShim i) : x.what = y.what := by
  have hne : ∀ i j, p.instanceDef i ≠ .vtableShim j := by
    -- an item's instance is never a shim's, so the mark of shims decides between the two
    intro i j
    unfold Program.instanceDef
    split <;> exact nofun
  cases hi : x.item? with
  | none =>
    have hglue : ∀ z : Instance, z.item? = none → z.what = .dropGlue := by
      rintro ⟨what, args⟩ h
      cases what <;> first | rfl | exact absurd h nofun
    rw [hglue x hi, hglue y (hitem ▸ hi)]
  | some i =>
    rcases hx.what i hi with hx | hx <;> rcases hy.what i (hitem ▸ hi) with hy | hy
    · rw [hx, hy]
    · obtain ⟨j, hj⟩ := hshim.2 ⟨i, hy⟩
      exact absurd (hx.symm.trans hj) (hne i j)
    · obtain ⟨j, hj⟩ := hshim.1 ⟨i, hx⟩
      exact absurd (hy.symm.trans hj) (hne i j)
    · rw [hx, hy]

namespace Program

/-- Whether the arguments that are hashed for symbols are written without ambiguity: only equal
    arguments have equal texts, and instances of one item that share a symbol have arguments whose
    different texts have the same hash. -/
structure TellsApart (p : Program) : Prop where
  text_iff : ∀ args args' : Args, args.Concrete p → args'.Concrete p →
    (args.text p.qualifiedNames = args'.text p.qualifiedNames ↔ args = args')
  collision : ∀ x y : Instance, x.Proper p → y.Proper p → x.item? = y.item? → x ≠ y →
    x.symbol p = y.symbol p → x.args.text p.qualifiedNames ≠ y.args.text p.qualifiedNames ∧
      Symbol.argsHash p x.args = Symbol.argsHash p y.args

/-- Where crates and paths have plain names, the texts of arguments tell them apart. -/
theorem PlainNames.tellsApart {p : Program} (h : p.PlainNames) : p.TellsApart where
  text_iff args args' hargs hargs' := by
    refine ⟨fun htext => ?_, fun heq => by rw [heq]⟩
    exact Args.text_inj h.isClear (fun _ => hargs.sorted fun _ => .type)
      (fun _ => hargs'.sorted fun _ => .type) htext
  collision x y hx hy hitem hne hsymbol := by
    -- equal symbols have the same stem, argument hash and shim mark
    obtain ⟨-, hmarks⟩ := Symbol.symbol_eq_iff_marks.1 hsymbol
    obtain ⟨-, hmarks⟩ := Symbol.marks_eq_iff.1 hmarks
    obtain ⟨hnil, hhash, hshim⟩ := Symbol.argsMark_append_shimMark_eq_iff.1 hmarks
    have hwhat := hx.what_eq hy hitem (Symbol.shimMark_eq_iff.1 hshim)
    have hargs : x.args ≠ y.args := by
      intro hargs
      cases x
      cases y
      exact hne (Instance.mk.injEq .. ▸ ⟨hwhat, hargs⟩)
    refine ⟨fun htext => hargs ?_, hhash ?_ ?_⟩
    · refine Args.text_inj h.isClear (fun _ => hx.sorted) (fun _ hb => ?_) htext
      rw [hitem]
      exact hy.sorted hb
    · exact fun hx => hargs (hx.trans (hnil.1 hx).symm)
    · exact fun hy => hargs ((hnil.2 hy).trans hy.symm)

/-- A program whose crates and items are called like parts of types. -/
def masquerade : Program where
  crates := ["mut", "u8"]
  crateRegions := [0, 1]
  regions := ["", ""]
  items := #[
    { name := "u8", path := "u8", kind := .adt [] },
    { name := "u8", path := "u8", kind := .adt [], provenance := { origin := 1 } },
    { name := "fn", path := "dyn::fn", kind := .trait }]

/-- A pointer with the right to write is told from a shared pointer to what is called `mut::u8`. -/
theorem masquerade_tellsApart : masquerade.PlainNames ∧
    Args.Concrete masquerade [.ty (.wrap (.ref .exclusive) (.prim .u8))] ∧
    Args.Concrete masquerade [.ty (.wrap (.ref .shared) (.adt 0 []))] ∧
    Args.text masquerade.qualifiedNames [.ty (.wrap (.ref .exclusive) (.prim .u8))] ≠
      Args.text masquerade.qualifiedNames [.ty (.wrap (.ref .shared) (.adt 0 []))] := by
  have hcrates : ∀ i < 3, List.all (masquerade.crateName
      (masquerade.item i).provenance.origin).toList Symbol.isPlain = true := by decide +kernel
  have hsegments : ∀ i < 3, List.all (segments (masquerade.item i).path.toList)
      (List.all · Symbol.isPlain) = true := by decide +kernel
  have hplain : masquerade.PlainNames :=
    ⟨fun i hi => List.all_eq_true.1 (hcrates i hi), fun i hi s hs =>
      List.all_eq_true.1 (List.all_eq_true.1 (hsegments i hi) s hs), by decide +kernel⟩
  have hmut : Args.Concrete masquerade [.ty (.wrap (.ref .exclusive) (.prim .u8))] := by
    refine ⟨rfl, List.forall_mem_singleton.2 fun i hi => ?_⟩
    exact absurd (show Letter.item i ∈ [] from hi) List.not_mem_nil
  have hshared : Args.Concrete masquerade [.ty (.wrap (.ref .shared) (.adt 0 []))] := by
    refine ⟨rfl, List.forall_mem_singleton.2 fun i hi => ?_⟩
    have hi : Letter.item i ∈ [.item 0, .length 0] := hi
    obtain rfl : i = 0 := by simpa using hi
    decide
  refine ⟨hplain, hmut, hshared, fun htext => ?_⟩
  exact absurd ((hplain.tellsApart.text_iff _ _ hmut hshared).1 htext) (by decide)

end Program

end Monomorph
