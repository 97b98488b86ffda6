import Monomorph.Program.Declare
import Monomorph.Proofs.Symbols

/-!
# Which names symbols tell apart

Spelling a name loses something. A blank is spelled like an underscore; a dollar sign may stand
between two segments or begin an escape; and nothing says where an escape ends. So whether symbols
tell names apart depends on which characters the names are made of.

Two names that are spelled alike are compared sign by sign, where a sign is a character or the place
between two segments. Where they part first, one of three things must have happened, and an alphabet
is unambiguous if none of them can (`Alphabet.Unambiguous`). Symbols tell the names over such an
alphabet apart (`Alphabet.Unambiguous.tells`), and over no other (`Alphabet.Tells.unambiguous`).
-/

namespace Monomorph

namespace Symbol

/-! ## One character -/

/-- A letter or digit. -/
def isSolid (c : Char) : Bool := isPlain c && c != '_'

/-- The digits of an escape are solid. -/
theorem isSolid_of_mem_hexDigits {width n : Nat} {c : Char} (h : c ∈ Text.hexDigits width n) :
    isSolid c = true := by
  rcases List.mem_append.1 h with h | h
  · rw [(List.mem_replicate.1 h).2]
    decide
  · obtain ⟨d, hd, rfl⟩ := Text.exists_of_mem_toDigits h
    exact (by decide : ∀ d < 16, isSolid (Nat.digitChar d) = true) d hd

/-- A number has at least one digit. -/
theorem hexDigits_ne_nil (width n : Nat) : Text.hexDigits width n ≠ [] :=
  List.append_ne_nil_of_right_ne_nil _ Nat.toDigits_ne_nil

/-- A plain character is spelled as itself. -/
theorem spellChar_of_isPlain {c : Char} (h : isPlain c = true) : spellChar c = [c] := by
  unfold spellChar
  exact if_pos h

/-- A character is spelled as it is, or is a blank, or is escaped: a dollar sign and then letters
    and digits. -/
theorem spellChar_cases (c : Char) :
    isPlain c = true ∧ spellChar c = [c] ∨ c = ' ' ∧ spellChar c = ['_'] ∨
      ∃ d w, spellChar c = '$' :: d :: w ∧ ∀ x ∈ d :: w, isSolid x = true := by
  by_cases hplain : isPlain c = true
  · exact .inl ⟨hplain, spellChar_of_isPlain hplain⟩
  · refine .inr ?_
    unfold spellChar
    rw [if_neg hplain]
    -- Of the cases of the spelling one is the blank, one writes the character's number, and all
    -- others are fixed escapes.
    split
    case h_4 => exact .inl ⟨rfl, rfl⟩
    case h_11 =>
      obtain ⟨d, w, hdigits⟩ := List.exists_cons_of_ne_nil (hexDigits_ne_nil 2 c.toNat)
      refine .inr ⟨d, w, by rw [hdigits], ?_⟩
      rw [← hdigits]
      exact fun x => isSolid_of_mem_hexDigits
    all_goals exact .inr ⟨_, _, rfl, List.all_eq_true.1 (by decide)⟩

/-- A solid character is neither a blank's spelling nor the start of an escape. -/
theorem ne_of_isSolid {c : Char} (h : isSolid c = true) : c ≠ '_' ∧ c ≠ '$' := by
  constructor <;> rintro rfl <;> exact absurd h (by decide)

/-- A plain character does not start an escape. -/
theorem ne_dollar_of_isPlain {c : Char} (h : isPlain c = true) : c ≠ '$' := by
  rintro rfl
  exact absurd h (by decide)

/-- Behind the dollar sign of an escape there are letters and digits. -/
theorem isSolid_of_mem_escape {c : Char} {w : List Char} (h : spellChar c = '$' :: w) :
    ∀ x ∈ w, isSolid x = true := by
  rcases spellChar_cases c with ⟨hplain, hc⟩ | ⟨-, hc⟩ | ⟨d, v, hc, hsolid⟩ <;> rw [hc] at h
  · exact absurd (List.cons.inj h).1 (ne_dollar_of_isPlain hplain)
  · exact absurd (List.cons.inj h).1 (by decide)
  · rwa [← (List.cons.inj h).2]

/-! ## Signs -/

/-- What a spelling is made of: a character, or the place between two segments. -/
abbrev Sign := Option Char

/-- The spelling of a sign. -/
def spellSign : Sign → List Char
  | none => ['$']
  | some c => spellChar c

/-- The signs of a segment and of those behind it. -/
def signs (s : List Char) (ss : List (List Char)) : List Sign :=
  s.map some ++ ss.flatMap fun t => none :: t.map some

/-- Between a segment and the next stands a place where they part. -/
theorem signs_cons (s t : List Char) (ss : List (List Char)) :
    signs s (t :: ss) = s.map some ++ none :: signs t ss := by
  rw [signs, signs, List.flatMap_cons, List.cons_append]

/-- Segments can be told from their signs. -/
theorem signs_inj {s t : List Char} {ss ts : List (List Char)} (h : signs s ss = signs t ts) :
    s = t ∧ ss = ts := by
  have hchars : ∀ s : List Char, ∀ a ∈ s.map some, Option.isSome a = true := by simp
  have hplaces : ∀ ss : List (List Char),
      ∀ a ∈ (ss.flatMap fun t => none :: t.map some).head?, Option.isSome a = false := by
    intro ss
    cases ss <;> simp
  induction ss generalizing s t ts with
  | nil =>
    -- the first segment ends where the first place between segments is
    obtain ⟨hfirst, hrest⟩ :=
      append_inj_of_span (hchars s) (hplaces []) (hchars t) (hplaces ts) h
    refine ⟨(List.map_inj_right fun _ _ => Option.some.inj).1 hfirst, ?_⟩
    cases ts with
    | nil => rfl
    | cons u ts => exact absurd hrest (by simp)
  | cons u ss ih =>
    obtain ⟨hfirst, hrest⟩ :=
      append_inj_of_span (hchars s) (hplaces (u :: ss)) (hchars t) (hplaces ts) h
    cases ts with
    | nil => exact absurd hrest (by simp)
    | cons v ts =>
      rw [List.flatMap_cons, List.flatMap_cons, List.cons_append, List.cons_append,
        List.cons.injEq] at hrest
      obtain ⟨rfl, rfl⟩ := ih hrest.2
      exact ⟨(List.map_inj_right fun _ _ => Option.some.inj).1 hfirst, rfl⟩

/-- The name of an item is spelled sign by sign. -/
theorem flatMap_signs (crate path : List Char) :
    (signs crate (Text.segments path)).flatMap spellSign =
      spell crate ++ ['$'] ++ spellPath path := by
  have hmap : ∀ s : List Char, (s.map some).flatMap spellSign = spell s := by
    intro s
    rw [List.flatMap_map]
    rfl
  have hrest : ∀ (s : List Char) (ss : List (List Char)),
      (signs s ss).flatMap spellSign = Text.joinSegments ['$'] (spell s :: ss.map spell) := by
    intro s ss
    induction ss generalizing s with
    | nil => rw [signs, List.flatMap_nil, List.append_nil, hmap, List.map_nil, Text.joinSegments]
    | cons t ss ih =>
      rw [signs_cons, List.flatMap_append, List.flatMap_cons, ih, hmap, List.map_cons]
      simp [Text.joinSegments, spellSign]
  -- A path has a first segment, and the crate is one more segment before it.
  obtain ⟨s, ss, hpath⟩ := List.exists_cons_of_ne_nil (Text.segments_ne_nil path)
  rw [spellPath, hpath, hrest, List.map_cons, Text.joinSegments]
  simp

/-! ## Alphabets -/

/-- The characters that names are made of, and those that a segment of a path may begin with. -/
structure Alphabet where
  chars : Char → Prop
  first : Char → Prop

namespace Alphabet

/-- Whether a segment is made of the characters there are. -/
def Spells (A : Alphabet) (s : List Char) : Prop :=
  (∀ c ∈ s, A.chars c) ∧ ∀ c ∈ s.head?, A.first c

/-- Whether no two names are spelled alike. -/
structure Unambiguous (A : Alphabet) : Prop where
  blank : A.chars ' ' → ¬ A.chars '_'
  /-- No escape can be read as a dollar sign between two segments and the second of them. -/
  separator : ∀ c w, A.chars c → spellChar c = '$' :: w → ¬ A.Spells w
  /-- No escape can be read as another one and the characters behind it. -/
  escape : ∀ c d w r, A.chars c → A.chars d → c ≠ d → spellChar c = '$' :: w →
    spellChar d = '$' :: (w ++ r) → ∃ x ∈ r, ¬ A.chars x

/-- Whether signs are those of segments that an alphabet spells, where the first segment may begin
    in any way. -/
def Allows (A : Alphabet) : List Sign → Prop
  | [] => True
  | some c :: ts => A.chars c ∧ A.Allows ts
  | none :: ts => (∀ c, ts.head? = some (some c) → A.first c) ∧ A.Allows ts

variable {A : Alphabet} {ts us : List Sign}

/-- What is allowed of a name is allowed of its rest. -/
theorem Allows.tail {t : Sign} (h : A.Allows (t :: ts)) : A.Allows ts := by
  cases t <;> exact h.2

/-- The characters of an allowed name are those of the alphabet. -/
theorem Allows.chars (h : A.Allows ts) {c : Char} (hc : some c ∈ ts) : A.chars c := by
  induction ts with
  -- what is allowed is allowed from any place on
  | nil => exact absurd hc List.not_mem_nil
  | cons t ts ih =>
    rcases List.mem_cons.1 hc with rfl | hc
    · exact h.1
    · exact ih h.tail hc

/-- Characters of the alphabet may stand before an allowed name. -/
theorem allows_map_some_append {s : List Char} (hs : ∀ c ∈ s, A.chars c) (h : A.Allows ts) :
    A.Allows (s.map some ++ ts) := by
  induction s with
  | nil => exact h
  | cons c s ih =>
    exact ⟨hs c List.mem_cons_self, ih fun d hd => hs d (List.mem_cons_of_mem c hd)⟩

/-- Segments that the alphabet spells make up an allowed name. -/
theorem allows_signs {s : List Char} {ss : List (List Char)} (hs : ∀ c ∈ s, A.chars c)
    (hss : ∀ t ∈ ss, A.Spells t) : A.Allows (signs s ss) := by
  induction ss generalizing s with
  | nil => exact allows_map_some_append hs trivial
  | cons t ss ih =>
    rw [signs_cons]
    obtain ⟨hchars, hfirst⟩ := hss t List.mem_cons_self
    refine allows_map_some_append hs ⟨?_, ih hchars fun u hu => hss u (List.mem_cons_of_mem t hu)⟩
    -- What stands first in a segment is the only thing the place before it restricts.
    intro c hc
    cases t with
    | nil =>
      cases ss <;> simp [signs] at hc
    | cons d t =>
      obtain rfl : d = c := by simpa [signs] using hc
      exact hfirst d rfl

/-! ## Reading a spelling -/

/-- Letters and digits in a spelling stand for themselves. -/
theorem eq_of_solid_append {w rest : List Char} (hw : ∀ x ∈ w, isSolid x = true)
    (h : ts.flatMap spellSign = w ++ rest) :
    ∃ us, ts = w.map some ++ us ∧ us.flatMap spellSign = rest := by
  induction w generalizing ts with
  | nil => exact ⟨ts, rfl, h⟩
  | cons x w ih =>
    obtain ⟨hunderscore, hdollar⟩ := ne_of_isSolid (hw x List.mem_cons_self)
    cases ts with
    | nil => simp at h
    | cons t ts =>
      rw [List.flatMap_cons] at h
      -- A solid character can only be the spelling of itself.
      cases t with
      | none => exact absurd (List.cons.inj h).1.symm hdollar
      | some c =>
        rw [spellSign] at h
        rcases spellChar_cases c with ⟨-, hc⟩ | ⟨-, hc⟩ | ⟨d, v, hc, -⟩ <;> rw [hc] at h
        · obtain ⟨rfl, hrest⟩ := List.cons.inj h
          obtain ⟨us, rfl, hus⟩ := ih (fun y hy => hw y (List.mem_cons_of_mem c hy)) hrest
          exact ⟨us, rfl, hus⟩
        · exact absurd (List.cons.inj h).1.symm hunderscore
        · exact absurd (List.cons.inj h).1.symm hdollar

/-- Every sign is spelled by something. -/
theorem flatMap_ne_nil {t : Sign} : (t :: ts).flatMap spellSign ≠ [] := by
  rw [List.flatMap_cons]
  refine List.append_ne_nil_of_left_ne_nil ?_ _
  cases t with
  | none => exact List.cons_ne_nil _ _
  | some c =>
    rw [spellSign]
    -- each of the three spellings has a first character
    rcases spellChar_cases c with ⟨-, h⟩ | ⟨-, h⟩ | ⟨d, w, h, -⟩ <;> rw [h] <;> simp

namespace Unambiguous

variable (hA : A.Unambiguous)
include hA

/-- The place between two segments is not spelled like a character. -/
theorem spell_place_ne {c : Char} {rest : List Char} (hts : A.Allows (none :: ts))
    (hc : A.chars c) : '$' :: ts.flatMap spellSign ≠ spellChar c ++ rest := by
  intro h
  rcases spellChar_cases c with ⟨hplain, hspell⟩ | ⟨-, hspell⟩ | ⟨d, w, hspell, hsolid⟩ <;>
    rw [hspell] at h
  · exact absurd (List.cons.inj h).1.symm (ne_dollar_of_isPlain hplain)
  · exact absurd (List.cons.inj h).1 (by decide)
  · -- the letters of the escape make up the beginning of the next segment
    obtain ⟨us, rfl, -⟩ := eq_of_solid_append hsolid (List.cons.inj h).2
    refine hA.separator c (d :: w) hc hspell ⟨fun x hx => ?_, fun x hx => ?_⟩
    · exact hts.tail.chars (List.mem_append_left _ (List.mem_map_of_mem hx))
    · obtain rfl := Option.some.inj hx
      exact hts.1 d rfl

/-- An escape is not spelled like a shorter one and what is behind it. -/
theorem spell_escape_ne {c d : Char} {w r rest : List Char} (hc : A.chars c) (hd : A.chars d)
    (hne : c ≠ d) (hcw : spellChar c = '$' :: w) (hdw : spellChar d = '$' :: (w ++ r))
    (hts : A.Allows ts) : ts.flatMap spellSign ≠ r ++ rest := by
  intro h
  -- what is left of the longer escape is letters, so the name went on with them
  have hsolid : ∀ x ∈ r, isSolid x = true := fun x hx =>
    isSolid_of_mem_escape hdw x (List.mem_append_right w hx)
  obtain ⟨us, rfl, -⟩ := eq_of_solid_append hsolid h
  obtain ⟨x, hx, hchars⟩ := hA.escape c d w r hc hd hne hcw hdw
  exact hchars (hts.chars (List.mem_append_left _ (List.mem_map_of_mem hx)))

/-- Different characters are not spelled alike, whatever stands behind them. -/
theorem spell_char_ne {c d : Char} (hts : A.Allows (some c :: ts)) (hus : A.Allows (some d :: us))
    (hne : c ≠ d) :
    spellChar c ++ ts.flatMap spellSign ≠ spellChar d ++ us.flatMap spellSign := by
  intro h
  -- Each character is plain, blank or escaped. Only the meeting of a plain character with a blank's
  -- spelling and of two escapes need the alphabet.
  rcases spellChar_cases c with ⟨hc, hcw⟩ | ⟨rfl, hcw⟩ | ⟨c', w, hcw, -⟩ <;>
    rcases spellChar_cases d with ⟨hd, hdw⟩ | ⟨rfl, hdw⟩ | ⟨d', v, hdw, -⟩ <;>
    simp only [hcw, hdw] at h
  · exact hne (List.cons.inj h).1
  · obtain rfl := (List.cons.inj h).1
    exact hA.blank hus.1 hts.1
  · exact ne_dollar_of_isPlain hc (List.cons.inj h).1
  · obtain rfl := (List.cons.inj h).1
    exact hA.blank hts.1 hus.1
  · exact hne rfl
  · exact absurd (List.cons.inj h).1 (by decide)
  · exact ne_dollar_of_isPlain hd (List.cons.inj h).1.symm
  · exact absurd (List.cons.inj h).1 (by decide)
  · -- of two escapes one begins like the other
    rcases List.append_eq_append_iff.1 (List.cons.inj h).2 with ⟨r, hr, hrest⟩ | ⟨r, hr, hrest⟩
    · exact hA.spell_escape_ne hts.1 hus.1 hne hcw (hdw.trans (congrArg _ hr)) hts.2 hrest
    · exact hA.spell_escape_ne hus.1 hts.1 hne.symm hdw (hcw.trans (congrArg _ hr)) hus.2 hrest

/-- In an unambiguous alphabet only equal signs are spelled alike. -/
theorem eq_of_spelling_eq (hts : A.Allows ts) (hus : A.Allows us)
    (h : ts.flatMap spellSign = us.flatMap spellSign) : ts = us := by
  induction ts generalizing us with
  -- the names are compared sign by sign up to where they part
  | nil =>
    cases us with
    | nil => rfl
    | cons u us => exact absurd h.symm flatMap_ne_nil
  | cons t ts ih =>
    cases us with
    | nil => exact absurd h flatMap_ne_nil
    | cons u us =>
      by_cases htu : t = u
      · rw [htu, List.flatMap_cons, List.flatMap_cons, List.append_right_inj] at h
        rw [htu, ih hts.tail hus.tail h]
      · -- the names part here
        rw [List.flatMap_cons, List.flatMap_cons] at h
        cases t with
        | none =>
          cases u with
          | none => exact absurd rfl htu
          | some d => exact absurd h (hA.spell_place_ne hts hus.1)
        | some c =>
          cases u with
          | none => exact absurd h.symm (hA.spell_place_ne hus hts.1)
          | some d => exact absurd h (hA.spell_char_ne hts hus fun hcd => htu (congrArg some hcd))

end Unambiguous

/-! ## Symbols -/

/-- Whether the crate and the path of an item are written in an alphabet. -/
structure Names (A : Alphabet) (p : Program) (i : ItemId) : Prop where
  crate : ∀ c ∈ (p.crateName (p.item i).provenance.origin).toList, A.chars c
  path : ∀ s ∈ Text.segments (p.item i).path.toList, A.Spells s

/-- Whether items that are named in an alphabet and differ in crate or path have different symbols,
    also across programs and whatever is made of the items, as long as it takes no arguments. -/
def Tells (A : Alphabet) : Prop :=
  ∀ (p q : Program) (x y : Instance) (i j : ItemId), x.item? = some i → y.item? = some j →
    x.args = [] → y.args = [] → A.Names p i → A.Names q j →
    p.crateName (p.item i).provenance.origin ≠ q.crateName (q.item j).provenance.origin ∨
      (p.item i).path ≠ (q.item j).path →
    x.symbol p ≠ y.symbol q

/-- An instance of an item is spelled by the item's crate and path. -/
theorem spelledName_of_item? {p : Program} {x : Instance} {i : ItemId} (hx : x.item? = some i) :
    spelledName p x.what = spell (p.crateName (p.item i).provenance.origin).toList ++ ['$'] ++
      spellPath (p.item i).path.toList := by
  obtain ⟨what, args⟩ := x
  cases what with
  | dropGlue => cases hx
  | _ =>
    obtain rfl := Option.some.inj hx
    rfl

/-- In an unambiguous alphabet the crate and the path of an item can be read off its symbol. -/
theorem Unambiguous.tells (hA : A.Unambiguous) : A.Tells := by
  intro p q x y i j hx hy _ _ hi hj hne hsymbol
  have hname := (symbol_eq_iff_marks.1 hsymbol).1
  -- The spelled names are the spellings of the signs, so the signs agree, and with them the crate
  -- and the segments of the path.
  rw [spelledName_of_item? hx, spelledName_of_item? hy, ← flatMap_signs, ← flatMap_signs] at hname
  have hsigns := hA.eq_of_spelling_eq (allows_signs hi.crate hi.path)
    (allows_signs hj.crate hj.path) hname
  obtain ⟨hcrate, hpath⟩ := signs_inj hsigns
  have hpath := congrArg (Text.joinSegments [':', ':']) hpath
  rw [Text.joinSegments_segments, Text.joinSegments_segments] at hpath
  exact hne.elim (absurd (String.toList_inj.1 hcrate)) (absurd (String.toList_inj.1 hpath))

/-- A program of two items, each in a crate of its own. -/
def twoItems (crate path crate' path' : List Char) : Program :=
  .build (String.ofList crate) [.crate (String.ofList crate'),
    .item (.fn (String.ofList path)) [], .item (.fn (String.ofList path')) [.crate 1]]

/-- Where symbols tell names apart no two of them are spelled alike. -/
theorem Tells.spell_ne (hA : A.Tells) (crate path crate' path' : List Char)
    (hcrate : ∀ c ∈ crate, A.chars c) (hpath : ∀ s ∈ Text.segments path, A.Spells s)
    (hcrate' : ∀ c ∈ crate', A.chars c) (hpath' : ∀ s ∈ Text.segments path', A.Spells s)
    (hne : crate ≠ crate' ∨ path ≠ path') :
    spell crate ++ ['$'] ++ spellPath path ≠ spell crate' ++ ['$'] ++ spellPath path' := by
  intro h
  -- Any two spellings are those of a program with two items.
  let p := twoItems crate path crate' path'
  have hcrates : p.crateName (p.item 0).provenance.origin = String.ofList crate ∧
      p.crateName (p.item 1).provenance.origin = String.ofList crate' := ⟨rfl, rfl⟩
  have hpaths : (p.item 0).path = String.ofList path ∧ (p.item 1).path = String.ofList path' :=
    ⟨rfl, rfl⟩
  have hnames : A.Names p 0 ∧ A.Names p 1 := by
    constructor <;> constructor <;> simpa only [hcrates, hpaths, String.toList_ofList]
  refine hA p p ⟨.item 0, []⟩ ⟨.item 1, []⟩ 0 1 rfl rfl rfl rfl hnames.1 hnames.2 ?_ ?_
  · rw [hcrates.1, hcrates.2, hpaths.1, hpaths.2]
    exact hne.imp (mt String.ofList_inj.1) (mt String.ofList_inj.1)
  · rw [symbol_eq_iff_marks, spelledName_of_item? rfl, spelledName_of_item? rfl, hcrates.1,
      hcrates.2, hpaths.1, hpaths.2]
    simp only [String.toList_ofList]
    exact ⟨h, rfl⟩

/-- The empty name is spelled by nothing. -/
theorem spell_nil : spell [] = [] := rfl

/-- A name of solid characters is spelled as itself. -/
theorem spell_of_isSolid {w : List Char} (hw : ∀ x ∈ w, isSolid x = true) : spell w = w := by
  induction w with
  | nil => rfl
  | cons c w ih =>
    have hplain : isPlain c = true := (Bool.and_eq_true_iff.1 (hw c List.mem_cons_self)).1
    rw [spell, List.flatMap_cons, ← spell, ih fun x hx => hw x (List.mem_cons_of_mem c hx),
      spellChar_of_isPlain hplain, List.singleton_append]

/-- A segment of letters and digits ends where the colons are. -/
theorem segments_of_isSolid {w : List Char} (hw : ∀ x ∈ w, isSolid x = true) :
    Text.segments (w ++ [':', ':']) = [w, []] := by
  induction w with
  | nil => rfl
  | cons c w ih =>
    -- no solid character is a colon, so the only separator is the one at the end
    have hcolon : c ≠ ':' := by
      rintro rfl
      exact absurd (hw ':' List.mem_cons_self) (by decide)
    rw [List.cons_append, Text.segments, ih fun x hx => hw x (List.mem_cons_of_mem c hx)]
    exact fun _ hc => absurd hc hcolon

/-- Every alphabet spells the empty segment. -/
theorem spells_nil : A.Spells [] := ⟨fun _ h => absurd h List.not_mem_nil, fun _ h => by cases h⟩

/-- An alphabet whose names symbols tell apart is unambiguous. -/
theorem Tells.unambiguous (hA : A.Tells) : A.Unambiguous := by
  -- crates with an empty path are spelled as they are called
  have hcrates : ∀ crate crate' : List Char, (∀ c ∈ crate, A.chars c) →
      (∀ c ∈ crate', A.chars c) → crate ≠ crate' → spell crate ≠ spell crate' := by
    intro crate crate' hcrate hcrate' hne h
    have hpath : ∀ s ∈ Text.segments [], A.Spells s := List.forall_mem_singleton.2 spells_nil
    refine hA.spell_ne crate [] crate' [] hcrate hpath hcrate' hpath (.inl hne) ?_
    rw [h]
  refine ⟨fun hblank hunderscore => ?blank, fun c w hc hcw hw => ?separator,
    fun c d w r hc hd hne hcw hdw => ?escape⟩
  case blank =>
    exact hcrates [' '] ['_'] (List.forall_mem_singleton.2 hblank)
      (List.forall_mem_singleton.2 hunderscore) (by decide) rfl
  case separator =>
    have hsolid := isSolid_of_mem_escape hcw
    have hc' : spell [c] = '$' :: w := (List.append_nil _).trans hcw
    refine hA.spell_ne [c] [] [] (w ++ [':', ':']) (List.forall_mem_singleton.2 hc)
      (List.forall_mem_singleton.2 spells_nil) (fun x hx => absurd hx List.not_mem_nil) ?_
      (.inl (by simp)) ?_
    · rw [segments_of_isSolid hsolid]
      simp [hw, spells_nil]
    · rw [spellPath, spellPath, segments_of_isSolid hsolid, hc']
      simp [Text.segments, Text.joinSegments, spell_of_isSolid hsolid, spell_nil]
  case escape =>
    by_contra hr
    have hr : ∀ x ∈ r, A.chars x := by simpa using hr
    refine hcrates (c :: r) [d] ?_ (List.forall_mem_singleton.2 hd) ?_ ?_
    · exact List.forall_mem_cons.2 ⟨hc, hr⟩
    · exact fun h => hne (List.cons.inj h).1
    · have hsolid : ∀ x ∈ r, isSolid x = true := fun x hx =>
        isSolid_of_mem_escape hdw x (List.mem_append_right w hx)
      calc spell (c :: r) = spellChar c ++ spell r := List.flatMap_cons
        _ = '$' :: (w ++ r) := by rw [hcw, spell_of_isSolid hsolid, List.cons_append]
        _ = spell [d] := by rw [← hdw, spell, List.flatMap_singleton]

/-- Symbols tell names apart exactly if their alphabet is unambiguous. -/
theorem tells_iff_unambiguous (A : Alphabet) : A.Tells ↔ A.Unambiguous :=
  ⟨Tells.unambiguous, Unambiguous.tells⟩

end Alphabet

/-- Two functions, and a method of a block that implements a trait beside a function whose path is
    made of identifiers alone. -/
def lookalikes : Program :=
  .build "app" [.item (.fn "a b") [], .item (.fn "a_b") [], .item (.trait "Show") [],
    .item (.traitMethod 2 "show") [], .item (.impl 2 (.prim .u8)) [], .item (.implMethod 4 3) [],
    .item (.fn "show") [.path "impl::DShow::D0::show"]]

/-- A blank is taken for an underscore, and a hyphen for the end of a segment. -/
theorem symbol_lookalikes :
    (lookalikes.item 0).path ≠ (lookalikes.item 1).path ∧
    Instance.symbol lookalikes ⟨.item 0, []⟩ = Instance.symbol lookalikes ⟨.item 1, []⟩ ∧
    (lookalikes.item 5).path ≠ (lookalikes.item 6).path ∧
    Instance.symbol lookalikes ⟨.item 5, []⟩ = Instance.symbol lookalikes ⟨.item 6, []⟩ := by
  decide +kernel

end Symbol

end Monomorph
