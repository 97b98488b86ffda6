import Monomorph.Instance.Symbol
import Monomorph.Proofs.Lists

/-!
# What can be read off a symbol

A name is spelled without dots, whatever characters it has, and every mark of a symbol begins with
a dot. So the spelled name ends at the first dot, and the marks behind it can be told apart by the
character after the dot and by the digits of the hash. Two symbols are equal exactly if their
spelled names are, they have the same marks and the hashes of their arguments agree
(`Symbol.symbol_eq_iff`), even if they come from different programs.
-/

namespace Monomorph

namespace Symbol

/-! ## The spelled name -/

/-- A character that is no dot. -/
def isDotless (c : Char) : Bool := c != '.'

/-- No digit is a dot. -/
theorem isDotless_of_isSome_hexDigit? {c : Char} (h : (Text.hexDigit? c).isSome = true) :
    isDotless c = true := by
  rw [isDotless, bne_iff_ne]
  rintro rfl
  exact absurd h (by decide)

/-- A number is written without dots. -/
theorem isDotless_of_mem_hexDigits {width n : Nat} {c : Char} (h : c ∈ Text.hexDigits width n) :
    isDotless c = true :=
  isDotless_of_isSome_hexDigit? (Text.isSome_hexDigit?_of_mem h)

/-- No character is spelled with a dot. -/
theorem isDotless_of_mem_spellChar {c d : Char} (h : d ∈ spellChar c) : isDotless d = true := by
  unfold spellChar at h
  split at h
  · next hplain =>
    obtain rfl := List.mem_singleton.1 h
    rw [isDotless, bne_iff_ne]
    rintro rfl
    exact absurd hplain (by decide)
  · split at h
    case h_11 =>
      -- the number of a character has no dots either
      rcases List.mem_cons.1 h with rfl | h
      · rfl
      · exact isDotless_of_mem_hexDigits h
    all_goals exact List.all_eq_true.1 (by decide : List.all _ isDotless = true) d h

/-- A name is spelled without dots. -/
theorem isDotless_of_mem_spell {name : List Char} {d : Char} (h : d ∈ spell name) :
    isDotless d = true := by
  obtain ⟨c, -, hd⟩ := List.mem_flatMap.1 h
  exact isDotless_of_mem_spellChar hd

/-- Joined segments have the characters of the segments and of the separator. -/
theorem mem_joinSegments {sep : List Char} {ss : List (List Char)} {d : Char}
    (h : d ∈ Text.joinSegments sep ss) : d ∈ sep ∨ ∃ s ∈ ss, d ∈ s := by
  induction ss with
  | nil => exact absurd h List.not_mem_nil
  | cons s ss ih =>
    cases ss with
    | nil => exact .inr ⟨s, List.mem_cons_self, h⟩
    | cons t ts =>
      rw [Text.joinSegments, List.append_assoc, List.mem_append, List.mem_append] at h
      · -- A character is in the first segment, in the separator behind it, or in what the rest
        -- joins to.
        rcases h with h | h | h
        · exact .inr ⟨s, List.mem_cons_self, h⟩
        · exact .inl h
        · rcases ih h with hsep | ⟨u, hu, hd⟩
          · exact .inl hsep
          · exact .inr ⟨u, List.mem_cons_of_mem _ hu, hd⟩
      · simp

/-- A path is spelled without dots. -/
theorem isDotless_of_mem_spellPath {path : List Char} {d : Char} (h : d ∈ spellPath path) :
    isDotless d = true := by
  rcases mem_joinSegments h with h | ⟨s, hs, h⟩
  · rw [List.mem_singleton.1 h]
    rfl
  · obtain ⟨segment, -, rfl⟩ := List.mem_map.1 hs
    exact isDotless_of_mem_spell h

/-- The spelled name of what is instantiated: the crate and the path of an item, or the crate being
    compiled for drop glue. -/
def spelledName (p : Program) : InstanceDef → List Char
  | .item i | .static i | .vtableShim i =>
    spell (p.crateName (p.item i).provenance.origin).toList ++ ['$'] ++
      spellPath (p.item i).path.toList
  | .dropGlue => spell p.localName.toList

/-- The spelled name of an instance has no dot, so the marks behind it can be told from it. -/
theorem isDotless_of_mem_spelledName {p : Program} {what : InstanceDef} {d : Char}
    (h : d ∈ spelledName p what) : isDotless d = true := by
  -- spelling leaves no dot in a name, and the separators are dollar signs
  have hitem : ∀ i, d ∈ spell (p.crateName (p.item i).provenance.origin).toList ++ ['$'] ++
      spellPath (p.item i).path.toList → isDotless d = true := by
    intro i h
    rcases List.mem_append.1 h with h | h
    · rcases List.mem_append.1 h with h | h
      · exact isDotless_of_mem_spell h
      · rw [List.mem_singleton.1 h]
        rfl
    · exact isDotless_of_mem_spellPath h
  cases what with
  | item i => exact hitem i h
  | static i => exact hitem i h
  | vtableShim i => exact hitem i h
  | dropGlue => exact isDotless_of_mem_spell h

/-! ## The marks -/

/-- The mark of drop glue. -/
def glueMark : InstanceDef → List Char
  | .dropGlue => ['.', 'd', 'r', 'o', 'p']
  | .item _ | .static _ | .vtableShim _ => []

/-- The hash of arguments in a symbol. -/
def argsHash (p : Program) (args : Args) : UInt64 :=
  Text.Hash.ofBytes (args.text p.qualifiedNames).toUTF8.toList

/-- Everything behind the spelled name. -/
def marks (p : Program) (x : Instance) : List Char :=
  glueMark x.what ++ (argsMark p x.args ++ shimMark x.what)

/-- The stem is the spelled name, with a mark behind it where it is that of drop glue. -/
theorem stem_eq (p : Program) (what : InstanceDef) :
    stem p what = spelledName p what ++ glueMark what := by
  cases what with
  | dropGlue => rfl
  | _ => exact (List.append_nil _).symm

/-- Only a vtable shim has a shim mark. -/
theorem shimMark_cases (what : InstanceDef) :
    (∃ i, what = .vtableShim i) ∧ shimMark what = ['.', 'v', 't', 's', 'h', 'i', 'm'] ∨
      (¬ ∃ i, what = .vtableShim i) ∧ shimMark what = [] := by
  cases what with
  | vtableShim i => exact .inl ⟨⟨i, rfl⟩, rfl⟩
  | _ => exact .inr ⟨by simp, rfl⟩

/-- Without arguments there is no mark for them. -/
theorem argsMark_nil (p : Program) : argsMark p [] = [] := rfl

/-- Arguments are marked by the digits of their hash. -/
theorem argsMark_of_ne_nil {p : Program} {args : Args} (h : args ≠ []) :
    argsMark p args = '.' :: 'G' :: Text.hexDigits 16 (argsHash p args).toNat := by
  rw [argsMark, if_neg (by simpa using h), Text.Hash.digits, argsHash]

/-- The mark of drop glue begins with a dot. -/
theorem head?_glueMark (what : InstanceDef) : ∀ c ∈ (glueMark what).head?, isDotless c = false := by
  cases what <;> simp [glueMark, isDotless]

/-- The mark of arguments begins with a dot. -/
theorem head?_argsMark (p : Program) (args : Args) :
    ∀ c ∈ (argsMark p args).head?, isDotless c = false := by
  by_cases hargs : args = []
  · rw [hargs, argsMark_nil]
    simp
  · rw [argsMark_of_ne_nil hargs]
    simp [isDotless]

/-- The mark of a shim begins with a dot. -/
theorem head?_shimMark (what : InstanceDef) : ∀ c ∈ (shimMark what).head?, isDotless c = false := by
  rcases shimMark_cases what with ⟨-, h⟩ | ⟨-, h⟩ <;> rw [h] <;> simp [isDotless]

/-- Marks in a row begin with a dot if each of them does. -/
theorem head?_append {xs ys : List Char} (hxs : ∀ c ∈ xs.head?, isDotless c = false)
    (hys : ∀ c ∈ ys.head?, isDotless c = false) : ∀ c ∈ (xs ++ ys).head?, isDotless c = false := by
  cases xs with
  | nil => exact hys
  | cons a xs => exact hxs

/-- Whatever marks a symbol has, they begin with a dot. -/
theorem head?_marks (p : Program) (x : Instance) :
    ∀ c ∈ (marks p x).head?, isDotless c = false :=
  head?_append (head?_glueMark _) (head?_append (head?_argsMark p _) (head?_shimMark _))

variable {p q : Program} {x y : Instance}

/-- A symbol is told by the spelled name and the marks. -/
theorem symbol_eq_iff_marks : x.symbol p = y.symbol q ↔
    spelledName p x.what = spelledName q y.what ∧ marks p x = marks q y := by
  -- a symbol is the common mark, the spelled name and the marks behind it
  have hsymbol : ∀ (p : Program) (x : Instance),
      (x.symbol p).toList = mark ++ (spelledName p x.what ++ marks p x) := by
    intro p x
    simp [Instance.symbol, stem_eq, marks]
  rw [← String.toList_inj, hsymbol, hsymbol, List.append_right_inj]
  constructor
  · -- the spelled name ends where the first dot is
    exact append_inj_of_span (fun _ => isDotless_of_mem_spelledName) (head?_marks p x)
      (fun _ => isDotless_of_mem_spelledName) (head?_marks q y)
  · rintro ⟨hname, hmarks⟩
    rw [hname, hmarks]

/-- The mark of arguments is told from that of drop glue by its second letter. -/
private theorem digits_append_ne (digits rest rest' : List Char) :
    '.' :: 'G' :: digits ++ rest ≠ '.' :: 'd' :: rest' := by
  simp

/-- No other mark begins like that of drop glue. -/
theorem argsMark_append_shimMark_ne (p : Program) (args : Args) (what : InstanceDef)
    (rest : List Char) : argsMark p args ++ shimMark what ≠ '.' :: 'd' :: rest := by
  by_cases hargs : args = []
  · rw [hargs, argsMark_nil]
    rcases shimMark_cases what with ⟨-, h⟩ | ⟨-, h⟩ <;> rw [h] <;> simp
  · rw [argsMark_of_ne_nil hargs]
    -- no tactic should look into the hash
    exact digits_append_ne _ _ _

/-- The mark of a vtable entry does not begin like that of arguments. -/
theorem shimMark_ne (what : InstanceDef) (digits rest : List Char) :
    shimMark what ≠ '.' :: 'G' :: digits ++ rest := by
  rcases shimMark_cases what with ⟨-, h⟩ | ⟨-, h⟩ <;> rw [h] <;> simp

/-- Digits can be told from the mark behind them. -/
theorem digits_append_shimMark_eq_iff {m n : Nat} {what what' : InstanceDef} :
    '.' :: 'G' :: Text.hexDigits 16 m ++ shimMark what =
        '.' :: 'G' :: Text.hexDigits 16 n ++ shimMark what' ↔
      m = n ∧ shimMark what = shimMark what' := by
  simp only [List.cons_append, List.cons.injEq, true_and]
  constructor
  · -- The digits have no dot, and what is behind them begins with one, so they end at one place.
    intro h
    obtain ⟨hdigits, hshim⟩ := append_inj_of_span (fun _ => isDotless_of_mem_hexDigits)
      (head?_shimMark what) (fun _ => isDotless_of_mem_hexDigits) (head?_shimMark what') h
    have hvalue := congrArg Text.hexValue hdigits
    rw [Text.hexValue_hexDigits, Text.hexValue_hexDigits] at hvalue
    exact ⟨hvalue, hshim⟩
  · rintro ⟨rfl, hshim⟩
    rw [hshim]

/-- The marks of arguments and of a vtable entry can be told apart. -/
theorem argsMark_append_shimMark_eq_iff {args args' : Args} {what what' : InstanceDef} :
    argsMark p args ++ shimMark what = argsMark q args' ++ shimMark what' ↔
      (args = [] ↔ args' = []) ∧ (args ≠ [] → args' ≠ [] → argsHash p args = argsHash q args') ∧
        shimMark what = shimMark what' := by
  -- A mark of arguments stands on both sides or on neither: a shim mark alone never looks like one.
  by_cases hargs : args = [] <;> by_cases hargs' : args' = []
  · rw [hargs, hargs', argsMark_nil, argsMark_nil, List.nil_append, List.nil_append]
    simp
  · rw [hargs, argsMark_nil, argsMark_of_ne_nil hargs', List.nil_append]
    exact ⟨fun h => absurd h (shimMark_ne _ _ _), fun h => absurd (h.1.1 rfl) hargs'⟩
  · rw [hargs', argsMark_nil, argsMark_of_ne_nil hargs, List.nil_append]
    exact ⟨fun h => absurd h.symm (shimMark_ne _ _ _), fun h => absurd (h.1.2 rfl) hargs⟩
  · rw [argsMark_of_ne_nil hargs, argsMark_of_ne_nil hargs', digits_append_shimMark_eq_iff]
    constructor
    · rintro ⟨hhash, hshim⟩
      exact ⟨iff_of_false hargs hargs', fun _ _ => UInt64.toNat_inj.1 hhash, hshim⟩
    · rintro ⟨-, hhash, hshim⟩
      exact ⟨congrArg UInt64.toNat (hhash hargs hargs'), hshim⟩

/-- Shim marks agree where both instances are shims or neither is. -/
theorem shimMark_eq_iff {what what' : InstanceDef} : shimMark what = shimMark what' ↔
    ((∃ i, what = .vtableShim i) ↔ ∃ i, what' = .vtableShim i) := by
  rcases shimMark_cases what with ⟨h, hm⟩ | ⟨h, hm⟩ <;>
    rcases shimMark_cases what' with ⟨h', hm'⟩ | ⟨h', hm'⟩ <;> rw [hm, hm'] <;> simp [h, h']

/-- The mark of drop glue can be told from the others. -/
theorem marks_eq_iff : marks p x = marks q y ↔
    (x.what = .dropGlue ↔ y.what = .dropGlue) ∧
      argsMark p x.args ++ shimMark x.what = argsMark q y.args ++ shimMark y.what := by
  have hglue : ∀ what : InstanceDef, what ≠ .dropGlue → glueMark what = [] := by
    intro what hwhat
    cases what <;> first | rfl | exact absurd rfl hwhat
  -- A mark of drop glue on one side alone would have to be read as a mark of arguments or of a
  -- shim.
  by_cases hx : x.what = .dropGlue <;> by_cases hy : y.what = .dropGlue
  · rw [marks, marks, hx, hy, List.append_right_inj]
    simp
  · rw [marks, marks, hglue _ hy, hx]
    exact ⟨fun h => absurd h.symm (argsMark_append_shimMark_ne _ _ _ _),
      fun h => absurd (h.1.1 rfl) hy⟩
  · rw [marks, marks, hglue _ hx, hy]
    exact ⟨fun h => absurd h (argsMark_append_shimMark_ne _ _ _ _),
      fun h => absurd (h.1.2 rfl) hx⟩
  · rw [marks, marks, hglue _ hx, hglue _ hy]
    exact ⟨fun h => ⟨iff_of_false hx hy, h⟩, fun h => h.2⟩

/-! ## The main result -/

/-- Whether two instances, which may belong to different programs, say the same in their symbols. -/
structure SameParts (p q : Program) (x y : Instance) : Prop where
  name_eq : spelledName p x.what = spelledName q y.what
  glue_iff : x.what = .dropGlue ↔ y.what = .dropGlue
  shim_iff : (∃ i, x.what = .vtableShim i) ↔ ∃ i, y.what = .vtableShim i
  args_iff : x.args = [] ↔ y.args = []
  hash_eq : x.args ≠ [] → y.args ≠ [] → argsHash p x.args = argsHash q y.args

/-- Whatever crates and items are called, their names spell no mark of a symbol, and all that a
    symbol says can be read off it. -/
theorem symbol_eq_iff : x.symbol p = y.symbol q ↔ SameParts p q x y := by
  rw [symbol_eq_iff_marks, marks_eq_iff, argsMark_append_shimMark_eq_iff, shimMark_eq_iff]
  constructor
  · rintro ⟨hname, hglue, hargs, hhash, hshim⟩
    exact ⟨hname, hglue, hshim, hargs, hhash⟩
  · rintro ⟨hname, hglue, hshim, hargs, hhash⟩
    exact ⟨hname, hglue, hargs, hhash, hshim⟩

end Symbol

end Monomorph
