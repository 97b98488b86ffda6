import Monomorph.Proofs.Finite
import Monomorph.Proofs.Symbols

/-!
# How a written type begins

Types are written in front of what closes them, and what sort of type follows can be told from the
word in front and the character behind the word (`Text.sign`): the names of built-in types stand by
themselves, those of items go on with a colon, and the marks of all other types are their own. Only
arrays and slices begin alike, and pointers that differ in the right to write.
-/

namespace Monomorph

namespace Text

/-! ## How a written type begins and ends -/

/-- A character that can stand behind a type. -/
def isStop (c : Char) : Bool := c == ',' || c == '>' || c == ']' || c == ';' || c == ')'

/-- Whether a text can stand behind a type: it is empty or begins with a stop. -/
def Ends (r : List Char) : Prop := ∀ c ∈ r.head?, isStop c = true

/-- What the beginning of a text says: the word in front, and the character behind it unless that
    can stand behind a type. -/
def sign (cs : List Char) : List Char × Option Char :=
  (cs.takeWhile Symbol.isPlain,
    (cs.dropWhile Symbol.isPlain).head?.filter fun c => !isStop c)

/-- What can stand behind a type is not part of a word. -/
theorem isPlain_of_isStop {c : Char} (h : isStop c = true) : Symbol.isPlain c = false := by
  simp only [isStop, Bool.or_eq_true, beq_iff_eq] at h
  rcases h with (((rfl | rfl) | rfl) | rfl) | rfl <;> decide

/-- A word in front of something else is read as that word and the character behind it. -/
theorem sign_append {w r : List Char} (hw : ∀ c ∈ w, Symbol.isPlain c = true)
    (hr : ∀ c ∈ r.head?, Symbol.isPlain c = false) :
    sign (w ++ r) = (w, r.head?.filter fun c => !isStop c) := by
  -- what follows begins with no plain character, so the run of plain ones ends there
  have htake : r.takeWhile Symbol.isPlain = [] := by
    cases r with
    | nil => rfl
    | cons c r => rw [List.takeWhile_cons, hr c rfl]; rfl
  have hdrop : r.dropWhile Symbol.isPlain = r := by
    cases r with
    | nil => rfl
    | cons c r => rw [List.dropWhile_cons, hr c rfl]; rfl
  rw [sign, List.takeWhile_append_of_pos hw, List.dropWhile_append_of_pos hw, htake, hdrop,
    List.append_nil]

/-- A word that ends. -/
theorem sign_of_ends {w r : List Char} (hw : ∀ c ∈ w, Symbol.isPlain c = true) (hr : Ends r) :
    sign (w ++ r) = (w, none) := by
  rw [sign_append hw fun c hc => isPlain_of_isStop (hr c hc)]
  cases r with
  | nil => rfl
  | cons c r => simp [hr c rfl]

/-- A word in front of a character of another sort. -/
theorem sign_of_cons {w r : List Char} {c : Char} (hw : w.all Symbol.isPlain = true)
    (hplain : Symbol.isPlain c = false) (hstop : isStop c = false) :
    sign (w ++ c :: r) = (w, some c) := by
  rw [sign_append (List.all_eq_true.1 hw) (by simpa using hplain)]
  simp [hstop]

/-- Where a type has ended there is no sign. -/
theorem Ends.sign_eq {r : List Char} (h : Ends r) : sign r = ([], none) :=
  sign_of_ends (fun _ hc => absurd hc List.not_mem_nil) h

/-- A stop can stand behind a type, whatever follows. -/
theorem ends_cons {c : Char} {r : List Char} (h : isStop c = true) : Ends (c :: r) := by
  simpa [Ends] using h

end Text

open Text

/-! ## Clear names -/

/-- Whether the items of a set are called by clear names: plain words with colons in between, a
    different name for each item. Parameters are called by their positions. -/
structure Names.IsClear (names : Names) (P : ItemId → Prop) : Prop where
  spelled : ∀ i, P i → ∀ c ∈ (names.item i).toList, (Symbol.isPlain c || c == ':') = true
  crate : ∀ i, P i → ∃ w rest, (names.item i).toList = w ++ ':' :: rest ∧
    ∀ c ∈ w, Symbol.isPlain c = true
  inj : ∀ i j, P i → P j → names.item i = names.item j → i = j
  param : ∀ i, names.param i = Names.anonymousParam i

/-- The characters of a type as it is written. -/
def Ty.chars (names : Names) (t : Ty) : List Char := (t.text names).toList

/-- The characters of a slot as it is written. -/
def Arg.chars (names : Names) : Arg Ty → List Char
  | .ty t => t.chars names
  | .const c => (c.text names).toList

/-- The characters of slots with commas in between. -/
def Args.chars (names : Names) (as : Args) : List Char :=
  joinSegments [',', ' '] (as.map (Arg.chars names))

/-- Texts with commas in between are their characters joined by a comma and a blank. -/
theorem Text.toList_commas (ss : List String) :
    (commas ss).toList = joinSegments [',', ' '] (ss.map String.toList) := by
  induction ss with
  | nil => rfl
  | cons s ss ih =>
    -- a comma and a blank stand between two texts, and none behind the last
    cases ss with
    | nil => rfl
    | cons t ts =>
      rw [commas, join_cons_cons, ← commas, String.toList_append, String.toList_append, ih]
      rfl

namespace Ty

variable {names : Names}

/-- Types with commas in between are written as slots are. -/
theorem toList_commas_text (ts : List Ty) :
    (commas (ts.map (text names))).toList = Args.chars names (ts.map .ty) := by
  rw [toList_commas, List.map_map, Args.chars, List.map_map]
  rfl

/-- Arguments are written in angle brackets, and nothing is written where there are none. -/
theorem toList_argsText (as : Args) : (as.text names).toList =
    if as = [] then [] else '<' :: (Args.chars names as ++ ['>']) := by
  -- what stands between the brackets is written slot by slot
  have hslots : (as.map (Arg.map (text names))).map (String.toList ∘ Arg.text names) =
      as.map (Arg.chars names) := by
    rw [List.map_map]
    refine List.map_congr_left fun a _ => ?_
    cases a <;> rfl
  cases as with
  | nil => rfl
  | cons a as =>
    have htext : (Args.text names (a :: as)).toList =
        '<' :: ((commas (((a :: as).map (Arg.map (text names))).map (Arg.text names))).toList ++
          ['>']) := by
      rw [Args.text, List.map_cons, argsText]
      · simp
      · exact List.cons_ne_nil _ _
    rw [if_neg (List.cons_ne_nil _ _), htext, toList_commas, List.map_map, hslots, Args.chars]

/-- The characters of a type come from the texts of its parts. -/
theorem chars_of (n : TyNode Ty) :
    (of n).chars names = ((n.map (text names)).text names).toList := by
  rw [chars, text_of]

/-- A tuple is written in round brackets, with a comma behind a single part. -/
theorem chars_tuple (ts : List Ty) : (of (.tuple ts)).chars names =
    '(' :: (Args.chars names (ts.map .ty) ++ if ts.length = 1 then [',', ')'] else [')']) := by
  rw [chars_of, TyNode.map, TyNode.text, ← toList_commas_text]
  rcases ts with _ | ⟨t, _ | ⟨u, ts⟩⟩
  · simp [tupleText, commas]
  · simp [tupleText, commas]
  · simp [tupleText]

/-- An array is written in square brackets, with its length behind a semicolon. -/
theorem chars_array (t : Ty) (n : Const) : (of (.array t n)).chars names =
    '[' :: (t.chars names ++ ';' :: ' ' :: (Arg.chars names (.const n) ++ [']'])) := by
  rw [chars_of, TyNode.map, TyNode.text]
  simp [chars, Arg.chars]

/-- A wrapper is written around what it wraps. -/
theorem chars_wrap (w : Wrapper) (t : Ty) : (of (.wrap w t)).chars names =
    w.opening.toList ++ (t.chars names ++ w.closing.toList) := by
  rw [chars_of, TyNode.map, TyNode.text]
  simp [chars]

/-- An item's type is written by its mark, its name and its arguments. -/
theorem chars_nominal (k : Nominal) (i : ItemId) (as : Args) :
    (of (.nominal k i as)).chars names =
      k.opening.toList ++ ((names.item i).toList ++ (as.text names).toList) := by
  rw [chars_of, TyNode.map, TyNode.text]
  simp [Args.text]

/-- A trait object is written by the name of its trait. -/
theorem chars_dyn (i : ItemId) : (of (.dyn i)).chars names =
    'd' :: 'y' :: 'n' :: ' ' :: (names.item i).toList := by
  rw [chars_of, TyNode.map, TyNode.text]
  simp

/-- A function pointer is written by its inputs and its output. -/
theorem chars_fnPtr (ins : List Ty) (out : Ty) : (of (.fnPtr ins out)).chars names =
    'f' :: 'n' :: '(' :: (Args.chars names (ins.map .ty) ++
      ')' :: ' ' :: '-' :: '>' :: ' ' :: out.chars names) := by
  rw [chars_of, TyNode.map, TyNode.text, ← toList_commas_text]
  simp [chars]

end Ty

/-! ## What a slot begins with -/

/-- Whether a slot mentions only items of a set, and every parameter as one of the sort that its
    position has. -/
structure Arg.Sorted (P : ItemId → Prop) (sort : Nat → ParamKind) (a : Arg Ty) : Prop where
  items : ∀ i, .item i ∈ a.letters → P i
  sorts : ∀ m ∈ a.mentioned, m.1 = sort m.2

/-- What a layer begins with. -/
def TyNode.sign (names : Names) : TyNode Ty → List Char × Option Char
  | .prim p => if p = .never then ([], some '!') else (p.text.toList, none)
  | .tuple _ => ([], some '(')
  | .array _ _ | .wrap .slice _ => ([], some '[')
  | .wrap (.ref _) _ => ([], some '&')
  | .wrap (.raw _) _ => ([], some '*')
  | .wrap .box _ => (['B', 'o', 'x'], some '<')
  | .nominal .adt i _ => ((names.item i).toList.takeWhile Symbol.isPlain, some ':')
  | .nominal .fnDef _ _ => (['f', 'n'], some '-')
  | .nominal .closure _ _ => (['c', 'l', 'o', 's', 'u', 'r', 'e'], some '@')
  | .dyn _ => (['d', 'y', 'n'], some ' ')
  | .fnPtr _ _ => (['f', 'n'], some '(')
  | .param _ => ([], some '^')

/-- What a slot begins with. -/
def Arg.sign (names : Names) : Arg Ty → List Char × Option Char
  | .ty t => t.node.sign names
  | .const (.value n) => ((toString n).toList, none)
  | .const (.param _) => ([], some '^')

/-- Whether two layers begin alike. Arrays and slices do, and so do pointers of one sort. -/
inductive TyNode.Alike : TyNode Ty → TyNode Ty → Prop
  | prim (p : Prim) : Alike (.prim p) (.prim p)
  | tuple (ts us : List Ty) : Alike (.tuple ts) (.tuple us)
  | array_array (t u : Ty) (m n : Const) : Alike (.array t m) (.array u n)
  | array_slice (t u : Ty) (m : Const) : Alike (.array t m) (.wrap .slice u)
  | slice_array (t u : Ty) (n : Const) : Alike (.wrap .slice t) (.array u n)
  | wrap (w : Wrapper) (t u : Ty) : Alike (.wrap w t) (.wrap w u)
  | ref (l m : Mutability) (t u : Ty) : Alike (.wrap (.ref l) t) (.wrap (.ref m) u)
  | raw (l m : Mutability) (t u : Ty) : Alike (.wrap (.raw l) t) (.wrap (.raw m) u)
  | nominal (k : Nominal) (i j : ItemId) (as bs : Args) :
      Alike (.nominal k i as) (.nominal k j bs)
  | dyn (i j : ItemId) : Alike (.dyn i) (.dyn j)
  | fnPtr (ins ins' : List Ty) (out out' : Ty) : Alike (.fnPtr ins out) (.fnPtr ins' out')
  | param (i j : Nat) : Alike (.param i) (.param j)

/-- The built-in types have different names. -/
theorem Prim.text_inj {p q : Prim} (h : p.text.toList = q.text.toList) : p = q := by
  have hall : ∀ p ∈ all, ∀ q ∈ all, p.text = q.text → p = q := by decide +kernel
  exact hall p (mem_all p) q (mem_all q) (String.toList_inj.1 h)

/-- Only a built-in type is a word by itself. -/
theorem TyNode.exists_prim {names : Names} {n : TyNode Ty} (h : (n.sign names).2 = none) :
    ∃ p, n = .prim p ∧ p ≠ .never := by
  -- every other layer has a sign that ends the word
  rcases n with p | ts | ⟨t, c⟩ | ⟨_ | _ | _ | _, t⟩ | ⟨_ | _ | _, i, as⟩ | i | ⟨ins, out⟩ | i
  case prim =>
    refine ⟨p, rfl, ?_⟩
    rintro rfl
    exact absurd h nofun
  all_goals exact absurd h nofun

/-- No other layer begins like a built-in type. -/
theorem TyNode.eq_prim_of_sign_eq {names : Names} {p : Prim} {n : TyNode Ty}
    (h : n.sign names = (TyNode.prim p).sign names) : n = .prim p := by
  -- The never type is a mark and not a word, so it has to be taken by itself.
  by_cases hp : p = .never
  · subst hp
    rcases n with q | ts | ⟨t, c⟩ | ⟨_ | _ | _ | _, t⟩ | ⟨_ | _ | _, i, as⟩ | i | ⟨ins, out⟩ | i
    case prim =>
      by_cases hq : q = .never
      · rw [hq]
      · simp [sign, hq] at h
    all_goals simp [sign] at h
  · have hword : (TyNode.prim p).sign names = (p.text.toList, none) := if_neg hp
    obtain ⟨q, rfl, hq⟩ := exists_prim (congrArg Prod.snd (h.trans hword))
    rw [hword, sign, if_neg hq] at h
    rw [Prim.text_inj (Prod.mk.inj h).1]

/-- Layers that begin with one sign begin alike. -/
theorem TyNode.alike_of_sign_eq {names : Names} {n n' : TyNode Ty}
    (h : n.sign names = n'.sign names) : n.Alike n' := by
  -- built-in types come first, as their words are not spelled out in `sign`
  by_cases hn : ∃ p, n = .prim p
  · obtain ⟨p, rfl⟩ := hn
    rw [eq_prim_of_sign_eq h.symm]
    exact .prim p
  by_cases hn' : ∃ p, n' = .prim p
  · obtain ⟨p, rfl⟩ := hn'
    exact absurd ⟨p, eq_prim_of_sign_eq h⟩ hn
  rcases n with p | ts | ⟨t, c⟩ | ⟨_ | l | l | _, t⟩ | ⟨_ | _ | _, i, as⟩ | i | ⟨ins, out⟩ | i <;>
    rcases n' with q | us | ⟨u, d⟩ | ⟨_ | m | m | _, u⟩ | ⟨_ | _ | _, j, bs⟩ | j |
      ⟨ins', out'⟩ | j <;>
    first | exact absurd ⟨_, rfl⟩ hn | exact absurd ⟨_, rfl⟩ hn' | simp [TyNode.sign] at h
  all_goals constructor

/-! ## What stands behind a type -/

namespace Arg.Sorted

variable {P : ItemId → Prop} {sort : Nat → ParamKind} {n : TyNode Ty}

/-- The slots of a sorted type are sorted. -/
theorem slot (h : (Arg.ty (.of n)).Sorted P sort) {a : Arg Ty} (ha : a ∈ n.slots) :
    a.Sorted P sort where
  items i hi := h.items i ((Ty.letters_of_subset_iff.1 (List.Subset.refl _)).2 a ha hi)
  sorts m hm := h.sorts m (Ty.mem_mentions_of.2 (.inr ⟨a, ha, hm⟩))

/-- The item in front of a sorted type is one of the set. -/
theorem head (h : (Arg.ty (.of n)).Sorted P sort) {i : ItemId} (hi : .item i ∈ n.head) : P i :=
  h.items i ((Ty.letters_of_subset_iff.1 (List.Subset.refl _)).1 hi)

end Arg.Sorted

/-- A number is written by its decimal digits. -/
theorem toList_toString (n : Nat) : (toString n).toList = Nat.toDigits 10 n := by
  rw [Nat.toString_eq_ofList_toDigits, String.toList_ofList]

/-- A digit can be part of a word. -/
theorem isPlain_of_isDigit {c : Char} (h : c.isDigit = true) : Symbol.isPlain c = true := by
  simp only [Char.isDigit, Bool.and_eq_true, decide_eq_true_eq] at h
  have hlow : '0' ≤ c := h.1
  have hhigh : c ≤ '9' := h.2
  simp [Symbol.isPlain, hlow, hhigh]

/-- A number is written by digits alone. -/
theorem isDigit_of_mem_toString {n : Nat} {c : Char} (h : c ∈ (toString n).toList) :
    c.isDigit = true := by
  rw [toList_toString] at h
  exact Nat.isDigit_of_mem_toDigits (by decide) (by decide) h

/-- A number is written as a word. -/
theorem isPlain_of_mem_toString {n : Nat} {c : Char} (h : c ∈ (toString n).toList) :
    Symbol.isPlain c = true :=
  isPlain_of_isDigit (isDigit_of_mem_toString h)

/-- A number can be told from what stands behind it. -/
theorem toString_append_inj {m n : Nat} {r r' : List Char} (hr : Ends r) (hr' : Ends r')
    (h : (toString m).toList ++ r = (toString n).toList ++ r') : m = n ∧ r = r' := by
  -- the digits are a run that what follows does not go on
  obtain ⟨hdigits, hrest⟩ := append_inj_of_span (fun _ => isPlain_of_mem_toString)
    (fun c hc => isPlain_of_isStop (hr c hc)) (fun _ => isPlain_of_mem_toString)
    (fun c hc => isPlain_of_isStop (hr' c hc)) h
  rw [toList_toString, toList_toString] at hdigits
  rw [← Nat.ofDigitChars_ten_toDigits (n := m), hdigits, Nat.ofDigitChars_ten_toDigits]
  exact ⟨rfl, hrest⟩

/-- The name of a built-in type is a word. -/
theorem isPlain_of_mem_prim {p : Prim} (hp : p ≠ .never) :
    ∀ c ∈ p.text.toList, Symbol.isPlain c = true := by
  have hall : ∀ p ∈ Prim.all, p ≠ .never → p.text.toList.all Symbol.isPlain = true := by
    decide +kernel
  exact List.all_eq_true.1 (hall p p.mem_all hp)

variable {names : Names} {P : ItemId → Prop} {sort : Nat → ParamKind}

/-- A parameter is written by its position behind a mark. -/
theorem chars_param (hnames : names.IsClear P) (i : Nat) :
    (names.param i).toList = '^' :: (toString i).toList := by
  rw [hnames.param, Names.anonymousParam, String.toList_append]
  rfl

/-- A slot begins as its layer says, whatever stands behind it. -/
theorem sign_chars (hnames : names.IsClear P) {a : Arg Ty} (ha : a.Sorted P sort) {r : List Char}
    (hr : Ends r) : Text.sign (a.chars names ++ r) = a.sign names := by
  cases a with
  | const c =>
    cases c with
    | value n => exact sign_of_ends (fun _ => isPlain_of_mem_toString) hr
    | param i =>
      rw [Arg.chars, Const.text, chars_param hnames]
      exact sign_of_cons (w := []) rfl rfl rfl
  | ty t =>
    obtain ⟨n, rfl⟩ : ∃ n, t = .of n := ⟨t.node, t.of_node.symm⟩
    rw [Arg.sign, Ty.node_of, Arg.chars]
    rcases n with p | ts | ⟨t, c⟩ | ⟨_ | _ | _ | _, t⟩ | ⟨_ | _ | _, i, as⟩ | i | ⟨ins, out⟩ | i
    case prim =>
      have hchars : (Ty.of (.prim p)).chars names = p.text.toList := Ty.chars_of _
      rw [hchars]
      by_cases hp : p = .never
      · subst hp
        exact sign_of_cons (w := []) rfl rfl rfl
      · rw [TyNode.sign, if_neg hp]
        exact sign_of_ends (isPlain_of_mem_prim hp) hr
    case tuple =>
      rw [Ty.chars_tuple]
      exact sign_of_cons (w := []) rfl rfl rfl
    case array =>
      rw [Ty.chars_array]
      exact sign_of_cons (w := []) rfl rfl rfl
    case wrap.slice =>
      rw [Ty.chars_wrap]
      exact sign_of_cons (w := []) rfl rfl rfl
    case wrap.ref m =>
      rw [Ty.chars_wrap]
      cases m <;> exact sign_of_cons (w := []) rfl rfl rfl
    case wrap.raw m =>
      rw [Ty.chars_wrap]
      cases m <;> exact sign_of_cons (w := []) rfl rfl rfl
    case wrap.box =>
      rw [Ty.chars_wrap]
      exact sign_of_cons (w := ['B', 'o', 'x']) rfl rfl rfl
    case nominal.adt =>
      -- the word in front is the crate, and a colon follows
      obtain ⟨w, rest, hname, hw⟩ := hnames.crate i (ha.head List.mem_cons_self)
      have htake : (w ++ ':' :: rest).takeWhile Symbol.isPlain = w := by
        rw [List.takeWhile_append_of_pos hw, List.takeWhile_cons]
        exact List.append_nil w
      have hchars : (Ty.of (.nominal .adt i as)).chars names ++ r =
          w ++ ':' :: (rest ++ ((Args.text names as).toList ++ r)) := by
        rw [Ty.chars_nominal, hname]
        simp [Nominal.opening]
      rw [hchars, TyNode.sign, hname, htake]
      exact sign_of_cons (List.all_eq_true.2 hw) rfl rfl
    case nominal.fnDef =>
      rw [Ty.chars_nominal]
      exact sign_of_cons (w := ['f', 'n']) rfl rfl rfl
    case nominal.closure =>
      rw [Ty.chars_nominal]
      exact sign_of_cons (w := ['c', 'l', 'o', 's', 'u', 'r', 'e']) rfl rfl rfl
    case dyn =>
      rw [Ty.chars_dyn]
      exact sign_of_cons (w := ['d', 'y', 'n']) rfl rfl rfl
    case fnPtr =>
      rw [Ty.chars_fnPtr]
      exact sign_of_cons (w := ['f', 'n']) rfl rfl rfl
    case param =>
      rw [Ty.chars_of, TyNode.map, TyNode.text, chars_param hnames]
      exact sign_of_cons (w := []) rfl rfl rfl

/-- No type begins with the word for the right to write. -/
theorem TyNode.sign_ne_mut (n : TyNode Ty) : n.sign names ≠ (['m', 'u', 't'], some ' ') := by
  rcases n with p | ts | ⟨t, c⟩ | ⟨_ | _ | _ | _, t⟩ | ⟨_ | _ | _, i, as⟩ | i | ⟨ins, out⟩ | i
  case prim =>
    rw [TyNode.sign]
    split <;> simp
  all_goals simp [TyNode.sign]

/-- Only a parameter begins like one. -/
theorem TyNode.exists_param {n : TyNode Ty} (h : n.sign names = ([], some '^')) :
    ∃ i, n = .param i := by
  -- every other layer begins in another way
  rcases n with p | ts | ⟨t, c⟩ | ⟨_ | _ | _ | _, t⟩ | ⟨_ | _ | _, i, as⟩ | i | ⟨ins, out⟩ | i
  case param => exact ⟨i, rfl⟩
  case prim =>
    rw [TyNode.sign] at h
    split at h <;> simp at h
  all_goals simp [TyNode.sign] at h

/-- A word that is a type is no number. -/
theorem exists_not_isDigit {n : TyNode Ty} (h : (n.sign names).2 = none) :
    ∃ c ∈ (n.sign names).1, c.isDigit = false := by
  have hall : ∀ p ∈ Prim.all, p.text.toList.any (!Char.isDigit ·) = true := by decide +kernel
  obtain ⟨p, rfl, hp⟩ := TyNode.exists_prim h
  rw [TyNode.sign, if_neg hp]
  simpa using hall p p.mem_all

/-- A number is not written like a type. -/
theorem Arg.sign_const_ne (m : Nat) (t : Ty) :
    (Arg.const (.value m)).sign names ≠ (Arg.ty t).sign names := by
  intro h
  -- a digit is at most a constant's, and some character of a type's word is none
  obtain ⟨c, hc, hdigit⟩ := exists_not_isDigit (congrArg Prod.snd h).symm
  have hword : (toString m).toList = (t.node.sign names).1 := congrArg Prod.fst h
  rw [← hword] at hc
  rw [isDigit_of_mem_toString hc] at hdigit
  cases hdigit

/-- A slot does not begin like what can stand behind one. -/
theorem Arg.sign_ne (a : Arg Ty) : a.sign names ≠ ([], none) := by
  -- A constant has a digit or a mark; a type has a word or, failing that, a character behind it.
  match a with
  | .const (.param i) => exact nofun
  | .const (.value n) =>
    intro h
    have hdigits : (toString n).toList = [] := congrArg Prod.fst h
    rw [toList_toString] at hdigits
    exact Nat.toDigits_ne_nil hdigits
  | .ty t =>
    intro h
    obtain ⟨c, hc, -⟩ := exists_not_isDigit (congrArg Prod.snd h)
    have hword : (t.node.sign names).1 = [] := congrArg Prod.fst h
    rw [hword] at hc
    exact List.not_mem_nil hc

/-- Slots that begin equal texts have the same sign. -/
theorem Arg.sign_eq_of_chars_eq (hnames : names.IsClear P) {a b : Arg Ty} {r r' : List Char}
    (ha : a.Sorted P sort) (hb : b.Sorted P sort) (hr : Ends r) (hr' : Ends r')
    (h : a.chars names ++ r = b.chars names ++ r') : a.sign names = b.sign names := by
  rw [← sign_chars hnames ha hr, ← sign_chars hnames hb hr', h]

end Monomorph
