import Monomorph.Proofs.Closed
import Monomorph.Proofs.Signs

/-!
# Written arguments can be read back

The hash in a symbol is a hash of written arguments, so different arguments must be written
differently. They are, as long as crates and paths are called by plain names and no position is
mentioned both as a type and as a constant. The proof reads two equal texts side by side, with
whatever may follow (`Arg.Reads`): what begins them tells which sort of slot they begin with, and
where its parts end can be told from what closes them (`TyNode.Reads`).
-/

namespace Monomorph

open Text

variable {names : Names} {P : ItemId → Prop} {sort : Nat → ParamKind}

/-! ## Reading slots -/

/-- Whether two slots that begin equal texts are equal, and the texts behind them too. -/
def Arg.Reads (names : Names) (P : ItemId → Prop) (sort : Nat → ParamKind) (a : Arg Ty) : Prop :=
  ∀ b r r', b.Sorted P sort → Ends r → Ends r' → a.chars names ++ r = b.chars names ++ r' →
    a = b ∧ r = r'

/-- Whether a text can stand behind the last of several slots. -/
def Text.Closes (r : List Char) : Prop := Ends r ∧ r.take 2 ≠ [',', ' ']

/-- What stands behind the first of several slots. -/
def Args.rest (names : Names) : Args → List Char
  | [] => []
  | as => ',' :: ' ' :: Args.chars names as

/-- The first slot is written in front of the rest. -/
theorem Args.chars_cons (a : Arg Ty) (as : Args) :
    Args.chars names (a :: as) = a.chars names ++ Args.rest names as := by
  cases as with
  | nil => exact (List.append_nil _).symm
  | cons b bs =>
    simp [Args.chars, joinSegments, Args.rest]

/-- What is written behind a slot can stand there. -/
theorem Args.rest_ends (as : Args) {r : List Char} (hr : Ends r) :
    Ends (Args.rest names as ++ r) := by
  cases as with
  | nil => exact hr
  | cons a as => exact ends_cons (by decide)

/-- Equal texts begin with equal slots, and both texts go on alike: slot by slot, what stands
    between them and what closes the list can be told apart. -/
theorem Args.reads (hnames : names.IsClear P) {as bs : Args} {r r' : List Char}
    (has : ∀ a ∈ as, a.Sorted P sort ∧ a.Reads names P sort) (hbs : ∀ b ∈ bs, b.Sorted P sort)
    (hr : Closes r) (hr' : Closes r')
    (h : Args.chars names as ++ r = Args.chars names bs ++ r') : as = bs ∧ r = r' := by
  -- a list that is closed at once does not begin like one with slots
  have hstart : ∀ {a : Arg Ty} {as : Args} {r r' : List Char}, a.Sorted P sort → Ends r → Ends r' →
      r' ≠ Args.chars names (a :: as) ++ r := by
    intro a as r r' ha hr hr' h
    rw [chars_cons, List.append_assoc] at h
    have hsign := congrArg Text.sign h
    rw [sign_chars hnames ha (rest_ends as hr), hr'.sign_eq] at hsign
    exact Arg.sign_ne a hsign.symm
  -- slot by slot: a slot is read with all that is still to come behind it
  induction as generalizing bs with
  | nil =>
    cases bs with
    | nil => exact ⟨rfl, h⟩
    | cons b bs => exact absurd h (hstart (hbs b List.mem_cons_self) hr'.1 hr.1)
  | cons a as ih =>
    obtain ⟨⟨ha, hread⟩, has⟩ := List.forall_mem_cons.1 has
    cases bs with
    | nil => exact absurd h.symm (hstart ha hr.1 hr'.1)
    | cons b bs =>
      obtain ⟨hb, hall⟩ := List.forall_mem_cons.1 hbs
      rw [chars_cons, chars_cons, List.append_assoc, List.append_assoc] at h
      obtain ⟨rfl, hrest⟩ := hread b _ _ hb (rest_ends as hr.1) (rest_ends bs hr'.1) h
      -- a comma goes on with the list, and what closes it is no comma with a space
      cases as with
      | nil =>
        cases bs with
        | nil => exact ⟨rfl, hrest⟩
        | cons c bs => exact absurd (congrArg (List.take 2) hrest) hr.2
      | cons c as =>
        cases bs with
        | nil => exact absurd (congrArg (List.take 2) hrest).symm hr'.2
        | cons d bs =>
          simp only [rest, List.cons_append, List.cons.injEq, true_and] at hrest
          obtain ⟨hargs, rfl⟩ := ih has hall hrest
          rw [hargs]
          exact ⟨rfl, rfl⟩

/-- A name can be told from what stands behind it. -/
theorem Names.IsClear.append_inj (hnames : names.IsClear P) {i j : ItemId} (hi : P i) (hj : P j)
    {r r' : List Char} (hr : Ends r ∨ ∃ s, r = '<' :: s) (hr' : Ends r' ∨ ∃ s, r' = '<' :: s)
    (h : (names.item i).toList ++ r = (names.item j).toList ++ r') : i = j ∧ r = r' := by
  have hhead : ∀ {r : List Char}, (Ends r ∨ ∃ s, r = '<' :: s) →
      ∀ c ∈ r.head?, (Symbol.isPlain c || c == ':') = false := by
    rintro r (hr | ⟨s, rfl⟩) c hc
    · have hstop := hr c hc
      rw [isPlain_of_isStop hstop, Bool.false_or, beq_eq_false_iff_ne]
      rintro rfl
      exact absurd hstop (by decide)
    · obtain rfl := Option.some.inj hc
      decide
  -- Names are made of plain characters and colons, and neither ends nor brackets are.
  obtain ⟨hname, hrest⟩ := append_inj_of_span (hnames.spelled i hi) (hhead hr)
    (hnames.spelled j hj) (hhead hr') h
  exact ⟨hnames.inj i j hi hj (String.toList_inj.1 hname), hrest⟩

/-- An argument list can be told from what stands behind it. -/
theorem Args.reads_text (hnames : names.IsClear P) {as bs : Args} {r r' : List Char}
    (has : ∀ a ∈ as, a.Sorted P sort ∧ a.Reads names P sort) (hbs : ∀ b ∈ bs, b.Sorted P sort)
    (hr : Ends r) (hr' : Ends r')
    (h : (as.text names).toList ++ r = (bs.text names).toList ++ r') : as = bs ∧ r = r' := by
  have hopen : ∀ {r s : List Char}, Ends r → r ≠ '<' :: s := by
    rintro _ s hr rfl
    exact absurd (hr '<' rfl) (by decide)
  have hclose : ∀ {r : List Char}, Closes ('>' :: r) := fun {r} => ⟨ends_cons (by decide), by simp⟩
  rw [Ty.toList_argsText, Ty.toList_argsText] at h
  -- Without arguments the text has ended, and with some a bracket opens; the two differ.
  by_cases ha : as = [] <;> by_cases hb : bs = []
  · rw [if_pos ha, if_pos hb] at h
    exact ⟨ha.trans hb.symm, h⟩
  · rw [if_pos ha, if_neg hb] at h
    exact absurd h (hopen hr)
  · rw [if_neg ha, if_pos hb] at h
    exact absurd h.symm (hopen hr')
  · rw [if_neg ha, if_neg hb] at h
    simp only [List.cons_append, List.append_assoc, List.cons.injEq, true_and, List.nil_append] at h
    obtain ⟨hargs, hrest⟩ := reads hnames has hbs hclose hclose h
    exact ⟨hargs, (List.cons.inj hrest).2⟩

/-- Types are told from the slots they fill. -/
theorem Args.map_ty_inj {ts us : List Ty} (h : ts.map Arg.ty = us.map Arg.ty) : ts = us :=
  List.map_injective_iff.2 (fun _ _ => Arg.ty.inj) h

/-- A constant can be read back. -/
theorem Arg.reads_const (hnames : names.IsClear P) {c : Const} (hc : (Arg.const c).Sorted P sort) :
    (Arg.const c).Reads names P sort := by
  intro b r r' hb hr hr' h
  have hsign := sign_eq_of_chars_eq hnames hc hb hr hr' h
  rcases c with m | i <;> rcases b with u | n | j
  case value.ty => exact absurd hsign (Arg.sign_const_ne m u)
  case value.const.value =>
    obtain ⟨rfl, rfl⟩ := toString_append_inj hr hr' h
    exact ⟨rfl, rfl⟩
  case value.const.param => exact absurd (congrArg Prod.snd hsign) (Option.some_ne_none _).symm
  case param.const.value => exact absurd (congrArg Prod.snd hsign) (Option.some_ne_none _)
  case param.const.param =>
    rw [Arg.chars, Arg.chars, Const.text, Const.text, chars_param hnames, chars_param hnames] at h
    obtain ⟨rfl, rfl⟩ := toString_append_inj hr hr' (List.cons.inj h).2
    exact ⟨rfl, rfl⟩
  case param.ty =>
    -- one position would be a type and a constant
    obtain ⟨j, hu⟩ := TyNode.exists_param hsign.symm
    obtain rfl : u = .of (.param j) := by rw [← hu, Ty.of_node]
    rw [Arg.chars, Arg.chars, Const.text, Ty.chars_of, TyNode.map, TyNode.text,
      chars_param hnames, chars_param hnames] at h
    obtain ⟨rfl, -⟩ := toString_append_inj hr hr' (List.cons.inj h).2
    have hconst := hc.sorts (.const, i) List.mem_cons_self
    have htype := hb.sorts (.type, i) List.mem_cons_self
    have hsame : ParamKind.const = .type := hconst.trans htype.symm
    cases hsame

/-! ## Reading layers -/

/-- A type at which a text is read, with what stands behind it. -/
theorem Arg.Reads.ty_inj {t u : Ty} (ht : (Arg.ty t).Reads names P sort)
    (hu : (Arg.ty u).Sorted P sort) {r r' : List Char} (hr : Ends r) (hr' : Ends r')
    (h : t.chars names ++ r = u.chars names ++ r') : t = u ∧ r = r' := by
  obtain ⟨htu, hrest⟩ := ht (.ty u) r r' hu hr hr' h
  exact ⟨Arg.ty.inj htu, hrest⟩

/-- Types that are closed by different characters are written differently. -/
theorem Arg.Reads.ty_ne {t u : Ty} (ht : (Arg.ty t).Reads names P sort)
    (hu : (Arg.ty u).Sorted P sort) {c d : Char} (hc : isStop c = true) (hd : isStop d = true)
    (hne : c ≠ d) {r r' : List Char} : t.chars names ++ c :: r ≠ u.chars names ++ d :: r' := by
  intro h
  obtain ⟨-, hrest⟩ := ht.ty_inj hu (ends_cons hc) (ends_cons hd) h
  exact hne (List.cons.inj hrest).1

/-- Whether two layers that begin equal texts are equal, and the texts behind them too. -/
def TyNode.Reads (names : Names) (n n' : TyNode Ty) : Prop :=
  ∀ r r', Ends r → Ends r' → (Ty.of n).chars names ++ r = (Ty.of n').chars names ++ r' →
    n = n' ∧ r = r'

namespace TyNode

/-- Reading does not tell which layer comes first. -/
theorem Reads.symm {n n' : TyNode Ty} (h : n.Reads names n') : n'.Reads names n := by
  intro r r' hr hr' heq
  obtain ⟨hn, hrest⟩ := h r' r hr' hr heq.symm
  exact ⟨hn.symm, hrest.symm⟩

/-- A parameter can be read back. -/
theorem reads_param (hnames : names.IsClear P) (i j : Nat) :
    (param i).Reads names (param j) := by
  intro r r' hr hr' h
  rw [Ty.chars_of, Ty.chars_of, map, map, text, text, chars_param hnames, chars_param hnames] at h
  obtain ⟨rfl, rfl⟩ := toString_append_inj hr hr' (List.cons.inj h).2
  exact ⟨rfl, rfl⟩

/-- What is wrapped can be read back. -/
theorem reads_wrap {t u : Ty} (ht : (Arg.ty t).Reads names P sort)
    (hu : (Arg.ty u).Sorted P sort) (w : Wrapper) : (wrap w t).Reads names (wrap w u) := by
  intro r r' hr hr' h
  -- what closes the wrapper ends the written form of the type inside
  have hends : ∀ {r : List Char}, Ends r → Ends (w.closing.toList ++ r) := by
    intro r hr
    cases w <;> first | exact hr | exact ends_cons (by decide)
  rw [Ty.chars_wrap, Ty.chars_wrap] at h
  simp only [List.append_assoc, List.append_right_inj] at h
  obtain ⟨rfl, hrest⟩ := ht.ty_inj hu (hends hr) (hends hr') h
  exact ⟨rfl, List.append_cancel_left hrest⟩

/-- An array can be read back. -/
theorem reads_array {t u : Ty} {m n : Const} (ht : (Arg.ty t).Reads names P sort)
    (hu : (Arg.ty u).Sorted P sort) (hm : (Arg.const m).Reads names P sort)
    (hn : (Arg.const n).Sorted P sort) : (array t m).Reads names (array u n) := by
  intro r r' _ _ h
  rw [Ty.chars_array, Ty.chars_array] at h
  simp only [List.cons_append, List.append_assoc, List.cons.injEq, true_and] at h
  obtain ⟨rfl, hrest⟩ := ht.ty_inj hu (ends_cons (by decide)) (ends_cons (by decide)) h
  -- the element ends at the semicolon, and the length at the bracket
  simp only [List.cons.injEq, true_and] at hrest
  obtain ⟨hlen, hrest⟩ := hm _ _ _ hn (ends_cons (by decide)) (ends_cons (by decide)) hrest
  obtain rfl := Arg.const.inj hlen
  exact ⟨rfl, (List.cons.inj (List.append_cancel_left hrest)).2⟩

/-- An array is told from a slice by what closes the type of its elements. -/
theorem reads_array_slice {t u : Ty} {m : Const} (ht : (Arg.ty t).Reads names P sort)
    (hu : (Arg.ty u).Sorted P sort) : (array t m).Reads names (wrap .slice u) := by
  intro r r' _ _ h
  rw [Ty.chars_array, Ty.chars_wrap] at h
  simp only [List.cons_append, List.append_assoc] at h
  exact absurd (List.cons.inj h).2 (ht.ty_ne hu (by decide) (by decide) (by decide))

/-- A slice is told from an array by what closes it. -/
theorem reads_slice_array {t u : Ty} {n : Const} (ht : (Arg.ty t).Reads names P sort)
    (hu : (Arg.ty u).Sorted P sort) : (wrap .slice t).Reads names (array u n) := by
  intro r r' _ _ h
  rw [Ty.chars_array, Ty.chars_wrap] at h
  simp only [List.cons_append, List.append_assoc] at h
  exact absurd (List.cons.inj h).2 (ht.ty_ne hu (by decide) (by decide) (by decide))

/-- What stands behind the mark of a shared pointer is no word for the right to write. -/
theorem reads_shared_exclusive (hnames : names.IsClear P) {t u : Ty}
    (ht : (Arg.ty t).Sorted P sort) :
    (wrap (.ref .shared) t).Reads names (wrap (.ref .exclusive) u) := by
  intro r r' hr _ h
  rw [Ty.chars_wrap, Ty.chars_wrap] at h
  simp only [List.append_assoc] at h
  have hchars : t.chars names ++ r = ['m', 'u', 't', ' '] ++ (u.chars names ++ r') :=
    (List.cons.inj h).2
  -- What is behind the shared mark would have to begin as the other mark goes on, and no type does.
  have hsign := sign_chars hnames ht hr
  rw [Arg.chars, hchars] at hsign
  exact absurd (hsign.symm.trans
    (sign_of_cons (w := ['m', 'u', 't']) rfl rfl rfl))
    (sign_ne_mut t.node)

/-- A reference can be read back. -/
theorem reads_ref (hnames : names.IsClear P) {t u : Ty} (ht : (Arg.ty t).Sorted P sort)
    (hread : (Arg.ty t).Reads names P sort) (hu : (Arg.ty u).Sorted P sort)
    (l m : Mutability) : (wrap (.ref l) t).Reads names (wrap (.ref m) u) := by
  cases l <;> cases m
  case shared.shared => exact reads_wrap hread hu _
  case exclusive.exclusive => exact reads_wrap hread hu _
  case shared.exclusive => exact reads_shared_exclusive hnames ht
  case exclusive.shared => exact (reads_shared_exclusive hnames hu).symm

/-- A raw pointer can be read back. -/
theorem reads_raw {t u : Ty} (ht : (Arg.ty t).Reads names P sort)
    (hu : (Arg.ty u).Sorted P sort) (l m : Mutability) :
    (wrap (.raw l) t).Reads names (wrap (.raw m) u) := by
  -- of two raw pointers to one type, only the words tell which may be written through
  cases l <;> cases m
  case shared.shared => exact reads_wrap ht hu _
  case exclusive.exclusive => exact reads_wrap ht hu _
  all_goals
    intro r r' _ _ h
    rw [Ty.chars_wrap, Ty.chars_wrap] at h
    simp [Wrapper.opening] at h

/-- A tuple can be read back. -/
theorem reads_tuple (hnames : names.IsClear P) {ts us : List Ty}
    (hts : ∀ a ∈ ts.map Arg.ty, a.Sorted P sort ∧ a.Reads names P sort)
    (hus : ∀ b ∈ us.map Arg.ty, b.Sorted P sort) : (tuple ts).Reads names (tuple us) := by
  intro r r' _ _ h
  -- a tuple of one element has a comma more before it closes
  have hcloses : ∀ (ts : List Ty) {r : List Char},
      Closes ((if ts.length = 1 then [',', ')'] else [')']) ++ r) := by
    intro ts r
    split <;> exact ⟨ends_cons (by decide), by simp⟩
  rw [Ty.chars_tuple, Ty.chars_tuple] at h
  simp only [List.cons_append, List.append_assoc, List.cons.injEq, true_and] at h
  obtain ⟨heq, hrest⟩ := Args.reads hnames hts hus (hcloses ts) (hcloses us) h
  obtain rfl := Args.map_ty_inj heq
  exact ⟨rfl, List.append_cancel_left hrest⟩

/-- An item's type can be read back. -/
theorem reads_nominal (hnames : names.IsClear P) (k : Nominal) {i j : ItemId} {as bs : Args}
    (hi : P i) (hj : P j) (has : ∀ a ∈ as, a.Sorted P sort ∧ a.Reads names P sort)
    (hbs : ∀ b ∈ bs, b.Sorted P sort) : (nominal k i as).Reads names (nominal k j bs) := by
  intro r r' hr hr' h
  have hbehind : ∀ {as : Args} {r : List Char}, Ends r →
      Ends ((as.text names).toList ++ r) ∨ ∃ s, (as.text names).toList ++ r = '<' :: s := by
    intro as r hr
    rw [Ty.toList_argsText]
    split
    · exact .inl hr
    · exact .inr ⟨_, rfl⟩
  rw [Ty.chars_nominal, Ty.chars_nominal] at h
  simp only [List.append_assoc, List.append_right_inj] at h
  -- The name is read first, then the arguments behind it.
  obtain ⟨rfl, hrest⟩ := hnames.append_inj hi hj (hbehind hr) (hbehind hr') h
  obtain ⟨rfl, rfl⟩ := Args.reads_text hnames has hbs hr hr' hrest
  exact ⟨rfl, rfl⟩

/-- A trait object can be read back. -/
theorem reads_dyn (hnames : names.IsClear P) {i j : ItemId} (hi : P i) (hj : P j) :
    (dyn i).Reads names (dyn j) := by
  intro r r' hr hr' h
  rw [Ty.chars_dyn, Ty.chars_dyn] at h
  simp only [List.cons_append, List.cons.injEq, true_and] at h
  obtain ⟨rfl, hrest⟩ := hnames.append_inj hi hj (.inl hr) (.inl hr') h
  exact ⟨rfl, hrest⟩

/-- A function pointer can be read back. -/
theorem reads_fnPtr (hnames : names.IsClear P) {ins ins' : List Ty} {out out' : Ty}
    (hins : ∀ a ∈ ins.map Arg.ty, a.Sorted P sort ∧ a.Reads names P sort)
    (hins' : ∀ b ∈ ins'.map Arg.ty, b.Sorted P sort) (hout : (Arg.ty out).Reads names P sort)
    (hout' : (Arg.ty out').Sorted P sort) : (fnPtr ins out).Reads names (fnPtr ins' out') := by
  intro r r' hr hr' h
  have hcloses : ∀ {r : List Char}, Closes (')' :: r) := fun {r} =>
    ⟨ends_cons (by decide), by simp⟩
  rw [Ty.chars_fnPtr, Ty.chars_fnPtr] at h
  simp only [List.cons_append, List.append_assoc, List.cons.injEq, true_and] at h
  -- The inputs are read up to the bracket that closes them, and the output behind the arrow.
  obtain ⟨heq, hrest⟩ := Args.reads hnames hins hins' hcloses hcloses h
  obtain rfl := Args.map_ty_inj heq
  simp only [List.cons.injEq, true_and] at hrest
  obtain ⟨rfl, rfl⟩ := hout.ty_inj hout' hr hr' hrest
  exact ⟨rfl, rfl⟩

/-- Layers that begin alike can be told apart if their slots can be read back. -/
theorem Alike.reads (hnames : names.IsClear P) {n n' : TyNode Ty} (halike : n.Alike n')
    (hn : (Arg.ty (.of n)).Sorted P sort) (hn' : (Arg.ty (.of n')).Sorted P sort)
    (ih : ∀ a ∈ n.slots, a.Reads names P sort) : n.Reads names n' := by
  have hslots : ∀ a ∈ n.slots, a.Sorted P sort ∧ a.Reads names P sort :=
    fun a ha => ⟨hn.slot ha, ih a ha⟩
  have hslots' : ∀ b ∈ n'.slots, b.Sorted P sort := fun b hb => hn'.slot hb
  -- One lemma for each way in which layers can begin alike.
  cases halike with
  | prim p => exact fun _ _ _ _ h => ⟨rfl, List.append_cancel_left h⟩
  | tuple ts us => exact reads_tuple hnames hslots hslots'
  | array_array t u m n =>
    exact reads_array (ih _ (by simp [slots])) (hslots' _ (by simp [slots]))
      (ih _ (by simp [slots])) (hslots' _ (by simp [slots]))
  | array_slice t u m =>
    exact reads_array_slice (ih _ (by simp [slots])) (hslots' _ (by simp [slots]))
  | slice_array t u n =>
    exact reads_slice_array (ih _ (by simp [slots])) (hslots' _ (by simp [slots]))
  | wrap w t u => exact reads_wrap (ih _ (by simp [slots])) (hslots' _ (by simp [slots])) w
  | ref l m t u =>
    obtain ⟨ht, hread⟩ := hslots (.ty t) (by simp [slots])
    exact reads_ref hnames ht hread (hslots' _ (by simp [slots])) l m
  | raw l m t u => exact reads_raw (ih _ (by simp [slots])) (hslots' _ (by simp [slots])) l m
  | nominal k i j as bs =>
    exact reads_nominal hnames k (hn.head List.mem_cons_self) (hn'.head List.mem_cons_self)
      hslots hslots'
  | dyn i j => exact reads_dyn hnames (hn.head List.mem_cons_self) (hn'.head List.mem_cons_self)
  | fnPtr ins ins' out out' =>
    exact reads_fnPtr hnames (fun a ha => hslots a (List.mem_append_left _ ha))
      (fun b hb => hslots' b (List.mem_append_left _ hb)) (ih _ (by simp [slots]))
      (hslots' _ (by simp [slots]))
  | param i j => exact reads_param hnames i j

end TyNode

/-! ## Reading arguments -/

/-- Every slot can be read back if each position has a known sort. -/
theorem Arg.Sorted.reads (hnames : names.IsClear P) {a : Arg Ty} (ha : a.Sorted P sort) :
    a.Reads names P sort := by
  cases a with
  | const c => exact Arg.reads_const hnames ha
  | ty t =>
    induction t using Ty.ind with
    | layer n ih =>
      intro b r r' hb hr hr' h
      cases b with
      | const d =>
        have hread := Arg.reads_const hnames hb (.ty (.of n)) r' r ha hr' hr h.symm
        exact absurd hread.1 nofun
      | ty u =>
        -- The texts begin alike, so the layers do, and the slots are read by induction.
        have hsign := sign_eq_of_chars_eq hnames ha hb hr hr' h
        obtain ⟨n', rfl⟩ : ∃ n', u = .of n' := ⟨u.node, u.of_node.symm⟩
        rw [Arg.sign, Arg.sign, Ty.node_of, Ty.node_of] at hsign
        have hslots : ∀ a ∈ n.slots, a.Reads names P sort := by
          intro a hslot
          have hground := ha.slot hslot
          cases a with
          | ty t => exact ih t hslot hground
          | const c => exact Arg.reads_const hnames hground
        obtain ⟨rfl, hrest⟩ :=
          (TyNode.alike_of_sign_eq hsign).reads hnames ha hb hslots r r' hr hr' h
        exact ⟨rfl, hrest⟩

/-- Different arguments are written differently. -/
theorem Args.text_inj (hnames : names.IsClear P) {as bs : Args} (has : ∀ a ∈ as, a.Sorted P sort)
    (hbs : ∀ b ∈ bs, b.Sorted P sort) (h : as.text names = bs.text names) : as = bs := by
  have hends : Ends [] := nofun
  have htext : (as.text names).toList ++ [] = (bs.text names).toList ++ [] := by rw [h]
  exact (reads_text hnames (fun a ha => ⟨has a ha, (has a ha).reads hnames⟩) hbs hends hends
    htext).1

end Monomorph
