import Mathlib.Logic.Relation
import Monomorph.Proofs.Substitution
import Monomorph.Ty.Match

/-!
# Matching solves an equation

Matching a pattern against a type looks for arguments that turn the pattern into the type. The
bindings that it has at some point stand for all the argument lists that agree with them
(`Binds.Within`), and one step of matching keeps of these just those that solve the equation of the
step (`Binds.Solves`). At the end either every parameter is bound and one list is left, or a
parameter does not occur in the pattern (`Ty.IsPattern.matchArgs_eq_some_iff`).

A pattern is taken apart one layer at a time (`Ty.match?_step`), just as a substitution puts one
together. The type of a function or closure is not taken apart, so it must not mention a parameter
(`Ty.IsPattern`).
-/

namespace Monomorph

/-! ## One layer -/

/-- Matches a slot against a slot of its sort. -/
def Arg.match? : Arg Ty → Arg Ty → Binds → Option Binds
  | .ty p, .ty t, binds => p.match? t binds
  | .const p, .const c, binds => p.match? c binds
  | _, _, _ => none

/-- Matches argument lists of equal length, one slot after the other. -/
def Args.match? : Args → Args → Binds → Option Binds
  | [], [], binds => some binds
  | a :: as, b :: bs, binds => (a.match? b binds).bind (match? as bs)
  | _, _, _ => none

/-- Matching the last slots comes last. -/
theorem Args.match?_concat (as bs : Args) (a b : Arg Ty) (binds : Binds) :
    Args.match? (as ++ [a]) (bs ++ [b]) binds = (Args.match? as bs binds).bind (a.match? b) := by
  -- Both lists have to end at one place, or neither side matches.
  induction as generalizing bs binds with
  | nil =>
    cases bs with
    | nil => cases h : a.match? b binds <;> simp [match?, h]
    | cons b' bs => cases a.match? b' binds <;> cases bs <;> simp [match?]
  | cons a' as ih =>
    cases bs with
    | nil => cases a'.match? b binds <;> cases as <;> simp [match?]
    | cons b' bs =>
      show (a'.match? b' binds).bind (match? (as ++ [a]) (bs ++ [b])) =
        ((a'.match? b' binds).bind (match? as bs)).bind (a.match? b)
      rw [Option.bind_assoc, funext (ih bs)]

/-- Nested arguments are matched slot by slot. -/
theorem Slots.match?_ofList (as bs : Args) (binds : Binds) :
    (Slots.ofList as).match? (.ofList bs) binds = Args.match? as bs binds := by
  induction as generalizing bs binds with
  | nil => rcases bs with _ | ⟨_ | _, _⟩ <;> rfl
  | cons a as ih =>
    cases a <;> rcases bs with _ | ⟨_ | _, _⟩ <;>
      simp [Slots.ofList, Slots.match?, Args.match?, Arg.match?, ih]

/-- Nested types are matched type by type. -/
theorem Tys.match?_ofList (ps ts : List Ty) (binds : Binds) :
    (Tys.ofList ps).match? (.ofList ts) binds =
      Args.match? (ps.map .ty) (ts.map .ty) binds := by
  induction ps generalizing ts binds with
  | nil => cases ts <;> rfl
  | cons p ps ih => cases ts <;> simp [Tys.ofList, Tys.match?, Args.match?, Arg.match?, ih]

/-- Whether a pattern with this layer on top is taken apart. -/
def TyNode.Splits {α : Type} : TyNode α → Prop
  | tuple _ | array _ _ | wrap _ _ | nominal .adt _ _ | fnPtr _ _ => True
  | _ => False

namespace Ty

variable {n n' : TyNode Ty} {binds : Binds}

/-- A type has no parameters exactly where it mentions none. -/
theorem hasParams_eq_false_iff {t : Ty} : t.hasParams = false ↔ t.mentions = [] := by
  rw [Bool.eq_false_iff, Ne, hasParams_iff_mentions_ne_nil, not_not]

/-- What matching a layer against a type comes to: a parameter is bound, a type that mentions
    nothing matches itself, a layer that is taken apart matches one of its kind if the slots do, and
    nothing else matches. -/
inductive MatchStep (binds : Binds) : TyNode Ty → Ty → Option Binds → Prop
  | param (i : Nat) (t : Ty) : MatchStep binds (.param i) t (binds.bind? i (.ty t))
  | same {n : TyNode Ty} (hn : ∀ i, n ≠ .param i) (hclosed : (of n).hasParams = false) :
    MatchStep binds n (of n) (some binds)
  | split {n n' : TyNode Ty} (hn : ∀ i, n ≠ .param i) (hsplits : n.Splits)
    (hhead : n.SameHead n') : MatchStep binds n (of n') (Args.match? n.slots n'.slots binds)
  | apart {n n' : TyNode Ty} (hn : ∀ i, n ≠ .param i)
    (hself : ¬ ((of n).hasParams = false ∧ n = n')) (hapart : ¬ (n.Splits ∧ n.SameHead n')) :
    MatchStep binds n (of n') none

/-- A layer that is not the other one gives a type that is not the other one. -/
private theorem not_self_of_ne (hne : ¬ ((of n).hasParams = false ∧ n = n')) :
    ¬ ((of n').hasParams = false ∧ of n = of n') := by
  rintro ⟨hclosed, he⟩
  exact hne ⟨he ▸ hclosed, of_inj.1 he⟩

/-- A layer that is taken apart matches one of its kind if the slots do. -/
private theorem match?_of_sameHead (hne : ¬ ((of n).hasParams = false ∧ n = n'))
    (hsplits : n.Splits) (hhead : n.SameHead n') :
    (of n).match? (of n') binds = Args.match? n.slots n'.slots binds := by
  rw [Ty.match?.eq_def, if_neg (not_self_of_ne hne)]
  -- both layers have one constructor, and what stands below them is matched slot by slot
  cases n with
  | tuple ps =>
    cases n' <;> cases hhead
    simp [of, TyNode.slots, Tys.match?_ofList]
  | array p m =>
    cases n' <;> cases hhead
    simp [of, TyNode.slots, Args.match?, Arg.match?]
  | wrap v p =>
    cases n' <;> cases hhead
    simp [of, TyNode.slots, Args.match?, Arg.match?]
  | nominal k i ps =>
    cases n' <;> simp only [TyNode.SameHead] at hhead
    obtain ⟨rfl, rfl⟩ := hhead
    cases k <;> cases hsplits
    simp [of, TyNode.slots, Slots.match?_ofList]
  | fnPtr ps p =>
    cases n' <;> cases hhead
    simp only [of, TyNode.slots, Tys.match?_ofList, Args.match?_concat]
    rfl
  | prim q => cases hsplits
  | dyn i => cases hsplits
  | param i => cases hsplits

/-- A layer that mentions something does not match one of another kind. -/
private theorem match?_of_apart (hne : ¬ ((of n).hasParams = false ∧ n = n'))
    (hn : ∀ i, n ≠ .param i) (hapart : ¬ (n.Splits ∧ n.SameHead n')) :
    (of n).match? (of n') binds = none := by
  rw [Ty.match?.eq_def, if_neg (not_self_of_ne hne)]
  cases n with
  | param i => exact absurd rfl (hn i)
  | nominal k i ps =>
    -- of the types that name an item only the structures and enumerations are taken apart
    cases n' with
    | nominal l j ts => cases k <;> cases l <;> simp_all [of, TyNode.Splits, TyNode.SameHead]
    | _ => cases k <;> rfl
  | _ => cases n' <;> simp_all [of, TyNode.Splits, TyNode.SameHead]

/-- Matching takes such a step on every layer. -/
theorem match?_step (n : TyNode Ty) (t : Ty) (binds : Binds) :
    MatchStep binds n t ((of n).match? t binds) := by
  by_cases hparam : ∃ i, n = .param i
  · obtain ⟨i, rfl⟩ := hparam
    -- a parameter mentions itself, so it is never a type without parameters
    have hne : ¬ (t.hasParams = false ∧ of (.param i) = t) := by
      rintro ⟨hclosed, rfl⟩
      exact List.cons_ne_nil _ _ (hasParams_eq_false_iff.1 hclosed)
    rw [Ty.match?.eq_def, if_neg hne]
    exact .param i t
  · have hn : ∀ i, n ≠ .param i := fun i hi => hparam ⟨i, hi⟩
    obtain ⟨n', rfl⟩ : ∃ n', t = of n' := ⟨t.node, (of_node t).symm⟩
    by_cases hself : (of n).hasParams = false ∧ n = n'
    · obtain ⟨hclosed, rfl⟩ := hself
      rw [Ty.match?.eq_def, if_pos ⟨hclosed, rfl⟩]
      exact .same hn hclosed
    by_cases hsame : n.Splits ∧ n.SameHead n'
    · rw [match?_of_sameHead hself hsame.1 hsame.2]
      exact .split hn hsame.1 hsame.2
    · rw [match?_of_apart hself hn hsame]
      exact .apart hn hself hsame

end Ty

/-! ## Bindings -/

namespace Binds

/-- Whether an argument list has a slot for every parameter and agrees with all that is bound. -/
def Within (binds : Binds) (args : Args) : Prop :=
  binds.length = args.length ∧
    ∀ (i : Nat) (a : Arg Ty), binds[i]? = some (some a) → args[i]? = some a

/-- Whether a parameter is bound. -/
def Bound (binds : Binds) (i : Nat) : Prop := ∃ a, binds[i]? = some (some a)

/-- What a step of matching has to make of some bindings: bindings for just those argument lists
    that solve an equation, in which all that the pattern mentions is bound, or nothing if no
    argument list solves it. -/
inductive Solves (binds : Binds) (solves : Args → Prop) (mentions : List Mention) :
    Option Binds → Prop
  | found {binds' : Binds} (within : ∀ args, binds'.Within args ↔ binds.Within args ∧ solves args)
    (bound : ∀ i, binds'.Bound i ↔ binds.Bound i ∨ ∃ k, (k, i) ∈ mentions) :
    Solves binds solves mentions (some binds')
  | none (h : ∀ args, binds.Within args → ¬ solves args) : Solves binds solves mentions none

variable {binds : Binds} {solves solves' : Args → Prop} {ms ms' : List Mention}
  {result : Option Binds}

/-- Equations with the same solutions are solved in the same way. -/
theorem Solves.congr (h : binds.Solves solves ms result)
    (hsame : ∀ args, solves' args ↔ solves args) : binds.Solves solves' ms result := by
  obtain rfl : solves' = solves := funext fun args => propext (hsame args)
  exact h

/-- An equation that everything solves. -/
theorem Solves.trivial (h : ∀ args, solves args) : binds.Solves solves [] (some binds) :=
  .found (fun args => (and_iff_left (h args)).symm) fun i => by simp

/-- Two equations are solved one after the other. -/
theorem Solves.and {f : Binds → Option Binds} (h : binds.Solves solves ms result)
    (hf : ∀ binds' : Binds, binds'.Solves solves' ms' (f binds')) :
    binds.Solves (fun args => solves args ∧ solves' args) (ms ++ ms') (result.bind f) := by
  cases h with
  | none hnone => exact .none fun args hwithin hsolves => hnone args hwithin hsolves.1
  | @found binds' hwithin hbound =>
    -- what the first equation leaves is narrowed down by the second
    have hnext := hf binds'
    rw [Option.bind_some]
    cases hresult : f binds' with
    | none =>
      rw [hresult] at hnext
      cases hnext with | none hnone =>
      exact .none fun args h hsolves => hnone args ((hwithin args).2 ⟨h, hsolves.1⟩) hsolves.2
    | some binds'' =>
      rw [hresult] at hnext
      cases hnext with | found hwithin' hbound' =>
      refine .found (fun args => ?_) fun i => ?_
      · rw [hwithin', hwithin, and_assoc]
      · simp only [hbound', hbound, List.mem_append, exists_or, or_assoc]

/-- A slot that arguments fill has an entry. -/
theorem Within.lt_length {args : Args} (h : binds.Within args) {i : Nat} {a : Arg Ty}
    (hi : args[i]? = some a) : i < binds.length := by
  rw [h.1]
  exact (List.getElem?_eq_some_iff.1 hi).1

/-- What is bound once a parameter has been bound that was free. -/
private theorem getElem?_set_of_free {i j : Nat} {a b : Arg Ty} (hfree : binds[i]? = some none) :
    (binds.set i (some a))[j]? = some (some b) ↔ j = i ∧ b = a ∨ binds[j]? = some (some b) := by
  have hlt := (List.getElem?_eq_some_iff.1 hfree).1
  by_cases hj : j = i
  · subst hj
    simp [List.getElem?_set_self hlt, hfree, eq_comm]
  · simp [List.getElem?_set_ne (Ne.symm hj), hj]

/-- Binding a parameter solves the equation that something is in its slot. -/
theorem solves_bind? (binds : Binds) (k : ParamKind) (i : Nat) (a : Arg Ty) :
    binds.Solves (fun args => args[i]? = some a) [(k, i)] (binds.bind? i a) := by
  unfold bind?
  split
  · next hout =>
    -- there is no such parameter, so no argument list has the slot
    refine .none fun args hwithin hslot => ?_
    have hlt := hwithin.lt_length hslot
    exact absurd (List.getElem?_eq_none_iff.1 hout) (by omega)
  · next hfree =>
    -- the parameter was free, so the slot is all that becomes known
    refine .found (fun args => ?_) fun j => ?_
    · simp only [Within, List.length_set, getElem?_set_of_free hfree]
      constructor
      · rintro ⟨hlength, h⟩
        exact ⟨⟨hlength, fun j b hb => h j b (.inr hb)⟩, h i a (.inl ⟨rfl, rfl⟩)⟩
      · rintro ⟨⟨hlength, h⟩, hslot⟩
        refine ⟨hlength, fun j b hb => ?_⟩
        rcases hb with ⟨rfl, rfl⟩ | hb
        · exact hslot
        · exact h j b hb
    · simp only [Bound, getElem?_set_of_free hfree, exists_or]
      simp [or_comm]
  · next b hb =>
    -- the parameter was bound, so the equation holds of all argument lists or of none
    split
    · next heq =>
      subst heq
      refine .found (fun args => ⟨fun h => ⟨h, h.2 i b hb⟩, And.left⟩) fun j => ?_
      exact ⟨.inl, fun h => h.elim id fun ⟨k', hk⟩ => by simp_all [Bound]⟩
    · next hne =>
      refine .none fun args hwithin hslot => hne ?_
      exact Option.some.inj ((hwithin.2 i b hb).symm.trans hslot)

/-- Arguments are read off when every entry is bound. -/
private theorem toArgs?_eq_map {args : Args} :
    binds.toArgs? = some args ↔ binds = args.map some := by
  induction binds generalizing args with
  | nil => cases args <;> simp [toArgs?]
  | cons b rest ih =>
    cases b with
    | none => cases args <;> simp [toArgs?]
    | some b => cases args <;> simp [toArgs?, ih, and_comm]

/-- Once every parameter is bound there is one argument list left. -/
theorem toArgs?_eq_some_iff {args : Args} :
    binds.toArgs? = some args ↔ binds.Within args ∧ ∀ i < args.length, binds.Bound i := by
  rw [toArgs?_eq_map]
  constructor
  · rintro rfl
    refine ⟨⟨List.length_map .., fun i a ha => ?_⟩, fun i hi => ⟨args[i], ?_⟩⟩
    · simpa using ha
    · simp [hi]
  · rintro ⟨hwithin, hbound⟩
    -- every place has an entry, and that agrees with the slot
    refine List.ext_getElem? fun i => ?_
    by_cases hi : i < args.length
    · obtain ⟨a, ha⟩ := hbound i hi
      rw [ha, List.getElem?_map, hwithin.2 i a ha, Option.map_some]
    · rw [List.getElem?_eq_none (by rw [hwithin.1]; omega), List.getElem?_eq_none (by simp; omega)]

/-- With nothing bound, all argument lists of the length are left. -/
theorem within_replicate_none {count : Nat} {args : Args} :
    Within (List.replicate count none) args ↔ args.length = count := by
  simp [Within, List.getElem?_replicate, eq_comm]

/-- With nothing bound, no parameter is. -/
theorem not_bound_replicate_none {count i : Nat} : ¬ Bound (List.replicate count none) i := by
  simp [Bound, List.getElem?_replicate]

end Binds

/-! ## Patterns -/

open Binds

/-- Matching a constant solves the equation that the pattern becomes it. -/
theorem Const.solves_match? (p c : Const) (binds : Binds) :
    binds.Solves (fun args => p.subst args = .ok c) p.mentions (p.match? c binds) := by
  cases p with
  | param i =>
    exact (solves_bind? binds .const i (.const c)).congr fun args => Args.constAt_eq_ok_iff
  | value n =>
    simp only [Const.match?]
    split
    · next h => exact .trivial fun args => congrArg Except.ok h
    · next h => exact .none fun args _ hsubst => h (Except.ok.inj hsubst)

/-- Matching a slot solves the equation that the pattern becomes it, provided that this holds of
    types. -/
private theorem Arg.solves_match? {a b : Arg Ty} {binds : Binds}
    (ih : ∀ p, a = .ty p → ∀ (t : Ty) (binds : Binds),
      binds.Solves (fun args => p.subst args = .ok t) p.mentions (p.match? t binds)) :
    binds.Solves (fun args => a.subst args = .ok b) a.mentioned (a.match? b binds) := by
  -- A type and a constant never become each other, so these pairs have no solution.
  cases a with
  | ty p =>
    cases b with
    | ty t => exact (ih p rfl t binds).congr fun args => by simp [TyNode.mapM_ty_eq_ok]
    | const d => exact .none fun args _ h => by simp [TyNode.mapM_ty_eq_ok] at h
  | const c =>
    cases b with
    | ty t => exact .none fun args _ h => by simp [TyNode.mapM_const_eq_ok] at h
    | const d =>
      exact (c.solves_match? d binds).congr fun args => by simp [TyNode.mapM_const_eq_ok]

/-- Matching argument lists solves the equations of all slots. -/
private theorem Args.solves_match? {as bs : Args} {binds : Binds}
    (ih : ∀ a ∈ as, ∀ (b : Arg Ty) (binds : Binds),
      binds.Solves (fun args => a.subst args = .ok b) a.mentioned (a.match? b binds)) :
    binds.Solves (fun args => List.Forall₂ (fun a b => a.subst args = .ok b) as bs)
      (Args.mentions as) (Args.match? as bs binds) := by
  -- The first slots give one equation, and the lists behind them are solved with what it leaves.
  induction as generalizing bs binds with
  | nil =>
    cases bs with
    | nil => exact .trivial fun args => .nil
    | cons b bs => exact .none fun args _ h => nomatch h
  | cons a as iha =>
    cases bs with
    | nil => exact .none fun args _ h => nomatch h
    | cons b bs =>
      have hfirst := ih a List.mem_cons_self b binds
      have hrest : ∀ binds' : Binds, binds'.Solves
          (fun args => List.Forall₂ (fun a b => a.subst args = .ok b) as bs)
          (Args.mentions as) (Args.match? as bs binds') :=
        fun _ => iha fun a' ha' => ih a' (List.mem_cons_of_mem a ha')
      exact (hfirst.and hrest).congr fun args => List.forall₂_cons

namespace Ty

/-- Whether a type is a part of another one, however deep, or that type itself. -/
def Contains : Ty → Ty → Prop := Relation.ReflTransGen fun t u => Arg.ty u ∈ t.node.slots

/-- Whether no parameter is mentioned inside the type of a function or closure. -/
def IsPattern (pattern : Ty) : Prop :=
  ∀ k i as, k ≠ .adt → pattern.Contains (.nominal k i as) → (nominal k i as).mentions = []

/-- The slots of a pattern are patterns. -/
theorem IsPattern.slot {n : TyNode Ty} (h : (of n).IsPattern) {t : Ty} (ht : .ty t ∈ n.slots) :
    t.IsPattern := by
  intro k i as hk hcontains
  have hstep : Arg.ty t ∈ (of n).node.slots := by rwa [node_of]
  exact h k i as hk (.head hstep hcontains)

/-- A parameter is a pattern. -/
theorem isPattern_param (i : Nat) : (param i).IsPattern := by
  intro k j as _ hcontains
  rcases Relation.ReflTransGen.cases_head hcontains with heq | ⟨t, ht, -⟩
  · cases heq
  · cases ht

/-- A layer that is taken apart is a pattern if its slots are. -/
theorem isPattern_of {n : TyNode Ty} (hsplits : n.Splits)
    (hslots : ∀ t, .ty t ∈ n.slots → t.IsPattern) : (of n).IsPattern := by
  intro k i as hk hcontains
  -- the function or closure is not this layer, so it lies in a slot
  rcases Relation.ReflTransGen.cases_head hcontains with heq | ⟨t, ht, hcontains⟩
  · obtain rfl : n = .nominal k i as.toList := by rw [← node_of n, heq, node]
    cases k with
    | adt => exact absurd rfl hk
    | _ => cases hsplits
  · rw [node_of] at ht
    exact hslots t ht k i as hk hcontains

/-- A layer that is not taken apart mentions nothing. -/
theorem IsPattern.mentions_eq_nil {n : TyNode Ty} (h : (of n).IsPattern)
    (hn : ∀ i, n ≠ .param i) (hsplits : ¬ n.Splits) : (of n).mentions = [] := by
  -- A layer that is neither a parameter nor taken apart is of a type that names a function, or has
  -- no slots.
  cases n with
  | prim q => rfl
  | dyn i => rfl
  | param i => exact absurd rfl (hn i)
  | nominal k i as =>
    cases k with
    | adt => exact absurd trivial hsplits
    | fnDef => exact h .fnDef i (.ofList as) (by decide) .refl
    | closure => exact h .closure i (.ofList as) (by decide) .refl
  | _ => exact absurd trivial hsplits

/-- Matching a pattern solves the equation that the pattern becomes the type. -/
theorem IsPattern.solves_match? {p : Ty} (h : p.IsPattern) (t : Ty) (binds : Binds) :
    binds.Solves (fun args => p.subst args = .ok t) p.mentions (p.match? t binds) := by
  induction p using Ty.ind generalizing t binds with
  | layer n ih =>
    have hstep := match?_step n t binds
    generalize (of n).match? t binds = result at hstep ⊢
    cases hstep with
    | param i =>
      refine (solves_bind? binds .type i (.ty t)).congr fun args => ?_
      rw [show of (.param i) = param i from rfl, subst_param, Args.tyAt_eq_ok_iff]
    | same hn hclosed =>
      rw [hasParams_eq_false_iff.1 hclosed]
      exact .trivial fun args => subst_of_hasParams_eq_false hclosed
    | @split _ n' hn _ hhead =>
      have hslots : ∀ a ∈ n.slots, ∀ (b : Arg Ty) (binds : Binds),
          binds.Solves (fun args => a.subst args = .ok b) a.mentioned (a.match? b binds) := by
        intro a ha b binds
        refine Arg.solves_match? fun p hp t binds => ?_
        exact ih p (hp ▸ ha) (h.slot (hp ▸ ha)) t binds
      rw [mentions_of_ne_param hn]
      refine (Args.solves_match? hslots).congr fun args => ?_
      simp [subst_of_eq_ok_iff hn, of_inj, hhead]
    | @apart _ n' hn hself hapart =>
      -- a layer that stays whole mentions nothing, so it can only become itself
      refine .none fun args _ hsubst => ?_
      obtain ⟨n'', he, hhead, -⟩ := (subst_of_eq_ok_iff hn).1 hsubst
      obtain rfl := of_inj.1 he
      have hclosed : (of n).hasParams = false :=
        hasParams_eq_false_iff.2 (h.mentions_eq_nil hn fun hsplits => hapart ⟨hsplits, hhead⟩)
      rw [subst_of_hasParams_eq_false hclosed] at hsubst
      exact hself ⟨hclosed, of_inj.1 (Except.ok.inj hsubst)⟩

/-- Matching finds the arguments that make the pattern the type, if the pattern mentions all
    parameters and there are such arguments. -/
theorem IsPattern.matchArgs_eq_some_iff {pattern : Ty} (h : pattern.IsPattern) {count : Nat}
    {t : Ty} {args : Args} : pattern.matchArgs count t = some args ↔
      args.length = count ∧ (∀ i < count, ∃ k, (k, i) ∈ pattern.mentions) ∧
        pattern.subst args = .ok t := by
  -- Matching starts with nothing bound, and what it finds has to bind every parameter.
  have hsolves := h.solves_match? t (List.replicate count none)
  unfold matchArgs
  cases hmatch : pattern.match? t (List.replicate count none) with
  | none =>
    rw [hmatch] at hsolves
    cases hsolves with | none hnone =>
    simp only [Option.bind_eq_bind, Option.bind_none, reduceCtorEq, false_iff]
    rintro ⟨hlength, -, hsubst⟩
    exact hnone args (within_replicate_none.2 hlength) hsubst
  | some binds =>
    rw [hmatch] at hsolves
    cases hsolves with | found hwithin hbound =>
    simp only [Option.bind_eq_bind, Option.bind_some, toArgs?_eq_some_iff, hwithin, hbound,
      within_replicate_none, not_bound_replicate_none, false_or]
    constructor
    · rintro ⟨⟨rfl, hsubst⟩, hmentions⟩
      exact ⟨rfl, hmentions, hsubst⟩
    · rintro ⟨rfl, hmentions, hsubst⟩
      exact ⟨⟨rfl, hsubst⟩, hmentions⟩

end Ty

end Monomorph
