import Monomorph.Proofs.Substitution

/-!
# What a substitution does

`Ty.subst` goes by the measure: a part that has no parameters is not walked, and neither is a part
that stands beside an equal one. `Ty.replace` walks everything. That the two agree
(`Ty.subst_eq_replace`) is why the shortcuts may be taken.

Where there is no image, the reason is that of the first mention that does not fit. It is found by
following the reason of a failure, `failure?`, through one layer and from there, by induction,
through a type (`Ty.failure?_subst`).
-/

namespace Monomorph

/-! ## The reason of a failure -/

section Failure

variable {ε α β : Type}

/-- Why there is no result, if there is none. -/
def failure? : Except ε α → Option ε
  | .ok _ => none
  | .error e => some e

/-- A result has an error where it failed with it. -/
theorem failure?_eq_some_iff {r : Except ε α} {e : ε} : failure? r = some e ↔ r = .error e := by
  cases r <;> simp [failure?]

/-- Mapping a result keeps its error. -/
@[simp] theorem failure?_map (f : α → β) (r : Except ε α) : failure? (f <$> r) = failure? r := by
  cases r <;> rfl

/-- Two steps whose results are put together fail for the reason of the first that does. -/
theorem failure?_bind_map {γ : Type} (r : Except ε α) (s : Except ε β) (f : α → β → γ) :
    failure? (do return f (← r) (← s)) = (failure? r).or (failure? s) := by
  cases r <;> [rfl; (cases s <;> rfl)]

/-- A list of results fails for the reason of its first member that does. -/
theorem failure?_mapM (f : α → Except ε β) (xs : List α) :
    failure? (xs.mapM f) = xs.findSome? fun x => failure? (f x) := by
  induction xs with
  | nil => rfl
  | cons x xs ih =>
    rw [List.mapM_cons, failure?_bind_map, ih, List.findSome?_cons]
    cases failure? (f x) <;> rfl

/-- The first answer in lists that stand behind one another comes from the first that has one. -/
theorem findSome?_flatMap (f : β → Option ε) (g : α → List β) (xs : List α) :
    (xs.flatMap g).findSome? f = xs.findSome? fun x => (g x).findSome? f := by
  induction xs with
  | nil => rfl
  | cons x xs ih =>
    rw [List.flatMap_cons, List.findSome?_append, ih, List.findSome?_cons]
    cases (g x).findSome? f <;> rfl

/-- A search depends on the values at the elements of the list only. -/
theorem findSome?_congr {f g : α → Option ε} {xs : List α} (h : ∀ x ∈ xs, f x = g x) :
    xs.findSome? f = xs.findSome? g := by
  induction xs with
  | nil => rfl
  | cons x xs ih =>
    rw [List.findSome?_cons, List.findSome?_cons, h x List.mem_cons_self,
      ih fun y hy => h y (List.mem_cons_of_mem x hy)]

/-- A traversal depends on the results at the elements of the list only. -/
theorem mapM_congr {f g : α → Except ε β} {xs : List α} (h : ∀ x ∈ xs, f x = g x) :
    xs.mapM f = xs.mapM g := by
  induction xs with
  | nil => rfl
  | cons x xs ih =>
    rw [List.mapM_cons, List.mapM_cons, h x List.mem_cons_self,
      ih fun y hy => h y (List.mem_cons_of_mem x hy)]

end Failure

/-! ## One layer -/

namespace TyNode

variable {α β ε : Type}

/-- An action on the children of a layer fails for the reason of the first slot that it fails on. -/
theorem failure?_mapM (f : α → Except ε β) (g : Const → Except ε Const) (n : TyNode α) :
    failure? (n.mapM f g) = n.slots.findSome? fun a => failure? (Arg.mapM f g a) := by
  -- By constructor: the error of a layer is the first one among its slots from left to right.
  cases n with
  | tuple ts =>
    rw [mapM, slots, failure?_map, Monomorph.failure?_mapM, List.findSome?_map]
    exact findSome?_congr fun t _ => (failure?_map _ _).symm
  | array t c =>
    rw [mapM, slots, failure?_bind_map]
    simp only [List.findSome?_cons, Arg.mapM, failure?_map]
    cases failure? (f t) <;> cases failure? (g c) <;> rfl
  | wrap w t =>
    rw [mapM, slots, failure?_map]
    simp only [List.findSome?_cons, Arg.mapM, failure?_map]
    cases failure? (f t) <;> rfl
  | nominal k i as => rw [mapM, slots, failure?_map, Monomorph.failure?_mapM]
  | fnPtr ins out =>
    rw [mapM, slots, failure?_bind_map, Monomorph.failure?_mapM, List.findSome?_append,
      List.findSome?_map]
    congr 1
    · exact findSome?_congr fun t _ => (failure?_map _ _).symm
    · simp only [List.findSome?_cons, Arg.mapM, failure?_map]
      cases failure? (f out) <;> rfl
  | _ => rfl

/-- An action on a layer depends only on what it makes of each child. -/
theorem mapM_congr_slots {f f' : α → Except ε β} {g : Const → Except ε Const} {n : TyNode α}
    (h : ∀ t, .ty t ∈ n.slots → f t = f' t) : n.mapM f g = n.mapM f' g := by
  -- By constructor: only the types in the slots are asked.
  cases n with
  | tuple ts =>
    rw [mapM, mapM, mapM_congr fun t ht => h t (List.mem_map_of_mem ht)]
  | array t c => rw [mapM, mapM, h t List.mem_cons_self]
  | wrap w t => rw [mapM, mapM, h t List.mem_cons_self]
  | nominal k i as =>
    rw [mapM, mapM, mapM_congr]
    intro a ha
    cases a with
    | ty t => rw [Arg.mapM, Arg.mapM, h t ha]
    | const c => rfl
  | fnPtr ins out =>
    rw [mapM, mapM, h out (List.mem_append_right _ List.mem_cons_self),
      mapM_congr fun t ht => h t (List.mem_append_left _ (List.mem_map_of_mem ht))]
  | _ => rfl

/-- What an action makes of the children may be found first. -/
theorem mapM_id_map (f : α → Except ε β) (g : Const → Except ε Const) (n : TyNode α) :
    (n.map f).mapM id g = n.mapM f g := by
  have hslot : Arg.mapM id g ∘ Arg.map f = Arg.mapM f g := by
    funext a
    cases a <;> rfl
  cases n with
  | tuple ts => rw [map, mapM, mapM, List.mapM_map, Function.id_comp]
  | nominal k i as => rw [map, mapM, mapM, List.mapM_map, hslot]
  | fnPtr ins out => rw [map, mapM, mapM, List.mapM_map, Function.id_comp, id]
  | _ => rfl

end TyNode

/-! ## Without the shortcut -/

namespace Ty

variable {args : Args}

/-- The equation of `replace`: what stands below a layer is replaced. -/
theorem replace_of (args : Args) {n : TyNode Ty} (hn : ∀ i, n ≠ .param i) :
    (of n).replace args = of <$> n.mapM (replace args) (Const.subst args) := by
  have hlayer : (of n).replace args = replaceNode args (n.map (replace args)) := fold_of _ n
  rw [hlayer, ← TyNode.mapM_id_map]
  cases n with
  | param i => exact absurd rfl (hn i)
  | _ => rfl

/-- The shortcut never shows. -/
theorem subst_eq_replace (args : Args) (t : Ty) : t.subst args = t.replace args := by
  induction t using Ty.ind_param with
  | param i => exact subst_param args i
  | layer n hn ih => rw [subst_of args hn, replace_of args hn, TyNode.mapM_congr_slots ih]

end Ty

/-! ## Why there is no image -/

namespace Args

variable {args : Args}

/-- Why a mention cannot be replaced, if it cannot. -/
def refusal? (args : Args) (m : Mention) : Option SubstError :=
  match args[m.2]? with
  | none => some (.escaping m.2 args.length)
  | some a => if a.kind = m.1 then none else some (.wrongKind m.2)

/-- A mention is not refused where its argument fits. -/
theorem refusal?_eq_none_iff {m : Mention} : args.refusal? m = none ↔ args.Fits m := by
  unfold refusal? Fits
  cases args[m.2]? <;> simp

/-- A type parameter fails as its mention is refused. -/
theorem failure?_tyAt (args : Args) (i : Nat) :
    failure? (args.tyAt i) = args.refusal? (.type, i) := by
  unfold tyAt refusal?
  cases args[i]? with
  | none => rfl
  | some a => cases a <;> rfl

/-- A constant parameter fails as its mention is refused. -/
theorem failure?_constAt (args : Args) (i : Nat) :
    failure? (args.constAt i) = args.refusal? (.const, i) := by
  unfold constAt refusal?
  cases args[i]? with
  | none => rfl
  | some a => cases a <;> rfl

end Args

namespace Ty

variable {args : Args}

/-- A constant fails to be replaced for the reason of its mention. -/
theorem failure?_const_subst (args : Args) (c : Const) :
    failure? (c.subst args) = c.mentions.findSome? args.refusal? := by
  cases c with
  | value n => rfl
  | param i =>
    rw [Const.subst, Args.failure?_constAt, Const.mentions, List.findSome?_singleton]

/-- A type fails to be replaced for the reason of its first mention that does not fit. -/
theorem failure?_subst (args : Args) (t : Ty) :
    failure? (t.subst args) = t.mentions.findSome? args.refusal? := by
  induction t using Ty.ind_param with
  | param i =>
    rw [mentions_param, List.findSome?_singleton, ← Args.failure?_tyAt, ← subst_param]
  | layer n hn ih =>
    -- The slots are substituted from left to right, in the order in which they mention parameters.
    rw [subst_of args hn, failure?_map, TyNode.failure?_mapM, mentions_of_ne_param hn,
      Args.mentions, findSome?_flatMap]
    refine findSome?_congr fun a ha => ?_
    cases a with
    | ty u => exact (failure?_map _ _).trans (ih u ha)
    | const c => exact (failure?_map _ _).trans (failure?_const_subst args c)

/-- The image of a type mentions a parameter if some slot does that the type refers to. -/
theorem mentions_ne_nil_iff_of_subst {t u : Ty} (hu : t.subst args = .ok u) :
    u.mentions ≠ [] ↔ ∃ m ∈ t.mentions, ∃ a, args[m.2]? = some a ∧ a.mentioned ≠ [] := by
  constructor
  · intro hne
    obtain ⟨q, hq⟩ := List.exists_mem_of_ne_nil _ hne
    obtain ⟨m, hm, a, ha, hqa⟩ := (mem_mentions_subst hu).1 hq
    exact ⟨m, hm, a, ha, List.ne_nil_of_mem hqa⟩
  · rintro ⟨m, hm, a, ha, hne⟩
    obtain ⟨q, hq⟩ := List.exists_mem_of_ne_nil _ hne
    exact List.ne_nil_of_mem ((mem_mentions_subst hu).2 ⟨m, hm, a, ha, hq⟩)

/-- A substitution fails with the reason of the first mention that does not fit. -/
theorem subst_eq_error_iff {t : Ty} {e : SubstError} : t.subst args = .error e ↔
    ∃ before m after, t.mentions = before ++ m :: after ∧ (∀ q ∈ before, args.Fits q) ∧
      args.refusal? m = some e := by
  rw [← failure?_eq_some_iff, failure?_subst, List.findSome?_eq_some_iff]
  simp only [Args.refusal?_eq_none_iff, and_comm (a := args.refusal? _ = some e)]

/-- What may be relied on when arguments are put into a type. -/
structure Replaced (args : Args) (t : Ty) : Prop where
  /-- The result is that of the walk through the whole type. -/
  eq_replace : t.subst args = t.replace args
  isOk_iff : (∃ u, t.subst args = .ok u) ↔ ∀ m ∈ t.mentions, args.Fits m
  mentions_iff : ∀ u, t.subst args = .ok u →
    (u.mentions ≠ [] ↔ ∃ m ∈ t.mentions, ∃ a, args[m.2]? = some a ∧ a.mentioned ≠ [])
  /-- The reason of a failure is that of the first mention that does not fit. -/
  error_iff : ∀ e, t.subst args = .error e ↔ ∃ before m after,
    t.mentions = before ++ m :: after ∧ (∀ q ∈ before, args.Fits q) ∧ args.refusal? m = some e

/-- Substitution replaces a type by what its arguments say. -/
theorem replaced (args : Args) (t : Ty) : Replaced args t where
  eq_replace := subst_eq_replace args t
  isOk_iff := subst_isOk_iff t
  mentions_iff _ hu := mentions_ne_nil_iff_of_subst hu
  error_iff _ := subst_eq_error_iff

/-- The output of a function type comes after its inputs, and a constant after the element. -/
example : (fnPtr (.ofList [.param 0, .array (.param 1) (.param 0)]) (.param 7)).subst
    [.ty .unit, .const (.value 3)] = .error (.wrongKind 1) := by rfl

end Ty

end Monomorph
