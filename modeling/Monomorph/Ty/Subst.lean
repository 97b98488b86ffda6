import Monomorph.Ty.Equality

/-!
# Putting arguments for parameters

`Ty.subst args t` replaces each parameter of `t` by the slot of `args` at its position. A type
without parameters is returned as it is and never walked. The walk goes from left to right and
stops at the first parameter that has no slot, or one of the wrong sort. Where a list has the same
type several times in a row, one image serves for all, so that it is shared just as the type was.

`Ty.replace` is the same replacement without the shortcut, one layer at a time. `Ty.formed` lists
the types that a replacement has made by the time it ends, which is what a table of types sees.
-/

namespace Monomorph

/-- Why a parameter cannot be replaced. -/
inductive SubstError where
  /-- There is no slot at its position. -/
  | escaping (index count : Nat)
  /-- The slot holds a constant and a type is needed, or the other way round. -/
  | wrongKind (index : Nat)
  deriving DecidableEq, Repr

/-- The wording of the error. -/
def SubstError.message : SubstError → String
  | .escaping index count =>
    "parameter #" ++ toString index ++ " escapes its generics (" ++ toString count ++
      " argument(s) supplied)"
  | .wrongKind index =>
    "parameter #" ++ toString index ++ " received an argument of the wrong kind"

namespace Args

/-- The type in the slot at a position. -/
def tyAt (args : Args) (i : Nat) : Except SubstError Ty :=
  match args[i]? with
  | some (.ty t) => .ok t
  | some (.const _) => .error (.wrongKind i)
  | none => .error (.escaping i args.length)

/-- The constant in the slot at a position. -/
def constAt (args : Args) (i : Nat) : Except SubstError Const :=
  match args[i]? with
  | some (.const c) => .ok c
  | some (.ty _) => .error (.wrongKind i)
  | none => .error (.escaping i args.length)

end Args

/-- Replaces a constant that is a parameter. -/
def Const.subst (args : Args) : Const → Except SubstError Const
  | .value n => .ok (.value n)
  | .param i => args.constAt i

/-- The image of a type, if it is the last type and that one's image is known. -/
def Ty.reuse (last : Option (Ty × Ty)) (t : Ty) : Option Ty :=
  match last with
  | some (s, u) => if s = t then some u else none
  | none => none

mutual

/-- Replaces every parameter of a type by the slot at its position. -/
def Ty.subst (args : Args) (t : Ty) : Except SubstError Ty :=
  if t.hasParams then
    match t with
    | .prim p => .ok (.prim p)
    | .tuple ts => .tuple <$> ts.substFrom args none
    | .array t n => return .array (← t.subst args) (← n.subst args)
    | .wrap w t => .wrap w <$> t.subst args
    | .nominal k i as => .nominal k i <$> as.substFrom args none
    | .dyn i => .ok (.dyn i)
    | .fnPtr ins out => return .fnPtr (← ins.substFrom args none) (← out.subst args)
    | .param i => args.tyAt i
  else .ok t
termination_by structural t

/-- Replaces every parameter in each type of a list. The type in front of the list is given with
    its image, which serves for the next type too if that is the same. -/
def Tys.substFrom (args : Args) (last : Option (Ty × Ty)) : Tys → Except SubstError Tys
  | .nil => .ok .nil
  | .cons t ts => do
    let u ← (match Ty.reuse last t with
      | some u => .ok u
      | none => t.subst args)
    -- the image of this type is at hand for the next one
    return .cons u (← ts.substFrom args (some (t, u)))
termination_by structural ts => ts

/-- Replaces every parameter in each slot of a list. The last type in front of the list is given
    with its image. -/
def Slots.substFrom (args : Args) (last : Option (Ty × Ty)) : Slots → Except SubstError Slots
  | .nil => .ok .nil
  | .ty t as => do
    let u ← (match Ty.reuse last t with
      | some u => .ok u
      | none => t.subst args)
    return .ty u (← as.substFrom args (some (t, u)))
  -- a constant does not come between two equal types
  | .const c as => return .const (← c.subst args) (← as.substFrom args last)
termination_by structural as => as

end

mutual

/-- The image of a type as `subst` makes it, or if there is none the images that had been made of
    its parts in front of the failure. -/
def Ty.attempt (args : Args) (t : Ty) : Except (List Ty) Ty :=
  if t.hasParams then
    match t with
    | .prim p => .ok (.prim p)
    | .tuple ts => .tuple <$> ts.attempt args none
    | .array t n => do
      let u ← t.attempt args
      -- the element has been made even if the length cannot be
      return .array u (← (n.subst args).mapError fun _ => [u])
    | .wrap w t => .wrap w <$> t.attempt args
    | .nominal k i as => .nominal k i <$> as.attempt args none
    | .dyn i => .ok (.dyn i)
    | .fnPtr ins out => do
      let us ← ins.attempt args none
      -- so have the inputs, if the output cannot be
      return .fnPtr us (← (out.attempt args).mapError (us.toList ++ ·))
    | .param i => (args.tyAt i).mapError fun _ => []
  else .ok t
termination_by structural t

/-- The images of the types of a list, or those that had been made in front of a failure. -/
def Tys.attempt (args : Args) (last : Option (Ty × Ty)) : Tys → Except (List Ty) Tys
  | .nil => .ok .nil
  | .cons t ts => do
    let u ← (match Ty.reuse last t with
      | some u => .ok u
      | none => t.attempt args)
    return .cons u (← (ts.attempt args (some (t, u))).mapError (u :: ·))
termination_by structural ts => ts

/-- The images of the slots of a list, or those that had been made in front of a failure. -/
def Slots.attempt (args : Args) (last : Option (Ty × Ty)) : Slots → Except (List Ty) Slots
  | .nil => .ok .nil
  | .ty t as => do
    let u ← (match Ty.reuse last t with
      | some u => .ok u
      | none => t.attempt args)
    return .ty u (← (as.attempt args (some (t, u))).mapError (u :: ·))
  | .const c as => do
    let d ← (c.subst args).mapError fun _ => []
    return .const d (← as.attempt args last)
termination_by structural as => as

end

/-- The types made on the way when arguments are put into a type: its image, or when that fails
    the images of the parts in front of the failure. -/
def Ty.formed (args : Args) (t : Ty) : List Ty :=
  match t.attempt args with
  | .ok u => [u]
  | .error made => made

namespace Ty

/-- The type of a layer with its parameters replaced, where its children have been dealt with. -/
def replaceNode (args : Args) : TyNode (Except SubstError Ty) → Except SubstError Ty
  | .param i => args.tyAt i
  | n => of <$> n.mapM id (Const.subst args)

/-- Replaces every parameter of a type and walks all of it. -/
def replace (args : Args) : Ty → Except SubstError Ty := fold (replaceNode args)

/-- The equation of `subst` on a type without parameters. -/
theorem subst_of_hasParams_eq_false {args : Args} {t : Ty} (h : t.hasParams = false) :
    t.subst args = .ok t := by
  rw [subst.eq_def, h]
  rfl

end Ty

/-- What is known of the last type: its image is the one that is kept. -/
private abbrev Kept (args : Args) (last : Option (Ty × Ty)) : Prop :=
  ∀ s u, last = some (s, u) → s.subst args = .ok u

/-- To keep nothing is to keep only right answers. -/
private theorem kept_none (args : Args) : Kept args none := fun _ _ h => by cases h

/-- The answer that substitution just gave is right to keep. -/
private theorem kept_some {args : Args} {t u : Ty} (h : t.subst args = .ok u) :
    Kept args (some (t, u)) := fun _ _ e => by cases e; exact h

/-- Reuse gives the image that replacing gives. -/
private theorem match_reuse {args : Args} {last : Option (Ty × Ty)} (h : Kept args last) (t : Ty) :
    (match Ty.reuse last t with
      | some u => .ok u
      | none => t.subst args) = t.subst args := by
  cases last with
  | none => rfl
  | some p =>
    obtain ⟨s, u⟩ := p
    by_cases e : s = t
    · rw [Ty.reuse, if_pos e]
      exact (e ▸ h s u rfl).symm
    · rw [Ty.reuse, if_neg e]

/-- With a right answer kept, a list of types is substituted type by type. -/
private theorem Tys.substFrom_of_kept {args : Args} (ts : List Ty) {last : Option (Ty × Ty)}
    (h : Kept args last) :
    (ofList ts).substFrom args last = ofList <$> ts.mapM (Ty.subst args) := by
  -- Each step either reuses what is kept or computes it, and what it then keeps is right again.
  induction ts generalizing last with
  | nil => rfl
  | cons t ts ih =>
    rw [ofList, Tys.substFrom, match_reuse h, List.mapM_cons]
    cases ht : t.subst args with
    | error e => rfl
    | ok u =>
      simp only [bind, Except.bind, ih (kept_some ht)]
      cases ts.mapM (Ty.subst args) <;> rfl

/-- With a right answer kept, arguments are substituted slot by slot. -/
private theorem Slots.substFrom_of_kept {args : Args} (as : Args) {last : Option (Ty × Ty)}
    (h : Kept args last) :
    (ofList as).substFrom args last =
      ofList <$> as.mapM (Arg.mapM (Ty.subst args) (Const.subst args)) := by
  -- As for types; a constant leaves what is kept as it was.
  induction as generalizing last with
  | nil => rfl
  | cons a as ih =>
    cases a with
    | ty t =>
      rw [ofList, Slots.substFrom, match_reuse h, List.mapM_cons, Arg.mapM]
      cases ht : t.subst args with
      | error e => rfl
      | ok u =>
        simp only [bind, Except.bind, Functor.map, Except.map, ih (kept_some ht)]
        cases as.mapM (Arg.mapM (Ty.subst args) (Const.subst args)) <;> rfl
    | const c =>
      rw [ofList, Slots.substFrom, List.mapM_cons, Arg.mapM]
      cases c.subst args with
      | error e => rfl
      | ok d =>
        simp only [bind, Except.bind, Functor.map, Except.map, ih h]
        cases as.mapM (Arg.mapM (Ty.subst args) (Const.subst args)) <;> rfl

/-- The types of a list are replaced one by one, from left to right. -/
theorem Tys.substFrom_ofList (args : Args) (ts : List Ty) :
    (ofList ts).substFrom args none = ofList <$> ts.mapM (Ty.subst args) :=
  substFrom_of_kept ts (kept_none args)

/-- The slots of a list are replaced one by one, from left to right. -/
theorem Slots.substFrom_ofList (args : Args) (as : Args) :
    (ofList as).substFrom args none =
      ofList <$> as.mapM (Arg.mapM (Ty.subst args) (Const.subst args)) :=
  substFrom_of_kept as (kept_none args)

namespace Args

/-- Replaces every parameter in an argument list. -/
def subst (args : Args) (inner : Args) : Except SubstError Args :=
  inner.mapM (Arg.mapM (Ty.subst args) (Const.subst args))

/-- The types in an argument list. -/
def types (args : Args) : List Ty := args.filterMap Arg.ty?

/-- The types made on the way when arguments are put into an argument list. -/
def formed (args : Args) (inner : Args) : List Ty :=
  match (Slots.ofList inner).attempt args none with
  | .ok images => types images.toList
  | .error made => made

/-- The types made on the way when arguments are put into one type after the other. -/
def formedAll (args : Args) (ts : List Ty) : List Ty :=
  match (Tys.ofList ts).attempt args none with
  | .ok images => images.toList
  | .error made => made

end Args

end Monomorph
