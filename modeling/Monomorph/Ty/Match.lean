import Monomorph.Ty.Equality

/-!
# Matching a pattern

An implementation block is declared for a pattern: a type that may mention the block's own
parameters. Matching the pattern against a type without parameters binds each parameter to what
stands in its place. A parameter met twice must be bound to the same thing both times.

Only the kinds of types an implementation can be declared for by shape are taken apart. All others
match themselves alone, and only where they mention no parameter.
-/

namespace Monomorph

/-- What the parameters of a pattern are bound to so far, one entry for each parameter. -/
abbrev Binds := List (Option (Arg Ty))

namespace Binds

/-- Binds a parameter, unless it does not exist or is bound to something else. -/
def bind? (binds : Binds) (i : Nat) (a : Arg Ty) : Option Binds :=
  match binds[i]? with
  | none => none
  | some none => some (binds.set i (some a))
  | some (some b) => if b = a then some binds else none

/-- The bindings as an argument list, once every parameter is bound. -/
def toArgs? : Binds → Option Args
  | [] => some []
  -- this parameter was never met
  | none :: _ => none
  | some a :: rest => (toArgs? rest).map (a :: ·)

end Binds

/-- Matches a constant against a constant. -/
def Const.match? (p c : Const) (binds : Binds) : Option Binds :=
  match p with
  | .param i => binds.bind? i (.const c)
  | .value _ => if p = c then some binds else none

mutual

/-- Matches a pattern against a type. -/
def Ty.match? (p t : Ty) (binds : Binds) : Option Binds :=
  -- a part without parameters stands for itself, whatever its kind
  if t.hasParams = false ∧ p = t then some binds
  else
    match p, t with
    | .param i, t => binds.bind? i (.ty t)
    | .tuple ps, .tuple ts => ps.match? ts binds
    | .array p m, .array t n => do
      let binds ← p.match? t binds
      m.match? n binds
    | .wrap v p, .wrap w t => if v = w then p.match? t binds else none
    | .nominal .adt i ps, .nominal .adt j ts => if i = j then ps.match? ts binds else none
    | .fnPtr ps p, .fnPtr ts t => do
      let binds ← ps.match? ts binds
      p.match? t binds
    -- the other kinds are not taken apart
    | _, _ => none
termination_by structural p

/-- Matches lists of equal length, one type after the other. -/
def Tys.match? (ps ts : Tys) (binds : Binds) : Option Binds :=
  match ps, ts with
  | .nil, .nil => some binds
  | .cons p ps, .cons t ts => do
    let binds ← p.match? t binds
    ps.match? ts binds
  | _, _ => none
termination_by structural ps

/-- Matches argument lists of equal length, one slot after the other. -/
def Slots.match? (ps as : Slots) (binds : Binds) : Option Binds :=
  match ps, as with
  | .nil, .nil => some binds
  | .ty p ps, .ty t as => do
    let binds ← p.match? t binds
    ps.match? as binds
  | .const p ps, .const c as => do
    let binds ← p.match? c binds
    ps.match? as binds
  | _, _ => none
termination_by structural ps

end

namespace Ty

/-- The arguments for `count` parameters with which a pattern becomes the given type. Every
    parameter must occur in the pattern. -/
def matchArgs (count : Nat) (pattern t : Ty) : Option Args := do
  let binds ← match? pattern t (List.replicate count none)
  binds.toArgs?

example : matchArgs 1 (adt 3 [.ty (param 0)]) (adt 3 [.ty unit]) = some [.ty unit] := by decide

end Ty

end Monomorph
