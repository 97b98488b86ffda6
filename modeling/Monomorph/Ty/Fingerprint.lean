import Monomorph.Ty.Node

/-!
# Fingerprints

A fingerprint is a 64-bit number made from the structure of a type. Equal types have equal
fingerprints, so two types whose fingerprints differ are different, and that is how nearly every
comparison ends. A table that looks for types by their fingerprints finds few in one place.

Fingerprints are made with `Fingerprint.mix` from the numbers of the parts. `TyNode.fingerprint`
does so for one layer, and every type carries the result along (`Monomorph.Ty.Basic`). Nothing but
the time an answer takes depends on which number a type has.
-/

namespace Monomorph

/-- A number made from the structure of a value. -/
abbrev Fingerprint := UInt64

/-- Makes one number of two so that every bit of either may change every bit of the result. -/
def Fingerprint.mix (a b : Fingerprint) : Fingerprint :=
  let x := a * 0x9e3779b97f4a7c15 + b
  let y := (x ^^^ (x >>> 32)) * 0xd6e8feb86659fd93
  y ^^^ (y >>> 32)

/-- Makes one number of a list of them. -/
def Fingerprint.mixAll : List Fingerprint → Fingerprint
  | [] => 0
  | a :: as => mix a (mixAll as)

namespace Prim

/-- The number of a built-in type. -/
def fingerprint (p : Prim) : Fingerprint := p.ctorIdx.toUInt64

end Prim

namespace Wrapper

/-- The number of a type former. -/
def fingerprint : Wrapper → Fingerprint
  | slice => 0
  | ref .shared => 1
  | ref .exclusive => 2
  | raw .shared => 3
  | raw .exclusive => 4
  | box => 5

end Wrapper

namespace Nominal

/-- The number of a kind of nominal type. -/
def fingerprint (k : Nominal) : Fingerprint := k.ctorIdx.toUInt64

end Nominal

namespace Const

/-- The number of a constant. -/
def fingerprint : Const → Fingerprint
  | value n => .mix 0 n.toUInt64
  | param i => .mix 1 i.toUInt64

end Const

/-- The number of a slot, from that of the type in it. -/
def Arg.fingerprint {α : Type} (f : α → Fingerprint) : Arg α → Fingerprint
  | ty t => f t
  | const c => c.fingerprint

/-- The number of a layer, from those of its children. -/
def TyNode.fingerprint {α : Type} (f : α → Fingerprint) : TyNode α → Fingerprint
  | prim p => .mix 1 p.fingerprint
  | tuple ts => .mix 2 (.mixAll (ts.map f))
  | array t n => .mix 3 (.mix (f t) n.fingerprint)
  | wrap w t => .mix 4 (.mix w.fingerprint (f t))
  | nominal k i as =>
    .mix 5 (.mix k.fingerprint (.mix i.toUInt64 (.mixAll (as.map (Arg.fingerprint f)))))
  | dyn i => .mix 6 i.toUInt64
  | fnPtr ins out => .mix 7 (.mix (.mixAll (ins.map f)) (f out))
  | param i => .mix 8 i.toUInt64

end Monomorph
