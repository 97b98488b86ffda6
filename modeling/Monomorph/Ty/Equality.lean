import Monomorph.Ty.Basic

/-!
# Equality of types

Two types are equal when they agree layer by layer, which is what `Ty.same` finds out. Most often
there is no need to look that far: two types that lie at one place in memory are equal, and types
of different fingerprints are not.

Equal types that were made apart from each other need not lie at one place, and neither need their
parts. So before two large types are compared, `Ty.sameShared` brings all their equal parts to one
place each. That takes time proportional to the number of different parts, however often each of
them occurs. Places in memory decide how soon an answer is found and never which one it is.
-/

namespace Monomorph

mutual

/-- Decides whether two types are equal. -/
def Ty.same (a b : Ty) : Decidable (a = b) :=
  withPtrEqDecEq a b fun _ =>
    match a with
    | .prim p =>
      match b with
      | .prim q => decidable_of_iff (p = q) (by simp)
      | .tuple .. | .array .. | .wrap .. | .nominal .. | .dyn .. | .fnPtr .. | .param .. =>
        isFalse nofun
    | .tuple ts =>
      match b with
      | .tuple us => @decidable_of_iff _ (ts = us) (by simp) (ts.same us)
      | .prim .. | .array .. | .wrap .. | .nominal .. | .dyn .. | .fnPtr .. | .param .. =>
        isFalse nofun
    | .array t m =>
      match b with
      | .array u n => @decidable_of_iff _ (m = n ∧ t = u) (by simp [and_comm])
          (@instDecidableAnd _ _ _ (t.same u))
      | .prim .. | .tuple .. | .wrap .. | .nominal .. | .dyn .. | .fnPtr .. | .param .. =>
        isFalse nofun
    | .wrap v t =>
      match b with
      | .wrap w u => @decidable_of_iff _ (v = w ∧ t = u) (by simp)
          (@instDecidableAnd _ _ _ (t.same u))
      | .prim .. | .tuple .. | .array .. | .nominal .. | .dyn .. | .fnPtr .. | .param .. =>
        isFalse nofun
    | .nominal k i as =>
      match b with
      | .nominal l j bs =>
        @decidable_of_iff _ ((k = l ∧ i = j) ∧ as = bs) (by simp [and_assoc])
          (@instDecidableAnd _ _ _ (as.same bs))
      | .prim .. | .tuple .. | .array .. | .wrap .. | .dyn .. | .fnPtr .. | .param .. =>
        isFalse nofun
    | .dyn i =>
      match b with
      | .dyn j => decidable_of_iff (i = j) (by simp)
      | .prim .. | .tuple .. | .array .. | .wrap .. | .nominal .. | .fnPtr .. | .param .. =>
        isFalse nofun
    | .fnPtr ins out =>
      match b with
      | .fnPtr jns put => @decidable_of_iff _ (ins = jns ∧ out = put) (by simp)
          (@instDecidableAnd _ _ (ins.same jns) (out.same put))
      | .prim .. | .tuple .. | .array .. | .wrap .. | .nominal .. | .dyn .. | .param .. =>
        isFalse nofun
    | .param i =>
      match b with
      | .param j => decidable_of_iff (i = j) (by simp)
      | .prim .. | .tuple .. | .array .. | .wrap .. | .nominal .. | .dyn .. | .fnPtr .. =>
        isFalse nofun
termination_by structural a

/-- Decides whether two lists of types are equal. -/
def Tys.same (a b : Tys) : Decidable (a = b) :=
  match a, b with
  | .nil, .nil => isTrue rfl
  | .cons t ts, .cons u us =>
    @decidable_of_iff _ (t = u ∧ ts = us) (by simp)
      (@instDecidableAnd _ _ (t.same u) (ts.same us))
  | .nil, .cons .. | .cons .., .nil => isFalse nofun
termination_by structural a

/-- Decides whether two lists of arguments are equal. -/
def Slots.same (a b : Slots) : Decidable (a = b) :=
  match a, b with
  | .nil, .nil => isTrue rfl
  | .ty t as, .ty u bs =>
    @decidable_of_iff _ (t = u ∧ as = bs) (by simp)
      (@instDecidableAnd _ _ (t.same u) (as.same bs))
  | .const c as, .const d bs =>
    @decidable_of_iff _ (c = d ∧ as = bs) (by simp)
      (@instDecidableAnd _ _ _ (as.same bs))
  | .nil, .ty .. | .nil, .const .. | .ty .., .nil | .ty .., .const .. | .const .., .nil
  | .const .., .ty .. => isFalse nofun
termination_by structural a

end

/-- The length up to which types are compared where they are. -/
def Ty.smallLength : Nat := 4096

/-- Decides whether two types are equal, however often their parts occur in them. -/
def Ty.sameShared (a b : Ty) : Decidable (a = b) :=
  withPtrEqDecEq a b fun _ =>
    if h : a.fingerprint = b.fingerprint then
      -- a small type is looked through faster than it is shared
      if a.length ≤ Ty.smallLength then a.same b
      else
        let shared := ShareCommon.shareCommon' (a, b)
        -- from here on equal parts lie at one place, and no part is gone through twice
        shared.1.same shared.2
    else isFalse fun e => h (congrArg Ty.fingerprint e)

instance : DecidableEq Ty := Ty.sameShared

instance : Hashable Ty := ⟨Ty.fingerprint⟩

example : Ty.box (.tupleOf [.param 2, .unit]) = .box (.tupleOf [.param 2, .unit]) := by decide

example : Ty.box (.tupleOf [.param 2, .unit]) ≠ .box (.tupleOf [.param 2]) := by decide

end Monomorph
