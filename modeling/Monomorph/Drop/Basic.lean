import Monomorph.Index
import Monomorph.Instance.Basic
import Monomorph.Ty.Subst

/-!
# Dropping values

Dropping a value of a type may run code: freeing what it owns or calling a method the program
declares. `Program.dropShape` says what the top layer of a type contributes, and
`Program.needsDrop` follows the parts that lie inside the value.

Answers are remembered. While a type is being classified it counts as harmless wherever it turns
up inside itself, and the answers found on the way are remembered like all others; so for types
that contain themselves the answer may depend on what was asked before. Types can grow without end
through their fields, so the search takes fuel and gives `none` when it runs out; more fuel never
changes an answer.

What is remembered also says which types have been made on the way, for those who keep a table of
all types (`DropMemo.formed`). No answer depends on it.
-/

namespace Monomorph

/-- A part that lies inside a value. -/
inductive DropPart where
  /-- A part whose type stands in the type of the value. -/
  | inner (t : Ty)
  /-- A field whose type is declared with parameters. -/
  | field (args : Args) (t : Ty)

namespace DropPart

/-- The type of a part, if it can be made. -/
def ty : DropPart → Except SubstError Ty
  | inner t => .ok t
  | field args t => t.subst args

/-- The types made on the way to the type of a part. -/
def formed : DropPart → List Ty
  | inner _ => []
  | field args t => t.formed args

end DropPart

/-- What dropping a value amounts to, as far as the top layer of its type shows. -/
inductive DropShape where
  /-- Nothing is run. -/
  | trivial
  /-- Something is run whatever the parts are. -/
  | always
  /-- Something is run if one of the parts inside the value needs it. A part whose type cannot be
      made counts as one that does. -/
  | parts (ps : List DropPart)

/-- What classifying types has left behind. -/
structure DropMemo where
  /-- The answers for the types classified so far. -/
  answers : Index Ty Bool := {}
  /-- The types made on the way. -/
  formed : List Ty := []
  deriving Inhabited

namespace DropMemo

/-- The remembered answer for a type. -/
def find? (m : DropMemo) (t : Ty) : Option Bool := m.answers.get? t

/-- Remembers an answer. -/
def record (m : DropMemo) (t : Ty) (b : Bool) : DropMemo :=
  { m with answers := m.answers.insert t b }

/-- Notes that types have been made. -/
def note (m : DropMemo) (ts : List Ty) : DropMemo := { m with formed := ts ++ m.formed }

end DropMemo

/-- What drop glue is made of: the declared method with its arguments, and the types whose own
    glue has to be run. -/
structure DropParts where
  method : Option (ItemId × Args) := none
  children : List Ty := []
  deriving DecidableEq

/-- Asks parts in order until one needs drop. -/
def anyPart (ask : Ty → DropMemo → Option (Bool × DropMemo)) :
    List DropPart → DropMemo → Option (Bool × DropMemo)
  | [], m => some (false, m)
  | part :: rest, m =>
    -- noted in any case: parts of the type may have been made before it failed
    let m := m.note part.formed
    match part.ty with
    | .error _ => some (true, m)
    | .ok t =>
      match ask t m with
      | some (false, m) => anyPart ask rest m
      -- a part that needs drop is an answer, and so is running out of fuel
      | found => found

/-- Keeps the types that need drop. -/
def keepParts (ask : Ty → DropMemo → Option (Bool × DropMemo)) :
    List Ty → DropMemo → Option (List Ty × DropMemo)
  | [], m => some ([], m)
  | t :: rest, m => do
    let (b, m) ← ask t m
    let (kept, m) ← keepParts ask rest m
    return (if b then t :: kept else kept, m)

namespace Program

variable (p : Program)

/-- What the top layer of a type contributes to dropping a value of it. -/
def dropShape (t : Ty) : DropShape :=
  match t.node with
  | .prim _ | .fnPtr .. => .trivial
  -- what is not known has to be dropped
  | .dyn _ | .param _ => .always
  | .tuple ts => .parts (ts.map .inner)
  -- an empty array has nothing to drop, whatever its elements would need
  | .array _ (.value 0) => .trivial
  | .array t _ => .parts [.inner t]
  | .wrap .slice t => .parts [.inner t]
  | .wrap .box _ => .always
  | .wrap (.ref _) _ | .wrap (.raw _) _ => .trivial
  | .nominal .adt i args =>
    -- a method is run whatever the fields need
    if (p.dropMethod? i).isSome then .always
    else match (p.item i).kind with
      | .adt fields => .parts (fields.map (.field args))
      | _ => .trivial
  | .nominal .fnDef .. | .nominal .closure .. => .trivial

/-- Classifies a type while others, the busy ones, are being classified. -/
def classify :
    (fuel : Nat) → (busy : Index Ty Unit) → Ty → DropMemo → Option (Bool × DropMemo)
  | 0, _, _, _ => none
  | fuel + 1, busy, t, m =>
    if t.isPrimitive then some (false, m)
    else match m.find? t with
      | some b => some (b, m)
      | none =>
        -- inside itself a type counts as harmless, but that is no answer to remember
        if busy.contains t then some (false, m)
        else match p.dropShape t with
          | .trivial => some (false, m.record t false)
          | .always => some (true, m.record t true)
          | .parts ts =>
            (anyPart (classify fuel (busy.insert t ())) ts m).map fun (b, m) => (b, m.record t b)

/-- Whether dropping a value of a type runs any code. -/
def needsDrop (fuel : Nat) (t : Ty) (m : DropMemo) : Option (Bool × DropMemo) :=
  p.classify fuel {} t m

/-- The glue for a type, if it needs any. What lies behind a trait object is dropped through its
    vtable, so there is no glue for the object itself. -/
def glue? (fuel : Nat) (t : Ty) (m : DropMemo) : Option (Option Instance × DropMemo) :=
  match t with
  | .dyn _ => some (none, m)
  | t => (p.needsDrop fuel t m).map fun (b, m) => (if b then some (Instance.glue t) else none, m)

/-- What the glue for a type could be made of: the declared method, and all the types inside. -/
def glueCandidates (t : Ty) : Except SubstError DropParts :=
  match t.node with
  | .tuple ts => .ok { children := ts }
  | .array t _ | .wrap .slice t => .ok { children := [t] }
  -- what lies behind the object is dropped through its vtable
  | .wrap .box (.dyn _) => .ok {}
  | .wrap .box t => .ok { children := [t] }
  | .nominal .adt i args => do
    let children ← match (p.item i).kind with
      | .adt fields => fields.mapM (Ty.subst args)
      | _ => .ok []
    return { method := (p.dropMethod? i).map (·, args), children }
  | _ => .ok {}

/-- The types made on the way to what the glue for a type could be made of. -/
def glueFormed (t : Ty) : List Ty :=
  match t.node with
  | .nominal .adt i args =>
    match (p.item i).kind with
    | .adt fields => Args.formedAll args fields
    | _ => []
  | _ => []

/-- What the glue for a type is made of. -/
def dropParts (fuel : Nat) (t : Ty) (m : DropMemo) :
    Option (Except SubstError DropParts × DropMemo) :=
  -- all fields have their types before any of them is classified
  let m := m.note (p.glueFormed t)
  match p.glueCandidates t with
  | .error e => some (.error e, m)
  | .ok parts =>
    (keepParts (p.needsDrop fuel) parts.children m).map fun (children, m) =>
      (.ok { parts with children }, m)

/-- A trait object has no glue of its own. -/
theorem glue?_dyn (fuel : Nat) (i : ItemId) (m : DropMemo) :
    p.glue? fuel (.dyn i) m = some (none, m) := rfl

end Program

end Monomorph
