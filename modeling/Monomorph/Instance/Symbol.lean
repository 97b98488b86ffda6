import Monomorph.Instance.Basic
import Monomorph.Text.Hash
import Monomorph.Text.Path

/-!
# Symbols

The symbol of an instance is its name for the linker. It begins with a fixed mark, the name of the
crate and the path of the item, all spelled with letters, digits, underscores and dollar signs.
What follows is announced by a dot, which no spelled name contains: a hash of the arguments where
there are any, and a mark for vtable entries. Drop glue has a mark in place of a path.

Symbols do not give the instance back; they only have to differ where instances do.
-/

namespace Monomorph

namespace Symbol

/-- A letter, digit or underscore, which is spelled as it is. -/
def isPlain (c : Char) : Bool :=
  ('a' ≤ c && c ≤ 'z') || ('A' ≤ c && c ≤ 'Z') || ('0' ≤ c && c ≤ '9') || c == '_'

/-- The spelling of a character. Some marks have short forms, a blank becomes an underscore, and
    every other character is spelled by its number. -/
def spellChar (c : Char) : List Char :=
  if isPlain c then [c] else
  match c with
  | '<' => ['$', 'L', 'T']
  | '>' => ['$', 'G', 'T']
  | ',' => ['$', 'C']
  | ' ' => ['_']
  | '[' => ['$', 'L', 'B']
  | ']' => ['$', 'R', 'B']
  | '(' => ['$', 'L', 'P']
  | ')' => ['$', 'R', 'P']
  | ':' => ['$', 'C', 'C']
  | '-' => ['$', 'D']
  | c => '$' :: Text.hexDigits 2 c.toNat

/-- The spelling of a name. -/
def spell (name : List Char) : List Char := name.flatMap spellChar

/-- The spelling of a path, a dollar sign between its segments. -/
def spellPath (path : List Char) : List Char :=
  Text.joinSegments ['$'] ((Text.segments path).map spell)

/-- What every symbol begins with. -/
def mark : List Char := ['_', 'o', 'r', 'i', '_']

/-- The part of a symbol that says what is instantiated. -/
def stem (p : Program) : InstanceDef → List Char
  | .item i | .static i | .vtableShim i =>
    spell (p.crateName (p.item i).provenance.origin).toList ++ ['$'] ++
      spellPath (p.item i).path.toList
  -- glue is named after the crate that makes it, whatever type it drops
  | .dropGlue => spell p.localName.toList ++ ".drop".toList

/-- The part of a symbol that says with which arguments. -/
def argsMark (p : Program) (args : Args) : List Char :=
  -- an instance without arguments has no hash, not that of an empty list
  if args.isEmpty then [] else '.' :: 'G' :: Text.Hash.digits (args.text p.qualifiedNames)

/-- The part of a symbol that tells entries of vtables from the methods they call. -/
def shimMark : InstanceDef → List Char
  | .vtableShim _ => ".vtshim".toList
  | _ => []

end Symbol

/-- The symbol of an instance. -/
def Instance.symbol (p : Program) (inst : Instance) : String :=
  String.ofList <|
    Symbol.mark ++ Symbol.stem p inst.what ++ Symbol.argsMark p inst.args ++
      Symbol.shimMark inst.what

end Monomorph
