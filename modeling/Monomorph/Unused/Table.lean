import Monomorph.Ty.Basic
import Monomorph.Text.Bytes
import Monomorph.Unused.Set

/-!
# Tables of unused parameters

A table says of some items which of their parameters are unused. Its entries are kept in the order
of the items, each item at most once, so equal tables have equal entries.

A table can be written as bytes and read again by a later run: the number of entries in eight
bytes, then for each entry the item in four and the mask of its set in eight, all with the lowest
byte first. Reading takes a later entry for an item over an earlier one and ignores what follows
the last entry.
-/

namespace Monomorph

/-- The unused parameters of some items. -/
structure UnusedTable where
  entries : List (ItemId × ParamSet)
  sorted : entries.Pairwise (·.1 < ·.1)

namespace UnusedTable

/-- The table without entries. -/
def empty : UnusedTable := ⟨[], List.Pairwise.nil⟩

instance : Inhabited UnusedTable := ⟨empty⟩

/-- The set of an item, if the table has one. -/
def get? (t : UnusedTable) (i : ItemId) : Option ParamSet := t.entries.lookup i

/-- The number of entries. -/
def size (t : UnusedTable) : Nat := t.entries.length

/-- Whether there is no entry. -/
def isEmpty (t : UnusedTable) : Bool := t.entries.isEmpty

/-- Puts an entry at its place in sorted entries, over the one that is there. -/
def insertEntry (i : ItemId) (s : ParamSet) : List (ItemId × ParamSet) → List (ItemId × ParamSet)
  | [] => [(i, s)]
  | e :: rest =>
    if i < e.1 then (i, s) :: e :: rest
    else if i = e.1 then (i, s) :: rest
    else e :: insertEntry i s rest

/-- An insertion adds its own entry and no other. -/
theorem mem_insertEntry {i : ItemId} {s : ParamSet} {es : List (ItemId × ParamSet)}
    {e : ItemId × ParamSet} (h : e ∈ insertEntry i s es) : e = (i, s) ∨ e ∈ es := by
  -- each step puts the entry in and ends, or passes over an entry that stays
  induction es with
  | nil => simpa [insertEntry] using h
  | cons d rest ih =>
    unfold insertEntry at h
    split at h
    · simpa using h
    · split at h <;> simp only [List.mem_cons] at h ⊢
      · exact h.imp_right Or.inr
      · rcases h with h | h
        · exact Or.inr (Or.inl h)
        · exact (ih h).imp_right Or.inr

/-- An insertion keeps the entries in order of their items. -/
theorem pairwise_insertEntry {i : ItemId} {s : ParamSet} {es : List (ItemId × ParamSet)}
    (h : es.Pairwise (·.1 < ·.1)) : (insertEntry i s es).Pairwise (·.1 < ·.1) := by
  -- The entry goes before the first larger item, takes the place of an equal one, or goes further.
  induction es with
  | nil => simp [insertEntry]
  | cons d rest ih =>
    have ⟨hd, hr⟩ := List.pairwise_cons.1 h
    unfold insertEntry
    split
    · next hi =>
      refine List.pairwise_cons.2 ⟨fun e he => ?_, h⟩
      rcases List.mem_cons.1 he with rfl | he
      · exact hi
      · exact Nat.lt_trans hi (hd e he)
    · split
      · next hi => exact List.pairwise_cons.2 ⟨fun e he => hi ▸ hd e he, hr⟩
      · refine List.pairwise_cons.2 ⟨fun e he => ?_, ih hr⟩
        rcases mem_insertEntry he with rfl | he
        · next h1 h2 => exact Nat.lt_of_le_of_ne (Nat.le_of_not_lt h1) (Ne.symm h2)
        · exact hd e he

/-- Sets the entry of an item. -/
def insert (t : UnusedTable) (i : ItemId) (s : ParamSet) : UnusedTable :=
  ⟨insertEntry i s t.entries, pairwise_insertEntry t.sorted⟩

/-- The table of a list of entries; a later one counts. -/
def ofList (es : List (ItemId × ParamSet)) : UnusedTable :=
  es.foldl (fun t e => t.insert e.1 e.2) empty

/-- The first entry decides for its own item. -/
private theorem lookup_cons_eq (i j : ItemId) (s : ParamSet) (es : List (ItemId × ParamSet)) :
    ((i, s) :: es).lookup j = if j = i then some s else es.lookup j := by
  by_cases h : j = i
  · simp [h]
  · have : (j == i) = false := beq_eq_false_iff_ne.2 h
    simp [List.lookup_cons, this, h]

/-- An insertion changes the set of its own item and of no other. -/
theorem get?_insert (t : UnusedTable) (i j : ItemId) (s : ParamSet) :
    (t.insert i s).get? j = if j = i then some s else t.get? j := by
  obtain ⟨es, hs⟩ := t
  simp only [get?, insert]
  -- What follows is about the list alone, and its order plays no part in it.
  clear hs
  induction es with
  | nil => simp only [insertEntry, lookup_cons_eq, List.lookup_nil]
  | cons e rest ih =>
    obtain ⟨k, r⟩ := e
    unfold insertEntry
    split
    · simp only [lookup_cons_eq]
    · split
      · next hk =>
        have hk : i = k := hk
        subst hk
        simp only [lookup_cons_eq]
        by_cases h : j = i <;> simp [h]
      · next hk =>
        have hk : ¬ i = k := hk
        simp only [lookup_cons_eq, ih]
        by_cases h : j = k
        · subst h
          simp [Ne.symm hk]
        · simp [h]

/-- Nothing is known in the empty table. -/
@[simp] theorem get?_empty (i : ItemId) : empty.get? i = none := rfl

/-! ## As bytes -/

/-- Why bytes are not a table. -/
inductive ReadError where
  /-- There are fewer bytes than the entries announced need. -/
  | unexpectedEnd
  deriving DecidableEq, Repr

/-- The wording of the error. -/
def ReadError.message : ReadError → String
  | .unexpectedEnd => "io error: unexpected end of file"

/-- The bytes of an entry. -/
def entryBytes (e : ItemId × ParamSet) : List UInt8 :=
  Text.toLittleEndian 4 e.1 ++ Text.toLittleEndian 8 e.2.mask.toNat

/-- The bytes of a table. -/
def toBytes (t : UnusedTable) : List UInt8 :=
  Text.toLittleEndian 8 t.size ++ t.entries.flatMap entryBytes

/-- The entry in the first twelve bytes. -/
def readEntry (bytes : List UInt8) : ItemId × ParamSet :=
  (Text.littleEndian (bytes.take 4),
    ⟨BitVec.ofNat 64 (Text.littleEndian ((bytes.drop 4).take 8))⟩)

/-- A number of entries, twelve bytes each. -/
def readEntries : Nat → List UInt8 → List (ItemId × ParamSet)
  | 0, _ => []
  | n + 1, bytes => readEntry bytes :: readEntries n (bytes.drop 12)

/-- Reads a table. The number of entries is compared with the bytes at hand before any entry is
    read. -/
def ofBytes (bytes : List UInt8) : Except ReadError UnusedTable :=
  let count := Text.littleEndian (bytes.take 8)
  if bytes.length < 8 + 12 * count ∨ bytes.length < 8 then .error .unexpectedEnd
  else .ok (ofList (readEntries count (bytes.drop 8)))

/-- Every entry takes twelve bytes. -/
theorem length_flatMap_entryBytes (es : List (ItemId × ParamSet)) :
    (es.flatMap entryBytes).length = 12 * es.length := by
  induction es with
  | nil => rfl
  | cons e es ih => simp [entryBytes, ih]; omega

/-- A table takes eight bytes and twelve for each entry. -/
theorem length_toBytes (t : UnusedTable) : t.toBytes.length = 8 + 12 * t.size := by
  rw [toBytes, List.length_append, Text.length_toLittleEndian, length_flatMap_entryBytes, size]

end UnusedTable

end Monomorph
