import Monomorph.Index
import Monomorph.Ty.Equality

/-!
# Shards

A table of types spreads its entries over shards. A handle names a shard and a place in it, packed
into one number: the place takes the low 28 bits and the shard stands above it. `Handle.ofParts`
packs, `Handle.shard` and `Handle.place` read the two off again.

The built-in types have handles of their own, the first places of the first shard. They are kept
there for look-up alone: no index knows them, since their handles are known without looking.
-/

namespace Monomorph

/-- Where a type lies in a table: the shard and the place in it, in one number. -/
abbrev Handle := Nat

namespace Handle

/-- The number of places that a shard has. -/
def room : Nat := 0x10000000

/-- The handle of a place in a shard. -/
def ofParts (shard place : Nat) : Handle := (shard <<< 28) ||| place

/-- The shard that a handle names. -/
def shard (h : Handle) : Nat := h >>> 28

/-- The place that a handle names. -/
def place (h : Handle) : Nat := h &&& 0xfffffff

/-- The bits of the two parts do not overlap, so a handle is their sum. -/
private theorem ofParts_eq_add {shard place : Nat} (h : place < room) :
    ofParts shard place = shard * room + place := by
  rw [ofParts, ← Nat.shiftLeft_add_eq_or_of_lt h, Nat.shiftLeft_eq]
  rfl

/-- The shard of a handle is its high part. -/
private theorem shard_eq_div (h : Handle) : h.shard = h / room := Nat.shiftRight_eq_div_pow h 28

/-- The place of a handle is its low part. -/
private theorem place_eq_mod (h : Handle) : h.place = h % room :=
  Nat.and_two_pow_sub_one_eq_mod h 28

/-- A place fits into a shard. -/
theorem place_lt_room (h : Handle) : h.place < room := by
  rw [place_eq_mod]
  exact Nat.mod_lt _ (by decide)

/-- The shard is read back from a handle. -/
@[simp] theorem shard_ofParts {shard place : Nat} (h : place < room) :
    (ofParts shard place).shard = shard := by
  rw [ofParts_eq_add h, shard_eq_div, Nat.mul_comm,
    Nat.mul_add_div (Nat.lt_of_le_of_lt (Nat.zero_le _) h), Nat.div_eq_of_lt h, Nat.add_zero]

/-- The place is read back from a handle. -/
@[simp] theorem place_ofParts {shard place : Nat} (h : place < room) :
    (ofParts shard place).place = place := by
  rw [ofParts_eq_add h, place_eq_mod, Nat.mul_comm, Nat.mul_add_mod, Nat.mod_eq_of_lt h]

/-- A handle is put back together from its parts. -/
@[simp] theorem ofParts_shard_place (h : Handle) : ofParts h.shard h.place = h := by
  rw [ofParts_eq_add h.place_lt_room, shard_eq_div, place_eq_mod, Nat.mul_comm, Nat.div_add_mod]

end Handle

instance : Hashable (TyNode Handle) := ⟨TyNode.fingerprint Nat.toUInt64⟩

/-- The fixed handle of a built-in type. -/
def TyNode.builtIn? {α : Type} : TyNode α → Option Handle
  | .prim p => some p.ctorIdx
  | .tuple [] => some 18
  | _ => none

namespace TyTable

/-- What a table keeps of one type. The measure is that of the type, kept so that nothing needs to
    look inside the type again. -/
structure Entry where
  node : TyNode Handle
  ty : Ty
  measure : Measure
  measure_eq : measure = ty.measure

namespace Entry

/-- What is known of every built-in type. -/
def builtInMeasure : Measure :=
  { flags := { isPrimitive := true }, length := 1, depth := 1, params := [] }

/-- What is kept of a built-in type that is no tuple. -/
def prim (p : Prim) : Entry where
  node := .prim p
  ty := .prim p
  measure := builtInMeasure
  measure_eq := rfl

/-- What is kept of the empty tuple. -/
def unit : Entry where
  node := .tuple []
  ty := .unit
  measure := builtInMeasure
  measure_eq := rfl

end Entry

/-- The entries of the built-in types, in the order of their handles. -/
def builtIns : List Entry := Prim.all.map Entry.prim ++ [Entry.unit]

/-- The entry of a built-in type lies where its handle says. -/
theorem exists_builtIns_of_builtIn? {node : TyNode Handle} {h : Handle}
    (hnode : node.builtIn? = some h) : ∃ e, builtIns[h]? = some e ∧ e.node = node := by
  -- Only primitives and the empty tuple are built in.
  cases node with
  | prim p =>
    obtain rfl := Option.some.inj hnode
    exact ⟨.prim p, by cases p <;> rfl, rfl⟩
  | tuple ts =>
    cases ts with
    | nil =>
      obtain rfl := Option.some.inj hnode
      exact ⟨.unit, rfl, rfl⟩
    | cons t ts => cases hnode
  | _ => cases hnode

/-- All entries there are those of built-in types. -/
theorem builtIn?_of_builtIns {h : Handle} {e : Entry} (he : builtIns[h]? = some e) :
    e.node.builtIn? = some h := by
  -- the nineteen entries are looked at one by one
  have hall : ∀ i < 19, (builtIns[i]?.bind fun e => e.node.builtIn?) = some i := by decide
  obtain ⟨hlt, -⟩ := List.getElem?_eq_some_iff.1 he
  simpa [he] using hall h hlt

/-- The entries of one shard in the order in which they came in, with an index from nodes to
    places. Built-in types are not in the index. -/
structure Shard where
  entries : Array Entry := #[]
  index : Index (TyNode Handle) Nat := {}
  index_eq_some_iff : ∀ {node : TyNode Handle} {place : Nat}, index.get? node = some place ↔
    node.builtIn? = none ∧ entries[place]?.map Entry.node = some node := by simp
  size_le_room : entries.size ≤ Handle.room := by decide

namespace Shard

/-- The shard that has the built-in types at its first places. -/
def withBuiltIns : Shard where
  entries := builtIns.toArray
  index_eq_some_iff := by
    intro node place
    rw [Index.get?_empty, List.getElem?_toArray, Option.map_eq_some_iff]
    refine iff_of_false (Option.some_ne_none _).symm ?_
    rintro ⟨hnone, e, he, rfl⟩
    exact Option.some_ne_none _ ((builtIn?_of_builtIns he).symm.trans hnone)

/-- Whether a node is not built in and has not been seen in a shard, and there is a place for it. -/
def Lacks (shard : Shard) (node : TyNode Handle) : Prop :=
  node.builtIn? = none ∧ shard.index.get? node = none ∧ shard.entries.size < Handle.room

instance (shard : Shard) (node : TyNode Handle) : Decidable (shard.Lacks node) :=
  inferInstanceAs (Decidable (_ ∧ _ ∧ _))

/-- Takes in an entry at the end, if its node is lacking. The number of entries is looked up before
    they grow, so that they need not be copied. -/
def insert (e : Entry) (shard : Shard) : Shard :=
  if new : shard.Lacks e.node then
    let last := shard.entries.size
    { entries := shard.entries.push e
      index := shard.index.insert e.node last
      index_eq_some_iff := by
        intro node place
        simp only [last]
        rw [Index.get?_insert, Array.getElem?_push]
        -- the key is the new one or not, and so is the place
        by_cases hnode : e.node = node <;> by_cases hplace : place = shard.entries.size
        · simp [hplace, ← hnode, new.1]
        · have hnone := new.2.1
          rw [hnode] at hnone
          rw [if_pos hnode, if_neg hplace, ← shard.index_eq_some_iff, hnone]
          simp [Ne.symm hplace]
        · have hne : shard.index.get? node ≠ some shard.entries.size := by
            simp [shard.index_eq_some_iff]
          simp [hnode, hplace, hne]
        · simp [hnode, hplace, shard.index_eq_some_iff]
      size_le_room := by
        rw [Array.size_push]
        exact new.2.2 }
  else shard

/-- A node that is new to a shard is put at its end. -/
theorem entries_insert {shard : Shard} {e : Entry} (new : shard.Lacks e.node) :
    (shard.insert e).entries = shard.entries.push e := by
  rw [insert, dif_pos new]

end Shard

end TyTable

end Monomorph
