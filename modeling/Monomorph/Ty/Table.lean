import Monomorph.Ty.Shard
import Monomorph.Ty.Subst

/-!
# A table of types

A table keeps one entry for each type that has been seen and names it by a handle. A node is looked
up by its own kind and the handles of its children, so two types have one handle exactly when they
are equal, and types whose written-out form would be huge stay small. Each entry carries its type,
made from the types of the children's entries, so equal types in a table lie in one place.

A node that is not built in belongs to the shard that its hash says. Which hash that is never
matters, as long as it is a function of the node; so a table carries its hash along, and what is
said of tables is said for every hash. A full shard takes no more in: `TyTable.intern?` has no
answer then.

What a table holds is read off by `TyTable.entryAt?`, and `TyTable.entryAt?_push` says how it grows.
-/

namespace Monomorph

namespace TyTable

/-- The number of shards. -/
abbrev shardCount : Nat := 16

/-- The shards of a table. -/
abbrev Shards := Vector Shard shardCount

namespace Shards

/-- The entry that a handle names. -/
def entryAt? (shards : Shards) (h : Handle) : Option Entry :=
  shards[h.shard]?.bind (·.entries[h.place]?)

/-- Lets one shard take in an entry. -/
def insert (shards : Shards) (s : Nat) (e : Entry) : Shards :=
  -- the shard is changed where it is, and the number of shards stays the same
  ⟨shards.toArray.modify s (·.insert e), by simp⟩

/-- An insertion changes one shard and leaves the others. -/
theorem getElem?_insert (shards : Shards) (s t : Nat) (e : Entry) :
    (shards.insert s e)[t]? = if s = t then shards[t]?.map (·.insert e) else shards[t]? := by
  simp [insert, Array.getElem?_modify]

/-- An entry taken in at the end of a shard has the handle of that place, and no other handle names
    anything else than before. -/
theorem entryAt?_insert {shards : Shards} {s : Nat} {shard : Shard} {e : Entry}
    (hshard : shards[s]? = some shard) (new : shard.Lacks e.node) (h : Handle) :
    (shards.insert s e).entryAt? h =
      if h = .ofParts s shard.entries.size then some e else shards.entryAt? h := by
  rw [entryAt?, getElem?_insert, entryAt?]
  -- Only a handle into the shard that grew can change its entry, and there only the one behind the
  -- last.
  by_cases hs : s = h.shard
  · subst hs
    rw [if_pos rfl, hshard, Option.map_some, Option.bind_some, Option.bind_some,
      Shard.entries_insert new, Array.getElem?_push]
    by_cases hplace : h.place = shard.entries.size
    · rw [if_pos hplace, if_pos]
      rw [← hplace, Handle.ofParts_shard_place]
    · rw [if_neg hplace, if_neg]
      intro hh
      rw [hh, Handle.place_ofParts new.2.2] at hplace
      exact hplace rfl
  · rw [if_neg hs, if_neg]
    rintro rfl
    exact hs (Handle.shard_ofParts new.2.2).symm

end Shards

end TyTable

/-- A table of types. -/
structure TyTable where
  hash : TyNode Handle → UInt64
  shards : TyTable.Shards
  /-- The number of types seen. -/
  size : Nat
  /-- The handle of each type that is not built in. -/
  places : Index Ty Handle
  places_sound : ∀ {t : Ty} {h : Handle},
    places.get? t = some h → (shards.entryAt? h).map TyTable.Entry.ty = some t

namespace TyTable

/-- The shards of a table that has seen the built-in types alone. -/
def startShards : Shards :=
  Vector.ofFn fun s : Fin shardCount => if s.val = 0 then .withBuiltIns else {}

/-- The table that has seen the built-in types alone. -/
def startWith (hash : TyNode Handle → UInt64) : TyTable where
  hash
  shards := startShards
  size := builtIns.length
  places := {}
  places_sound := by simp

/-- The table that has seen the built-in types alone, with the fingerprint for a hash. -/
def start : TyTable := startWith (TyNode.fingerprint Nat.toUInt64)

instance : Inhabited TyTable := ⟨start⟩

/-- Whether no type has been seen that is not built in. -/
def isEmpty (table : TyTable) : Bool := decide (table.size ≤ builtIns.length)

/-- What is kept of the type that a handle names. -/
def entryAt? (table : TyTable) (h : Handle) : Option Entry := table.shards.entryAt? h

/-- The kind of the type that a handle names, with handles for its children. -/
def nodeAt? (table : TyTable) (h : Handle) : Option (TyNode Handle) :=
  (table.entryAt? h).map Entry.node

/-- The type that a handle names. -/
def ty (table : TyTable) (h : Handle) : Ty := ((table.entryAt? h).getD .unit).ty

/-- The measure of the type that a handle names. -/
def measure (table : TyTable) (h : Handle) : Measure := ((table.entryAt? h).getD .unit).measure

/-- The measure that is stored with a handle is that of its type. -/
theorem measure_eq (table : TyTable) (h : Handle) : table.measure h = (table.ty h).measure :=
  ((table.entryAt? h).getD .unit).measure_eq

/-- The shard that a node belongs to. -/
def shardOf (table : TyTable) (node : TyNode Handle) : Fin shardCount :=
  ⟨(table.hash node % 16).toNat, by
    rw [UInt64.toNat_mod]
    exact Nat.mod_lt _ (by decide)⟩

/-- The shard that a node belongs to, with all that is in it. -/
def shard (table : TyTable) (node : TyNode Handle) : Shard := table.shards[table.shardOf node]

/-- The handle of a node, if it has been seen. -/
def find? (table : TyTable) (node : TyNode Handle) : Option Handle :=
  match node.builtIn? with
  | some h => some h
  -- a place is no handle without the shard that it lies in
  | none => ((table.shard node).index.get? node).map (.ofParts (table.shardOf node))

/-- The handle of a type, if it has been seen and is not built in. -/
def handle? (table : TyTable) (t : Ty) : Option Handle := table.places.get? t

/-- What is kept for a node, from what is kept for its children. -/
def entry (table : TyTable) (node : TyNode Handle) : Entry where
  node
  ty := .of (node.map table.ty)
  measure := .ofNode (node.map table.measure)
  measure_eq := by
    -- both measures are made from the same layer, with children that agree
    rw [Ty.measure_of, TyNode.map_map]
    exact congrArg (fun f => Measure.ofNode (node.map f)) (funext table.measure_eq)

/-- Whether a node that has not been seen can be entered. -/
def HasRoom (table : TyTable) (node : TyNode Handle) : Prop :=
  (table.shard node).entries.size < Handle.room

instance (table : TyTable) (node : TyNode Handle) : Decidable (table.HasRoom node) :=
  inferInstanceAs (Decidable (_ < _))

/-- The handle that a node gets when it is entered. -/
def nextHandle (table : TyTable) (node : TyNode Handle) : Handle :=
  .ofParts (table.shardOf node) (table.shard node).entries.size

/-- A node is missing where it is neither built in nor in the index of its shard. -/
theorem find?_eq_none_iff {table : TyTable} {node : TyNode Handle} : table.find? node = none ↔
    node.builtIn? = none ∧ (table.shard node).index.get? node = none := by
  unfold find?
  cases node.builtIn? <;> simp

/-- Every node has a shard of the table to go to. -/
theorem getElem?_shardOf (table : TyTable) (node : TyNode Handle) :
    table.shards[(table.shardOf node).val]? = some (table.shard node) := by
  simp [shard]

/-- After an insertion the new handle gives the new entry and every other one what it gave. -/
private theorem entryAt?_insert {table : TyTable} {node : TyNode Handle}
    (new : table.find? node = none) (room : table.HasRoom node) (h : Handle) :
    (table.shards.insert (table.shardOf node) (table.entry node)).entryAt? h =
      if h = table.nextHandle node then some (table.entry node) else table.entryAt? h :=
  have hnew := find?_eq_none_iff.1 new
  Shards.entryAt?_insert (table.getElem?_shardOf node) ⟨hnew.1, hnew.2, room⟩ h

/-- No handle has been given out that a new node gets. -/
theorem entryAt?_nextHandle {table : TyTable} {node : TyNode Handle} (room : table.HasRoom node) :
    table.entryAt? (table.nextHandle node) = none := by
  rw [entryAt?, Shards.entryAt?, nextHandle, Handle.shard_ofParts room, Handle.place_ofParts room,
    getElem?_shardOf, Option.bind_some]
  exact Array.getElem?_eq_none (Nat.le_refl _)

/-- Enters a node that has not been seen. -/
def push (table : TyTable) (node : TyNode Handle) (new : table.find? node = none)
    (room : table.HasRoom node) : TyTable :=
  let h := table.nextHandle node
  let e := table.entry node
  { hash := table.hash
    shards := table.shards.insert (table.shardOf node) e
    size := table.size + 1
    places := table.places.insert e.ty h
    places_sound := by
      intro t i
      simp only [h, e]
      rw [Index.get?_insert, entryAt?_insert new room]
      split
      · next ht =>
        rintro ⟨rfl⟩
        rw [if_pos rfl, Option.map_some, ht]
      · intro ht
        have hsound := table.places_sound ht
        rw [if_neg]
        · exact hsound
        · rintro rfl
          have hnone : table.shards.entryAt? (table.nextHandle node) = none :=
            entryAt?_nextHandle room
          rw [hnone] at hsound
          cases hsound }

/-- The handle of a node. A node not seen before is entered into its shard; where that is full, the
    table stays as it is and the first handle stands in. -/
def intern (node : TyNode Handle) (table : TyTable) : Handle × TyTable :=
  match new : table.find? node with
  | some h => (h, table)
  | none =>
    if room : table.HasRoom node then (table.nextHandle node, table.push node new room)
    else (0, table)

/-- The handle of a node, which is entered if it has not been seen. There is none where the shard
    is full. -/
def intern? (node : TyNode Handle) (table : TyTable) : Option (Handle × TyTable) :=
  if (table.find? node).isSome ∨ table.HasRoom node then some (table.intern node) else none

end TyTable

mutual

/-- Enters a type with all its parts, children first, unless it has been seen. -/
def Ty.enter (t : Ty) (table : TyTable) : Handle × TyTable :=
  match table.handle? t with
  | some h => (h, table)
  | none =>
    match t with
    | .prim p => table.intern (.prim p)
    | .tuple ts =>
      let (hs, table) := ts.enter table
      table.intern (.tuple hs)
    | .array t n =>
      let (h, table) := t.enter table
      table.intern (.array h n)
    | .wrap w t =>
      let (h, table) := t.enter table
      table.intern (.wrap w h)
    | .nominal k i as =>
      let (hs, table) := as.enter table
      table.intern (.nominal k i hs)
    | .dyn i => table.intern (.dyn i)
    | .fnPtr ins out =>
      let (hs, table) := ins.enter table
      let (h, table) := out.enter table
      table.intern (.fnPtr hs h)
    | .param i => table.intern (.param i)
termination_by structural t

/-- Enters each type of a list, one after the other. -/
def Tys.enter : Tys → TyTable → List Handle × TyTable
  | .nil, table => ([], table)
  | .cons t ts, table =>
    let (h, table) := t.enter table
    let (hs, table) := ts.enter table
    (h :: hs, table)
termination_by structural ts => ts

/-- Enters the type in each slot of a list, one after the other. -/
def Slots.enter : Slots → TyTable → List (Arg Handle) × TyTable
  | .nil, table => ([], table)
  | .ty t as, table =>
    let (h, table) := t.enter table
    let (hs, table) := as.enter table
    (.ty h :: hs, table)
  | .const c as, table =>
    let (hs, table) := as.enter table
    (.const c :: hs, table)
termination_by structural as => as

end

namespace TyTable

/-- Enters a type with all its parts. -/
def add (t : Ty) (table : TyTable) : Handle × TyTable := t.enter table

/-- Enters each type of a list with all its parts. -/
def addAll (ts : List Ty) (table : TyTable) : TyTable :=
  ts.foldl (fun table t => (table.add t).2) table

/-- Enters every type of an argument list with all its parts. -/
def addArgs (args : Args) (table : TyTable) : TyTable := table.addAll args.types

/-- The written form of a handle. -/
def handleText (h : Handle) : String :=
  "Ty(" ++ toString h.shard ++ ":" ++ toString h.place ++ ")"

/-! ## What a table holds -/

/-- The handle found for a type names it. -/
theorem ty_of_handle? {table : TyTable} {t : Ty} {h : Handle} (ht : table.handle? t = some h) :
    table.ty h = t := by
  obtain ⟨e, he, rfl⟩ := Option.map_eq_some_iff.1 (table.places_sound ht)
  rw [ty, entryAt?, he, Option.getD_some]

/-- A node that is entered gets the next handle of its shard, and all other handles name what they
    named before. -/
theorem entryAt?_push {table : TyTable} {node : TyNode Handle} (new : table.find? node = none)
    (room : table.HasRoom node) (h : Handle) : (table.push node new room).entryAt? h =
      if h = table.nextHandle node then some (table.entry node) else table.entryAt? h :=
  entryAt?_insert new room h

example : (start.add (.tupleOf [.box .unit, .box .unit])).2.size = 21 := by decide +kernel

end TyTable

end Monomorph
