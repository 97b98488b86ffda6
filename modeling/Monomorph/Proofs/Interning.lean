import Mathlib.Data.Finset.Card
import Mathlib.Data.Finset.Image
import Monomorph.Proofs.Measures
import Monomorph.Ty.Table

/-!
# What a table of types guarantees

A handle stands for a type. What that takes of a table is `TyTable.Valid`: built-in types lie at
their handles, every other entry lies in the shard of its node, its children are in the table, and
the type it carries is made of theirs. In a valid table a node has one handle, and so, by induction
on the type, has a type.

Entering a node whose children are there keeps a table valid and disturbs no entry. From this one
step follows, by induction on the calls made, what holds after any number of them: `Interned` says
which tables there are, and `TyTable.Faithful` what may be relied on.
-/

namespace Monomorph

/-! ## One layer -/

/-- Lists with the same images are the same if the images tell their members apart. -/
theorem map_inj_of_mem {α β : Type} {f : α → β} {xs ys : List α} (h : xs.map f = ys.map f)
    (hinj : ∀ x ∈ xs, ∀ y ∈ ys, f x = f y → x = y) : xs = ys := by
  -- The lists have to be of one length, and are compared element by element.
  induction xs generalizing ys with
  | nil => exact (List.map_eq_nil_iff.1 h.symm).symm
  | cons x xs ih =>
    cases ys with
    | nil => exact nomatch h
    | cons y ys =>
      obtain ⟨hxy, hrest⟩ := List.cons.inj h
      rw [hinj x List.mem_cons_self y List.mem_cons_self hxy, ih hrest fun a ha b hb =>
        hinj a (List.mem_cons_of_mem x ha) b (List.mem_cons_of_mem y hb)]

namespace TyNode

variable {α β : Type}

/-- Mapping keeps the shape. -/
@[simp] theorem shape_map (f : α → β) (n : TyNode α) : (n.map f).shape = n.shape := by
  cases n <;> rfl

/-- Layers with the same images are the same if the images tell their children apart. -/
theorem map_inj_of_slots {f : α → β} {n n' : TyNode α} (h : n.map f = n'.map f)
    (hinj : ∀ c, .ty c ∈ n.slots → ∀ d, .ty d ∈ n'.slots → f c = f d → c = d) : n = n' := by
  -- A layer is its shape with its slots, and mapping changes only types in slots.
  have hshape := congrArg shape h
  have hslots := congrArg slots h
  rw [shape_map, shape_map] at hshape
  rw [slots_map, slots_map] at hslots
  refine eq_of_shape_of_slots hshape (map_inj_of_mem hslots ?_)
  intro a ha b hb hab
  cases a with
  | ty c =>
    cases b with
    | ty d => rw [hinj c ha d hb (Arg.ty.inj hab)]
    | const e => cases hab
  | const e =>
    cases b with
    | ty d => cases hab
    | const e' => exact congrArg Arg.const (Arg.const.inj hab)

/-- What becomes of a layer depends only on what becomes of its children. -/
theorem map_congr_slots {f g : α → β} {n : TyNode α} (h : ∀ c, .ty c ∈ n.slots → f c = g c) :
    n.map f = n.map g := by
  -- the two layers differ in the children at most
  refine eq_of_shape_of_slots (by rw [shape_map, shape_map]) ?_
  rw [slots_map, slots_map]
  refine List.map_congr_left fun a ha => ?_
  cases a with
  | ty c => rw [Arg.map_ty, Arg.map_ty, h c ha]
  | const e => rfl

end TyNode

namespace TyTable

variable {table table' : TyTable} {node : TyNode Handle} {h : Handle} {e : Entry}

/-! ## One call -/

/-- Whether a handle names an entry. -/
def Knows (table : TyTable) (h : Handle) : Prop := ∃ e, table.entryAt? h = some e

instance (table : TyTable) (h : Handle) : Decidable (table.Knows h) :=
  decidable_of_iff ((table.entryAt? h).isSome = true) Option.isSome_iff_exists

/-- The number of entries of a shard. -/
def Shards.load (shards : Shards) (s : Fin shardCount) : Nat := shards[s].entries.size

/-- Whether no shard is full. -/
def Roomy (table : TyTable) : Prop := ∀ s, table.shards.load s < Handle.room

instance (table : TyTable) : Decidable table.Roomy :=
  inferInstanceAs (Decidable (∀ _ : Fin shardCount, _))

/-- What a call can do: it finds the node, or enters it where there is room. -/
inductive Interns (table : TyTable) (node : TyNode Handle) : Handle → TyTable → Prop
  | found {h : Handle} (hfind : table.find? node = some h) : Interns table node h table
  | entered (new : table.find? node = none) (room : table.HasRoom node) :
    Interns table node (table.nextHandle node) (table.push node new room)

/-- An answered call found its node or entered it. -/
theorem interns_of_intern? (hcall : table.intern? node = some (h, table')) :
    table.Interns node h table' := by
  unfold intern? at hcall
  split at hcall
  · next hanswer =>
    -- The call that is answered is one that finds its node or has room for it.
    unfold intern at hcall
    split at hcall
    · next hfind =>
      cases hcall
      exact .found hfind
    · next new =>
      split at hcall
      · next room =>
        cases hcall
        exact .entered new room
      · next hfull =>
        rcases hanswer with hfound | room
        · rw [new] at hfound
          cases hfound
        · exact absurd room hfull
  · cases hcall

/-- A call is answered where there is room. -/
theorem exists_intern? (room : table.HasRoom node) :
    ∃ h table', table.intern? node = some (h, table') :=
  ⟨_, _, if_pos (.inr room)⟩

/-- A call disturbs no entry. -/
theorem Interns.entryAt?_eq (hcall : table.Interns node h table') {i : Handle}
    (hi : table.entryAt? i = some e) : table'.entryAt? i = some e := by
  cases hcall with
  | found => exact hi
  | entered new room =>
    -- the handle that is new has named nothing so far
    rw [entryAt?_push, if_neg]
    · exact hi
    · rintro rfl
      rw [entryAt?_nextHandle room] at hi
      cases hi

/-- The type of a handle is that of its entry. -/
theorem ty_eq_of_entryAt? (he : table.entryAt? h = some e) : table.ty h = e.ty := by
  rw [ty, he, Option.getD_some]

/-- A call leaves the types of known handles as they are. -/
theorem Interns.ty_eq (hcall : table.Interns node h table') {c : Handle} (hc : table.Knows c) :
    table'.ty c = table.ty c := by
  obtain ⟨e, he⟩ := hc
  rw [ty_eq_of_entryAt? he, ty_eq_of_entryAt? (hcall.entryAt?_eq he)]

/-! ## Valid tables -/

/-- Whether handles stand for types. -/
structure Valid (table : TyTable) : Prop where
  builtIn : ∀ h e, builtIns[h]? = some e → table.entryAt? h = some e
  home : ∀ h e, table.entryAt? h = some e →
    e.node.builtIn? = some h ∨ e.node.builtIn? = none ∧ h.shard = table.shardOf e.node
  child : ∀ h e, table.entryAt? h = some e → ∀ c, .ty c ∈ e.node.slots → table.Knows c
  ty_eq : ∀ h e, table.entryAt? h = some e → e.ty = .of (e.node.map table.ty)

/-- At the start the entries are the built-in ones. -/
theorem entryAt?_startWith (hash : TyNode Handle → UInt64) (h : Handle) :
    (startWith hash).entryAt? h = builtIns[h]? := by
  have hfirst : ∀ place : Nat, Handle.ofParts 0 place = place := by simp [Handle.ofParts]
  have hentries : (startWith hash).entryAt? h =
      if h.shard = 0 then builtIns[h.place]? else none := by
    by_cases hshard : h.shard < shardCount <;> by_cases hzero : h.shard = 0 <;>
      simp_all [entryAt?, Shards.entryAt?, startWith, startShards, Shard.withBuiltIns]
  rw [hentries]
  split
  · next hshard => rw [← hfirst h.place, ← hshard, h.ofParts_shard_place]
  · next hshard =>
    -- there are not so many built-in types that one would lie in another shard
    rw [List.getElem?_eq_none]
    by_contra hsmall
    have hroom : h < Handle.room := Nat.lt_trans (Nat.lt_of_not_le hsmall) (by decide)
    have hh : (Handle.ofParts 0 h).shard = 0 := Handle.shard_ofParts hroom
    rw [hfirst] at hh
    exact hshard hh

/-- The built-in entries are those of the primitives and of the empty tuple. -/
theorem mem_builtIns_iff : e ∈ builtIns ↔ (∃ p, e = .prim p) ∨ e = .unit := by
  simp only [builtIns, List.mem_append, List.mem_map, List.mem_singleton]
  refine or_congr_left (exists_congr fun p => ?_)
  rw [and_iff_right (Prim.mem_all p), eq_comm]

/-- The table that has seen the built-in types alone is valid. -/
theorem valid_startWith (hash : TyNode Handle → UInt64) : (startWith hash).Valid where
  builtIn h e he := (entryAt?_startWith hash h).trans he
  home h e he := by
    rw [entryAt?_startWith] at he
    exact .inl (builtIn?_of_builtIns he)
  -- Neither a primitive nor the empty tuple has slots.
  child h e he c hc := by
    rw [entryAt?_startWith] at he
    obtain ⟨p, rfl⟩ | rfl := mem_builtIns_iff.1 (List.mem_of_getElem? he) <;> cases hc
  ty_eq h e he := by
    rw [entryAt?_startWith] at he
    obtain ⟨p, rfl⟩ | rfl := mem_builtIns_iff.1 (List.mem_of_getElem? he) <;> rfl

/-- The node of a handle is that of its entry. -/
theorem nodeAt?_eq_some_iff :
    table.nodeAt? h = some node ↔ ∃ e, table.entryAt? h = some e ∧ e.node = node :=
  Option.map_eq_some_iff

/-- What a handle names whose shard is that of a node. -/
theorem entryAt?_of_shard (hshard : h.shard = table.shardOf node) :
    table.entryAt? h = (table.shard node).entries[h.place]? := by
  rw [entryAt?, Shards.entryAt?, hshard, getElem?_shardOf, Option.bind_some]

namespace Valid

variable (hvalid : table.Valid)
include hvalid

/-- Looking a node up gives the handle that names it. -/
theorem find?_eq_some_iff : table.find? node = some h ↔ table.nodeAt? h = some node := by
  unfold find?
  split
  · next i hi =>
    -- a built-in type has no other handle, for it would lie in a shard then
    rw [Option.some_inj, nodeAt?_eq_some_iff]
    constructor
    · rintro rfl
      obtain ⟨e, he, hnode⟩ := exists_builtIns_of_builtIn? hi
      exact ⟨e, hvalid.builtIn _ e he, hnode⟩
    · rintro ⟨e, he, rfl⟩
      rcases hvalid.home h e he with hbuiltIn | ⟨hnone, -⟩
      · exact Option.some.inj (hi.symm.trans hbuiltIn)
      · cases hi.symm.trans hnone
  · next hnone =>
    rw [Option.map_eq_some_iff, nodeAt?_eq_some_iff]
    constructor
    · rintro ⟨place, hplace, rfl⟩
      obtain ⟨-, hentry⟩ := (table.shard node).index_eq_some_iff.1 hplace
      obtain ⟨e, he, hnode⟩ := Option.map_eq_some_iff.1 hentry
      have hroom : place < Handle.room :=
        Nat.lt_of_lt_of_le (Array.getElem?_eq_some_iff.1 he).1 (table.shard node).size_le_room
      refine ⟨e, ?_, hnode⟩
      rw [entryAt?_of_shard (Handle.shard_ofParts hroom), Handle.place_ofParts hroom]
      exact he
    · rintro ⟨e, he, rfl⟩
      rcases hvalid.home h e he with hbuiltIn | ⟨-, hshard⟩
      · cases hnone.symm.trans hbuiltIn
      · rw [entryAt?_of_shard hshard] at he
        refine ⟨h.place, (table.shard e.node).index_eq_some_iff.2 ⟨hnone, ?_⟩, ?_⟩
        · rw [he, Option.map_some]
        · rw [← hshard, h.ofParts_shard_place]

/-- A node has one handle. -/
theorem eq_of_nodeAt? {i : Handle} (hh : table.nodeAt? h = some node)
    (hi : table.nodeAt? i = some node) : h = i :=
  Option.some.inj ((hvalid.find?_eq_some_iff.2 hh).symm.trans (hvalid.find?_eq_some_iff.2 hi))

/-- The type that a handle names is its node over the types of the children. -/
theorem ty_of_nodeAt? (hh : table.nodeAt? h = some node) :
    table.ty h = .of (node.map table.ty) := by
  obtain ⟨e, he, rfl⟩ := nodeAt?_eq_some_iff.1 hh
  rw [ty_eq_of_entryAt? he]
  exact hvalid.ty_eq h e he

/-- A type has one handle. -/
theorem ty_inj {i : Handle} (hh : table.Knows h) (hi : table.Knows i)
    (hty : table.ty h = table.ty i) : h = i := by
  -- the induction is on the type that both name: what lies below it has one handle already
  generalize ht : table.ty h = t at hty
  induction t using Ty.ind generalizing h i with
  | layer n ih =>
    obtain ⟨e, he⟩ := hh
    obtain ⟨e', he'⟩ := hi
    have hn : e.node.map table.ty = n := by
      rw [← Ty.of_inj, ← ht, ty_eq_of_entryAt? he, hvalid.ty_eq h e he]
    have hn' : e'.node.map table.ty = n := by
      rw [← Ty.of_inj, hty, ty_eq_of_entryAt? he', hvalid.ty_eq i e' he']
    have hnode : e.node = e'.node := by
      refine TyNode.map_inj_of_slots (hn.trans hn'.symm) fun c hc d hd hcd => ?_
      refine ih (table.ty c) ?_ (hvalid.child h e he c hc) (hvalid.child i e' he' d hd) rfl hcd
      rw [← hn, TyNode.slots_map]
      exact List.mem_map_of_mem hc
    exact hvalid.eq_of_nodeAt? (nodeAt?_eq_some_iff.2 ⟨e, he, rfl⟩)
      (nodeAt?_eq_some_iff.2 ⟨e', he', hnode.symm⟩)

/-- The handle that a call gives names the node. -/
theorem nodeAt?_of_interns (hcall : table.Interns node h table') :
    table'.nodeAt? h = some node := by
  cases hcall with
  | found hfind => exact hvalid.find?_eq_some_iff.1 hfind
  | entered new room =>
    refine nodeAt?_eq_some_iff.2 ⟨table.entry node, ?_, rfl⟩
    rw [entryAt?_push, if_pos rfl]

/-- A node whose children are in the table keeps it valid. -/
theorem interns (hcall : table.Interns node h table')
    (hchildren : ∀ c, .ty c ∈ node.slots → table.Knows c) : table'.Valid := by
  have hkeeps : ∀ c, table.Knows c → table'.Knows c :=
    fun c ⟨e, he⟩ => ⟨e, hcall.entryAt?_eq he⟩
  have hmap : ∀ n : TyNode Handle, (∀ c, .ty c ∈ n.slots → table.Knows c) →
      n.map table.ty = n.map table'.ty :=
    fun n hn => TyNode.map_congr_slots fun c hc => (hcall.ty_eq (hn c hc)).symm
  have hbuiltIn := fun h e he => hcall.entryAt?_eq (hvalid.builtIn h e he)
  cases hcall with
  | found => exact hvalid
  | entered new room =>
    -- an entry is the new one or was there before
    have hcases : ∀ i e, (table.push node new room).entryAt? i = some e →
        i = table.nextHandle node ∧ e = table.entry node ∨ table.entryAt? i = some e := by
      intro i e he
      rw [entryAt?_push] at he
      split at he
      · next hi => exact .inl ⟨hi, (Option.some.inj he).symm⟩
      · exact .inr he
    refine ⟨hbuiltIn, fun i e he => ?_, fun i e he => ?_, fun i e he => ?_⟩
    · rcases hcases i e he with ⟨rfl, rfl⟩ | he
      · exact .inr ⟨(find?_eq_none_iff.1 new).1, Handle.shard_ofParts room⟩
      · exact hvalid.home i e he
    · rcases hcases i e he with ⟨rfl, rfl⟩ | he
      · exact fun c hc => hkeeps c (hchildren c hc)
      · exact fun c hc => hkeeps c (hvalid.child i e he c hc)
    · rcases hcases i e he with ⟨rfl, rfl⟩ | he
      · exact congrArg Ty.of (hmap node hchildren)
      · rw [hvalid.ty_eq i e he, hmap e.node (hvalid.child i e he)]

end Valid

/-! ## A number of calls -/

/-- A call of a table: the node that was asked for and the handle that was given. -/
abbrev Call := TyNode Handle × Handle

/-- Whether a handle may be used in the next call: it is that of a built-in type, or one of the
    calls made so far has given it. -/
def Given (calls : List Call) (h : Handle) : Prop :=
  h < builtIns.length ∨ ∃ node, (node, h) ∈ calls

/-- The tables that there are, with the calls that have led to them. -/
inductive Interned (hash : TyNode Handle → UInt64) : List Call → TyTable → Prop
  | start : Interned hash [] (startWith hash)
  | call {calls : List Call} {table table' : TyTable} {node : TyNode Handle} {h : Handle}
    (before : Interned hash calls table) (children : ∀ c, .ty c ∈ node.slots → Given calls c)
    (answer : table.intern? node = some (h, table')) : Interned hash (calls ++ [(node, h)]) table'

variable {hash : TyNode Handle → UInt64} {calls : List Call}

/-- The last call was made of a table that the others had led to. -/
theorem Interned.last {c : Call} (hcalls : Interned hash (calls ++ [c]) table') :
    ∃ table, Interned hash calls table ∧ table.intern? c.1 = some (c.2, table') := by
  generalize hall : calls ++ [c] = all at hcalls
  cases hcalls with
  -- the list of calls ends with the last one that was made
  | start => simp at hall
  | @call calls' table _ node h before _ answer =>
    obtain ⟨rfl, hc⟩ := List.append_inj' hall rfl
    obtain rfl := (List.cons.inj hc).1
    exact ⟨table, before, answer⟩

/-- The calls determine the table. -/
theorem Interned.unique (hcalls : Interned hash calls table)
    (hcalls' : Interned hash calls table') : table = table' := by
  -- Both tables come from one call after the tables that the same calls gave before.
  induction hcalls generalizing table' with
  | start =>
    generalize hall : ([] : List Call) = all at hcalls'
    cases hcalls' with
    | start => rfl
    | call => simp at hall
  | call before _ answer ih =>
    obtain ⟨table₁, before₁, answer₁⟩ := hcalls'.last
    obtain rfl := ih before₁
    rw [answer] at answer₁
    cases answer₁
    rfl

/-- Later calls disturb no entry. -/
theorem Interned.keeps (hcalls : Interned hash calls table) {more : List Call}
    (hmore : Interned hash (calls ++ more) table') {i : Handle} (hi : table.entryAt? i = some e) :
    table'.entryAt? i = some e := by
  induction more using List.reverseRecOn generalizing table' with
  | nil =>
    -- a table is told by the calls that led to it
    rw [List.append_nil] at hmore
    rwa [← hcalls.unique hmore]
  | append_singleton more c ih =>
    rw [← List.append_assoc] at hmore
    obtain ⟨table₁, before, answer⟩ := hmore.last
    exact (interns_of_intern? answer).entryAt?_eq (ih before)

/-- The nodes asked for that are not built in, each once. -/
def seen (calls : List Call) : Finset (TyNode Handle) :=
  (calls.map Prod.fst).toFinset.filter fun node => node.builtIn? = none

/-- The nodes seen are those called for that are not built in. -/
theorem mem_seen : node ∈ seen calls ↔ (∃ h, (node, h) ∈ calls) ∧ node.builtIn? = none := by
  simp [seen]

/-- What a table records of the calls that have led to it. -/
structure Records (calls : List Call) (table : TyTable) : Prop where
  valid : table.Valid
  node_eq : ∀ c ∈ calls, table.nodeAt? c.2 = some c.1
  origin : ∀ h node, table.nodeAt? h = some node →
    node.builtIn? = some h ∨ node.builtIn? = none ∧ (node, h) ∈ calls
  size_eq : table.size = builtIns.length + (seen calls).card
  depth_le : ∀ h, table.Knows h → (table.ty h).depth ≤ table.size

/-- The table at the start records that there were no calls. -/
theorem records_startWith (hash : TyNode Handle → UInt64) : Records [] (startWith hash) where
  valid := valid_startWith hash
  node_eq _ hc := absurd hc List.not_mem_nil
  origin h node hh := by
    obtain ⟨e, he, rfl⟩ := nodeAt?_eq_some_iff.1 hh
    rw [entryAt?_startWith] at he
    exact .inl (builtIn?_of_builtIns he)
  size_eq := rfl
  depth_le h hh := by
    obtain ⟨e, he⟩ := hh
    rw [ty_eq_of_entryAt? he]
    rw [entryAt?_startWith] at he
    have hone : e.ty.depth = 1 := by
      obtain ⟨p, rfl⟩ | rfl := mem_builtIns_iff.1 (List.mem_of_getElem? he) <;> rfl
    rw [hone]
    -- Every built-in type is one level deep.
    exact (by decide : 1 ≤ builtIns.length)

namespace Records

variable (hrecords : Records calls table)
include hrecords

/-- A handle that may be used is in the table. -/
theorem knows {c : Handle} (hc : Given calls c) : table.Knows c := by
  rcases hc with hlt | ⟨node, hmem⟩
  · exact ⟨_, hrecords.valid.builtIn c _ (List.getElem?_eq_getElem hlt)⟩
  · obtain ⟨e, he, -⟩ := nodeAt?_eq_some_iff.1 (hrecords.node_eq _ hmem)
    exact ⟨e, he⟩

/-- The table has seen a node that is not built in exactly if it was asked for. -/
theorem mem_seen_iff (hnode : node.builtIn? = none) :
    node ∈ seen calls ↔ ∃ h, table.find? node = some h := by
  rw [mem_seen, and_iff_left hnode]
  -- A node that the table has, and that is not built in, came in by a call.
  refine exists_congr fun h => ?_
  rw [hrecords.valid.find?_eq_some_iff]
  constructor
  · exact hrecords.node_eq _
  · intro hh
    rcases hrecords.origin h node hh with hbuiltIn | ⟨-, hmem⟩
    · cases hnode.symm.trans hbuiltIn
    · exact hmem

/-- One more call is counted if the node is new. -/
theorem size_eq_of_interns (hcall : table.Interns node h table') :
    table'.size = builtIns.length + (seen (calls ++ [(node, h)])).card := by
  have hseen : seen (calls ++ [(node, h)]) =
      if node.builtIn? = none then insert node (seen calls) else seen calls := by
    split <;> ext n <;> simp only [mem_seen, Finset.mem_insert, List.mem_append,
      List.mem_singleton, Prod.mk.injEq] <;> grind
  rw [hseen]
  -- A node is new to the table where it is new among those seen.
  cases hcall with
  | found hfind =>
    rw [hrecords.size_eq]
    split
    · next hnode => rw [Finset.insert_eq_self.2 ((hrecords.mem_seen_iff hnode).2 ⟨h, hfind⟩)]
    · rfl
  | entered new room =>
    have hnode := (find?_eq_none_iff.1 new).1
    have hnew : node ∉ seen calls := by
      rw [hrecords.mem_seen_iff hnode, new]
      simp
    rw [if_pos hnode, Finset.card_insert_of_notMem hnew, ← Nat.add_assoc, ← hrecords.size_eq]
    rfl

/-- A type is no deeper than there are types in the table. -/
theorem depth_le_of_interns (hcall : table.Interns node h table')
    (hchildren : ∀ c, .ty c ∈ node.slots → table.Knows c) (i : Handle) (hi : table'.Knows i) :
    (table'.ty i).depth ≤ table'.size := by
  cases hcall with
  | found => exact hrecords.depth_le i hi
  | entered new room =>
    obtain ⟨e, he⟩ := hi
    rw [ty_eq_of_entryAt? he]
    -- The new type is one level deeper than its slots at most, and the table has one entry more.
    rw [entryAt?_push] at he
    split at he
    · obtain rfl := Option.some.inj he
      refine Ty.depth_of_le_iff.2 fun t ht => ?_
      rw [TyNode.slots_map, List.mem_map] at ht
      obtain ⟨a, ha, hat⟩ := ht
      cases a with
      | ty c =>
        obtain rfl := Arg.ty.inj hat
        exact hrecords.depth_le c (hchildren c ha)
      | const d => cases hat
    · have hle := hrecords.depth_le i ⟨e, he⟩
      rw [ty_eq_of_entryAt? he] at hle
      exact Nat.le_succ_of_le hle

/-- One more call is recorded. -/
theorem call (hcall : table.Interns node h table')
    (hchildren : ∀ c, .ty c ∈ node.slots → Given calls c) :
    Records (calls ++ [(node, h)]) table' where
  valid := hrecords.valid.interns hcall fun c hc => hrecords.knows (hchildren c hc)
  node_eq c hc := by
    rcases List.mem_append.1 hc with hc | hc
    · obtain ⟨e, he, hnode⟩ := nodeAt?_eq_some_iff.1 (hrecords.node_eq c hc)
      -- The call is the last one or one of those before it.
      exact nodeAt?_eq_some_iff.2 ⟨e, hcall.entryAt?_eq he, hnode⟩
    · obtain rfl := List.mem_singleton.1 hc
      exact hrecords.valid.nodeAt?_of_interns hcall
  origin i n hi := by
    cases hcall with
    | found =>
      refine (hrecords.origin i n hi).imp_right fun ⟨hn, hmem⟩ => ?_
      exact ⟨hn, List.mem_append_left _ hmem⟩
    | entered new room =>
      obtain ⟨e, he, rfl⟩ := nodeAt?_eq_some_iff.1 hi
      rw [entryAt?_push] at he
      split at he
      · next hnext =>
        obtain rfl := Option.some.inj he
        subst hnext
        exact .inr ⟨(find?_eq_none_iff.1 new).1, List.mem_append_right _ List.mem_cons_self⟩
      · refine (hrecords.origin i _ (nodeAt?_eq_some_iff.2 ⟨e, he, rfl⟩)).imp_right ?_
        exact fun ⟨hn, hmem⟩ => ⟨hn, List.mem_append_left _ hmem⟩
  size_eq := hrecords.size_eq_of_interns hcall
  depth_le := hrecords.depth_le_of_interns hcall fun c hc => hrecords.knows (hchildren c hc)

end Records

/-- A table that calls made records them. -/
theorem Interned.records (hcalls : Interned hash calls table) : Records calls table := by
  induction hcalls with
  | start => exact records_startWith hash
  | call _ children answer ih => exact ih.call (interns_of_intern? answer) children

/-! ## The main result -/

/-- What may be relied on after some calls of a table. -/
structure Faithful (hash : TyNode Handle → UInt64) (calls : List Call) (table : TyTable) :
    Prop where
  /-- The next call is answered, as long as no shard is full. -/
  answers : table.Roomy → ∀ node, (∀ c, .ty c ∈ node.slots → Given calls c) →
    ∃ h table', Interned hash (calls ++ [(node, h)]) table'
  handle_eq_iff : ∀ c ∈ calls, ∀ d ∈ calls, c.2 = d.2 ↔ c.1 = d.1
  builtIn : ∀ c ∈ calls, ∀ h, c.1.builtIn? = some h → c.2 = h
  node_eq : ∀ c ∈ calls, table.nodeAt? c.2 = some c.1
  /-- Later calls change nothing of what is kept under a handle. -/
  keeps : ∀ more table', Interned hash (calls ++ more) table' → ∀ h, Given calls h →
    ∃ e, table.entryAt? h = some e ∧ table'.entryAt? h = some e
  size_eq : table.size = 19 + (seen calls).card
  /-- A handle names its node over the types that the handles below it name. -/
  ty_eq : ∀ h, Given calls h →
    ∃ node, table.nodeAt? h = some node ∧ table.ty h = .of (node.map table.ty)
  describes : ∀ h, Given calls h → (table.measure h).Describes (table.ty h)
  depth_le : ∀ h, Given calls h → (table.measure h).depth ≤ table.size

/-- Whatever hash a table goes by and whatever it is asked for, handles stand for nodes and what is
    kept of a type is true of it. -/
theorem Interned.faithful (hcalls : Interned hash calls table) : Faithful hash calls table where
  answers hroom node hchildren := by
    -- Where there is room for the node the call is answered.
    obtain ⟨h, table', answer⟩ := exists_intern? (hroom (table.shardOf node))
    exact ⟨h, table', .call hcalls hchildren answer⟩
  handle_eq_iff c hc d hd := by
    have hnode := hcalls.records.node_eq c hc
    have hnode' := hcalls.records.node_eq d hd
    constructor
    · intro hh
      rw [hh] at hnode
      exact Option.some.inj (hnode.symm.trans hnode')
    · intro hn
      rw [← hn] at hnode'
      exact hcalls.records.valid.eq_of_nodeAt? hnode hnode'
  builtIn c hc h hh := by
    have hfind := hcalls.records.valid.find?_eq_some_iff.2 (hcalls.records.node_eq c hc)
    unfold find? at hfind
    rw [hh] at hfind
    exact (Option.some.inj hfind).symm
  node_eq := hcalls.records.node_eq
  keeps more table' hmore h hh := by
    obtain ⟨e, he⟩ := hcalls.records.knows hh
    exact ⟨e, he, hcalls.keeps hmore he⟩
  size_eq := hcalls.records.size_eq
  ty_eq h hh := by
    obtain ⟨e, he⟩ := hcalls.records.knows hh
    have hnode := nodeAt?_eq_some_iff.2 ⟨e, he, rfl⟩
    exact ⟨e.node, hnode, hcalls.records.valid.ty_of_nodeAt? hnode⟩
  describes h _ := by
    rw [measure_eq]
    exact (table.ty h).describes_measure
  depth_le h hh := by
    rw [measure_eq]
    exact hcalls.records.depth_le h (hcalls.records.knows hh)

/-- A call whose handle is known, in a table that is given. -/
theorem Interned.call_intern (before : Interned hash calls table)
    (children : ∀ c, .ty c ∈ node.slots → Given calls c)
    (hroom : (table.find? node).isSome ∨ table.HasRoom node) (hh : (table.intern node).1 = h) :
    Interned hash (calls ++ [(node, h)]) (table.intern node).2 := by
  refine .call before children ?_
  rw [intern?, if_pos hroom, ← hh]

/-- A box, a pair that has it twice, the box again, an array of pairs whose length is a parameter,
    and the empty tuple, with the handles they have where all types lie in one shard. -/
def boxes : List Call :=
  [(.wrap .box 8, 19), (.tuple [19, 19], 20), (.wrap .box 8, 19), (.array 20 (.param 1), 21),
    (.tuple [], 18)]

/-- The table made by these calls is faithful to them. -/
theorem boxes_faithful :
    ∃ table, Interned (fun _ => 0) boxes table ∧ Faithful (fun _ => 0) boxes table := by
  -- Each call is made with handles that were given by the calls before it.
  have hu8 : ∀ calls, Given calls 8 := fun _ => .inl (by decide)
  have hbox : Given (boxes.take 1) 19 := .inr ⟨.wrap .box 8, by decide⟩
  have hpair : Given (boxes.take 3) 20 := .inr ⟨.tuple [19, 19], by decide⟩
  have h₁ : Interned (fun _ => 0) (boxes.take 1) _ :=
    Interned.start.call_intern (by simpa [TyNode.slots] using hu8 _) (by decide +kernel)
      (by decide +kernel)
  have h₂ : Interned (fun _ => 0) (boxes.take 2) _ :=
    h₁.call_intern (by simpa [TyNode.slots] using hbox) (by decide +kernel) (by decide +kernel)
  have h₃ : Interned (fun _ => 0) (boxes.take 3) _ :=
    h₂.call_intern (by simpa [TyNode.slots] using hu8 _) (by decide +kernel) (by decide +kernel)
  have h₄ : Interned (fun _ => 0) (boxes.take 4) _ :=
    h₃.call_intern (by simpa [TyNode.slots] using hpair) (by decide +kernel) (by decide +kernel)
  have h₅ : Interned (fun _ => 0) boxes _ :=
    h₄.call_intern (by simp [TyNode.slots]) (by decide +kernel) (by decide +kernel)
  exact ⟨_, h₅, h₅.faithful⟩

end TyTable

end Monomorph
