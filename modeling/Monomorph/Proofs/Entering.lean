import Monomorph.Proofs.Interning

/-!
# Entering whole types

`Ty.enter` takes a type into a table part by part. As long as no shard is full it ends with a handle
that names the type (`Ty.enters`), and a type that has a handle keeps it, with nothing entered
(`TyTable.Valid.add_eq`). A later table has all that an earlier one has, so handles go on naming
what they name.
-/

namespace Monomorph

namespace TyTable

variable {table table' table'' : TyTable} {node : TyNode Handle} {h : Handle}

/-! ## Later tables -/

/-- Whether a table has all that another one has. -/
structure Extends (table table' : TyTable) : Prop where
  keeps : ∀ h e, table.entryAt? h = some e → table'.entryAt? h = some e
  load_le : ∀ s, table.shards.load s ≤ table'.shards.load s

namespace Extends

/-- A table extends itself. -/
theorem refl (table : TyTable) : table.Extends table := ⟨fun _ _ he => he, fun _ => Nat.le_refl _⟩

/-- What extends an extension extends the first table. -/
theorem trans (hfirst : table.Extends table') (hsecond : table'.Extends table'') :
    table.Extends table'' where
  keeps h e he := hsecond.keeps h e (hfirst.keeps h e he)
  load_le s := Nat.le_trans (hfirst.load_le s) (hsecond.load_le s)

/-- Where the later table has room, the earlier one had. -/
theorem roomy (hext : table.Extends table') (hroom : table'.Roomy) : table.Roomy :=
  fun s => Nat.lt_of_le_of_lt (hext.load_le s) (hroom s)

end Extends

/-- A shard never shrinks. -/
theorem Shard.size_le_insert (shard : Shard) (e : Entry) :
    shard.entries.size ≤ (shard.insert e).entries.size := by
  by_cases new : shard.Lacks e.node
  · rw [Shard.entries_insert new, Array.size_push]
    exact Nat.le_succ _
  · rw [Shard.insert, dif_neg new]

/-- No shard holds less after an insertion. -/
theorem Shards.load_le_insert (shards : Shards) (i : Nat) (e : Entry) (s : Fin shardCount) :
    shards.load s ≤ (shards.insert i e).load s := by
  have hget := getElem?_insert shards i s e
  rw [Vector.getElem?_eq_getElem s.isLt, Vector.getElem?_eq_getElem s.isLt] at hget
  rw [load, load, Fin.getElem_fin, Fin.getElem_fin]
  -- the shard in question has grown, or it is another one
  split at hget
  · rw [Option.some.inj hget]
    exact Shard.size_le_insert _ e
  · rw [Option.some.inj hget]

/-- A call that interns a node extends the table. -/
theorem Interns.extended (hcall : table.Interns node h table') : table.Extends table' where
  keeps _ _ he := hcall.entryAt?_eq he
  load_le s := by
    cases hcall with
    | found => exact Nat.le_refl _
    | entered => exact Shards.load_le_insert table.shards _ _ s

/-- What a call does where it may find no room. -/
theorem interns_or_full (table : TyTable) (node : TyNode Handle) :
    table.Interns node (table.intern node).1 (table.intern node).2 ∨
      ¬ table.HasRoom node ∧ (table.intern node).2 = table := by
  unfold intern
  -- a node is found, or it is new and has room, or its shard is full
  split
  · next hfind => exact .inl (.found hfind)
  · next new =>
    split
    · next room => exact .inl (.entered new room)
    · next full => exact .inr ⟨full, rfl⟩

/-- Interning extends the table, whether or not there is room. -/
theorem extends_intern (table : TyTable) (node : TyNode Handle) :
    table.Extends (table.intern node).2 := by
  rcases table.interns_or_full node with hcall | ⟨-, hsame⟩
  · exact hcall.extended
  · rw [hsame]
    exact .refl table

/-- A call that leaves no shard full is answered. -/
theorem interns_of_roomy (hroom : (table.intern node).2.Roomy) :
    table.Interns node (table.intern node).1 (table.intern node).2 := by
  rcases table.interns_or_full node with hcall | ⟨hfull, hsame⟩
  · exact hcall
  · rw [hsame] at hroom
    exact absurd (hroom (table.shardOf node)) hfull

/-! ## What handles name -/

/-- Whether a handle names a type. -/
structure Names (table : TyTable) (h : Handle) (t : Ty) : Prop where
  knows : table.Knows h
  ty_eq : table.ty h = t

/-- Whether the handles in some slots name the types in some others. -/
structure NamesArgs (table : TyTable) (hs : List (Arg Handle)) (as : Args) : Prop where
  knows : ∀ c, .ty c ∈ hs → table.Knows c
  map_eq : hs.map (Arg.map table.ty) = as

/-- A handle that is found for a type names it. -/
theorem names_of_handle? {t : Ty} (ht : table.handle? t = some h) : table.Names h t := by
  obtain ⟨e, he, -⟩ := Option.map_eq_some_iff.1 (table.places_sound ht)
  exact ⟨⟨e, he⟩, ty_of_handle? ht⟩

/-- A handle names the same type in an extension. -/
theorem Extends.names (hext : table.Extends table') {t : Ty} (hh : table.Names h t) :
    table'.Names h t := by
  obtain ⟨⟨e, he⟩, rfl⟩ := hh
  have he' := hext.keeps h e he
  exact ⟨⟨e, he'⟩, by rw [ty_eq_of_entryAt? he, ty_eq_of_entryAt? he']⟩

/-- Handles name the same arguments in an extension. -/
theorem Extends.namesArgs (hext : table.Extends table') {hs : List (Arg Handle)} {as : Args}
    (hargs : table.NamesArgs hs as) : table'.NamesArgs hs as where
  knows c hc := (hext.names ⟨hargs.knows c hc, rfl⟩).knows
  map_eq := by
    rw [← hargs.map_eq]
    -- each handle names in the larger table what it named before
    refine List.map_congr_left fun a ha => ?_
    cases a with
    | ty c => rw [Arg.map_ty, Arg.map_ty, (hext.names ⟨hargs.knows c ha, rfl⟩).ty_eq]
    | const d => rfl

namespace NamesArgs

/-- No handle names no argument. -/
theorem nil : table.NamesArgs [] [] := ⟨fun _ hc => absurd hc List.not_mem_nil, rfl⟩

/-- A handle in front names a type in front. -/
theorem ty {t : Ty} {hs : List (Arg Handle)} {as : Args} (hh : table.Names h t)
    (hargs : table.NamesArgs hs as) : table.NamesArgs (.ty h :: hs) (.ty t :: as) where
  knows c hc := by
    rcases List.mem_cons.1 hc with heq | hc
    · rw [Arg.ty.inj heq]
      exact hh.knows
    · exact hargs.knows c hc
  map_eq := by rw [List.map_cons, Arg.map_ty, hh.ty_eq, hargs.map_eq]

/-- A constant stands for itself. -/
theorem const (d : Const) {hs : List (Arg Handle)} {as : Args} (hargs : table.NamesArgs hs as) :
    table.NamesArgs (.const d :: hs) (.const d :: as) where
  knows c hc := by
    rcases List.mem_cons.1 hc with heq | hc
    · cases heq
    · exact hargs.knows c hc
  map_eq := by rw [List.map_cons, Arg.map_const, hargs.map_eq]

/-- Handles in a row name arguments in a row. -/
theorem append {hs hs' : List (Arg Handle)} {as as' : Args} (hargs : table.NamesArgs hs as)
    (hargs' : table.NamesArgs hs' as') : table.NamesArgs (hs ++ hs') (as ++ as') where
  knows c hc := (List.mem_append.1 hc).elim (hargs.knows c) (hargs'.knows c)
  map_eq := by rw [List.map_append, hargs.map_eq, hargs'.map_eq]

end NamesArgs

/-! ## Entering -/

/-- What it comes to that a type is entered: the table is extended, as long as no shard is full it
    stays valid and the handle names the type, and a type that has a handle keeps it. -/
structure Enters (table : TyTable) (t : Ty) (h : Handle) (table' : TyTable) : Prop where
  ext : table.Extends table'
  valid : table.Valid → table'.Roomy → table'.Valid
  names : table.Valid → table'.Roomy → table'.Names h t
  same : table.Valid → ∀ i, table.Names i t → h = i ∧ table' = table

/-- What it comes to that the types in some slots are entered, one after the other. -/
structure EntersArgs (table : TyTable) (as : Args) (hs : List (Arg Handle)) (table' : TyTable) :
    Prop where
  ext : table.Extends table'
  valid : table.Valid → table'.Roomy → table'.Valid
  names : table.Valid → table'.Roomy → table'.NamesArgs hs as
  same : table.Valid → ∀ is, table.NamesArgs is as → hs = is ∧ table' = table

namespace EntersArgs

variable {as as' : Args} {hs hs' : List (Arg Handle)}

/-- Nothing is entered for no argument. -/
theorem nil (table : TyTable) : EntersArgs table [] [] table where
  ext := .refl table
  valid hvalid _ := hvalid
  names _ _ := .nil
  same _ _ his := ⟨(List.map_eq_nil_iff.1 his.map_eq).symm, rfl⟩

/-- Arguments are entered in the order they stand in. -/
theorem append (hfirst : EntersArgs table as hs table')
    (hsecond : EntersArgs table' as' hs' table'') :
    EntersArgs table (as ++ as') (hs ++ hs') table'' where
  ext := hfirst.ext.trans hsecond.ext
  valid hvalid hroom := hsecond.valid (hfirst.valid hvalid (hsecond.ext.roomy hroom)) hroom
  names hvalid hroom :=
    have hroom' := hsecond.ext.roomy hroom
    (hsecond.ext.namesArgs (hfirst.names hvalid hroom')).append
      (hsecond.names (hfirst.valid hvalid hroom') hroom)
  -- Handles that name the whole list split where the list does, and the first part leaves the table
  -- as it is before the second is entered.
  same hvalid is his := by
    obtain ⟨is₁, is₂, rfl, h₁, h₂⟩ := List.map_eq_append_iff.1 his.map_eq
    obtain ⟨rfl, rfl⟩ := hfirst.same hvalid is₁
      ⟨fun c hc => his.knows c (List.mem_append_left _ hc), h₁⟩
    obtain ⟨rfl, rfl⟩ := hsecond.same hvalid is₂
      ⟨fun c hc => his.knows c (List.mem_append_right _ hc), h₂⟩
    exact ⟨rfl, rfl⟩

/-- A constant enters nothing. -/
theorem const (table : TyTable) (c : Const) : EntersArgs table [.const c] [.const c] table where
  ext := .refl table
  valid hvalid _ := hvalid
  names _ _ := .const c .nil
  same _ _ his := by
    -- the constant is the same on both sides, and nothing is entered for it
    obtain ⟨a, rfl, ha⟩ := List.map_eq_singleton_iff.1 his.map_eq
    cases a with
    | ty i => cases ha
    | const d =>
      obtain rfl := Arg.const.inj ha
      exact ⟨rfl, rfl⟩

end EntersArgs

/-- A type that is entered fills one slot. -/
theorem Enters.slot {t : Ty} (ht : Enters table t h table') :
    EntersArgs table [.ty t] [.ty h] table' where
  ext := ht.ext
  valid := ht.valid
  names hvalid hroom := .ty (ht.names hvalid hroom) .nil
  -- The table that knows the type has one handle for it, which is the one given out.
  same hvalid _ his := by
    obtain ⟨a, rfl, ha⟩ := List.map_eq_singleton_iff.1 his.map_eq
    cases a with
    | ty i =>
      have hi : table.Names i t := ⟨his.knows i List.mem_cons_self, Arg.ty.inj ha⟩
      obtain ⟨rfl, rfl⟩ := ht.same hvalid i hi
      exact ⟨rfl, rfl⟩
    | const d => cases ha

/-- A type that is found need not be entered. -/
theorem enters_of_handle? {t : Ty} (ht : table.handle? t = some h) : Enters table t h table where
  ext := .refl table
  valid hvalid _ := hvalid
  names _ _ := names_of_handle? ht
  same hvalid _ hi :=
    have hh := names_of_handle? ht
    ⟨hvalid.ty_inj hh.knows hi.knows (hh.ty_eq.trans hi.ty_eq.symm), rfl⟩

/-- A layer is told by its shape and by what its slots are named. -/
theorem map_ty_eq_of_namesArgs {n : TyNode Ty} (hshape : node.shape = n.shape)
    (hargs : table.NamesArgs node.slots n.slots) : node.map table.ty = n :=
  TyNode.eq_of_shape_of_slots ((TyNode.shape_map _ _).trans hshape)
    ((TyNode.slots_map _ _).trans hargs.map_eq)

/-- A handle that names a type names its layer, over handles for what stands below. -/
theorem Valid.exists_node_of_names (hvalid : table.Valid) {n : TyNode Ty}
    (hh : table.Names h (.of n)) :
    ∃ node, table.find? node = some h ∧ node.shape = n.shape ∧
      table.NamesArgs node.slots n.slots := by
  -- the entry of the handle has the layer, and its children are known
  obtain ⟨⟨e, he⟩, hty⟩ := hh
  have hnode : table.nodeAt? h = some e.node := nodeAt?_eq_some_iff.2 ⟨e, he, rfl⟩
  have hn : e.node.map table.ty = n := Ty.of_inj.1 ((hvalid.ty_of_nodeAt? hnode).symm.trans hty)
  refine ⟨e.node, hvalid.find?_eq_some_iff.2 hnode, ?_, hvalid.child h e he, ?_⟩
  · rw [← hn, TyNode.shape_map]
  · rw [← TyNode.slots_map, hn]

/-- A node that is found is not entered again. -/
theorem intern_of_find? (hfind : table.find? node = some h) : table.intern node = (h, table) := by
  unfold intern
  split
  · next i hi => rw [Option.some.inj (hi.symm.trans hfind)]
  · next new => cases new.symm.trans hfind

/-- Once all that stands below it is entered a layer is. -/
theorem EntersArgs.layer {n : TyNode Ty} {t : Ty} (ht : .of n = t) (hshape : node.shape = n.shape)
    (hslots : EntersArgs table n.slots node.slots table') :
    Enters table t (table'.intern node).1 (table'.intern node).2 where
  ext := hslots.ext.trans (table'.extends_intern node)
  valid hvalid hroom := by
    have hroom' := (table'.extends_intern node).roomy hroom
    exact (hslots.valid hvalid hroom').interns (interns_of_roomy hroom)
      (hslots.names hvalid hroom').knows
  names hvalid hroom := by
    have hext := table'.extends_intern node
    have hvalid' := hslots.valid hvalid (hext.roomy hroom)
    have hargs := hslots.names hvalid (hext.roomy hroom)
    have hcall := interns_of_roomy hroom
    have hnode := hvalid'.nodeAt?_of_interns hcall
    obtain ⟨e, he, -⟩ := nodeAt?_eq_some_iff.1 hnode
    refine ⟨⟨e, he⟩, ?_⟩
    rw [(hvalid'.interns hcall hargs.knows).ty_of_nodeAt? hnode,
      map_ty_eq_of_namesArgs hshape (hext.namesArgs hargs), ht]
  -- A table that knows the type knows its slots, which are then not entered again, and with them
  -- the node is found.
  same hvalid i hi := by
    rw [← ht] at hi
    obtain ⟨node', hfind, hshape', hargs⟩ := hvalid.exists_node_of_names hi
    obtain ⟨hslots', rfl⟩ := hslots.same hvalid _ hargs
    have hnode : node = node' := TyNode.eq_of_shape_of_slots (hshape.trans hshape'.symm) hslots'
    rw [hnode, intern_of_find? hfind]
    exact ⟨rfl, rfl⟩

end TyTable

mutual

/-- Entering a type does what it should. -/
theorem Ty.enters (t : Ty) (table : TyTable) :
    table.Enters t (t.enter table).1 (t.enter table).2 := by
  rw [Ty.enter.eq_def]
  split
  · next h hfound => exact TyTable.enters_of_handle? hfound
  · -- Each constructor enters its parts from left to right and then its own layer.
    cases t with
    | prim p => exact (TyTable.EntersArgs.nil table).layer (n := .prim p) rfl rfl
    | tuple ts =>
      exact (ts.enters table).layer (n := .tuple ts.toList) (by simp [Ty.of]) rfl
    | array t c =>
      exact ((t.enters table).slot.append (.const _ c)).layer (n := .array t c) rfl rfl
    | wrap w t => exact (t.enters table).slot.layer (n := .wrap w t) rfl rfl
    | nominal k i as =>
      exact (as.enters table).layer (n := .nominal k i as.toList) (by simp [Ty.of]) rfl
    | dyn i => exact (TyTable.EntersArgs.nil table).layer (n := .dyn i) rfl rfl
    | fnPtr ins out =>
      exact ((ins.enters table).append (out.enters _).slot).layer (n := .fnPtr ins.toList out)
        (by simp [Ty.of]) rfl
    | param i => exact (TyTable.EntersArgs.nil table).layer (n := .param i) rfl rfl
termination_by structural t

/-- The types of a list are entered one after the other. -/
theorem Tys.enters (ts : Tys) (table : TyTable) : table.EntersArgs (ts.toList.map .ty)
    ((ts.enter table).1.map .ty) (ts.enter table).2 := by
  cases ts with
  | nil => exact .nil table
  | cons t ts => exact (t.enters table).slot.append (ts.enters _)
termination_by structural ts

/-- The types in the slots of a list are entered one after the other. -/
theorem Slots.enters (as : Slots) (table : TyTable) :
    table.EntersArgs as.toList (as.enter table).1 (as.enter table).2 := by
  cases as with
  | nil => exact .nil table
  | ty t as => exact (t.enters table).slot.append (as.enters _)
  | const c as => exact (TyTable.EntersArgs.const table c).append (as.enters table)
termination_by structural as

end

/-- A type that has a handle keeps it, and nothing is entered for it. -/
theorem TyTable.Valid.add_eq {table : TyTable} (hvalid : table.Valid) {h : Handle} {t : Ty}
    (ht : table.Names h t) : table.add t = (h, table) := by
  obtain ⟨hh, htable⟩ := (t.enters table).same hvalid h ht
  exact Prod.ext hh htable

end Monomorph
