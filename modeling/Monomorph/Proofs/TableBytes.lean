import Mathlib.Data.List.Induction
import Mathlib.Data.List.Nodup
import Mathlib.Data.List.Perm.Subperm
import Monomorph.Unused.Table

/-!
# Tables as bytes

A table that has been written is read back as it was, and the bytes depend on what the table says
and not on the order in which its entries are met. Reading accepts exactly the bytes that are the
written form of some entries, in any order and with anything behind them (`UnusedTable.Writes`);
that is so however many entries are announced, since no number is cut off on the way. What is read
is written in one form only, and a later entry for an item counts (`UnusedTable.persists`).
-/

namespace Monomorph

/-! ## Numbers -/

namespace Text

/-- Whether a number can be written in so many bytes. -/
def Fits (width n : Nat) : Prop := n < Nat.pow 256 width

/-- A number that fits is read back. -/
theorem littleEndian_toLittleEndian_of_fits {width n : Nat} (h : Fits width n) :
    littleEndian (toLittleEndian width n) = n := by
  rw [littleEndian_toLittleEndian, Nat.mod_eq_of_lt h]

/-- What is read from some bytes fits into as many. -/
theorem fits_littleEndian (bytes : List UInt8) : Fits bytes.length (littleEndian bytes) := by
  induction bytes with
  | nil => exact Nat.zero_lt_one
  | cons b bytes ih =>
    have hb := b.toNat_lt
    have hpow : Nat.pow 256 (b :: bytes).length = Nat.pow 256 bytes.length * 256 := rfl
    simp only [Fits, hpow, littleEndian] at ih ⊢
    -- the first byte is below 256, and the others below the power they have room for
    omega

/-- The bytes of a number that was read are the bytes read. -/
theorem toLittleEndian_littleEndian (bytes : List UInt8) :
    toLittleEndian bytes.length (littleEndian bytes) = bytes := by
  induction bytes with
  | nil => rfl
  -- The first byte is what the number leaves when divided by 256, and the others are the quotient.
  | cons b bytes ih =>
    have hb := b.toNat_lt
    have hlow : UInt8.ofNat (b.toNat + 256 * littleEndian bytes) = b := by
      rw [← UInt8.toNat_inj, UInt8.toNat_ofNat']
      omega
    have hrest : (b.toNat + 256 * littleEndian bytes) / 256 = littleEndian bytes := by omega
    rw [List.length_cons, littleEndian, toLittleEndian, hlow, hrest, ih]

/-- What is read from the first bytes fits into their number. -/
theorem fits_littleEndian_take (width : Nat) (bytes : List UInt8) :
    Fits width (littleEndian (bytes.take width)) :=
  Nat.lt_of_lt_of_le (fits_littleEndian _)
    (Nat.pow_le_pow_right (by decide) (List.length_take_le _ _))

/-- The first bytes are written back as they were read. -/
theorem toLittleEndian_littleEndian_take {width : Nat} {bytes : List UInt8}
    (h : width ≤ bytes.length) :
    toLittleEndian width (littleEndian (bytes.take width)) = bytes.take width := by
  have hlength : (bytes.take width).length = width := List.length_take_of_le h
  have htake := toLittleEndian_littleEndian (bytes.take width)
  rwa [hlength] at htake

/-- A number is read off the first bytes if there are so many. -/
def readNumber? (width : Nat) (bytes : List UInt8) : Option (Nat × List UInt8) :=
  if width ≤ bytes.length then some (littleEndian (bytes.take width), bytes.drop width) else none

end Text

namespace UnusedTable

variable {t t' : UnusedTable} {i : ItemId} {s : ParamSet} {n : Nat} {bytes rest : List UInt8}
  {es : List (ItemId × ParamSet)}

/-! ## Entries -/

/-- What is found for an item is its only entry. -/
theorem lookup_eq_some_iff_mem (h : (es.map Prod.fst).Nodup) :
    es.lookup i = some s ↔ (i, s) ∈ es := by
  induction es with
  | nil => simp
  | cons e es ih =>
    obtain ⟨j, r⟩ := e
    obtain ⟨hj, hes⟩ := List.nodup_cons.1 h
    rw [List.lookup_cons]
    by_cases he : i = j
    · -- no later entry is for the same item
      subst he
      have hnot : ∀ s, (i, s) ∉ es := fun s hs => hj (List.mem_map.2 ⟨_, hs, rfl⟩)
      simp [hnot, eq_comm]
    · have hne : (i == j) = false := beq_eq_false_iff_ne.2 he
      simp [hne, he, ih hes]

/-- A table has one entry for an item. -/
theorem nodup_fst (t : UnusedTable) : (t.entries.map Prod.fst).Nodup := by
  refine List.pairwise_map.2 (t.sorted.imp ?_)
  intro a b hlt
  exact Nat.ne_of_lt hlt

/-- What a table says of an item stands in its entries. -/
theorem get?_eq_some_iff : t.get? i = some s ↔ (i, s) ∈ t.entries :=
  lookup_eq_some_iff_mem t.nodup_fst

/-- There is one way to put the entries of a table in order. -/
theorem entries_eq_of_perm (hes : es.Pairwise (·.1 < ·.1)) (h : es.Perm t.entries) :
    es = t.entries := by
  refine h.eq_of_pairwise ?_ hes t.sorted
  intro a b _ _ hab hba
  exact absurd hab (Nat.lt_asymm hba)

/-- Tables with the same entries are the same. -/
theorem ext_entries (h : t.entries = t'.entries) : t = t' := by
  obtain ⟨entries, _⟩ := t
  obtain ⟨entries', _⟩ := t'
  subst h
  rfl

/-- Tables that say the same are equal. -/
theorem ext_get? (h : ∀ i, t.get? i = t'.get? i) : t = t' := by
  apply ext_entries
  apply entries_eq_of_perm t.sorted
  rw [List.perm_ext_iff_of_nodup t.nodup_fst.of_map t'.nodup_fst.of_map]
  intro e
  rw [← get?_eq_some_iff, ← get?_eq_some_iff, h]

/-- The last entry of a list is the last one inserted. -/
theorem ofList_append_singleton (es : List (ItemId × ParamSet)) (e : ItemId × ParamSet) :
    ofList (es ++ [e]) = (ofList es).insert e.1 e.2 := by
  rw [ofList, List.foldl_append]
  rfl

/-- The last entry for an item counts. -/
theorem get?_ofList (es : List (ItemId × ParamSet)) (i : ItemId) :
    (ofList es).get? i = es.reverse.lookup i := by
  induction es using List.reverseRecOn with
  | nil => rfl
  | append_singleton es e ih =>
    rw [ofList_append_singleton, get?_insert, ih, List.reverse_append, List.reverse_singleton,
      List.singleton_append, List.lookup_cons]
    -- the entry that was put in last is the first from the end
    by_cases he : i = e.1
    · simp [he]
    · simp [he, beq_eq_false_iff_ne.2 he]

/-- The entries of a table make the table, in whatever order they are met. -/
theorem ofList_eq_of_perm (h : es.Perm t.entries) : ofList es = t := by
  -- the order of the entries is of no account, for no item has two of them
  have hnodup : (es.reverse.map Prod.fst).Nodup :=
    (((List.reverse_perm es).trans h).map Prod.fst).nodup_iff.2 t.nodup_fst
  apply ext_get?
  intro i
  apply Option.ext
  intro s
  rw [get?_ofList, lookup_eq_some_iff_mem hnodup, get?_eq_some_iff, List.mem_reverse, h.mem_iff]

/-- Sorting finds the order of the entries. -/
theorem mergeSort_eq_entries (h : es.Perm t.entries) :
    (es.mergeSort fun a b => decide (a.1 ≤ b.1)) = t.entries := by
  refine ((List.mergeSort_perm _ _).trans h).eq_of_pairwise ?_
    (List.pairwise_mergeSort ?_ ?_ es) (t.sorted.imp ?_)
  · -- Entries at one place in the order are for one item, so they are the same entry.
    intro a b ha hb hab hba
    have hfst : a.1 = b.1 := Nat.le_antisymm (of_decide_eq_true hab) (of_decide_eq_true hba)
    rw [List.mem_mergeSort, h.mem_iff] at ha
    exact List.inj_on_of_nodup_map t.nodup_fst ha hb hfst
  · simp only [decide_eq_true_eq]
    intro a b c
    exact Nat.le_trans
  · simp only [Bool.or_eq_true, decide_eq_true_eq]
    intro a b
    exact Nat.le_total _ _
  · simp only [decide_eq_true_eq]
    intro a b
    exact Nat.le_of_lt

/-! ## What is written -/

/-- Whether all items have numbers that can be written in four bytes. -/
def Fits (t : UnusedTable) : Prop := ∀ e ∈ t.entries, Text.Fits 4 e.1

/-- Different items of four bytes are fewer than numbers of eight bytes. -/
theorem Fits.size (h : t.Fits) : Text.Fits 8 t.size := by
  -- there are no more items than numbers of four bytes, and each has one entry
  have hsub : t.entries.map Prod.fst ⊆ List.range (Nat.pow 256 4) := by
    intro i hi
    obtain ⟨e, he, rfl⟩ := List.mem_map.1 hi
    exact List.mem_range.2 (h e he)
  have hle := (List.subperm_of_subset t.nodup_fst hsub).length_le
  rw [List.length_map, List.length_range] at hle
  exact Nat.lt_of_le_of_lt hle (by decide)

/-- Whether bytes are the written form of some entries, with more bytes behind it. -/
structure Writes (bytes : List UInt8) (es : List (ItemId × ParamSet)) (rest : List UInt8) :
    Prop where
  bytes_eq : bytes = Text.toLittleEndian 8 es.length ++ es.flatMap entryBytes ++ rest
  count : Text.Fits 8 es.length
  items : ∀ e ∈ es, Text.Fits 4 e.1

/-- A table that fits is written as its entries. -/
theorem Fits.writes (h : t.Fits) : Writes t.toBytes t.entries [] where
  bytes_eq := (List.append_nil _).symm
  count := h.size
  items := h

/-! ## What is read -/

/-- An entry takes twelve bytes. -/
theorem length_entryBytes (e : ItemId × ParamSet) : (entryBytes e).length = 12 := by
  simp [entryBytes]

/-- An entry that was written is read, whatever follows. -/
theorem readEntry_entryBytes {e : ItemId × ParamSet} (h : Text.Fits 4 e.1) (rest : List UInt8) :
    readEntry (entryBytes e ++ rest) = e := by
  obtain ⟨i, ⟨mask⟩⟩ := e
  have hmask : Text.Fits 8 mask.toNat := mask.isLt
  simp [readEntry, entryBytes, Text.littleEndian_toLittleEndian_of_fits h,
    Text.littleEndian_toLittleEndian_of_fits hmask]

/-- The bytes of an entry that was read are the bytes read. -/
theorem entryBytes_readEntry (h : 12 ≤ bytes.length) :
    entryBytes (readEntry bytes) = bytes.take 12 := by
  -- a mask holds all that eight bytes can say
  have hmask : Text.littleEndian ((bytes.drop 4).take 8) % 2 ^ 64 =
      Text.littleEndian ((bytes.drop 4).take 8) :=
    Nat.mod_eq_of_lt (Text.fits_littleEndian_take 8 _)
  have hlength : 8 ≤ (bytes.drop 4).length := by
    rw [List.length_drop]
    omega
  rw [entryBytes, readEntry, BitVec.toNat_ofNat, hmask,
    Text.toLittleEndian_littleEndian_take (by omega), Text.toLittleEndian_littleEndian_take hlength]
  exact List.take_add.symm

/-- As many entries are read as asked for. -/
theorem length_readEntries (n : Nat) (bytes : List UInt8) : (readEntries n bytes).length = n := by
  induction n generalizing bytes with
  | zero => rfl
  | succ n ih => rw [readEntries, List.length_cons, ih]

/-- The items of entries that were read fit into four bytes. -/
theorem fits_of_mem_readEntries {e : ItemId × ParamSet} (h : e ∈ readEntries n bytes) :
    Text.Fits 4 e.1 := by
  induction n generalizing bytes with
  | zero => exact absurd h List.not_mem_nil
  | succ n ih =>
    obtain rfl | h := List.mem_cons.1 h
    · exact Text.fits_littleEndian_take 4 bytes
    · exact ih h

/-- Entries that were written are read, whatever follows. -/
theorem readEntries_flatMap (h : ∀ e ∈ es, Text.Fits 4 e.1) (rest : List UInt8) :
    readEntries es.length (es.flatMap entryBytes ++ rest) = es := by
  induction es with
  | nil => rfl
  | cons e es ih =>
    -- the first entry is read off, and the bytes of the others are what is left behind it
    rw [List.forall_mem_cons] at h
    have hdrop : (entryBytes e ++ (es.flatMap entryBytes ++ rest)).drop 12 =
        es.flatMap entryBytes ++ rest := List.drop_left' (length_entryBytes e)
    rw [List.length_cons, readEntries, List.flatMap_cons, List.append_assoc,
      readEntry_entryBytes h.1, hdrop, ih h.2]

/-- The bytes of entries that were read are the bytes read. -/
theorem flatMap_readEntries (h : 12 * n ≤ bytes.length) :
    (readEntries n bytes).flatMap entryBytes = bytes.take (12 * n) := by
  induction n generalizing bytes with
  | zero => rfl
  | succ n ih =>
    -- the entries behind the first one have the bytes that it leaves
    have hlength : 12 * n ≤ (bytes.drop 12).length := by
      rw [List.length_drop]
      omega
    rw [readEntries, List.flatMap_cons, entryBytes_readEntry (by omega), ih hlength,
      show 12 * (n + 1) = 12 + 12 * n by omega]
    exact List.take_add.symm

/-- Whether there are as many bytes as the entries announced need. -/
def HasEntries (bytes : List UInt8) : Prop :=
  8 ≤ bytes.length ∧ 8 + 12 * Text.littleEndian (bytes.take 8) ≤ bytes.length

/-- Bytes are read as a table exactly where there are enough of them. -/
theorem ofBytes_eq_ok_iff : ofBytes bytes = .ok t ↔ HasEntries bytes ∧
    t = ofList (readEntries (Text.littleEndian (bytes.take 8)) (bytes.drop 8)) := by
  simp only [ofBytes, HasEntries]
  split
  · next hshort =>
    simp only [reduceCtorEq, false_iff]
    omega
  · next henough =>
    rw [Except.ok.injEq, eq_comm]
    exact ⟨fun ht => ⟨by omega, ht⟩, fun ht => ht.2⟩

/-- Where there are enough bytes, they are the written form of the entries read. -/
theorem HasEntries.writes (h : HasEntries bytes) :
    Writes bytes (readEntries (Text.littleEndian (bytes.take 8)) (bytes.drop 8))
      (bytes.drop (8 + 12 * Text.littleEndian (bytes.take 8))) where
  bytes_eq := by
    have hlength : 12 * Text.littleEndian (bytes.take 8) ≤ (bytes.drop 8).length := by
      have := h.2
      rw [List.length_drop]
      omega
    rw [length_readEntries, flatMap_readEntries hlength,
      Text.toLittleEndian_littleEndian_take h.1, ← List.take_add, List.take_append_drop]
  count := by
    rw [length_readEntries]
    exact Text.fits_littleEndian_take 8 bytes
  items _ he := fits_of_mem_readEntries he

namespace Writes

variable (h : Writes bytes es rest)

include h

/-- The first eight bytes are the number of the entries. -/
theorem littleEndian_take : Text.littleEndian (bytes.take 8) = es.length := by
  rw [h.bytes_eq, List.append_assoc, List.take_left' (Text.length_toLittleEndian 8 _),
    Text.littleEndian_toLittleEndian_of_fits h.count]

/-- The bytes are those of the number, of the entries and of the rest. -/
theorem length_eq : bytes.length = 8 + 12 * es.length + rest.length := by
  rw [h.bytes_eq, List.length_append, List.length_append, Text.length_toLittleEndian,
    length_flatMap_entryBytes]

/-- There are enough bytes for the entries. -/
theorem hasEntries : HasEntries bytes := by
  have hlength := h.length_eq
  rw [HasEntries, h.littleEndian_take]
  omega

/-- What is read behind the number are the entries. -/
theorem readEntries_eq : readEntries es.length (bytes.drop 8) = es := by
  rw [h.bytes_eq, List.append_assoc, List.drop_left' (Text.length_toLittleEndian 8 _),
    readEntries_flatMap h.items]

/-- Bytes are the written form of one list of entries. -/
theorem unique {es' : List (ItemId × ParamSet)} {rest' : List UInt8}
    (h' : Writes bytes es' rest') : es = es' ∧ rest = rest' := by
  have hes : es = es' := by
    rw [← h.readEntries_eq, ← h'.readEntries_eq, ← h.littleEndian_take, ← h'.littleEndian_take]
  subst hes
  refine ⟨rfl, List.append_cancel_left (h.bytes_eq.symm.trans h'.bytes_eq)⟩

/-- Written entries are read, a later one over an earlier one. -/
theorem ofBytes_eq : ofBytes bytes = .ok (ofList es) := by
  rw [ofBytes_eq_ok_iff, h.littleEndian_take, h.readEntries_eq]
  exact ⟨h.hasEntries, rfl⟩

/-- More bytes behind the entries make no difference. -/
theorem append (more : List UInt8) : Writes (bytes ++ more) es (rest ++ more) where
  bytes_eq := by rw [h.bytes_eq, List.append_assoc]
  count := h.count
  items := h.items

end Writes

/-- Bytes are read as a table exactly if they are the written form of entries that make it. -/
theorem ofBytes_eq_ok_iff_writes :
    ofBytes bytes = .ok t ↔ ∃ es rest, Writes bytes es rest ∧ t = ofList es := by
  -- what is read off is what was written, whatever stands behind it
  constructor
  · intro h
    obtain ⟨henough, rfl⟩ := ofBytes_eq_ok_iff.1 h
    exact ⟨_, _, henough.writes, rfl⟩
  · intro ⟨es, rest, h, ht⟩
    rw [h.ofBytes_eq, ht]

/-- Reads entries in turn, each as a number of four bytes and one of eight. -/
def readInTurn? : Nat → List UInt8 → Option (List (ItemId × ParamSet))
  | 0, _ => some []
  | n + 1, bytes =>
    (Text.readNumber? 4 bytes).bind fun item =>
      (Text.readNumber? 8 item.2).bind fun mask =>
        (readInTurn? n mask.2).map ((item.1, ⟨BitVec.ofNat 64 mask.1⟩) :: ·)

/-- Reads the number of entries and then the entries in turn. -/
def readTable? (bytes : List UInt8) : Option UnusedTable :=
  (Text.readNumber? 8 bytes).bind fun count => (readInTurn? count.1 count.2).map ofList

/-- One entry takes twelve bytes. -/
theorem readInTurn?_succ (n : Nat) (bytes : List UInt8) : readInTurn? (n + 1) bytes =
    if 12 ≤ bytes.length then (readInTurn? n (bytes.drop 12)).map (readEntry bytes :: ·)
    else none := by
  have hdrop : 8 ≤ (bytes.drop 4).length ↔ 12 ≤ bytes.length := by
    rw [List.length_drop]
    omega
  by_cases hentry : 12 ≤ bytes.length
  · -- the number of four bytes is there, and eight more behind it
    have hitem : 4 ≤ bytes.length := by omega
    simp only [readInTurn?, Text.readNumber?, hitem, hdrop, hentry, if_true, Option.bind_some,
      List.drop_drop]
    rfl
  · rw [if_neg hentry, readInTurn?, Text.readNumber?]
    split
    · simp only [Option.bind_some, Text.readNumber?, hdrop, hentry, if_false, Option.bind_none]
    · rfl

/-- Reading in turn comes to the end of the bytes exactly if there are too few for all entries. -/
theorem readInTurn?_eq (n : Nat) (bytes : List UInt8) :
    readInTurn? n bytes = if 12 * n ≤ bytes.length then some (readEntries n bytes) else none := by
  induction n generalizing bytes with
  | zero => rfl
  | succ n ih =>
    rw [readInTurn?_succ, ih, List.length_drop]
    -- Enough bytes for all the entries are enough for the first one and for the others behind it.
    by_cases henough : 12 * (n + 1) ≤ bytes.length
    · rw [if_pos (by omega), if_pos (by omega), if_pos henough]
      rfl
    · rw [if_neg henough]
      split
      · rw [if_neg (by omega), Option.map_none]
      · rfl

/-- Comparing the number of entries with the bytes at hand comes to the same as reading them in
    turn. -/
theorem readTable?_eq_some_iff : readTable? bytes = some t ↔ ofBytes bytes = .ok t := by
  rw [ofBytes_eq_ok_iff, HasEntries]
  -- without eight bytes there is no count, and both ways fail
  by_cases hcount : 8 ≤ bytes.length
  · rw [readTable?, Text.readNumber?, if_pos hcount, Option.bind_some, readInTurn?_eq,
      List.length_drop]
    split
    · next henough =>
      rw [Option.map_some, Option.some.injEq, eq_comm]
      exact ⟨fun ht => ⟨by omega, ht⟩, fun ht => ht.2⟩
    · simp only [Option.map_none, reduceCtorEq, false_iff]
      omega
  · simp [readTable?, Text.readNumber?, hcount]

/-! ## The main result -/

/-- What was read as a table has no items but those of its entries. -/
theorem mem_of_mem_entries_ofList {e : ItemId × ParamSet} (h : e ∈ (ofList es).entries) :
    e ∈ es := by
  rw [← get?_eq_some_iff, get?_ofList, List.lookup_eq_some_iff] at h
  -- the entry was found in the list from behind
  obtain ⟨before, after, hes, -⟩ := h
  rw [← List.mem_reverse, hes]
  simp

/-- A table has at most one entry for each entry of the list. -/
theorem size_ofList_le (es : List (ItemId × ParamSet)) : (ofList es).size ≤ es.length := by
  have hsub : (ofList es).entries ⊆ es := fun e he => mem_of_mem_entries_ofList he
  exact (List.subperm_of_subset (ofList es).nodup_fst.of_map hsub).length_le

/-- What it means that a table outlives being written. -/
structure Persists (t : UnusedTable) : Prop where
  read : ofBytes t.toBytes = .ok t
  length : t.toBytes.length = 8 + 12 * t.size
  /-- The bytes are those of the entries in order, however the entries are listed. -/
  sorted : ∀ es : List (ItemId × ParamSet), es.Nodup → (∀ i s, (i, s) ∈ es ↔ t.get? i = some s) →
    t.toBytes = Text.toLittleEndian 8 es.length ++
      (es.mergeSort fun a b => decide (a.1 ≤ b.1)).flatMap entryBytes

/-- What it means that bytes are read as the format has it. -/
structure ReadsFormat (bytes : List UInt8) : Prop where
  exists_ok_iff : (∃ t, ofBytes bytes = .ok t) ↔
    8 ≤ bytes.length ∧ 8 + 12 * Text.littleEndian (bytes.take 8) ≤ bytes.length
  /-- The table has the last entry for each item, and what follows the entries is ignored. -/
  ok_iff : ∀ t, ofBytes bytes = .ok t ↔
    ∃ es rest, Writes bytes es rest ∧ ∀ i, t.get? i = es.reverse.lookup i
  /-- The numbers can be read one after the other until the bytes end. -/
  in_turn : ∀ t, readTable? bytes = some t ↔ ofBytes bytes = .ok t
  /-- The bytes of the table read are read as that table, and are no longer. -/
  canonical : ∀ t, ofBytes bytes = .ok t →
    t.Fits ∧ ofBytes t.toBytes = .ok t ∧ t.toBytes.length ≤ bytes.length
  /-- They tell which bytes are read as one table. -/
  canonical_iff : ∀ t, ofBytes bytes = .ok t → ∀ bytes' t', ofBytes bytes' = .ok t' →
    (t.toBytes = t'.toBytes ↔ t = t')
  /-- They are the only ones with the items in order and nothing behind the entries. -/
  canonical_self : ∀ t, ofBytes bytes = .ok t →
    (t.toBytes = bytes ↔ ∃ es, Writes bytes es [] ∧ es.Pairwise (·.1 < ·.1))

/-- A table that fits is read back. -/
theorem Fits.ofBytes_toBytes (h : t.Fits) : ofBytes t.toBytes = .ok t := by
  rw [h.writes.ofBytes_eq, ofList_eq_of_perm (.refl t.entries)]

/-- A table that fits outlives being written. -/
theorem Fits.isPersistent (h : t.Fits) : t.Persists where
  read := h.ofBytes_toBytes
  length := t.length_toBytes
  sorted es hnodup hes := by
    have hperm : es.Perm t.entries := by
      rw [List.perm_ext_iff_of_nodup hnodup t.nodup_fst.of_map]
      intro e
      rw [hes, get?_eq_some_iff]
    rw [mergeSort_eq_entries hperm, hperm.length_eq]
    rfl

/-- What is read as a table fits. -/
theorem fits_of_ofBytes (h : ofBytes bytes = .ok t) : t.Fits := by
  obtain ⟨es, rest, hwrites, rfl⟩ := ofBytes_eq_ok_iff_writes.1 h
  exact fun e he => hwrites.items e (mem_of_mem_entries_ofList he)

/-- All bytes are read as the format has it. -/
theorem readsFormat (bytes : List UInt8) : ReadsFormat bytes where
  exists_ok_iff := by
    simp only [ofBytes_eq_ok_iff, HasEntries]
    exact ⟨fun ht => ht.elim fun _ ht => ht.1, fun h => ⟨_, h, rfl⟩⟩
  ok_iff t := by
    rw [ofBytes_eq_ok_iff_writes]
    constructor
    · intro ⟨es, rest, h, ht⟩
      exact ⟨es, rest, h, fun i => ht ▸ get?_ofList es i⟩
    · intro ⟨es, rest, h, ht⟩
      exact ⟨es, rest, h, ext_get? fun i => by rw [ht, get?_ofList]⟩
  in_turn _ := readTable?_eq_some_iff
  canonical t h := by
    refine ⟨fits_of_ofBytes h, (fits_of_ofBytes h).ofBytes_toBytes, ?_⟩
    obtain ⟨es, rest, hwrites, rfl⟩ := ofBytes_eq_ok_iff_writes.1 h
    have hsize := size_ofList_le es
    have hlength := hwrites.length_eq
    rw [length_toBytes]
    omega
  canonical_iff t h bytes' t' h' := by
    refine ⟨fun he => ?_, congrArg toBytes⟩
    -- both are what is read from their common bytes
    have hread := (fits_of_ofBytes h).ofBytes_toBytes
    rw [he, (fits_of_ofBytes h').ofBytes_toBytes] at hread
    exact (Except.ok.inj hread).symm
  canonical_self t h := by
    constructor
    · intro he
      exact ⟨t.entries, he ▸ (fits_of_ofBytes h).writes, t.sorted⟩
    · intro ⟨es, hwrites, hes⟩
      -- entries in order are those of the table they make
      have ht : t = ⟨es, hes⟩ := by
        rw [hwrites.ofBytes_eq] at h
        rw [← Except.ok.inj h]
        exact ofList_eq_of_perm (.refl es)
      rw [ht, hwrites.bytes_eq, List.append_nil]
      rfl

/-- Tables outlive being written, and bytes are read as the format has it. -/
theorem persists : (∀ t : UnusedTable, t.Fits → t.Persists) ∧ ∀ bytes, ReadsFormat bytes :=
  ⟨fun _ h => h.isPersistent, readsFormat⟩

/-- A table made of entries out of order, with two for one item. -/
def patched : UnusedTable := ofList [(7, ⟨1⟩), (2, ⟨6⟩), (7, ⟨4⟩)]

/-- The patched table fits, so it outlives being written. -/
theorem persists_patched : patched.Fits ∧ patched.Persists := by
  have h : patched.Fits := by
    show ∀ e ∈ [((2, ⟨6⟩) : ItemId × ParamSet), (7, ⟨4⟩)], Text.Fits 4 e.1
    simp [Text.Fits]
  exact ⟨h, persists.1 patched h⟩

example : (ofBytes (patched.toBytes ++ [0, 1, 2])).toOption.map entries =
      some [(2, ⟨6⟩), (7, ⟨4⟩)] ∧
    (ofBytes (List.replicate 8 255 ++ patched.toBytes)).toOption.map entries = none := by
  decide +kernel

end UnusedTable

end Monomorph
