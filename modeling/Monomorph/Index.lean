import Std.Data.TreeMap

/-!
# Indices

An index gives each of its keys a value. Keys are kept in buckets by their hashes and the buckets
in a search tree, so a look-up takes time logarithmic in the number of keys as long as few keys
share a hash. What an index holds does not depend on the hashes: `get?_insert` says it all.
-/

namespace Monomorph

/-- Values of type `α` for keys of type `κ`. -/
structure Index (κ α : Type) where
  /-- The keys of each hash with their values, the newest first. -/
  buckets : Std.TreeMap UInt64 (List (κ × α)) := ∅

namespace Index

variable {κ α : Type} [DecidableEq κ] [Hashable κ]

instance : Inhabited (Index κ α) := ⟨{}⟩

/-- The keys of one hash with their values. -/
def bucket (ix : Index κ α) (h : UInt64) : List (κ × α) := ix.buckets.getD h []

/-- The value of a key, if it has one. -/
def get? (ix : Index κ α) (k : κ) : Option α := (ix.bucket (hash k)).lookup k

/-- Whether a key has a value. -/
def contains (ix : Index κ α) (k : κ) : Bool := (ix.get? k).isSome

/-- Gives a key a value in place of the one it may have. -/
def insert (ix : Index κ α) (k : κ) (a : α) : Index κ α :=
  -- the value it had stays behind the new one, where no look-up comes
  ⟨ix.buckets.insert (hash k) ((k, a) :: ix.bucket (hash k))⟩

/-- An empty index finds nothing. -/
@[simp] theorem get?_empty (k : κ) : ({} : Index κ α).get? k = none := by
  simp [get?, bucket]

omit [DecidableEq κ] in
/-- An insertion changes the bucket of its own key's hash only. -/
theorem bucket_insert (ix : Index κ α) (k : κ) (a : α) (h : UInt64) :
    (ix.insert k a).bucket h =
      if hash k = h then (k, a) :: ix.bucket (hash k) else ix.bucket h := by
  simp [bucket, insert, Std.TreeMap.getD_insert]

/-- A key that is given a value has it from then on, and all others keep theirs. -/
theorem get?_insert (ix : Index κ α) (k : κ) (a : α) (j : κ) :
    (ix.insert k a).get? j = if k = j then some a else ix.get? j := by
  rw [get?, get?, bucket_insert]
  by_cases e : k = j
  · simp [e]
  · -- keys of one hash share a bucket, and the look-up in it tells them apart
    by_cases h : hash k = hash j
    · have hj : (j == k) = false := by simp [Ne.symm e]
      simp [h, e, List.lookup_cons, hj]
    · simp [h, e]

/-- An empty index holds no key. -/
@[simp] theorem contains_empty (k : κ) : ({} : Index κ α).contains k = false := by
  simp [contains]

/-- An index holds the key inserted last and those it held before. -/
theorem contains_insert (ix : Index κ α) (k : κ) (a : α) (j : κ) :
    (ix.insert k a).contains j = (decide (k = j) || ix.contains j) := by
  by_cases e : k = j <;> simp [contains, get?_insert, e]

example : ((({} : Index UInt64 Nat).insert 1 10).insert 2 20).get? 1 = some 10 := by decide

end Index

end Monomorph
