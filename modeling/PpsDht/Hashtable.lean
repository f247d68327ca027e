import PpsDht.Basic
import PpsDht.Lib.Assoc

/-!
# The local hash table

`hashtable.c`.  The table is an array of buckets, and a bucket is a linked
list whose first node is stored inline in the array.  The pair of a node is
`none` when both of its pointers are `NULL`, which is how `calloc` leaves the
array; `create_kv_pair` copies both strings, so a pair is never half empty.

The second half of this file reads a bucket as the list of its pairs up to the
first empty one, `Bucket.toList`.  `getValueFromBucket`, `getBucketSize` and
`getBucketContent` depend on that list alone, and on a bucket without holes
`addValueToBucket` is `Assoc.upsert` on it.
-/

namespace PpsDht

open CMem

/-- `kv_pair_t`, both pointers set. -/
structure KvPair where
  key : CString
  value : CString
  deriving DecidableEq

/-- `struct bucket`: `last` has a `NULL` successor. -/
inductive Bucket where
  | last (keyValue : Option KvPair)
  | link (keyValue : Option KvPair) (next : Bucket)
  deriving DecidableEq

/-- `Htable_t`.  Every caller constructs a table with a positive number of
buckets, so the index that `hash_function` returns is in range. -/
structure Htable where
  buckets : List Bucket
  size_pos : 0 < buckets.length

/-- `htable.size`. -/
def Htable.size (table : Htable) : Nat := table.buckets.length

/-- `construct_Htable`: `calloc` leaves every bucket empty. -/
def constructHtable (size : Nat) (h : 0 < size) : Htable where
  buckets := List.replicate size (.last none)
  size_pos := by rw [List.length_replicate]; exact h

/-- `create_kv_pair`: a deep copy of both strings. -/
def createKvPair (key value : CString) : KvPair where
  key := cstr (mem key)
  value := cstr (mem value)

/-- `create_bucket`; `mallocOk` is whether its `malloc` succeeds. -/
def createBucket (mallocOk : Bool) (keyValue : KvPair) : Option Bucket :=
  if mallocOk then some (.last (some keyValue)) else none

/-- `add_value_to_bucket`.  The error code of the recursive call is
dropped. -/
def addValueToBucket (mallocOk : Bool) :
    Bucket → CString → CString → ErrorCode × Bucket
  | .last none, key, value =>
    (.ERR_NONE, .last (some (createKvPair key value)))
  | .link none next, key, value =>
    (.ERR_NONE, .link (some (createKvPair key value)) next)
  | .last (some kv), key, value =>
    if strcmp key.bytes kv.key.bytes = 0 then
      (.ERR_NONE, .last (some (createKvPair key value)))
    else
      match createBucket mallocOk (createKvPair key value) with
      | none => (.ERR_NOMEM, .last (some kv))
      | some new => (.ERR_NONE, .link (some kv) new)
  | .link (some kv) next, key, value =>
    if strcmp key.bytes kv.key.bytes = 0 then
      (.ERR_NONE, .link (some (createKvPair key value)) next)
    else
      (.ERR_NONE, .link (some kv) (addValueToBucket mallocOk next key value).2)

/-- The mixing loop of `hash_function`, in `size_t` arithmetic. -/
def hashLoop (bytes : List UInt8) : UInt64 :=
  bytes.foldl (fun hash c =>
    let hash := hash + c.toUInt64
    let hash := hash + (hash <<< 10)
    hash ^^^ (hash >>> 6)) 0

/-- `hash_function`. -/
def hashFunction (key : Option CString) (size : Nat) : Nat :=
  if size = 0 then sizeMax
  else
    match key with
    | none => sizeMax
    | some key =>
      let hash := hashLoop key.bytes
      let hash := hash + (hash <<< 3)
      let hash := hash ^^^ (hash >>> 11)
      let hash := hash + (hash <<< 15)
      hash.toNat % size

/-- The bucket of a key is one of the table. -/
theorem hashFunction_lt (key : CString) {size : Nat} (h : 0 < size) :
    hashFunction (some key) size < size := by
  rw [hashFunction, if_neg (by omega)]
  exact Nat.mod_lt _ h

/-- `&htable.buckets[hash_function(key, htable.size)]`. -/
def Htable.bucketOf (table : Htable) (key : CString) : Bucket :=
  table.buckets.get ⟨hashFunction (some key) table.size,
    hashFunction_lt key table.size_pos⟩

/-- `add_Htable_value`, for a key that is not `NULL`. -/
def addHtableValue (mallocOk : Bool) (table : Htable) (key : CString)
    (value : Option CString) : ErrorCode × Htable :=
  match value with
  | none => (.ERR_BAD_PARAMETER, table)
  | some value =>
    let index := hashFunction (some key) table.size
    let (err, bck) := addValueToBucket mallocOk (table.bucketOf key) key value
    (err, ⟨table.buckets.set index bck, by
      rw [List.length_set]; exact table.size_pos⟩)

/-- `get_value_from_bucket`. -/
def getValueFromBucket : Bucket → CString → Option CString
  | .last none, _ => none
  | .link none _, _ => none
  | .last (some kv), key =>
    if strcmp kv.key.bytes key.bytes = 0 then some kv.value else none
  | .link (some kv) next, key =>
    if strcmp kv.key.bytes key.bytes = 0 then some kv.value
    else getValueFromBucket next key

/-- `get_Htable_value`; `none` is `NULL`. -/
def getHtableValue (table : Htable) (key : Option CString) : Option CString :=
  match key with
  | none => none
  | some key => getValueFromBucket (table.bucketOf key) key

/-- `get_bucket_size`. -/
def getBucketSize : Bucket → Nat
  | .last none => 0
  | .link none _ => 0
  | .last (some _) => 1
  | .link (some _) next => 1 + getBucketSize next

/-- `get_Htable_size`. -/
def getHtableSize (table : Htable) : Nat :=
  table.buckets.foldl (fun total bck => total + getBucketSize bck) 0

/-- `kv_list_t`; a slot that was never filled is `none`. -/
structure KvList where
  size : Nat
  list : List (Option KvPair)

/-- `get_bucket_content`: fill the slots from `from` on, and return how many
were filled. -/
def getBucketContent : Bucket → List (Option KvPair) → Nat →
    List (Option KvPair) × Nat
  | .last none, list, _ => (list, 0)
  | .link none _, list, _ => (list, 0)
  | .last (some kv), list, start =>
    (list.set start (some (createKvPair kv.key kv.value)), 1)
  | .link (some kv) next, list, start =>
    let (list, count) := getBucketContent next (list.set start (some kv)) (start + 1)
    (list, 1 + count)

/-- `get_Htable_content`. -/
def getHtableContent (table : Htable) : KvList :=
  let size := getHtableSize table
  let filled := table.buckets.foldl (fun (list, used) bck =>
    let (list, count) := getBucketContent bck list used
    (list, used + count)) (List.replicate size none, 0)
  { size := size, list := filled.1 }

@[simp] theorem createKvPair_key (key value : CString) :
    (createKvPair key value).key = key := cstr_mem key

@[simp] theorem createKvPair_value (key value : CString) :
    (createKvPair key value).value = value := cstr_mem value

/-! ## A bucket as a list of pairs -/

/-- The pairs of a bucket up to the first empty one. -/
def Bucket.toList : Bucket → List (CString × CString)
  | .last none => []
  | .link none _ => []
  | .last (some kv) => [(kv.key, kv.value)]
  | .link (some kv) next => (kv.key, kv.value) :: next.toList

/-- No node of the bucket is empty. -/
def Bucket.Full : Bucket → Prop
  | .last none => False
  | .link none _ => False
  | .last (some _) => True
  | .link (some _) next => next.Full

/-- An empty pair occurs only in a head without successor. -/
def Bucket.NoHole (bck : Bucket) : Prop := bck = .last none ∨ bck.Full

theorem getValueFromBucket_eq (key : CString) :
    ∀ bck : Bucket, getValueFromBucket bck key = bck.toList.lookup key
  | .last none => rfl
  | .link none _ => rfl
  | .last (some kv) => by
    rw [getValueFromBucket, Bucket.toList, Assoc.lookup_cons_ite]
    simp only [strcmp_eq_zero_iff, eq_comm, List.lookup_nil]
  | .link (some kv) next => by
    rw [getValueFromBucket, Bucket.toList, Assoc.lookup_cons_ite,
      getValueFromBucket_eq key next]
    simp only [strcmp_eq_zero_iff, eq_comm]

/-- Adding to a bucket without empty nodes: the pairs are updated in place,
and no empty node appears. -/
theorem addValueToBucket_full (key value : CString) :
    ∀ bck : Bucket, bck.Full →
      (addValueToBucket true bck key value).1 = .ERR_NONE ∧
      (addValueToBucket true bck key value).2.Full ∧
      (addValueToBucket true bck key value).2.toList =
        Assoc.upsert bck.toList key value
  | .last none, h => absurd h (by simp [Bucket.Full])
  | .link none _, h => absurd h (by simp [Bucket.Full])
  | .last (some kv), _ => by
    rw [addValueToBucket]
    simp only [strcmp_eq_zero_iff]
    by_cases hk : key = kv.key
    · simp [hk, Bucket.Full, Bucket.toList, Assoc.upsert]
    · simp [hk, createBucket, Bucket.Full, Bucket.toList, Assoc.upsert]
  | .link (some kv) next, h => by
    have hnext : next.Full := h
    obtain ⟨_, hfull, hlist⟩ := addValueToBucket_full key value next hnext
    rw [addValueToBucket]
    simp only [strcmp_eq_zero_iff]
    by_cases hk : key = kv.key
    · simp [hk, Bucket.Full, Bucket.toList, Assoc.upsert, hnext]
    · simp [hk, Bucket.Full, Bucket.toList, Assoc.upsert, hfull, hlist]

/-- Adding to a bucket of a reachable table. -/
theorem addValueToBucket_noHole (key value : CString) {bck : Bucket}
    (h : bck.NoHole) :
    (addValueToBucket true bck key value).1 = .ERR_NONE ∧
      (addValueToBucket true bck key value).2.NoHole ∧
      (addValueToBucket true bck key value).2.toList =
        Assoc.upsert bck.toList key value := by
  rcases h with rfl | hfull
  · simp [addValueToBucket, Bucket.NoHole, Bucket.Full, Bucket.toList,
      Assoc.upsert]
  · obtain ⟨herr, hfull', hlist⟩ := addValueToBucket_full key value bck hfull
    exact ⟨herr, Or.inr hfull', hlist⟩

end PpsDht
