import PpsDht.Hashtable
import Mathlib.Data.List.Pairwise
import Mathlib.Data.List.Induction

/-!
# The hash table refines a finite map

`Htable.Inv` is the invariant of every table that `add_Htable_value` builds:
every stored key sits in the bucket that `hash_function` gives, no key is
stored twice, and an empty pair occurs only in a head without successor.

`getHtableValue_add` is the one fact that the rest of the development uses: on
a table with the invariant, adding is a point update of the map that
`getHtableValue` reads.  `Store` packs a table with its invariant, and
`Store.toMap` is the finite map that the table stands for.
-/

namespace PpsDht

open CMem Assoc

/-- The invariant of a reachable table. -/
structure Htable.Inv (table : Htable) : Prop where
  placed : ∀ (i : Nat) (bck : Bucket), table.buckets[i]? = some bck →
    ∀ key ∈ keys bck.toList, hashFunction (some key) table.size = i
  nodup : ∀ (i : Nat) (bck : Bucket), table.buckets[i]? = some bck →
    (keys bck.toList).Nodup
  noHole : ∀ (i : Nat) (bck : Bucket), table.buckets[i]? = some bck →
    bck.NoHole

/-- Every key that the table stores, bucket by bucket. -/
def Htable.storedKeys (table : Htable) : List CString :=
  table.buckets.flatMap (fun bck => keys bck.toList)

/-- The map that a table stands for. -/
def Htable.toMap (table : Htable) (key : CString) : Option CString :=
  getHtableValue table (some key)

/-- No key is stored twice in the whole table: twice in one bucket is excluded
by `nodup`, and two buckets by `placed`. -/
theorem Htable.Inv.storedKeys_nodup {table : Htable} (h : table.Inv) :
    table.storedKeys.Nodup := by
  rw [Htable.storedKeys, List.nodup_flatMap]
  constructor
  · intro bck hmem
    obtain ⟨i, hi⟩ := List.mem_iff_getElem?.mp hmem
    exact h.nodup i bck hi
  · rw [List.pairwise_iff_getElem]
    intro i j hi hj hij
    have hbi := List.getElem?_eq_getElem hi
    have hbj := List.getElem?_eq_getElem hj
    intro key hki hkj
    have h1 := h.placed i _ hbi key hki
    have h2 := h.placed j _ hbj key hkj
    omega

theorem getElem?_bucketOf (table : Htable) (key : CString) :
    table.buckets[hashFunction (some key) table.size]? =
      some (table.bucketOf key) :=
  List.getElem?_eq_getElem (hashFunction_lt key table.size_pos)

theorem toMap_eq_lookup (table : Htable) (key : CString) :
    table.toMap key = (table.bucketOf key).toList.lookup key :=
  getValueFromBucket_eq key _

/-! ## The table of `construct_Htable` -/

theorem constructHtable_getElem? {size : Nat} {h : 0 < size} {i : Nat}
    {bck : Bucket} (hi : (constructHtable size h).buckets[i]? = some bck) :
    bck = .last none := by
  rw [constructHtable, List.getElem?_replicate] at hi
  split at hi
  · exact (Option.some.inj hi).symm
  · exact absurd hi (by simp)

theorem constructHtable_inv (size : Nat) (h : 0 < size) :
    (constructHtable size h).Inv where
  placed i bck hi := by
    rw [constructHtable_getElem? hi]
    intro key hkey
    exact absurd hkey (by simp [Bucket.toList])
  nodup i bck hi := by
    rw [constructHtable_getElem? hi]
    exact List.nodup_nil
  noHole i bck hi := Or.inl (constructHtable_getElem? hi)

theorem constructHtable_toMap (size : Nat) (h : 0 < size) (key : CString) :
    (constructHtable size h).toMap key = none := by
  rw [toMap_eq_lookup,
    constructHtable_getElem? (getElem?_bucketOf (constructHtable size h) key)]
  rfl

/-! ## One `add_Htable_value` -/

@[simp] theorem addHtableValue_size (ok : Bool) (table : Htable)
    (key value : CString) :
    (addHtableValue ok table key (some value)).2.size = table.size :=
  List.length_set

/-- What one add leaves at index `i` of the bucket array. -/
theorem addHtableValue_getElem? (ok : Bool) (table : Htable)
    (key value : CString) (i : Nat) :
    (addHtableValue ok table key (some value)).2.buckets[i]? =
      if hashFunction (some key) table.size = i then
        some (addValueToBucket ok (table.bucketOf key) key value).2
      else table.buckets[i]? := by
  show (table.buckets.set (hashFunction (some key) table.size)
    (addValueToBucket ok (table.bucketOf key) key value).2)[i]? = _
  have hlt : hashFunction (some key) table.size < table.buckets.length :=
    hashFunction_lt key table.size_pos
  rw [List.getElem?_set]
  by_cases h : hashFunction (some key) table.size = i
  · rw [if_pos h, if_pos h, if_pos (by omega)]
  · rw [if_neg h, if_neg h]

theorem addHtableValue_bucketOf (ok : Bool) (table : Htable)
    (key value key' : CString) :
    (addHtableValue ok table key (some value)).2.bucketOf key' =
      if hashFunction (some key) table.size = hashFunction (some key') table.size
      then (addValueToBucket ok (table.bucketOf key) key value).2
      else table.bucketOf key' := by
  have h := getElem?_bucketOf (addHtableValue ok table key (some value)).2 key'
  rw [addHtableValue_size, addHtableValue_getElem?] at h
  split at h
  · rename_i heq
    rw [if_pos heq]
    exact (Option.some.inj h).symm
  · rename_i hne
    rw [if_neg hne]
    rw [getElem?_bucketOf] at h
    exact (Option.some.inj h).symm

/-- Adding succeeds when the allocation does. -/
theorem addHtableValue_err {table : Htable} (h : table.Inv)
    (key value : CString) :
    (addHtableValue true table key (some value)).1 = .ERR_NONE :=
  (addValueToBucket_noHole key value
    (h.noHole _ _ (getElem?_bucketOf table key))).1

/-- Adding keeps the invariant. -/
theorem addHtableValue_inv {table : Htable} (h : table.Inv)
    (key value : CString) :
    (addHtableValue true table key (some value)).2.Inv := by
  have hb := getElem?_bucketOf table key
  obtain ⟨_, hhole, hlist⟩ :=
    addValueToBucket_noHole key value (h.noHole _ _ hb)
  constructor
  · intro i bck hi key' hkey'
    rw [addHtableValue_size]
    rw [addHtableValue_getElem?] at hi
    split at hi
    · rename_i heq
      rw [← Option.some.inj hi, hlist, mem_keys_upsert] at hkey'
      rcases hkey' with rfl | hkey'
      · exact heq
      · rw [← heq]
        exact h.placed _ _ hb key' hkey'
    · exact h.placed i bck hi key' hkey'
  · intro i bck hi
    rw [addHtableValue_getElem?] at hi
    split at hi
    · rw [← Option.some.inj hi, hlist]
      exact nodup_keys_upsert (h.nodup _ _ hb) key value
    · exact h.nodup i bck hi
  · intro i bck hi
    rw [addHtableValue_getElem?] at hi
    split at hi
    · exact Option.some.inj hi ▸ hhole
    · exact h.noHole i bck hi

/-- Adding is a point update of the map. -/
theorem getHtableValue_add {table : Htable} (h : table.Inv)
    (key value key' : CString) :
    (addHtableValue true table key (some value)).2.toMap key' =
      if key' = key then some value else table.toMap key' := by
  obtain ⟨_, _, hlist⟩ := addValueToBucket_noHole key value
    (h.noHole _ _ (getElem?_bucketOf table key))
  rw [toMap_eq_lookup, toMap_eq_lookup, addHtableValue_bucketOf]
  by_cases hk : key' = key
  · subst hk
    rw [if_pos rfl, if_pos rfl, hlist, lookup_upsert, if_pos rfl]
  · rw [if_neg hk]
    by_cases hash : hashFunction (some key) table.size =
        hashFunction (some key') table.size
    · have hsame : table.bucketOf key = table.bucketOf key' := by
        have h1 := getElem?_bucketOf table key
        rw [hash, getElem?_bucketOf] at h1
        exact (Option.some.inj h1).symm
      rw [if_pos hash, hlist, lookup_upsert, if_neg hk, hsame]
    · rw [if_neg hash]

/-- Without memory for a new node, adding does all or nothing to a bucket. -/
theorem addValueToBucket_noMem (key value : CString) : ∀ bck : Bucket,
    (addValueToBucket false bck key value).2 = bck ∨
      (addValueToBucket false bck key value).2 =
        (addValueToBucket true bck key value).2
  | .last none => Or.inr rfl
  | .link none _ => Or.inr rfl
  | .last (some kv) => by
    rw [addValueToBucket, addValueToBucket]
    split
    · exact Or.inr rfl
    · exact Or.inl rfl
  | .link (some kv) next => by
    rw [addValueToBucket, addValueToBucket]
    split
    · exact Or.inr rfl
    · rcases addValueToBucket_noMem key value next with h | h
      · exact Or.inl (by simp only [h])
      · exact Or.inr (by simp only [h])

/-- Adding does all or nothing to a table. -/
theorem addHtableValue_noMem (ok : Bool) (table : Htable)
    (key value : CString) :
    (addHtableValue ok table key (some value)).2 = table ∨
      (addHtableValue ok table key (some value)).2 =
        (addHtableValue true table key (some value)).2 := by
  cases ok with
  | true => exact Or.inr rfl
  | false =>
    have hlt : hashFunction (some key) table.size < table.buckets.length :=
      hashFunction_lt key table.size_pos
    rw [addHtableValue, addHtableValue]
    rcases addValueToBucket_noMem key value (table.bucketOf key) with h | h
    · refine Or.inl ?_
      simp only [h]
      congr 1
      exact List.set_getElem_self hlt
    · refine Or.inr ?_
      simp only [h]

/-! ## Runs -/

/-- A sequence of `add_Htable_value` calls. -/
def addAll (table : Htable) (adds : List (CString × CString)) : Htable :=
  adds.foldl (fun t add => (addHtableValue true t add.1 (some add.2)).2) table

theorem addAll_append (table : Htable) (adds adds' : List (CString × CString)) :
    addAll table (adds ++ adds') = addAll (addAll table adds) adds' :=
  List.foldl_append

theorem addAll_inv {table : Htable} (h : table.Inv)
    (adds : List (CString × CString)) : (addAll table adds).Inv := by
  induction adds generalizing table with
  | nil => exact h
  | cons add adds ih => exact ih (addHtableValue_inv h add.1 add.2)

/-- After a run, the last add of a key decides. -/
theorem addAll_toMap {table : Htable} (h : table.Inv)
    (adds : List (CString × CString)) (key : CString) :
    (addAll table adds).toMap key =
      (adds.reverse.lookup key).or (table.toMap key) := by
  induction adds using List.reverseRecOn with
  | nil => rfl
  | append_singleton adds add ih =>
    obtain ⟨k, v⟩ := add
    rw [addAll_append, List.reverse_append]
    show (addHtableValue true (addAll table adds) k (some v)).2.toMap key =
      (((k, v) :: adds.reverse).lookup key).or (table.toMap key)
    rw [getHtableValue_add (addAll_inv h adds), lookup_cons_ite]
    split
    · rfl
    · exact ih

/-- The table refines a finite map: on the table of `construct_Htable(size)`,
after any sequence of adds, the value read under a key is that of the last add
made with it, and the invariant holds. -/
theorem htable_refines_map (size : Nat) (hsize : 0 < size)
    (adds : List (CString × CString)) :
    (∀ key, getHtableValue (addAll (constructHtable size hsize) adds) (some key)
      = adds.reverse.lookup key) ∧
    (addAll (constructHtable size hsize) adds).Inv ∧
    (addAll (constructHtable size hsize) adds).storedKeys.Nodup := by
  have hinv := addAll_inv (constructHtable_inv size hsize) adds
  refine ⟨?_, hinv, hinv.storedKeys_nodup⟩
  intro key
  have h := addAll_toMap (constructHtable_inv size hsize) adds key
  rw [constructHtable_toMap, Option.or_none] at h
  exact h

/-- Two keys in one bucket, one of them replaced. -/
theorem htable_refines_map_collision :
    getHtableValue (addAll (constructHtable 1 (by decide))
      [(lit ['k'], lit ['v']), (lit ['l'], lit ['w']), (lit ['k'], lit ['x'])])
      (some (lit ['k'])) = some (lit ['x']) := by
  have h := (htable_refines_map 1 (by decide)
    [(lit ['k'], lit ['v']), (lit ['l'], lit ['w']), (lit ['k'], lit ['x'])]).1
    (lit ['k'])
  exact h.trans (by decide)

/-! ## A table with its invariant -/

/-- A table that `add_Htable_value` can have built. -/
structure Store where
  table : Htable
  inv : table.Inv

/-- The empty store. -/
def Store.empty (size : Nat) (h : 0 < size) : Store :=
  ⟨constructHtable size h, constructHtable_inv size h⟩

/-- `add_Htable_value`, with the allocation succeeding. -/
def Store.add (store : Store) (key value : CString) : Store :=
  ⟨(addHtableValue true store.table key (some value)).2,
    addHtableValue_inv store.inv key value⟩

/-- `get_Htable_value`. -/
def Store.get (store : Store) (key : CString) : Option CString :=
  getHtableValue store.table (some key)

@[simp] theorem Store.get_empty (size : Nat) (h : 0 < size) (key : CString) :
    (Store.empty size h).get key = none := constructHtable_toMap size h key

theorem Store.get_add (store : Store) (key value key' : CString) :
    (store.add key value).get key' =
      if key' = key then some value else store.get key' :=
  getHtableValue_add store.inv key value key'

end PpsDht
