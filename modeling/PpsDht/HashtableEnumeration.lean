import PpsDht.HashtableRuns
import Mathlib.Data.List.Dedup
import Mathlib.Data.List.Flatten

/-!
# Enumeration of the hash table

`get_Htable_size` counts the pairs bucket by bucket, and `get_Htable_content`
fills as many slots with a running offset.  `contentAfter` is the state of the
filling loop, and `FillsRange` what one pass of it does: it fills the slots
from the offset on with the pairs of its bucket, and touches no other.

`content_enumerates` is about every table that a run of `add_Htable_value`
calls leaves, with any outcomes of their allocations.
-/

namespace PpsDht

open CMem Assoc

/-- The list and the offset after the first `i` passes of
`get_Htable_content`. -/
def contentAfter (table : Htable) (i : Nat) : List (Option KvPair) × Nat :=
  (table.buckets.take i).foldl (fun (list, used) bck =>
    let (list, count) := getBucketContent bck list used
    (list, used + count)) (List.replicate (getHtableSize table) none, 0)

/-- One pass: the pairs of the bucket fill empty slots from the offset on, and
the new offset is behind them. -/
structure FillsRange (bck : Bucket) (before after : List (Option KvPair) × Nat) :
    Prop where
  used : after.2 = before.2 + getBucketSize bck
  filled : ∀ (j : Nat) (kv : KvPair), bck.pairs[j]? = some kv →
    before.1[before.2 + j]? = some none ∧
      after.1[before.2 + j]? = some (some kv)
  frame : ∀ j, j < before.2 ∨ after.2 ≤ j → after.1[j]? = before.1[j]?

/-- The content lists the map of the table: every slot is filled, every key is
there once, with its value, and every bucket has its own range of slots. -/
structure Enumerates (table : Htable) (content : KvList) : Prop where
  size : content.size = getHtableSize table
  length : content.list.length = content.size
  filled : ∀ slot ∈ content.list, slot ≠ none
  once : ∀ key, getHtableValue table (some key) ≠ none →
    (content.list.filterMap (Option.map KvPair.key)).count key = 1
  value : ∀ kv, some kv ∈ content.list →
    getHtableValue table (some kv.key) = some kv.value
  ranges : ∀ (i : Nat) (bck : Bucket), table.buckets[i]? = some bck →
    FillsRange bck (contentAfter table i) (contentAfter table (i + 1))
  first : (contentAfter table 0).2 = 0
  last : contentAfter table table.size = (content.list, content.size)

/-! ## The passes -/

theorem length_take_pairs_le (table : Htable) (i : Nat) :
    ((table.buckets.take i).flatMap Bucket.pairs).length ≤
      getHtableSize table := by
  rw [getHtableSize_eq]
  exact ((List.take_sublist i table.buckets).flatMap Bucket.pairs).length_le

/-- The first `i` passes list the pairs of the first `i` buckets. -/
theorem contentAfter_eq (table : Htable) (i : Nat) :
    contentAfter table i =
      (((table.buckets.take i).flatMap Bucket.pairs).map some ++
        List.replicate (getHtableSize table -
          ((table.buckets.take i).flatMap Bucket.pairs).length) none,
        ((table.buckets.take i).flatMap Bucket.pairs).length) := by
  have hfold := getHtableContent_foldl (table.buckets.take i) []
    (getHtableSize table) (length_take_pairs_le table i)
  rw [List.nil_append, List.nil_append, List.length_nil, Nat.zero_add] at hfold
  exact hfold

/-- One more pass. -/
theorem fillsRange_contentAfter (table : Htable) {i : Nat} {bck : Bucket}
    (hi : table.buckets[i]? = some bck) :
    FillsRange bck (contentAfter table i) (contentAfter table (i + 1)) := by
  obtain ⟨hlt, hget⟩ := List.getElem?_eq_some_iff.mp hi
  have htake : table.buckets.take (i + 1) = table.buckets.take i ++ [bck] := by
    rw [List.take_succ_eq_append_getElem hlt, hget]
  have hpairs : (table.buckets.take (i + 1)).flatMap Bucket.pairs =
      (table.buckets.take i).flatMap Bucket.pairs ++ bck.pairs := by
    rw [htake, List.flatMap_append, List.flatMap_singleton]
  -- There is room for the bucket.
  have hroom := length_take_pairs_le table (i + 1)
  rw [hpairs, List.length_append] at hroom
  rw [contentAfter_eq, contentAfter_eq, hpairs]
  generalize (table.buckets.take i).flatMap Bucket.pairs = done at hroom ⊢
  generalize getHtableSize table = size at hroom ⊢
  constructor
  · rw [getBucketSize_eq]
    exact List.length_append
  · intro j kv hj
    obtain ⟨hjlt, _⟩ := List.getElem?_eq_some_iff.mp hj
    simp only
    constructor
    · rw [List.getElem?_append_right (by rw [List.length_map]; omega),
        List.length_map, Nat.add_sub_cancel_left, List.getElem?_replicate,
        if_pos (by omega)]
    · rw [List.getElem?_append_left (by
          rw [List.length_map, List.length_append]; omega),
        List.getElem?_map, List.getElem?_append_right (by omega),
        Nat.add_sub_cancel_left, hj]
      rfl
  · intro j hj
    simp only [List.length_append] at hj ⊢
    rcases hj with hj | hj
    · rw [List.map_append, List.append_assoc,
        List.getElem?_append_left (by rw [List.length_map]; exact hj),
        List.getElem?_append_left (by rw [List.length_map]; exact hj)]
    · rw [List.getElem?_append_right (by
          rw [List.length_map, List.length_append]; exact hj),
        List.getElem?_append_right (by rw [List.length_map]; omega),
        List.length_map, List.length_map, List.length_append,
        List.getElem?_replicate, List.getElem?_replicate]
      split_ifs <;> first | rfl | omega

/-! ## The content -/

/-- The keys of the content are the keys with a value, each once. -/
theorem keys_contentPairs {table : Htable} (h : table.Inv) :
    ((contentPairs table).map KvPair.key).Nodup ∧
      ∀ key, key ∈ (contentPairs table).map KvPair.key ↔
        getHtableValue table (some key) ≠ none := by
  have hstored : (contentPairs table).map KvPair.key = table.storedKeys := by
    rw [contentPairs_eq, List.map_flatMap, Htable.storedKeys]
    simp only [Bucket.pairs, List.map_map]
    rfl
  refine ⟨hstored ▸ h.storedKeys_nodup, ?_⟩
  intro key
  rw [List.mem_map, Option.ne_none_iff_exists']
  constructor
  · rintro ⟨kv, hkv, rfl⟩
    exact ⟨kv.value, (mem_contentPairs h kv).mp hkv⟩
  · rintro ⟨value, hvalue⟩
    exact ⟨⟨key, value⟩, (mem_contentPairs h ⟨key, value⟩).mpr hvalue, rfl⟩

theorem enumerates_of_inv {table : Htable} (h : table.Inv) :
    Enumerates table (getHtableContent table) := by
  obtain ⟨hnodup, hmem⟩ := keys_contentPairs h
  have hcontent := getHtableContent_eq table
  have hsize : getHtableSize table = (contentPairs table).length := by
    rw [contentPairs_eq, getHtableSize_eq]
  rw [hcontent]
  constructor
  · exact hsize.symm
  · exact List.length_map some
  · intro slot hslot
    obtain ⟨kv, _, rfl⟩ := List.mem_map.mp hslot
    exact Option.some_ne_none kv
  · intro key hkey
    have hkeys : ((contentPairs table).map some).filterMap
        (Option.map KvPair.key) = (contentPairs table).map KvPair.key := by
      rw [List.filterMap_map, ← List.filterMap_eq_map]
      rfl
    rw [hkeys]
    exact List.count_eq_one_of_mem hnodup ((hmem key).mpr hkey)
  · intro kv hkv
    obtain ⟨kv', hkv', heq⟩ := List.mem_map.mp hkv
    exact (mem_contentPairs h kv).mp (Option.some.inj heq ▸ hkv')
  · intro i bck hi
    exact fillsRange_contentAfter table hi
  · rfl
  · rw [contentAfter_eq, Htable.size, List.take_length, ← contentPairs_eq,
      hsize, Nat.sub_self, List.replicate_zero, List.append_nil]

/-- The count is the number of the keys that were added. -/
theorem getHtableSize_addAll (size : Nat) (hsize : 0 < size)
    (adds : List (CString × CString)) :
    getHtableSize (addAll (constructHtable size hsize) adds) =
      (adds.map Prod.fst).dedup.length := by
  have hinv := addAll_inv (constructHtable_inv size hsize) adds
  obtain ⟨hnodup, hmem⟩ := keys_contentPairs hinv
  have hcount : getHtableSize (addAll (constructHtable size hsize) adds) =
      ((contentPairs (addAll (constructHtable size hsize) adds)).map
        KvPair.key).length := by
    rw [List.length_map, contentPairs_eq, getHtableSize_eq]
  rw [hcount]
  refine List.Perm.length_eq
    ((List.perm_ext_iff_of_nodup hnodup (List.nodup_dedup _)).mpr ?_)
  intro key
  have hmap := (htable_refines_map size hsize adds).1 key
  rw [hmem, hmap, List.mem_dedup, ne_eq, lookup_eq_none_iff, not_not, keys,
    List.map_reverse, List.mem_reverse]

/-- Enumeration is exact: after any run of calls, the size is the number of
distinct keys that the run added, which are all of its keys when nothing fails,
and the content lists each of them once, with its value, bucket after bucket. -/
theorem content_enumerates (size : Nat) (hsize : 0 < size)
    (calls : List AddCall) :
    getHtableSize (runCalls (constructHtable size hsize) calls) =
      ((addedPairs (constructHtable size hsize) calls).map
        Prod.fst).dedup.length ∧
    ((∀ call ∈ calls, call.mallocOk = true ∧ call.value ≠ none) →
      getHtableSize (runCalls (constructHtable size hsize) calls) =
        (calls.map AddCall.key).dedup.length) ∧
    Enumerates (runCalls (constructHtable size hsize) calls)
      (getHtableContent (runCalls (constructHtable size hsize) calls)) := by
  have hinv := constructHtable_inv size hsize
  have hcount : getHtableSize (runCalls (constructHtable size hsize) calls) =
      ((addedPairs (constructHtable size hsize) calls).map
        Prod.fst).dedup.length := by
    rw [runCalls_eq hinv, getHtableSize_addAll]
  refine ⟨hcount, ?_, enumerates_of_inv (runCalls_inv hinv calls)⟩
  intro hok
  rw [hcount, map_key_addedPairs hinv calls hok]

/-- Three puts of two keys into two buckets. -/
theorem content_enumerates_two :
    getHtableSize (runCalls (constructHtable 2 (by decide))
      [⟨true, lit ['k'], some (lit ['v'])⟩, ⟨true, lit ['l'], some (lit ['w'])⟩,
        ⟨true, lit ['k'], some (lit ['x'])⟩]) = 2 :=
  ((content_enumerates 2 (by decide) _).2.1 (by decide)).trans (by decide)

end PpsDht
