import PpsDht.HashtableMap
import Mathlib.Data.List.ReduceOption

/-!
# The content of the hash table

`get_Htable_content` first counts the pairs of the table, then fills that many
slots, bucket by bucket.  `getHtableContent_eq` says that the count is right:
every slot is filled, and the slots hold the pairs of the buckets in their
order.
-/

namespace PpsDht

open CMem

/-- The pairs of a bucket, as `kv_pair_t`. -/
def Bucket.pairs (bck : Bucket) : List KvPair :=
  bck.toList.map (fun kv => { key := kv.1, value := kv.2 })

theorem Bucket.pairs_link (kv : KvPair) (next : Bucket) :
    (Bucket.link (some kv) next).pairs = kv :: next.pairs := rfl

theorem getBucketSize_eq : ∀ bck : Bucket, getBucketSize bck = bck.pairs.length
  | .last none => rfl
  | .link none _ => rfl
  | .last (some _) => rfl
  | .link (some kv) next => by
    rw [getBucketSize, getBucketSize_eq next, Bucket.pairs_link,
      List.length_cons, Nat.add_comm]

theorem createKvPair_self (kv : KvPair) : createKvPair kv.key kv.value = kv := by
  rw [createKvPair, cstr_mem, cstr_mem]

/-- Filling the next free slot. -/
theorem set_free {α : Type} (filled : List (Option α)) (kv : α) {free : Nat}
    (h : 1 ≤ free) :
    (filled ++ List.replicate free none).set filled.length (some kv) =
      (filled ++ [some kv]) ++ List.replicate (free - 1) none := by
  obtain ⟨n, rfl⟩ : ∃ n, free = n + 1 := ⟨free - 1, by omega⟩
  rw [List.set_append_right _ _ (Nat.le_refl _), Nat.sub_self,
    List.replicate_succ, List.set_cons_zero, List.append_assoc,
    List.singleton_append, Nat.add_sub_cancel]

/-- A bucket fills the first free slots with its pairs. -/
theorem getBucketContent_eq : ∀ (bck : Bucket) (filled : List (Option KvPair))
    (free : Nat), bck.pairs.length ≤ free →
    getBucketContent bck (filled ++ List.replicate free none) filled.length =
      ((filled ++ bck.pairs.map some) ++
        List.replicate (free - bck.pairs.length) none, bck.pairs.length)
  | .last none, filled, free, _ => by
    rw [getBucketContent, show (Bucket.last none).pairs = [] from rfl,
      List.map_nil, List.append_nil]
    rfl
  | .link none next, filled, free, _ => by
    rw [getBucketContent, show (Bucket.link none next).pairs = [] from rfl,
      List.map_nil, List.append_nil]
    rfl
  | .last (some kv), filled, free, h => by
    rw [getBucketContent, createKvPair_self, set_free filled kv h]
    rfl
  | .link (some kv) next, filled, free, h => by
    rw [Bucket.pairs_link, List.length_cons] at h
    have ih := getBucketContent_eq next (filled ++ [some kv]) (free - 1)
      (by omega)
    rw [List.length_append, List.length_singleton] at ih
    have hfree : free - 1 - next.pairs.length =
        free - (next.pairs.length + 1) := by omega
    rw [getBucketContent, set_free filled kv (by omega), ih, Bucket.pairs_link,
      List.length_cons, List.map_cons, hfree, List.append_assoc filled,
      List.singleton_append]
    simp only
    rw [Nat.add_comm 1]

theorem getHtableSize_foldl (buckets : List Bucket) (total : Nat) :
    buckets.foldl (fun total bck => total + getBucketSize bck) total =
      total + (buckets.flatMap Bucket.pairs).length := by
  induction buckets generalizing total with
  | nil => rfl
  | cons bck buckets ih =>
    rw [List.foldl_cons, ih, List.flatMap_cons, List.length_append,
      getBucketSize_eq, Nat.add_assoc]

theorem getHtableSize_eq (table : Htable) :
    getHtableSize table = (table.buckets.flatMap Bucket.pairs).length := by
  rw [getHtableSize, getHtableSize_foldl, Nat.zero_add]

/-- Bucket after bucket, the pairs fill the slots without a gap. -/
theorem getHtableContent_foldl (buckets : List Bucket) :
    ∀ (filled : List (Option KvPair)) (free : Nat),
      (buckets.flatMap Bucket.pairs).length ≤ free →
      buckets.foldl (fun (list, used) bck =>
        let (list, count) := getBucketContent bck list used
        (list, used + count))
        (filled ++ List.replicate free none, filled.length) =
      ((filled ++ (buckets.flatMap Bucket.pairs).map some) ++
        List.replicate (free - (buckets.flatMap Bucket.pairs).length) none,
        filled.length + (buckets.flatMap Bucket.pairs).length) := by
  induction buckets with
  | nil =>
    intro filled free _
    simp
  | cons bck buckets ih =>
    intro filled free h
    rw [List.flatMap_cons, List.length_append] at h
    have hstep := getBucketContent_eq bck filled free (by omega)
    have hused : filled.length + bck.pairs.length =
        (filled ++ bck.pairs.map some).length := by
      rw [List.length_append, List.length_map]
    have hfree : free - bck.pairs.length -
          (buckets.flatMap Bucket.pairs).length =
        free - (bck.pairs ++ buckets.flatMap Bucket.pairs).length := by
      rw [List.length_append]
      omega
    rw [List.foldl_cons]
    simp only [hstep]
    rw [hused, ih _ _ (by omega), List.flatMap_cons, List.map_append, hfree,
      List.append_assoc filled, ← hused, List.length_append, Nat.add_assoc]

/-- The pairs that `get_Htable_content` lists, in its order. -/
def contentPairs (table : Htable) : List KvPair :=
  (getHtableContent table).list.reduceOption

theorem reduceOption_map_some {α : Type} (l : List α) :
    (l.map some).reduceOption = l := by
  induction l with
  | nil => rfl
  | cons a l ih => rw [List.map_cons, List.reduceOption_cons_of_some, ih]

/-- The content lists the buckets one after the other. -/
theorem getHtableContent_flatMap (table : Htable) :
    getHtableContent table =
      { size := (table.buckets.flatMap Bucket.pairs).length
        list := (table.buckets.flatMap Bucket.pairs).map some } := by
  have hlist := getHtableContent_foldl table.buckets []
    (table.buckets.flatMap Bucket.pairs).length (Nat.le_refl _)
  rw [List.nil_append, List.nil_append, Nat.sub_self, List.replicate_zero,
    List.append_nil, List.length_nil] at hlist
  rw [getHtableContent, getHtableSize_eq]
  simp only
  rw [hlist]

theorem contentPairs_eq (table : Htable) :
    contentPairs table = table.buckets.flatMap Bucket.pairs := by
  rw [contentPairs, getHtableContent_flatMap, reduceOption_map_some]

/-- Every slot of the content is filled. -/
theorem getHtableContent_eq (table : Htable) :
    getHtableContent table =
      { size := (contentPairs table).length
        list := (contentPairs table).map some } := by
  rw [contentPairs_eq, getHtableContent_flatMap]

/-- The content of a reachable table is the map that it stands for. -/
theorem mem_contentPairs {table : Htable} (h : table.Inv) (kv : KvPair) :
    kv ∈ contentPairs table ↔ table.toMap kv.key = some kv.value := by
  have hpairs : ∀ bck : Bucket, kv ∈ bck.pairs ↔
      (kv.key, kv.value) ∈ bck.toList := by
    intro bck
    rw [Bucket.pairs, List.mem_map]
    constructor
    · rintro ⟨entry, hentry, rfl⟩
      exact hentry
    · exact fun hmem => ⟨_, hmem, rfl⟩
  have hbucket := getElem?_bucketOf table kv.key
  rw [contentPairs_eq, List.mem_flatMap, toMap_eq_lookup,
    Assoc.lookup_eq_some_iff_mem (h.nodup _ _ hbucket)]
  constructor
  · rintro ⟨bck, hmem, hkv⟩
    rw [hpairs] at hkv
    obtain ⟨i, hi⟩ := List.mem_iff_getElem?.mp hmem
    have hplaced := h.placed i bck hi kv.key
      (List.mem_map.mpr ⟨_, hkv, rfl⟩)
    rw [hplaced, hi] at hbucket
    exact Option.some.inj hbucket ▸ hkv
  · intro hmem
    exact ⟨_, List.mem_of_getElem? hbucket, (hpairs _).mpr hmem⟩

end PpsDht
