import PpsDht.HashtableContent

/-!
# Runs of `add_Htable_value` with failing allocations

`create_bucket` is called at the end of a chain only, and its failure is
reported by the call of `add_value_to_bucket` that sees it, but not by the
calls above it.  `addHtableValue_noNode` says what a failing allocation does:
the table stays, and the error is reported exactly when the chain has one
node.

`runCalls_eq` says that a run of calls, whatever the outcomes of their
allocations, is `addAll` of the pairs that the calls added.
-/

namespace PpsDht

open CMem Assoc

/-! ## A failing allocation -/

/-- Adding `key` needs a new node: the key has no value, and its bucket is not
empty. -/
def Htable.NeedsNode (table : Htable) (key : CString) : Prop :=
  getHtableValue table (some key) = none ∧
    getBucketSize (table.bucketOf key) ≠ 0

instance (table : Htable) (key : CString) : Decidable (table.NeedsNode key) :=
  inferInstanceAs (Decidable (_ ∧ _))

theorem getBucketSize_pos : ∀ {bck : Bucket}, bck.Full → 1 ≤ getBucketSize bck
  | .last none, h => absurd h (by simp [Bucket.Full])
  | .link none _, h => absurd h (by simp [Bucket.Full])
  | .last (some _), _ => Nat.le_refl 1
  | .link (some _) _, _ => by
    rw [getBucketSize]
    exact Nat.le_add_right 1 _

/-- A failing allocation at the end of a chain: it shows when the key is not in
the chain, and the error is lost on the way back through a longer chain. -/
theorem addValueToBucket_false (key value : CString) : ∀ bck : Bucket,
    bck.Full →
    (key ∈ keys bck.toList →
      addValueToBucket false bck key value =
        addValueToBucket true bck key value) ∧
    (key ∉ keys bck.toList →
      addValueToBucket false bck key value =
        (if getBucketSize bck ≤ 1 then .ERR_NOMEM else .ERR_NONE, bck))
  | .last none, h => absurd h (by simp [Bucket.Full])
  | .link none _, h => absurd h (by simp [Bucket.Full])
  | .last (some kv), _ => by
    simp only [addValueToBucket, strcmp_eq_zero_iff, Bucket.toList, keys,
      List.map_cons, List.map_nil, List.mem_singleton]
    constructor
    · intro hk
      rw [if_pos hk, if_pos hk]
    · intro hk
      rw [if_neg hk]
      rfl
  | .link (some kv) next, h => by
    have hnext : next.Full := h
    obtain ⟨hmem, hnot⟩ := addValueToBucket_false key value next hnext
    have hsize : ¬ getBucketSize (.link (some kv) next) ≤ 1 := by
      have hpos := getBucketSize_pos hnext
      rw [getBucketSize]
      omega
    rw [if_neg hsize]
    simp only [addValueToBucket, strcmp_eq_zero_iff, Bucket.toList, keys,
      List.map_cons, List.mem_cons]
    constructor
    · intro hk
      by_cases heq : key = kv.key
      · rw [if_pos heq, if_pos heq]
      · rw [if_neg heq, if_neg heq, hmem (hk.resolve_left heq)]
    · intro hk
      rw [not_or] at hk
      rw [if_neg hk.1, hnot hk.2]

theorem toMap_eq_none_iff (table : Htable) (key : CString) :
    getHtableValue table (some key) = none ↔
      key ∉ keys (table.bucketOf key).toList := by
  rw [← lookup_eq_none_iff, ← toMap_eq_lookup]
  rfl

/-- A call that needs no node does not depend on the allocation. -/
theorem addHtableValue_node {table : Htable} (h : table.Inv) {key : CString}
    (hnode : ¬ table.NeedsNode key) (ok : Bool) (value : CString) :
    addHtableValue ok table key (some value) =
      addHtableValue true table key (some value) := by
  cases ok with
  | true => rfl
  | false =>
    have hbucket : addValueToBucket false (table.bucketOf key) key value =
        addValueToBucket true (table.bucketOf key) key value := by
      rcases h.noHole _ _ (getElem?_bucketOf table key) with hempty | hfull
      · rw [hempty]
        rfl
      · refine (addValueToBucket_false key value _ hfull).1 ?_
        by_contra hmem
        have hpos := getBucketSize_pos hfull
        exact hnode ⟨(toMap_eq_none_iff table key).mpr hmem, by omega⟩
    rw [addHtableValue, addHtableValue]
    simp only [hbucket]

/-- A call that needs a node and gets none leaves the table as it is. -/
theorem addHtableValue_noNode {table : Htable} (h : table.Inv) {key : CString}
    (hnode : table.NeedsNode key) (value : CString) :
    addHtableValue false table key (some value) =
      (if getBucketSize (table.bucketOf key) ≤ 1 then .ERR_NOMEM else .ERR_NONE,
        table) := by
  obtain ⟨hnone, hsize⟩ := hnode
  have hfull : (table.bucketOf key).Full := by
    rcases h.noHole _ _ (getElem?_bucketOf table key) with hempty | hfull
    · rw [hempty] at hsize
      exact absurd rfl hsize
    · exact hfull
  have hbucket := (addValueToBucket_false key value _ hfull).2
    ((toMap_eq_none_iff table key).mp hnone)
  have hlt : hashFunction (some key) table.size < table.buckets.length :=
    hashFunction_lt key table.size_pos
  rw [addHtableValue]
  simp only [hbucket]
  congr 2
  exact List.set_getElem_self hlt

/-! ## Runs -/

/-- One call of `add_Htable_value`: whether the allocation of a bucket would
succeed, and the arguments. -/
structure AddCall where
  mallocOk : Bool
  key : CString
  value : Option CString

/-- The table after one call. -/
def AddCall.run (call : AddCall) (table : Htable) : Htable :=
  (addHtableValue call.mallocOk table call.key call.value).2

/-- The table after a sequence of calls. -/
def runCalls (table : Htable) (calls : List AddCall) : Htable :=
  calls.foldl (fun table call => call.run table) table

/-- The pair that a call adds: none when the value is `NULL`, or when the table
does not hold it afterwards. -/
def AddCall.added (call : AddCall) (table : Htable) :
    List (CString × CString) :=
  match call.value with
  | none => []
  | some value =>
    if getHtableValue (call.run table) (some call.key) = some value then
      [(call.key, value)]
    else []

/-- The pairs that a sequence of calls adds. -/
def addedPairs : Htable → List AddCall → List (CString × CString)
  | _, [] => []
  | table, call :: calls =>
    call.added table ++ addedPairs (call.run table) calls

/-- The pair of a call that cannot fail is added. -/
theorem AddCall.added_of_fits {table : Htable} (h : table.Inv)
    {call : AddCall} {value : CString} (hvalue : call.value = some value)
    (hfits : call.mallocOk = true ∨ ¬ table.NeedsNode call.key) :
    call.added table = [(call.key, value)] ∧
      call.run table = addAll table [(call.key, value)] := by
  have hrun : call.run table = addAll table [(call.key, value)] := by
    rw [AddCall.run, hvalue]
    rcases hfits with hok | hnode
    · rw [hok]
      rfl
    · rw [addHtableValue_node h hnode]
      rfl
  have hget : getHtableValue (call.run table) (some call.key) = some value := by
    have hadd := getHtableValue_add h call.key value call.key
    rw [if_pos rfl] at hadd
    rw [hrun]
    exact hadd
  rw [AddCall.added, hvalue]
  exact ⟨if_pos hget, hrun⟩

/-- One call is an add of what it adds. -/
theorem AddCall.run_eq {table : Htable} (h : table.Inv) (call : AddCall) :
    call.run table = addAll table (call.added table) := by
  cases hvalue : call.value with
  | none =>
    rw [AddCall.run, AddCall.added, hvalue]
    rfl
  | some value =>
    by_cases hfits : call.mallocOk = true ∨ ¬ table.NeedsNode call.key
    · obtain ⟨hadded, hrun⟩ := added_of_fits h hvalue hfits
      rw [hadded, hrun]
    · rw [not_or, not_not, Bool.not_eq_true] at hfits
      have hrun : call.run table = table := by
        rw [AddCall.run, hvalue, hfits.1, addHtableValue_noNode h hfits.2]
      rw [AddCall.added, hvalue, hrun, hfits.2.1]
      rfl

/-- The tables of runs with failing allocations are those of runs without. -/
theorem runCalls_eq {table : Htable} (h : table.Inv) (calls : List AddCall) :
    runCalls table calls = addAll table (addedPairs table calls) := by
  induction calls generalizing table with
  | nil => rfl
  | cons call calls ih =>
    have hrun := call.run_eq h
    have hinv : (call.run table).Inv := hrun ▸ addAll_inv h _
    show runCalls (call.run table) calls = _
    rw [ih hinv, addedPairs, addAll_append, ← hrun]

theorem runCalls_inv {table : Htable} (h : table.Inv) (calls : List AddCall) :
    (runCalls table calls).Inv := by
  rw [runCalls_eq h]
  exact addAll_inv h _

/-- When no allocation fails and no value is `NULL`, every call adds its
pair. -/
theorem map_key_addedPairs {table : Htable} (h : table.Inv)
    (calls : List AddCall)
    (hok : ∀ call ∈ calls, call.mallocOk = true ∧ call.value ≠ none) :
    (addedPairs table calls).map Prod.fst = calls.map AddCall.key := by
  induction calls generalizing table with
  | nil => rfl
  | cons call calls ih =>
    obtain ⟨hmalloc, hsome⟩ := hok call List.mem_cons_self
    obtain ⟨value, hvalue⟩ := Option.ne_none_iff_exists'.mp hsome
    obtain ⟨hadded, hrun⟩ :=
      AddCall.added_of_fits h hvalue (Or.inl hmalloc)
    have hinv : (call.run table).Inv := hrun ▸ addAll_inv h _
    rw [addedPairs, hadded, List.map_append,
      ih hinv (fun c hc => hok c (List.mem_cons_of_mem _ hc))]
    rfl

end PpsDht
