import PpsDht.HashtableRuns
import PpsDht.ServerLoop

/-!
# Does `add_Htable_value` report its own failure?

`AddReports` is what a caller may rely on: no error means that the value is
stored, and an error means that nothing changed.  `addReports_iff` says when a
call on a reachable table keeps it, and that the server, which acknowledges a
put when there is no error, acknowledges only what it stored under the same
condition.
-/

namespace PpsDht

open CMem

/-- No error exactly when the value is stored, and an error only when the table
maps every key as before. -/
structure AddReports (ok : Bool) (table : Htable) (key value : CString) :
    Prop where
  stored : (addHtableValue ok table key (some value)).1 = .ERR_NONE ↔
    getHtableValue (addHtableValue ok table key (some value)).2 (some key) =
      some value
  kept : (addHtableValue ok table key (some value)).1 ≠ .ERR_NONE →
    ∀ key', getHtableValue (addHtableValue ok table key (some value)).2
      (some key') = getHtableValue table (some key')

/-- The pass acknowledges the put only if it stored its value. -/
def AcksStored (fuel : Nat) (m : ServerMem) (table : Htable)
    (datagram : List UInt8) : Prop :=
  ∃ table' sent, serverStep fuel m table datagram = .ok (table', sent) ∧
    (sent ≠ [] → getHtableValue table' (some (cstr datagram)) =
      some (putValue m datagram))

/-- The allocation succeeds, or the key is in the table, or its bucket has at
most one node. -/
def FailureShows (ok : Bool) (table : Htable) (key : CString) : Prop :=
  ok = true ∨ getHtableValue table (some key) ≠ none ∨
    getBucketSize (table.bucketOf key) ≤ 1

instance (ok : Bool) (table : Htable) (key : CString) :
    Decidable (FailureShows ok table key) :=
  inferInstanceAs (Decidable (_ ∨ _ ∨ _))

/-- A call either stores its value without an error, or leaves the table as it
is; then the error is lost unless the bucket has at most one node. -/
theorem addHtableValue_cases {table : Htable} (h : table.Inv) (ok : Bool)
    (key value : CString) :
    ((addHtableValue ok table key (some value)).1 = .ERR_NONE ∧
      getHtableValue (addHtableValue ok table key (some value)).2 (some key) =
        some value ∧ FailureShows ok table key) ∨
    (addHtableValue ok table key (some value) =
        (if getBucketSize (table.bucketOf key) ≤ 1 then .ERR_NOMEM
          else .ERR_NONE, table) ∧
      getHtableValue table (some key) = none ∧
      (FailureShows ok table key ↔
        getBucketSize (table.bucketOf key) ≤ 1)) := by
  by_cases hfits : ok = true ∨ ¬ table.NeedsNode key
  · have hrun : addHtableValue ok table key (some value) =
        addHtableValue true table key (some value) := by
      rcases hfits with rfl | hnode
      · rfl
      · exact addHtableValue_node h hnode ok value
    have hget := getHtableValue_add h key value key
    rw [if_pos rfl] at hget
    rw [hrun]
    refine Or.inl ⟨addHtableValue_err h key value, hget, ?_⟩
    rcases hfits with hok | hnode
    · exact Or.inl hok
    · rw [Htable.NeedsNode, not_and_or, not_not] at hnode
      rcases hnode with hkey | hzero
      · exact Or.inr (Or.inl hkey)
      · exact Or.inr (Or.inr (by omega))
  · rw [not_or, not_not, Bool.not_eq_true] at hfits
    obtain ⟨rfl, hnode⟩ := hfits
    refine Or.inr ⟨addHtableValue_noNode h hnode value, hnode.1, ?_⟩
    simp [FailureShows, hnode.1]

theorem addReports_of_inv {table : Htable} (h : table.Inv) (ok : Bool)
    (key value : CString) :
    AddReports ok table key value ↔ FailureShows ok table key := by
  rcases addHtableValue_cases h ok key value with
    ⟨herr, hget, hshows⟩ | ⟨hrun, hnone, hshows⟩
  · refine ⟨fun _ => hshows, fun _ => ⟨⟨fun _ => hget, fun _ => herr⟩, ?_⟩⟩
    exact fun hne => absurd herr hne
  · rw [hshows]
    constructor
    · intro hreports
      by_contra hlong
      have hstored := hreports.stored.mp (by rw [hrun, if_neg hlong])
      rw [hrun, hnone] at hstored
      cases hstored
    · intro hshort
      rw [if_pos hshort] at hrun
      constructor
      · rw [hrun, hnone]
        constructor
        · intro herr
          cases herr
        · intro hget
          cases hget
      · intro _ key'
        rw [hrun]

/-- The put branch acknowledges what it stored under the same condition. -/
theorem acksStored_of_inv {table : Htable} (h : table.Inv) (fuel : Nat)
    (m : ServerMem) {datagram : List UInt8} (hput : IsPut datagram)
    (hmax : datagram.length ≤ maxMsgSize) :
    AcksStored fuel m table datagram ↔
      FailureShows m.mallocOk table (cstr datagram) := by
  have hstep := serverStep_ofNul fuel m table hput.nul hput.two hmax
  simp only at hstep
  rw [AcksStored, hstep]
  rcases addHtableValue_cases h m.mallocOk (cstr datagram)
    (putValue m datagram) with ⟨_, hget, hshows⟩ | ⟨hrun, hnone, hshows⟩
  · exact ⟨fun _ => hshows, fun _ => ⟨_, _, rfl, fun _ => hget⟩⟩
  · rw [hrun, hshows]
    by_cases hshort : getBucketSize (table.bucketOf (cstr datagram)) ≤ 1
    · rw [if_pos hshort]
      exact ⟨fun _ => hshort, fun _ => ⟨_, _, rfl, fun hsent => absurd rfl hsent⟩⟩
    · rw [if_neg hshort]
      constructor
      · rintro ⟨table', sent, hok, hacks⟩
        cases hok
        have hget := hacks (List.cons_ne_nil _ _)
        rw [hnone] at hget
        cases hget
      · exact fun hle => absurd hle hshort

/-- On every reachable table, a call reports its own failure, and a put is
acknowledged only if it is stored, exactly when the allocation succeeds, or the
key is in the table, or its bucket has at most one node. -/
theorem addReports_iff (size : Nat) (hsize : 0 < size) (calls : List AddCall) :
    (∀ (ok : Bool) (key value : CString),
      AddReports ok (runCalls (constructHtable size hsize) calls) key value ↔
        FailureShows ok (runCalls (constructHtable size hsize) calls) key) ∧
    ∀ (fuel : Nat) (m : ServerMem) (datagram : List UInt8),
      IsPut datagram → datagram.length ≤ maxMsgSize →
      (AcksStored fuel m (runCalls (constructHtable size hsize) calls)
          datagram ↔
        FailureShows m.mallocOk
          (runCalls (constructHtable size hsize) calls) (cstr datagram)) := by
  have hinv := runCalls_inv (constructHtable_inv size hsize) calls
  exact ⟨fun ok key value => addReports_of_inv hinv ok key value,
    fun fuel m _ hput hmax => acksStored_of_inv hinv fuel m hput hmax⟩

/-- One key in one bucket: a failing allocation is reported. -/
theorem addReports_iff_one :
    AddReports false (runCalls (constructHtable 1 (by decide))
      [⟨true, lit ['k'], some (lit ['v'])⟩]) (lit ['l']) (lit ['w']) :=
  ((addReports_iff 1 (by decide) [⟨true, lit ['k'], some (lit ['v'])⟩]).1 false
    (lit ['l']) (lit ['w'])).mpr (by decide)

/-- Behind two keys in one bucket it is not. -/
theorem add_unreported :
    ¬ ∀ (size : Nat) (hsize : 0 < size) (calls : List AddCall) (ok : Bool)
        (key value : CString),
      AddReports ok (runCalls (constructHtable size hsize) calls) key
        value := by
  intro h
  have hstored := (h 1 (by decide) [⟨true, lit ['k'], some (lit ['v'])⟩,
    ⟨true, lit ['l'], some (lit ['w'])⟩] false (lit ['m'])
    (lit ['x'])).stored.mp (by decide)
  exact absurd hstored (by decide)

end PpsDht
