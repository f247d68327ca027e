import PpsDht.ServerLoop
import PpsDht.DumpFraming

/-!
# When the server answers a dump

The dump loop ends on a table when every stored pair fits into an empty packet,
`dumpEnds_iff`, and the comparison of the loop is strict.  So the question is
which puts store a pair of `MAX_MSG_SIZE` bytes or more: `putFits_iff` reads it
off the datagram.  A full datagram whose value has no terminator is too large,
and so is a datagram of one byte less when the receive buffer goes on behind it.

A pair stays in the table until the next put of its key, `mem_contentPairs_puts`.
-/

namespace PpsDht

open CMem

/-- The dump loop ends on this table. -/
def DumpEnds (table : Htable) : Prop :=
  ∃ fuel sent, dumpLoop fuel (getHtableContent table) = some (.ok sent)

/-- The loop ends exactly when every pair fits into an empty packet. -/
theorem dumpEnds_iff (table : Htable) :
    DumpEnds table ↔ ∀ kv ∈ contentPairs table, sizeKv kv < maxMsgSize := by
  have hcontent : getHtableContent table = content (contentPairs table) :=
    getHtableContent_eq table
  rw [DumpEnds, hcontent]
  constructor
  · rintro ⟨fuel, sent, hrun⟩ kv hkv
    by_contra hlarge
    rw [dumpLoop_diverges hkv (by omega) fuel] at hrun
    cases hrun
  · intro hfit
    obtain ⟨st, hrun, _⟩ := dumpLoop_sized hfit
    exact ⟨_, _, hrun⟩

/-! ## The size of a stored pair -/

/-- The value of a put is terminated inside its datagram, or the datagram
leaves room for the terminator and for the byte behind it. -/
def PutFits (p : Pass) : Prop :=
  2 ≤ p.2.count 0 ∨
    p.2.length + (if peek p.1.rest 0 = 0 then 0 else 1) < maxMsgSize

instance (p : Pass) : Decidable (PutFits p) :=
  inferInstanceAs (Decidable (_ ∨ _))

/-- The pair of a put is smaller than a full datagram. -/
theorem putFits_iff {p : Pass} (hput : IsPut p.2)
    (hmax : p.2.length ≤ maxMsgSize) :
    PutFits p ↔ strlen (putPair p).1 + 1 + strlen (putPair p).2 < maxMsgSize := by
  have hlen := length_eq_of_nul hput.nul
  have hcount := count_afterNul hput.nul
  have hpair : putPair p = (cstr p.2,
      cstr (afterNul p.2 ++ [peek p.1.rest 0])) := rfl
  rw [PutFits, hpair]
  simp only
  by_cases hnul : (0 : UInt8) ∈ afterNul p.2
  · have hpos : 0 < (afterNul p.2).count 0 := List.count_pos_iff.mpr hnul
    have hvalue := length_eq_of_nul hnul
    rw [cstr_append_of_mem hnul]
    constructor
    · intro _
      omega
    · intro _
      exact Or.inl (by omega)
  · have hzero : (afterNul p.2).count 0 = 0 :=
      List.count_eq_zero_of_not_mem hnul
    -- No second zero byte: the value ends at the byte behind the datagram.
    by_cases hrest : peek p.1.rest 0 = 0
    · have hvalue : cstr (afterNul p.2 ++ [peek p.1.rest 0]) =
          ⟨afterNul p.2, hnul⟩ := by
        rw [hrest]
        exact cstr_append_zero ⟨afterNul p.2, hnul⟩ []
      rw [hvalue, if_pos hrest]
      simp only [strlen] at hlen ⊢
      omega
    · have hall : (0 : UInt8) ∉ afterNul p.2 ++ [peek p.1.rest 0] := by
        intro hmem
        rcases List.mem_append.mp hmem with h | h
        · exact hnul h
        · exact hrest (List.mem_singleton.mp h).symm
      have hvalue := congrArg List.length (bytes_cstr hall)
      rw [List.length_append, List.length_singleton] at hvalue
      rw [if_neg hrest]
      simp only [strlen] at hlen ⊢
      omega

/-! ## The pairs of a run of puts -/

/-- `p` is a pass of the run, and no later pass has its key. -/
def LastOfKey (passes : List Pass) (p : Pass) : Prop :=
  ∃ earlier later, passes = earlier ++ p :: later ∧
    ∀ q ∈ later, cstr q.2 ≠ cstr p.2

theorem LastOfKey.mem {passes : List Pass} {p : Pass}
    (h : LastOfKey passes p) : p ∈ passes := by
  obtain ⟨earlier, later, rfl, _⟩ := h
  exact List.mem_append_right _ List.mem_cons_self

/-- The pairs in the table after a run of puts, without a failing
allocation. -/
theorem mem_contentPairs_puts (passes : List Pass) (kv : KvPair) :
    kv ∈ contentPairs (addAll (constructHtable htableSize htableSize_pos)
        (passes.map putPair)) ↔
      ∃ p, LastOfKey passes p ∧ putPair p = (kv.key, kv.value) := by
  have hinv := constructHtable_inv htableSize htableSize_pos
  rw [mem_contentPairs (addAll_inv hinv _), addAll_toMap hinv,
    constructHtable_toMap, Option.or_none, Assoc.lookup_reverse_eq_some_iff]
  constructor
  · rintro ⟨l₁, l₂, hsplit, hnot⟩
    obtain ⟨earlier, tail, rfl, _, htail⟩ := List.map_eq_append_iff.mp hsplit
    obtain ⟨p, later, rfl, hp, rfl⟩ := List.map_eq_cons_iff.mp htail
    refine ⟨p, ⟨earlier, later, rfl, ?_⟩, hp⟩
    intro q hq hkey
    have hkv : cstr p.2 = kv.key := congrArg Prod.fst hp
    exact hnot (List.mem_map.mpr
      ⟨putPair q, List.mem_map_of_mem hq, hkey.trans hkv⟩)
  · rintro ⟨p, ⟨earlier, later, rfl, hlater⟩, hp⟩
    refine ⟨earlier.map putPair, later.map putPair, ?_, ?_⟩
    · rw [List.map_append, List.map_cons, hp]
    · intro hmem
      obtain ⟨add, hadd, hkey⟩ := List.mem_map.mp hmem
      obtain ⟨q, hq, rfl⟩ := List.mem_map.mp hadd
      have hkv : cstr p.2 = kv.key := congrArg Prod.fst hp
      exact hlater q hq (hkey.trans hkv.symm)

/-! ## Dumps after puts -/

/-- The dump loop ends after every run of puts that fit.  When no allocation
fails, it ends exactly when the last put of every key fits. -/
theorem dumpEnds_puts (fuel : Nat) (passes : List Pass)
    (hput : ∀ p ∈ passes, IsPut p.2 ∧ p.2.length ≤ maxMsgSize) :
    ∃ table sents, serverLoop fuel
        (constructHtable htableSize htableSize_pos) passes =
          .ok (table, sents) ∧
      ((∀ p ∈ passes, PutFits p) → DumpEnds table) ∧
      ((∀ p ∈ passes, p.1.mallocOk = true) →
        (DumpEnds table ↔ ∀ p, LastOfKey passes p → PutFits p)) := by
  have hinv := constructHtable_inv htableSize htableSize_pos
  obtain ⟨⟨table, sents⟩, hrun, hall⟩ := serverLoop_puts fuel
    (constructHtable htableSize htableSize_pos) hput
  refine ⟨table, sents, hrun, ?_, ?_⟩
  · intro hfits
    obtain ⟨adds, rfl, hadds⟩ :=
      serverLoop_adds (fun p hp => (hput p hp).2) hrun
    rw [dumpEnds_iff]
    intro kv hkv
    -- Every pair in the table is that of an add.
    rw [mem_contentPairs (addAll_inv hinv _), addAll_toMap hinv,
      constructHtable_toMap, Option.or_none,
      Assoc.lookup_reverse_eq_some_iff] at hkv
    obtain ⟨l₁, l₂, rfl, _⟩ := hkv
    obtain ⟨p, hp, hisPut, hpair⟩ := hadds (kv.key, kv.value)
      (List.mem_append_right _ List.mem_cons_self)
    have hsize := (putFits_iff hisPut (hput p hp).2).mp (hfits p hp)
    rwa [← hpair] at hsize
  · intro hok
    have htable : table = _ := hall hok
    rw [dumpEnds_iff, htable]
    constructor
    · intro hsize p hlast
      have hp := hput p hlast.mem
      have hkv := (mem_contentPairs_puts passes
        ⟨(putPair p).1, (putPair p).2⟩).mpr ⟨p, hlast, rfl⟩
      exact (putFits_iff hp.1 hp.2).mpr (hsize _ hkv)
    · intro hfits kv hkv
      obtain ⟨p, hlast, hpair⟩ := (mem_contentPairs_puts passes kv).mp hkv
      have hp := hput p hlast.mem
      have hsize := (putFits_iff hp.1 hp.2).mp (hfits p hlast)
      rwa [hpair] at hsize

/-- A put that does not fit, alone in the table. -/
theorem putFits_of_dumpEnds {p : Pass} (hput : IsPut p.2)
    (hmax : p.2.length ≤ maxMsgSize)
    (h : DumpEnds (addAll (constructHtable htableSize htableSize_pos)
      ([p].map putPair))) : PutFits p := by
  have hlast : LastOfKey [p] p :=
    ⟨[], [], rfl, fun _ h => absurd h List.not_mem_nil⟩
  have hkv := (mem_contentPairs_puts [p]
    ⟨(putPair p).1, (putPair p).2⟩).mpr ⟨p, hlast, rfl⟩
  exact (putFits_iff hput hmax).mpr ((dumpEnds_iff _).mp h _ hkv)

/-- A put of `MAX_MSG_SIZE` bytes with one zero byte. -/
def fullPut : Pass :=
  ({ rest := [0], past := [], mallocOk := true },
    107 :: 0 :: List.replicate (maxMsgSize - 2) 118)

theorem isPut_fullPut : IsPut fullPut.2 ∧ fullPut.2.length = maxMsgSize := by
  refine ⟨⟨?_, ?_⟩, ?_⟩
  · exact List.mem_cons_of_mem _ List.mem_cons_self
  · rw [fullPut, List.length_cons, List.length_cons]
    omega
  · rw [fullPut, List.length_cons, List.length_cons, List.length_replicate,
      maxMsgSize]
    rfl

/-- Puts of `k`, of `p` and of `k` again. -/
def shortPuts : List Pass :=
  [[107, 0, 118], [112, 0, 119, 120], [107, 0, 121]].map
    (fun datagram => ({ rest := [], past := [], mallocOk := true }, datagram))

/-- The dump ends behind them. -/
theorem dumpEnds_puts_short :
    ∃ table sents, serverLoop 0 (constructHtable htableSize htableSize_pos)
        shortPuts = .ok (table, sents) ∧ DumpEnds table := by
  have hputs : ∀ p ∈ shortPuts,
      (IsPut p.2 ∧ p.2.length ≤ maxMsgSize) ∧ PutFits p := by
    intro p hp
    have hall : ∀ p ∈ shortPuts, (0 : UInt8) ∈ p.2 ∧ 2 ≤ p.2.length ∧
        p.2.length < maxMsgSize ∧ PutFits p := by
      decide
    obtain ⟨hnul, htwo, hlt, hfits⟩ := hall p hp
    exact ⟨⟨⟨hnul, htwo⟩, Nat.le_of_lt hlt⟩, hfits⟩
  obtain ⟨table, sents, hrun, hends, _⟩ :=
    dumpEnds_puts 0 shortPuts (fun p hp => (hputs p hp).1)
  exact ⟨table, sents, hrun, hends (fun p hp => (hputs p hp).2)⟩

/-- After one full put the dump loop goes on forever. -/
theorem dump_hangs : ¬ ∀ (fuel : Nat) (passes : List Pass),
    (∀ p ∈ passes, IsPut p.2 ∧ p.2.length ≤ maxMsgSize) →
    ∀ table sents, serverLoop fuel (constructHtable htableSize htableSize_pos)
        passes = .ok (table, sents) → DumpEnds table := by
  intro h
  obtain ⟨hput, hlen⟩ := isPut_fullPut
  have hputs : ∀ p ∈ [fullPut], IsPut p.2 ∧ p.2.length ≤ maxMsgSize := by
    intro p hp
    rw [List.mem_singleton.mp hp]
    exact ⟨hput, Nat.le_of_eq hlen⟩
  obtain ⟨⟨table, sents⟩, hrun, hall⟩ := serverLoop_puts 0
    (constructHtable htableSize htableSize_pos) hputs
  have htable : table = _ := hall (by
    intro p hp
    rw [List.mem_singleton.mp hp]
    rfl)
  have hends := h 0 [fullPut] hputs table sents hrun
  rw [htable] at hends
  have hfits := putFits_of_dumpEnds hput (Nat.le_of_eq hlen) hends
  have hcount : fullPut.2.count 0 = 1 := by
    rw [fullPut, List.count_cons_of_ne (by decide), List.count_cons_self,
      List.count_replicate, if_neg (by decide)]
  rcases hfits with htwo | hshort
  · omega
  · omega

end PpsDht
