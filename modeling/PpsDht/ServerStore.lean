import PpsDht.ServerLoop

/-!
# The server refines a map

What the server is for: a map from keys to values, both of them byte strings.
`RefStep` says what such a map does with one datagram, in terms of the bytes of
the datagram, and `RefRun` is a run of it.

`serverStep_refines` is the simulation for one pass of the main loop, and
`serverLoop_refines` for a run from the empty table.  A pass finds a zero byte
behind its datagram, and its allocations succeed.
-/

namespace PpsDht

open CMem Function

/-! ## The reference -/

/-- The values of the keys. -/
abbrev RefMap := List UInt8 → Option (List UInt8)

/-- The key of a put: the bytes before the first zero byte. -/
def refKey (datagram : List UInt8) : List UInt8 :=
  datagram.takeWhile (· != 0)

/-- The value of a put: the bytes behind the first zero byte, up to the next
one or to the end. -/
def refValue (datagram : List UInt8) : List UInt8 :=
  (afterNul datagram).takeWhile (· != 0)

/-- A reply of `MAX_MSG_ELEM_SIZE` bytes that starts with the value and ends it
with a zero byte where there is room.  With zero memory behind the value, the
other bytes are zero. -/
structure Carries (past reply value : List UInt8) : Prop where
  length : reply.length = maxMsgElemSize
  starts : reply.take (min value.length maxMsgElemSize) =
    value.take maxMsgElemSize
  terminated : value.length < maxMsgElemSize → reply[value.length]? = some 0
  padded : (∀ i, peek past i = 0) → ∀ b ∈ reply.drop value.length, b = 0

/-- What the reference does with one datagram, and what it answers. -/
inductive RefStep : RefMap → Pass → RefMap → List (List UInt8) → Prop
  | ping (ref : RefMap) (m : ServerMem) : RefStep ref (m, []) ref [[]]
  | put (ref : RefMap) (m : ServerMem) (datagram : List UInt8)
      (hput : IsPut datagram) :
      RefStep ref (m, datagram)
        (update ref (refKey datagram) (some (refValue datagram))) [[]]
  | found (ref : RefMap) (m : ServerMem) (key value reply : List UInt8)
      (hne : key ≠ []) (hnul : (0 : UInt8) ∉ key)
      (hvalue : ref key = some value) (hreply : Carries m.past reply value) :
      RefStep ref (m, key) ref [reply]
  | missing (ref : RefMap) (m : ServerMem) (key : List UInt8)
      (hne : key ≠ []) (hnul : (0 : UInt8) ∉ key) (hnone : ref key = none) :
      RefStep ref (m, key) ref [[0]]

/-- A run of the reference, with the answers of every step. -/
inductive RefRun :
    RefMap → List Pass → RefMap → List (List (List UInt8)) → Prop
  | nil (ref : RefMap) : RefRun ref [] ref []
  | cons {ref ref' ref'' : RefMap} {p : Pass} {passes : List Pass}
      {sent : List (List UInt8)} {sents : List (List (List UInt8))}
      (hstep : RefStep ref p ref' sent)
      (hrun : RefRun ref' passes ref'' sents) :
      RefRun ref (p :: passes) ref'' (sent :: sents)

/-- The table stores the map. -/
def Store.Matches (store : Store) (ref : RefMap) : Prop :=
  ∀ key : CString, ref key.bytes = (store.get key).map CString.bytes

/-! ## Replies -/

theorem carries_readBytes (value : CString) (past : List UInt8) :
    Carries past (readBytes (mem value ++ past) maxMsgElemSize)
      value.bytes := by
  have hbyte : ∀ i, i < maxMsgElemSize →
      (readBytes (mem value ++ past) maxMsgElemSize)[i]? =
        some (peek (mem value ++ past) i) := by
    intro i hi
    rw [readBytes, List.getElem?_map, List.getElem?_range hi]
    rfl
  constructor
  · exact length_readBytes _ _
  · rw [take_readBytes _ (Nat.min_le_right _ _), mem_append,
      readBytes_append_le (Nat.min_le_left _ _)]
    rcases Nat.le_total value.bytes.length maxMsgElemSize with h | h
    · rw [Nat.min_eq_left h, List.take_length, List.take_of_length_le h]
    · rw [Nat.min_eq_right h]
  · intro hlt
    rw [hbyte _ hlt, mem_append, peek_append, if_neg (Nat.lt_irrefl _),
      Nat.sub_self, peek_cons_zero]
  · intro hpast b hb
    obtain ⟨i, hi⟩ := List.mem_iff_getElem?.mp hb
    rw [List.getElem?_drop] at hi
    have hlt : value.bytes.length + i < maxMsgElemSize := by
      have h := (List.getElem?_eq_some_iff.mp hi).1
      rwa [length_readBytes] at h
    rw [hbyte _ hlt, Option.some.injEq, mem_append, peek_append,
      if_neg (by omega), Nat.add_sub_cancel_left] at hi
    cases i with
    | zero => exact hi.symm
    | succ i =>
      rw [peek_cons_succ, hpast] at hi
      exact hi.symm

/-! ## The simulation -/

/-- A pass with a zero byte behind its datagram and with memory. -/
structure Pass.Clean (p : Pass) : Prop where
  size : p.2.length ≤ maxMsgSize
  zero : peek p.1.rest 0 = 0
  mallocOk : p.1.mallocOk = true

theorem putValue_of_zero {m : ServerMem} (hzero : peek m.rest 0 = 0)
    (datagram : List UInt8) :
    (putValue m datagram).bytes = refValue datagram := by
  rw [putValue, hzero, cstr_concat_zero]
  rfl

/-- One pass of the main loop is one step of the reference. -/
theorem serverStep_refines (fuel : Nat) {store : Store} {ref : RefMap}
    (hmatch : store.Matches ref) {p : Pass} (hp : p.Clean) (hdump : p.2 ≠ [0]) :
    ∃ (store' : Store) (ref' : RefMap) (sent : List (List UInt8)),
      serverStep fuel p.1 store.table p.2 = .ok (store'.table, sent) ∧
        RefStep ref p ref' sent ∧ store'.Matches ref' := by
  obtain ⟨m, datagram⟩ := p
  by_cases hne : datagram = []
  · subst hne
    exact ⟨store, ref, [[]], serverStep_ping fuel m store.table,
      .ping ref m, hmatch⟩
  have hpos : 0 < datagram.length := List.length_pos_iff.mpr hne
  by_cases hnul : (0 : UInt8) ∈ datagram
  · -- One byte that is zero would be a dump request.
    have htwo : 2 ≤ datagram.length := by
      by_contra hone
      obtain ⟨b, hb⟩ := List.length_eq_one_iff.mp
        (show datagram.length = 1 by omega)
      rw [hb, List.mem_singleton] at hnul
      exact hdump (by rw [hb, hnul])
    have hstep := serverStep_ofNul fuel m store.table hnul htwo hp.size
    rw [show m.mallocOk = true from hp.mallocOk] at hstep
    simp only at hstep
    rw [if_pos (addHtableValue_err store.inv _ _)] at hstep
    refine ⟨store.add (cstr datagram) (putValue m datagram), _, [[]], hstep,
      .put ref m datagram ⟨hnul, htwo⟩, ?_⟩
    intro key
    have hvalue : (putValue m datagram).bytes = refValue datagram :=
      putValue_of_zero hp.zero datagram
    have hkey : refKey datagram = (cstr datagram).bytes := rfl
    rw [Store.get_add, hkey]
    by_cases h : key = cstr datagram
    · rw [h, update_self, if_pos rfl, Option.map_some, hvalue]
    · have hbytes : key.bytes ≠ (cstr datagram).bytes :=
        fun heq => h (CString.ext heq)
      rw [update_of_ne hbytes, if_neg h]
      exact hmatch key
  · have hkey : cstr (datagram ++ m.rest) = ⟨datagram, hnul⟩ := by
      refine cstr_eq ?_ ?_
      · intro i hi
        rw [peek_append, if_pos hi]
      · rw [strlen, peek_append, if_neg (Nat.lt_irrefl _), Nat.sub_self]
        exact hp.zero
    have href := hmatch ⟨datagram, hnul⟩
    have hstep := serverStep_noNul fuel m store.table hnul hne hp.size
    rw [getBranch, hkey] at hstep
    rw [Store.get] at href
    cases hget : getHtableValue store.table (some ⟨datagram, hnul⟩) with
    | none =>
      rw [hget] at hstep href
      exact ⟨store, ref, [[0]], hstep, .missing ref m datagram hne hnul href,
        hmatch⟩
    | some value =>
      rw [hget] at hstep href
      exact ⟨store, ref, _, hstep, .found ref m datagram value.bytes _ hne hnul
        href (carries_readBytes value m.past), hmatch⟩

/-- A run of the main loop is a run of the reference. -/
theorem serverLoop_sim (fuel : Nat) : ∀ {passes : List Pass} {store : Store}
    {ref : RefMap}, store.Matches ref →
    (∀ p ∈ passes, p.Clean ∧ p.2 ≠ [0]) →
    ∃ (store' : Store) (ref' : RefMap) (sents : List (List (List UInt8))),
      serverLoop fuel store.table passes = .ok (store'.table, sents) ∧
        RefRun ref passes ref' sents ∧ store'.Matches ref' := by
  intro passes
  induction passes with
  | nil =>
    intro store ref hmatch _
    exact ⟨store, ref, [], rfl, .nil ref, hmatch⟩
  | cons p passes ih =>
    intro store ref hmatch hpasses
    obtain ⟨hp, hdump⟩ := hpasses p List.mem_cons_self
    obtain ⟨store', ref', sent, hstep, href, hmatch'⟩ :=
      serverStep_refines fuel hmatch hp hdump
    obtain ⟨store'', ref'', sents, hrun, hrefs, hmatch''⟩ :=
      ih hmatch' (fun q hq => hpasses q (List.mem_cons_of_mem _ hq))
    exact ⟨store'', ref'', sent :: sents,
      serverLoop_cons.mpr ⟨_, sent, sents, hstep, hrun, rfl⟩,
      .cons href hrefs, hmatch''⟩

/-- From the empty table, replies and table match the reference map. -/
theorem serverLoop_refines (fuel : Nat) (passes : List Pass)
    (hpasses : ∀ p ∈ passes, p.Clean ∧ p.2 ≠ [0]) :
    ∃ (store : Store) (ref : RefMap) (sents : List (List (List UInt8))),
      serverLoop fuel (constructHtable htableSize htableSize_pos) passes =
          .ok (store.table, sents) ∧
        RefRun (fun _ => none) passes ref sents ∧ store.Matches ref := by
  have hempty : (Store.empty htableSize htableSize_pos).Matches
      (fun _ => none) := by
    intro key
    rw [Store.get_empty, Option.map_none]
  exact serverLoop_sim fuel hempty hpasses

/-- A put with two zero bytes, and a get of its key. -/
theorem serverLoop_refines_demo :
    ∃ (store : Store) (ref : RefMap) (sents : List (List (List UInt8))),
      serverLoop 0 (constructHtable htableSize htableSize_pos)
          [({ rest := [], past := [], mallocOk := true }, [107, 0, 118, 0, 119]),
            ({ rest := [], past := [], mallocOk := true }, [107])] =
        .ok (store.table, sents) ∧
      RefRun (fun _ => none)
          [({ rest := [], past := [], mallocOk := true }, [107, 0, 118, 0, 119]),
            ({ rest := [], past := [], mallocOk := true }, [107])] ref sents ∧
      store.Matches ref := by
  refine serverLoop_refines 0 _ ?_
  intro p hp
  rcases List.mem_cons.mp hp with rfl | hp
  · exact ⟨⟨by decide, rfl, rfl⟩, by decide⟩
  · rw [List.mem_singleton.mp hp]
    exact ⟨⟨by decide, rfl, rfl⟩, by decide⟩

end PpsDht
