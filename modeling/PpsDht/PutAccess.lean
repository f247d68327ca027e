import PpsDht.Server

/-!
# The memory that a put touches

`parse_put_request` with the accesses that it makes: the indices of `in_msg`
that it reads, and its stores into `key` and `value`.  The put branch of the
server allocates `key` and `value` by the length of the datagram and the
`strlen` of the receive buffer.

`parsePutRequest_writes` ties the stores to `parsePutRequest`.
`putInBounds_never` says that for every datagram the accesses reach one byte
behind it and one byte behind `value`.
-/

namespace PpsDht

open CMem

/-! ## Accesses -/

/-- What one call of `parse_put_request` accesses. -/
structure PutAccess where
  reads : List Nat
  keyWrites : List Write
  valueWrites : List Write

/-- The indices that `memchr(m, '\0', n)` reads. -/
def memchrReads (m : List UInt8) (n : Nat) : List Nat :=
  match memchrNul m n with
  | none => List.range n
  | some i => List.range (i + 1)

/-- The indices that `strlen` reads: the string and its terminator. -/
def strlenReads (m : List UInt8) : List Nat := List.range (strlen (cstr m) + 1)

/-- The accesses of `parse_put_request`.  Without a zero byte in the message
its value loop dereferences `NULL` in the first pass. -/
def parsePutAccess (inMsg : List UInt8) (length : Nat) : PutAccess :=
  let ret := memchrNul inMsg length
  let sizeKey := strlen (cstr inMsg)
  let reads := memchrReads inMsg length ++ strlenReads inMsg ++
    List.range sizeKey
  let keyWrites := loopWrites 0 sizeKey (fun i => peek inMsg i) ++
    [(sizeKey, 0)]
  let sizeValue := sizeSub length sizeKey
  match ret with
  | none =>
    { reads := reads
      keyWrites := keyWrites
      valueWrites := if sizeValue = 0 then [(sizeValue, 0)] else [] }
  | some ret =>
    { reads := reads ++ (List.range sizeValue).map (fun i => ret + i + 1)
      keyWrites := keyWrites
      valueWrites :=
        loopWrites 0 sizeValue (fun i => peek inMsg (ret + i + 1)) ++
          [(sizeValue, 0)] }

/-- The stores are those of `parse_put_request`. -/
theorem parsePutRequest_writes {inMsg : List UInt8} {length : Nat}
    {key value key' value' : List UInt8}
    (h : parsePutRequest inMsg length key value = .ok (key', value')) :
    applyWrites key (parsePutAccess inMsg length).keyWrites = key' ∧
      applyWrites value (parsePutAccess inMsg length).valueWrites =
        value' := by
  rw [parsePutRequest] at h
  rw [parsePutAccess]
  cases hret : memchrNul inMsg length with
  | none =>
    rw [hret] at h
    simp only at h ⊢
    split at h
    · rename_i hzero
      cases h
      rw [if_pos hzero, applyWrites_append, applyWrites_loopWrites,
        applyWrites_singleton, applyWrites_singleton]
      exact ⟨rfl, rfl⟩
    · cases h
  | some ret =>
    rw [hret] at h
    cases h
    simp only
    rw [applyWrites_append, applyWrites_append, applyWrites_loopWrites,
      applyWrites_loopWrites, applyWrites_singleton, applyWrites_singleton]
    exact ⟨rfl, rfl⟩

/-! ## Allocations -/

/-- The size of `key` in the put branch: `strlen(in_msg) + 1`. -/
def keyAlloc (inMsg : List UInt8) : Nat := strlen (cstr inMsg) + 1

/-- The size of `value` in the put branch: `in_msg_len - strlen(in_msg)`. -/
def valueAlloc (inMsg : List UInt8) (inMsgLen : Nat) : Nat :=
  sizeSub inMsgLen (strlen (cstr inMsg))

/-- The put branch reads `in_msg` below `in_msg_len` only, and stays inside
both allocations. -/
structure PutInBounds (inMsg : List UInt8) (inMsgLen : Nat) : Prop where
  reads : ∀ i ∈ (parsePutAccess inMsg inMsgLen).reads, i < inMsgLen
  key : ∀ w ∈ (parsePutAccess inMsg inMsgLen).keyWrites, w.1 < keyAlloc inMsg
  value : ∀ w ∈ (parsePutAccess inMsg inMsgLen).valueWrites,
    w.1 < valueAlloc inMsg inMsgLen

/-- The accesses for a datagram with a zero byte. -/
theorem parsePutAccess_ofNul {datagram : List UInt8}
    (hnul : (0 : UInt8) ∈ datagram) (hmax : datagram.length ≤ maxMsgSize)
    (rest : List UInt8) :
    parsePutAccess (datagram ++ rest) datagram.length =
      { reads := List.range (strlen (cstr datagram) + 1) ++
          List.range (strlen (cstr datagram) + 1) ++
          List.range (strlen (cstr datagram)) ++
          (List.range (datagram.length - strlen (cstr datagram))).map
            (fun i => strlen (cstr datagram) + i + 1)
        keyWrites := loopWrites 0 (strlen (cstr datagram))
            (fun i => peek (datagram ++ rest) i) ++
          [(strlen (cstr datagram), 0)]
        valueWrites :=
          loopWrites 0 (datagram.length - strlen (cstr datagram))
            (fun i => peek (datagram ++ rest)
              (strlen (cstr datagram) + i + 1)) ++
          [(datagram.length - strlen (cstr datagram), 0)] } ∧
      valueAlloc (datagram ++ rest) datagram.length =
        datagram.length - strlen (cstr datagram) := by
  have hlen := length_eq_of_nul hnul
  have hlt : strlen (cstr datagram) < datagram.length := by omega
  have hsub : sizeSub datagram.length (strlen (cstr datagram)) =
      datagram.length - strlen (cstr datagram) := by
    unfold maxMsgSize maxMsgElemSize at hmax
    unfold sizeSub
    omega
  have hfound : memchrNul (datagram ++ rest) datagram.length =
      some (strlen (cstr datagram)) := by
    have hbuf : datagram ++ rest = (cstr datagram).bytes ++
        0 :: (afterNul datagram ++ rest) := by
      rw [← List.cons_append, ← List.append_assoc, ← eq_append_afterNul hnul]
    rw [hbuf]
    exact memchrNul_append_zero _ _ hlt
  rw [parsePutAccess, memchrReads, strlenReads, valueAlloc, hfound,
    cstr_append_of_mem hnul rest, hsub]
  exact ⟨rfl, rfl⟩

/-- For every put datagram the server reads the byte behind it, and stores a
byte behind `value`. -/
theorem putInBounds_never (datagram : List UInt8)
    (hnul : (0 : UInt8) ∈ datagram) (hmax : datagram.length ≤ maxMsgSize)
    (rest : List UInt8) :
    ¬ PutInBounds (datagram ++ rest) datagram.length ∧
      datagram.length ∈
        (parsePutAccess (datagram ++ rest) datagram.length).reads ∧
      (valueAlloc (datagram ++ rest) datagram.length, 0) ∈
        (parsePutAccess (datagram ++ rest) datagram.length).valueWrites := by
  have hlen := length_eq_of_nul hnul
  obtain ⟨haccess, halloc⟩ := parsePutAccess_ofNul hnul hmax rest
  have hread : datagram.length ∈
      (parsePutAccess (datagram ++ rest) datagram.length).reads := by
    rw [haccess]
    -- The last pass of the value loop.
    refine List.mem_append_right _ (List.mem_map.mpr
      ⟨(afterNul datagram).length, List.mem_range.mpr ?_, ?_⟩) <;> omega
  have hwrite : (valueAlloc (datagram ++ rest) datagram.length, 0) ∈
      (parsePutAccess (datagram ++ rest) datagram.length).valueWrites := by
    rw [haccess, halloc]
    exact List.mem_append_right _ List.mem_cons_self
  exact ⟨fun h => absurd (h.reads _ hread) (Nat.lt_irrefl _), hread, hwrite⟩

/-- The smallest put: the key `k` without a value. -/
theorem putInBounds_never_short :
    ¬ PutInBounds ([107, 0] ++ []) [107, 0].length ∧
      2 ∈ (parsePutAccess ([107, 0] ++ []) [107, 0].length).reads ∧
      (1, 0) ∈
        (parsePutAccess ([107, 0] ++ []) [107, 0].length).valueWrites :=
  putInBounds_never [107, 0] (by decide) (by decide) []

/-- Its value loop reads `in_msg[2]`. -/
theorem put_overreads :
    ¬ ∀ datagram : List UInt8, 2 ≤ datagram.length →
      datagram.length ≤ maxMsgSize → (0 : UInt8) ∈ datagram →
      ∀ rest, PutInBounds (datagram ++ rest) datagram.length := by
  intro h
  have hread := (h [107, 0] (by decide) (by decide) (by decide) []).reads 2
    (by decide)
  exact absurd hread (by decide)

end PpsDht
