import PpsDht.Basic

/-!
# Put requests on the wire

`network-utils.c`.  A put request is the key, a zero byte, and the value
without terminator.  `format_put_request` builds it in a `calloc`ed buffer;
its length arguments are `-1` where the callee shall call `strlen`.
`parse_put_request` takes it apart again, from the receive buffer and the
length of the datagram.

`readBytes_formatPutRequest` is what the encoder leaves in its buffer.
`parsePutRequest_put` is what the decoder stores for the datagram of one put:
the key, and the value followed by the byte that the receive buffer holds
behind the datagram.  `putRoundTrip_iff` says when that is the round trip.
-/

namespace PpsDht

open CMem

/-- The size that `format_put_request` uses: `strlen` for `-1`, else the
argument cast to `size_t`. -/
def formatSize (m : List UInt8) (size : Int) : Nat :=
  if size = -1 then strlen (cstr m) else (size % 2 ^ 64).toNat

/-- `format_put_request`. -/
def formatPutRequest (key value : List UInt8) (skey svalue : Int) :
    List UInt8 :=
  let sizeKey := formatSize key skey
  let sizeValue := formatSize value svalue
  let result := List.replicate (sizeKey + sizeValue + 1) 0
  let result := storeLoop result 0 sizeKey (fun i => peek key i)
  let result := poke result sizeKey 0
  storeLoop result (sizeKey + 1) (sizeKey + 1 + sizeValue)
    (fun i => peek value (i - sizeKey - 1))

/-- `parse_put_request`: the contents of `key` and `value` afterwards.  The
pointer that `memchr` returns is dereferenced as soon as one byte of the value
is copied. -/
def parsePutRequest (inMsg : List UInt8) (length : Nat)
    (key value : List UInt8) : Except Fault (List UInt8 × List UInt8) :=
  let ret := memchrNul inMsg length
  let sizeKey := strlen (cstr inMsg)
  let key := storeLoop key 0 sizeKey (fun i => peek inMsg i)
  let key := poke key sizeKey 0
  let sizeValue := sizeSub length sizeKey
  match ret with
  | none =>
    if sizeValue = 0 then .ok (key, poke value sizeValue 0)
    else .error .nullDeref
  | some ret =>
    let value := storeLoop value 0 sizeValue (fun i => peek inMsg (ret + i + 1))
    .ok (key, poke value sizeValue 0)

/-! ## The encoder -/

theorem peek_formatPutRequest (key value : List UInt8) (skey svalue : Int)
    (j : Nat) :
    peek (formatPutRequest key value skey svalue) j =
      if j < formatSize key skey then peek key j
      else if formatSize key skey < j ∧
          j < formatSize key skey + 1 + formatSize value svalue
        then peek value (j - formatSize key skey - 1)
      else 0 := by
  unfold formatPutRequest
  simp only [peek_storeLoop, peek_poke, peek_replicate_zero]
  split_ifs <;> first | rfl | omega

/-- What `format_put_request` leaves in its buffer. -/
theorem readBytes_formatPutRequest (key value : List UInt8)
    (skey svalue : Int) :
    readBytes (formatPutRequest key value skey svalue)
        (formatSize key skey + formatSize value svalue + 1) =
      readBytes key (formatSize key skey) ++
        0 :: readBytes value (formatSize value svalue) := by
  refine readBytes_eq ?_ ?_
  · simp only [List.length_append, List.length_cons, length_readBytes]
    omega
  · intro i hi
    rw [peek_formatPutRequest, peek_append, length_readBytes]
    split_ifs with h1 h2
    · rw [peek_readBytes _ h1]
    · obtain ⟨d, hd⟩ : ∃ d, i - formatSize key skey = d + 1 :=
        ⟨i - formatSize key skey - 1, by omega⟩
      rw [hd, peek_cons_succ, peek_readBytes _ (by omega),
        Nat.add_sub_cancel]
    · have hd : i - formatSize key skey = 0 := by omega
      rw [hd, peek_cons_zero]

@[simp] theorem formatSize_mem (s : CString) :
    formatSize (mem s) (-1) = strlen s := by
  rw [formatSize, if_pos rfl, cstr_mem]

theorem formatSize_natCast (m : List UInt8) {n : Nat} (h : n < 2 ^ 64) :
    formatSize m (n : Int) = n := by
  rw [formatSize, if_neg (by omega)]
  omega

@[simp] theorem readBytes_mem (s : CString) :
    readBytes (mem s) (strlen s) = s.bytes := readBytes_append s.bytes [0]

/-- The datagram of one put: `strlen(key) + strlen(value) + 1` bytes of
`format_put_request(key, value, -1, -1)`. -/
def putDatagram (key value : CString) : List UInt8 :=
  readBytes (formatPutRequest (mem key) (mem value) (-1) (-1))
    (strlen key + strlen value + 1)

theorem putDatagram_eq (key value : CString) :
    putDatagram key value = key.bytes ++ 0 :: value.bytes := by
  have h := readBytes_formatPutRequest (mem key) (mem value) (-1) (-1)
  rw [formatSize_mem, formatSize_mem, readBytes_mem, readBytes_mem] at h
  exact h

@[simp] theorem length_putDatagram (key value : CString) :
    (putDatagram key value).length = strlen key + strlen value + 1 :=
  length_readBytes _ _

theorem nul_mem_putDatagram (key value : CString) :
    (0 : UInt8) ∈ putDatagram key value := by
  rw [putDatagram_eq]
  exact List.mem_append_right _ List.mem_cons_self

/-- The datagram is more than its zero byte unless both strings are empty. -/
theorem two_le_length_putDatagram {key value : CString} :
    2 ≤ (putDatagram key value).length ↔ key.bytes ≠ [] ∨ value.bytes ≠ [] := by
  rw [length_putDatagram, ← List.length_pos_iff, ← List.length_pos_iff, strlen,
    strlen]
  omega

/-! ## The decoder -/

/-- What the decoder stores for a message of `n` bytes whose first zero byte
follows the string `s`: the string, and the `n - strlen s` bytes behind the
zero.  The last of them stands behind the message. -/
theorem parsePutRequest_eq (s : CString) (tail : List UInt8) {n : Nat}
    (hs : strlen s < n) (hn : n < 2 ^ 64) (key value : List UInt8) :
    ∃ key' value',
      parsePutRequest (s.bytes ++ 0 :: tail) n key value =
        .ok (key', value') ∧
      cstr key' = s ∧ cstr value' = cstr (readBytes tail (n - strlen s)) := by
  have hlen : strlen (cstr (s.bytes ++ 0 :: tail)) = strlen s := by
    rw [cstr_append_zero]
  have hsub : sizeSub n (strlen s) = n - strlen s := by
    unfold sizeSub
    omega
  have hpeek : ∀ i, peek (s.bytes ++ 0 :: tail) (strlen s + i + 1) =
      peek tail i := by
    intro i
    rw [peek_append, if_neg (by rw [strlen]; omega)]
    have hd : strlen s + i + 1 - s.bytes.length = i + 1 := by
      rw [strlen]
      omega
    rw [hd, peek_cons_succ]
  refine ⟨poke (storeLoop key 0 (strlen s)
      (fun i => peek (s.bytes ++ 0 :: tail) i)) (strlen s) 0,
    poke (storeLoop value 0 (n - strlen s)
      (fun i => peek (s.bytes ++ 0 :: tail) (strlen s + i + 1)))
      (n - strlen s) 0, ?_, ?_, ?_⟩
  · rw [parsePutRequest, hlen, hsub, memchrNul_append_zero s tail hs]
  · refine cstr_eq ?_ ?_
    · intro i hi
      rw [peek_poke, if_neg (Nat.ne_of_lt hi), peek_storeLoop,
        if_pos ⟨Nat.zero_le _, hi⟩, peek_append, if_pos hi]
    · rw [peek_poke, if_pos rfl]
  · refine cstr_eq_cstr ?_ ?_
    · intro i hi
      rw [length_readBytes] at hi
      rw [peek_poke, if_neg (Nat.ne_of_lt hi), peek_storeLoop,
        if_pos ⟨Nat.zero_le _, hi⟩, hpeek, peek_readBytes _ hi]
    · rw [length_readBytes, peek_poke, if_pos rfl]

/-- The string of `v` followed by one more byte is `v` only when that byte is
the terminator. -/
theorem cstr_append_byte_eq_iff (v : CString) (b : UInt8) :
    cstr (v.bytes ++ [b]) = v ↔ b = 0 := by
  constructor
  · intro h
    by_contra hb
    have hnul : (0 : UInt8) ∉ v.bytes ++ [b] := by
      intro hmem
      rcases List.mem_append.mp hmem with hmem | hmem
      · exact v.noNul hmem
      · exact hb (List.mem_singleton.mp hmem).symm
    have hlong := congrArg CString.bytes
      ((cstr_bytes ⟨v.bytes ++ [b], hnul⟩).symm.trans h)
    have := congrArg List.length hlong
    simp at this
  · rintro rfl
    exact cstr_append_zero v []

/-- What the decoder stores for the datagram of one put: the key, and the value
followed by the byte that the receive buffer holds behind the datagram. -/
theorem parsePutRequest_put (k v : CString)
    (hk : strlen k ≤ maxMsgElemSize) (hv : strlen v ≤ maxMsgElemSize)
    (rest key value : List UInt8) :
    ∃ key' value', parsePutRequest (putDatagram k v ++ rest)
        (strlen k + strlen v + 1) key value = .ok (key', value') ∧
      cstr key' = k ∧ cstr value' = cstr (v.bytes ++ [peek rest 0]) := by
  have hn : strlen k + strlen v + 1 < 2 ^ 64 := by
    unfold maxMsgElemSize at hk hv
    omega
  obtain ⟨key', value', hparse, hkey, hvalue⟩ :=
    parsePutRequest_eq k (v.bytes ++ rest) (by omega) hn key value
  have htail : readBytes (v.bytes ++ rest)
      (strlen k + strlen v + 1 - strlen k) = v.bytes ++ [peek rest 0] := by
    refine readBytes_eq ?_ ?_
    · rw [List.length_append, List.length_singleton, strlen, strlen]
      omega
    · intro i hi
      rw [peek_append, peek_append]
      split
      · rfl
      · have h0 : i - v.bytes.length = 0 := by
          rw [strlen, strlen] at hi
          omega
        rw [h0, peek_cons_zero]
  rw [htail] at hvalue
  rw [putDatagram_eq, List.append_assoc, List.cons_append]
  exact ⟨key', value', hparse, hkey, hvalue⟩

/-- The round trip of a put: the server decodes the pair that the client put
exactly when the receive buffer holds a zero behind the datagram. -/
theorem putRoundTrip_iff (k v : CString)
    (hk : strlen k ≤ maxMsgElemSize) (hv : strlen v ≤ maxMsgElemSize)
    (rest key value : List UInt8) :
    (∃ key' value', parsePutRequest (putDatagram k v ++ rest)
        (strlen k + strlen v + 1) key value = .ok (key', value') ∧
      cstr key' = k ∧ cstr value' = v) ↔ peek rest 0 = 0 := by
  obtain ⟨key', value', hparse, hkey, hvalue⟩ :=
    parsePutRequest_put k v hk hv rest key value
  rw [hparse, ← cstr_append_byte_eq_iff v, ← hvalue]
  constructor
  · rintro ⟨_, _, hok, _, hval⟩
    cases hok
    exact hval
  · intro hval
    exact ⟨key', value', rfl, hkey, hval⟩

theorem strlen_lit_le_max (cs : List Char) (h : cs.length ≤ 16) :
    strlen (lit cs) ≤ maxMsgElemSize := by
  have := strlen_lit_le cs
  unfold maxMsgElemSize
  omega

/-- A zero byte behind the datagram gives the pair back. -/
theorem putRoundTrip_iff_zero :
    ∃ key' value', parsePutRequest
        (putDatagram (lit ['k']) (lit ['v']) ++ [0])
        (strlen (lit ['k']) + strlen (lit ['v']) + 1) [] [] =
          .ok (key', value') ∧
      cstr key' = lit ['k'] ∧ cstr value' = lit ['v'] :=
  (putRoundTrip_iff (lit ['k']) (lit ['v']) (strlen_lit_le_max _ (by decide))
    (strlen_lit_le_max _ (by decide)) [0] [] []).mpr (peek_cons_zero 0 [])

/-- Any other byte there becomes part of the value. -/
theorem putRoundTrip_residual :
    ¬ ∀ (k v : CString), strlen k ≤ maxMsgElemSize →
      strlen v ≤ maxMsgElemSize → ∀ rest key value : List UInt8,
      ∃ key' value', parsePutRequest (putDatagram k v ++ rest)
          (strlen k + strlen v + 1) key value = .ok (key', value') ∧
        cstr key' = k ∧ cstr value' = v := by
  intro h
  obtain ⟨key', value', hparse, _, hvalue⟩ :=
    h (lit ['k']) (lit ['v']) (strlen_lit_le_max _ (by decide))
      (strlen_lit_le_max _ (by decide)) [1] [] []
  have hrun : parsePutRequest (putDatagram (lit ['k']) (lit ['v']) ++ [1])
      (strlen (lit ['k']) + strlen (lit ['v']) + 1) [] [] =
        .ok ([107, 0], [118, 1, 0]) := by decide +kernel
  rw [hrun] at hparse
  cases hparse
  exact absurd hvalue (by decide)

end PpsDht
