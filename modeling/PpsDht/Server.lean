import PpsDht.HashtableMap
import PpsDht.NetworkUtils
import PpsDht.Lib.CStdlib

/-!
# The server

`pps-launch-server.c`.  `serverStep` is one pass of the main loop: what it does
with one datagram, and what it sends back.  A pass finds foreign bytes in two
places, `ServerMem`: behind the datagram in the receive buffer, and behind the
stored value that it sends.

Assumption, the spare byte: `parse_put_request` stores a zero byte behind the
block of `value` in every put (`putInBounds_never`), and here that byte belongs
to nothing, so the store changes nothing that a later pass reads.

`dumpLoop` is the loop of the dump branch.  It can go on forever, so it has
fuel.  The last part of this file says what a pass does with the datagram of a
put and with that of a get.
-/

namespace PpsDht

open CMem

/-- What one pass of the server takes from outside. -/
structure ServerMem where
  rest : List UInt8
  past : List UInt8
  mallocOk : Bool

/-! ## The dump branch -/

/-- `htonl((uint32_t) n)`, byte by byte. -/
def htonl (n : Nat) : List UInt8 :=
  [UInt8.ofNat (n / 2 ^ 24), UInt8.ofNat (n / 2 ^ 16), UInt8.ofNat (n / 2 ^ 8),
    UInt8.ofNat n]

/-- The state of the dump loop.  `sent` are the datagrams given to `sendto`. -/
structure DumpState where
  counter : Nat
  sizePacket : Nat
  packet : List UInt8
  sent : List (List UInt8)

/-- `sendto(s, packet, size_packet, ...)`. -/
def DumpState.send (st : DumpState) : DumpState :=
  { st with sent := st.sent ++ [readBytes st.packet st.sizePacket] }

/-- The packet with its first pair, behind the header. -/
def firstPair (header packet : List UInt8) (kv : KvPair) : List UInt8 :=
  let keyNew := List.replicate (4 + strlen kv.key) 0
  let keyNew := storeLoop keyNew 0 4 (fun i => peek header i)
  let keyNew := storeLoop keyNew 4 (4 + strlen kv.key)
    (fun i => peek (mem kv.key) (i - 4))
  let kvRequest := formatPutRequest keyNew (mem kv.value)
    (4 + strlen kv.key : Nat) (-1)
  storeLoop packet 0 (5 + strlen kv.key + strlen kv.value)
    (fun i => peek kvRequest i)

/-- The packet with one more pair. -/
def nextPair (packet : List UInt8) (sizePacket : Nat) (kv : KvPair) :
    List UInt8 :=
  let kvRequest := formatPutRequest (mem kv.key) (mem kv.value) (-1) (-1)
  formatPutRequest packet kvRequest sizePacket
    (strlen kv.key + 1 + strlen kv.value : Nat)

/-- One pass of `while (counter < node_dump->size)`. -/
def dumpBody (nodeDump : KvList) (st : DumpState) :
    Loop.Step DumpState (Except Fault DumpState) :=
  if st.counter < nodeDump.size then
    match nodeDump.list[st.counter]? with
    | none => .done (.error .outOfBounds)
    | some none => .done (.error .nullDeref)
    | some (some kv) =>
      let sizeKv := strlen kv.key + 1 + strlen kv.value
      if st.sizePacket + sizeKv < maxMsgSize then
        if st.counter = 0 then
          .again { st with
            packet := firstPair (htonl nodeDump.size) st.packet kv
            sizePacket :=
              st.sizePacket + (5 + strlen kv.key + strlen kv.value)
            counter := st.counter + 1 }
        else
          .again { st with
            packet := nextPair st.packet st.sizePacket kv
            counter := st.counter + 1
            sizePacket := st.sizePacket + (sizeKv + 1) }
      else .again { st.send with sizePacket := 0 }
  else .done (.ok st)

/-- The state before the loop: an empty packet of `MAX_MSG_SIZE` bytes. -/
def dumpStart : DumpState where
  counter := 0
  sizePacket := 0
  packet := List.replicate maxMsgSize 0
  sent := []

/-- The dump branch: the datagrams it sends, or `none` when its loop makes
more than `fuel` passes. -/
def dumpLoop (fuel : Nat) (nodeDump : KvList) :
    Option (Except Fault (List (List UInt8))) :=
  (Loop.run (dumpBody nodeDump) fuel dumpStart).map
    (fun r => r.map (fun st => st.send.sent))

/-! ## The other branches -/

/-- The put branch: the table afterwards, and the acknowledgement when the
value is stored.  The last store of `parse_put_request` hits the spare byte. -/
def putBranch (m : ServerMem) (table : Htable) (inMsg : List UInt8)
    (inMsgLen : Nat) : Except Fault (Htable × List (List UInt8)) :=
  match parsePutRequest inMsg inMsgLen [] [] with
  | .error fault => .error fault
  | .ok (key, value) =>
    let (err, table) :=
      addHtableValue m.mallocOk table (cstr key) (some (cstr value))
    .ok (table, if err = .ERR_NONE then [[]] else [])

/-- The get branch: `MAX_MSG_ELEM_SIZE` bytes from the stored value on, or one
zero byte. -/
def getBranch (m : ServerMem) (table : Htable) (inMsg : List UInt8) :
    List (List UInt8) :=
  match getHtableValue table (some (cstr inMsg)) with
  | some get => [readBytes (mem get ++ m.past) maxMsgElemSize]
  | none => [[0]]

/-- One pass of the main loop: the table, and the datagrams sent to the
client. -/
def serverStep (fuel : Nat) (m : ServerMem) (table : Htable)
    (datagram : List UInt8) : Except Fault (Htable × List (List UInt8)) :=
  let received := datagram.take maxMsgSize
  let inMsg := received ++ m.rest
  let inMsgLen := received.length
  if inMsgLen = 0 then .ok (table, [[]])
  else if (memchrNul inMsg inMsgLen).isSome then
    if inMsgLen = 1 then
      match dumpLoop fuel (getHtableContent table) with
      | none => .error .outOfFuel
      | some (.error fault) => .error fault
      | some (.ok sent) => .ok (table, sent)
    else putBranch m table inMsg inMsgLen
  else .ok (table, getBranch m table inMsg)

/-! ## Any datagram -/

/-- A ping is answered by an empty datagram. -/
theorem serverStep_ping (fuel : Nat) (m : ServerMem) (table : Htable) :
    serverStep fuel m table [] = .ok (table, [[]]) := rfl

/-- What the put branch stores as the value of a datagram: the bytes behind
its first zero byte up to the next one.  If there is none, the byte behind the
datagram in the receive buffer belongs to it, too. -/
def putValue (m : ServerMem) (datagram : List UInt8) : CString :=
  cstr (afterNul datagram ++ [peek m.rest 0])

theorem readBytes_append_succ (l rest : List UInt8) :
    readBytes (l ++ rest) (l.length + 1) = l ++ [peek rest 0] := by
  refine readBytes_eq (by rw [List.length_append, List.length_singleton]) ?_
  intro i hi
  rw [peek_append, peek_append]
  split
  · rfl
  · have h0 : i - l.length = 0 := by omega
    rw [h0, peek_cons_zero]

/-- The put branch. -/
theorem serverStep_ofNul (fuel : Nat) (m : ServerMem) (table : Htable)
    {datagram : List UInt8} (hnul : (0 : UInt8) ∈ datagram)
    (htwo : 2 ≤ datagram.length) (hmax : datagram.length ≤ maxMsgSize) :
    serverStep fuel m table datagram =
      let (err, table) := addHtableValue m.mallocOk table (cstr datagram)
        (some (putValue m datagram))
      .ok (table, if err = .ERR_NONE then [[]] else []) := by
  have hsplit := eq_append_afterNul hnul
  have hlen := length_eq_of_nul hnul
  have hsize : datagram.length < 2 ^ 64 := by
    unfold maxMsgSize maxMsgElemSize at hmax
    omega
  have hbuf : datagram ++ m.rest = (cstr datagram).bytes ++
      0 :: (afterNul datagram ++ m.rest) := by
    rw [← List.cons_append, ← List.append_assoc, ← hsplit]
  obtain ⟨key', value', hparse, hkey, hvalue⟩ :=
    parsePutRequest_eq (cstr datagram) (afterNul datagram ++ m.rest)
      (show strlen (cstr datagram) < datagram.length by omega) hsize [] []
  have hbytes : datagram.length - strlen (cstr datagram) =
      (afterNul datagram).length + 1 := by omega
  rw [hbytes, readBytes_append_succ] at hvalue
  rw [← hbuf] at hparse
  rw [serverStep]
  simp only [List.take_of_length_le hmax]
  rw [if_neg (by omega), if_pos ((isSome_memchrNul datagram m.rest).mpr hnul),
    if_neg (by omega), putBranch, hparse]
  simp only [hkey, hvalue, putValue]
  rfl

/-- The get branch. -/
theorem serverStep_noNul (fuel : Nat) (m : ServerMem) (table : Htable)
    {datagram : List UInt8} (hnul : (0 : UInt8) ∉ datagram)
    (hne : datagram ≠ []) (hmax : datagram.length ≤ maxMsgSize) :
    serverStep fuel m table datagram =
      .ok (table, getBranch m table (datagram ++ m.rest)) := by
  have hpos : 0 < datagram.length := List.length_pos_iff.mpr hne
  rw [serverStep]
  simp only [List.take_of_length_le hmax]
  rw [if_neg (by omega), if_neg (mt (isSome_memchrNul datagram m.rest).mp hnul)]

/-! ## Puts and gets -/

/-- The datagram of a put that is not a lone zero byte, with a zero behind it in
the receive buffer: the put branch gets the pair of the client. -/
theorem serverStep_putDatagram (fuel : Nat) {m : ServerMem} (table : Htable)
    {k v : CString} (hk : strlen k ≤ maxMsgElemSize)
    (hv : strlen v ≤ maxMsgElemSize) (hne : k.bytes ≠ [] ∨ v.bytes ≠ [])
    (hrest : peek m.rest 0 = 0) :
    serverStep fuel m table (putDatagram k v) =
      let (err, table) := addHtableValue m.mallocOk table k (some v)
      .ok (table, if err = .ERR_NONE then [[]] else []) := by
  have hlen : (putDatagram k v).length = strlen k + strlen v + 1 :=
    length_putDatagram k v
  have hsplit : putDatagram k v = k.bytes ++ 0 :: v.bytes := putDatagram_eq k v
  have hkey : cstr (putDatagram k v) = k := by
    rw [hsplit, cstr_append_zero]
  have hvalue : putValue m (putDatagram k v) = v := by
    rw [putValue, hsplit, afterNul_append_zero, hrest, cstr_append_zero]
  rw [serverStep_ofNul fuel m table (nul_mem_putDatagram k v)
    (two_le_length_putDatagram.mpr hne) (by rw [hlen, maxMsgSize]; omega), hkey,
    hvalue]

/-- Such a put is stored and acknowledged when its key is not empty. -/
theorem serverStep_put (fuel : Nat) {m : ServerMem} (store : Store)
    {k v : CString} (hk : strlen k ≤ maxMsgElemSize)
    (hv : strlen v ≤ maxMsgElemSize) (hne : k.bytes ≠ [])
    (hok : m.mallocOk = true) (hrest : peek m.rest 0 = 0) :
    serverStep fuel m store.table (putDatagram k v) =
      .ok ((store.add k v).table, [[]]) := by
  rw [serverStep_putDatagram fuel store.table hk hv (Or.inl hne) hrest, hok]
  simp only
  rw [if_pos (addHtableValue_err store.inv k v)]
  rfl

/-- A get that is not empty, with a zero behind it in the receive buffer: the
table stays, and the value of the key is sent. -/
theorem serverStep_get (fuel : Nat) {m : ServerMem} (store : Store)
    {k : CString} (hk : strlen k ≤ maxMsgElemSize) (hne : k.bytes ≠ [])
    (hrest : peek m.rest 0 = 0) :
    serverStep fuel m store.table k.bytes =
      .ok (store.table, [match store.get k with
        | some v => readBytes (mem v ++ m.past) maxMsgElemSize
        | none => [0]]) := by
  have hkey : cstr (k.bytes ++ m.rest) = k :=
    (cstr_append_eq_iff k m.rest).mpr hrest
  have hmax : k.bytes.length ≤ maxMsgSize := by
    unfold maxMsgSize
    unfold strlen at hk
    omega
  rw [serverStep_noNul fuel m store.table k.noNul hne hmax, getBranch, hkey,
    Store.get]
  cases getHtableValue store.table (some k) <;> rfl

end PpsDht
