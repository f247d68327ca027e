import PpsDht.Server
import PpsDht.HashtableContent

/-!
# The framing of a dump

What the dump branch of the server sends.  A dump shall be a sequence of
datagrams, each the pairs of one run of the table with zero bytes between all
strings, and the first one behind a header with the number of pairs: `Framed`.

The loop keeps two accounts.  While everything fits into one datagram, its
packet is the header and the pairs so far, `built`; this is the invariant
`Fits`.  In every run, `Sized` counts the bytes: a pair that follows another one
is stored behind a zero byte, also when the packet has just been flushed.  A
flush therefore costs one byte that no framing has, and `dumpFramed_iff` says
that exactly the dumps of one datagram are framed.
-/

namespace PpsDht

open CMem

/-! ## Framings -/

/-- One pair on the wire. -/
def pairBytes (kv : KvPair) : List UInt8 := kv.key.bytes ++ 0 :: kv.value.bytes

/-- The size of one pair on the wire. -/
def sizeKv (kv : KvPair) : Nat := strlen kv.key + 1 + strlen kv.value

/-- The pairs of a run, with a zero byte between all strings. -/
def joined : List KvPair → List UInt8
  | [] => []
  | kv :: run => pairBytes kv ++ run.flatMap (fun kv => 0 :: pairBytes kv)

/-- One datagram per run, the first one behind the header. -/
def frames (n : Nat) : List (List KvPair) → List (List UInt8)
  | [] => []
  | run :: runs => (htonl n ++ joined run) :: runs.map joined

/-- The datagrams are a framing of the pairs. -/
def Framed (pairs : List KvPair) (sent : List (List UInt8)) : Prop :=
  ∃ runs : List (List KvPair), runs ≠ [] ∧ runs.flatten = pairs ∧
    sent = frames pairs.length runs ∧
    ∀ datagram ∈ sent, datagram.length ≤ maxMsgSize

/-- The total size of some pairs. -/
def sizeAll (pairs : List KvPair) : Nat := (pairs.map sizeKv).sum

/-- The size of a dump in one datagram. -/
def dumpSize (pairs : List KvPair) : Nat :=
  4 + sizeAll pairs + (pairs.length - 1)

@[simp] theorem length_htonl (n : Nat) : (htonl n).length = 4 := rfl

@[simp] theorem length_pairBytes (kv : KvPair) :
    (pairBytes kv).length = sizeKv kv := by
  rw [pairBytes, sizeKv, List.length_append, List.length_cons, strlen, strlen]
  omega

theorem sizeAll_cons (kv : KvPair) (pairs : List KvPair) :
    sizeAll (kv :: pairs) = sizeKv kv + sizeAll pairs := by
  rw [sizeAll, List.map_cons, List.sum_cons, sizeAll]

theorem sizeAll_append (pairs pairs' : List KvPair) :
    sizeAll (pairs ++ pairs') = sizeAll pairs + sizeAll pairs' := by
  rw [sizeAll, List.map_append, List.sum_append, sizeAll, sizeAll]

/-- A run has one separator less than it has pairs. -/
theorem length_joined {run : List KvPair} (h : run ≠ []) :
    (joined run).length + 1 = sizeAll run + run.length := by
  have htail : ∀ run : List KvPair,
      (run.flatMap (fun kv => 0 :: pairBytes kv)).length =
        sizeAll run + run.length := by
    intro run
    induction run with
    | nil => rfl
    | cons kv run ih =>
      rw [List.flatMap_cons, List.length_append, ih, sizeAll_cons,
        List.length_cons, List.length_cons, length_pairBytes]
      omega
  cases run with
  | nil => exact absurd rfl h
  | cons kv run =>
    rw [joined, List.length_append, htail, length_pairBytes, sizeAll_cons,
      List.length_cons]
    omega

/-- One more pair at the end of a run. -/
theorem joined_concat {run : List KvPair} (h : run ≠ []) (kv : KvPair) :
    joined (run ++ [kv]) = joined run ++ 0 :: pairBytes kv := by
  cases run with
  | nil => exact absurd rfl h
  | cons kv' run =>
    rw [List.cons_append, joined, joined, List.flatMap_append,
      List.flatMap_singleton, List.append_assoc]

/-- The bytes of a framing without empty runs. -/
theorem sum_length_frames (n : Nat) (run : List KvPair)
    (runs : List (List KvPair)) (hrun : run ≠ []) (hruns : ∀ r ∈ runs, r ≠ []) :
    ((frames n (run :: runs)).map List.length).sum + (runs.length + 1) =
      4 + sizeAll (run :: runs).flatten + (run :: runs).flatten.length := by
  have htail : ((runs.map joined).map List.length).sum + runs.length =
      sizeAll runs.flatten + runs.flatten.length := by
    induction runs with
    | nil => rfl
    | cons r runs ih =>
      have hr := length_joined (hruns r (by simp))
      have ih := ih (fun r' hr' => hruns r' (List.mem_cons_of_mem _ hr'))
      rw [List.map_cons, List.map_cons, List.sum_cons, List.flatten_cons,
        sizeAll_append, List.length_append, List.length_cons]
      omega
  have hhead := length_joined hrun
  rw [frames, List.map_cons, List.sum_cons, List.length_append, length_htonl,
    List.flatten_cons, sizeAll_append, List.length_append]
  omega

/-! ## The passes of the loop -/

/-- The content of a table with these pairs. -/
def content (pairs : List KvPair) : KvList where
  size := pairs.length
  list := pairs.map some

/-- The state after one more pair. -/
def DumpState.push (st : DumpState) (n : Nat) (kv : KvPair) : DumpState where
  counter := st.counter + 1
  sizePacket := st.sizePacket +
    if st.counter = 0 then 5 + strlen kv.key + strlen kv.value
    else sizeKv kv + 1
  packet :=
    if st.counter = 0 then firstPair (htonl n) st.packet kv
    else nextPair st.packet st.sizePacket kv
  sent := st.sent

theorem dumpBody_done {pairs : List KvPair} {st : DumpState}
    (h : pairs.length ≤ st.counter) :
    dumpBody (content pairs) st = .done (.ok st) := by
  rw [dumpBody, content, if_neg (by simp only; omega)]

theorem dumpBody_pair {pairs : List KvPair} {st : DumpState}
    (h : st.counter < pairs.length) :
    dumpBody (content pairs) st =
      if st.sizePacket + sizeKv pairs[st.counter] < maxMsgSize
      then .again (st.push pairs.length pairs[st.counter])
      else .again { st.send with sizePacket := 0 } := by
  rw [dumpBody, content, if_pos h]
  simp only [List.getElem?_map, List.getElem?_eq_getElem h, Option.map_some,
    sizeKv, DumpState.push]
  by_cases h0 : st.counter = 0
  · simp only [h0, if_true]
  · simp only [h0, if_false]

/-! ## A dump in one datagram -/

theorem readBytes_storeLoop (m : List UInt8) (n : Nat) (f : Nat → UInt8) :
    readBytes (storeLoop m 0 n f) n = (List.range n).map f := by
  refine readBytes_eq (by simp) ?_
  intro i hi
  rw [peek_storeLoop, if_pos ⟨Nat.zero_le i, hi⟩, peek,
    List.getD_eq_getElem _ _ (by simpa using hi), List.getElem_map,
    List.getElem_range]

/-- The first pair stands behind the header. -/
theorem readBytes_firstPair (header packet : List UInt8) (kv : KvPair)
    (hheader : header.length = 4) (hk : strlen kv.key < 2 ^ 63) :
    readBytes (firstPair header packet kv)
        (5 + strlen kv.key + strlen kv.value) = header ++ pairBytes kv := by
  have hkey : readBytes (storeLoop (storeLoop
      (List.replicate (4 + strlen kv.key) 0) 0 4 (fun i => peek header i)) 4
      (4 + strlen kv.key) (fun i => peek (mem kv.key) (i - 4)))
      (4 + strlen kv.key) = header ++ kv.key.bytes := by
    refine readBytes_eq (by rw [List.length_append, hheader, strlen]) ?_
    intro i hi
    rw [peek_storeLoop, peek_storeLoop, peek_append, hheader]
    by_cases h4 : i < 4
    · rw [if_neg (by omega), if_pos ⟨Nat.zero_le i, h4⟩, if_pos h4]
    · have hlt : i - 4 < kv.key.bytes.length := by
        unfold strlen at hi
        omega
      rw [if_pos ⟨by omega, hi⟩, if_neg h4, mem, peek_append, if_pos hlt]
  have hsize : 5 + strlen kv.key + strlen kv.value =
      4 + strlen kv.key + strlen kv.value + 1 := by omega
  have hrequest := readBytes_formatPutRequest (storeLoop (storeLoop
      (List.replicate (4 + strlen kv.key) 0) 0 4 (fun i => peek header i)) 4
      (4 + strlen kv.key) (fun i => peek (mem kv.key) (i - 4))) (mem kv.value)
      (4 + strlen kv.key : Nat) (-1)
  rw [formatSize_mem, formatSize_natCast _ (by omega), hkey, readBytes_mem]
    at hrequest
  rw [firstPair, readBytes_storeLoop, hsize]
  refine Eq.trans ?_ (hrequest.trans ?_)
  · rfl
  · rw [pairBytes, List.append_assoc]

/-- A further pair stands behind a zero byte. -/
theorem readBytes_nextPair (packet : List UInt8) (sizePacket : Nat)
    (kv : KvPair) (hp : sizePacket < 2 ^ 63) (hkv : sizeKv kv < 2 ^ 63) :
    readBytes (nextPair packet sizePacket kv)
        (sizePacket + (sizeKv kv + 1)) =
      readBytes packet sizePacket ++ 0 :: pairBytes kv := by
  have hsize : strlen kv.key + 1 + strlen kv.value =
      strlen kv.key + strlen kv.value + 1 := by omega
  have hkv' : strlen kv.key + strlen kv.value + 1 < 2 ^ 63 := by
    rw [sizeKv] at hkv
    omega
  have hpair := readBytes_formatPutRequest (mem kv.key) (mem kv.value) (-1) (-1)
  rw [formatSize_mem, formatSize_mem, readBytes_mem, readBytes_mem] at hpair
  have hpacket := readBytes_formatPutRequest packet
    (formatPutRequest (mem kv.key) (mem kv.value) (-1) (-1)) sizePacket
    (strlen kv.key + 1 + strlen kv.value : Nat)
  rw [hsize, formatSize_natCast _ (by omega), formatSize_natCast _ (by omega),
    hpair] at hpacket
  rw [nextPair, sizeKv, hsize, ← Nat.add_assoc]
  exact hpacket

/-- The packet after `c` pairs, when nothing has been flushed. -/
def built (pairs : List KvPair) (c : Nat) : List UInt8 :=
  if c = 0 then [] else htonl pairs.length ++ joined (pairs.take c)

theorem length_built {pairs : List KvPair} {c : Nat} (hc : 0 < c)
    (hle : c ≤ pairs.length) :
    (built pairs c).length = 4 + sizeAll (pairs.take c) + (c - 1) := by
  have hne : pairs.take c ≠ [] := by
    intro h
    have hlen := congrArg List.length h
    rw [List.length_take, List.length_nil] at hlen
    omega
  have hjoined := length_joined hne
  rw [List.length_take] at hjoined
  rw [built, if_neg (by omega), List.length_append, length_htonl]
  omega

/-- One more pair in the packet. -/
theorem built_succ {pairs : List KvPair} {c : Nat} (hc : c < pairs.length) :
    built pairs (c + 1) =
      if c = 0 then htonl pairs.length ++ pairBytes pairs[c]
      else built pairs c ++ 0 :: pairBytes pairs[c] := by
  rw [built, if_neg (Nat.succ_ne_zero c), List.take_succ_eq_append_getElem hc]
  by_cases h0 : c = 0
  · subst h0
    rw [if_pos rfl, List.take_zero, List.nil_append, joined, List.flatMap_nil,
      List.append_nil]
  · have hne : pairs.take c ≠ [] := by
      intro h
      have hlen := congrArg List.length h
      rw [List.length_take, List.length_nil] at hlen
      omega
    rw [if_neg h0, built, if_neg h0, joined_concat hne, List.append_assoc]

/-- The packet never outgrows the whole dump. -/
theorem length_built_le {pairs : List KvPair} {c : Nat}
    (hle : c ≤ pairs.length) : (built pairs c).length ≤ dumpSize pairs := by
  by_cases hc : c = 0
  · rw [built, if_pos hc]
    exact Nat.zero_le _
  · have hsum := sizeAll_append (pairs.take c) (pairs.drop c)
    rw [List.take_append_drop] at hsum
    rw [length_built (by omega) hle, dumpSize]
    omega

/-- Nothing has been flushed, and the packet is `built`. -/
structure Fits (pairs : List KvPair) (st : DumpState) : Prop where
  counter : st.counter ≤ pairs.length
  sent : st.sent = []
  packet : readBytes st.packet st.sizePacket = built pairs st.counter

theorem Fits.push {pairs : List KvPair} {st : DumpState} (h : Fits pairs st)
    (hsize : dumpSize pairs ≤ maxMsgSize) (hlt : st.counter < pairs.length) :
    st.sizePacket + sizeKv pairs[st.counter] < maxMsgSize ∧
      Fits pairs (st.push pairs.length pairs[st.counter]) := by
  have hmax : maxMsgSize < 2 ^ 63 := by decide
  have hpacket : st.sizePacket = (built pairs st.counter).length := by
    rw [← h.packet, length_readBytes]
  have hnext := length_built_le (show st.counter + 1 ≤ pairs.length from hlt)
  have hsucc := built_succ hlt
  by_cases h0 : st.counter = 0
  · have hempty : st.sizePacket = 0 := by
      rw [hpacket, built, if_pos h0]
      rfl
    rw [if_pos h0] at hsucc
    rw [hsucc, List.length_append, length_htonl, length_pairBytes] at hnext
    have hbytes := readBytes_firstPair (htonl pairs.length) st.packet
      pairs[st.counter] rfl (by rw [sizeKv] at hnext; omega)
    refine ⟨by omega, hlt, h.sent, ?_⟩
    rw [DumpState.push]
    simp only [h0, if_true] at hbytes hsucc ⊢
    rw [hempty, Nat.zero_add, hbytes, ← hsucc]
  · rw [if_neg h0] at hsucc
    rw [hsucc, List.length_append, List.length_cons, length_pairBytes] at hnext
    have hbytes := readBytes_nextPair st.packet st.sizePacket
      pairs[st.counter] (by omega) (by omega)
    refine ⟨by omega, hlt, h.sent, ?_⟩
    rw [DumpState.push]
    simp only [h0, if_false] at hbytes hsucc ⊢
    rw [hbytes, h.packet, ← hsucc]

/-- A dump that fits into one datagram is sent as one datagram. -/
theorem dumpLoop_fits {pairs : List KvPair} (hne : pairs ≠ [])
    (hsize : dumpSize pairs ≤ maxMsgSize) {fuel : Nat}
    (hfuel : pairs.length < fuel) :
    dumpLoop fuel (content pairs) =
      some (.ok [htonl pairs.length ++ joined pairs]) := by
  have hstart : Fits pairs dumpStart :=
    ⟨Nat.zero_le _, rfl, rfl⟩
  have hstep : ∀ st, Fits pairs st →
      (∃ st', dumpBody (content pairs) st = .again st' ∧ Fits pairs st' ∧
        pairs.length - st'.counter < pairs.length - st.counter) ∨
      ∃ r, dumpBody (content pairs) st = .done r ∧
        ∃ st', r = .ok st' ∧ Fits pairs st' ∧
          st'.counter = pairs.length := by
    intro st h
    by_cases hlt : st.counter < pairs.length
    · obtain ⟨hfit, hpush⟩ := h.push hsize hlt
      refine Or.inl ⟨_, ?_, hpush, ?_⟩
      · rw [dumpBody_pair hlt, if_pos hfit]
      · show pairs.length - (st.counter + 1) < pairs.length - st.counter
        omega
    · have hcounter := h.counter
      exact Or.inr ⟨_, dumpBody_done (by omega), st, rfl, h, by omega⟩
  obtain ⟨r, hrun, st, rfl, hfits, hcounter⟩ :=
    Loop.run_total (fun st : DumpState => pairs.length - st.counter) hstep
      hstart (show pairs.length - 0 < fuel by omega)
  have hlen : pairs.length ≠ 0 := by
    intro h
    exact hne (List.length_eq_zero_iff.mp h)
  rw [dumpLoop, hrun, Option.map_some]
  show some (Except.ok (st.sent ++ [readBytes st.packet st.sizePacket])) = _
  rw [hfits.sent, hfits.packet, hcounter, built, if_neg hlen, List.take_length,
    List.nil_append]

/-! ## A dump in several datagrams -/

/-- The bytes sent and in the packet, when no pair is too large for a
datagram. -/
structure Sized (pairs : List KvPair) (st : DumpState) : Prop where
  counter : st.counter ≤ pairs.length
  empty : st.counter = 0 → st.sent = [] ∧ st.sizePacket = 0
  total : 0 < st.counter → (st.sent.map List.length).sum + st.sizePacket =
    4 + sizeAll (pairs.take st.counter) + (st.counter - 1)
  nonempty : ∀ datagram ∈ st.sent, 1 ≤ datagram.length
  first : ∀ datagram rest, st.sent = datagram :: rest → 5 ≤ datagram.length
  packet : 0 < st.counter → st.sent = [] → 5 ≤ st.sizePacket
  pending : st.counter = pairs.length → st.counter ≠ 0 → 1 ≤ st.sizePacket

theorem sizeKv_pos (kv : KvPair) : 1 ≤ sizeKv kv := by
  rw [sizeKv]
  omega

theorem Sized.push {pairs : List KvPair} {st : DumpState} (h : Sized pairs st)
    (hlt : st.counter < pairs.length) :
    Sized pairs (st.push pairs.length pairs[st.counter]) := by
  have hpos := sizeKv_pos pairs[st.counter]
  have hsize : 5 + strlen pairs[st.counter].key +
      strlen pairs[st.counter].value = 4 + sizeKv pairs[st.counter] := by
    rw [sizeKv]
    omega
  have hsucc : sizeAll (pairs.take (st.counter + 1)) =
      sizeAll (pairs.take st.counter) + sizeKv pairs[st.counter] := by
    rw [List.take_succ_eq_append_getElem hlt, sizeAll_append, sizeAll_cons]
    rfl
  have hpacket : (st.push pairs.length pairs[st.counter]).sizePacket =
      st.sizePacket + if st.counter = 0 then 4 + sizeKv pairs[st.counter]
        else sizeKv pairs[st.counter] + 1 := by
    rw [← hsize]
    rfl
  have hcounter : (st.push pairs.length pairs[st.counter]).counter =
      st.counter + 1 := rfl
  have hsent : (st.push pairs.length pairs[st.counter]).sent = st.sent := rfl
  by_cases h0 : st.counter = 0
  · obtain ⟨hnil, hempty⟩ := h.empty h0
    rw [if_pos h0] at hpacket
    constructor
    · omega
    · intro hzero
      omega
    · intro _
      have hnone : sizeAll (pairs.take st.counter) = 0 := by
        rw [h0]
        rfl
      rw [hsent, hpacket, hcounter, hsucc, hnil, hempty, hnone, List.map_nil,
        List.sum_nil]
      omega
    · rw [hsent]
      exact h.nonempty
    · rw [hsent]
      exact h.first
    · omega
    · omega
  · have htotal := h.total (by omega)
    rw [if_neg h0] at hpacket
    constructor
    · omega
    · intro hzero
      omega
    · intro _
      rw [hsent, hpacket, hcounter, hsucc]
      omega
    · rw [hsent]
      exact h.nonempty
    · rw [hsent]
      exact h.first
    · intro _ hnil
      have hfirst := h.packet (by omega) (hsent ▸ hnil)
      omega
    · omega

/-- A flush moves the packet to the datagrams sent. -/
theorem Sized.flush {pairs : List KvPair} {st : DumpState} (h : Sized pairs st)
    (hlt : st.counter < pairs.length) (hpos : 0 < st.sizePacket) :
    Sized pairs { st.send with sizePacket := 0 } := by
  have hcounter : 0 < st.counter := by
    by_contra h0
    have hempty := (h.empty (by omega)).2
    omega
  have hlen := length_readBytes st.packet st.sizePacket
  constructor
  · exact h.counter
  · intro h0
    exact absurd h0 (by simp only [DumpState.send]; omega)
  · intro _
    have htotal := h.total hcounter
    simp only [DumpState.send, List.map_append, List.map_singleton,
      List.sum_append, List.sum_singleton, hlen]
    omega
  · intro datagram hmem
    rcases List.mem_append.mp hmem with hmem | hmem
    · exact h.nonempty datagram hmem
    · rw [List.mem_singleton.mp hmem, hlen]
      omega
  · intro datagram rest hcons
    have hsent : st.sent ++ [readBytes st.packet st.sizePacket] =
        datagram :: rest := hcons
    cases hs : st.sent with
    | nil =>
      rw [hs] at hsent
      rw [← (List.cons.inj hsent).1, hlen]
      exact h.packet hcounter hs
    | cons datagram' rest' =>
      rw [hs, List.cons_append] at hsent
      rw [← (List.cons.inj hsent).1]
      exact h.first datagram' rest' hs
  · intro _ hnil
    exact absurd hnil (by simp [DumpState.send])
  · intro hend
    exact absurd hend (by simp only [DumpState.send]; omega)

/-- When every pair fits into a datagram the loop ends, and its bytes are
accounted for. -/
theorem dumpLoop_sized {pairs : List KvPair}
    (hfit : ∀ kv ∈ pairs, sizeKv kv < maxMsgSize) :
    ∃ st, dumpLoop (2 * pairs.length + 2) (content pairs) =
        some (.ok (st.sent ++ [readBytes st.packet st.sizePacket])) ∧
      Sized pairs st ∧ st.counter = pairs.length := by
  have hstart : Sized pairs dumpStart := by
    constructor
    · exact Nat.zero_le _
    · exact fun _ => ⟨rfl, rfl⟩
    · exact fun h => absurd h (Nat.lt_irrefl 0)
    · exact fun _ h => absurd h List.not_mem_nil
    · exact fun _ _ h => nomatch h
    · exact fun h => absurd h (Nat.lt_irrefl 0)
    · exact fun _ h => absurd rfl h
  have hstep : ∀ st, Sized pairs st →
      (∃ st', dumpBody (content pairs) st = .again st' ∧ Sized pairs st' ∧
        2 * (pairs.length - st'.counter) + min st'.sizePacket 1 <
          2 * (pairs.length - st.counter) + min st.sizePacket 1) ∨
      ∃ r, dumpBody (content pairs) st = .done r ∧
        ∃ st', r = .ok st' ∧ Sized pairs st' ∧
          st'.counter = pairs.length := by
    intro st h
    by_cases hlt : st.counter < pairs.length
    · rw [dumpBody_pair hlt]
      by_cases hroom :
          st.sizePacket + sizeKv pairs[st.counter] < maxMsgSize
      · refine Or.inl ⟨_, if_pos hroom, h.push hlt, ?_⟩
        have hcounter : (st.push pairs.length pairs[st.counter]).counter =
            st.counter + 1 := rfl
        omega
      · have hpair := hfit pairs[st.counter] (List.getElem_mem hlt)
        have hpos : 0 < st.sizePacket := by omega
        refine Or.inl ⟨_, if_neg hroom, h.flush hlt hpos, ?_⟩
        simp only [DumpState.send]
        omega
    · have hcounter := h.counter
      exact Or.inr ⟨_, dumpBody_done (by omega), st, rfl, h, by omega⟩
  obtain ⟨r, hrun, st, rfl, hsized, hcounter⟩ := Loop.run_total
    (fun st : DumpState =>
      2 * (pairs.length - st.counter) + min st.sizePacket 1) hstep hstart
    (show 2 * (pairs.length - 0) + min 0 1 < 2 * pairs.length + 2 by omega)
  exact ⟨st, by rw [dumpLoop, hrun]; rfl, hsized, hcounter⟩

/-- A pair that fits into no datagram: the loop sends empty datagrams for
ever. -/
theorem dumpLoop_diverges {pairs : List KvPair} {kv : KvPair}
    (hmem : kv ∈ pairs) (hlarge : maxMsgSize ≤ sizeKv kv) (fuel : Nat) :
    dumpLoop fuel (content pairs) = none := by
  obtain ⟨i, hi, hkv⟩ := List.mem_iff_getElem.mp hmem
  have hstep : ∀ st : DumpState, st.counter ≤ i →
      ∃ st', dumpBody (content pairs) st = .again st' ∧ st'.counter ≤ i := by
    intro st hle
    have hlt : st.counter < pairs.length := by omega
    rw [dumpBody_pair hlt]
    by_cases hroom : st.sizePacket + sizeKv pairs[st.counter] < maxMsgSize
    · refine ⟨_, if_pos hroom, ?_⟩
      have hne : st.counter ≠ i := by
        intro heq
        simp only [heq, hkv] at hroom
        omega
      show st.counter + 1 ≤ i
      omega
    · exact ⟨_, if_neg hroom, hle⟩
  rw [dumpLoop, Loop.run_diverges (fun st : DumpState => st.counter ≤ i) hstep
    fuel (Nat.zero_le i)]
  rfl

/-- A dump of more than one datagram has one separator too many, and a dump of
one datagram can be too long. -/
theorem not_framed_of_sized {pairs : List KvPair} {st : DumpState}
    (hne : pairs ≠ []) (h : Sized pairs st) (hend : st.counter = pairs.length)
    (hsize : maxMsgSize < dumpSize pairs) :
    ¬ Framed pairs (st.sent ++ [readBytes st.packet st.sizePacket]) := by
  have hlen : 0 < pairs.length := List.length_pos_iff.mpr hne
  have htotal := h.total (by omega)
  rw [hend, List.take_length] at htotal
  have hpacket := length_readBytes st.packet st.sizePacket
  have hlast := h.pending hend (by omega)
  intro hframed
  obtain ⟨runs, hruns, hflat, hsent, hmax⟩ := hframed
  have hpos : ∀ datagram ∈
      st.sent ++ [readBytes st.packet st.sizePacket], 1 ≤ datagram.length := by
    intro datagram hmem
    rcases List.mem_append.mp hmem with hmem | hmem
    · exact h.nonempty datagram hmem
    · rw [List.mem_singleton.mp hmem, hpacket]
      exact hlast
  cases runs with
  | nil => exact hruns rfl
  | cons run runs =>
    -- No datagram is empty and the first one is longer than its header, so no
    -- run is empty.
    have hrest : ∀ r ∈ runs, r ≠ [] := by
      intro r hr hnil
      have hjoined := hpos (joined r) (by
        rw [hsent, frames]
        exact List.mem_cons_of_mem _ (List.mem_map_of_mem hr))
      rw [hnil, joined, List.length_nil] at hjoined
      omega
    have hhead : run ≠ [] := by
      intro hnil
      have hfirst : 5 ≤ (htonl pairs.length ++ joined run).length := by
        cases hs : st.sent with
        | nil =>
          rw [hs, frames] at hsent
          rw [← (List.cons.inj hsent).1, hpacket]
          exact h.packet (by omega) hs
        | cons datagram rest =>
          rw [hs, frames] at hsent
          rw [← (List.cons.inj hsent).1]
          exact h.first datagram rest hs
      rw [hnil, joined, List.append_nil, length_htonl] at hfirst
      omega
    have hsum := sum_length_frames pairs.length run runs hhead hrest
    rw [hflat, ← hsent, List.map_append, List.sum_append, List.map_singleton,
      List.sum_singleton, hpacket] at hsum
    rw [dumpSize] at hsize
    have hone : runs = [] := by
      refine List.length_eq_zero_iff.mp ?_
      omega
    have hle := hmax (htonl pairs.length ++ joined run) (by
      rw [hsent, frames]
      exact List.mem_cons_self)
    rw [hone] at hflat
    rw [List.flatten_cons, List.flatten_nil, List.append_nil] at hflat
    have hjoined := length_joined hhead
    rw [List.length_append, length_htonl] at hle
    rw [hflat] at hjoined hle
    omega

/-- An empty datagram has no header. -/
theorem not_framed_empty (pairs : List KvPair) : ¬ Framed pairs [[]] := by
  intro h
  obtain ⟨runs, hruns, _, hframes, _⟩ := h
  cases runs with
  | nil => exact hruns rfl
  | cons run runs =>
    have hhead := congrArg List.length (List.cons.inj hframes).1
    rw [List.length_append, length_htonl, List.length_nil] at hhead
    omega

/-! ## When a dump is framed -/

/-- Whenever the dump loop ends, its datagrams are a framing of the content of
the table. -/
def DumpFramed (table : Htable) : Prop :=
  ∀ fuel r, dumpLoop fuel (getHtableContent table) = some r →
    ∃ sent, r = .ok sent ∧ Framed (contentPairs table) sent

theorem dumpLoop_unique {nodeDump : KvList} {fuel fuel' : Nat}
    {r r' : Except Fault (List (List UInt8))}
    (h : dumpLoop fuel nodeDump = some r)
    (h' : dumpLoop fuel' nodeDump = some r') : r = r' := by
  rw [dumpLoop, Option.map_eq_some_iff] at h h'
  obtain ⟨s, hs, rfl⟩ := h
  obtain ⟨s', hs', rfl⟩ := h'
  rw [Loop.run_unique hs hs']

/-- A dump is framed exactly when the table is not empty and everything fits
into one datagram, or when the loop does not end. -/
theorem dumpFramed_iff (table : Htable) :
    DumpFramed table ↔ contentPairs table ≠ [] ∧
      (dumpSize (contentPairs table) ≤ maxMsgSize ∨
        ∃ kv ∈ contentPairs table, maxMsgSize ≤ sizeKv kv) := by
  have hcontent : getHtableContent table = content (contentPairs table) :=
    getHtableContent_eq table
  rw [DumpFramed, hcontent]
  generalize contentPairs table = pairs
  constructor
  · intro h
    have hne : pairs ≠ [] := by
      intro hnil
      subst hnil
      obtain ⟨sent, hsent, hframed⟩ := h 1 (.ok [[]]) rfl
      cases hsent
      exact not_framed_empty [] hframed
    refine ⟨hne, ?_⟩
    by_contra hbad
    rw [not_or] at hbad
    obtain ⟨hsize, hlarge⟩ := hbad
    have hfit : ∀ kv ∈ pairs, sizeKv kv < maxMsgSize := by
      intro kv hkv
      by_contra hge
      exact hlarge ⟨kv, hkv, by omega⟩
    obtain ⟨st, hrun, hsized, hend⟩ := dumpLoop_sized hfit
    obtain ⟨sent, hsent, hframed⟩ := h _ _ hrun
    cases hsent
    exact not_framed_of_sized hne hsized hend (by omega) hframed
  · intro h fuel r hrun
    obtain ⟨hne, hsize | ⟨kv, hkv, hlarge⟩⟩ := h
    · have hfits := dumpLoop_fits hne hsize (Nat.lt_succ_self pairs.length)
      refine ⟨_, dumpLoop_unique hrun hfits, [pairs], by simp, by simp, ?_, ?_⟩
      · rw [frames, List.map_nil]
      · intro datagram hmem
        have hlen := length_joined hne
        rw [dumpSize] at hsize
        rw [List.mem_singleton.mp hmem, List.length_append, length_htonl]
        omega
    · rw [dumpLoop_diverges hkv hlarge fuel] at hrun
      cases hrun

/-- The dump of an empty table is one empty datagram, without a header. -/
theorem dumpFramed_empty : ¬ ∀ table : Htable, DumpFramed table := by
  intro h
  obtain ⟨sent, hsent, hframed⟩ :=
    h (constructHtable 1 (by decide)) 1 (.ok [[]]) (by decide +kernel)
  cases hsent
  exact not_framed_empty _ hframed

end PpsDht
