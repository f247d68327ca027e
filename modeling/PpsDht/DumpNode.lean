import PpsDht.DumpFraming

/-!
# The dump client

`pps-dump-node.c` from its first `recv` on.  `parseKvPairs` is a byte automaton
with two fixed buffers, `key` and `value`, which it does not initialise; a
store past a buffer, or past the slots of the list, is a fault.

`parseKvPairs_joined` runs the automaton over one run of pairs: it is an
induction over the pairs, and each pair is read by `feed_pair`.
`dumpRoundTrip` puts encoder and decoder together.
-/

namespace PpsDht

open CMem

/-- `parse_nbr_kv_pair`. -/
def parseNbrKvPair (inMsg : List UInt8) : Nat :=
  (peek inMsg 0).toNat * 2 ^ 24 + (peek inMsg 1).toNat * 2 ^ 16 +
    (peek inMsg 2).toNat * 2 ^ 8 + (peek inMsg 3).toNat

/-- A store into one of the buffers of `MAX_MSG_SIZE` bytes. -/
def storeAt (buffer : List UInt8) (index : Nat) (b : UInt8) :
    Except Fault (List UInt8) :=
  if index < maxMsgSize then .ok (poke buffer index b) else .error .outOfBounds

/-- The local variables of `parse_kv_pairs`, and the slots of `kv_list`. -/
structure ParseKv where
  key : List UInt8
  keyIndex : Nat
  value : List UInt8
  valueIndex : Nat
  listIndex : Nat
  parsingKey : Bool
  list : List (Option KvPair)

/-- `value[value_index] = '\0';` and
`kv_list->list[list_index] = create_kv_pair(key, value);` -/
def storePair (st : ParseKv) : Except Fault ParseKv :=
  match storeAt st.value st.valueIndex 0 with
  | .error fault => .error fault
  | .ok value =>
    if st.listIndex < st.list.length then
      .ok { st with
        value := value
        list := st.list.set st.listIndex
          (some (createKvPair (cstr st.key) (cstr value))) }
    else .error .outOfBounds

/-- One pass of the loop of `parse_kv_pairs`. -/
def parseByte (size : Nat) (st : ParseKv) (iterator : UInt8) :
    Loop.Step ParseKv (Except Fault (Nat × List (Option KvPair))) :=
  if st.parsingKey ∧ iterator ≠ 0 then
    match storeAt st.key st.keyIndex iterator with
    | .error fault => .done (.error fault)
    | .ok key => .again { st with key := key, keyIndex := st.keyIndex + 1 }
  else if st.parsingKey ∧ iterator = 0 then
    match storeAt st.key st.keyIndex 0 with
    | .error fault => .done (.error fault)
    | .ok key => .again { st with parsingKey := false, key := key, keyIndex := 0 }
  else if iterator ≠ 0 then
    match storeAt st.value st.valueIndex iterator with
    | .error fault => .done (.error fault)
    | .ok value =>
      .again { st with value := value, valueIndex := st.valueIndex + 1 }
  else
    match storePair st with
    | .error fault => .done (.error fault)
    | .ok st =>
      let listIndex := st.listIndex + 1
      if listIndex ≥ size then .done (.ok (sizeMax, st.list))
      else
        .again { st with
          listIndex := listIndex, parsingKey := true, valueIndex := 0 }

/-- The last lines of `parse_kv_pairs`. -/
def parseEnd (st : ParseKv) : Except Fault (Nat × List (Option KvPair)) :=
  match storePair st with
  | .error fault => .error fault
  | .ok st => .ok (st.listIndex + 1, st.list)

/-- `parse_kv_pairs`, which finds `key` and `value` on the stack: the returned
number, and the list. -/
def parseKvPairs (key value inMsg : List UInt8) (length : Int)
    (startingIndex : Nat) (kvList : KvList) : Except Fault (Nat × KvList) :=
  (Loop.feed (parseByte kvList.size) parseEnd
    { key := key, keyIndex := 0, value := value, valueIndex := 0,
      listIndex := startingIndex, parsingKey := true, list := kvList.list }
    (readBytes inMsg length.toNat)).map
      (fun r => (r.1, { kvList with list := r.2 }))

/-- What one `recv` gives, `none` on a timeout, and what the next call of
`parse_kv_pairs` finds on the stack. -/
structure Reception where
  datagram : Option (List UInt8)
  key : List UInt8
  value : List UInt8

/-- `recv(s, in_msg, MAX_MSG_SIZE, 0)`: the buffer, and the returned length. -/
def Reception.into (r : Reception) (inMsg : List UInt8) : List UInt8 × Int :=
  match r.datagram with
  | none => (inMsg, -1)
  | some datagram =>
    let stored := datagram.take maxMsgSize
    (stored ++ inMsg.drop stored.length, stored.length)

/-- `print_kv_pair_list`: the slots that are printed.  It goes on behind the
slots when more are announced, and reading there is a fault. -/
def printKvPairList (kvList : KvList) :
    Except Fault (Option (List (Option KvPair))) :=
  if kvList.size ≤ kvList.list.length then
    .ok (some (kvList.list.take kvList.size))
  else .error .outOfBounds

/-- The variables of the loop of `main`. -/
structure DumpNodeState where
  parsed : Nat
  inMsg : List UInt8
  kvList : KvList
  receptions : List Reception

/-- One pass of `while (parsed_kv_pairs < kv_list->size)`, and what follows
it.  Every `recv` after the last reception times out. -/
def dumpNodeBody (st : DumpNodeState) :
    Loop.Step DumpNodeState (Except Fault (Option (List (Option KvPair)))) :=
  if st.parsed < st.kvList.size then
    let r := st.receptions.headD { datagram := none, key := [], value := [] }
    let (inMsg, inMsgLen) := r.into st.inMsg
    match parseKvPairs r.key r.value inMsg inMsgLen st.parsed st.kvList with
    | .error fault => .done (.error fault)
    | .ok (more, kvList) =>
      if more = sizeMax then .done (.ok none)
      else
        let parsed := (st.parsed + more) % 2 ^ 64
        if inMsgLen = -1 ∧ parsed ≠ kvList.size then .done (.ok none)
        else
          .again { parsed := parsed, inMsg := inMsg, kvList := kvList,
                   receptions := st.receptions.tail }
  else if st.parsed ≠ st.kvList.size then .done (.ok none)
  else .done (printKvPairList st.kvList)

/-- `main` from the first `recv` on; `inMsg` is what its buffer holds before.
The result is the printed list, or `none` for `FAIL`.  A pass without a
reception is the last but one. -/
def dumpNode (inMsg : List UInt8) (receptions : List Reception) :
    Except Fault (Option (List (Option KvPair))) :=
  let r := receptions.headD { datagram := none, key := [], value := [] }
  let (inMsg, inMsgLen) := r.into inMsg
  if inMsgLen = -1 then .ok none
  else
    let kvList : KvList :=
      { size := parseNbrKvPair inMsg, list := List.replicate maxMsgSize none }
    match parseKvPairs r.key r.value (inMsg.drop 4) (inMsgLen - 4) 0 kvList with
    | .error fault => .error fault
    | .ok (parsed, kvList) =>
      if int32 parsed = -1 then .ok none
      else
        runLoop dumpNodeBody (receptions.length + 2)
          { parsed := parsed, inMsg := inMsg, kvList := kvList,
            receptions := receptions.tail }

/-! ## The automaton on one byte -/

section

variable (size : Nat) {st : ParseKv} {b : UInt8}

theorem parseByte_keyByte (hkey : st.parsingKey = true) (hb : b ≠ 0)
    (hindex : st.keyIndex < maxMsgSize) :
    parseByte size st b = .again { st with
      key := poke st.key st.keyIndex b, keyIndex := st.keyIndex + 1 } := by
  rw [parseByte, if_pos ⟨hkey, hb⟩, storeAt, if_pos hindex]

theorem parseByte_keyNul (hkey : st.parsingKey = true)
    (hindex : st.keyIndex < maxMsgSize) :
    parseByte size st 0 = .again { st with
      parsingKey := false, key := poke st.key st.keyIndex 0
      keyIndex := 0 } := by
  rw [parseByte, if_neg (by simp), if_pos ⟨hkey, rfl⟩, storeAt, if_pos hindex]

theorem parseByte_valueByte (hkey : st.parsingKey = false) (hb : b ≠ 0)
    (hindex : st.valueIndex < maxMsgSize) :
    parseByte size st b = .again { st with
      value := poke st.value st.valueIndex b
      valueIndex := st.valueIndex + 1 } := by
  rw [parseByte, if_neg (by simp [hkey]), if_neg (by simp [hkey]), if_pos hb,
    storeAt, if_pos hindex]

/-- The end of a value stores a pair, which may be the last one. -/
theorem parseByte_valueNul (hkey : st.parsingKey = false) {stored : ParseKv}
    (hstore : storePair st = .ok stored) :
    parseByte size st 0 =
      if stored.listIndex + 1 ≥ size then .done (.ok (sizeMax, stored.list))
      else .again { stored with
        listIndex := stored.listIndex + 1, parsingKey := true
        valueIndex := 0 } := by
  rw [parseByte, if_neg (by simp [hkey]), if_neg (by simp [hkey]),
    if_neg (by simp), hstore]

theorem parseByte_valueNul_error (hkey : st.parsingKey = false) {fault : Fault}
    (hstore : storePair st = .error fault) :
    parseByte size st 0 = .done (.error fault) := by
  rw [parseByte, if_neg (by simp [hkey]), if_neg (by simp [hkey]),
    if_neg (by simp), hstore]

end

/-! ## The automaton on one pair -/

variable (size : Nat)
  (stop : ParseKv → Except Fault (Nat × List (Option KvPair)))

/-- Reading the bytes of a key. -/
theorem feed_keyBytes (rest : List UInt8) : ∀ (k : List UInt8) (st : ParseKv),
    (0 : UInt8) ∉ k → st.parsingKey = true →
    st.keyIndex + k.length < maxMsgSize →
    Loop.feed (parseByte size) stop st (k ++ rest) =
      Loop.feed (parseByte size) stop
        { st with key := pokes st.key st.keyIndex k
                  keyIndex := st.keyIndex + k.length } rest := by
  intro k
  induction k with
  | nil =>
    intro st _ _ _
    rfl
  | cons b k ih =>
    intro st hk hparse hlen
    rw [List.length_cons] at hlen
    have hb : b ≠ 0 := fun h => hk (h ▸ List.mem_cons_self)
    have hstep := parseByte_keyByte size hparse hb
      (show st.keyIndex < maxMsgSize by omega)
    have hrest := ih { st with key := poke st.key st.keyIndex b
                               keyIndex := st.keyIndex + 1 }
      (fun h => hk (List.mem_cons_of_mem _ h)) hparse
      (show st.keyIndex + 1 + k.length < maxMsgSize by omega)
    have hindex : st.keyIndex + 1 + k.length = st.keyIndex + (k.length + 1) := by
      omega
    simp only [hindex] at hrest
    rw [List.cons_append, Loop.feed_again hstep, List.length_cons]
    exact hrest

/-- Reading the bytes of a value. -/
theorem feed_valueBytes (rest : List UInt8) :
    ∀ (v : List UInt8) (st : ParseKv),
    (0 : UInt8) ∉ v → st.parsingKey = false →
    st.valueIndex + v.length < maxMsgSize →
    Loop.feed (parseByte size) stop st (v ++ rest) =
      Loop.feed (parseByte size) stop
        { st with value := pokes st.value st.valueIndex v
                  valueIndex := st.valueIndex + v.length } rest := by
  intro v
  induction v with
  | nil =>
    intro st _ _ _
    rfl
  | cons b v ih =>
    intro st hv hparse hlen
    rw [List.length_cons] at hlen
    have hb : b ≠ 0 := fun h => hv (h ▸ List.mem_cons_self)
    have hstep := parseByte_valueByte size hparse hb
      (show st.valueIndex < maxMsgSize by omega)
    have hrest := ih { st with value := poke st.value st.valueIndex b
                               valueIndex := st.valueIndex + 1 }
      (fun h => hv (List.mem_cons_of_mem _ h)) hparse
      (show st.valueIndex + 1 + v.length < maxMsgSize by omega)
    have hindex : st.valueIndex + 1 + v.length =
        st.valueIndex + (v.length + 1) := by
      omega
    simp only [hindex] at hrest
    rw [List.cons_append, Loop.feed_again hstep, List.length_cons]
    exact hrest

/-- The automaton before a pair. -/
structure ParseKv.Ready (st : ParseKv) : Prop where
  parsingKey : st.parsingKey = true
  keyIndex : st.keyIndex = 0
  valueIndex : st.valueIndex = 0

/-- Reading one pair: `storePair` then stores it. -/
theorem feed_pair {st : ParseKv} (h : st.Ready) (kv : KvPair)
    (hkv : sizeKv kv < maxMsgSize) (hlist : st.listIndex < st.list.length)
    (rest : List UInt8) :
    ∃ st' stored,
      Loop.feed (parseByte size) stop st (pairBytes kv ++ rest) =
        Loop.feed (parseByte size) stop st' rest ∧
      st'.parsingKey = false ∧ storePair st' = .ok stored ∧
      stored.keyIndex = 0 ∧ stored.listIndex = st.listIndex ∧
      stored.list = st.list.set st.listIndex (some kv) := by
  have hk : strlen kv.key < maxMsgSize := by
    rw [sizeKv] at hkv
    omega
  have hv : strlen kv.value < maxMsgSize := by
    rw [sizeKv] at hkv
    omega
  have hbytes : pairBytes kv ++ rest =
      kv.key.bytes ++ 0 :: (kv.value.bytes ++ rest) := by
    rw [pairBytes, List.append_assoc, List.cons_append]
  -- The state behind the key, and the state behind the value.
  let st1 : ParseKv := { st with
    key := pokes st.key 0 kv.key.bytes, keyIndex := strlen kv.key }
  let st2 : ParseKv := { st with
    key := poke (pokes st.key 0 kv.key.bytes) (strlen kv.key) 0
    keyIndex := 0, parsingKey := false }
  let st3 : ParseKv := { st2 with
    value := pokes st.value 0 kv.value.bytes, valueIndex := strlen kv.value }
  have hkey : Loop.feed (parseByte size) stop st
        (kv.key.bytes ++ 0 :: (kv.value.bytes ++ rest)) =
      Loop.feed (parseByte size) stop st1
        (0 :: (kv.value.bytes ++ rest)) := by
    rw [feed_keyBytes size stop _ kv.key.bytes st kv.key.noNul h.parsingKey
      (by rw [h.keyIndex, Nat.zero_add]; exact hk), h.keyIndex, Nat.zero_add]
  have hnul : parseByte size st1 0 = .again st2 :=
    parseByte_keyNul size h.parsingKey hk
  have hvalue : Loop.feed (parseByte size) stop st2 (kv.value.bytes ++ rest) =
      Loop.feed (parseByte size) stop st3 rest := by
    have hidx : st2.valueIndex = 0 := h.valueIndex
    rw [feed_valueBytes size stop _ kv.value.bytes st2 kv.value.noNul rfl
      (by rw [hidx, Nat.zero_add]; exact hv), hidx, Nat.zero_add]
  have hstore : storePair st3 = .ok { st3 with
      value := poke (pokes st.value 0 kv.value.bytes) (strlen kv.value) 0
      list := st.list.set st.listIndex (some kv) } := by
    rw [storePair, storeAt, if_pos hv]
    simp only
    rw [if_pos hlist, cstr_pokes, cstr_pokes, createKvPair_self]
  refine ⟨st3, _, ?_, rfl, hstore, rfl, rfl, rfl⟩
  rw [hbytes, hkey, Loop.feed_again hnul]
  exact hvalue

/-! ## The automaton on a run -/

theorem joined_cons (kv : KvPair) {run : List KvPair} (h : run ≠ []) :
    joined (kv :: run) = pairBytes kv ++ 0 :: joined run := by
  cases run with
  | nil => exact absurd rfl h
  | cons kv' run => rfl

/-- The automaton reads the last pairs of a list into its last slots. -/
theorem feed_joined : ∀ (run : List KvPair) (st : ParseKv)
    (filled : List (Option KvPair)) (free : Nat), run ≠ [] → st.Ready →
    st.listIndex = filled.length →
    st.list = filled ++ List.replicate free none →
    filled.length + run.length = size → run.length ≤ free →
    (∀ kv ∈ run, sizeKv kv < maxMsgSize) →
    Loop.feed (parseByte size) parseEnd st (joined run) =
      .ok (size, (filled ++ run.map some) ++
        List.replicate (free - run.length) none) := by
  intro run
  induction run with
  | nil =>
    intro st filled free hne
    exact absurd rfl hne
  | cons kv run ih =>
    intro st filled free _ hready hindex hlist hsize hfree hfit
    rw [List.length_cons] at hsize hfree
    have hslot : st.listIndex < st.list.length := by
      rw [hindex, hlist, List.length_append, List.length_replicate]
      omega
    have hset : st.list.set st.listIndex (some kv) =
        (filled ++ [some kv]) ++ List.replicate (free - 1) none := by
      rw [hindex, hlist]
      exact set_free filled kv (by omega)
    by_cases hrun : run = []
    · -- The last pair has no separator behind it: `parseEnd` stores it.
      subst hrun
      obtain ⟨st', stored, hfeed, _, hstore, _, hstored, hslots⟩ :=
        feed_pair size parseEnd hready kv
          (hfit kv List.mem_cons_self) hslot []
      have hend : Loop.feed (parseByte size) parseEnd st' [] =
          .ok (stored.listIndex + 1, stored.list) := by
        rw [Loop.feed, parseEnd, hstore]
      rw [List.append_nil] at hfeed
      rw [joined, List.flatMap_nil, List.append_nil, hfeed, hend, hslots, hset,
        hstored, hindex]
      simp only [List.length_nil] at hsize
      simp only [List.map_cons, List.map_nil, List.length_cons, List.length_nil]
      rw [← hsize]
    · obtain ⟨st', stored, hfeed, hparsing, hstore, hkey, hstored, hslots⟩ :=
        feed_pair size parseEnd hready kv
          (hfit kv List.mem_cons_self) hslot (0 :: joined run)
      have hpos : 0 < run.length := List.length_pos_iff.mpr hrun
      have hlen : (filled ++ [some kv]).length = filled.length + 1 := by
        rw [List.length_append, List.length_singleton]
      have hnul : parseByte size st' 0 = .again { stored with
          listIndex := stored.listIndex + 1, parsingKey := true
          valueIndex := 0 } := by
        rw [parseByte_valueNul size hparsing hstore, if_neg (by omega)]
      have hrest := ih { stored with
          listIndex := stored.listIndex + 1, parsingKey := true
          valueIndex := 0 } (filled ++ [some kv]) (free - 1) hrun
        ⟨rfl, hkey, rfl⟩ (by simp only; omega) (by simp only; rw [hslots, hset])
        (by omega) (by omega)
        (fun kv' hkv' => hfit kv' (List.mem_cons_of_mem _ hkv'))
      have hleft : free - 1 - run.length = free - (run.length + 1) := by omega
      rw [joined_cons kv hrun, hfeed, Loop.feed_again hnul, hrest, hleft,
        List.map_cons, List.length_cons, List.append_assoc filled,
        List.singleton_append]

/-! ## The round trip -/

theorem parseNbrKvPair_htonl {n : Nat} (hn : n < 2 ^ 32)
    (rest : List UInt8) : parseNbrKvPair (htonl n ++ rest) = n := by
  show (UInt8.ofNat (n / 2 ^ 24)).toNat * 2 ^ 24 +
    (UInt8.ofNat (n / 2 ^ 16)).toNat * 2 ^ 16 +
    (UInt8.ofNat (n / 2 ^ 8)).toNat * 2 ^ 8 + (UInt8.ofNat n).toNat = n
  simp only [UInt8.toNat_ofNat']
  omega

theorem sizeKv_le_sizeAll {kv : KvPair} {pairs : List KvPair}
    (h : kv ∈ pairs) : sizeKv kv ≤ sizeAll pairs := by
  induction pairs with
  | nil => exact absurd h List.not_mem_nil
  | cons kv' pairs ih =>
    rw [sizeAll_cons]
    rcases List.mem_cons.mp h with rfl | h
    · omega
    · have hle := ih h
      omega

/-- There are no more pairs than bytes. -/
theorem length_le_sizeAll (pairs : List KvPair) :
    pairs.length ≤ sizeAll pairs := by
  induction pairs with
  | nil => exact Nat.zero_le _
  | cons kv pairs ih =>
    have hpos := sizeKv_pos kv
    rw [List.length_cons, sizeAll_cons]
    omega

/-- The datagram of a dump: `parse_kv_pairs` counts and stores its pairs. -/
theorem parseKvPairs_joined {pairs : List KvPair} (hne : pairs ≠ [])
    (hsize : dumpSize pairs ≤ maxMsgSize) (key value rest : List UInt8) :
    parseKvPairs key value (joined pairs ++ rest)
        ((htonl pairs.length ++ joined pairs).length - 4 : Int) 0
        { size := pairs.length, list := List.replicate maxMsgSize none } =
      .ok (pairs.length,
        { size := pairs.length
          list := pairs.map some ++
            List.replicate (maxMsgSize - pairs.length) none }) := by
  have hlen : ((htonl pairs.length ++ joined pairs).length - 4 : Int).toNat =
      (joined pairs).length := by
    rw [List.length_append, length_htonl]
    omega
  have hcount := length_le_sizeAll pairs
  have hfit : ∀ kv ∈ pairs, sizeKv kv < maxMsgSize := by
    intro kv hkv
    have hle := sizeKv_le_sizeAll hkv
    rw [dumpSize] at hsize
    omega
  rw [dumpSize] at hsize
  have hfeed := feed_joined pairs.length pairs
    { key := key, keyIndex := 0, value := value, valueIndex := 0,
      listIndex := 0, parsingKey := true,
      list := List.replicate maxMsgSize none } [] maxMsgSize hne
    ⟨rfl, rfl, rfl⟩ rfl rfl (by rw [List.length_nil, Nat.zero_add]) (by omega)
    hfit
  rw [parseKvPairs, hlen, readBytes_append, hfeed]
  rfl

theorem length_dump_le {pairs : List KvPair} (hne : pairs ≠ [])
    (hsize : dumpSize pairs ≤ maxMsgSize) :
    pairs.length ≤ maxMsgSize ∧
      (htonl pairs.length ++ joined pairs).length ≤ maxMsgSize := by
  have hcount := length_le_sizeAll pairs
  have hjoined := length_joined hne
  rw [dumpSize] at hsize
  rw [List.length_append, length_htonl]
  omega

/-- The dump client prints the pairs of a dump of one datagram. -/
theorem dumpNode_joined {pairs : List KvPair} (hne : pairs ≠ [])
    (hsize : dumpSize pairs ≤ maxMsgSize) (inMsg key value : List UInt8)
    (receptions : List Reception) :
    dumpNode inMsg
        ({ datagram := some (htonl pairs.length ++ joined pairs), key := key,
           value := value } :: receptions) =
      .ok (some (pairs.map some)) := by
  obtain ⟨hle, hlen⟩ := length_dump_le hne hsize
  have hmax : maxMsgSize < 2 ^ 31 := by decide
  have hparse := parseKvPairs_joined hne hsize key value
    (inMsg.drop (htonl pairs.length ++ joined pairs).length)
  have hinto : Reception.into
      { datagram := some (htonl pairs.length ++ joined pairs), key := key,
        value := value } inMsg =
      (htonl pairs.length ++ joined pairs ++
        inMsg.drop (htonl pairs.length ++ joined pairs).length,
        ((htonl pairs.length ++ joined pairs).length : Int)) := by
    rw [Reception.into]
    simp only
    rw [List.take_of_length_le hlen]
  have hbuf : (htonl pairs.length ++ joined pairs ++
      inMsg.drop (htonl pairs.length ++ joined pairs).length).drop 4 =
      joined pairs ++
        inMsg.drop (htonl pairs.length ++ joined pairs).length := rfl
  have hnbr : parseNbrKvPair (htonl pairs.length ++ joined pairs ++
      inMsg.drop (htonl pairs.length ++ joined pairs).length) =
      pairs.length := by
    rw [List.append_assoc]
    exact parseNbrKvPair_htonl (by omega) _
  have hint : int32 pairs.length ≠ -1 := by
    have hint := int32_of_lt (n := pairs.length) (by omega)
    omega
  have hprint : printKvPairList
      { size := pairs.length
        list := pairs.map some ++
          List.replicate (maxMsgSize - pairs.length) none } =
      .ok (some (pairs.map some)) := by
    have htake : (pairs.map some ++
        List.replicate (maxMsgSize - pairs.length) none).take
          pairs.length = pairs.map some := by
      rw [List.take_append_of_le_length (by rw [List.length_map]),
        List.take_of_length_le (by rw [List.length_map])]
    have hslots : pairs.length ≤ (pairs.map some ++
        List.replicate (maxMsgSize - pairs.length) none).length := by
      rw [List.length_append, List.length_map]
      omega
    rw [printKvPairList, if_pos hslots, htake]
  rw [dumpNode, List.headD_cons, hinto]
  simp only
  rw [if_neg (by omega), hbuf, hnbr, hparse]
  simp only
  rw [if_neg hint]
  -- All pairs are there, so the loop for further datagrams ends at once.
  refine runLoop_of_run (Loop.run_succ_done _ ?_)
  rw [dumpNodeBody]
  simp only
  rw [if_neg (Nat.lt_irrefl _), if_neg (by simp), hprint]

/-- A dump of one datagram makes the round trip: the server sends one
datagram, and the dump client counts and prints its pairs. -/
theorem dumpRoundTrip (table : Htable) (hne : contentPairs table ≠ [])
    (hsize : dumpSize (contentPairs table) ≤ maxMsgSize) (fuel : Nat)
    (hfuel : (contentPairs table).length < fuel)
    (inMsg key value : List UInt8) (receptions : List Reception) :
    ∃ datagram, dumpLoop fuel (getHtableContent table) =
        some (.ok [datagram]) ∧
      parseNbrKvPair datagram = (contentPairs table).length ∧
      (∃ kvList, parseKvPairs key value
          (datagram.drop 4 ++ inMsg.drop datagram.length)
          (datagram.length - 4 : Int) 0
          { size := (contentPairs table).length
            list := List.replicate maxMsgSize none } =
        .ok ((contentPairs table).length, kvList)) ∧
      dumpNode inMsg
          ({ datagram := some datagram, key := key, value := value } ::
            receptions) =
        .ok (some ((contentPairs table).map some)) := by
  have hcontent : getHtableContent table = content (contentPairs table) :=
    getHtableContent_eq table
  rw [hcontent]
  generalize contentPairs table = pairs at hne hsize hfuel
  obtain ⟨hle, _⟩ := length_dump_le hne hsize
  have hmax : maxMsgSize < 2 ^ 32 := by decide
  have hdrop : (htonl pairs.length ++ joined pairs).drop 4 = joined pairs := rfl
  refine ⟨htonl pairs.length ++ joined pairs, dumpLoop_fits hne hsize hfuel,
    parseNbrKvPair_htonl (by omega) _, ?_,
    dumpNode_joined hne hsize inMsg key value receptions⟩
  rw [hdrop]
  exact ⟨_, parseKvPairs_joined hne hsize key value _⟩

/-- Two pairs in one bucket, one with an empty key and one with an empty
value. -/
def demoTable : Htable :=
  { buckets := [.link (some { key := lit [], value := lit ['v'] })
      (.last (some { key := lit ['k'], value := lit [] }))]
    size_pos := by decide }

theorem dumpRoundTrip_demo :
    ∃ datagram, dumpLoop 3 (getHtableContent demoTable) =
        some (.ok [datagram]) ∧
      dumpNode [] [{ datagram := some datagram, key := [], value := [] }] =
        .ok (some [some { key := lit [], value := lit ['v'] },
          some { key := lit ['k'], value := lit [] }]) := by
  obtain ⟨datagram, hsend, _, _, hprint⟩ := dumpRoundTrip demoTable
    (by decide) (by decide +kernel) 3 (by decide) [] [] [] []
  exact ⟨datagram, hsend, hprint⟩

end PpsDht
