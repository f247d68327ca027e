import PpsDht.DumpClient
import PpsDht.Lib.StringStores

/-!
# The memory that a dump touches

`parse_kv_pairs` with the stores that it makes: into its buffers `key` and
`value`, and into the slots of `kv_list`.  `callStores` is the trace of one
call, and `dumpNodeCalls` has the calls of a run of `main`.

The buffers are as long as the longest message, so `key` and `value` are always
large enough.  The slots are not: `list_index` is only compared with the count
of the header.  And the last pair of a message is stored whatever has been
read, from a `key` whose terminator may be missing or overwritten.

* `callSafe_iff`: one call is safe when its slots, or all that the header
  announces, are there, and a key of its message is as long as what is left
  unfinished behind the last pair, or no pair is stored there.
* `dumpSafe_iff`: when a whole run is safe.
-/

namespace PpsDht

open CMem

/-! ## Stores -/

/-- A store of `parse_kv_pairs`: a byte of `key` or `value`, or a slot that
`create_kv_pair` fills. -/
inductive ParseStore where
  | key (index : Nat) (b : UInt8)
  | value (index : Nat) (b : UInt8)
  | slot (index : Nat)
  deriving DecidableEq

/-- The stores of `storePair`. -/
def pairStores (st : ParseKv) : List ParseStore :=
  [.value st.valueIndex 0, .slot st.listIndex]

/-- The stores of one pass of the loop of `parse_kv_pairs`. -/
def byteStores (st : ParseKv) (iterator : UInt8) : List ParseStore :=
  if st.parsingKey ∧ iterator ≠ 0 then [.key st.keyIndex iterator]
  else if st.parsingKey ∧ iterator = 0 then [.key st.keyIndex 0]
  else if iterator ≠ 0 then [.value st.valueIndex iterator]
  else pairStores st

/-- The stores of one call of `parse_kv_pairs`. -/
def callStores (key value inMsg : List UInt8) (length : Int)
    (startingIndex : Nat) (kvList : KvList) : List ParseStore :=
  Loop.feedTrace (parseByte kvList.size) byteStores pairStores
    { key := key, keyIndex := 0, value := value, valueIndex := 0,
      listIndex := startingIndex, parsingKey := true, list := kvList.list }
    (readBytes inMsg length.toNat)

/-- The calls in one pass of the loop of `main`. -/
def passCalls (st : DumpNodeState) : List (List ParseStore) :=
  if st.parsed < st.kvList.size then
    let r := st.receptions.headD { datagram := none, key := [], value := [] }
    let (inMsg, inMsgLen) := r.into st.inMsg
    [callStores r.key r.value inMsg inMsgLen st.parsed st.kvList]
  else []

/-- The call in front of the loop of `main`. -/
def firstCalls (inMsg : List UInt8) (receptions : List Reception) :
    List (List ParseStore) :=
  let r := receptions.headD { datagram := none, key := [], value := [] }
  let (inMsg, inMsgLen) := r.into inMsg
  if inMsgLen = -1 then []
  else
    [callStores r.key r.value (inMsg.drop 4) (inMsgLen - 4) 0
      { size := parseNbrKvPair inMsg,
        list := List.replicate maxMsgSize none }]

/-- All calls of `parse_kv_pairs` in a run of `main`. -/
def dumpNodeCalls (inMsg : List UInt8) (receptions : List Reception) :
    List (List ParseStore) :=
  firstCalls inMsg receptions ++
    match dumpNodeStart inMsg receptions with
    | none => []
    | some st =>
      (Loop.visited dumpNodeBody (receptions.length + 2) st).flatMap passCalls

/-- The index of a store is below the size of its array. -/
def ParseStore.Inside : ParseStore → Prop
  | .key index _ => index < maxMsgSize
  | .value index _ => index < maxMsgSize
  | .slot index => index < maxMsgSize

/-- The stores into `key`. -/
def keyWrites (stores : List ParseStore) : List Write :=
  stores.filterMap fun store => match store with
    | .key index b => some (index, b)
    | _ => none

/-- A terminator stands in `key` that the call has stored there. -/
def KeyTerminated (stores : List ParseStore) : Prop :=
  ∃ i, lastByte (keyWrites stores) i = some 0

/-- The stores of one call are inside, and `create_kv_pair` is called only when
`key` holds a terminator that the call has stored. -/
structure CallSafe (stores : List ParseStore) : Prop where
  inside : ∀ store ∈ stores, store.Inside
  keyRead : ∀ before index after, stores = before ++ .slot index :: after →
    KeyTerminated before

/-- Every call of a run is safe. -/
def DumpSafe (inMsg : List UInt8) (receptions : List Reception) : Prop :=
  ∀ stores ∈ dumpNodeCalls inMsg receptions, CallSafe stores

/-! ## One byte -/

theorem byteStores_key {st : ParseKv} {b : UInt8} (h : st.parsingKey = true) :
    byteStores st b = [.key st.keyIndex b] := by
  rw [byteStores]
  by_cases hb : b = 0
  · rw [if_neg (fun hne => hne.2 hb), if_pos ⟨h, hb⟩, hb]
  · rw [if_pos ⟨h, hb⟩]

theorem byteStores_value {st : ParseKv} {b : UInt8}
    (h : st.parsingKey = false) :
    byteStores st b =
      if b ≠ 0 then [.value st.valueIndex b] else pairStores st := by
  rw [byteStores, if_neg (by simp [h]), if_neg (by simp [h])]

/-- A pass that ends the call has stored to a slot that is not there, or to the
last one that is announced. -/
theorem KvParseInv.done {start last bound size : Nat}
    {list : List (Option KvPair)} (hbound : bound ≤ maxMsgSize) {st : ParseKv}
    {b : UInt8} {ahead : List UInt8}
    (h : KvParseInv start last bound size list st (b :: ahead))
    {r : Except Fault (Nat × List (Option KvPair))}
    (hdone : parseByte size st b = .done r) :
    byteStores st b = pairStores st ∧
      (list.length ≤ st.listIndex ∨ size ≤ st.listIndex + 1) := by
  have hlen : (b :: ahead).length = ahead.length + 1 := rfl
  cases hkey : st.parsingKey with
  | true =>
    have hindex := (h.key hkey).1
    by_cases hb : b = 0
    · subst hb
      cases hdone.symm.trans (parseByte_keyNul size hkey (by omega))
    · cases hdone.symm.trans (parseByte_keyByte size hkey hb (by omega))
  | false =>
    have hindex := (h.value hkey).2
    by_cases hb : b = 0
    · subst hb
      refine ⟨by rw [byteStores_value hkey, if_neg (not_not.mpr rfl)], ?_⟩
      have hlength := h.length
      have hstore := storePair_eq (show st.valueIndex < maxMsgSize by omega)
      by_cases hslot : st.listIndex < st.list.length
      · rw [if_pos hslot] at hstore
        rw [parseByte_valueNul size hkey hstore] at hdone
        split_ifs at hdone with hend
        exact Or.inr hend
      · exact Or.inl (by omega)
    · cases hdone.symm.trans (parseByte_valueByte size hkey hb (by omega))

/-! ## Where the stores go -/

theorem KvParseInv.slot_le {start last bound size : Nat}
    {list : List (Option KvPair)} {st : ParseKv} {ahead : List UInt8}
    (h : KvParseInv start last bound size list st ahead) :
    st.listIndex ≤ last := by
  have hlast := h.last
  omega

section

variable {start last bound size : Nat} {list : List (Option KvPair)}
  {st : ParseKv}

/-- With slots enough, every store of a byte is inside. -/
theorem KvParseInv.byteStores_inside (hbound : bound ≤ maxMsgSize)
    (hslots : last < maxMsgSize ∨ size ≤ maxMsgSize)
    (hstart : start < size ∨ start = 0) {b : UInt8} {ahead : List UInt8}
    (h : KvParseInv start last bound size list st (b :: ahead)) :
    (∀ store ∈ byteStores st b, store.Inside) ∧
      ∀ st', parseByte size st b = .again st' →
        KvParseInv start last bound size list st' ahead := by
  have hlen : (b :: ahead).length = ahead.length + 1 := rfl
  have hmax : 0 < maxMsgSize := by decide
  have hle := h.slot_le
  have hslot := h.slot
  constructor
  · cases hkey : st.parsingKey with
    | true =>
      have hindex := (h.key hkey).1
      rw [byteStores_key hkey, List.forall_mem_singleton]
      show st.keyIndex < maxMsgSize
      omega
    | false =>
      have hindex := (h.value hkey).2
      rw [byteStores_value hkey]
      split_ifs
      · rw [List.forall_mem_singleton]
        show st.valueIndex < maxMsgSize
        omega
      · rw [pairStores, List.forall_mem_cons, List.forall_mem_singleton]
        show st.valueIndex < maxMsgSize ∧ st.listIndex < maxMsgSize
        omega
  · intro st' hst'
    rcases h.step hbound with ⟨st'', hnext, hinv⟩ | ⟨r, hdone, _⟩
    · cases hst'.symm.trans hnext
      exact hinv
    · cases hst'.symm.trans hdone

/-- The stores at the end of a message are inside. -/
theorem KvParseInv.pairStores_inside (hbound : bound ≤ maxMsgSize)
    (hslots : last < maxMsgSize ∨ size ≤ maxMsgSize)
    (hstart : start < size ∨ start = 0)
    (h : KvParseInv start last bound size list st []) :
    ∀ store ∈ pairStores st, store.Inside := by
  have hmax : 0 < maxMsgSize := by decide
  have hle := h.slot_le
  have hslot := h.slot
  have hvalue := h.valueIndex_lt hbound
  rw [pairStores, List.forall_mem_cons, List.forall_mem_singleton]
  show st.valueIndex < maxMsgSize ∧ st.listIndex < maxMsgSize
  omega

end

/-- When every store of a call is inside, the slots, or all that are announced,
are there. -/
theorem slots_of_inside {start last bound size : Nat}
    {list : List (Option KvPair)} (hbound : bound ≤ maxMsgSize)
    (hlist : list.length = maxMsgSize) (body : List UInt8) {st : ParseKv}
    (hinv : KvParseInv start last bound size list st body)
    (h : ∀ store ∈ Loop.feedTrace (parseByte size) byteStores pairStores st
      body, store.Inside) : last < maxMsgSize ∨ size ≤ maxMsgSize := by
  have hslot : ∀ st : ParseKv, (∀ store ∈ pairStores st, store.Inside) →
      st.listIndex < maxMsgSize :=
    fun st h => h (.slot st.listIndex)
      (List.mem_cons_of_mem _ List.mem_cons_self)
  refine Loop.of_forall_feedTrace (KvParseInv start last bound size list) ?_ ?_
    body hinv h
  · intro st b ahead hinv hinside
    rcases hinv.step hbound with ⟨st', hnext, hinv'⟩ | ⟨r, hdone, _⟩
    · exact Or.inl ⟨st', hnext, hinv'⟩
    · obtain ⟨hstores, hend⟩ := hinv.done hbound hdone
      rw [hstores] at hinside
      have hlt := hslot st hinside
      exact Or.inr ⟨⟨r, hdone⟩, Or.inr (by omega)⟩
  · intro st hinv hinside
    have hlt := hslot st hinside
    rw [hinv.listIndex_eq] at hlt
    exact Or.inl hlt

/-! ## The terminator of a key -/

/-- The key that is left unfinished behind the last pair of a message. -/
def unfinishedKey (body : List UInt8) : List UInt8 :=
  if _h : (0 : UInt8) ∈ body then unfinishedKey (afterNul (afterNul body))
  else body
termination_by body.length
decreasing_by
  have hlen := length_eq_of_nul _h
  have hle := length_afterNul_le (afterNul body)
  omega

theorem unfinishedKey_nul {body : List UInt8} (h : (0 : UInt8) ∈ body) :
    unfinishedKey body = unfinishedKey (afterNul (afterNul body)) := by
  rw [unfinishedKey, dif_pos h]

theorem unfinishedKey_noNul {body : List UInt8} (h : (0 : UInt8) ∉ body) :
    unfinishedKey body = body := by
  rw [unfinishedKey, dif_neg h]

theorem keyWrites_append (before stores : List ParseStore) :
    keyWrites (before ++ stores) = keyWrites before ++ keyWrites stores :=
  List.filterMap_append

/-- Behind some stores, `create_kv_pair` is called only with a key. -/
def ReadsKey (before stores : List ParseStore) : Prop :=
  ∀ pre index after, stores = pre ++ .slot index :: after →
    KeyTerminated (before ++ pre)

theorem readsKey_cons {before rest : List ParseStore} {store : ParseStore} :
    ReadsKey before (store :: rest) ↔
      ((∃ index, store = .slot index) → KeyTerminated before) ∧
        ReadsKey (before ++ [store]) rest := by
  constructor
  · intro h
    refine ⟨?_, ?_⟩
    · rintro ⟨index, rfl⟩
      have hhere := h [] index rest rfl
      rwa [List.append_nil] at hhere
    · rintro pre index after rfl
      have hlater := h (store :: pre) index after rfl
      rwa [List.append_cons] at hlater
  · rintro ⟨hhere, hlater⟩ pre index after heq
    cases pre with
    | nil =>
      rw [List.append_nil]
      exact hhere ⟨index, (List.cons.inj heq).1⟩
    | cons store' pre =>
      obtain ⟨rfl, hrest⟩ := List.cons.inj heq
      rw [List.append_cons]
      exact hlater pre index after hrest

/-- Stores into the buffers call nothing. -/
theorem readsKey_append {stores : List ParseStore}
    (h : ∀ index, .slot index ∉ stores) (rest : List ParseStore) :
    ∀ before, ReadsKey before (stores ++ rest) ↔
      ReadsKey (before ++ stores) rest := by
  induction stores with
  | nil =>
    intro before
    rw [List.nil_append, List.append_nil]
  | cons store stores ih =>
    intro before
    have hstore : ¬ ∃ index, store = .slot index := by
      rintro ⟨index, rfl⟩
      exact h index List.mem_cons_self
    rw [List.cons_append, readsKey_cons,
      ih (fun index hmem => h index (List.mem_cons_of_mem _ hmem)),
      List.append_assoc, List.singleton_append]
    exact and_iff_right (fun hslot => absurd hslot hstore)

/-- The stores of a pair read the key. -/
theorem readsKey_pair {before rest : List ParseStore} (i index : Nat) :
    ReadsKey before (.value i 0 :: .slot index :: rest) ↔
      KeyTerminated before ∧
        ReadsKey (before ++ [.value i 0, .slot index]) rest := by
  have hvalue : KeyTerminated (before ++ [.value i 0]) ↔
      KeyTerminated before := by
    have hnone : keyWrites [.value i 0] = [] := rfl
    rw [KeyTerminated, keyWrites_append, hnone, List.append_nil]
    rfl
  rw [readsKey_cons, readsKey_cons, hvalue, List.append_assoc]
  constructor
  · rintro ⟨_, hslot, hrest⟩
    exact ⟨hslot ⟨index, rfl⟩, hrest⟩
  · rintro ⟨hkey, hrest⟩
    exact ⟨fun ⟨_, h⟩ => (by cases h), fun _ => hkey, hrest⟩

theorem readsKey_nil (before : List ParseStore) : ReadsKey before [] := by
  intro pre index after h
  exact absurd h.symm (List.append_ne_nil_of_right_ne_nil _
    (List.cons_ne_nil _ _))

/-- The stores of the bytes of a key. -/
def keyByteStores (i : Nat) (k : List UInt8) : List ParseStore :=
  (writesFrom i k).map (fun w => .key w.1 w.2)

/-- The stores of the bytes of a value. -/
def valueByteStores (i : Nat) (v : List UInt8) : List ParseStore :=
  (writesFrom i v).map (fun w => .value w.1 w.2)

theorem slot_notMem_keyByteStores (i : Nat) (k : List UInt8) (index : Nat) :
    .slot index ∉ keyByteStores i k := by
  intro h
  obtain ⟨w, _, hw⟩ := List.mem_map.mp h
  cases hw

theorem slot_notMem_valueByteStores (i : Nat) (v : List UInt8) (index : Nat) :
    .slot index ∉ valueByteStores i v := by
  intro h
  obtain ⟨w, _, hw⟩ := List.mem_map.mp h
  cases hw

theorem keyWrites_keyByteStores (i : Nat) (k : List UInt8) :
    keyWrites (keyByteStores i k) = writesFrom i k := by
  rw [keyWrites, keyByteStores, List.filterMap_map]
  exact List.filterMap_some

theorem keyWrites_valueByteStores (i : Nat) (v : List UInt8) :
    keyWrites (valueByteStores i v) = [] := by
  rw [keyWrites, valueByteStores, List.filterMap_map]
  exact List.filterMap_eq_nil_iff.mpr (fun _ _ => rfl)

section

variable (size : Nat)

/-- Reading the bytes of a key. -/
theorem feedTrace_keyBytes (rest : List UInt8) :
    ∀ (k : List UInt8) (st : ParseKv), (0 : UInt8) ∉ k →
    st.parsingKey = true → st.keyIndex + k.length ≤ maxMsgSize →
    Loop.feedTrace (parseByte size) byteStores pairStores st (k ++ rest) =
      keyByteStores st.keyIndex k ++
        Loop.feedTrace (parseByte size) byteStores pairStores
          { st with key := pokes st.key st.keyIndex k
                    keyIndex := st.keyIndex + k.length } rest := by
  intro k
  induction k with
  | nil =>
    intro st _ _ _
    rfl
  | cons b k ih =>
    intro st hk hparse hlen
    rw [List.length_cons] at hlen
    have hb : b ≠ 0 := fun h => hk (h ▸ List.mem_cons_self)
    have hstep := parseByte_keyByte size hparse hb
      (show st.keyIndex < maxMsgSize by omega)
    have hrest := ih { st with key := poke st.key st.keyIndex b
                               keyIndex := st.keyIndex + 1 }
      (fun h => hk (List.mem_cons_of_mem _ h)) hparse
      (show st.keyIndex + 1 + k.length ≤ maxMsgSize by omega)
    have hindex : st.keyIndex + 1 + k.length = st.keyIndex + (k.length + 1) := by
      omega
    simp only [hindex] at hrest
    rw [List.cons_append, Loop.feedTrace_again hstep, byteStores_key hparse,
      List.length_cons, hrest]
    rfl

/-- Reading the bytes of a value. -/
theorem feedTrace_valueBytes (rest : List UInt8) :
    ∀ (v : List UInt8) (st : ParseKv), (0 : UInt8) ∉ v →
    st.parsingKey = false → st.valueIndex + v.length ≤ maxMsgSize →
    Loop.feedTrace (parseByte size) byteStores pairStores st (v ++ rest) =
      valueByteStores st.valueIndex v ++
        Loop.feedTrace (parseByte size) byteStores pairStores
          { st with value := pokes st.value st.valueIndex v
                    valueIndex := st.valueIndex + v.length } rest := by
  intro v
  induction v with
  | nil =>
    intro st _ _ _
    rfl
  | cons b v ih =>
    intro st hv hparse hlen
    rw [List.length_cons] at hlen
    have hb : b ≠ 0 := fun h => hv (h ▸ List.mem_cons_self)
    have hstep := parseByte_valueByte size hparse hb
      (show st.valueIndex < maxMsgSize by omega)
    have hrest := ih { st with value := poke st.value st.valueIndex b
                               valueIndex := st.valueIndex + 1 }
      (fun h => hv (List.mem_cons_of_mem _ h)) hparse
      (show st.valueIndex + 1 + v.length ≤ maxMsgSize by omega)
    have hindex : st.valueIndex + 1 + v.length =
        st.valueIndex + (v.length + 1) := by
      omega
    simp only [hindex] at hrest
    rw [List.cons_append, Loop.feedTrace_again hstep, byteStores_value hparse,
      if_pos hb, List.length_cons, hrest]
    rfl

/-- The automaton behind a key. -/
structure ParseKv.InValue (st : ParseKv) : Prop where
  parsingKey : st.parsingKey = false
  keyIndex : st.keyIndex = 0
  valueIndex : st.valueIndex = 0

variable {st : ParseKv} {body : List UInt8}

/-- A message with a zero byte starts with a key. -/
theorem ParseKv.Ready.feedTrace_key (h : st.Ready)
    (hmax : body.length ≤ maxMsgSize) (hnul : (0 : UInt8) ∈ body) :
    ∃ st', Loop.feedTrace (parseByte size) byteStores pairStores st body =
        keyByteStores 0 (mem (cstr body)) ++
          Loop.feedTrace (parseByte size) byteStores pairStores st'
            (afterNul body) ∧
      st'.InValue ∧ st'.listIndex = st.listIndex ∧ st'.list = st.list := by
  have hlen := length_eq_of_nul hnul
  have hk : strlen (cstr body) < maxMsgSize := by omega
  have htrace := feedTrace_keyBytes size (0 :: afterNul body)
    (cstr body).bytes st (cstr body).noNul h.parsingKey
    (by rw [h.keyIndex, Nat.zero_add]; exact hk.le)
  rw [← eq_append_afterNul hnul, h.keyIndex, Nat.zero_add] at htrace
  -- The state behind the bytes of the key.
  generalize hst' : ({ st with
    key := pokes st.key 0 (cstr body).bytes
    keyIndex := (cstr body).bytes.length } : ParseKv) = st' at htrace
  have hparsing : st'.parsingKey = true := hst' ▸ h.parsingKey
  have hindex : st'.keyIndex = strlen (cstr body) := hst' ▸ rfl
  have hvalue : st'.valueIndex = 0 := hst' ▸ h.valueIndex
  have hslot : st'.listIndex = st.listIndex := hst' ▸ rfl
  have hlist : st'.list = st.list := hst' ▸ rfl
  have hstep := parseByte_keyNul size hparsing (by omega)
  have hstores : keyByteStores 0 (mem (cstr body)) =
      keyByteStores 0 (cstr body).bytes ++ [.key (strlen (cstr body)) 0] := by
    rw [keyByteStores, keyByteStores, mem, writesFrom, writesFrom,
      List.zipIdx_append, List.map_append, List.map_append, Nat.zero_add]
    rfl
  rw [Loop.feedTrace_again hstep, byteStores_key hparsing, hindex,
    ← List.append_assoc, ← hstores] at htrace
  exact ⟨_, htrace, ⟨rfl, rfl, hvalue⟩, hslot, hlist⟩

/-- A message without a zero byte ends in the key. -/
theorem ParseKv.Ready.feedTrace_end (h : st.Ready)
    (hmax : body.length ≤ maxMsgSize) (hnul : (0 : UInt8) ∉ body) :
    Loop.feedTrace (parseByte size) byteStores pairStores st body =
      keyByteStores 0 body ++ [.value 0 0, .slot st.listIndex] := by
  have htrace := feedTrace_keyBytes size [] body st hnul h.parsingKey
    (by rw [h.keyIndex, Nat.zero_add]; exact hmax)
  rw [List.append_nil] at htrace
  rw [htrace, h.keyIndex, Loop.feedTrace, pairStores, h.valueIndex]

/-- A message without a zero byte ends in the value. -/
theorem ParseKv.InValue.feedTrace_end (h : st.InValue)
    (hmax : body.length ≤ maxMsgSize) (hnul : (0 : UInt8) ∉ body) :
    Loop.feedTrace (parseByte size) byteStores pairStores st body =
      valueByteStores 0 body ++
        [.value body.length 0, .slot st.listIndex] := by
  have htrace := feedTrace_valueBytes size [] body st hnul h.parsingKey
    (by rw [h.valueIndex, Nat.zero_add]; exact hmax)
  rw [List.append_nil] at htrace
  rw [htrace, h.valueIndex, Loop.feedTrace, pairStores, Nat.zero_add]

/-- A zero byte behind the value completes a pair, which may be the last one
that is announced. -/
theorem ParseKv.InValue.feedTrace_pair (h : st.InValue)
    (hmax : body.length ≤ maxMsgSize) (hnul : (0 : UInt8) ∈ body)
    (hslot : st.listIndex < st.list.length) :
    ∃ rest, Loop.feedTrace (parseByte size) byteStores pairStores st body =
        valueByteStores 0 (cstr body).bytes ++
          .value (strlen (cstr body)) 0 :: .slot st.listIndex :: rest ∧
      (size ≤ st.listIndex + 1 → rest = []) ∧
      (st.listIndex + 1 < size → ∃ st',
        rest = Loop.feedTrace (parseByte size) byteStores pairStores st'
          (afterNul body) ∧
        st'.Ready ∧ st'.listIndex = st.listIndex + 1 ∧
        st'.list.length = st.list.length) := by
  have hlen := length_eq_of_nul hnul
  have hv : strlen (cstr body) < maxMsgSize := by omega
  have htrace := feedTrace_valueBytes size (0 :: afterNul body)
    (cstr body).bytes st (cstr body).noNul h.parsingKey
    (by rw [h.valueIndex, Nat.zero_add]; exact hv.le)
  rw [← eq_append_afterNul hnul, h.valueIndex, Nat.zero_add] at htrace
  -- The state behind the bytes of the value.
  generalize hst' : ({ st with
    value := pokes st.value 0 (cstr body).bytes
    valueIndex := (cstr body).bytes.length } : ParseKv) = st' at htrace
  have hparsing : st'.parsingKey = false := hst' ▸ h.parsingKey
  have hkey : st'.keyIndex = 0 := hst' ▸ h.keyIndex
  have hvalue : st'.valueIndex = strlen (cstr body) := hst' ▸ rfl
  have hindex : st'.listIndex = st.listIndex := hst' ▸ rfl
  have hlist : st'.list = st.list := hst' ▸ rfl
  have hstore := storePair_eq (show st'.valueIndex < maxMsgSize by omega)
  rw [if_pos (by rw [hindex, hlist]; exact hslot)] at hstore
  have hstep := parseByte_valueNul size hparsing hstore
  have hevents : byteStores st' 0 =
      [.value (strlen (cstr body)) 0, .slot st.listIndex] := by
    rw [byteStores_value hparsing, if_neg (not_not.mpr rfl), pairStores,
      hvalue, hindex]
  simp only [hindex] at hstep
  by_cases hend : st.listIndex + 1 ≥ size
  · rw [if_pos hend] at hstep
    rw [Loop.feedTrace_done hstep, hevents] at htrace
    exact ⟨[], htrace, fun _ => rfl, fun hlt => absurd hend (by omega)⟩
  · rw [if_neg hend] at hstep
    rw [Loop.feedTrace_again hstep, hevents] at htrace
    refine ⟨_, htrace, fun hle => absurd hle hend, fun _ => ⟨_, rfl,
      ⟨rfl, hkey, rfl⟩, rfl, ?_⟩⟩
    rw [List.length_set, hlist]

end

/-- The writes of one more key. -/
theorem keyWrites_key {before : List ParseStore} {strings : List CString}
    (h : keyWrites before = strings.flatMap (stringStores 0)) (s : CString) :
    keyWrites (before ++ keyByteStores 0 (mem s)) =
      (strings ++ [s]).flatMap (stringStores 0) := by
  rw [keyWrites_append, keyWrites_keyByteStores, h, List.flatMap_append,
    List.flatMap_singleton]
  rfl

/-- A value is not stored to the key. -/
theorem keyWrites_value (before : List ParseStore) (v : List UInt8) :
    keyWrites (before ++ valueByteStores 0 v) = keyWrites before := by
  rw [keyWrites_append, keyWrites_valueByteStores, List.append_nil]

/-- A key that has been read leaves a terminator. -/
theorem keyTerminated_of_mem {before : List ParseStore}
    {strings : List CString}
    (h : keyWrites before = strings.flatMap (stringStores 0)) {s : CString}
    (hs : s ∈ strings) : KeyTerminated before := by
  obtain ⟨i, _, hnul⟩ := exists_nul_of_mem hs
  exact ⟨i, by rw [h]; exact hnul⟩

/-- When `create_kv_pair` is only called with a key: some key is as long as
what is unfinished behind the pairs, or the call ends before.  The induction is
on the pairs of the message; `strings` are the keys that have been read. -/
theorem readsKey_feedTrace (size : Nat) (body : List UInt8) :
    ∀ {st : ParseKv} {before : List ParseStore} {strings : List CString},
    st.Ready → body.length ≤ maxMsgSize → st.list.length = maxMsgSize →
    (st.listIndex + body.count 0 / 2 < maxMsgSize ∨ size ≤ maxMsgSize) →
    (st.listIndex < size ∨ st.listIndex = 0) →
    keyWrites before = strings.flatMap (stringStores 0) →
    (ReadsKey before
        (Loop.feedTrace (parseByte size) byteStores pairStores st body) ↔
      (∃ s ∈ strings ++ (decodedPairs body).map KvPair.key,
        (unfinishedKey body).length ≤ strlen s) ∨
      2 ≤ body.count 0 ∧ size ≤ st.listIndex + body.count 0 / 2) := by
  induction body using decodedPairs.induct with
  | case2 body hnul =>
    intro st before strings hready hmax _ _ _ hkeys
    have hcount : body.count 0 = 0 := List.count_eq_zero_of_not_mem hnul
    rw [hready.feedTrace_end size hmax hnul,
      readsKey_append (slot_notMem_keyByteStores 0 body), readsKey_pair,
      KeyTerminated, keyWrites_append, keyWrites_keyByteStores, hkeys,
      holdsNul_iff strings hnul, decodedPairs_noNul hnul,
      unfinishedKey_noNul hnul, hcount, List.map_nil, List.append_nil]
    constructor
    · rintro ⟨hkey, _⟩
      exact Or.inl hkey
    · rintro (hkey | ⟨hpairs, _⟩)
      · exact ⟨hkey, readsKey_nil _⟩
      · exact absurd hpairs (by decide)
  | case1 body hnul ih =>
    intro st before strings hready hmax hlist hslots hsize hkeys
    have hlen := length_eq_of_nul hnul
    have hcount := count_afterNul hnul
    have hpairs : 0 < maxMsgSize := by decide
    obtain ⟨st', htrace, hvalue, hindex, hlist'⟩ :=
      hready.feedTrace_key size hmax hnul
    rw [htrace, readsKey_append (slot_notMem_keyByteStores 0 _)]
    -- The keys that have been read, with the one of this pair.
    have hkeys' := keyWrites_key hkeys (cstr body)
    generalize hbefore : before ++ keyByteStores 0 (mem (cstr body)) =
      before' at hkeys' ⊢
    have hread : ∀ v, KeyTerminated (before' ++ valueByteStores 0 v) :=
      fun v => keyTerminated_of_mem ((keyWrites_value before' v).trans hkeys')
        (List.mem_append_right _ List.mem_cons_self)
    by_cases hnul' : (0 : UInt8) ∈ afterNul body
    · have hcount' := count_afterNul hnul'
      have hle := length_afterNul_le (afterNul body)
      obtain ⟨rest, htrace', hend, hnext⟩ := hvalue.feedTrace_pair size
        (by omega) hnul' (by rw [hlist']; omega)
      rw [htrace', readsKey_append (slot_notMem_valueByteStores 0 _),
        readsKey_pair]
      by_cases hfull : size ≤ st'.listIndex + 1
      · rw [hend hfull]
        exact iff_of_true ⟨hread _, readsKey_nil _⟩
          (Or.inr ⟨by omega, by omega⟩)
      · obtain ⟨st'', hrest, hready'', hindex'', hlist''⟩ :=
          hnext (by omega)
        have hstored : keyWrites (before' ++
            valueByteStores 0 (cstr (afterNul body)).bytes ++
            [.value (strlen (cstr (afterNul body))) 0,
              .slot st'.listIndex]) = keyWrites before' :=
          (keyWrites_append _ _).trans
            ((List.append_nil _).trans (keyWrites_value before' _))
        have hiff := ih hready'' (by omega) (by rw [hlist'', hlist', hlist])
          (by omega) (by omega) (hstored.trans hkeys')
        rw [hrest, hiff, decodedPairs_nul hnul, unfinishedKey_nul hnul,
          List.map_cons, List.append_assoc strings, List.singleton_append]
        constructor
        · rintro ⟨_, hkey | ⟨htwo, hfills⟩⟩
          · exact Or.inl hkey
          · exact Or.inr ⟨by omega, by omega⟩
        · rintro (hkey | ⟨htwo, hfills⟩)
          · exact ⟨hread _, Or.inl hkey⟩
          · exact ⟨hread _, Or.inr ⟨by omega, by omega⟩⟩
    · -- The value is not terminated: nothing is behind the pair.
      have hnone : afterNul (afterNul body) = [] := afterNul_of_notMem hnul'
      rw [hvalue.feedTrace_end size (by omega) hnul',
        readsKey_append (slot_notMem_valueByteStores 0 _), readsKey_pair,
        unfinishedKey_nul hnul, hnone, unfinishedKey_noNul List.not_mem_nil,
        decodedPairs_nul hnul]
      refine iff_of_true ⟨hread _, readsKey_nil _⟩
        (Or.inl ⟨cstr body, ?_, Nat.zero_le _⟩)
      exact List.mem_append_right _ List.mem_cons_self

section

variable {key value inMsg body : List UInt8} {length : Int} {start : Nat}
  {kvList : KvList}

variable (key value kvList)

/-- One call is safe when its slots, or all that are announced, are there, and
a key of its message is as long as what is unfinished behind the pairs, or the
last announced pair is completed before. -/
theorem callSafe_iff (hbody : readBytes inMsg length.toNat = body)
    (hmax : body.length ≤ maxMsgSize)
    (hlist : kvList.list.length = maxMsgSize)
    (hstart : start < kvList.size ∨ start = 0) :
    CallSafe (callStores key value inMsg length start kvList) ↔
      ((∃ kv ∈ decodedPairs body,
          (unfinishedKey body).length ≤ strlen kv.key) ∨
        2 ≤ pairCount body ∧ kvList.size < start + pairCount body) ∧
      (start + pairCount body ≤ maxMsgSize ∨ kvList.size ≤ maxMsgSize) := by
  have hinit := kvParseInv_init key value body start kvList.size kvList.list
  have hcount : start + body.count 0 / 2 < maxMsgSize ↔
      start + pairCount body ≤ maxMsgSize := Nat.lt_iff_add_one_le
  have hreads : start + body.count 0 / 2 < maxMsgSize ∨
        kvList.size ≤ maxMsgSize →
      (ReadsKey [] (callStores key value inMsg length start kvList) ↔
        (∃ kv ∈ decodedPairs body,
          (unfinishedKey body).length ≤ strlen kv.key) ∨
        2 ≤ pairCount body ∧ kvList.size < start + pairCount body) := by
    intro hslots
    have hnone : keyWrites [] = ([] : List CString).flatMap (stringStores 0) :=
      rfl
    rw [callStores, hbody, readsKey_feedTrace kvList.size body ⟨rfl, rfl, rfl⟩
      hmax hlist hslots hstart hnone, List.nil_append, pairCount]
    simp only [List.mem_map, exists_exists_and_eq_and]
    constructor
    · exact Or.imp_right (fun h => by omega)
    · exact Or.imp_right (fun h => by omega)
  constructor
  · intro h
    have hinside := h.inside
    rw [callStores, hbody] at hinside
    have hslots := slots_of_inside hmax hlist body hinit hinside
    exact ⟨(hreads hslots).mp h.keyRead, hslots.imp_left hcount.mp⟩
  · rintro ⟨hkey, hslots⟩
    have hslots' := hslots.imp_left hcount.mpr
    refine { inside := ?_, keyRead := (hreads hslots').mpr hkey }
    rw [callStores, hbody]
    exact Loop.forall_feedTrace
      (KvParseInv start (start + body.count 0 / 2) body.length kvList.size
        kvList.list)
      (fun _ _ _ h => h.byteStores_inside hmax hslots' hstart)
      (fun _ h => h.pairStores_inside hmax hslots' hstart) body hinit

end

/-! ## The calls of a run -/

/-- A zero byte has arrived. -/
theorem recvAt_of_mem_bodyAt {receptions : List Reception} {i : Nat} {b : UInt8}
    (h : b ∈ bodyAt receptions i) :
    recvAt receptions i ≠ none ∧ i < receptions.length := by
  have hdata : recvAt receptions i ≠ none := by
    intro hnone
    rw [bodyAt, hnone, Option.getD_none, List.take_nil, List.drop_nil] at h
    exact List.not_mem_nil h
  refine ⟨hdata, ?_⟩
  by_contra hlarge
  rw [recvAt, List.getElem?_eq_none (by omega)] at hdata
  exact hdata rfl

/-- A key of message number `i` is as long as what is unfinished behind its
pairs, or the last announced pair is completed before. -/
def KeyHeld (n : Nat) (receptions : List Reception) (i : Nat) : Prop :=
  (∃ kv ∈ decodedPairs (bodyAt receptions i),
    (unfinishedKey (bodyAt receptions i)).length ≤ strlen kv.key) ∨
  2 ≤ pairCount (bodyAt receptions i) ∧ n < filledCount receptions i

/-- A message with a key has a zero byte. -/
theorem KeyHeld.nul {n i : Nat} {receptions : List Reception}
    (h : KeyHeld n receptions i) : (0 : UInt8) ∈ bodyAt receptions i := by
  rcases h with ⟨kv, hkv, _⟩ | ⟨htwo, _⟩
  · by_contra hnul
    rw [decodedPairs_noNul hnul] at hkv
    exact List.not_mem_nil hkv
  · rw [pairCount] at htwo
    exact List.count_pos_iff.mp (by omega)

/-- The call in front of the loop. -/
theorem firstCalls_safe (inMsg : List UInt8) (receptions : List Reception) :
    (∀ stores ∈ firstCalls inMsg receptions, CallSafe stores) ↔
      (recvAt receptions 0 ≠ none →
        KeyHeld (announced inMsg receptions) receptions 0 ∧
          SlotsFit (announced inMsg receptions) receptions 0) := by
  rw [firstCalls, announced]
  generalize hr : receptions.headD
    { datagram := none, key := [], value := [] } = r
  obtain ⟨hlen, hbody⟩ := firstRecv_spec inMsg hr
  simp only
  by_cases hnone : recvAt receptions 0 = none
  · rw [if_pos (hlen.mpr hnone)]
    exact ⟨fun _ hdata => absurd hnone hdata,
      fun _ stores h => absurd h List.not_mem_nil⟩
  · have hslots : (List.replicate maxMsgSize (none : Option KvPair)).length =
        maxMsgSize := List.length_replicate
    have hcall := callSafe_iff r.key r.value
      { size := parseNbrKvPair (r.into inMsg).1,
        list := List.replicate maxMsgSize none }
      hbody (length_bodyAt_le receptions 0) hslots (Or.inr rfl)
    rw [Nat.zero_add] at hcall
    rw [if_neg (fun h => hnone (hlen.mp h)), List.forall_mem_singleton, hcall]
    exact ⟨fun h _ => h, fun h => h hnone⟩

/-- The call of a pass of the loop. -/
theorem AfterRecv.passCalls_safe {n i : Nat} {receptions : List Reception}
    {st : DumpNodeState} (h : AfterRecv n receptions i st) :
    (∀ stores ∈ passCalls st, CallSafe stores) ↔
      (weightedCount receptions i < n →
        KeyHeld n receptions (i + 1) ∧ SlotsFit n receptions (i + 1)) := by
  rw [passCalls, h.parsed, h.size]
  generalize hr : st.receptions.headD
    { datagram := none, key := [], value := [] } = r
  obtain ⟨_, hbody⟩ := nextRecv_spec st.inMsg h.ahead hr
  by_cases hlt : weightedCount receptions i < n
  · have hstart : weightedCount receptions i < st.kvList.size ∨
        weightedCount receptions i = 0 := Or.inl (h.size ▸ hlt)
    have hcall := callSafe_iff r.key r.value st.kvList hbody
      (length_bodyAt_le receptions (i + 1)) h.slots hstart
    rw [h.size] at hcall
    rw [if_pos hlt, List.forall_mem_singleton, hcall]
    exact ⟨fun h _ => h, fun h => h hlt⟩
  · rw [if_neg hlt]
    exact ⟨fun _ hlt' => absurd hlt' hlt,
      fun _ stores h => absurd h List.not_mem_nil⟩

/-- A pass that goes on has found fewer pairs than announced. -/
theorem AfterRecv.next {n i : Nat} {receptions : List Reception}
    {st st' : DumpNodeState} (h : AfterRecv n receptions i st)
    (hst' : dumpNodeBody st = .again st') :
    weightedCount receptions i < n ∧ AfterRecv n receptions (i + 1) st' := by
  by_cases hlt : weightedCount receptions i < n
  · rcases h.step hlt with ⟨st'', hnext, h', _⟩ | ⟨hdone, _⟩ | ⟨fault, hdone, _⟩
    · cases hst'.symm.trans hnext
      exact ⟨hlt, h'⟩
    · cases hst'.symm.trans hdone
    · cases hst'.symm.trans hdone
  · cases hst'.symm.trans (h.last (Nat.le_of_not_lt hlt))

/-- After a safe call that leaves pairs to be found, the loop goes on. -/
theorem AfterRecv.again {n i : Nat} {receptions : List Reception}
    {st : DumpNodeState} (h : AfterRecv n receptions i st)
    (hkey : KeyHeld n receptions (i + 1))
    (hslots : SlotsFit n receptions (i + 1))
    (hlt : weightedCount receptions (i + 1) < n) :
    ∃ st', dumpNodeBody st = .again st' ∧
      AfterRecv n receptions (i + 1) st' := by
  have hprev := weightedCount_lt receptions (Nat.lt_succ_self i)
  have hfilled := filledCount_le receptions (i + 1)
  rcases h.step (hprev.trans hlt) with ⟨st', hnext, h', _⟩ | ⟨_, _, hstop⟩ |
    ⟨_, _, hmissing⟩
  · exact ⟨st', hnext, h'⟩
  · have hfit : filledCount receptions (i + 1) ≤ maxMsgSize := by
      rcases hslots with hfit | hn
      · exact hfit
      · exact hfilled.trans (hlt.le.trans hn)
    exact absurd ⟨hlt.le, hfit, Or.inl (recvAt_of_mem_bodyAt hkey.nul).1⟩ hstop
  · exact absurd hslots hmissing

/-- A state of the loop, behind messages that have not brought the announced
number of pairs. -/
def Awaits (inMsg : List UInt8) (receptions : List Reception)
    (st : DumpNodeState) : Prop :=
  ∃ i, AfterRecv (announced inMsg receptions) receptions i st ∧
    ∀ j < i, weightedCount receptions j < announced inMsg receptions

theorem Awaits.next {inMsg : List UInt8} {receptions : List Reception}
    (st st' : DumpNodeState) (h : Awaits inMsg receptions st)
    (hst' : dumpNodeBody st = .again st') : Awaits inMsg receptions st' := by
  obtain ⟨i, hi, hbefore⟩ := h
  obtain ⟨hlt, hnext⟩ := hi.next hst'
  refine ⟨i + 1, hnext, ?_⟩
  intro j hj
  rcases Nat.lt_succ_iff_lt_or_eq.mp hj with hj | rfl
  · exact hbefore j hj
  · exact hlt

/-- Where a run is when no message up to number `i` has brought the announced
number of pairs. -/
structure Reaches (inMsg : List UInt8) (receptions : List Reception) (i : Nat)
    (st : DumpNodeState) : Prop where
  after : AfterRecv (announced inMsg receptions) receptions i st
  calls : ∀ stores ∈ passCalls st, stores ∈ dumpNodeCalls inMsg receptions
  leads : ∃ start, dumpNodeStart inMsg receptions = some start ∧
    Loop.Leads dumpNodeBody i start st

/-- The calls of a state that the loop is led to are calls of the run. -/
theorem Reaches.ofLeads {inMsg : List UInt8} {receptions : List Reception}
    {i : Nat} {start st : DumpNodeState}
    (hafter : AfterRecv (announced inMsg receptions) receptions i st)
    (hstart : dumpNodeStart inMsg receptions = some start)
    (hleads : Loop.Leads dumpNodeBody i start st)
    (hi : i < receptions.length) : Reaches inMsg receptions i st := by
  refine { after := hafter, calls := ?_, leads := ⟨start, hstart, hleads⟩ }
  intro stores hstores
  have hfuel : receptions.length + 1 - i + i + 1 = receptions.length + 2 := by
    omega
  have hvisited := hleads.mem_visited (receptions.length + 1 - i)
  rw [hfuel] at hvisited
  rw [dumpNodeCalls, hstart]
  exact List.mem_append_right _
    (List.mem_flatMap.mpr ⟨st, hvisited, hstores⟩)

/-- A safe run takes one message after the other until it has found enough
pairs. -/
theorem reaches_of_safe {inMsg : List UInt8} {receptions : List Reception}
    (hsafe : DumpSafe inMsg receptions) (hdata : recvAt receptions 0 ≠ none) :
    ∀ i, weightedCount receptions i < announced inMsg receptions →
      ∃ st, Reaches inMsg receptions i st := by
  intro i
  induction i with
  | zero =>
    intro hlt
    obtain ⟨hkey, hslots⟩ := (firstCalls_safe inMsg receptions).mp
      (fun stores h => hsafe stores (List.mem_append_left _ h)) hdata
    have hcount : weightedCount receptions 0 ≤ maxMsgSize := by
      rcases hslots with hfilled | hn
      · exact hfilled
      · exact hlt.le.trans hn
    obtain ⟨start, hstart⟩ :=
      (dumpNodeStart_spec inMsg receptions).2 hdata hlt.le hcount
    have hafter := ((dumpNodeStart_spec inMsg receptions).1 start hstart).2
    exact ⟨start, .ofLeads hafter hstart rfl (recvAt_of_mem_bodyAt hkey.nul).2⟩
  | succ i ih =>
    intro hlt
    have hprev := weightedCount_lt receptions (Nat.lt_succ_self i)
    obtain ⟨st, hreaches⟩ := ih (hprev.trans hlt)
    obtain ⟨hkey, hslots⟩ := hreaches.after.passCalls_safe.mp
      (fun stores h => hsafe stores (hreaches.calls stores h))
      (hprev.trans hlt)
    obtain ⟨st', hnext, hafter⟩ := hreaches.after.again hkey hslots hlt
    obtain ⟨start, hstart, hleads⟩ := hreaches.leads
    have hone : Loop.Leads dumpNodeBody 1 st st' := ⟨st', hnext, rfl⟩
    exact ⟨st', .ofLeads hafter hstart (hone.trans hleads)
      (recvAt_of_mem_bodyAt hkey.nul).2⟩

/-- A run is safe when every message that it takes holds a key as long as what
is unfinished behind its pairs, or brings the last announced pair before, and
all slots that are filled, or announced, are there.  It takes messages until it
has found the announced number of pairs; after a timeout the message is
empty. -/
theorem dumpSafe_iff (inMsg : List UInt8) (receptions : List Reception) :
    DumpSafe inMsg receptions ↔
      (recvAt receptions 0 ≠ none →
        ∀ i, (∀ j < i, weightedCount receptions j <
            announced inMsg receptions) →
          KeyHeld (announced inMsg receptions) receptions i ∧
            SlotsFit (announced inMsg receptions) receptions i) := by
  constructor
  · intro hsafe hdata i hbefore
    cases i with
    | zero =>
      exact (firstCalls_safe inMsg receptions).mp
        (fun stores h => hsafe stores (List.mem_append_left _ h)) hdata
    | succ i =>
      have hlt := hbefore i (Nat.lt_succ_self i)
      obtain ⟨st, hreaches⟩ := reaches_of_safe hsafe hdata i hlt
      exact hreaches.after.passCalls_safe.mp
        (fun stores h => hsafe stores (hreaches.calls stores h)) hlt
  · intro hfits stores hstores
    rcases List.mem_append.mp hstores with hfirst | hloop
    · refine (firstCalls_safe inMsg receptions).mpr (fun hdata => ?_) stores
        hfirst
      exact hfits hdata 0 (fun j hj => absurd hj (Nat.not_lt_zero j))
    · cases hstart : dumpNodeStart inMsg receptions with
      | none =>
        rw [hstart] at hloop
        exact absurd hloop List.not_mem_nil
      | some start =>
        rw [hstart] at hloop
        obtain ⟨hdata, hafter⟩ :=
          (dumpNodeStart_spec inMsg receptions).1 start hstart
        obtain ⟨st, hvisited, hcall⟩ := List.mem_flatMap.mp hloop
        have hstarts : Awaits inMsg receptions start :=
          ⟨0, hafter, fun j hj => absurd hj (Nat.not_lt_zero j)⟩
        obtain ⟨i, hi, hbefore⟩ := Loop.visited_inv
          (Awaits inMsg receptions) Awaits.next hstarts st hvisited
        refine hi.passCalls_safe.mpr (fun hlt => ?_) stores hcall
        refine hfits hdata (i + 1) ?_
        intro j hj
        rcases Nat.lt_succ_iff_lt_or_eq.mp hj with hj | rfl
        · exact hbefore j hj
        · exact hlt

/-- A datagram that is a header and nothing else. -/
def headerOnly : List Reception :=
  [{ datagram := some (htonl 3), key := [], value := [] }]

/-- The pair that is stored for it has a key that was not read. -/
theorem dumpSafe_headerOnly :
    ¬ ∀ (inMsg : List UInt8) (receptions : List Reception),
      (∀ r ∈ receptions, ∀ datagram, r.datagram = some datagram →
        4 ≤ datagram.length ∧ datagram.length ≤ maxMsgSize) →
      DumpSafe inMsg receptions := by
  intro h
  have hsafe := h [] headerOnly (by
    intro r hr datagram hdatagram
    rw [List.mem_singleton.mp hr] at hdatagram
    cases hdatagram
    exact ⟨by decide, by decide⟩)
  have hfirst := (firstCalls_safe [] headerOnly).mp
    (fun stores hstores => hsafe stores (List.mem_append_left _ hstores))
    (by decide)
  exact absurd hfirst.1.nul (by decide)

end PpsDht
