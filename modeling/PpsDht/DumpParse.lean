import PpsDht.DumpNode

/-!
# What `parse_kv_pairs` does to any message

`parse_kv_pairs` does not check its input: every second zero byte ends a pair,
and one more pair is stored at the end of the message, whatever has been read.
So the number of pairs it stores depends only on the number of zero bytes,
`pairCount`, and the number it returns is an absolute index.

`KvParseInv` is the invariant of the automaton on a message, and
`parseKvPairs_spec` says what the whole call returns and which slots it leaves
alone.  `decodedPairs` are the pairs that are really in a message; a message has
`pairCount` of them exactly when its number of zero bytes is odd.
-/

namespace PpsDht

open CMem

/-! ## Counting pairs -/

/-- How many pairs `parse_kv_pairs` makes out of a message. -/
def pairCount (body : List UInt8) : Nat := body.count 0 / 2 + 1

/-- The state of the automaton with `ahead` still to read: the last pair goes
to slot `last`, and the slots outside those that have been filled are those of
`list`.  The indices of the buffers stay within `bound`, and every slot but the
first is below `size`, the announced number of pairs. -/
structure KvParseInv (start last bound size : Nat)
    (list : List (Option KvPair)) (st : ParseKv) (ahead : List UInt8) :
    Prop where
  key : st.parsingKey = true →
    st.keyIndex + ahead.length ≤ bound ∧ st.valueIndex = 0
  value : st.parsingKey = false →
    st.keyIndex = 0 ∧ st.valueIndex + ahead.length < bound
  last : st.listIndex +
    (ahead.count 0 + if st.parsingKey then 0 else 1) / 2 = last
  first : start ≤ st.listIndex
  slot : st.listIndex = start ∨ st.listIndex < size
  length : st.list.length = list.length
  frame : ∀ i, i < start ∨ st.listIndex ≤ i → st.list[i]? = list[i]?

/-- The result of the automaton when the last pair goes to slot `last`.  It is
`-1` only when all slots that are announced are there, and a fault only when one
that is to be filled is not. -/
structure KvParseResult (start last : Nat) (list : List (Option KvPair))
    (size : Nat) (r : Except Fault (Nat × List (Option KvPair))) : Prop where
  ok : last < list.length → last + 1 ≤ size → ∃ list', r = .ok (last + 1, list')
  any : ∀ n list', r = .ok (n, list') → n = sizeMax ∧ size ≤ list.length ∨
    n = last + 1 ∧ last < list.length ∧ list'.length = list.length ∧
      ∀ i, i < start ∨ last + 1 ≤ i → list'[i]? = list[i]?
  error : ∀ fault, r = .error fault → list.length ≤ last ∧
    (list.length ≤ start ∨ list.length < size)

theorem KvParseResult.ofError {start last size : Nat}
    {list : List (Option KvPair)} (fault : Fault) (h : list.length ≤ last)
    (hslot : list.length ≤ start ∨ list.length < size) :
    KvParseResult start last list size (.error fault) :=
  ⟨fun hlt => absurd hlt (Nat.not_lt_of_le h), fun _ _ hr => (by cases hr),
    fun _ _ => ⟨h, hslot⟩⟩

/-- Storing a pair: the slot must exist. -/
theorem storePair_eq {st : ParseKv} (hvalue : st.valueIndex < maxMsgSize) :
    storePair st =
      if st.listIndex < st.list.length then
        .ok { st with
          value := poke st.value st.valueIndex 0
          list := st.list.set st.listIndex (some (createKvPair (cstr st.key)
            (cstr (poke st.value st.valueIndex 0)))) }
      else .error .outOfBounds := by
  rw [storePair, storeAt, if_pos hvalue]

/-- One byte keeps the invariant, or ends the call. -/
theorem KvParseInv.step {start last bound size : Nat}
    {list : List (Option KvPair)} (hbound : bound ≤ maxMsgSize) {st : ParseKv}
    {b : UInt8} {ahead : List UInt8}
    (h : KvParseInv start last bound size list st (b :: ahead)) :
    (∃ st', parseByte size st b = .again st' ∧
      KvParseInv start last bound size list st' ahead) ∨
    ∃ r, parseByte size st b = .done r ∧
      KvParseResult start last list size r := by
  have hlen : (b :: ahead).length = ahead.length + 1 := rfl
  have hlast := h.last
  have hstart := h.first
  rw [List.count_cons] at hlast
  by_cases hkey : st.parsingKey = true
  · obtain ⟨hindex, hvalue⟩ := h.key hkey
    by_cases hb : b = 0
    · -- The key is complete.
      subst hb
      refine Or.inl ⟨_, parseByte_keyNul size hkey (by omega),
        ⟨?_, ?_, ?_, hstart, h.slot, h.length, h.frame⟩⟩
      · intro htrue
        cases htrue
      · intro _
        exact ⟨rfl, by simp only; omega⟩
      · simp only [hkey, beq_self_eq_true, if_true] at hlast
        simp only [Bool.false_eq_true, if_false]
        omega
    · refine Or.inl ⟨_, parseByte_keyByte size hkey hb (by omega),
        ⟨?_, ?_, ?_, hstart, h.slot, h.length, h.frame⟩⟩
      · intro _
        exact ⟨by simp only; omega, hvalue⟩
      · intro hfalse
        exact absurd (hfalse.symm.trans hkey) Bool.false_ne_true
      · simp only [beq_iff_eq, hb, if_false] at hlast
        exact hlast
  · have hfalse : st.parsingKey = false := by simpa using hkey
    obtain ⟨hindex, hvalue⟩ := h.value hfalse
    by_cases hb : b = 0
    · -- The pair is complete.
      subst hb
      simp only [hfalse, beq_self_eq_true, if_true, Bool.false_eq_true,
        if_false] at hlast
      have hlength := h.length
      have hstore := storePair_eq (show st.valueIndex < maxMsgSize by omega)
      by_cases hslot : st.listIndex < st.list.length
      · rw [if_pos hslot] at hstore
        rw [parseByte_valueNul size hfalse hstore]
        simp only
        by_cases hend : st.listIndex + 1 ≥ size
        · rw [if_pos hend]
          refine Or.inr ⟨_, rfl, fun _ _ => by omega, ?_, ?_⟩
          · intro n list' hr
            cases hr
            exact Or.inl ⟨rfl, by omega⟩
          · intro fault hr
            cases hr
        · rw [if_neg hend]
          refine Or.inl ⟨_, rfl, ⟨?_, ?_, ?_, ?_, ?_, ?_, ?_⟩⟩
          · intro _
            exact ⟨by simp only; omega, rfl⟩
          · intro hvalue
            cases hvalue
          · simp only [if_true]
            omega
          · simp only
            omega
          · exact Or.inr (Nat.lt_of_not_le hend)
          · rw [List.length_set]
            exact h.length
          · intro i hi
            simp only at hi
            rw [List.getElem?_set_ne (by omega)]
            exact h.frame i (by omega)
      · rw [if_neg hslot] at hstore
        have hwhere := h.slot
        exact Or.inr ⟨_, parseByte_valueNul_error size hfalse hstore,
          .ofError _ (by omega) (by omega)⟩
    · refine Or.inl ⟨_, parseByte_valueByte size hfalse hb (by omega),
        ⟨?_, ?_, ?_, hstart, h.slot, h.length, h.frame⟩⟩
      · intro htrue
        exact absurd htrue hkey
      · intro _
        exact ⟨hindex, by simp only; omega⟩
      · simp only [beq_iff_eq, hb, if_false] at hlast
        exact hlast

/-- The value index at the end of a message. -/
theorem KvParseInv.valueIndex_lt {start last bound size : Nat}
    {list : List (Option KvPair)} (hbound : bound ≤ maxMsgSize) {st : ParseKv}
    (h : KvParseInv start last bound size list st []) :
    st.valueIndex < maxMsgSize := by
  cases hkey : st.parsingKey with
  | true =>
    rw [(h.key hkey).2]
    decide
  | false =>
    have hlt := (h.value hkey).2
    rw [List.length_nil] at hlt
    omega

/-- The slot index at the end of a message. -/
theorem KvParseInv.listIndex_eq {start last bound size : Nat}
    {list : List (Option KvPair)} {st : ParseKv}
    (h : KvParseInv start last bound size list st []) :
    st.listIndex = last := by
  have hlast := h.last
  rw [List.count_nil] at hlast
  split at hlast <;> omega

/-- The end of the message stores one more pair. -/
theorem KvParseInv.stop {start last bound size : Nat}
    {list : List (Option KvPair)} (hbound : bound ≤ maxMsgSize) {st : ParseKv}
    (h : KvParseInv start last bound size list st []) :
    KvParseResult start last list size (parseEnd st) := by
  have hvalue := h.valueIndex_lt hbound
  have hindex := h.listIndex_eq
  have hlength := h.length
  have hstart := h.first
  have hwhere := h.slot
  rw [parseEnd, storePair_eq hvalue]
  by_cases hslot : st.listIndex < st.list.length
  · rw [if_pos hslot]
    simp only
    constructor
    · intro _ _
      rw [hindex]
      exact ⟨_, rfl⟩
    · intro n list' hr
      cases hr
      refine Or.inr ⟨by rw [hindex], by omega, ?_, ?_⟩
      · rw [List.length_set]
        exact h.length
      · intro i hi
        rw [List.getElem?_set_ne (by omega)]
        exact h.frame i (by omega)
    · intro fault hr
      cases hr
  · rw [if_neg hslot]
    exact .ofError _ (by omega) (by omega)

/-- The invariant holds in front of a message. -/
theorem kvParseInv_init (key value body : List UInt8) (start size : Nat)
    (list : List (Option KvPair)) :
    KvParseInv start (start + body.count 0 / 2) body.length size list
      { key := key, keyIndex := 0, value := value, valueIndex := 0,
        listIndex := start, parsingKey := true, list := list } body :=
  ⟨fun _ => ⟨by rw [Nat.zero_add], rfl⟩, fun h => (by cases h), rfl,
    Nat.le_refl _, Or.inl rfl, rfl, fun _ _ => rfl⟩

/-- `parse_kv_pairs` on a message of at most `MAX_MSG_SIZE` bytes.  With slots
enough it returns the starting index and the number of pairs; and whenever it
returns a number other than `-1`, it is that one, and the slots outside these
pairs are as before.  It has a fault only when slots are missing. -/
theorem parseKvPairs_spec (key value inMsg : List UInt8) (length : Int)
    (start : Nat) (kvList : KvList) {body : List UInt8}
    (hbody : readBytes inMsg length.toNat = body)
    (hmax : body.length ≤ maxMsgSize) :
    (start + pairCount body ≤ kvList.list.length →
      start + pairCount body ≤ kvList.size →
      ∃ list, parseKvPairs key value inMsg length start kvList =
        .ok (start + pairCount body, { kvList with list := list })) ∧
    (∀ n kvList', parseKvPairs key value inMsg length start kvList =
      .ok (n, kvList') → kvList'.size = kvList.size ∧
      (n = sizeMax ∧ kvList.size ≤ kvList.list.length ∨
        n = start + pairCount body ∧
          start + pairCount body ≤ kvList.list.length ∧
          kvList'.list.length = kvList.list.length ∧
          ∀ i, i < start ∨ start + pairCount body ≤ i →
            kvList'.list[i]? = kvList.list[i]?)) ∧
    ∀ fault, parseKvPairs key value inMsg length start kvList = .error fault →
      kvList.list.length < start + pairCount body ∧
        (kvList.list.length ≤ start ∨ kvList.list.length < kvList.size) := by
  have hinit := kvParseInv_init key value body start kvList.size kvList.list
  have hresult : KvParseResult start (start + body.count 0 / 2) kvList.list
      kvList.size (Loop.feed (parseByte kvList.size) parseEnd
        { key := key, keyIndex := 0, value := value, valueIndex := 0,
          listIndex := start, parsingKey := true, list := kvList.list }
        body) :=
    Loop.feed_inv
      (KvParseInv start (start + body.count 0 / 2) body.length kvList.size
        kvList.list)
      (fun _ _ _ h => h.step hmax) (fun _ h => h.stop hmax) body hinit
  have hcount : start + pairCount body = start + body.count 0 / 2 + 1 := rfl
  rw [parseKvPairs, hbody, hcount]
  refine ⟨?_, ?_, ?_⟩
  · intro hslots hsize
    obtain ⟨list, hr⟩ := hresult.ok hslots hsize
    exact ⟨list, by rw [hr]; rfl⟩
  · intro n kvList' h
    cases hfeed : Loop.feed (parseByte kvList.size) parseEnd
        { key := key, keyIndex := 0, value := value, valueIndex := 0,
          listIndex := start, parsingKey := true, list := kvList.list }
        body with
    | error fault =>
      rw [hfeed] at h
      cases h
    | ok r =>
      rw [hfeed] at h
      cases h
      refine ⟨rfl, ?_⟩
      exact hresult.any r.1 r.2 hfeed
  · intro fault h
    cases hfeed : Loop.feed (parseByte kvList.size) parseEnd
        { key := key, keyIndex := 0, value := value, valueIndex := 0,
          listIndex := start, parsingKey := true, list := kvList.list }
        body with
    | error fault' =>
      obtain ⟨hlast, hslot⟩ := hresult.error fault' hfeed
      exact ⟨by omega, hslot⟩
    | ok r =>
      rw [hfeed] at h
      cases h

/-! ## The pairs in a message -/

/-- The pairs in a message: strings, taken two by two.  A string that is left
over at the end is not part of a pair. -/
def decodedPairs (body : List UInt8) : List KvPair :=
  if _h : (0 : UInt8) ∈ body then
    { key := cstr body, value := cstr (afterNul body) } ::
      decodedPairs (afterNul (afterNul body))
  else []
termination_by body.length
decreasing_by
  have hlen := length_eq_of_nul _h
  have hle := length_afterNul_le (afterNul body)
  omega

theorem decodedPairs_nul {body : List UInt8} (h : (0 : UInt8) ∈ body) :
    decodedPairs body =
      { key := cstr body, value := cstr (afterNul body) } ::
        decodedPairs (afterNul (afterNul body)) := by
  rw [decodedPairs, dif_pos h]

theorem decodedPairs_noNul {body : List UInt8} (h : (0 : UInt8) ∉ body) :
    decodedPairs body = [] := by
  rw [decodedPairs, dif_neg h]

/-- The number of pairs in a message. -/
theorem length_decodedPairs (body : List UInt8) :
    (decodedPairs body).length = (body.count 0 + 1) / 2 := by
  induction body using decodedPairs.induct with
  | case1 body h ih =>
    have hcount := count_afterNul h
    rw [decodedPairs_nul h, List.length_cons, ih]
    by_cases h' : (0 : UInt8) ∈ afterNul body
    · have hcount' := count_afterNul h'
      omega
    · have hzero := List.count_eq_zero_of_not_mem h'
      rw [afterNul_of_notMem h', List.count_nil]
      omega
  | case2 body h =>
    have hzero := List.count_eq_zero_of_not_mem h
    rw [decodedPairs_noNul h, hzero]
    rfl

/-- A message with an odd number of zero bytes is a run of pairs. -/
theorem joined_decodedPairs (body : List UInt8) (hodd : body.count 0 % 2 = 1) :
    joined (decodedPairs body) = body ∧ decodedPairs body ≠ [] := by
  induction body using decodedPairs.induct with
  | case1 body h ih =>
    have hcount := count_afterNul h
    rw [decodedPairs, dif_pos h]
    refine ⟨?_, List.cons_ne_nil _ _⟩
    by_cases h' : (0 : UInt8) ∈ afterNul body
    · have hcount' := count_afterNul h'
      obtain ⟨hrest, hne⟩ := ih (by omega)
      rw [joined_cons _ hne, hrest, pairBytes, List.append_assoc,
        List.cons_append, ← eq_append_afterNul h', ← eq_append_afterNul h]
    · have hnone : decodedPairs (afterNul (afterNul body)) = [] := by
        rw [afterNul_of_notMem h', decodedPairs_noNul List.not_mem_nil]
      rw [hnone, joined, List.flatMap_nil, List.append_nil, pairBytes,
        bytes_cstr h', ← eq_append_afterNul h]
  | case2 body h =>
    rw [List.count_eq_zero_of_not_mem h] at hodd
    exact absurd hodd (by decide)

/-- A run of pairs is counted right. -/
theorem pairCount_joined {run : List KvPair} (h : run ≠ []) :
    pairCount (joined run) = run.length := by
  have hpair : ∀ kv : KvPair, (pairBytes kv).count 0 = 1 := by
    intro kv
    rw [pairBytes, List.count_append, List.count_cons_self,
      List.count_eq_zero_of_not_mem kv.key.noNul,
      List.count_eq_zero_of_not_mem kv.value.noNul]
  have hcount : ∀ run : List KvPair, run ≠ [] →
      (joined run).count 0 + 1 = 2 * run.length := by
    intro run
    induction run with
    | nil => exact fun h => absurd rfl h
    | cons kv run ih =>
      intro _
      by_cases hrun : run = []
      · rw [hrun, joined, List.flatMap_nil, List.append_nil, hpair]
        rfl
      · have hrest := ih hrun
        rw [joined_cons kv hrun, List.count_append, List.count_cons_self,
          hpair, List.length_cons]
        omega
  have hrun := hcount run h
  rw [pairCount]
  omega

end PpsDht
