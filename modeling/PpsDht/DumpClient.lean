import PpsDht.DumpParse

/-!
# The dump client on any sequence of datagrams

`main` of `pps-dump-node.c` adds up the numbers that `parse_kv_pairs` returns.
The number for a first datagram is that of its pairs, but every later one is the
index behind the last slot that has been filled.  So `parsed_kv_pairs` doubles
with every `recv` before the pairs of the datagram are added to it,
`weightedCount`, and the slots that it counts twice stay empty.

`AfterRecv` is the invariant of the receive loop, `dumpNode_prints` says when
`main` prints a list, `dumpNode_ok_iff` when it stays within the slots, and
`none_mem_take` that a list from more than one `recv` has an empty slot.  It follows that no dump of several datagrams is printed,
`dumpNode_runs`, and when the listing can be trusted, `dumpSound_iff`.
-/

namespace PpsDht

open CMem

/-! ## What arrives -/

/-- What `recv` number `i` gives; `none` is a timeout. -/
def recvAt (receptions : List Reception) (i : Nat) : Option (List UInt8) :=
  (receptions[i]?).bind Reception.datagram

/-- The bytes that the parser reads after `recv` number `i`: the datagram, the
first one without its header, and nothing after a timeout. -/
def bodyAt (receptions : List Reception) (i : Nat) : List UInt8 :=
  (((recvAt receptions i).getD []).take maxMsgSize).drop
    (if i = 0 then 4 else 0)

/-- The number of pairs that the first datagram announces: the first four bytes
of the buffer that it is received into. -/
def announced (inMsg : List UInt8) (receptions : List Reception) : Nat :=
  parseNbrKvPair ((receptions.headD
    { datagram := none, key := [], value := [] }).into inMsg).1

/-- The sum of the pair counts of the messages up to number `i`, where each
later message doubles what is there. -/
def weightedCount (receptions : List Reception) : Nat → Nat
  | 0 => pairCount (bodyAt receptions 0)
  | i + 1 => 2 * weightedCount receptions i +
      pairCount (bodyAt receptions (i + 1))

/-- The slots below this one can be filled after `recv` number `i`. -/
def filledCount (receptions : List Reception) : Nat → Nat
  | 0 => pairCount (bodyAt receptions 0)
  | i + 1 => weightedCount receptions i +
      pairCount (bodyAt receptions (i + 1))

theorem pairCount_pos (body : List UInt8) : 1 ≤ pairCount body :=
  Nat.le_add_left 1 _

theorem weightedCount_pos (receptions : List Reception) :
    ∀ i, 1 ≤ weightedCount receptions i
  | 0 => pairCount_pos _
  | i + 1 => by
    have h := pairCount_pos (bodyAt receptions (i + 1))
    rw [weightedCount]
    omega

theorem weightedCount_lt (receptions : List Reception) {i k : Nat}
    (h : i < k) : weightedCount receptions i < weightedCount receptions k := by
  induction k with
  | zero => exact absurd h (Nat.not_lt_zero i)
  | succ k ih =>
    have hpos := pairCount_pos (bodyAt receptions (k + 1))
    rw [weightedCount]
    by_cases hik : i < k
    · have hlt := ih hik
      omega
    · have heq : i = k := by omega
      rw [heq]
      omega

/-- The buffer and the length behind a `recv`. -/
theorem into_spec (r : Reception) (inMsg : List UInt8) :
    ((r.into inMsg).2 = -1 ↔ r.datagram = none) ∧
      readBytes (r.into inMsg).1 (r.into inMsg).2.toNat =
        (r.datagram.getD []).take maxMsgSize ∧
      readBytes ((r.into inMsg).1.drop 4) ((r.into inMsg).2 - 4).toNat =
        ((r.datagram.getD []).take maxMsgSize).drop 4 := by
  rw [Reception.into]
  cases r.datagram with
  | none => exact ⟨⟨fun _ => rfl, fun _ => rfl⟩, rfl, rfl⟩
  | some datagram =>
    simp only [Option.getD_some]
    generalize datagram.take maxMsgSize = stored
    refine ⟨⟨fun h => by omega, fun h => by cases h⟩, ?_, ?_⟩
    · rw [Int.toNat_natCast, readBytes_append]
    · have hlen : ((stored.length : Int) - 4).toNat =
          (stored.drop 4).length := by
        rw [List.length_drop]
        omega
      rw [hlen]
      by_cases h4 : 4 ≤ stored.length
      · rw [List.drop_append_of_le_length h4, readBytes_append]
      · rw [List.drop_eq_nil_of_le (by omega : stored.length ≤ 4)]
        rfl

theorem length_bodyAt_le (receptions : List Reception) (i : Nat) :
    (bodyAt receptions i).length ≤ maxMsgSize := by
  rw [bodyAt, List.length_drop, List.length_take]
  omega

/-- The pairs of a first datagram fit into the slots. -/
theorem filledCount_zero_le (receptions : List Reception) :
    filledCount receptions 0 ≤ maxMsgSize := by
  have hmax : maxMsgSize / 2 + 1 ≤ maxMsgSize := by decide
  have hcount := List.count_le_length (a := (0 : UInt8))
    (l := bodyAt receptions 0)
  have hlen := length_bodyAt_le receptions 0
  rw [filledCount, pairCount]
  omega

theorem datagram_headD_drop (receptions : List Reception) (i : Nat) :
    ((receptions.drop i).headD
      { datagram := none, key := [], value := [] }).datagram =
      recvAt receptions i := by
  rw [recvAt, ← List.head?_drop]
  cases receptions.drop i <;> rfl

/-- The `recv` in front of the loop; its message starts behind the header. -/
theorem firstRecv_spec (inMsg : List UInt8) {receptions : List Reception}
    {r : Reception}
    (hr : receptions.headD { datagram := none, key := [], value := [] } = r) :
    ((r.into inMsg).2 = -1 ↔ recvAt receptions 0 = none) ∧
      readBytes ((r.into inMsg).1.drop 4) ((r.into inMsg).2 - 4).toNat =
        bodyAt receptions 0 := by
  have hdatagram := datagram_headD_drop receptions 0
  rw [List.drop_zero, hr] at hdatagram
  obtain ⟨hlen, _, hbytes⟩ := into_spec r inMsg
  rw [hdatagram] at hlen hbytes
  exact ⟨hlen, by rw [hbytes, bodyAt, if_pos rfl]⟩

/-- The `recv` of a pass of the loop. -/
theorem nextRecv_spec (inMsg : List UInt8) {receptions ahead : List Reception}
    {i : Nat} (hahead : ahead = receptions.drop (i + 1)) {r : Reception}
    (hr : ahead.headD { datagram := none, key := [], value := [] } = r) :
    ((r.into inMsg).2 = -1 ↔ recvAt receptions (i + 1) = none) ∧
      readBytes (r.into inMsg).1 (r.into inMsg).2.toNat =
        bodyAt receptions (i + 1) := by
  have hdatagram := datagram_headD_drop receptions (i + 1)
  rw [← hahead, hr] at hdatagram
  obtain ⟨hlen, hbytes, _⟩ := into_spec r inMsg
  rw [hdatagram] at hlen hbytes
  refine ⟨hlen, ?_⟩
  rw [hbytes, bodyAt, if_neg (Nat.succ_ne_zero i), List.drop_zero]

/-! ## The receive loop -/

/-- The state of the loop after `recv` number `i`. -/
structure AfterRecv (n : Nat) (receptions : List Reception) (i : Nat)
    (st : DumpNodeState) : Prop where
  parsed : st.parsed = weightedCount receptions i
  size : st.kvList.size = n
  ahead : st.receptions = receptions.drop (i + 1)
  slots : st.kvList.list.length = maxMsgSize
  free : ∀ j, filledCount receptions i ≤ j →
    st.kvList.list[j]? = (List.replicate maxMsgSize none)[j]?

/-- The pass that takes `recv` number `i` does not stop the loop. -/
def GoesOn (n : Nat) (receptions : List Reception) (i : Nat) : Prop :=
  recvAt receptions i ≠ none ∨ weightedCount receptions i = n

theorem filledCount_le (receptions : List Reception) :
    ∀ i, filledCount receptions i ≤ weightedCount receptions i
  | 0 => Nat.le_refl _
  | i + 1 => by
    rw [filledCount, weightedCount]
    omega

/-- The slots that `recv` number `i` fills are there, or all that are
announced. -/
def SlotsFit (n : Nat) (receptions : List Reception) (i : Nat) : Prop :=
  filledCount receptions i ≤ maxMsgSize ∨ n ≤ maxMsgSize

/-- A pass that finds fewer pairs than announced goes on, makes `main` fail, or
stores behind the slots. -/
theorem AfterRecv.step {n i : Nat} {receptions : List Reception}
    {st : DumpNodeState} (h : AfterRecv n receptions i st)
    (hlt : weightedCount receptions i < n) :
    (∃ st', dumpNodeBody st = .again st' ∧
      AfterRecv n receptions (i + 1) st' ∧ GoesOn n receptions (i + 1) ∧
      SlotsFit n receptions (i + 1)) ∨
    (dumpNodeBody st = .done (.ok none) ∧ SlotsFit n receptions (i + 1) ∧
      ¬ (weightedCount receptions (i + 1) ≤ n ∧
        filledCount receptions (i + 1) ≤ maxMsgSize ∧
        GoesOn n receptions (i + 1))) ∨
    ∃ fault, dumpNodeBody st = .done (.error fault) ∧
      ¬ SlotsFit n receptions (i + 1) := by
  have hmax : maxMsgSize < 2 ^ 31 := by decide
  have hsizeMax : sizeMax = 2 ^ 64 - 1 := rfl
  have htail : st.receptions.tail = receptions.drop (i + 1 + 1) := by
    rw [h.ahead, List.tail_drop]
  generalize hr : st.receptions.headD
    { datagram := none, key := [], value := [] } = r
  obtain ⟨hlen, hbody⟩ := nextRecv_spec st.inMsg h.ahead hr
  have hweighted : weightedCount receptions (i + 1) =
      2 * weightedCount receptions i +
        pairCount (bodyAt receptions (i + 1)) := rfl
  have hcount : filledCount receptions (i + 1) =
      weightedCount receptions i + pairCount (bodyAt receptions (i + 1)) := rfl
  have hprev := filledCount_le receptions i
  obtain ⟨hexists, hany, hfault⟩ := parseKvPairs_spec r.key r.value
    (r.into st.inMsg).1 (r.into st.inMsg).2 st.parsed st.kvList hbody
    (length_bodyAt_le receptions (i + 1))
  rw [h.parsed, h.slots, h.size, ← hcount] at hexists
  rw [h.parsed, h.slots, h.size] at hany hfault
  have hif : st.parsed < st.kvList.size := by
    rw [h.parsed, h.size]
    exact hlt
  rw [dumpNodeBody, if_pos hif, hr]
  simp only
  rw [h.parsed]
  cases hparse : parseKvPairs r.key r.value (r.into st.inMsg).1
      (r.into st.inMsg).2 (weightedCount receptions i) st.kvList with
  | error fault =>
    obtain ⟨hfilled, hslots⟩ := hfault fault hparse
    refine Or.inr (Or.inr ⟨fault, rfl, ?_⟩)
    rintro (hfit | hfit) <;> omega
  | ok result =>
    obtain ⟨more, kvList⟩ := result
    obtain ⟨hsize, hmore⟩ := hany more kvList hparse
    simp only
    by_cases hsm : more = sizeMax
    · -- The last announced slot was filled in front of the end.
      rw [if_pos hsm]
      have hn : n ≤ maxMsgSize := by
        rcases hmore with hmore | hmore
        · exact hmore.2
        · omega
      refine Or.inr (Or.inl ⟨rfl, Or.inr hn, ?_⟩)
      rintro ⟨hle, hfilled, _⟩
      obtain ⟨list, hok⟩ := hexists hfilled (by omega)
      have heq := congrArg Prod.fst (Except.ok.inj (hparse.symm.trans hok))
      simp only at heq
      omega
    · obtain ⟨hmore, hslots, hlength, hframe⟩ :=
        hmore.resolve_left (fun h => hsm h.1)
      have hfit : SlotsFit n receptions (i + 1) := Or.inl hslots
      have hsum : (weightedCount receptions i + more) % 2 ^ 64 =
          weightedCount receptions (i + 1) := by
        rw [Nat.mod_eq_of_lt (by omega)]
        omega
      rw [if_neg hsm, hsum, hsize]
      by_cases hfail : (r.into st.inMsg).2 = -1 ∧
          weightedCount receptions (i + 1) ≠ n
      · rw [if_pos hfail]
        refine Or.inr (Or.inl ⟨rfl, hfit, ?_⟩)
        rintro ⟨_, _, hdata | hend⟩
        · exact hdata (hlen.mp hfail.1)
        · exact hfail.2 hend
      · rw [if_neg hfail]
        refine Or.inl ⟨_, rfl, ⟨rfl, hsize, htail, hlength, ?_⟩, ?_, hfit⟩
        · intro j hj
          exact (hframe j (by omega)).trans (h.free j (by omega))
        · rw [GoesOn]
          by_contra hstop
          rw [not_or, not_not] at hstop
          exact hfail ⟨hlen.mpr hstop.1, hstop.2⟩

/-- A pass that finds the announced number of pairs, or more. -/
theorem AfterRecv.last {n i : Nat} {receptions : List Reception}
    {st : DumpNodeState} (h : AfterRecv n receptions i st)
    (hle : n ≤ weightedCount receptions i) :
    dumpNodeBody st = .done (
      if weightedCount receptions i ≠ n then .ok none
      else if n ≤ maxMsgSize then .ok (some (st.kvList.list.take n))
      else .error .outOfBounds) := by
  rw [dumpNodeBody, h.parsed, h.size, if_neg (by omega)]
  split
  · rfl
  · rw [printKvPairList, h.size, h.slots]

/-- The counts meet at `recv` number `k`, and no timeout comes before. -/
structure Meets (n : Nat) (receptions : List Reception) (i k : Nat) :
    Prop where
  le : i ≤ k
  count : weightedCount receptions k = n
  arrived : ∀ j, i < j → j < k → recvAt receptions j ≠ none
  fits : n ≤ maxMsgSize

/-- The loop prints when the counts meet. -/
theorem AfterRecv.run_of_meets {n k : Nat} {receptions : List Reception} :
    ∀ {fuel i : Nat} {st : DumpNodeState}, AfterRecv n receptions i st →
      Meets n receptions i k → k - i < fuel →
      ∃ printed, Loop.run dumpNodeBody fuel st = some (.ok (some printed)) := by
  intro fuel
  induction fuel with
  | zero =>
    intro i st _ _ hfuel
    exact absurd hfuel (Nat.not_lt_zero _)
  | succ fuel ih =>
    intro i st h hmeets hfuel
    have hle := hmeets.le
    have hcount := hmeets.count
    by_cases hik : i = k
    · subst hik
      have hbody := h.last (Nat.le_of_eq hcount.symm)
      rw [if_neg (not_not.mpr hcount), if_pos hmeets.fits] at hbody
      exact ⟨_, Loop.run_succ_done fuel hbody⟩
    · have hlt := weightedCount_lt receptions (show i < k by omega)
      rcases h.step (by omega) with ⟨st', hbody, h', _⟩ | ⟨_, _, hstop⟩ |
        ⟨_, _, hslots⟩
      · obtain ⟨printed, hrun⟩ := ih h'
          ⟨by omega, hcount, fun j hj => hmeets.arrived j (by omega),
            hmeets.fits⟩ (by omega)
        exact ⟨printed, (Loop.run_succ_again fuel hbody).trans hrun⟩
      · have hle' : weightedCount receptions (i + 1) ≤ n := by
          by_cases hk : i + 1 = k
          · rw [hk, hcount]
          · have hlt' := weightedCount_lt receptions (show i + 1 < k by omega)
            omega
        refine absurd ⟨hle', ?_, ?_⟩ hstop
        · exact (filledCount_le receptions (i + 1)).trans
            (hle'.trans hmeets.fits)
        · by_cases hk : i + 1 = k
          · exact Or.inr (hk ▸ hcount)
          · exact Or.inl (hmeets.arrived (i + 1) (by omega) (by omega))
      · exact absurd (Or.inr hmeets.fits) hslots

/-- The loop prints only when the counts meet. -/
theorem AfterRecv.meets_of_run {n : Nat} {receptions : List Reception}
    {printed : List (Option KvPair)} :
    ∀ {fuel i : Nat} {st : DumpNodeState}, AfterRecv n receptions i st →
      Loop.run dumpNodeBody fuel st = some (.ok (some printed)) →
      ∃ k st', Meets n receptions i k ∧ AfterRecv n receptions k st' ∧
        printed = st'.kvList.list.take n ∧
        i + Loop.passes dumpNodeBody fuel st = k := by
  intro fuel
  induction fuel with
  | zero =>
    intro i st _ hrun
    rw [Loop.run_zero] at hrun
    cases hrun
  | succ fuel ih =>
    intro i st h hrun
    by_cases hlt : weightedCount receptions i < n
    · rcases h.step hlt with ⟨st', hbody, h', hgo, _⟩ | ⟨hbody, _⟩ |
        ⟨fault, hbody, _⟩
      · rw [Loop.run_succ_again fuel hbody] at hrun
        obtain ⟨k, st'', hmeets, hafter, hprinted, hpasses⟩ := ih h' hrun
        have hle := hmeets.le
        refine ⟨k, st'', ⟨by omega, hmeets.count, ?_, hmeets.fits⟩, hafter,
          hprinted, ?_⟩
        · intro j hij hjk
          by_cases hj : j = i + 1
          · subst hj
            rcases hgo with hdata | hend
            · exact hdata
            · -- The counts meet once.
              have hlt' := weightedCount_lt receptions hjk
              have hcount := hmeets.count
              omega
          · exact hmeets.arrived j (by omega) hjk
        · rw [Loop.passes_succ_again fuel hbody]
          omega
      · rw [Loop.run_succ_done fuel hbody] at hrun
        cases hrun
      · rw [Loop.run_succ_done fuel hbody] at hrun
        cases hrun
    · have hbody := h.last (Nat.le_of_not_lt hlt)
      rw [Loop.run_succ_done fuel hbody, Option.some.injEq] at hrun
      split_ifs at hrun with hne hfits
      · cases hrun
      · cases hrun
        exact ⟨i, st, ⟨Nat.le_refl i, not_not.mp hne, fun j hj hji => by omega,
          hfits⟩, h, rfl, by rw [Loop.passes_succ_done fuel hbody]; rfl⟩

/-! ## The listing -/

/-- The state in which `main` starts its loop, when it gets there. -/
def dumpNodeStart (inMsg : List UInt8) (receptions : List Reception) :
    Option DumpNodeState :=
  let r := receptions.headD { datagram := none, key := [], value := [] }
  let (inMsg, inMsgLen) := r.into inMsg
  if inMsgLen = -1 then none
  else
    match parseKvPairs r.key r.value (inMsg.drop 4) (inMsgLen - 4) 0
        { size := parseNbrKvPair inMsg,
          list := List.replicate maxMsgSize none } with
    | .error _ => none
    | .ok (parsed, kvList) =>
      if int32 parsed = -1 then none
      else some { parsed := parsed, inMsg := inMsg, kvList := kvList,
                  receptions := receptions.tail }

/-- The number of `recv` calls of a `main` that prints its list: one before the
loop, and one in every pass but the last. -/
def recvCalls (inMsg : List UInt8) (receptions : List Reception) : Nat :=
  match dumpNodeStart inMsg receptions with
  | none => 1
  | some st => Loop.passes dumpNodeBody (receptions.length + 2) st + 1

/-- `main` goes on with its loop. -/
theorem dumpNode_of_start {inMsg : List UInt8} {receptions : List Reception}
    {st : DumpNodeState} (h : dumpNodeStart inMsg receptions = some st) :
    dumpNode inMsg receptions =
      runLoop dumpNodeBody (receptions.length + 2) st := by
  rw [dumpNodeStart] at h
  rw [dumpNode]
  simp only at h ⊢
  split_ifs at h ⊢
  cases hparse : parseKvPairs _ _ _ _ _ _ with
  | error fault =>
    rw [hparse] at h
    cases h
  | ok result =>
    rw [hparse] at h
    simp only at h ⊢
    split_ifs at h ⊢
    cases h
    rfl

/-- `main` fails before its loop: the slots of a first datagram are there. -/
theorem dumpNode_of_noStart {inMsg : List UInt8} {receptions : List Reception}
    (h : dumpNodeStart inMsg receptions = none) :
    dumpNode inMsg receptions = .ok none := by
  rw [dumpNodeStart] at h
  rw [dumpNode]
  generalize hr : receptions.headD
    { datagram := none, key := [], value := [] } = r at h ⊢
  obtain ⟨_, hbody⟩ := firstRecv_spec inMsg hr
  simp only at h ⊢
  split_ifs at h ⊢
  · rfl
  · cases hparse : parseKvPairs r.key r.value ((r.into inMsg).1.drop 4)
        ((r.into inMsg).2 - 4) 0
        { size := parseNbrKvPair (r.into inMsg).1,
          list := List.replicate maxMsgSize none } with
    | error fault =>
      have hfew := ((parseKvPairs_spec _ _ _ _ _ _ hbody
        (length_bodyAt_le receptions 0)).2.2 fault hparse).1
      rw [List.length_replicate, Nat.zero_add] at hfew
      exact absurd (filledCount_zero_le receptions) (Nat.not_le_of_lt hfew)
    | ok result =>
      rw [hparse] at h
      simp only at h ⊢
      split_ifs at h ⊢
      rfl

/-- `main` prints when it gets to its loop and the loop prints. -/
theorem dumpNode_start (inMsg : List UInt8) (receptions : List Reception)
    (printed : List (Option KvPair)) :
    dumpNode inMsg receptions = .ok (some printed) ↔
      ∃ st, dumpNodeStart inMsg receptions = some st ∧
        Loop.run dumpNodeBody (receptions.length + 2) st =
          some (.ok (some printed)) := by
  cases hstart : dumpNodeStart inMsg receptions with
  | none =>
    rw [dumpNode_of_noStart hstart]
    constructor
    · intro h
      cases h
    · rintro ⟨st, hst, _⟩
      cases hst
  | some st =>
    rw [dumpNode_of_start hstart]
    constructor
    · intro h
      exact ⟨st, rfl, run_of_runLoop_ok h⟩
    · rintro ⟨_, hst, hrun⟩
      cases hst
      exact runLoop_of_run hrun

/-- The first `recv` makes the invariant true; with slots and pairs enough
announced, `main` gets to its loop. -/
theorem dumpNodeStart_spec (inMsg : List UInt8)
    (receptions : List Reception) :
    (∀ st, dumpNodeStart inMsg receptions = some st →
      recvAt receptions 0 ≠ none ∧
        AfterRecv (announced inMsg receptions) receptions 0 st) ∧
    (recvAt receptions 0 ≠ none →
      weightedCount receptions 0 ≤ announced inMsg receptions →
      weightedCount receptions 0 ≤ maxMsgSize →
      ∃ st, dumpNodeStart inMsg receptions = some st) := by
  have hmax : maxMsgSize < 2 ^ 31 := by decide
  have hsizeMax : int32 sizeMax = -1 := by decide
  rw [dumpNodeStart, announced]
  generalize hr : receptions.headD
    { datagram := none, key := [], value := [] } = r
  obtain ⟨hlen, hbody⟩ := firstRecv_spec inMsg hr
  obtain ⟨hexists, hany, _⟩ := parseKvPairs_spec r.key r.value
    ((r.into inMsg).1.drop 4) ((r.into inMsg).2 - 4) 0
    { size := parseNbrKvPair (r.into inMsg).1,
      list := List.replicate maxMsgSize none } hbody
    (length_bodyAt_le receptions 0)
  rw [Nat.zero_add, List.length_replicate] at hexists hany
  have hint : ∀ m : Nat, m ≤ maxMsgSize → int32 m ≠ -1 := by
    intro m hm
    have hint := int32_of_lt (n := m) (by omega)
    omega
  simp only
  constructor
  · intro st hst
    split_ifs at hst with hnone
    cases hparse : parseKvPairs r.key r.value ((r.into inMsg).1.drop 4)
        ((r.into inMsg).2 - 4) 0
        { size := parseNbrKvPair (r.into inMsg).1,
          list := List.replicate maxMsgSize none } with
    | error fault =>
      rw [hparse] at hst
      cases hst
    | ok result =>
      obtain ⟨parsed, kvList⟩ := result
      obtain ⟨hsize, hparsed⟩ := hany parsed kvList hparse
      rw [hparse] at hst
      simp only at hst
      split_ifs at hst with hfail
      cases hst
      obtain ⟨hcount, _, hslots, hframe⟩ := hparsed.resolve_left
        (fun h => hfail (h.1 ▸ hsizeMax))
      exact ⟨fun h => hnone (hlen.mpr h), hcount, hsize, by rw [List.drop_one],
        hslots, fun j hj => hframe j (Or.inr hj)⟩
  · intro hdata hle hslots
    rw [weightedCount] at hle hslots
    obtain ⟨list, hok⟩ := hexists hslots hle
    rw [if_neg (fun h => hdata (hlen.mp h)), hok]
    simp only
    rw [if_neg (hint _ hslots)]
    exact ⟨_, rfl⟩

/-- What `main` has received when it prints. -/
theorem dumpNode_meets {inMsg : List UInt8} {receptions : List Reception}
    {printed : List (Option KvPair)}
    (h : dumpNode inMsg receptions = .ok (some printed)) :
    recvAt receptions 0 ≠ none ∧ ∃ k st,
      Meets (announced inMsg receptions) receptions 0 k ∧
      AfterRecv (announced inMsg receptions) receptions k st ∧
      printed = st.kvList.list.take (announced inMsg receptions) ∧
      recvCalls inMsg receptions = k + 1 := by
  obtain ⟨st, hst, hrun⟩ := (dumpNode_start inMsg receptions printed).mp h
  obtain ⟨hdata, hafter⟩ := (dumpNodeStart_spec inMsg receptions).1 st hst
  obtain ⟨k, st', hmeets, hafter', hprinted, hpasses⟩ :=
    hafter.meets_of_run hrun
  refine ⟨hdata, k, st', hmeets, hafter', hprinted, ?_⟩
  rw [recvCalls, hst]
  simp only
  omega

/-- `main` prints a list exactly when the counts meet. -/
theorem dumpNode_prints (inMsg : List UInt8) (receptions : List Reception) :
    (∃ printed, dumpNode inMsg receptions = .ok (some printed)) ↔
      recvAt receptions 0 ≠ none ∧
        ∃ k, Meets (announced inMsg receptions) receptions 0 k := by
  constructor
  · rintro ⟨printed, h⟩
    obtain ⟨hdata, k, _, hmeets, _⟩ := dumpNode_meets h
    exact ⟨hdata, k, hmeets⟩
  · rintro ⟨hdata, k, hmeets⟩
    have hle : weightedCount receptions 0 ≤ announced inMsg receptions := by
      rw [← hmeets.count]
      rcases Nat.eq_zero_or_pos k with rfl | hpos
      · exact Nat.le_refl _
      · exact Nat.le_of_lt (weightedCount_lt receptions hpos)
    -- The datagrams before number `k` are among the receptions.
    have hfuel : k - 0 < receptions.length + 2 := by
      by_contra hlarge
      refine hmeets.arrived (k - 1) (by omega) (by omega) ?_
      rw [recvAt, List.getElem?_eq_none (by omega)]
      rfl
    obtain ⟨st, hst⟩ :=
      (dumpNodeStart_spec inMsg receptions).2 hdata hle
        (hle.trans hmeets.fits)
    have hafter := ((dumpNodeStart_spec inMsg receptions).1 st hst).2
    obtain ⟨printed, hrun⟩ := hafter.run_of_meets hmeets hfuel
    exact ⟨printed,
      (dumpNode_start inMsg receptions printed).mpr ⟨st, hst, hrun⟩⟩

/-- After more than one `recv`, a slot of the printed list is empty: the pairs
before the last `recv` are counted twice. -/
theorem none_mem_take {n k : Nat} {receptions : List Reception}
    {st : DumpNodeState} (h : AfterRecv n receptions k st)
    (hcount : weightedCount receptions k = n) (hn : n ≤ maxMsgSize)
    (hk : 0 < k) : none ∈ st.kvList.list.take n := by
  have hpos := weightedCount_pos receptions k
  obtain ⟨i, rfl⟩ : ∃ i, k = i + 1 := ⟨k - 1, by omega⟩
  have hfilled : filledCount receptions (i + 1) ≤ n - 1 := by
    have hi := weightedCount_pos receptions i
    rw [weightedCount] at hcount
    rw [filledCount]
    omega
  have hfree := h.free (n - 1) hfilled
  rw [List.getElem?_replicate, if_pos (by omega)] at hfree
  refine List.mem_iff_getElem?.mpr ⟨n - 1, ?_⟩
  rw [List.getElem?_take, if_pos (by omega)]
  exact hfree

/-! ## Slots that are not there -/

/-- The loop takes `recv` number `i`: fewer pairs than announced have been
found before, and no timeout comes before. -/
def Taken (n : Nat) (receptions : List Reception) (i : Nat) : Prop :=
  ∀ j < i, weightedCount receptions j < n ∧ recvAt receptions j ≠ none

/-- A list that announces more pairs than there are slots is never filled
behind its slots, and never printed. -/
def InSlots (inMsg : List UInt8) (receptions : List Reception) : Prop :=
  recvAt receptions 0 ≠ none →
    announced inMsg receptions ≤ maxMsgSize ∨
      ∀ i, Taken (announced inMsg receptions) receptions i →
        filledCount receptions i ≤ maxMsgSize ∧
          weightedCount receptions i ≠ announced inMsg receptions

/-- The loop at the number of a `recv` that did not stop it. -/
structure Loops (n : Nat) (receptions : List Reception) (i : Nat)
    (st : DumpNodeState) : Prop where
  after : AfterRecv n receptions i st
  taken : Taken n receptions i
  goesOn : GoesOn n receptions i

/-- A loop that still waits has taken its last `recv`, too. -/
theorem Loops.next {n i : Nat} {receptions : List Reception}
    {st : DumpNodeState} (h : Loops n receptions i st)
    (hlt : weightedCount receptions i < n) : Taken n receptions (i + 1) := by
  intro j hj
  rcases Nat.lt_succ_iff_lt_or_eq.mp hj with hj | rfl
  · exact h.taken j hj
  · exact ⟨hlt, h.goesOn.resolve_right (by omega)⟩

/-- A pass without a fault: the receptions that are left, or the pairs that are
missing, get fewer. -/
theorem Loops.step {n i : Nat} {receptions : List Reception}
    (hslots : n ≤ maxMsgSize ∨ ∀ i, Taken n receptions i →
      filledCount receptions i ≤ maxMsgSize ∧ weightedCount receptions i ≠ n)
    {st : DumpNodeState} (h : Loops n receptions i st) :
    (∃ st', dumpNodeBody st = .again st' ∧
      (∃ i', Loops n receptions i' st') ∧
      st'.receptions.length + (if st'.parsed < n then 1 else 0) <
        st.receptions.length + (if st.parsed < n then 1 else 0)) ∨
    ∃ r, dumpNodeBody st = .done (.ok r) := by
  by_cases hlt : weightedCount receptions i < n
  · have htaken := h.next hlt
    rcases h.after.step hlt with ⟨st', hbody, hafter, hgo, _⟩ | ⟨hbody, _⟩ |
      ⟨fault, _, hmissing⟩
    · refine Or.inl ⟨st', hbody, ⟨i + 1, hafter, htaken, hgo⟩, ?_⟩
      rw [h.after.ahead, hafter.ahead, h.after.parsed, hafter.parsed,
        if_pos hlt, List.length_drop, List.length_drop]
      rcases hgo with hdata | hend
      · have hmore : i + 1 < receptions.length := by
          by_contra hlarge
          refine hdata ?_
          rw [recvAt, List.getElem?_eq_none (by omega)]
          rfl
        split_ifs <;> omega
      · rw [if_neg (by omega)]
        omega
    · exact Or.inr ⟨_, hbody⟩
    · rcases hslots with hn | hslots
      · exact absurd (Or.inr hn) hmissing
      · exact absurd (Or.inl (hslots (i + 1) htaken).1) hmissing
  · have hbody := h.after.last (Nat.le_of_not_lt hlt)
    by_cases hend : weightedCount receptions i = n
    · rcases hslots with hn | hslots
      · rw [if_neg (not_not.mpr hend), if_pos hn] at hbody
        exact Or.inr ⟨_, hbody⟩
      · exact absurd hend (hslots i h.taken).2
    · rw [if_pos hend] at hbody
      exact Or.inr ⟨_, hbody⟩

/-- With the slots there, the loop has a result. -/
theorem Loops.run_ok {n i fuel : Nat} {receptions : List Reception}
    (hslots : n ≤ maxMsgSize ∨ ∀ i, Taken n receptions i →
      filledCount receptions i ≤ maxMsgSize ∧ weightedCount receptions i ≠ n)
    {st : DumpNodeState} (h : Loops n receptions i st)
    (hfuel : st.receptions.length + 1 < fuel) :
    ∃ r, Loop.run dumpNodeBody fuel st = some (.ok r) := by
  have hstep : ∀ st, (∃ i, Loops n receptions i st) →
      (∃ st', dumpNodeBody st = .again st' ∧ (∃ i, Loops n receptions i st') ∧
        st'.receptions.length + (if st'.parsed < n then 1 else 0) <
          st.receptions.length + (if st.parsed < n then 1 else 0)) ∨
      ∃ r, dumpNodeBody st = .done r ∧ ∃ a, r = .ok a := by
    rintro st ⟨i, hi⟩
    rcases hi.step hslots with hagain | ⟨r, hdone⟩
    · exact Or.inl hagain
    · exact Or.inr ⟨_, hdone, r, rfl⟩
  have hmeasure : st.receptions.length + (if st.parsed < n then 1 else 0) <
      fuel := by
    split_ifs <;> omega
  obtain ⟨_, hrun, r, rfl⟩ := Loop.run_total _ hstep ⟨i, h⟩ hmeasure
  exact ⟨r, hrun⟩

/-- A pass of a run without a fault, when more pairs are announced than there
are slots. -/
theorem AfterRecv.step_of_run {n i fuel : Nat} {receptions : List Reception}
    (hn : maxMsgSize < n) {st : DumpNodeState}
    (h : AfterRecv n receptions i st)
    (hlt : weightedCount receptions i < n) {r : Option (List (Option KvPair))}
    (hrun : Loop.run dumpNodeBody fuel st = some (.ok r)) :
    filledCount receptions (i + 1) ≤ maxMsgSize ∧
      weightedCount receptions (i + 1) ≠ n ∧
      (weightedCount receptions (i + 1) < n →
        recvAt receptions (i + 1) ≠ none →
        ∃ st', dumpNodeBody st = .again st' ∧
          AfterRecv n receptions (i + 1) st') := by
  rcases h.step hlt with ⟨st', hbody, hafter, _, hfit⟩ | ⟨_, hfit, hstop⟩ |
    ⟨fault, hbody, _⟩
  · refine ⟨hfit.resolve_right (by omega), ?_, fun _ _ => ⟨st', hbody, hafter⟩⟩
    -- The list would be printed past its slots.
    intro hend
    have hlast := hafter.last (Nat.le_of_eq hend.symm)
    rw [if_neg (not_not.mpr hend), if_neg (by omega)] at hlast
    have hone : Loop.Leads dumpNodeBody 1 st st' := ⟨st', hbody, rfl⟩
    cases Loop.run_unique (hone.run_eq_some hrun)
      (Loop.run_succ_done 0 hlast)
  · have hfilled := hfit.resolve_right (by omega)
    exact ⟨hfilled,
      fun hend => hstop ⟨Nat.le_of_eq hend, hfilled, Or.inr hend⟩,
      fun hless hdata => absurd ⟨hless.le, hfilled, Or.inl hdata⟩ hstop⟩
  · cases Loop.run_unique hrun (Loop.run_succ_done 0 hbody)

/-- A run without a fault gets behind every `recv` that it takes. -/
theorem leads_of_run {n fuel : Nat} {receptions : List Reception}
    (hn : maxMsgSize < n) {start : DumpNodeState}
    (h : AfterRecv n receptions 0 start) {r : Option (List (Option KvPair))}
    (hrun : Loop.run dumpNodeBody fuel start = some (.ok r)) :
    ∀ i, Taken n receptions (i + 1) → ∃ st,
      Loop.Leads dumpNodeBody i start st ∧ AfterRecv n receptions i st := by
  intro i
  induction i with
  | zero => exact fun _ => ⟨start, rfl, h⟩
  | succ i ih =>
    intro htaken
    obtain ⟨st, hleads, hafter⟩ := ih (fun j hj => htaken j (by omega))
    obtain ⟨_, _, hnext⟩ := hafter.step_of_run hn (htaken i (by omega)).1
      (hleads.run_eq_some hrun)
    obtain ⟨hless, hdata⟩ := htaken (i + 1) (Nat.lt_succ_self _)
    obtain ⟨st', hbody, hafter'⟩ := hnext hless hdata
    have hone : Loop.Leads dumpNodeBody 1 st st' := ⟨st', hbody, rfl⟩
    exact ⟨st', hone.trans hleads, hafter'⟩

/-- `main` has no fault exactly when no slot is touched that is not there. -/
theorem dumpNode_ok_iff (inMsg : List UInt8) (receptions : List Reception) :
    (∃ r, dumpNode inMsg receptions = .ok r) ↔ InSlots inMsg receptions := by
  cases hstart : dumpNodeStart inMsg receptions with
  | none =>
    refine iff_of_true ⟨_, dumpNode_of_noStart hstart⟩ ?_
    -- The loop is left out only when few pairs are announced.
    intro hdata
    by_contra hmany
    rw [not_or, not_le] at hmany
    have hfirst := filledCount_zero_le receptions
    obtain ⟨st, hst⟩ := (dumpNodeStart_spec inMsg receptions).2 hdata
      (hfirst.trans hmany.1.le) hfirst
    cases hstart.symm.trans hst
  | some start =>
    obtain ⟨hdata, hafter⟩ :=
      (dumpNodeStart_spec inMsg receptions).1 start hstart
    rw [dumpNode_of_start hstart]
    constructor
    · rintro ⟨r, hr⟩ _
      have hrun := run_of_runLoop_ok hr
      by_contra hmany
      rw [not_or, not_le] at hmany
      refine hmany.2 (fun i htaken => ?_)
      cases i with
      | zero =>
        have hfirst := filledCount_zero_le receptions
        have hless := hfirst.trans_lt hmany.1
        exact ⟨hfirst, Nat.ne_of_lt hless⟩
      | succ i =>
        obtain ⟨st, hleads, hst⟩ := leads_of_run hmany.1 hafter hrun i htaken
        obtain ⟨hfilled, hend, _⟩ := hst.step_of_run hmany.1
          (htaken i (Nat.lt_succ_self i)).1 (hleads.run_eq_some hrun)
        exact ⟨hfilled, hend⟩
    · intro hslots
      have hloops : Loops (announced inMsg receptions) receptions 0 start :=
        ⟨hafter, fun j hj => absurd hj (Nat.not_lt_zero j), Or.inl hdata⟩
      have hlen : start.receptions.length ≤ receptions.length := by
        rw [hafter.ahead, List.length_drop]
        omega
      obtain ⟨r, hrun⟩ := hloops.run_ok (hslots hdata)
        (show _ < receptions.length + 2 by omega)
      exact ⟨r, runLoop_of_run hrun⟩

/-! ## Dumps of several datagrams -/

/-- The datagrams of a dump arrive in order, one for each run of its pairs. -/
def Arrive (runs : List (List KvPair)) (receptions : List Reception) : Prop :=
  (receptions.map Reception.datagram).take runs.length =
    (frames runs.flatten.length runs).map some

theorem Arrive.recvAt {runs : List (List KvPair)} {receptions : List Reception}
    (h : Arrive runs receptions) {i : Nat} (hi : i < runs.length) :
    recvAt receptions i = (frames runs.flatten.length runs)[i]? := by
  have hget := congrArg (fun l => l[i]?) h
  simp only [List.getElem?_take, if_pos hi, List.getElem?_map] at hget
  rw [PpsDht.recvAt]
  cases hr : receptions[i]? with
  | none =>
    rw [hr] at hget
    cases hf : (frames runs.flatten.length runs)[i]? with
    | none => rfl
    | some datagram =>
      rw [hf] at hget
      cases hget
  | some r =>
    rw [hr] at hget
    cases hf : (frames runs.flatten.length runs)[i]? with
    | none =>
      rw [hf] at hget
      cases hget
    | some datagram =>
      rw [hf] at hget
      exact Option.some.inj hget

/-- A dump of two or more datagrams is never printed as it is. -/
theorem dumpNode_runs_ne {runs : List (List KvPair)}
    (hruns : 2 ≤ runs.length) (hne : ∀ run ∈ runs, run ≠ [])
    (hmax : ∀ datagram ∈ frames runs.flatten.length runs,
      datagram.length ≤ maxMsgSize)
    {receptions : List Reception} (harrive : Arrive runs receptions)
    (inMsg : List UInt8) :
    dumpNode inMsg receptions ≠ .ok (some (runs.flatten.map some)) := by
  intro h
  obtain ⟨_, k, st, hmeets, hafter, hprinted, _⟩ := dumpNode_meets h
  rcases Nat.eq_zero_or_pos k with rfl | hk
  · -- The first datagram does not hold all pairs.
    obtain ⟨run, run', rest, rfl⟩ : ∃ run run' rest,
        runs = run :: run' :: rest := by
      match runs, hruns with
      | run :: run' :: rest, _ => exact ⟨run, run', rest, rfl⟩
    have hrun := hne run List.mem_cons_self
    have hrun' := List.length_pos_iff.mpr
      (hne run' (List.mem_cons_of_mem _ List.mem_cons_self))
    have hrecv := harrive.recvAt (show 0 < (run :: run' :: rest).length by simp)
    rw [frames, List.getElem?_cons_zero] at hrecv
    have hdatagram := hmax _ List.mem_cons_self
    have hbody : bodyAt receptions 0 = joined run := by
      rw [bodyAt, hrecv, Option.getD_some, if_pos rfl,
        List.take_of_length_le hdatagram]
      rfl
    have hcount := hmeets.count
    rw [weightedCount, hbody, pairCount_joined hrun] at hcount
    have hlen := congrArg List.length hprinted
    rw [List.length_map, List.length_take, hafter.slots,
      Nat.min_eq_left hmeets.fits, ← hcount, List.flatten_cons,
      List.flatten_cons, List.length_append, List.length_append] at hlen
    omega
  · have hnone := none_mem_take hafter hmeets.count hmeets.fits hk
    rw [← hprinted] at hnone
    obtain ⟨kv, _, hkv⟩ := List.mem_map.mp hnone
    cases hkv

/-- The number that `parse_kv_pairs` returns for a run of pairs is the index
behind them. -/
theorem parseKvPairs_run {run : List KvPair} (hne : run ≠ [])
    (hmax : (joined run).length ≤ maxMsgSize) (key value : List UInt8)
    (start : Nat) (kvList : KvList)
    (hslots : start + run.length ≤ kvList.list.length)
    (hsize : start + run.length ≤ kvList.size) :
    ∃ list, parseKvPairs key value (joined run) (joined run).length start
        kvList = .ok (start + run.length, { kvList with list := list }) := by
  have hbody : readBytes (joined run) ((joined run).length : Int).toNat =
      joined run := by
    have hself := readBytes_append (joined run) []
    rwa [List.append_nil] at hself
  have hspec := (parseKvPairs_spec key value (joined run)
    ((joined run).length : Int) start kvList hbody hmax).1
  rw [pairCount_joined hne] at hspec
  exact hspec hslots hsize

/-- No dump of two or more datagrams is decoded; and `parse_kv_pairs` returns
the number of the pairs of a run for the starting index 0 only. -/
theorem dumpNode_runs (runs : List (List KvPair))
    (receptions : List Reception) (inMsg : List UInt8)
    (hruns : 2 ≤ runs.length) (hne : ∀ run ∈ runs, run ≠ [])
    (hmax : ∀ datagram ∈ frames runs.flatten.length runs,
      datagram.length ≤ maxMsgSize)
    (harrive : Arrive runs receptions) :
    dumpNode inMsg receptions ≠ .ok (some (runs.flatten.map some)) ∧
    ∀ (run : List KvPair) (key value : List UInt8) (start : Nat)
        (kvList : KvList), run ≠ [] → (joined run).length ≤ maxMsgSize →
      start + run.length ≤ kvList.list.length →
      start + run.length ≤ kvList.size →
      ((∃ kvList', parseKvPairs key value (joined run) (joined run).length
          start kvList = .ok (run.length, kvList')) ↔ start = 0) := by
  refine ⟨dumpNode_runs_ne hruns hne hmax harrive inMsg, ?_⟩
  intro run key value start kvList hrun hfits hslots hsize
  obtain ⟨list, hok⟩ :=
    parseKvPairs_run hrun hfits key value start kvList hslots hsize
  rw [hok]
  constructor
  · rintro ⟨kvList', heq⟩
    have hcount := congrArg Prod.fst (Except.ok.inj heq)
    simp only at hcount
    omega
  · rintro rfl
    exact ⟨_, by rw [Nat.zero_add]⟩

/-- Two pairs in two datagrams. -/
def demoRuns : List (List KvPair) :=
  [[{ key := lit ['k'], value := lit ['v'] }],
    [{ key := lit ['l'], value := lit ['w'] }]]

/-- A dump of two datagrams of one pair each is not decoded. -/
theorem dumpNode_two_datagrams :
    ¬ ∀ (runs : List (List KvPair)) (receptions : List Reception)
        (inMsg : List UInt8), 2 ≤ runs.length → (∀ run ∈ runs, run ≠ []) →
      (∀ run ∈ runs, ∀ kv ∈ run, kv.key.bytes ≠ []) →
      (∀ datagram ∈ frames runs.flatten.length runs,
        datagram.length ≤ maxMsgSize) →
      Arrive runs receptions →
      dumpNode inMsg receptions = .ok (some (runs.flatten.map some)) := by
  intro h
  have hne : ∀ run ∈ demoRuns, run ≠ [] := by decide
  have hmax : ∀ datagram ∈ frames demoRuns.flatten.length demoRuns,
      datagram.length ≤ maxMsgSize := by decide
  have harrive : Arrive demoRuns
      ((frames demoRuns.flatten.length demoRuns).map (fun datagram =>
        { datagram := some datagram, key := [], value := [] })) := rfl
  exact dumpNode_runs_ne (by decide) hne hmax harrive []
    (h demoRuns _ [] (by decide) hne (by decide) hmax harrive)

/-- The two datagrams of `demoRuns`, as they arrive. -/
theorem dumpNode_runs_demo :
    ∃ receptions, Arrive demoRuns receptions ∧
      dumpNode [] receptions ≠ .ok (some (demoRuns.flatten.map some)) := by
  have harrive : Arrive demoRuns
      ((frames demoRuns.flatten.length demoRuns).map (fun datagram =>
        { datagram := some datagram, key := [], value := [] })) := rfl
  exact ⟨_, harrive, (dumpNode_runs demoRuns _ [] (by decide) (by decide)
    (by decide) harrive).1⟩

/-! ## When the listing can be trusted -/

/-- `main` does not touch slots that are not there, and whatever it prints has
been received: no `recv` has timed out, every printed pair is in a datagram, and
there are as many pairs in the datagrams as the first one announces. -/
structure DumpSound (inMsg : List UInt8) (receptions : List Reception) :
    Prop where
  noFault : ∃ r, dumpNode inMsg receptions = .ok r
  received : ∀ printed, dumpNode inMsg receptions = .ok (some printed) →
    (∀ i, i < recvCalls inMsg receptions → recvAt receptions i ≠ none) ∧
    (∀ slot ∈ printed, ∃ i, i < recvCalls inMsg receptions ∧
      ∃ kv ∈ decodedPairs (bodyAt receptions i), slot = some kv) ∧
    ((List.range (recvCalls inMsg receptions)).map (fun i =>
      (decodedPairs (bodyAt receptions i)).length)).sum =
        announced inMsg receptions

/-- The counts meet after the first datagram or never, and the first datagram
is one of whole pairs when they do. -/
def MeetsOnce (inMsg : List UInt8) (receptions : List Reception) : Prop :=
  recvAt receptions 0 ≠ none →
    ∀ k, Meets (announced inMsg receptions) receptions 0 k →
      k = 0 ∧ (bodyAt receptions 0).count 0 % 2 = 1

theorem htonl_parseNbrKvPair (a b c d : UInt8) (rest : List UInt8) :
    htonl (parseNbrKvPair (a :: b :: c :: d :: rest)) = [a, b, c, d] := by
  have hbytes : parseNbrKvPair (a :: b :: c :: d :: rest) =
      a.toNat * 2 ^ 24 + b.toNat * 2 ^ 16 + c.toNat * 2 ^ 8 + d.toNat := rfl
  have ha := a.toNat_lt
  have hb := b.toNat_lt
  have hc := c.toNat_lt
  have hd := d.toNat_lt
  rw [hbytes, htonl]
  simp only [List.cons.injEq, ← UInt8.toNat_inj, UInt8.toNat_ofNat', and_true]
  refine ⟨?_, ?_, ?_, ?_⟩ <;> omega

/-- A datagram of whole pairs, as many as its header says. -/
theorem dumpNode_whole {a b c d : UInt8} {body : List UInt8}
    (hmax : body.length + 4 ≤ maxMsgSize) (hodd : body.count 0 % 2 = 1)
    (hcount : (decodedPairs body).length = parseNbrKvPair [a, b, c, d])
    (inMsg key value : List UInt8) (receptions : List Reception) :
    dumpNode inMsg
        ({ datagram := some (a :: b :: c :: d :: body), key := key,
           value := value } :: receptions) =
      .ok (some ((decodedPairs body).map some)) := by
  obtain ⟨hjoined, hne⟩ := joined_decodedPairs body hodd
  have hsplit : a :: b :: c :: d :: body =
      htonl (decodedPairs body).length ++ joined (decodedPairs body) := by
    rw [hcount, htonl_parseNbrKvPair, hjoined]
    rfl
  have hsize := length_joined hne
  have hpos := List.length_pos_iff.mpr hne
  rw [hjoined] at hsize
  rw [hsplit]
  exact dumpNode_joined hne (by rw [dumpSize]; omega) inMsg key value receptions

theorem exists_header {stored : List UInt8} (h : 4 ≤ stored.length) :
    ∃ a b c d body, stored = a :: b :: c :: d :: body :=
  match stored, h with
  | a :: b :: c :: d :: body, _ => ⟨a, b, c, d, body, rfl⟩

/-- Only the first `MAX_MSG_SIZE` bytes of a datagram are received. -/
theorem into_take (r : Reception) (inMsg : List UInt8) :
    Reception.into { r with
      datagram := r.datagram.map (List.take maxMsgSize) } inMsg =
      r.into inMsg := by
  rw [Reception.into, Reception.into]
  cases r.datagram with
  | none => rfl
  | some datagram =>
    simp only [Option.map_some, List.take_take, Nat.min_self]

/-- The first datagram, when its counts meet and it holds whole pairs. -/
theorem dumpNode_first {inMsg : List UInt8} {receptions : List Reception}
    (hdata : recvAt receptions 0 ≠ none)
    (hcount : weightedCount receptions 0 = announced inMsg receptions)
    (hodd : (bodyAt receptions 0).count 0 % 2 = 1) :
    dumpNode inMsg receptions =
      .ok (some ((decodedPairs (bodyAt receptions 0)).map some)) := by
  have hpairs : (decodedPairs (bodyAt receptions 0)).length =
      announced inMsg receptions := by
    rw [length_decodedPairs, ← hcount, weightedCount, pairCount]
    omega
  have hlen := length_bodyAt_le receptions 0
  cases receptions with
  | nil => exact absurd rfl hdata
  | cons r receptions =>
    have hrecv : recvAt (r :: receptions) 0 = r.datagram := rfl
    obtain ⟨datagram, hr⟩ := Option.ne_none_iff_exists'.mp (hrecv ▸ hdata)
    have hannounced := hpairs
    rw [announced, List.headD_cons, ← into_take, hr] at hannounced
    have hcut : dumpNode inMsg (r :: receptions) = dumpNode inMsg
        ({ datagram := some (datagram.take maxMsgSize), key := r.key,
           value := r.value } :: receptions) := by
      rw [dumpNode, dumpNode, List.headD_cons, List.headD_cons,
        ← into_take r, hr]
      rfl
    have hbody : bodyAt (r :: receptions) 0 =
        (datagram.take maxMsgSize).drop 4 := by
      rw [bodyAt, hrecv, hr, Option.getD_some, if_pos rfl]
    have hstored : (datagram.take maxMsgSize).length ≤ maxMsgSize :=
      List.length_take_le _ _
    rw [hcut]
    rw [hbody] at hodd hannounced ⊢
    rw [Option.map_some, Reception.into] at hannounced
    simp only [List.take_take, Nat.min_self] at hannounced
    have hlong : 4 ≤ (datagram.take maxMsgSize).length := by
      by_contra hshort
      rw [List.drop_eq_nil_of_le (by omega)] at hodd
      exact absurd hodd (by decide)
    obtain ⟨a, b, c, d, body, hbytes⟩ := exists_header hlong
    rw [hbytes] at hstored hannounced hodd ⊢
    exact dumpNode_whole hstored hodd hannounced inMsg r.key r.value receptions

/-- The listing can be trusted exactly when the counts meet after a first
datagram of whole pairs, or never, and no slot is touched that is not there. -/
theorem dumpSound_iff (inMsg : List UInt8) (receptions : List Reception) :
    DumpSound inMsg receptions ↔
      MeetsOnce inMsg receptions ∧ InSlots inMsg receptions := by
  have hfirst : ∀ {n : Nat}, n = 0 + 1 →
      ((List.range n).map (fun i =>
        (decodedPairs (bodyAt receptions i)).length)).sum =
          ((bodyAt receptions 0).count 0 + 1) / 2 := by
    rintro n rfl
    rw [Nat.zero_add, List.range_one, List.map_singleton, List.sum_singleton,
      length_decodedPairs]
  constructor
  · intro hsound
    refine ⟨?_, (dumpNode_ok_iff inMsg receptions).mp hsound.noFault⟩
    intro hdata k hmeets
    obtain ⟨printed, hprints⟩ :=
      (dumpNode_prints inMsg receptions).mpr ⟨hdata, k, hmeets⟩
    obtain ⟨_, k', st, hmeets', hafter, hprinted, hcalls⟩ :=
      dumpNode_meets hprints
    obtain ⟨_, hslots, hsum⟩ := hsound.received printed hprints
    have hk' : k' = 0 := by
      by_contra hpos
      have hnone := none_mem_take hafter hmeets'.count hmeets'.fits
        (Nat.pos_of_ne_zero hpos)
      obtain ⟨_, _, kv, _, hslot⟩ := hslots none (hprinted ▸ hnone)
      cases hslot
    subst hk'
    have hk : k = 0 := by
      by_contra hpos
      have hlt := weightedCount_lt receptions (Nat.pos_of_ne_zero hpos)
      have hcount := hmeets.count
      have hcount' := hmeets'.count
      omega
    have hcount := hmeets'.count
    rw [weightedCount, pairCount] at hcount
    rw [hfirst hcalls] at hsum
    exact ⟨hk, by omega⟩
  · rintro ⟨honce, hslots⟩
    refine ⟨(dumpNode_ok_iff inMsg receptions).mpr hslots, ?_⟩
    intro printed hprints
    obtain ⟨hdata, k, st, hmeets, _, _, hcalls⟩ := dumpNode_meets hprints
    obtain ⟨rfl, hodd⟩ := honce hdata k hmeets
    rw [dumpNode_first hdata hmeets.count hodd, Except.ok.injEq,
      Option.some.injEq] at hprints
    have hcount := hmeets.count
    rw [weightedCount, pairCount] at hcount
    rw [hfirst hcalls, hcalls]
    refine ⟨?_, ?_, by omega⟩
    · intro i hi
      rw [show i = 0 by omega]
      exact hdata
    · intro slot hslot
      rw [← hprints] at hslot
      obtain ⟨kv, hkv, rfl⟩ := List.mem_map.mp hslot
      exact ⟨0, by omega, kv, hkv, rfl⟩

/-- A dump of three pairs, of which one arrives. -/
def lostDatagram : List Reception :=
  [{ datagram := some (htonl 3 ++ [107, 0, 118]), key := [], value := [] }]

/-- The rest of the dump is lost, and the listing is printed after the
timeout. -/
theorem dumpNode_timeout : ¬ ∀ (inMsg : List UInt8)
    (receptions : List Reception), DumpSound inMsg receptions := by
  intro h
  have hmeets : Meets (announced [] lostDatagram) lostDatagram 0 1 :=
    ⟨by decide, by decide, fun j hj hj' => by omega, by decide⟩
  have honce := (dumpNode_prints [] lostDatagram).mpr
    ⟨by decide, 1, hmeets⟩
  obtain ⟨printed, hprints⟩ := honce
  obtain ⟨_, k, _, hmeets', _, _, hcalls⟩ := dumpNode_meets hprints
  have hk : 0 < k := by
    by_contra hzero
    have hcount := hmeets'.count
    rw [show k = 0 by omega] at hcount
    exact absurd hcount (by decide)
  have harrived := ((h [] lostDatagram).received printed hprints).1 k (by omega)
  exact harrived (by
    rw [recvAt, List.getElem?_eq_none (by
      show 1 ≤ k
      omega)]
    rfl)

end PpsDht
