import PpsDht.DumpClient

/-!
# The dump client one datagram at a time

`dumpNode` is given everything that arrives.  Here `main` of `pps-dump-node.c`
takes one datagram after the other: `dumpNodePass` goes from one `recv` to the
next, and `dumpNodeTimeout` is what is left of `main` when a `recv` times out.
Together they print what `dumpNode` prints, `feed_dumpNodePass`.
-/

namespace PpsDht

open CMem

/-- The result of `main`: the printed list, or `none` for `FAIL`. -/
abbrev Listing := Except Fault (Option (List (Option KvPair)))

/-- `main` in a `recv`: the variables of its loop, once the first datagram is
there, and what `parse_kv_pairs` will find on the stack. -/
structure DumpWait where
  loop : Option DumpNodeState
  stack : List (List UInt8 × List UInt8)

/-- What arrives, with what the next `parse_kv_pairs` finds on the stack. -/
def onStack (stack : List (List UInt8 × List UInt8))
    (datagram : Option (List UInt8)) : Reception where
  datagram := datagram
  key := (stack.headD ([], [])).1
  value := (stack.headD ([], [])).2

/-- `main` from the first `recv` to its loop. -/
def dumpNodeFirst (inMsg : List UInt8) (r : Reception) :
    Loop.Step DumpNodeState Listing :=
  let (inMsg, inMsgLen) := r.into inMsg
  if inMsgLen = -1 then .done (.ok none)
  else
    let kvList : KvList :=
      { size := parseNbrKvPair inMsg, list := List.replicate maxMsgSize none }
    match parseKvPairs r.key r.value (inMsg.drop 4) (inMsgLen - 4) 0 kvList with
    | .error fault => .done (.error fault)
    | .ok (parsed, kvList) =>
      if int32 parsed = -1 then .done (.ok none)
      else
        .again { parsed := parsed, inMsg := inMsg, kvList := kvList,
                 receptions := [] }

/-- `main` behind its loop. -/
def dumpNodeEnd (st : DumpNodeState) : Listing :=
  if st.parsed ≠ st.kvList.size then .ok none else printKvPairList st.kvList

/-- `main` from one `recv` to the next one, or to its end. -/
def dumpNodePass (inMsg : List UInt8) (w : DumpWait) (datagram : List UInt8) :
    Loop.Step DumpWait Listing :=
  let r := onStack w.stack (some datagram)
  let pass :=
    match w.loop with
    | none => dumpNodeFirst inMsg r
    | some st => dumpNodeBody { st with receptions := [r] }
  match pass with
  | .done listing => .done listing
  | .again st =>
    if st.parsed < st.kvList.size then
      .again { loop := some st, stack := w.stack.tail }
    else .done (dumpNodeEnd st)

/-- `main` from a `recv` that times out to its end. -/
def dumpNodeTimeout (w : DumpWait) : Listing :=
  match w.loop with
  | none => .ok none
  | some st =>
    runLoop dumpNodeBody 2 { st with receptions := [onStack w.stack none] }

/-- The datagrams in the order in which they arrive, and a timeout. -/
def arrivals : List (List UInt8 × List UInt8) → List (List UInt8) →
    List Reception
  | stack, [] => [onStack stack none]
  | stack, datagram :: datagrams =>
    onStack stack (some datagram) :: arrivals stack.tail datagrams

/-! ## The loop of `main` -/

theorem length_arrivals (datagrams : List (List UInt8)) :
    ∀ stack, (arrivals stack datagrams).length = datagrams.length + 1 := by
  induction datagrams with
  | nil =>
    intro stack
    rfl
  | cons datagram datagrams ih =>
    intro stack
    simp [arrivals, ih]

/-- The last pass. -/
theorem dumpNodeBody_end {st : DumpNodeState}
    (h : ¬ st.parsed < st.kvList.size) :
    dumpNodeBody st = .done (dumpNodeEnd st) := by
  unfold dumpNodeBody dumpNodeEnd
  rw [if_neg h]
  split
  · rfl
  · rfl

/-- A pass on the reception `r`. -/
theorem dumpNodeBody_reception (st : DumpNodeState) (r : Reception)
    (rs : List Reception) :
    dumpNodeBody { st with receptions := r :: rs } =
      if st.parsed < st.kvList.size then
        match parseKvPairs r.key r.value (r.into st.inMsg).1
            (r.into st.inMsg).2 st.parsed st.kvList with
        | .error fault => .done (.error fault)
        | .ok (more, kvList) =>
          if more = sizeMax then .done (.ok none)
          else if (r.into st.inMsg).2 = -1 ∧
              (st.parsed + more) % 2 ^ 64 ≠ kvList.size then .done (.ok none)
          else
            .again { parsed := (st.parsed + more) % 2 ^ 64,
                     inMsg := (r.into st.inMsg).1, kvList := kvList,
                     receptions := rs }
      else if st.parsed ≠ st.kvList.size then .done (.ok none)
      else .done (printKvPairList st.kvList) := rfl

/-- A pass takes one reception only. -/
theorem dumpNodeBody_cons (st : DumpNodeState) (r : Reception)
    (rs : List Reception) :
    dumpNodeBody { st with receptions := r :: rs } =
      match dumpNodeBody { st with receptions := [r] } with
      | .done listing => .done listing
      | .again st' => .again { st' with receptions := rs } := by
  rw [dumpNodeBody_reception, dumpNodeBody_reception]
  split
  · cases parseKvPairs r.key r.value (r.into st.inMsg).1 (r.into st.inMsg).2
        st.parsed st.kvList with
    | error fault => rfl
    | ok result =>
      simp only
      split
      · rfl
      · split
        · rfl
        · rfl
  · split
    · rfl
    · rfl

/-- A pass without a datagram is the last one, or the last but one. -/
theorem dumpNodeBody_timeout (st : DumpNodeState) {r : Reception}
    (h : r.datagram = none) :
    (∃ listing, dumpNodeBody { st with receptions := [r] } = .done listing) ∨
      ∃ st', dumpNodeBody { st with receptions := [r] } = .again st' ∧
        ¬ st'.parsed < st'.kvList.size := by
  have hlen : (r.into st.inMsg).2 = -1 := by
    unfold Reception.into
    rw [h]
  rw [dumpNodeBody_reception]
  split
  · cases parseKvPairs r.key r.value (r.into st.inMsg).1 (r.into st.inMsg).2
        st.parsed st.kvList with
    | error fault =>
      left
      exact ⟨_, rfl⟩
    | ok result =>
      simp only
      split
      · left
        exact ⟨_, rfl⟩
      · split
        · left
          exact ⟨_, rfl⟩
        · rename_i hfail
          right
          refine ⟨_, rfl, fun hlt => hfail ⟨hlen, ?_⟩⟩
          exact Nat.ne_of_lt hlt
  · left
    split
    · exact ⟨_, rfl⟩
    · exact ⟨_, rfl⟩

/-- Two passes are enough after a timeout. -/
theorem run_dumpNodeBody_timeout (st : DumpNodeState)
    (stack : List (List UInt8 × List UInt8)) :
    ∃ listing, Loop.run dumpNodeBody 2
      { st with receptions := [onStack stack none] } = some listing := by
  have htimeout : (onStack stack none).datagram = none := rfl
  rcases dumpNodeBody_timeout st htimeout with
    ⟨listing, hdone⟩ | ⟨st', hagain, hend⟩
  · exact ⟨listing, Loop.run_succ_done 1 hdone⟩
  · refine ⟨dumpNodeEnd st', ?_⟩
    rw [Loop.run_succ_again 1 hagain]
    exact Loop.run_succ_done 0 (dumpNodeBody_end hend)

/-- The loop on everything that arrives, and one datagram at a time. -/
theorem feed_dumpNodeBody (inMsg : List UInt8) (datagrams : List (List UInt8)) :
    ∀ (st : DumpNodeState) (stack : List (List UInt8 × List UInt8))
      (fuel : Nat), datagrams.length + 2 ≤ fuel →
      runLoop dumpNodeBody fuel
          { st with receptions := arrivals stack datagrams } =
        Loop.feed (dumpNodePass inMsg) dumpNodeTimeout ⟨some st, stack⟩
          datagrams := by
  induction datagrams with
  | nil =>
    intro st stack fuel hfuel
    obtain ⟨listing, hrun⟩ := run_dumpNodeBody_timeout st stack
    show runLoop dumpNodeBody fuel _ = runLoop dumpNodeBody 2 _
    rw [runLoop_of_run hrun]
    apply runLoop_of_run
    apply Loop.run_of_le _ hrun
    simpa using hfuel
  | cons datagram datagrams ih =>
    intro st stack fuel hfuel
    obtain ⟨fuel, rfl⟩ : ∃ k, fuel = k + 1 := by
      simp only [List.length_cons] at hfuel
      exact ⟨fuel - 1, by omega⟩
    have hfuel' : datagrams.length + 2 ≤ fuel := by
      simp only [List.length_cons] at hfuel
      omega
    have hcons := dumpNodeBody_cons st (onStack stack (some datagram))
      (arrivals stack.tail datagrams)
    rw [arrivals]
    cases hpass : dumpNodeBody
        { st with receptions := [onStack stack (some datagram)] } with
    | done listing =>
      rw [hpass] at hcons
      rw [runLoop_of_run (Loop.run_succ_done fuel hcons), Loop.feed_done]
      unfold dumpNodePass
      simp only [hpass]
    | again st' =>
      rw [hpass] at hcons
      rw [runLoop_succ_again fuel hcons]
      by_cases hlt : st'.parsed < st'.kvList.size
      · have hagain : dumpNodePass inMsg ⟨some st, stack⟩ datagram =
            .again ⟨some st', stack.tail⟩ := by
          unfold dumpNodePass
          simp only [hpass, if_pos hlt]
        rw [Loop.feed_again hagain]
        exact ih st' stack.tail fuel hfuel'
      · obtain ⟨fuel, rfl⟩ : ∃ k, fuel = k + 1 := ⟨fuel - 1, by omega⟩
        have hend : dumpNodeBody
            { st' with receptions := arrivals stack.tail datagrams } =
            .done (dumpNodeEnd st') := dumpNodeBody_end hlt
        rw [runLoop_of_run (Loop.run_succ_done fuel hend), Loop.feed_done]
        unfold dumpNodePass
        simp only [hpass, if_neg hlt]

/-! ## The first datagram -/

theorem dumpNode_cons (inMsg : List UInt8) (r : Reception)
    (rs : List Reception) :
    dumpNode inMsg (r :: rs) =
      match dumpNodeFirst inMsg r with
      | .done listing => listing
      | .again st =>
        runLoop dumpNodeBody (rs.length + 3) { st with receptions := rs } := by
  unfold dumpNode dumpNodeFirst
  simp only [List.headD_cons, List.tail_cons, List.length_cons]
  by_cases hlen : (r.into inMsg).2 = -1
  · simp only [hlen, if_true]
  · simp only [hlen, if_false]
    cases parseKvPairs r.key r.value ((r.into inMsg).1.drop 4)
        ((r.into inMsg).2 - 4) 0
        { size := parseNbrKvPair (r.into inMsg).1,
          list := List.replicate maxMsgSize none } with
    | error fault => rfl
    | ok result =>
      simp only
      by_cases hfail : int32 result.1 = -1
      · rw [if_pos hfail, if_pos hfail]
      · rw [if_neg hfail, if_neg hfail]

/-- One datagram at a time, `main` prints what it prints on everything that
arrives. -/
theorem feed_dumpNodePass (inMsg : List UInt8)
    (stack : List (List UInt8 × List UInt8)) (datagrams : List (List UInt8)) :
    Loop.feed (dumpNodePass inMsg) dumpNodeTimeout ⟨none, stack⟩ datagrams =
      dumpNode inMsg (arrivals stack datagrams) := by
  cases datagrams with
  | nil => rfl
  | cons datagram datagrams =>
    rw [arrivals, dumpNode_cons, length_arrivals]
    cases hfirst : dumpNodeFirst inMsg (onStack stack (some datagram)) with
    | done listing =>
      rw [Loop.feed_done]
      unfold dumpNodePass
      simp only [hfirst]
    | again st =>
      have hloop := feed_dumpNodeBody inMsg datagrams st stack.tail
        (datagrams.length + 1 + 3) (by omega)
      simp only
      by_cases hlt : st.parsed < st.kvList.size
      · rw [hloop, Loop.feed_again]
        unfold dumpNodePass
        simp only [hfirst, if_pos hlt]
      · have hend : dumpNodeBody
            { st with receptions := arrivals stack.tail datagrams } =
            .done (dumpNodeEnd st) := dumpNodeBody_end hlt
        rw [runLoop_of_run (Loop.run_succ_done _ hend), Loop.feed_done]
        unfold dumpNodePass
        simp only [hfirst, if_neg hlt]

end PpsDht
