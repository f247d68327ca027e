import PpsDht.NetworkGet

/-!
# One get, from the receive buffer of the server to that of the client

The get branch hands its receive buffer to the hash table as a C string, and
sends `MAX_MSG_ELEM_SIZE` bytes from the stored value on.  Both read past the
bytes that they should read: the first one up to the next zero byte behind the
datagram, the second one past the terminator of the value.

* `lookupByRequest_iff`: when the bytes behind the datagram do not show.
* `replyDetermined_iff`: when the bytes behind the value do not show.
* `decodesInBounds_never`: the client reads the value back, but it always
  stores its terminator behind its receive buffer.
-/

namespace PpsDht

open CMem Tally

/-- The answer to a get, for the value of its key. -/
def answer (past : List UInt8) : Option CString → List (List UInt8)
  | some value => [readBytes (mem value ++ past) maxMsgElemSize]
  | none => [[0]]

theorem serverStep_answer (fuel : Nat) (m : ServerMem) (table : Htable)
    {datagram : List UInt8} (hnul : (0 : UInt8) ∉ datagram)
    (hne : datagram ≠ []) (hmax : datagram.length ≤ maxMsgSize) :
    serverStep fuel m table datagram =
      .ok (table, answer m.past (table.toMap (cstr (datagram ++ m.rest)))) := by
  rw [serverStep_noNul fuel m table hnul hne hmax, getBranch, Htable.toMap]
  cases getHtableValue table (some (cstr (datagram ++ m.rest))) <;> rfl

/-! ## The bytes behind the datagram -/

/-- The bytes of a value that a reply has room for. -/
def carried (value : Option CString) : Option (List UInt8) :=
  value.map (fun v => v.bytes.take maxMsgElemSize)

/-- Two values are answered alike when the reply has no room for their
difference. -/
theorem answer_eq_iff (past : List UInt8) (value value' : Option CString) :
    answer past value = answer past value' ↔ carried value = carried value' := by
  have hlong : ∀ v : CString,
      readBytes (mem v ++ past) maxMsgElemSize ≠ [0] := by
    intro v h
    have hlen := congrArg List.length h
    rw [length_readBytes] at hlen
    exact absurd hlen (by decide)
  cases value with
  | none =>
    cases value' with
    | none => exact ⟨fun _ => rfl, fun _ => rfl⟩
    | some w =>
      exact ⟨fun h => absurd (List.cons.inj h).1.symm (hlong w),
        fun h => nomatch h⟩
  | some v =>
    cases value' with
    | none =>
      exact ⟨fun h => absurd (List.cons.inj h).1 (hlong v), fun h => nomatch h⟩
    | some w =>
      constructor
      · intro h
        have hbytes := congrArg (fun m => (cstr m).bytes) (List.cons.inj h).1
        simp only [cstr_readBytes_mem] at hbytes
        exact congrArg some hbytes
      · intro h
        have htake : v.bytes.take maxMsgElemSize =
            w.bytes.take maxMsgElemSize := Option.some.inj h
        have hlen := congrArg List.length htake
        rw [List.length_take, List.length_take] at hlen
        by_cases hv : strlen v < maxMsgElemSize
        · -- Both values fit, so they are equal.
          have hw : strlen w < maxMsgElemSize := by
            unfold strlen at hv ⊢
            omega
          rw [List.take_of_length_le (Nat.le_of_lt hv),
            List.take_of_length_le (Nat.le_of_lt hw)] at htake
          rw [CString.ext htake]
        · have hw : maxMsgElemSize ≤ w.bytes.length := by
            unfold strlen at hv
            omega
          rw [answer, answer, mem, mem, List.append_assoc, List.append_assoc,
            readBytes_append_le (Nat.le_of_not_lt hv),
            readBytes_append_le hw, htake]

/-- Whatever follows the request in the receive buffer, `rest` or `rest'`, the
server answers with the value that it stores under the request. -/
def LookupByRequest (table : Htable) (request : CString)
    (rest rest' : List UInt8) : Prop :=
  ∀ (fuel : Nat) (past : List UInt8) (mallocOk : Bool),
    ∀ r ∈ [rest, rest'],
      serverStep fuel { rest := r, past := past, mallocOk := mallocOk } table
          request.bytes =
        .ok (table, answer past (table.toMap request))

theorem lookupByRequest_table {table : Htable} {request : CString}
    (hne : request.bytes ≠ []) (hmax : strlen request ≤ maxMsgSize)
    (rest rest' : List UInt8) :
    LookupByRequest table request rest rest' ↔
      ∀ r ∈ [rest, rest'],
        carried (table.toMap (cstr (request.bytes ++ r))) =
          carried (table.toMap request) := by
  constructor
  · intro h r hr
    have hstep := h 0 [] true r hr
    rw [serverStep_answer 0 _ table request.noNul hne hmax, Except.ok.injEq,
      Prod.mk.injEq] at hstep
    exact (answer_eq_iff [] _ _).mp hstep.2
  · intro h fuel past mallocOk r hr
    rw [serverStep_answer fuel _ table request.noNul hne hmax,
      (answer_eq_iff past _ _).mpr (h r hr)]

/-- On a reachable table, a lookup depends on the request only exactly when
the strings that the server reads from its buffer have the value of the
request.  It does on every table exactly when a zero byte follows the request in
the buffer. -/
theorem lookupByRequest_iff (size : Nat) (hsize : 0 < size)
    (request : CString) (hne : request.bytes ≠ [])
    (hmax : strlen request ≤ maxMsgSize - 1) (rest rest' : List UInt8) :
    (∀ adds, LookupByRequest (addAll (constructHtable size hsize) adds)
        request rest rest' ↔
      ∀ r ∈ [rest, rest'],
        carried ((addAll (constructHtable size hsize) adds).toMap
            (cstr (request.bytes ++ r))) =
          carried ((addAll (constructHtable size hsize) adds).toMap
            request)) ∧
    ((∀ adds, LookupByRequest (addAll (constructHtable size hsize) adds)
        request rest rest') ↔
      peek rest 0 = 0 ∧ peek rest' 0 = 0) := by
  have hle : strlen request ≤ maxMsgSize := by omega
  refine ⟨fun adds => lookupByRequest_table hne hle rest rest', ?_⟩
  simp only [lookupByRequest_table hne hle]
  constructor
  · intro h
    -- A table with the request alone has no value for a longer key.
    have hone := h [(request, lit [])]
    have hzero : ∀ r ∈ [rest, rest'], peek r 0 = 0 := by
      intro r hr
      have hval := hone r hr
      have hinv := constructHtable_inv size hsize
      rw [addAll_toMap hinv, addAll_toMap hinv, constructHtable_toMap,
        constructHtable_toMap, Option.or_none, Option.or_none,
        List.reverse_singleton, Assoc.lookup_cons_ite, Assoc.lookup_cons_ite,
        if_pos rfl] at hval
      rw [← cstr_append_eq_iff request]
      by_contra hkey
      rw [if_neg hkey] at hval
      cases hval
    exact ⟨hzero rest (by simp), hzero rest' (by simp)⟩
  · rintro ⟨h, h'⟩ adds r hr
    have hr0 : peek r 0 = 0 := by
      rcases List.mem_cons.mp hr with rfl | hr
      · exact h
      · exact List.mem_singleton.mp hr ▸ h'
    rw [(cstr_append_eq_iff request r).mpr hr0]

theorem lookupByRequest_iff_zero :
    LookupByRequest (addAll (constructHtable 1 (by decide))
      [(lit ['k'], lit ['v'])]) (lit ['k']) [] [0, 1] :=
  (lookupByRequest_iff 1 (by decide) (lit ['k']) (by decide) (by decide) []
    [0, 1]).2.mpr ⟨rfl, rfl⟩ [(lit ['k'], lit ['v'])]

/-- A byte behind the request makes the server look up another key. -/
theorem lookup_residual :
    ¬ ∀ (size : Nat) (hsize : 0 < size) (adds : List (CString × CString))
        (request : CString), request.bytes ≠ [] →
      strlen request ≤ maxMsgSize - 1 → ∀ rest rest' : List UInt8,
      LookupByRequest (addAll (constructHtable size hsize) adds) request rest
        rest' := by
  intro h
  have hbad := h 1 (by decide) [(lit ['k'], lit ['v'])] (lit ['k'])
    (by decide) (by decide) [0] [1]
  rw [lookupByRequest_table (by decide) (by decide)] at hbad
  exact absurd (hbad [1] (by simp)) (by decide)

/-! ## The bytes behind the value -/

/-- The reply to a get does not depend on the memory behind the value. -/
def ReplyDetermined (table : Htable) (request rest : List UInt8) : Prop :=
  ∀ (fuel : Nat) (mallocOk : Bool) (past past' : List UInt8),
    serverStep fuel { rest := rest, past := past, mallocOk := mallocOk } table
        request =
      serverStep fuel { rest := rest, past := past', mallocOk := mallocOk }
        table request

/-- A reply is determined by the value exactly when the value and its
terminator fill it. -/
theorem replyDetermined_iff (table : Htable) (request rest : List UInt8)
    (hnul : (0 : UInt8) ∉ request) (hne : request ≠ [])
    (hmax : request.length ≤ maxMsgSize) (v : CString)
    (hv : table.toMap (cstr (request ++ rest)) = some v) :
    ReplyDetermined table request rest ↔ maxMsgElemSize ≤ strlen v + 1 := by
  have hmem : ∀ past, mem v ++ past = v.bytes ++ 0 :: past := by
    intro past
    rw [mem, List.append_assoc, List.singleton_append]
  constructor
  · intro h
    by_contra hshort
    -- The byte behind the terminator is sent.
    have hstep := h 0 true [0] [1]
    rw [serverStep_answer 0 _ table hnul hne hmax,
      serverStep_answer 0 _ table hnul hne hmax] at hstep
    simp only [hv, answer, Except.ok.injEq, Prod.mk.injEq, true_and,
      List.cons.injEq, and_true] at hstep
    have hbyte := congrArg (fun m => peek m (strlen v + 1)) hstep
    rw [peek_readBytes _ (by omega), peek_readBytes _ (by omega), hmem, hmem,
      peek_append, peek_append, if_neg (by simp [strlen]),
      if_neg (by simp [strlen]), strlen, Nat.add_sub_cancel_left] at hbyte
    exact absurd hbyte (by decide)
  · intro hlong fuel mallocOk past past'
    rw [serverStep_answer fuel _ table hnul hne hmax,
      serverStep_answer fuel _ table hnul hne hmax]
    simp only [hv, answer]
    have hlen : maxMsgElemSize ≤ (mem v).length := by
      rw [mem, List.length_append, List.length_singleton]
      exact hlong
    rw [readBytes_append_le hlen, readBytes_append_le hlen]

/-- A value of `MAX_MSG_ELEM_SIZE` bytes fills its reply. -/
def fullValue : CString where
  bytes := List.replicate maxMsgElemSize 118
  noNul := fun h => absurd (List.eq_of_mem_replicate h) (by decide)

theorem strlen_fullValue : strlen fullValue = maxMsgElemSize :=
  List.length_replicate

theorem replyDetermined_iff_full :
    ReplyDetermined (addAll (constructHtable 1 (by decide))
      [(lit ['k'], fullValue)]) (lit ['k']).bytes [] := by
  refine (replyDetermined_iff _ (lit ['k']).bytes [] (lit ['k']).noNul
    (by decide) (by decide) fullValue ?_).mpr ?_
  · rw [addAll_toMap (constructHtable_inv 1 _), constructHtable_toMap,
      Option.or_none, List.append_nil, cstr_bytes, List.reverse_singleton,
      Assoc.lookup_cons_ite, if_pos rfl]
  · rw [strlen_fullValue]
    exact Nat.le_succ _

/-- A short value takes other memory with it. -/
theorem reply_discloses :
    ¬ ∀ (table : Htable) (request rest : List UInt8) (v : CString),
      (0 : UInt8) ∉ request → request ≠ [] → request.length ≤ maxMsgSize →
      table.toMap (cstr (request ++ rest)) = some v →
      ReplyDetermined table request rest := by
  intro h
  have hstep := h (addAll (constructHtable 1 (by decide))
    [(lit ['k'], lit ['v'])]) (lit ['k']).bytes [] (lit ['v'])
    (by decide) (by decide) (by decide) (by decide) 0 true [0] [1]
  rw [serverStep_answer 0 _ _ (by decide) (by decide) (by decide),
    serverStep_answer 0 _ _ (by decide) (by decide) (by decide),
    Except.ok.injEq, Prod.mk.injEq] at hstep
  have hval : (addAll (constructHtable 1 (by decide))
      [(lit ['k'], lit ['v'])]).toMap (cstr ((lit ['k']).bytes ++ [])) =
        some (lit ['v']) := by decide
  have hbytes := hstep.2
  rw [hval] at hbytes
  have hbyte := congrArg (fun m => peek m 2) (List.cons.inj hbytes).1
  simp only at hbyte
  rw [peek_readBytes _ (by decide), peek_readBytes _ (by decide)] at hbyte
  exact absurd hbyte (by decide)

/-! ## The receive buffer of the client -/

/-- The stores of one pass of the reply loop into `in_msg`: those of `recv`,
and the terminator. -/
def replyWrites (datagram : List UInt8) : List Write :=
  writesFrom 0 (received datagram) ++ [((received datagram).length, 0)]

/-- Every store of the pass is one into the `MAX_MSG_ELEM_SIZE` bytes of
`in_msg`. -/
def StaysInBounds (datagram : List UInt8) : Prop :=
  ∀ w ∈ replyWrites datagram, w.1 < maxMsgElemSize

/-- The buffer holds the string that the loop goes on with. -/
theorem cstr_replyWrites (inMsg datagram : List UInt8) :
    cstr (applyWrites inMsg (replyWrites datagram)) = replyValue datagram := by
  have hlen : (received datagram ++ [0]).length =
      (received datagram).length + 1 := List.length_append
  have hbuf : applyWrites inMsg (replyWrites datagram) =
      poke (pokes inMsg 0 (received datagram)) (received datagram).length 0 := by
    rw [replyWrites, applyWrites_append, applyWrites_writesFrom]
    rfl
  have hpeek : ∀ i, i < (received datagram).length →
      peek (poke (pokes inMsg 0 (received datagram))
        (received datagram).length 0) i = peek (received datagram) i := by
    intro i hi
    rw [peek_poke, if_neg (Nat.ne_of_lt hi), peek_pokes, if_pos (by omega),
      Nat.sub_zero]
  rw [hbuf, replyValue, cstr_concat_zero]
  refine cstr_eq_cstr hpeek ?_
  rw [peek_poke, if_pos rfl]

/-- The pass stays in bounds exactly when the datagram leaves room for its
terminator. -/
theorem staysInBounds_iff (datagram : List UInt8) :
    StaysInBounds datagram ↔ datagram.length < maxMsgElemSize := by
  have hlen : (received datagram).length =
      min maxMsgElemSize datagram.length := List.length_take
  constructor
  · intro h
    have hterm := h ((received datagram).length, 0)
      (List.mem_append_right _ List.mem_cons_self)
    simp only at hterm
    omega
  · intro h w hw
    rcases List.mem_append.mp hw with hw | hw
    · have hlt := lt_of_mem_writesFrom hw
      omega
    · rw [List.mem_singleton.mp hw]
      simp only
      omega

/-- The client reads the value `v` in a reply: it is the string in its receive
buffer, and it is counted, and returned when its counter is large enough. -/
structure Decodes (v : CString) (reply : List UInt8) : Prop where
  buffer : ∀ inMsg, cstr (applyWrites inMsg (replyWrites reply)) = v
  counted : ∀ (R : Nat) (st : GetState) (seen : List CString),
    Counts st.table seen →
      (fires R (seen.count v + 1) = true ∧
        getReply R st reply = .done (.ok (.ERR_NONE, some v))) ∨
      (fires R (seen.count v + 1) = false ∧
        ∃ table, getReply R st reply = .again { st with table := table } ∧
          Counts table (v :: seen))

theorem decodes_readBytes {v : CString} (hv : strlen v ≤ maxMsgElemSize)
    (past : List UInt8) :
    Decodes v (readBytes (mem v ++ past) maxMsgElemSize) := by
  obtain ⟨hfound, hvalue⟩ := replyValue_of_get v past hv
  constructor
  · intro inMsg
    rw [cstr_replyWrites, hvalue]
  · intro R st seen hcounts
    rcases getReply_spec (R := R) hcounts
      (readBytes (mem v ++ past) maxMsgElemSize) with
      ⟨hnf, _⟩ | ⟨_, hfire, hbody⟩ | ⟨_, hfire, hbody⟩
    · exact absurd (hfound.symm.trans hnf) Bool.false_ne_true
    · rw [hvalue] at hfire hbody
      exact Or.inl ⟨hfire, hbody⟩
    · rw [hvalue] at hfire hbody
      exact Or.inr ⟨hfire, hbody⟩

/-- For every stored value, the client decodes the reply of the server and
stores the terminator behind its receive buffer. -/
theorem decodesInBounds_never (fuel : Nat) (m : ServerMem) (table : Htable)
    (request : List UInt8) (hnul : (0 : UInt8) ∉ request)
    (hne : request ≠ []) (hmax : request.length ≤ maxMsgSize) (v : CString)
    (hv : table.toMap (cstr (request ++ m.rest)) = some v)
    (hlen : strlen v ≤ maxMsgElemSize) :
    ∃ reply, serverStep fuel m table request = .ok (table, [reply]) ∧
      Decodes v reply ∧ ¬ StaysInBounds reply := by
  refine ⟨readBytes (mem v ++ m.past) maxMsgElemSize, ?_,
    decodes_readBytes hlen m.past, ?_⟩
  · rw [serverStep_answer fuel m table hnul hne hmax, hv]
    rfl
  · rw [staysInBounds_iff, length_readBytes]
    exact Nat.lt_irrefl _

/-- The memory that a pass finds when nothing is behind. -/
def emptyMem : ServerMem := { rest := [], past := [], mallocOk := true }

theorem decodesInBounds_never_demo :
    ∃ reply, serverStep 0 emptyMem (addAll (constructHtable 1 (by decide))
        [(lit ['k'], lit ['v'])]) (lit ['k']).bytes =
      .ok (addAll (constructHtable 1 (by decide)) [(lit ['k'], lit ['v'])],
        [reply]) ∧
      Decodes (lit ['v']) reply ∧ ¬ StaysInBounds reply :=
  decodesInBounds_never 0 emptyMem _ (lit ['k']).bytes (lit ['k']).noNul
    (by decide) (by decide) (lit ['v']) (by decide)
    (strlen_lit_le_max _ (by decide))

/-- The reply for a value of one byte has `MAX_MSG_ELEM_SIZE` bytes, too. -/
theorem reply_overflows :
    ¬ ∀ (table : Htable) (request past : List UInt8) (v : CString),
      (0 : UInt8) ∉ request → request ≠ [] → request.length ≤ maxMsgSize →
      table.toMap (cstr request) = some v → strlen v ≤ maxMsgElemSize →
      ∀ reply ∈ answer past (table.toMap (cstr request)),
        Decodes v reply ∧ StaysInBounds reply := by
  intro h
  have hval : (addAll (constructHtable 1 (by decide))
      [(lit ['k'], lit ['v'])]).toMap (cstr (lit ['k']).bytes) =
        some (lit ['v']) := by decide
  have hbounds := (h _ (lit ['k']).bytes [] (lit ['v']) (lit ['k']).noNul
    (by decide) (by decide) hval (strlen_lit_le_max _ (by decide))
    (readBytes (mem (lit ['v']) ++ []) maxMsgElemSize) (by
      rw [hval]
      exact List.mem_cons_self)).2
  rw [staysInBounds_iff, length_readBytes] at hbounds
  exact absurd hbounds (Nat.lt_irrefl _)

end PpsDht
