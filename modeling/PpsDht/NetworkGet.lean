import PpsDht.Network
import PpsDht.Server
import PpsDht.Lib.Tally

/-!
# Counting equal replies

The reply loop of `network_get` keeps a counter per value in one byte of a
table, and compares it with `R` as an `int`.  `Counts` is its invariant: the
table maps every value to the number of its occurrences so far, modulo 256.
`networkGet_eq` reads the loop as `Tally.firstWith`: it stops at the first
value whose number of occurrences `fires`.

`readQuorum_iff` says when that is the first value to occur `R` times.
-/

namespace PpsDht

open CMem Tally

/-! ## Replies -/

/-- The one-byte reply of a server that has no value. -/
def isNotFound (datagram : List UInt8) : Bool :=
  decide ((received datagram).length = 1 ∧ peek (received datagram) 0 = 0)

/-- The value that a client reads in a reply. -/
def replyValue (datagram : List UInt8) : CString :=
  cstr (received datagram ++ [0])

/-- The values among the replies, in the order of their arrival. -/
def valueReplies (replies : List (List UInt8)) : List CString :=
  (replies.filter (fun datagram => !isNotFound datagram)).map replyValue

/-- The number of not-found replies. -/
def notFoundReplies (replies : List (List UInt8)) : Nat :=
  replies.countP isNotFound

theorem valueReplies_cons_of_notFound {datagram : List UInt8}
    (h : isNotFound datagram = true) (replies : List (List UInt8)) :
    valueReplies (datagram :: replies) = valueReplies replies := by
  rw [valueReplies, List.filter_cons_of_neg (by simp [h]), valueReplies]

theorem valueReplies_cons_of_value {datagram : List UInt8}
    (h : isNotFound datagram = false) (replies : List (List UInt8)) :
    valueReplies (datagram :: replies) =
      replyValue datagram :: valueReplies replies := by
  rw [valueReplies, List.filter_cons_of_pos (by simp [h]), List.map_cons,
    valueReplies]

/-- The reply of a server to a get: a client reads the stored value. -/
theorem replyValue_of_get (v : CString) (past : List UInt8)
    (hv : strlen v ≤ maxMsgElemSize) :
    isNotFound (readBytes (mem v ++ past) maxMsgElemSize) = false ∧
      replyValue (readBytes (mem v ++ past) maxMsgElemSize) = v := by
  have hrecv : received (readBytes (mem v ++ past) maxMsgElemSize) =
      readBytes (mem v ++ past) maxMsgElemSize := by
    rw [received, List.take_of_length_le]
    rw [length_readBytes]
  constructor
  · rw [isNotFound, hrecv, length_readBytes, decide_eq_false_iff_not]
    intro h
    exact absurd h.1 (by decide)
  · apply CString.ext
    rw [replyValue, hrecv, cstr_concat_zero, cstr_readBytes_mem,
      List.take_of_length_le hv]

/-! ## The counters -/

/-- Whether the test of the reply loop holds for a value that has occurred `j`
times. -/
def fires (R j : Nat) : Bool := decide (schar (UInt8.ofNat j) ≥ int32 R)

/-- The table maps every value in `seen` to its counter. -/
structure Counts (table : Htable) (seen : List CString) : Prop where
  inv : table.Inv
  counter : ∀ w, table.toMap w =
    if seen.count w = 0 then none
    else some (cstr [UInt8.ofNat (seen.count w)])

theorem counts_nil :
    Counts (constructHtable htableSize htableSize_pos) [] where
  inv := constructHtable_inv _ _
  counter w := by
    rw [constructHtable_toMap, List.count_nil, if_pos rfl]

theorem cstr_byte_zero (b : UInt8) : cstr [b, 0] = cstr [b] :=
  cstr_eq_cstr (fun i hi => by
    have h0 : i = 0 := by simpa using hi
    rw [h0]
    rfl) rfl

/-- One increment, on the string that the table holds after `n` occurrences. -/
theorem nextCount_spec (n : Nat) :
    peek (nextCount (if n = 0 then none else some (cstr [UInt8.ofNat n]))) 0 =
        UInt8.ofNat (n + 1) ∧
      cstr (nextCount (if n = 0 then none
        else some (cstr [UInt8.ofNat n]))) = cstr [UInt8.ofNat (n + 1)] := by
  have hadd : UInt8.ofNat (n + 1) = UInt8.ofNat n + 1 := by
    rw [UInt8.ofNat_add]
    rfl
  by_cases hn : n = 0
  · subst hn
    exact ⟨rfl, cstr_byte_zero 1⟩
  · rw [if_neg hn, hadd]
    generalize UInt8.ofNat n = b
    by_cases hb : b = 0
    · subst hb
      exact ⟨rfl, rfl⟩
    · have hmem : mem (cstr [b]) = [b, 0] := by
        have hbne : (b != 0) = true := by simpa using hb
        have hbytes : (cstr [b]).bytes = [b] := by
          show List.takeWhile (· != 0) [b] = [b]
          rw [List.takeWhile_cons, if_pos hbne, List.takeWhile_nil]
        rw [mem, hbytes, List.singleton_append]
      have hpoke : nextCount (some (cstr [b])) = [b + 1, 0] := by
        rw [nextCount]
        simp only [hmem]
        rfl
      rw [hpoke]
      exact ⟨rfl, cstr_byte_zero (b + 1)⟩

/-- One reply: a not-found reply is counted; a value ends the loop, or its
counter goes up. -/
theorem getReply_spec {R : Nat} {st : GetState} {seen : List CString}
    (h : Counts st.table seen) (datagram : List UInt8) :
    (isNotFound datagram = true ∧ getReply R st datagram =
      .again { st with errorNotFound := st.errorNotFound + 1 }) ∨
    (isNotFound datagram = false ∧
      fires R (seen.count (replyValue datagram) + 1) = true ∧
      getReply R st datagram =
        .done (.ok (.ERR_NONE, some (replyValue datagram)))) ∨
    (isNotFound datagram = false ∧
      fires R (seen.count (replyValue datagram) + 1) = false ∧
      ∃ table, getReply R st datagram = .again { st with table := table } ∧
        Counts table (replyValue datagram :: seen)) := by
  by_cases hnf : isNotFound datagram = true
  · refine Or.inl ⟨hnf, ?_⟩
    rw [isNotFound, decide_eq_true_eq] at hnf
    rw [getReply]
    simp only
    rw [if_pos hnf]
  · have hval : isNotFound datagram = false := by simpa using hnf
    rw [isNotFound, decide_eq_true_eq] at hnf
    obtain ⟨hpeek, hcstr⟩ := nextCount_spec (seen.count (replyValue datagram))
    rw [← h.counter] at hpeek hcstr
    have hstep : getReply R st datagram =
        if schar (UInt8.ofNat (seen.count (replyValue datagram) + 1)) ≥ int32 R
        then .done (.ok (.ERR_NONE, some (replyValue datagram)))
        else .again { st with
          table := (addHtableValue true st.table (replyValue datagram) (some
            (cstr [UInt8.ofNat
              (seen.count (replyValue datagram) + 1)]))).2 } := by
      rw [← hcstr, ← hpeek, getReply]
      simp only
      rw [if_neg hnf]
      rfl
    by_cases hfire : fires R (seen.count (replyValue datagram) + 1) = true
    · refine Or.inr (Or.inl ⟨hval, hfire, ?_⟩)
      rw [fires, decide_eq_true_eq] at hfire
      rw [hstep, if_pos hfire]
    · have hfalse : fires R (seen.count (replyValue datagram) + 1) = false := by
        simpa using hfire
      refine Or.inr (Or.inr ⟨hval, hfalse,
        (addHtableValue true st.table (replyValue datagram)
          (some (cstr [UInt8.ofNat
            (seen.count (replyValue datagram) + 1)]))).2, ?_, ?_⟩)
      · rw [fires, decide_eq_true_eq] at hfire
        rw [hstep, if_neg hfire]
      · refine ⟨addHtableValue_inv h.inv _ _, ?_⟩
        intro w
        rw [getHtableValue_add h.inv]
        by_cases hw : w = replyValue datagram
        · subst hw
          rw [if_pos rfl, List.count_cons_self, if_neg (Nat.succ_ne_zero _)]
        · rw [if_neg hw, List.count_cons_of_ne (Ne.symm hw), h.counter]

/-! ## The loop -/

/-- The result of the reply loop, with the replies in `replies` ahead. -/
def getOutcome (R : Nat) (nodes : Option NodeList) (seen : List CString)
    (notFound : UInt32) (replies : List (List UInt8)) :
    Except Fault (ErrorCode × Option CString) :=
  match firstWith (fires R) seen (valueReplies replies) with
  | some v => .ok (.ERR_NONE, some v)
  | none => giveUp nodes
      (if notFound + UInt32.ofNat (notFoundReplies replies) = 0
        then .ERR_NETWORK else .ERR_NOT_FOUND)

/-- `network_get`, once its requests are sent. -/
theorem networkGet_eq {env : Env} {client : Client} {key : CString}
    {nodes : Option NodeList} {sent : List (Node × List UInt8)}
    (hkey : strlen key ≤ maxMsgElemSize)
    (hsend : getRequests env client key = .ok (nodes, sent))
    (replies : List (List UInt8)) :
    networkGet env client key replies =
      getOutcome client.args.R nodes [] 0 replies := by
  have hstep : ∀ (st : GetState) (datagram : List UInt8)
      (rest : List (List UInt8)),
      (∃ seen, Counts st.table seen ∧
        getOutcome client.args.R nodes seen st.errorNotFound
          (datagram :: rest) = getOutcome client.args.R nodes [] 0 replies) →
      (∃ st', getReply client.args.R st datagram = .again st' ∧
        ∃ seen, Counts st'.table seen ∧
          getOutcome client.args.R nodes seen st'.errorNotFound rest =
            getOutcome client.args.R nodes [] 0 replies) ∨
      ∃ r, getReply client.args.R st datagram = .done r ∧
        r = getOutcome client.args.R nodes [] 0 replies := by
    intro st datagram rest h
    obtain ⟨seen, hcounts, htarget⟩ := h
    rw [← htarget]
    rcases getReply_spec (R := client.args.R) hcounts datagram with
      ⟨hnf, hbody⟩ | ⟨hval, hfire, hbody⟩ | ⟨hval, hfire, table, hbody, hc⟩
    · refine Or.inl ⟨_, hbody, seen, hcounts, ?_⟩
      have hcount : notFoundReplies (datagram :: rest) =
          notFoundReplies rest + 1 := List.countP_cons_of_pos hnf
      have hsum : st.errorNotFound + 1 +
            UInt32.ofNat (notFoundReplies rest) =
          st.errorNotFound + UInt32.ofNat (notFoundReplies rest + 1) := by
        rw [UInt32.ofNat_add, UInt32.add_assoc,
          UInt32.add_comm 1 (UInt32.ofNat _)]
        rfl
      rw [getOutcome, getOutcome, valueReplies_cons_of_notFound hnf, hcount,
        ← hsum]
    · refine Or.inr ⟨_, hbody, ?_⟩
      rw [getOutcome, valueReplies_cons_of_value hval, firstWith,
        if_pos hfire]
    · refine Or.inl ⟨_, hbody, _, hc, ?_⟩
      have hcount : notFoundReplies (datagram :: rest) =
          notFoundReplies rest :=
        List.countP_cons_of_neg (by simp [hval])
      rw [getOutcome, getOutcome, valueReplies_cons_of_value hval, firstWith,
        hfire, if_neg Bool.false_ne_true, hcount]
  rw [networkGet, if_neg (by omega), hsend]
  refine Loop.feed_inv (fun (st : GetState) rest =>
      ∃ seen, Counts st.table seen ∧
        getOutcome client.args.R nodes seen st.errorNotFound rest =
          getOutcome client.args.R nodes [] 0 replies)
    hstep ?_ replies ⟨[], counts_nil, rfl⟩
  intro st h
  obtain ⟨seen, _, htarget⟩ := h
  rw [← htarget, getOutcome]
  have hzero : st.errorNotFound + UInt32.ofNat (notFoundReplies []) =
      st.errorNotFound := UInt32.add_zero _
  rw [hzero]
  rfl

/-! ## When the counters suffice -/

theorem schar_ofNat {j : Nat} (hj : j ≤ 127) : schar (UInt8.ofNat j) = j := by
  have hmod : (UInt8.ofNat j).toNat = j := by
    rw [UInt8.toNat_ofNat']
    omega
  rw [schar, hmod, if_pos (by omega)]

theorem schar_le (b : UInt8) : schar b ≤ 127 := by
  have hb := b.toNat_lt
  rw [schar]
  split <;> omega

/-- The counter reaches `R` only after `R` replies. -/
theorem le_of_fires {R j : Nat} (hR : R < 2 ^ 31) (h : fires R j = true) :
    R ≤ j := by
  have hint : int32 R = R := int32_of_lt hR
  have hchar : schar (UInt8.ofNat j) ≤ j := by
    have hmod : (UInt8.ofNat j).toNat = j % 256 := UInt8.toNat_ofNat'
    have hle := Nat.mod_le j 256
    rw [schar, hmod]
    split <;> omega
  rw [fires, decide_eq_true_eq, hint] at h
  omega

/-- Among the counters that fit a `char`, from `R` on. -/
theorem fires_eq {R j : Nat} (hR : R ≤ 127) (hj : j ≤ 127) :
    fires R j = decide (R ≤ j) := by
  have hint : int32 R = R := int32_of_lt (by omega)
  rw [fires, schar_ofNat hj, hint]
  exact decide_eq_decide.mpr (by omega)

/-- Equal values end the reply loop of `network_get` when there are `R`. -/
theorem getReply_endsAfter {R : Nat} (hR : R ≤ 127) (value : CString)
    (notFound : UInt32) :
    Loop.EndsAfter (getReply R)
      (fun datagram => isNotFound datagram = false ∧
        replyValue datagram = value)
      (fun j st => Counts st.table (List.replicate j value) ∧
        st.errorNotFound = notFound) R
      (.ok (.ERR_NONE, some value)) where
  again := by
    rintro j st datagram hj ⟨hfound, rfl⟩ ⟨hcounts, hnone⟩
    rcases getReply_spec (R := R) hcounts datagram with
      ⟨hnf, _⟩ | ⟨_, hfire, _⟩ | ⟨_, _, table, hbody, hcounts'⟩
    · rw [hfound] at hnf
      cases hnf
    · rw [List.count_replicate_self, fires_eq hR (by omega),
        decide_eq_true_eq] at hfire
      omega
    · exact ⟨_, hbody, hcounts', hnone⟩
  done := by
    rintro j st datagram hj ⟨hfound, rfl⟩ ⟨hcounts, _⟩
    rcases getReply_spec (R := R) hcounts datagram with
      ⟨hnf, _⟩ | ⟨_, _, hbody⟩ | ⟨_, hfire, _⟩
    · rw [hfound] at hnf
      cases hnf
    · exact hbody
    · rw [List.count_replicate_self, fires_eq hR (by omega),
        decide_eq_false_iff_not] at hfire
      omega

/-- With a small `(int) R` the loop stops at the first value to occur that many
times, at least once. -/
theorem firstWith_fires_narrow {R : Nat} (h : int32 R ≤ 127)
    (values : List CString) :
    firstWith (fires R) [] values =
      firstToOccur (max (int32 R) 1).toNat values := by
  have hle : (max (int32 R) 1).toNat ≤ 127 := by omega
  refine firstWith_eq_firstToOccur (by omega) ?_ ?_ values
  · rw [fires, schar_ofNat hle, decide_eq_true_eq]
    omega
  · intro j hj hlt
    rw [fires, schar_ofNat (by omega), decide_eq_false_iff_not]
    omega

/-- No `char` reaches a larger `(int) R`. -/
theorem firstWith_fires_wide {R : Nat} (h : 127 < int32 R)
    (values : List CString) : firstWith (fires R) [] values = none := by
  refine firstWith_eq_none ?_ values []
  intro j
  have hle := schar_le (UInt8.ofNat j)
  rw [fires, decide_eq_false_iff_not]
  omega

/-- A get that has sent its requests has a value, or no value is in `R`
answers. -/
theorem networkGet_few {env : Env} {client : Client} {key : CString}
    {list : NodeList} {sent : List (Node × List UInt8)}
    (hkey : strlen key ≤ maxMsgElemSize)
    (hsend : getRequests env client key = .ok (some list, sent))
    (hR : 1 ≤ client.args.R) (hR' : client.args.R ≤ 127)
    (replies : List (List UInt8)) :
    (∃ value, networkGet env client key replies =
        .ok (.ERR_NONE, some value)) ∨
      (networkGet env client key replies = .ok (.ERR_NETWORK, none) ∨
        networkGet env client key replies = .ok (.ERR_NOT_FOUND, none)) ∧
      ∀ value, (valueReplies replies).count value < client.args.R := by
  have hint : int32 client.args.R = client.args.R := int32_of_lt (by omega)
  have hmax : (max (int32 client.args.R) 1).toNat = client.args.R := by
    rw [hint]
    omega
  rw [networkGet_eq hkey hsend, getOutcome, firstWith_fires_narrow (by omega),
    hmax]
  cases hfirst : firstToOccur client.args.R (valueReplies replies) with
  | some value => exact Or.inl ⟨value, rfl⟩
  | none =>
    refine Or.inr ⟨?_, (firstToOccur_eq_none_iff hR _).mp hfirst⟩
    simp only [giveUp]
    split
    · exact Or.inl rfl
    · exact Or.inr rfl

theorem giveUp_ne_value (nodes : Option NodeList) (err : ErrorCode)
    (v : CString) : giveUp nodes err ≠ .ok (.ERR_NONE, some v) := by
  intro h
  cases nodes with
  | none => cases h
  | some list => cases h

/-- A get that returns `ERR_NONE` has read its value `R` times. -/
theorem networkGet_none {env : Env} {client : Client} {key u : CString}
    {replies : List (List UInt8)} (hR : client.args.R < 2 ^ 31)
    (h : networkGet env client key replies = .ok (.ERR_NONE, some u)) :
    client.args.R ≤ (valueReplies replies).count u := by
  by_cases hkey : strlen key ≤ maxMsgElemSize
  · cases hsend : getRequests env client key with
    | error fault =>
      rw [networkGet, if_neg (by omega), hsend] at h
      cases h
    | ok sent =>
      obtain ⟨nodes, _⟩ := sent
      rw [networkGet_eq hkey hsend, getOutcome] at h
      cases hfirst : firstWith (fires client.args.R) []
          (valueReplies replies) with
      | none =>
        rw [hfirst] at h
        exact absurd h (giveUp_ne_value _ _ u)
      | some w =>
        rw [hfirst] at h
        cases h
        obtain ⟨j, hfire, hj⟩ := exists_of_firstWith _ _ hfirst
        rw [List.count_nil, Nat.zero_add] at hj
        exact (le_of_fires hR hfire).trans hj
  · rw [networkGet, if_pos (by omega)] at h
    cases h

/-- A get that returns `ERR_NONE` returns the value of a reply. -/
theorem networkGet_mem {env : Env} {client : Client} {key u : CString}
    {replies : List (List UInt8)}
    (h : networkGet env client key replies = .ok (.ERR_NONE, some u)) :
    ∃ reply ∈ replies, isNotFound reply = false ∧ replyValue reply = u := by
  by_cases hkey : strlen key ≤ maxMsgElemSize
  · cases hsend : getRequests env client key with
    | error fault =>
      rw [networkGet, if_neg (by omega), hsend] at h
      cases h
    | ok sent =>
      obtain ⟨nodes, _⟩ := sent
      rw [networkGet_eq hkey hsend, getOutcome] at h
      cases hfirst : firstWith (fires client.args.R) []
          (valueReplies replies) with
      | none =>
        rw [hfirst] at h
        exact absurd h (giveUp_ne_value _ _ u)
      | some w =>
        rw [hfirst] at h
        cases h
        have hmem := mem_of_firstWith _ _ hfirst
        obtain ⟨reply, hreply, hvalue⟩ := List.mem_map.mp hmem
        rw [List.mem_filter, Bool.not_eq_true'] at hreply
        exact ⟨reply, hreply.1, hreply.2, hvalue⟩
  · rw [networkGet, if_pos (by omega)] at h
    cases h

/-- The read quorum law, for the result of `network_get`: it returns the first
value to occur `R` times, and without such a value it says whether a server
answered that it has none. -/
def ReadQuorum (R : Nat) (replies : List (List UInt8))
    (result : Except Fault (ErrorCode × Option CString)) : Prop :=
  (∀ v, result = .ok (.ERR_NONE, some v) ↔
    FirstToOccur R (valueReplies replies) v) ∧
  ((∀ v, (valueReplies replies).count v < R) →
    result = .ok (if notFoundReplies replies = 0 then .ERR_NETWORK
      else .ERR_NOT_FOUND, none))

/-- The one-byte counters and the cut of `R` to an `int` do not show on these
replies. -/
structure CountersSuffice (R : Nat) (replies : List (List UInt8)) : Prop where
  narrow : int32 R ≤ 127 →
    firstToOccur (max (int32 R) 1).toNat (valueReplies replies) =
      firstToOccur R (valueReplies replies)
  wide : 127 < int32 R → ∀ v, (valueReplies replies).count v < R

/-- They never show for `R` up to 127. -/
theorem countersSuffice_of_le {R : Nat} (hR : 1 ≤ R) (hle : R ≤ 127)
    (replies : List (List UInt8)) : CountersSuffice R replies := by
  have hint : int32 R = R := int32_of_lt (by omega)
  constructor
  · intro _
    have hmax : (max (int32 R) 1).toNat = R := by omega
    rw [hmax]
  · intro hwide
    omega

/-- A failure is reported as the law says: the node list to free is not
`NULL`, and the number of not-found replies is not cut to zero. -/
def FailureReported (client : Client) (replies : List (List UInt8)) : Prop :=
  (∀ v, (valueReplies replies).count v < client.args.R) →
    client.args.N ≠ 0 ∧
      (notFoundReplies replies = 0 ∨ ¬ 2 ^ 32 ∣ notFoundReplies replies)

/-- The node list is `NULL` for `N = 0` only. -/
theorem getRequests_nodes {env : Env} {client : Client} {key : CString}
    {nodes : Option NodeList} {sent : List (Node × List UInt8)}
    (h : getRequests env client key = .ok (nodes, sent)) :
    nodes = none ↔ client.args.N = 0 := by
  have hget : ringGetNodesForKey env client.server client.args.N key =
      .ok nodes := by
    rw [getRequests, requests] at h
    cases hr : ringGetNodesForKey env client.server client.args.N key with
    | error fault =>
      rw [hr] at h
      cases h
    | ok list =>
      rw [hr] at h
      simp only at h
      split at h
      · cases h
      · cases h
        rfl
  rw [ringGetNodesForKey, ringGetNodesForKeyFuel] at hget
  by_cases hN : client.args.N = 0
  · rw [if_pos hN] at hget
    cases hget
    exact ⟨fun _ => hN, fun _ => rfl⟩
  · rw [if_neg hN] at hget
    split at hget
    · cases hget
    · split at hget
      · cases hget
      · refine ⟨fun hnone => ?_, fun h0 => absurd h0 hN⟩
        rw [hnone] at hget
        cases hrun : runLoop (walkBody client.server) _ _ with
        | error fault =>
          rw [hrun] at hget
          cases hget
        | ok list =>
          rw [hrun] at hget
          cases hget

theorem ofNat_eq_zero_iff (n : Nat) : UInt32.ofNat n = 0 ↔ 2 ^ 32 ∣ n := by
  rw [← UInt32.toNat_inj, UInt32.toNat_ofNat', Nat.dvd_iff_mod_eq_zero]
  rfl

/-- The failure exit reports what the law says. -/
theorem giveUp_eq_iff (nodes : Option NodeList) (n : Nat) :
    giveUp nodes (if 0 + UInt32.ofNat n = 0 then .ERR_NETWORK
        else .ERR_NOT_FOUND) =
      .ok (if n = 0 then .ERR_NETWORK else .ERR_NOT_FOUND, none) ↔
    nodes ≠ none ∧ (n = 0 ∨ ¬ 2 ^ 32 ∣ n) := by
  rw [UInt32.zero_add, ← ofNat_eq_zero_iff]
  cases nodes with
  | none => simp [giveUp]
  | some list =>
    by_cases hn : n = 0
    · subst hn
      simp [giveUp]
    · by_cases hz : UInt32.ofNat n = 0
      · simp [giveUp, hn, hz]
      · simp [giveUp, hn, hz]

/-- `network_get` obeys the read quorum law exactly when its counters suffice
and it can report its failure. -/
theorem readQuorum_iff (env : Env) (client : Client) (key : CString)
    (hkey : strlen key ≤ maxMsgElemSize) (hR : 1 ≤ client.args.R)
    (nodes : Option NodeList) (sent : List (Node × List UInt8))
    (hsend : getRequests env client key = .ok (nodes, sent))
    (replies : List (List UInt8)) :
    ReadQuorum client.args.R replies (networkGet env client key replies) ↔
      CountersSuffice client.args.R replies ∧
        FailureReported client replies := by
  have hnodes : client.args.N ≠ 0 ↔ nodes ≠ none :=
    not_congr (getRequests_nodes hsend).symm
  rw [networkGet_eq hkey hsend, getOutcome, FailureReported, hnodes,
    ReadQuorum, ← firstToOccur_eq_none_iff hR]
  simp only [← firstToOccur_eq_some_iff hR]
  have hsuffice : CountersSuffice client.args.R replies ↔
      firstWith (fires client.args.R) [] (valueReplies replies) =
        firstToOccur client.args.R (valueReplies replies) := by
    by_cases hint : int32 client.args.R ≤ 127
    · rw [firstWith_fires_narrow hint]
      exact ⟨fun h => h.narrow hint, fun h => ⟨fun _ => h, fun h' => by omega⟩⟩
    · rw [firstWith_fires_wide (by omega), eq_comm,
        firstToOccur_eq_none_iff hR]
      exact ⟨fun h => h.wide (by omega), fun h => ⟨fun h' => by omega,
        fun _ => h⟩⟩
  rw [hsuffice]
  cases hfirst : firstWith (fires client.args.R) [] (valueReplies replies) with
  | some u =>
    constructor
    · intro h
      have hu := (h.1 u).mp rfl
      exact ⟨hu.symm, fun hnone => by rw [hu] at hnone; cases hnone⟩
    · intro h
      refine ⟨fun v => ?_, fun hnone => by rw [← h.1] at hnone; cases hnone⟩
      rw [← h.1]
      simp
  | none =>
    simp only
    rw [giveUp_eq_iff]
    constructor
    · intro h
      refine ⟨?_, h.2⟩
      cases hg : firstToOccur client.args.R (valueReplies replies) with
      | none => rfl
      | some v => exact absurd ((h.1 v).mpr hg) (giveUp_ne_value _ _ v)
    · intro h
      refine ⟨fun v => ?_, h.2⟩
      rw [← h.1]
      exact ⟨fun hv => absurd hv (giveUp_ne_value _ _ v), nofun⟩

/-- A reply of a server that has the value `v`. -/
def demoReply : List UInt8 :=
  readBytes (mem (lit ['v']) ++ []) maxMsgElemSize

theorem valueReplies_demo (n : Nat) :
    valueReplies (List.replicate n demoReply) =
      List.replicate n (lit ['v']) := by
  obtain ⟨hval, hread⟩ := replyValue_of_get (lit ['v']) []
    (strlen_lit_le_max _ (by decide))
  rw [valueReplies, List.filter_replicate, demoReply, hval,
    Bool.not_false, if_pos rfl, List.map_replicate, hread]

/-- Two servers, `N = 2` and `R = 2`. -/
def demoClient : Client where
  name := lit ['g', 'e', 't']
  server := demoList
  socket := 4
  args := { N := 2, R := 2, W := 2 }

/-- Two equal replies make a quorum of two. -/
theorem readQuorum_iff_demo :
    ∃ nodes sent, getRequests demoEnv demoClient (lit ['k']) =
        .ok (nodes, sent) ∧
      ReadQuorum 2 (List.replicate 2 demoReply)
        (networkGet demoEnv demoClient (lit ['k'])
          (List.replicate 2 demoReply)) := by
  have hreach : RequestsReach demoEnv demoClient (lit ['k']) (lit ['k']).bytes :=
    (requestsReach_iff demoEnv demoClient _ _ (by decide)).mpr (by decide)
  obtain ⟨nodes, sent, hsend, _⟩ := hreach
  refine ⟨nodes, sent, hsend, ?_⟩
  refine (readQuorum_iff demoEnv demoClient (lit ['k'])
    (strlen_lit_le_max _ (by decide)) (by decide) nodes sent hsend
    (List.replicate 2 demoReply)).mpr
    ⟨countersSuffice_of_le (by decide) (by decide) _, ?_⟩
  intro hnone
  have hcount := hnone (lit ['v'])
  rw [valueReplies_demo, List.count_replicate_self] at hcount
  exact absurd hcount (by decide)

/-- 128 servers, one virtual node each. -/
def wideRing : NodeList where
  nodes := (List.range 128).map (fun i =>
    { addr := ⟨1, UInt16.ofNat i⟩, id := 1, sha := [20] })
  allocatedSize := 128
  fits := by rw [List.length_map, List.length_range]

theorem length_servers_wideRing : (servers wideRing).length = 128 := by
  have hmap : wideRing.nodes.map Node.addr =
      (List.range 128).map (fun i => ⟨1, UInt16.ofNat i⟩) := by
    rw [wideRing, List.map_map]
    rfl
  have hnodup : ((List.range 128).map
      (fun i => (⟨1, UInt16.ofNat i⟩ : SockAddr))).Nodup := by
    rw [List.nodup_map_iff_inj_on List.nodup_range]
    intro i hi j hj h
    have hport := congrArg (fun addr => addr.sinPort.toNat) h
    simp only [UInt16.toNat_ofNat'] at hport
    rw [List.mem_range] at hi hj
    omega
  rw [servers, hmap, hnodup.dedup, List.length_map, List.length_range]

/-- `-n 128 -r 128`. -/
def wideClient : Client where
  name := lit ['g', 'e', 't']
  server := wideRing
  socket := 4
  args := { N := 128, R := 128, W := 2 }

/-- With `R = 128`, no number of equal replies is enough. -/
theorem readQuorum_wide :
    ¬ ∀ (env : Env) (client : Client) (key : CString)
        (nodes : Option NodeList) (sent : List (Node × List UInt8))
        (replies : List (List UInt8)),
      strlen key ≤ maxMsgElemSize → 1 ≤ client.args.R →
      getRequests env client key = .ok (nodes, sent) →
      ReadQuorum client.args.R replies (networkGet env client key replies) := by
  intro h
  have hkey := strlen_lit_le_max ['k'] (by decide)
  have hsize : wideClient.args.N ≤ wideClient.server.size := by
    rw [NodeList.size, wideClient, wideRing, List.length_map,
      List.length_range]
  have hreach : RequestsReach demoEnv wideClient (lit ['k']) (lit ['k']).bytes :=
    (requestsReach_iff demoEnv wideClient _ _ hsize).mpr
      length_servers_wideRing.ge
  obtain ⟨nodes, sent, hsend, _⟩ := hreach
  have hlaw := h demoEnv wideClient (lit ['k']) nodes sent
    (List.replicate 128 demoReply) hkey (by decide) hsend
  have hfirst : FirstToOccur 128 (valueReplies (List.replicate 128 demoReply))
      (lit ['v']) := by
    rw [valueReplies_demo]
    refine ⟨List.replicate 127 (lit ['v']), [], rfl, ?_, ?_⟩
    · rw [List.count_replicate_self]
    · intro w
      have hle := List.count_le_length (a := w)
        (l := List.replicate 127 (lit ['v']))
      rw [List.length_replicate] at hle
      omega
  have hok := (hlaw.1 (lit ['v'])).mpr hfirst
  rw [networkGet_eq hkey hsend, getOutcome, firstWith_fires_wide
    (show 127 < int32 wideClient.args.R by decide +kernel)] at hok
  exact giveUp_ne_value _ _ _ hok

end PpsDht
