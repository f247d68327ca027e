import PpsDht.ServerLoop
import PpsDht.GetReply

/-!
# Telling the requests apart

The main loop of the server takes a datagram for a ping, a dump request, a put
or a get, by its length and by whether it has a zero byte: `branchOf`.  The
clients send keys and values of any length up to `MAX_MSG_ELEM_SIZE`, zero
included.

`unambiguous_iff` says for which keys the server takes every request for what
it is, and a get of a key that was never put fails.
-/

namespace PpsDht

open CMem Tally

/-- The four branches of the main loop. -/
inductive Branch where
  | ping
  | dump
  | put
  | get
  deriving DecidableEq

/-- The branch for the datagram that the server receives. -/
def branchOf (m : ServerMem) (datagram : List UInt8) : Branch :=
  let received := datagram.take maxMsgSize
  let inMsg := received ++ m.rest
  let inMsgLen := received.length
  if inMsgLen = 0 then .ping
  else if (memchrNul inMsg inMsgLen).isSome then
    if inMsgLen = 1 then .dump else .put
  else .get

/-- `branchOf` is the case distinction of the main loop. -/
theorem serverStep_branchOf (fuel : Nat) (m : ServerMem) (table : Htable)
    (datagram : List UInt8) :
    serverStep fuel m table datagram =
      match branchOf m datagram with
      | .ping => .ok (table, [[]])
      | .dump =>
        match dumpLoop fuel (getHtableContent table) with
        | none => .error .outOfFuel
        | some (.error fault) => .error fault
        | some (.ok sent) => .ok (table, sent)
      | .put => putBranch m table (datagram.take maxMsgSize ++ m.rest)
          (datagram.take maxMsgSize).length
      | .get => .ok (table,
          getBranch m table (datagram.take maxMsgSize ++ m.rest)) := by
  rw [serverStep, branchOf]
  split_ifs <;> rfl

theorem branchOf_eq (m : ServerMem) {datagram : List UInt8}
    (hmax : datagram.length ≤ maxMsgSize) :
    branchOf m datagram =
      if datagram.length = 0 then .ping
      else if (0 : UInt8) ∈ datagram then
        if datagram.length = 1 then .dump else .put
      else .get := by
  rw [branchOf]
  simp only [List.take_of_length_le hmax, isSome_memchrNul]

/-! ## The requests of a client -/

theorem length_bytes_le {s : CString} (h : strlen s ≤ maxMsgElemSize) :
    s.bytes.length ≤ maxMsgSize := by
  unfold maxMsgSize
  unfold strlen at h
  omega

/-- A put is taken for a put unless key and value are empty. -/
theorem branchOf_put_iff (m : ServerMem) {k v : CString}
    (hk : strlen k ≤ maxMsgElemSize) (hv : strlen v ≤ maxMsgElemSize) :
    branchOf m (putDatagram k v) = .put ↔ k.bytes ≠ [] ∨ v.bytes ≠ [] := by
  have hlen := length_putDatagram k v
  rw [branchOf_eq m (by rw [hlen, maxMsgSize]; omega), if_neg (by omega),
    if_pos (nul_mem_putDatagram k v), ← two_le_length_putDatagram]
  by_cases h : (putDatagram k v).length = 1
  · rw [if_pos h]
    exact ⟨fun h => (by cases h), fun h => by omega⟩
  · rw [if_neg h]
    exact ⟨fun _ => by omega, fun _ => rfl⟩

/-- A get is taken for a get unless the key is empty. -/
theorem branchOf_get_iff (m : ServerMem) {k : CString}
    (hk : strlen k ≤ maxMsgElemSize) :
    branchOf m k.bytes = .get ↔ k.bytes ≠ [] := by
  rw [branchOf_eq m (length_bytes_le hk), if_neg k.noNul,
    ← List.length_pos_iff]
  by_cases h : k.bytes.length = 0
  · rw [if_pos h]
    exact ⟨fun h => (by cases h), fun h => by omega⟩
  · rw [if_neg h]
    exact ⟨fun _ => by omega, fun _ => rfl⟩

/-! ## Keys that were never put -/

/-- The table of a server that has never received a put of the key. -/
def NeverPut (key : CString) (table : Htable) : Prop :=
  ∃ fuel history sents,
    serverLoop fuel (constructHtable htableSize htableSize_pos) history =
        .ok (table, sents) ∧
      ∀ p ∈ history, p.2.length ≤ maxMsgSize ∧ (IsPut p.2 → cstr p.2 ≠ key)

/-- A datagram that such a server sends for a get of the key, when `rest` is
behind the request in its receive buffer. -/
def ReplyWithoutPut (key : CString) (rest reply : List UInt8) : Prop :=
  ∃ fuel m table table' sent, NeverPut key table ∧ m.rest = rest ∧
    serverStep fuel m table key.bytes = .ok (table', sent) ∧ reply ∈ sent

/-- Such a server has no value for the key, nor for a key that is too long for
a put. -/
theorem NeverPut.toMap_eq_none {key key' : CString} {table : Htable}
    (h : NeverPut key table)
    (hkey : key' = key ∨ maxMsgSize ≤ strlen key') :
    table.toMap key' = none := by
  obtain ⟨fuel, history, sents, hrun, hnever⟩ := h
  obtain ⟨adds, htable, hadds⟩ :=
    serverLoop_adds (fun p hp => (hnever p hp).1) hrun
  simp only at htable
  rw [htable, addAll_toMap (constructHtable_inv _ _), constructHtable_toMap,
    Option.or_none, List.lookup_eq_none_iff]
  intro add hadd
  obtain ⟨p, hp, hput, rfl⟩ := hadds add (List.mem_reverse.mp hadd)
  have hne : key' ≠ cstr p.2 := by
    rcases hkey with rfl | hlong
    · exact fun h => (hnever p hp).2 hput h.symm
    · -- A key in a datagram is followed by a zero byte.
      intro heq
      have hlen := length_eq_of_nul hput.nul
      rw [← heq] at hlen
      have hmax := (hnever p hp).1
      omega
  simpa [putPair] using hne

/-- Another key can have a value. -/
theorem exists_neverPut {key key' : CString} (hkey : key' ≠ key)
    (hne : key'.bytes ≠ []) (hlen : strlen key' < maxMsgSize) :
    ∃ table, NeverPut key table ∧ table.toMap key' = some (lit []) := by
  have hbytes : (key'.bytes ++ [0]).length = strlen key' + 1 := by
    rw [List.length_append, List.length_singleton]
  have hpos : 0 < strlen key' := List.length_pos_iff.mpr hne
  have hput : IsPut (key'.bytes ++ [0]) :=
    ⟨List.mem_append_right _ List.mem_cons_self, by omega⟩
  have hpair : putPair (emptyMem, key'.bytes ++ [0]) = (key', lit []) := by
    rw [putPair, putValue, cstr_append_zero, afterNul_append_zero]
    rfl
  have hputs : ∀ p ∈ [(emptyMem, key'.bytes ++ [0])],
      IsPut p.2 ∧ p.2.length ≤ maxMsgSize := by
    intro p hp
    rw [List.mem_singleton.mp hp]
    exact ⟨hput, by simp only; omega⟩
  obtain ⟨r, hrun, htable⟩ := serverLoop_puts 0
    (constructHtable htableSize htableSize_pos) hputs
  refine ⟨r.1, ⟨0, _, r.2, hrun, ?_⟩, ?_⟩
  · intro p hp
    rw [List.mem_singleton.mp hp]
    refine ⟨by simp only; omega, fun _ => ?_⟩
    rw [cstr_append_zero]
    exact hkey
  · rw [htable (by
        intro p hp
        rw [List.mem_singleton.mp hp]
        rfl), List.map_singleton, hpair, addAll_toMap (constructHtable_inv _ _),
      List.reverse_singleton, Assoc.lookup_cons_ite, if_pos rfl,
      Option.some_or]

/-- A reply to a get of a key that the server has not stored is the not-found
byte. -/
theorem valueReplies_replicate (n : Nat) :
    valueReplies (List.replicate n [0]) = [] := by
  induction n with
  | zero => rfl
  | succ n ih =>
    rw [List.replicate_succ, valueReplies_cons_of_notFound (by decide), ih]

/-! ## Unambiguous requests -/

/-- The requests for `k` and `v` are taken for what they are, and a get of `k`
fails when no server has received a put of `k`.  The servers find `rest` behind
the get in their receive buffer; the network may drop, repeat and reorder
their replies. -/
structure Unambiguous (k v : CString) (rest : List UInt8) : Prop where
  put : ∀ m, branchOf m (putDatagram k v) = .put
  get : ∀ m, branchOf m k.bytes = .get
  absent : ∀ (env : Env) (client : Client) (replies : List (List UInt8)),
    (∀ reply ∈ replies, ReplyWithoutPut k rest reply) →
    ∀ value, networkGet env client k replies ≠ .ok (.ERR_NONE, value)

/-- Two servers, and a client that waits for one reply. -/
def oneReplyClient : Client where
  name := lit ['g', 'e', 't']
  server := demoList
  socket := 4
  args := { N := 2, R := 1, W := 1 }

theorem oneReplyClient_requests (k : CString) : ∃ nodes sent,
    getRequests demoEnv oneReplyClient k = .ok (nodes, sent) := by
  have hreach : RequestsReach demoEnv oneReplyClient k k.bytes :=
    (requestsReach_iff demoEnv oneReplyClient k k.bytes (by decide)).mpr
      (by decide)
  obtain ⟨nodes, sent, hsend, _⟩ := hreach
  exact ⟨nodes, sent, hsend⟩

/-- One reply that is not the not-found byte makes its get succeed. -/
theorem networkGet_oneReply {k : CString} (hk : strlen k ≤ maxMsgElemSize)
    {reply : List UInt8} (hreply : isNotFound reply = false) :
    networkGet demoEnv oneReplyClient k [reply] =
      .ok (.ERR_NONE, some (replyValue reply)) := by
  obtain ⟨nodes, sent, hsend⟩ := oneReplyClient_requests k
  have hfire : fires oneReplyClient.args.R 1 = true := by decide
  have hvalues : valueReplies [reply] = [replyValue reply] :=
    valueReplies_cons_of_value hreply []
  rw [networkGet_eq hk hsend, getOutcome, hvalues, firstWith, List.count_nil,
    Nat.zero_add, if_pos hfire]

/-- A get whose replies are all the not-found byte does not succeed. -/
theorem networkGet_allNotFound {env : Env} {client : Client} {k : CString}
    {replies : List (List UInt8)} (hreplies : ∀ reply ∈ replies, reply = [0])
    (value : Option CString) :
    networkGet env client k replies ≠ .ok (.ERR_NONE, value) := by
  intro h
  have hvalues : valueReplies replies = [] := by
    rw [List.eq_replicate_of_mem hreplies, valueReplies_replicate]
  by_cases hk : strlen k ≤ maxMsgElemSize
  · cases hsend : getRequests env client k with
    | error fault =>
      rw [networkGet, if_neg (by omega), hsend] at h
      cases h
    | ok sent =>
      obtain ⟨nodes, _⟩ := sent
      rw [networkGet_eq hk hsend, getOutcome, hvalues, firstWith] at h
      simp only at h
      cases nodes with
      | none => cases h
      | some list =>
        rw [giveUp] at h
        split_ifs at h
        all_goals cases h
  · rw [networkGet, if_pos (by omega)] at h
    cases h

/-- Requests are unambiguous exactly for the keys that are not empty, where the
string that the servers read from their buffer is the key or too long to be
stored. -/
theorem unambiguous_iff (k v : CString) (hk : strlen k ≤ maxMsgElemSize)
    (hv : strlen v ≤ maxMsgElemSize) (rest : List UInt8) :
    Unambiguous k v rest ↔ k.bytes ≠ [] ∧
      (peek rest 0 = 0 ∨ maxMsgSize ≤ strlen (cstr (k.bytes ++ rest))) := by
  constructor
  · intro h
    have hne : k.bytes ≠ [] := (branchOf_get_iff emptyMem hk).mp (h.get emptyMem)
    refine ⟨hne, ?_⟩
    by_contra hbad
    rw [not_or] at hbad
    -- The longer key has been put, so the get returns its value.
    have hkey : cstr (k.bytes ++ rest) ≠ k :=
      fun heq => hbad.1 ((cstr_append_eq_iff k rest).mp heq)
    have hprefix : (cstr (k.bytes ++ rest)).bytes ≠ [] := by
      intro hnil
      cases hbytes : k.bytes with
      | nil => exact hne hbytes
      | cons b bytes =>
        have hb : b ≠ 0 := fun h0 => k.noNul (by
          rw [hbytes, h0]
          exact List.mem_cons_self)
        have hcons : (b != 0) = true := by simpa using hb
        rw [hbytes, List.cons_append] at hnil
        simp only [cstr] at hnil
        rw [List.takeWhile_cons, if_pos hcons] at hnil
        cases hnil
    obtain ⟨table, hnever, hval⟩ :=
      exists_neverPut hkey hprefix (Nat.lt_of_not_le hbad.2)
    have hstep := serverStep_answer 0
      { rest := rest, past := [], mallocOk := true } table k.noNul hne
      (length_bytes_le hk)
    simp only at hstep
    rw [hval] at hstep
    obtain ⟨hfound, _⟩ := replyValue_of_get (lit []) []
      (strlen_lit_le_max [] (by decide))
    refine h.absent demoEnv oneReplyClient
      [readBytes (mem (lit []) ++ []) maxMsgElemSize] ?_ _
      (networkGet_oneReply hk hfound)
    intro reply hreply
    exact ⟨0, _, table, table, _, hnever, rfl, hstep, hreply⟩
  · rintro ⟨hne, hrest⟩
    have hkey : cstr (k.bytes ++ rest) = k ∨
        maxMsgSize ≤ strlen (cstr (k.bytes ++ rest)) :=
      hrest.imp_left (cstr_append_eq_iff k rest).mpr
    refine ⟨fun m => (branchOf_put_iff m hk hv).mpr (Or.inl hne),
      fun m => (branchOf_get_iff m hk).mpr hne, ?_⟩
    intro env client replies hreplies value
    refine networkGet_allNotFound ?_ value
    intro reply hreply
    obtain ⟨fuel, m, table, table', sent, hnever, rfl, hstep, hmem⟩ :=
      hreplies reply hreply
    rw [serverStep_answer fuel m table k.noNul hne (length_bytes_le hk),
      hnever.toMap_eq_none hkey] at hstep
    cases hstep
    exact List.mem_singleton.mp hmem

/-- The key `k`, with a zero byte behind the request. -/
theorem unambiguous_iff_letter : Unambiguous (lit ['k']) (lit []) [] :=
  (unambiguous_iff (lit ['k']) (lit []) (strlen_lit_le_max _ (by decide))
    (strlen_lit_le_max _ (by decide)) []).mpr ⟨by decide, Or.inl rfl⟩

/-- A get of the empty key is a ping, and its empty answers count as values. -/
theorem empty_key_found : ¬ ∀ k v : CString, strlen k ≤ maxMsgElemSize →
    strlen v ≤ maxMsgElemSize → Unambiguous k v [] := by
  intro h
  have hempty := strlen_lit_le_max [] (by decide)
  have hnever : NeverPut (lit [])
      (constructHtable htableSize htableSize_pos) :=
    ⟨0, [], [], rfl, fun _ h => absurd h List.not_mem_nil⟩
  refine (h (lit []) (lit []) hempty hempty).absent demoEnv oneReplyClient
    [[]] ?_ _ (networkGet_oneReply hempty (by decide))
  intro reply hreply
  exact ⟨0, emptyMem, _, _, _, hnever, rfl, serverStep_ping 0 emptyMem _,
    hreply⟩

end PpsDht
