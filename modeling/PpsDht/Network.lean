import PpsDht.Client
import PpsDht.HashtableMap
import PpsDht.NetworkUtils

/-!
# Puts and gets over the network

`network.c`.  `sendLoop` is the sending loop of both functions; the result of
`send_packet` is ignored, so a call sends one datagram for each `i` below `N`.
The reply loops are `Loop.feed` over the datagrams that arrive before the
socket times out, each as it was sent: `received` cuts it to the size of the
buffer.  `int` arithmetic wraps around.

Assumption, the spare byte of the client: a value reply fills `in_msg`, and the
terminator is stored behind it (`decodesInBounds_never`).  As on the server, that
byte belongs to nothing here.

`networkPut_none` is what a successful put has seen.  `requestsReach_iff` says
when both sending loops stay inside the list that `ring_get_nodes_for_key`
returned, and it then hits distinct servers.
-/

namespace PpsDht

open CMem

/-- `for (size_t i = 0; i < client.args->N; i++) send_packet(...);`, with
`left` passes to go.  An index behind the nodes of the list is a fault; where
the array has room left, the source reads a slot that was never filled. -/
def sendLoop (nodes : Option NodeList) (message : List UInt8) :
    Nat → Nat → Except Fault (List (Node × List UInt8))
  | 0, _ => .ok []
  | left + 1, i =>
    match nodes with
    | none => .error .nullDeref
    | some list =>
      match list.nodes[i]? with
      | none => .error .outOfBounds
      | some node =>
        match sendLoop nodes message left (i + 1) with
        | .error fault => .error fault
        | .ok sent => .ok ((node, message) :: sent)

/-- `ring_get_nodes_for_key`, and then one message to each of `N` nodes. -/
def requests (env : Env) (client : Client) (key : CString)
    (message : List UInt8) :
    Except Fault (Option NodeList × List (Node × List UInt8)) :=
  match ringGetNodesForKey env client.server client.args.N key with
  | .error fault => .error fault
  | .ok nodes =>
    match sendLoop nodes message client.args.N 0 with
    | .error fault => .error fault
    | .ok sent => .ok (nodes, sent)

/-- The sending part of `network_get`. -/
def getRequests (env : Env) (client : Client) (key : CString) :
    Except Fault (Option NodeList × List (Node × List UInt8)) :=
  requests env client key key.bytes

/-- The sending part of `network_put`. -/
def putRequests (env : Env) (client : Client) (key value : CString) :
    Except Fault (Option NodeList × List (Node × List UInt8)) :=
  requests env client key (putDatagram key value)

/-- What `recv(s, in_msg, MAX_MSG_ELEM_SIZE, 0)` stores. -/
def received (datagram : List UInt8) : List UInt8 :=
  datagram.take maxMsgElemSize

/-- The local state of the reply loop of `network_get`. -/
structure GetState where
  table : Htable
  errorNotFound : UInt32

/-- The counter of a value, in the first byte of a string. -/
def nextCount (countVal : Option CString) : List UInt8 :=
  let count :=
    match countVal with
    | none => [0, 0]
    | some countVal => mem countVal
  poke count 0 (peek count 0 + 1)

/-- One pass of the reply loop of `network_get`. -/
def getReply (R : Nat) (st : GetState) (datagram : List UInt8) :
    Loop.Step GetState (Except Fault (ErrorCode × Option CString)) :=
  let inMsg := received datagram
  if inMsg.length = 1 ∧ peek inMsg 0 = 0 then
    .again { st with errorNotFound := st.errorNotFound + 1 }
  else
    let inMsg := cstr (inMsg ++ [0])
    let count := nextCount (getHtableValue st.table (some inMsg))
    if schar (peek count 0) ≥ int32 R then .done (.ok (.ERR_NONE, some inMsg))
    else
      .again { st with
        table := (addHtableValue true st.table inMsg (some (cstr count))).2 }

/-- `node_list_free(nodes);`, which follows its pointer, and the error code
behind it. -/
def giveUp (nodes : Option NodeList) (err : ErrorCode) :
    Except Fault (ErrorCode × Option CString) :=
  match nodes with
  | none => .error .nullDeref
  | some _ => .ok (err, none)

/-- `network_get`: the error code, and the value for `ERR_NONE`. -/
def networkGet (env : Env) (client : Client) (key : CString)
    (replies : List (List UInt8)) :
    Except Fault (ErrorCode × Option CString) :=
  if strlen key > maxMsgElemSize then .ok (.ERR_BAD_PARAMETER, none)
  else
    match getRequests env client key with
    | .error fault => .error fault
    | .ok (nodes, _) =>
      Loop.feed (getReply client.args.R)
        (fun st => giveUp nodes
          (if st.errorNotFound = 0 then .ERR_NETWORK else .ERR_NOT_FOUND))
        { table := constructHtable htableSize htableSize_pos, errorNotFound := 0 }
        replies

/-- One pass of the reply loop of `network_put`: any datagram is an
acknowledgement. -/
def putReply (nodes : Option NodeList) (W : Nat) (success : Nat)
    (_ : List UInt8) : Loop.Step Nat (Except Fault ErrorCode) :=
  let success := success + 1
  if success ≥ W then .done ((giveUp nodes .ERR_NONE).map Prod.fst)
  else .again success

/-- `network_put`. -/
def networkPut (env : Env) (client : Client) (key value : CString)
    (replies : List (List UInt8)) : Except Fault ErrorCode :=
  if strlen key > maxMsgElemSize then .ok .ERR_BAD_PARAMETER
  else if strlen value > maxMsgElemSize then .ok .ERR_BAD_PARAMETER
  else
    match putRequests env client key value with
    | .error fault => .error fault
    | .ok (nodes, _) =>
      Loop.feed (putReply nodes client.args.W)
        (fun _ => (giveUp nodes .ERR_NETWORK).map Prod.fst) 0 replies

/-! ## Acknowledgements -/

/-- The reply loop of `network_put` ends with the datagram that makes `W`. -/
theorem putReply_endsAfter (list : NodeList) (W : Nat) :
    Loop.EndsAfter (putReply (some list) W) (fun _ => True)
      (fun j success => success = j) W (.ok .ERR_NONE) where
  again := by
    rintro _ success datagram hj _ rfl
    exact ⟨success + 1, if_neg (by omega), rfl⟩
  done := by
    rintro _ success datagram hj _ rfl
    exact if_pos (by omega)

/-- The reply loop of `network_put` counts: it ends with the datagram that makes
`W`, or with the first one for `W = 0`. -/
theorem feed_putReply (nodes : Option NodeList) (W : Nat)
    (timeout : Except Fault ErrorCode) (replies : List (List UInt8)) :
    ∀ success : Nat,
    Loop.feed (putReply nodes W) (fun _ => timeout) success replies =
      if replies ≠ [] ∧ W ≤ success + replies.length then
        (giveUp nodes .ERR_NONE).map Prod.fst
      else timeout := by
  induction replies with
  | nil =>
    intro success
    rw [if_neg (fun h => h.1 rfl)]
    rfl
  | cons datagram replies ih =>
    intro success
    by_cases hW : success + 1 ≥ W
    · have hbody : putReply nodes W success datagram =
          .done ((giveUp nodes .ERR_NONE).map Prod.fst) := if_pos hW
      rw [Loop.feed_done hbody, if_pos]
      refine ⟨List.cons_ne_nil _ _, ?_⟩
      rw [List.length_cons]
      omega
    · have hbody : putReply nodes W success datagram = .again (success + 1) :=
        if_neg hW
      rw [Loop.feed_again hbody, ih, List.length_cons]
      refine if_congr ?_ rfl rfl
      constructor
      · intro h
        exact ⟨List.cons_ne_nil _ _, by omega⟩
      · intro h
        refine ⟨?_, by omega⟩
        intro hnil
        have hlen := h.2
        rw [hnil, List.length_nil] at hlen
        omega

/-- The result of a call behind its checks. -/
theorem networkPut_eq {env : Env} {client : Client} {key value : CString}
    (hkey : strlen key ≤ maxMsgElemSize)
    (hvalue : strlen value ≤ maxMsgElemSize) {nodes : Option NodeList}
    {sent : List (Node × List UInt8)}
    (hsend : putRequests env client key value = .ok (nodes, sent))
    (replies : List (List UInt8)) :
    networkPut env client key value replies =
      if replies ≠ [] ∧ client.args.W ≤ replies.length then
        (giveUp nodes .ERR_NONE).map Prod.fst
      else (giveUp nodes .ERR_NETWORK).map Prod.fst := by
  rw [networkPut, if_neg (by omega), if_neg (by omega), hsend]
  simp only
  rw [feed_putReply, Nat.zero_add]

/-- A put that returns `ERR_NONE` has a value of the allowed length and `W`
acknowledgements. -/
theorem networkPut_none {env : Env} {client : Client} {key value : CString}
    {replies : List (List UInt8)}
    (h : networkPut env client key value replies = .ok .ERR_NONE) :
    strlen value ≤ maxMsgElemSize ∧ client.args.W ≤ replies.length := by
  by_cases hkey : strlen key ≤ maxMsgElemSize
  · by_cases hvalue : strlen value ≤ maxMsgElemSize
    · cases hsend : putRequests env client key value with
      | error fault =>
        rw [networkPut, if_neg (by omega), if_neg (by omega), hsend] at h
        cases h
      | ok sent =>
        obtain ⟨nodes, sent⟩ := sent
        rw [networkPut_eq hkey hvalue hsend] at h
        split at h
        · rename_i hW
          exact ⟨hvalue, hW.2⟩
        · cases nodes with
          | none => cases h
          | some list => cases h
    · rw [networkPut, if_neg (by omega), if_pos (by omega)] at h
      cases h
  · rw [networkPut, if_pos (by omega)] at h
    cases h

theorem networkPut_key {env : Env} {client : Client} {key value : CString}
    {replies : List (List UInt8)}
    (h : networkPut env client key value replies = .ok .ERR_NONE) :
    strlen key ≤ maxMsgElemSize := by
  by_contra hlong
  rw [networkPut, if_pos (by omega)] at h
  cases h

/-! ## The sending loops -/

theorem sendLoop_eq (list : NodeList) (message : List UInt8) :
    ∀ left i : Nat, sendLoop (some list) message left i =
      if i + left ≤ list.size ∨ left = 0 then
        .ok (((list.nodes.drop i).take left).map (fun node => (node, message)))
      else .error .outOfBounds := by
  intro left
  have hsize : list.size = list.nodes.length := rfl
  induction left with
  | zero =>
    intro i
    rw [if_pos (Or.inr rfl)]
    rfl
  | succ left ih =>
    intro i
    rw [sendLoop]
    by_cases hi : i < list.nodes.length
    · rw [List.getElem?_eq_getElem hi, ih (i + 1),
        List.drop_eq_getElem_cons hi]
      simp only
      by_cases hle : i + (left + 1) ≤ list.size
      · rw [if_pos (Or.inl (by omega)), if_pos (Or.inl hle)]
        rfl
      · rw [if_neg (by omega), if_neg (by omega)]
    · rw [List.getElem?_eq_none (by omega), if_neg (by omega)]

/-- A whole sending loop succeeds exactly when the list is long enough. -/
theorem sendLoop_ok_iff (list : NodeList) (message : List UInt8) (n : Nat)
    (sent : List (Node × List UInt8)) :
    sendLoop (some list) message n 0 = .ok sent ↔
      n ≤ list.size ∧
        sent = (list.nodes.take n).map (fun node => (node, message)) := by
  rw [sendLoop_eq, Nat.zero_add, List.drop_zero]
  by_cases hn : n ≤ list.size
  · rw [if_pos (Or.inl hn), Except.ok.injEq]
    exact ⟨fun h => ⟨hn, h.symm⟩, fun h => h.2.symm⟩
  · rw [if_neg (by omega)]
    constructor
    · intro h
      cases h
    · intro h
      exact absurd h.1 hn

/-- A call sends one message to each of some of the replicas. -/
theorem requests_sublist {env : Env} {client : Client} {key : CString}
    {message : List UInt8} {nodes : Option NodeList}
    {sent : List (Node × List UInt8)}
    (h : requests env client key message = .ok (nodes, sent)) :
    (sent.map (fun x => x.1.addr)).Sublist
        ((replicasOf env client.server client.args.N key).map Node.addr) ∧
      ∀ x ∈ sent, x.2 = message := by
  rw [requests] at h
  by_cases hN : client.args.N = 0
  · rw [ringGetNodesForKey, ringGetNodesForKeyFuel, if_pos hN, hN] at h
    cases h
    exact ⟨List.nil_sublist _, fun _ hx => absurd hx List.not_mem_nil⟩
  · by_cases hring : client.server.nodes = []
    · rw [ringGetNodesForKey_empty env hring hN] at h
      cases h
    · obtain ⟨list, hrun, hlist⟩ :=
        ringGetNodesForKey_replicas env hring hN key
      rw [hrun] at h
      simp only at h
      cases hloop : sendLoop (some list) message client.args.N 0 with
      | error fault =>
        rw [hloop] at h
        cases h
      | ok sent' =>
        rw [hloop] at h
        cases h
        obtain ⟨_, rfl⟩ := (sendLoop_ok_iff list message _ _).mp hloop
        constructor
        · rw [← map_addr_copyNode, ← hlist, List.map_map]
          exact (List.take_sublist _ _).map Node.addr
        · intro x hx
          obtain ⟨node, _, rfl⟩ := List.mem_map.mp hx
          rfl

/-- A call sends one message to each of some different servers. -/
theorem requests_distinct {env : Env} {client : Client} {key : CString}
    {message : List UInt8} {nodes : Option NodeList}
    {sent : List (Node × List UInt8)}
    (h : requests env client key message = .ok (nodes, sent)) :
    (sent.map (fun x => x.1.addr)).Nodup ∧ ∀ x ∈ sent, x.2 = message := by
  obtain ⟨hsub, hmessage⟩ := requests_sublist h
  exact ⟨(nodup_replicasOf env _ _ key).sublist hsub, hmessage⟩

/-- A call sends its message to `N` servers, all different, and indexes the
node list inside its bounds. -/
def RequestsReach (env : Env) (client : Client) (key : CString)
    (message : List UInt8) : Prop :=
  ∃ nodes sent, requests env client key message = .ok (nodes, sent) ∧
    sent.length = client.args.N ∧
    (sent.map (fun request => request.1.addr)).Nodup

/-- The sending part reaches `N` servers exactly when the ring has as many. -/
theorem requestsReach_iff (env : Env) (client : Client) (key : CString)
    (message : List UInt8) (hring : client.args.N ≤ client.server.size) :
    RequestsReach env client key message ↔
      client.args.N ≤ (servers client.server).length := by
  rw [RequestsReach]
  by_cases hN : client.args.N = 0
  · -- No node is wanted, so the list is `NULL`, and the loop does not run.
    have hreq : requests env client key message = .ok (none, []) := by
      rw [requests, ringGetNodesForKey, ringGetNodesForKeyFuel, if_pos hN, hN]
      rfl
    rw [hreq, hN]
    constructor
    · intro _
      exact Nat.zero_le _
    · intro _
      exact ⟨none, [], rfl, rfl, List.nodup_nil⟩
  · have hne : client.server.nodes ≠ [] := by
      intro hnil
      rw [NodeList.size, hnil, List.length_nil] at hring
      omega
    obtain ⟨list, hrun, hlist⟩ := ringGetNodesForKey_replicas env hne hN key
    have hlen : list.size =
        min client.args.N (servers client.server).length := by
      rw [NodeList.size, hlist, List.length_map, length_replicasOf]
    constructor
    · intro h
      obtain ⟨nodes, sent, hreq, hsent, _⟩ := h
      rw [requests, hrun] at hreq
      simp only at hreq
      cases hloop : sendLoop (some list) message client.args.N 0 with
      | error fault =>
        rw [hloop] at hreq
        cases hreq
      | ok sent' =>
        have hle := ((sendLoop_ok_iff list message _ sent').mp hloop).1
        omega
    · intro h
      have hle : client.args.N ≤ list.size := by omega
      have hreq : requests env client key message = .ok (some list,
          (list.nodes.take client.args.N).map (fun node => (node, message))) := by
        rw [requests, hrun]
        simp only
        rw [(sendLoop_ok_iff list message _ _).mpr ⟨hle, rfl⟩]
      refine ⟨some list, _, hreq, ?_, (requests_distinct hreq).1⟩
      rw [List.length_map, List.length_take, NodeList.size] at *
      omega

/-- The servers that the servers file lists, each once. -/
def fileServers (env : Env) (fuel : Nat) (content : Option (List UInt8)) :
    List SockAddr :=
  ((fileNodes env fuel content).map Node.addr).dedup

/-- `N`, the size of the ring and the number of its servers, for a client that
`client_init` built. -/
theorem clientInit_sizes {env : Env} {fuel : Nat}
    {content : Option (List UInt8)} {sockets : Int × Int}
    {argv : List CString} {required optionnal sizeArgs : Nat} {client : Client}
    (h : clientInit env fuel content sockets argv required optionnal sizeArgs =
      .ok (.ok client)) :
    client.args.N = min (defaultArgs.asked argv.tail).N
        (fileNodes env fuel content).length ∧
      client.server.size = (fileNodes env fuel content).length ∧
      (servers client.server).length =
        (fileServers env fuel content).length := by
  obtain ⟨args, rem, hparse, hperm, hargs⟩ := clientInit_ok h
  obtain ⟨hasked, _, _⟩ :=
    (parseOptArgs_spec optionnal argv.tail).2 args rem hparse
  have hn : client.server.size = (fileNodes env fuel content).length :=
    hperm.length_eq
  refine ⟨?_, hn, ((hperm.map Node.addr).dedup).length_eq⟩
  rw [hargs, ← hasked, ← hn]

/-- A client that `client_init` built sends every get and every put to `N`
different servers, and indexes the node list inside its bounds, exactly when
the servers file lists enough servers. -/
theorem clientInit_requestsReach_iff (env : Env) (fuel : Nat)
    (content : Option (List UInt8)) (sockets : Int × Int)
    (argv : List CString) (required optionnal sizeArgs : Nat) (client : Client)
    (h : clientInit env fuel content sockets argv required optionnal sizeArgs =
      .ok (.ok client)) (key value : CString) :
    (RequestsReach env client key key.bytes ∧
      RequestsReach env client key (putDatagram key value)) ↔
    min (defaultArgs.asked argv.tail).N (fileNodes env fuel content).length ≤
      (fileServers env fuel content).length := by
  obtain ⟨hN, hn, hservers⟩ := clientInit_sizes h
  have hring : client.args.N ≤ client.server.size := by omega
  rw [requestsReach_iff env client key _ hring,
    requestsReach_iff env client key _ hring, and_self, hN, hservers]

/-- Two servers with one virtual node each. -/
def demoServersFile : List UInt8 :=
  (lit ['1', '.', '2', '.', '3', '.', '4', ' ', '5', ' ', '1', '\n',
    '1', '.', '2', '.', '3', '.', '4', ' ', '6', ' ', '1', '\n']).bytes

theorem clientInit_requestsReach_iff_demo :
    ∃ client, clientInit demoEnv 30 (some demoServersFile) (3, 4)
        [lit ['g', 'e', 't'], lit ['k']] 1 (TOTAL_SERVERS ||| GET_NEEDED) 2 =
        .ok (.ok client) ∧
      RequestsReach demoEnv client (lit ['k']) (lit ['k']).bytes ∧
      RequestsReach demoEnv client (lit ['k'])
        (putDatagram (lit ['k']) (lit ['v'])) := by
  obtain ⟨client, h⟩ : ∃ client, clientInit demoEnv 30 (some demoServersFile)
      (3, 4) [lit ['g', 'e', 't'], lit ['k']] 1 (TOTAL_SERVERS ||| GET_NEEDED)
      2 = .ok (.ok client) := ⟨_, rfl⟩
  exact ⟨client, h, (clientInit_requestsReach_iff demoEnv 30
    (some demoServersFile) (3, 4) _ 1 _ 2 client h (lit ['k'])
    (lit ['v'])).mpr (by decide +kernel)⟩

/-- One server with three virtual nodes: `N` is 3, and the list of nodes has
one entry. -/
theorem clientInit_requestsReach_virtual :
    ¬ ∀ (env : Env) (fuel : Nat) (content : Option (List UInt8))
        (sockets : Int × Int) (argv : List CString)
        (required optionnal sizeArgs : Nat) (client : Client),
      clientInit env fuel content sockets argv required optionnal sizeArgs =
        .ok (.ok client) → ∀ key value : CString,
        RequestsReach env client key key.bytes ∧
          RequestsReach env client key (putDatagram key value) := by
  intro h
  obtain ⟨client, hrun⟩ : ∃ client, clientInit demoEnv 20 (some demoFile)
      (3, 4) [lit ['g', 'e', 't'], lit ['k']] 1 (TOTAL_SERVERS ||| GET_NEEDED)
      2 = .ok (.ok client) := ⟨_, rfl⟩
  have hreach := (h _ _ _ _ _ _ _ _ client hrun (lit ['k']) (lit ['v'])).1
  obtain ⟨hN, hn, hservers⟩ := clientInit_sizes hrun
  have hnodes : (fileNodes demoEnv 20 (some demoFile)).length = 3 := by
    decide +kernel
  have hone : (fileServers demoEnv 20 (some demoFile)).length = 1 := by
    decide +kernel
  have hasked : (defaultArgs.asked [lit ['k']]).N = 3 := by decide +kernel
  rw [List.tail_cons] at hN
  rw [requestsReach_iff demoEnv client _ _ (by omega)] at hreach
  omega

end PpsDht
