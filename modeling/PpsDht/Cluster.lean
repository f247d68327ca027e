import PpsDht.NetworkGet
import PpsDht.Lib.Protocol
import Mathlib.Logic.Function.Basic

/-!
# One writer, many readers and the servers of a key

The whole system as a step relation: the writer and the readers run
`network_put` and `network_get`, the servers run their main loop, and the
network holds the datagrams in flight.  A step is one pass of one of the code's
loops, or the loss of a datagram, so runs contain every interleaving.

The network may lose and delay datagrams.  It does not duplicate them, and it
delivers the datagrams of the writer to one server in the order in which they
were sent.  Every call has a socket of its own.  A server has zero bytes behind
the datagram in its receive buffer, and its allocations succeed.

`heard` records what every socket has received, in the order of arrival.  No
step reads it.
-/

namespace PpsDht

open CMem Function

/-! ## States -/

/-- The sockets: one for every put and one for every get. -/
inductive Socket where
  | put (id : Nat)
  | get (id : Nat)
  deriving DecidableEq

/-- A datagram in flight between a client socket and a server. -/
structure Packet where
  socket : Socket
  addr : SockAddr
  datagram : List UInt8
  deriving DecidableEq

/-- The writer: between two calls, in a call behind the checks of its
arguments, or with the result of its last call. -/
inductive PutCall where
  | idle
  | active (value : CString) (nodes : Option NodeList) (success : Nat)
  | returned (value : CString) (result : Except Fault ErrorCode)

/-- A call of `network_get`. -/
inductive GetCall where
  | idle
  | active (nodes : Option NodeList) (st : GetState)
  | returned (result : Except Fault (ErrorCode × Option CString))

/-- The state of the system.  `puts` numbers the calls of the writer, and
`pending` are the datagrams that the sending loop of a call has still to
send. -/
structure State where
  tables : SockAddr → Htable
  requests : List Packet
  replies : List Packet
  puts : Nat
  put : PutCall
  get : Nat → GetCall
  pending : Socket → List (Node × List UInt8)
  heard : Socket → List Packet

/-- What stays fixed in a run: the key, the servers, the quorums, and the
clients. -/
structure Cluster where
  env : Env
  key : CString
  servers : List SockAddr
  R : Nat
  W : Nat
  writer : Client
  reader : Nat → Client

/-! ## Steps -/

/-- The writer is not in a call. -/
def PutCall.Free (call : PutCall) : Prop :=
  ∀ value nodes success, call ≠ .active value nodes success

/-- The value of the last put. -/
def PutCall.value : PutCall → Option CString
  | .idle => none
  | .active value _ _ => some value
  | .returned value _ => some value

/-- The writer after one pass of its reply loop. -/
def PutCall.next (value : CString) (nodes : Option NodeList) :
    Loop.Step Nat (Except Fault ErrorCode) → PutCall
  | .again success => .active value nodes success
  | .done result => .returned value result

/-- A reader after one pass of its reply loop. -/
def GetCall.next (nodes : Option NodeList) :
    Loop.Step GetState (Except Fault (ErrorCode × Option CString)) → GetCall
  | .again st => .active nodes st
  | .done result => .returned result

/-- The state in which `network_get` enters its reply loop. -/
def getStart : GetState :=
  { table := constructHtable htableSize htableSize_pos, errorNotFound := 0 }

/-- The memory of a server that stores exactly what it received. -/
def ServerMem.Exact (m : ServerMem) : Prop :=
  m.mallocOk = true ∧ peek m.rest 0 = 0

/-- A datagram of the writer. -/
def Packet.IsPut (q : Packet) : Prop := ∃ p, q.socket = .put p

/-- One step of the system. -/
inductive Step (c : Cluster) : State → State → Prop
  /-- The writer calls `network_put`. -/
  | putStart (s : State) (value : CString) (nodes : Option NodeList)
      (sent : List (Node × List UInt8)) (hfree : s.put.Free)
      (hlen : strlen value ≤ maxMsgElemSize)
      (hsend : putRequests c.env c.writer c.key value = .ok (nodes, sent)) :
      Step c s { s with
        puts := s.puts + 1
        put := .active value nodes 0
        pending := update s.pending (.put (s.puts + 1)) sent }
  /-- The writer calls `network_put` with a value that is too long. -/
  | putReject (s : State) (value : CString) (hfree : s.put.Free)
      (hlen : maxMsgElemSize < strlen value) :
      Step c s { s with
        puts := s.puts + 1
        put := .returned value (.ok .ERR_BAD_PARAMETER) }
  /-- The writer receives a datagram. -/
  | putReceive (s : State) (value : CString) (nodes : Option NodeList)
      (success : Nat) (r : Packet) (before after : List Packet)
      (hput : s.put = .active value nodes success)
      (hsent : s.pending (.put s.puts) = [])
      (hreplies : s.replies = before ++ r :: after)
      (hsocket : r.socket = .put s.puts) :
      Step c s { s with
        replies := before ++ after
        put := .next value nodes
          (putReply nodes c.writer.args.W success r.datagram)
        heard := update s.heard r.socket (s.heard r.socket ++ [r]) }
  /-- The socket of the writer times out. -/
  | putTimeout (s : State) (value : CString) (nodes : Option NodeList)
      (success : Nat) (hput : s.put = .active value nodes success)
      (hsent : s.pending (.put s.puts) = []) :
      Step c s { s with
        put := .returned value ((giveUp nodes .ERR_NETWORK).map Prod.fst) }
  /-- A reader calls `network_get`. -/
  | getStart (s : State) (g : Nat) (nodes : Option NodeList)
      (sent : List (Node × List UInt8)) (hidle : s.get g = .idle)
      (hsend : getRequests c.env (c.reader g) c.key = .ok (nodes, sent)) :
      Step c s { s with
        get := update s.get g (.active nodes getStart)
        pending := update s.pending (.get g) sent }
  /-- A reader receives a datagram. -/
  | getReceive (s : State) (g : Nat) (nodes : Option NodeList) (st : GetState)
      (r : Packet) (before after : List Packet)
      (hget : s.get g = .active nodes st) (hsent : s.pending (.get g) = [])
      (hreplies : s.replies = before ++ r :: after)
      (hsocket : r.socket = .get g) :
      Step c s { s with
        replies := before ++ after
        get := update s.get g
          (.next nodes (getReply (c.reader g).args.R st r.datagram))
        heard := update s.heard r.socket (s.heard r.socket ++ [r]) }
  /-- The socket of a reader times out. -/
  | getTimeout (s : State) (g : Nat) (nodes : Option NodeList) (st : GetState)
      (hget : s.get g = .active nodes st) (hsent : s.pending (.get g) = []) :
      Step c s { s with
        get := update s.get g (.returned (giveUp nodes
          (if st.errorNotFound = 0 then .ERR_NETWORK else .ERR_NOT_FOUND))) }
  /-- A client sends the next datagram of its sending loop. -/
  | send (s : State) (socket : Socket) (node : Node) (datagram : List UInt8)
      (rest : List (Node × List UInt8))
      (hpending : s.pending socket = (node, datagram) :: rest) :
      Step c s { s with
        requests := s.requests ++
          [{ socket := socket, addr := node.addr, datagram := datagram }]
        pending := update s.pending socket rest }
  /-- A server receives a datagram and answers it. -/
  | deliver (s : State) (q : Packet) (before after : List Packet)
      (m : ServerMem) (fuel : Nat) (table : Htable)
      (answers : List (List UInt8))
      (hrequests : s.requests = before ++ q :: after)
      (horder : q.IsPut → ∀ q' ∈ before, q'.IsPut → q'.addr ≠ q.addr)
      (hexact : m.Exact)
      (hstep : serverStep fuel m (s.tables q.addr) q.datagram =
        .ok (table, answers)) :
      Step c s { s with
        tables := update s.tables q.addr table
        requests := before ++ after
        replies := s.replies ++ answers.map (fun datagram =>
          { socket := q.socket, addr := q.addr, datagram := datagram }) }
  /-- A datagram to a server is lost. -/
  | loseRequest (s : State) (q : Packet) (before after : List Packet)
      (hrequests : s.requests = before ++ q :: after) :
      Step c s { s with requests := before ++ after }
  /-- A datagram to a client is lost. -/
  | loseReply (s : State) (r : Packet) (before after : List Packet)
      (hreplies : s.replies = before ++ r :: after) :
      Step c s { s with replies := before ++ after }

/-- A run of the system. -/
abbrev Run (c : Cluster) : State → State → Prop :=
  Relation.ReflTransGen (Step c)

/-- Before the first call: the servers hold any tables. -/
structure State.Initial (s : State) : Prop where
  tables : ∀ addr, (s.tables addr).Inv
  requests : s.requests = []
  replies : s.replies = []
  puts : s.puts = 0
  put : s.put = .idle
  get : ∀ g, s.get g = .idle
  pending : ∀ socket, s.pending socket = []
  heard : ∀ socket, s.heard socket = []

/-- The client contacts exactly the given servers for the key. -/
def Contacts (c : Cluster) (client : Client) : Prop :=
  client.args.N = c.servers.length ∧
  ∃ nodes, ringGetNodesForKey c.env client.server client.args.N c.key =
      .ok (some nodes) ∧
    (nodes.nodes.map Node.addr).Perm c.servers

/-- So does a client whose ring has these `N` servers. -/
theorem contacts_of_servers {c : Cluster} {client : Client}
    (hN : client.args.N = c.servers.length) (hpos : client.args.N ≠ 0)
    (hservers : (servers client.server).Perm c.servers) :
    Contacts c client := by
  have hlen : (servers client.server).length = client.args.N := by
    rw [hN, hservers.length_eq]
  have hne : client.server.nodes ≠ [] := by
    intro hnil
    rw [servers, hnil] at hlen
    exact hpos hlen.symm
  obtain ⟨nodes, hrun, hnodes⟩ :=
    ringGetNodesForKey_replicas c.env hne hpos c.key
  refine ⟨hN, nodes, hrun, ?_⟩
  rw [hnodes, map_addr_copyNode]
  exact (perm_replicasOf c.env (Nat.le_of_eq hlen) c.key).trans hservers

/-- The quorums intersect: `N` different servers are the nodes of the key, and
`R + W` exceeds `N`. -/
structure Cluster.Valid (c : Cluster) : Prop where
  key : c.key.bytes ≠ [] ∧ strlen c.key ≤ maxMsgElemSize
  servers : c.servers.Nodup
  small : c.servers.length < 2 ^ 31
  R : 1 ≤ c.R ∧ c.R ≤ c.servers.length
  W : 1 ≤ c.W ∧ c.W ≤ c.servers.length
  quorum : c.servers.length < c.R + c.W
  writer : c.writer.args.W = c.W ∧ Contacts c c.writer
  reader : ∀ g, (c.reader g).args.R = c.R ∧ Contacts c (c.reader g)

/-! ## What is in flight -/

/-- A datagram that a client sends from one of its sockets, when `puts` calls
of the writer have started and the last one puts `value`. -/
def Asks (c : Cluster) (puts : Nat) (value : Option CString) :
    Socket → List UInt8 → Prop
  | .put p, datagram => p ≤ puts ∧ ∃ w, strlen w ≤ maxMsgElemSize ∧
      datagram = putDatagram c.key w ∧ (p = puts → value = some w)
  | .get _, datagram => datagram = c.key.bytes

/-- A new put leaves the older datagrams what they are. -/
theorem Asks.next {c : Cluster} {puts : Nat} {value : Option CString}
    {socket : Socket} {datagram : List UInt8}
    (h : Asks c puts value socket datagram) (value' : Option CString) :
    Asks c (puts + 1) value' socket datagram := by
  cases socket with
  | put p =>
    obtain ⟨hp, w, hw, hd, _⟩ := h
    refine ⟨by omega, w, hw, hd, ?_⟩
    intro heq
    omega
  | get g => exact h

/-- All datagrams are requests of the clients, and all tables are tables of
`add_Htable_value`. -/
structure WellFormed (c : Cluster) (s : State) : Prop where
  tables : ∀ addr, (s.tables addr).Inv
  requests : ∀ q ∈ s.requests, Asks c s.puts s.put.value q.socket q.datagram
  pending : ∀ socket, ∀ x ∈ s.pending socket,
    Asks c s.puts s.put.value socket x.2

/-- What a server does with a request: it stores the value of a put and
acknowledges it, or it answers a get. -/
theorem deliver_spec {c : Cluster} (hc : c.Valid) {s : State}
    (h : WellFormed c s) {q : Packet} (hq : q ∈ s.requests) {m : ServerMem}
    (hexact : m.Exact) {fuel : Nat} {table : Htable}
    {answers : List (List UInt8)}
    (hstep : serverStep fuel m (s.tables q.addr) q.datagram =
      .ok (table, answers)) :
    (∃ p w, q.socket = .put p ∧ (p = s.puts → s.put.value = some w) ∧
      table = (addHtableValue true (s.tables q.addr) c.key (some w)).2 ∧
      answers = [[]]) ∨
    (∃ g past, q.socket = .get g ∧ table = s.tables q.addr ∧
      answers = [match (s.tables q.addr).toMap c.key with
        | some v => readBytes (mem v ++ past) maxMsgElemSize
        | none => [0]]) := by
  have hasks := h.requests q hq
  have hinv := h.tables q.addr
  cases hsocket : q.socket with
  | put p =>
    rw [hsocket] at hasks
    obtain ⟨_, w, hw, hd, hvalue⟩ := hasks
    rw [hd, serverStep_put fuel ⟨s.tables q.addr, hinv⟩ hc.key.2 hw hc.key.1
      hexact.1 hexact.2] at hstep
    cases hstep
    exact Or.inl ⟨p, w, rfl, hvalue, rfl, rfl⟩
  | get g =>
    rw [hsocket] at hasks
    have hd : q.datagram = c.key.bytes := hasks
    rw [hd, serverStep_get fuel ⟨s.tables q.addr, hinv⟩ hc.key.2 hc.key.1
      hexact.2] at hstep
    cases hstep
    exact Or.inr ⟨g, m.past, rfl, rfl, rfl⟩

/-- A request is answered by one datagram, and leaves a table that
`add_Htable_value` can build. -/
theorem deliver_answer {c : Cluster} (hc : c.Valid) {s : State}
    (h : WellFormed c s) {q : Packet} (hq : q ∈ s.requests) {m : ServerMem}
    (hexact : m.Exact) {fuel : Nat} {table : Htable}
    {answers : List (List UInt8)}
    (hstep : serverStep fuel m (s.tables q.addr) q.datagram =
      .ok (table, answers)) :
    table.Inv ∧ ∃ answer, answers = [answer] := by
  rcases deliver_spec hc h hq hexact hstep with
    ⟨p, w, _, _, htable, hanswers⟩ | ⟨g, past, _, htable, hanswers⟩
  · rw [htable]
    exact ⟨addHtableValue_inv (h.tables q.addr) c.key w, _, hanswers⟩
  · rw [htable]
    exact ⟨h.tables q.addr, _, hanswers⟩

/-- The requests of one call: one datagram to every server. -/
theorem requests_sent {c : Cluster} {client : Client}
    (hclient : Contacts c client) {message : List UInt8}
    {nodes : Option NodeList} {sent : List (Node × List UInt8)}
    (hsend : requests c.env client c.key message = .ok (nodes, sent)) :
    (sent.map (fun x => x.1.addr)).Perm c.servers ∧
      ∀ x ∈ sent, x.2 = message := by
  obtain ⟨hN, list, hrun, hperm⟩ := hclient
  have hsize : client.args.N = list.nodes.length := by
    rw [hN, ← hperm.length_eq, List.length_map]
  rw [requests, hrun] at hsend
  simp only at hsend
  cases hloop : sendLoop (some list) message client.args.N 0 with
  | error fault =>
    rw [hloop] at hsend
    cases hsend
  | ok sent' =>
    rw [hloop] at hsend
    cases hsend
    obtain ⟨_, hsent⟩ := (sendLoop_ok_iff list message _ _).mp hloop
    rw [hsize, List.take_length] at hsent
    subst hsent
    constructor
    · rw [List.map_map]
      exact hperm
    · intro x hx
      obtain ⟨node, _, rfl⟩ := List.mem_map.mp hx
      rfl

theorem putNext_value (value : CString) (nodes : Option NodeList)
    (r : Loop.Step Nat (Except Fault ErrorCode)) :
    (PutCall.next value nodes r).value = some value := by
  cases r <;> rfl

/-- Steps that send nothing and store nothing. -/
theorem WellFormed.of_subset {c : Cluster} {s s' : State}
    (h : WellFormed c s) (htables : s'.tables = s.tables)
    (hputs : s'.puts = s.puts) (hvalue : s'.put.value = s.put.value)
    (hrequests : ∀ q ∈ s'.requests, q ∈ s.requests)
    (hpending : s'.pending = s.pending) : WellFormed c s' := by
  refine ⟨?_, ?_, ?_⟩
  · rw [htables]
    exact h.tables
  · intro q hq
    rw [hputs, hvalue]
    exact h.requests q (hrequests q hq)
  · intro socket x hx
    rw [hpending] at hx
    rw [hputs, hvalue]
    exact h.pending socket x hx

/-- Every step keeps the datagrams and the tables well formed. -/
theorem wellFormed_step {c : Cluster} (hc : c.Valid) {s s' : State}
    (h : WellFormed c s) (hstep : Step c s s') : WellFormed c s' := by
  cases hstep with
  | putStart value nodes sent hfree hlen hsend =>
    obtain ⟨_, hmsg⟩ := requests_sent hc.writer.2 hsend
    refine ⟨h.tables, fun q hq => (h.requests q hq).next _, ?_⟩
    intro socket x hx
    by_cases hsocket : socket = .put (s.puts + 1)
    · subst hsocket
      simp only [update_self] at hx
      exact ⟨Nat.le_refl _, value, hlen, hmsg x hx, fun _ => rfl⟩
    · simp only [update_of_ne hsocket] at hx
      exact (h.pending socket x hx).next _
  | putReject value hfree hlen =>
    exact ⟨h.tables, fun q hq => (h.requests q hq).next _,
      fun socket x hx => (h.pending socket x hx).next _⟩
  | putReceive value nodes success r before after hput hsent hreplies hsocket =>
    refine h.of_subset rfl rfl ?_ (fun q hq => hq) rfl
    rw [hput]
    exact putNext_value value nodes _
  | putTimeout value nodes success hput hsent =>
    refine h.of_subset rfl rfl ?_ (fun q hq => hq) rfl
    rw [hput]
    rfl
  | getStart g nodes sent hidle hsend =>
    obtain ⟨_, hmsg⟩ := requests_sent (hc.reader g).2 hsend
    refine ⟨h.tables, h.requests, ?_⟩
    intro socket x hx
    by_cases hsocket : socket = .get g
    · subst hsocket
      simp only [update_self] at hx
      exact hmsg x hx
    · simp only [update_of_ne hsocket] at hx
      exact h.pending socket x hx
  | getReceive g nodes st r before after hget hsent hreplies hsocket =>
    exact h.of_subset rfl rfl rfl (fun q hq => hq) rfl
  | getTimeout g nodes st hget hsent =>
    exact h.of_subset rfl rfl rfl (fun q hq => hq) rfl
  | send socket node datagram rest hpending =>
    have hhead := h.pending socket (node, datagram)
      (by rw [hpending]; exact List.mem_cons_self)
    refine ⟨h.tables, ?_, ?_⟩
    · intro q hq
      rcases List.mem_append.mp hq with hq | hq
      · exact h.requests q hq
      · rw [List.mem_singleton.mp hq]
        exact hhead
    · intro socket' x hx
      by_cases hsocket : socket' = socket
      · subst hsocket
        simp only [update_self] at hx
        apply h.pending socket' x
        rw [hpending]
        exact List.mem_cons_of_mem _ hx
      · simp only [update_of_ne hsocket] at hx
        exact h.pending socket' x hx
  | deliver q before after m fuel table answers hrequests horder hexact hserver =>
    have hq : q ∈ s.requests := Protocol.mem_of_split hrequests
    obtain ⟨htable, _⟩ := deliver_answer hc h hq hexact hserver
    refine ⟨?_, ?_, h.pending⟩
    · intro addr
      by_cases haddr : addr = q.addr
      · subst haddr
        simp only [update_self]
        exact htable
      · simp only [update_of_ne haddr]
        exact h.tables addr
    · intro q' hq'
      exact h.requests q' (Protocol.mem_of_mem_rest hrequests hq')
  | loseRequest q before after hrequests =>
    exact h.of_subset rfl rfl rfl
      (fun q' hq' => Protocol.mem_of_mem_rest hrequests hq') rfl
  | loseReply r before after hreplies =>
    exact h.of_subset rfl rfl rfl (fun q hq => hq) rfl

end PpsDht
