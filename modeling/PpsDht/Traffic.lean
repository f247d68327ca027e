import PpsDht.ClusterRead
import PpsDht.ListNodes
import PpsDht.Dispatch
import PpsDht.DumpReceive
import PpsDht.DumpTermination
import PpsDht.Lib.ExchangeCount

/-!
# Any number of clients

The programs of the repository as processes of `Exchange`: a process calls
`network_put` and `network_get` one after the other, as `pps-client-cat` does,
or it pings the servers, as `pps-list-nodes` does, or it asks one of them for
everything, as `pps-dump-node` does.  Every call opens its own socket.  There is
any number of processes, keys, servers files and quorums, and they run at the
same time.  The network delays and reorders datagrams, and it may lose and
duplicate them.

`putCall_outcome`, `getCall_outcome`, `listNodesCall_outcome` and
`dumpCall_outcome` connect the calls to `networkPut`, `networkGet`, `listNodes`
and `dumpNode`, and `Traffic.serve` is a pass of the main loop of a server.
-/

namespace PpsDht

open CMem Function

/-! ## Calls -/

/-- What a process asks for.  A dump has the server, and what the memory of the
client holds. -/
inductive Op where
  | put (key value : CString)
  | get (key : CString)
  | listNodes
  | dump (server : SockAddr) (inMsg : List UInt8)
      (stack : List (List UInt8 × List UInt8))
  deriving DecidableEq

/-- A call of a process. -/
structure Job where
  client : Client
  op : Op
  deriving DecidableEq

/-- The result of a call. -/
inductive Outcome where
  | put (result : Except Fault ErrorCode)
  | get (result : Except Fault (ErrorCode × Option CString))
  | nodes (reports : List NodeReport)
  | dump (listing : Listing)

/-- The behaviour of a call. -/
abbrev Behaviour := Exchange.Call SockAddr (List UInt8) Outcome

/-- The datagrams of a sending loop. -/
def addressed (sent : List (Node × List UInt8)) :
    List (SockAddr × List UInt8) :=
  sent.map (fun x => (x.1.addr, x.2))

/-- `network_put`. -/
def putCall (env : Env) (client : Client) (key value : CString) : Behaviour :=
  if strlen key > maxMsgElemSize then .refuse (.put (.ok .ERR_BAD_PARAMETER))
  else if strlen value > maxMsgElemSize then
    .refuse (.put (.ok .ERR_BAD_PARAMETER))
  else
    match putRequests env client key value with
    | .error fault => .refuse (.put (.error fault))
    | .ok (nodes, sent) =>
      .loop (addressed sent) 0
        (fun success r =>
          (putReply nodes client.args.W success r.2).map .put)
        (fun _ => .put ((giveUp nodes .ERR_NETWORK).map Prod.fst))

/-- `network_get`. -/
def getCall (env : Env) (client : Client) (key : CString) : Behaviour :=
  if strlen key > maxMsgElemSize then
    .refuse (.get (.ok (.ERR_BAD_PARAMETER, none)))
  else
    match getRequests env client key with
    | .error fault => .refuse (.get (.error fault))
    | .ok (nodes, sent) =>
      .loop (addressed sent) getStart
        (fun st r => (getReply client.args.R st r.2).map .get)
        (fun st => .get (giveUp nodes
          (if st.errorNotFound = 0 then .ERR_NETWORK else .ERR_NOT_FOUND)))

/-- `main` of `pps-list-nodes`, behind `client_init`: one ping for each node,
and the source of every answer. -/
def listNodesCall (client : Client) : Behaviour :=
  let sorted := nodeListSort client.server nodeCmpServerAddr
  .loop (sorted.nodes.map (fun node => (node.addr, []))) (htableNodes, 0)
    (fun st r => (collectBody sorted.size st r.1).map
      (fun table => .nodes (sorted.nodes.map (reportNode table))))
    (fun st => .nodes (sorted.nodes.map (reportNode st.1)))

/-- `main` of `pps-dump-node`, behind `node_init`. -/
def dumpCall (server : SockAddr) (inMsg : List UInt8)
    (stack : List (List UInt8 × List UInt8)) : Behaviour :=
  .loop [(server, [0])] { loop := none, stack := stack }
    (fun w r => (dumpNodePass inMsg w r.2).map .dump)
    (fun w => .dump (dumpNodeTimeout w))

/-- The behaviour of a call. -/
def Job.call (env : Env) (job : Job) : Behaviour :=
  match job.op with
  | .put key value => putCall env job.client key value
  | .get key => getCall env job.client key
  | .listNodes => listNodesCall job.client
  | .dump server inMsg stack => dumpCall server inMsg stack

@[simp] theorem Job.call_put (env : Env) (client : Client)
    (key value : CString) :
    Job.call env ⟨client, .put key value⟩ = putCall env client key value := rfl

@[simp] theorem Job.call_get (env : Env) (client : Client) (key : CString) :
    Job.call env ⟨client, .get key⟩ = getCall env client key := rfl

@[simp] theorem Job.call_listNodes (env : Env) (client : Client) :
    Job.call env ⟨client, .listNodes⟩ = listNodesCall client := rfl

@[simp] theorem Job.call_dump (env : Env) (client : Client)
    (server : SockAddr) (inMsg : List UInt8)
    (stack : List (List UInt8 × List UInt8)) :
    Job.call env ⟨client, .dump server inMsg stack⟩ =
      dumpCall server inMsg stack := rfl

theorem putCall_outcome (env : Env) (client : Client) (key value : CString)
    (taken : List (SockAddr × List UInt8)) :
    (putCall env client key value).outcome taken =
      .put (networkPut env client key value (taken.map Prod.snd)) := by
  rw [putCall, networkPut]
  split
  · rfl
  · split
    · rfl
    · cases putRequests env client key value with
      | error fault => rfl
      | ok sent =>
        simp only [Exchange.Call.outcome_loop]
        exact Loop.feed_map (putReply sent.1 client.args.W) _ Outcome.put
          Prod.snd taken 0

theorem getCall_outcome (env : Env) (client : Client) (key : CString)
    (taken : List (SockAddr × List UInt8)) :
    (getCall env client key).outcome taken =
      .get (networkGet env client key (taken.map Prod.snd)) := by
  rw [getCall, networkGet]
  split
  · rfl
  · cases getRequests env client key with
    | error fault => rfl
    | ok sent =>
      simp only [Exchange.Call.outcome_loop]
      exact Loop.feed_map (getReply client.args.R) _ Outcome.get Prod.snd
        taken getStart

theorem listNodesCall_outcome (client : Client)
    (taken : List (SockAddr × List UInt8)) :
    (listNodesCall client).outcome taken =
      .nodes (listNodes client.server (taken.map Prod.fst)) := by
  rw [listNodesCall, listNodes, Exchange.Call.outcome_loop]
  exact Loop.feed_map (collectBody _) Prod.fst
    (fun table => Outcome.nodes (List.map (reportNode table) _)) Prod.fst taken
    (htableNodes, 0)

theorem dumpCall_outcome (server : SockAddr) (inMsg : List UInt8)
    (stack : List (List UInt8 × List UInt8))
    (taken : List (SockAddr × List UInt8)) :
    (dumpCall server inMsg stack).outcome taken =
      .dump (dumpNode inMsg (arrivals stack (taken.map Prod.snd))) := by
  rw [dumpCall, ← feed_dumpNodePass, Exchange.Call.outcome_loop]
  exact Loop.feed_map (dumpNodePass inMsg) _ Outcome.dump Prod.snd taken
    ⟨none, stack⟩

/-! ## The system -/

/-- What stays fixed in a run.  `program` is the next call of a process, given
the results of those before it, and `memory` are the states in which a server
can find its memory. -/
structure Traffic (ι : Type) where
  SHA1 : List UInt8 → List UInt8
  program : ι → List Outcome → Option Job
  duplicates : Prop
  memory : ServerMem → Prop

variable {ι : Type}

/-- A call places its key on the ring of its client, which takes the digest
function only.  The digests of the nodes are in the ring: each process has made
them from its own memory. -/
def Traffic.env (t : Traffic ι) : Env := { SHA1 := t.SHA1, pastSpace := [] }

/-- The dump loop never ends on this table, and these are the datagrams that it
has sent so far. -/
def DumpsOn (table : Htable) (sent : List (List UInt8)) : Prop :=
  ¬ DumpEnds table ∧
    ∃ n st, Loop.Leads (dumpBody (getHtableContent table)) n dumpStart st ∧
      st.sent = sent

/-- One pass of the main loop of a server.  A pass that never ends has sent
some datagrams, too; such a server does nothing else, but here it may. -/
def Traffic.serve (t : Traffic ι) (table : Htable) (datagram : List UInt8)
    (table' : Htable) (answers : List (List UInt8)) : Prop :=
  (∃ m fuel, t.memory m ∧
    serverStep fuel m table datagram = .ok (table', answers)) ∨
  datagram = [0] ∧ table' = table ∧ DumpsOn table answers

/-- The processes and the servers. -/
def Traffic.system (t : Traffic ι) :
    Exchange.System ι Job SockAddr (List UInt8) Htable Outcome where
  program := t.program
  call := Job.call t.env
  serve := t.serve
  duplicates := t.duplicates

/-- The state of the processes, the network and the servers. -/
abbrev World (ι : Type) :=
  Exchange.State ι SockAddr (List UInt8) Htable Outcome

/-- A datagram to a server or from one. -/
abbrev Mailing (ι : Type) := Exchange.Packet ι SockAddr (List UInt8)

/-- A run. -/
abbrev Traffic.Run [DecidableEq ι] (t : Traffic ι) : World ι → World ι → Prop :=
  Exchange.Run t.system

/-- The call `n` of a process, once it has started. -/
abbrev Traffic.Makes (t : Traffic ι) (s : World ι) (i : ι) (n : Nat)
    (job : Job) : Prop :=
  Exchange.Makes t.system s i n job

section Results

variable [DecidableEq ι] {t : Traffic ι} {s : World ι} {i : ι} {n : Nat}
  {client : Client}

/-- The result of a put. -/
theorem result_put (h : Exchange.Calls t.system s) {key value : CString}
    {result : Except Fault ErrorCode}
    (hmakes : t.Makes s i n ⟨client, .put key value⟩)
    (hput : (s.results i)[n]? = some (.put result)) :
    networkPut t.env client key value ((s.taken i n).map Prod.snd) = result :=
  Outcome.put.inj ((putCall_outcome t.env client key value _).symm.trans
    (h.outcome_eq hmakes hput))

/-- The result of a get. -/
theorem result_get (h : Exchange.Calls t.system s) {key : CString}
    {result : Except Fault (ErrorCode × Option CString)}
    (hmakes : t.Makes s i n ⟨client, .get key⟩)
    (hget : (s.results i)[n]? = some (.get result)) :
    networkGet t.env client key ((s.taken i n).map Prod.snd) = result :=
  Outcome.get.inj ((getCall_outcome t.env client key _).symm.trans
    (h.outcome_eq hmakes hget))

end Results

/-- The servers that a call contacts. -/
def Job.contacts (env : Env) (job : Job) : List SockAddr :=
  (job.call env).requests.map Prod.fst

/-- The server always finds a zero byte behind the datagram. -/
def Traffic.Zeroed (t : Traffic ι) : Prop :=
  ∀ m, t.memory m → peek m.rest 0 = 0

/-- The allocations of the servers succeed. -/
def Traffic.Allocates (t : Traffic ι) : Prop :=
  ∀ m, t.memory m → m.mallocOk = true

/-- The server always finds a zero byte behind the datagram, and its
allocations succeed. -/
def Traffic.Exact (t : Traffic ι) : Prop := ∀ m, t.memory m → m.Exact

theorem Traffic.Exact.zeroed {t : Traffic ι} (h : t.Exact) : t.Zeroed :=
  fun m hm => (h m hm).2

theorem Traffic.Exact.allocates {t : Traffic ι} (h : t.Exact) : t.Allocates :=
  fun m hm => (h m hm).1

/-- The tables at first: any that the servers could have built. -/
structure Tables (s₀ : World ι) : Prop where
  inv : ∀ a, (s₀.servers a).Inv
  length : ∀ a key value, (s₀.servers a).toMap key = some value →
    strlen value ≤ maxMsgElemSize

/-- Not a put of two empty strings, which a server takes for a dump request. -/
def Op.Plain : Op → Prop
  | .put key value => key.bytes ≠ [] ∨ value.bytes ≠ []
  | .get _ => True
  | .listNodes => True
  | .dump .. => True

/-- No process makes such a put. -/
def Traffic.Plain (t : Traffic ι) : Prop :=
  ∀ i results job, t.program i results = some job → job.op.Plain

/-! ## What is sent -/

/-- The datagram of a request. -/
def Op.datagram : Op → List UInt8
  | .put key value => putDatagram key value
  | .get key => key.bytes
  | .listNodes => []
  | .dump .. => [0]

/-- The checks of the lengths. -/
def Op.Fits : Op → Prop
  | .put key value => strlen key ≤ maxMsgElemSize ∧
      strlen value ≤ maxMsgElemSize
  | .get key => strlen key ≤ maxMsgElemSize
  | .listNodes => True
  | .dump .. => True

theorem Op.Fits.length_le {op : Op} (h : op.Fits) :
    op.datagram.length ≤ maxMsgSize := by
  cases op with
  | put key value =>
    have hlen : (putDatagram key value).length = strlen key + strlen value + 1 :=
      length_putDatagram key value
    obtain ⟨hkey, hvalue⟩ := h
    rw [Op.datagram, hlen, maxMsgSize]
    omega
  | get key => exact length_bytes_le h
  | listNodes => exact Nat.zero_le _
  | dump server inMsg stack =>
    show 1 ≤ maxMsgSize
    decide

/-- The behaviour of a put that sends something. -/
theorem putCall_cases (env : Env) (client : Client) (key value : CString) :
    (∃ result, putCall env client key value = .refuse result) ∨
      strlen key ≤ maxMsgElemSize ∧ strlen value ≤ maxMsgElemSize ∧
        ∃ nodes sent, putRequests env client key value = .ok (nodes, sent) ∧
          (putCall env client key value).requests = addressed sent := by
  rw [putCall]
  by_cases hkey : strlen key > maxMsgElemSize
  · exact Or.inl ⟨_, if_pos hkey⟩
  · by_cases hvalue : strlen value > maxMsgElemSize
    · exact Or.inl ⟨_, by rw [if_neg hkey, if_pos hvalue]⟩
    · rw [if_neg hkey, if_neg hvalue]
      cases putRequests env client key value with
      | error fault => exact Or.inl ⟨_, rfl⟩
      | ok sent =>
        exact Or.inr ⟨Nat.le_of_not_lt hkey, Nat.le_of_not_lt hvalue, sent.1,
          sent.2, rfl, rfl⟩

/-- The behaviour of a get that sends something. -/
theorem getCall_cases (env : Env) (client : Client) (key : CString) :
    (∃ result, getCall env client key = .refuse result) ∨
      strlen key ≤ maxMsgElemSize ∧
        ∃ nodes sent, getRequests env client key = .ok (nodes, sent) ∧
          (getCall env client key).requests = addressed sent := by
  rw [getCall]
  by_cases hkey : strlen key > maxMsgElemSize
  · exact Or.inl ⟨_, if_pos hkey⟩
  · rw [if_neg hkey]
    cases getRequests env client key with
    | error fault => exact Or.inl ⟨_, rfl⟩
    | ok sent =>
      exact Or.inr ⟨Nat.le_of_not_lt hkey, sent.1, sent.2, rfl, rfl⟩

theorem mem_addressed {env : Env} {client : Client} {key : CString}
    {message : List UInt8} {nodes : Option NodeList}
    {sent : List (Node × List UInt8)}
    (h : requests env client key message = .ok (nodes, sent))
    {x : SockAddr × List UInt8} (hx : x ∈ addressed sent) : x.2 = message := by
  obtain ⟨y, hy, rfl⟩ := List.mem_map.mp hx
  exact (requests_distinct h).2 y hy

/-- A call sends one datagram, to some servers. -/
theorem mem_requests {env : Env} {job : Job} {x : SockAddr × List UInt8}
    (h : x ∈ (job.call env).requests) :
    job.op.Fits ∧ x.2 = job.op.datagram := by
  obtain ⟨client, op⟩ := job
  cases op with
  | put key value =>
    rcases putCall_cases env client key value with
      ⟨result, hcall⟩ | ⟨hkey, hvalue, nodes, sent, hsend, hrequests⟩
    · rw [Job.call_put, hcall] at h
      exact absurd h List.not_mem_nil
    · rw [Job.call_put, hrequests] at h
      exact ⟨⟨hkey, hvalue⟩, mem_addressed hsend h⟩
  | get key =>
    rcases getCall_cases env client key with
      ⟨result, hcall⟩ | ⟨hkey, nodes, sent, hsend, hrequests⟩
    · rw [Job.call_get, hcall] at h
      exact absurd h List.not_mem_nil
    · rw [Job.call_get, hrequests] at h
      exact ⟨hkey, mem_addressed hsend h⟩
  | listNodes =>
    obtain ⟨node, _, rfl⟩ := List.mem_map.mp h
    exact ⟨trivial, rfl⟩
  | dump server inMsg stack =>
    rw [List.mem_singleton.mp h]
    exact ⟨trivial, rfl⟩

section Agree

open Exchange

variable {ι : Type} [DecidableEq ι] {t : Traffic ι} {start s s' : World ι}
  {i : ι} {client : Client} {addrs sent dropped : List SockAddr}
  {m : ServerMem} {key value : CString} {store store' : Store}

/-! ## Calls to servers that agree -/

/-- The client sends every request to these servers, and its quorums are all of
them. -/
structure AsksAll (env : Env) (client : Client) (addrs : List SockAddr) :
    Prop where
  requests : ∀ key message, ∃ list sent,
    requests env client key message = .ok (some list, sent) ∧
      addressed sent = addrs.map (·, message)
  nodup : addrs.Nodup
  pos : 0 < addrs.length
  small : addrs.length ≤ 127
  R : client.args.R = addrs.length
  W : client.args.W = addrs.length

theorem AsksAll.putCall {env : Env} (h : AsksAll env client addrs)
    (hkey : strlen key ≤ maxMsgElemSize)
    (hvalue : strlen value ≤ maxMsgElemSize) :
    ∃ list, putCall env client key value =
      .loop (addrs.map (·, putDatagram key value)) 0
        (fun success r =>
          (putReply (some list) addrs.length success r.2).map .put)
        (fun _ => .put (.ok .ERR_NETWORK)) := by
  obtain ⟨list, sent, hsend, haddressed⟩ :=
    h.requests key (putDatagram key value)
  refine ⟨list, ?_⟩
  rw [PpsDht.putCall, if_neg (by omega), if_neg (by omega), putRequests, hsend,
    ← haddressed, ← h.W]
  rfl

theorem AsksAll.getCall {env : Env} (h : AsksAll env client addrs)
    (hkey : strlen key ≤ maxMsgElemSize) :
    getCall env client key =
      .loop (addrs.map (·, key.bytes)) getStart
        (fun st r => (getReply addrs.length st r.2).map .get)
        (fun st => .get (.ok (if st.errorNotFound = 0 then .ERR_NETWORK
          else .ERR_NOT_FOUND, none))) := by
  obtain ⟨list, sent, hsend, haddressed⟩ := h.requests key key.bytes
  rw [PpsDht.getCall, if_neg (by omega), getRequests, hsend, ← haddressed,
    ← h.R]
  rfl

/-- No process is in a call, and the servers hold the same table. -/
structure Agree (t : Traffic ι) (start s : World ι) (addrs : List SockAddr)
    (store : Store) : Prop where
  initial : start.Initial
  run : t.Run start s
  free : ∀ i, s.running i = false
  servers : ∀ a ∈ addrs, s.servers a = store.table

section Exchange

variable {job : Job} {τ ρ : Type} {start' : τ} {message reply : List UInt8}
  {body : τ → List UInt8 → Loop.Step τ ρ} {wrap : ρ → Outcome}
  {stop : τ → Outcome} {good : List UInt8 → Prop}
  {Ready : Nat → τ → Prop} {r : ρ} {r' : Outcome}

/-- A call to the servers, of which the last ones may not get their request. -/
theorem Agree.exchange (h : Agree t start s addrs store)
    (haddrs : addrs = sent ++ dropped) (hnodup : addrs.Nodup)
    (hnext : t.program i (s.results i) = some job)
    (hcall : job.call t.env =
      .loop (addrs.map (·, message)) start'
        (fun s x => (body s x.2).map wrap) stop)
    (hserve : t.serve store.table message store'.table [reply])
    (hwaits : Loop.WaitsFor body good Ready addrs.length)
    (hgood : good reply) (hready : Ready 0 start')
    (houtcome : (job.call t.env).outcome (sent.map (·, reply)) = r') :
    ∃ s', t.Run s s' ∧ Exchanged s s' i (sent.map (·, message))
      (dropped.map (·, message)) (sent.map (·, reply))
      (fun _ => store'.table) r' := by
  have hjob : t.system.call job = _ := hcall
  have hfst : (sent.map (fun a => (a, message))).map Prod.fst = sent := by
    rw [List.map_map]
    exact List.map_id _
  rw [haddrs] at hnodup
  refine run_exchanged (c := t.system) (run_calls h.initial h.run) _
    (fun _ => reply) (h.free i) hnext ?_ ?_ ?_ ?_ ?_ ?_ houtcome
  · rw [hjob, haddrs, List.map_append]
    rfl
  · rw [hfst]
    exact (List.nodup_append.mp hnodup).1
  · intro x hx
    obtain ⟨a, ha, rfl⟩ := List.mem_map.mp hx
    rw [h.servers a (haddrs ▸ List.mem_append_left _ ha)]
    exact hserve
  · rw [List.map_map]
    rfl
  · rw [hjob]
    rfl
  · intro part hpart hne
    have hlt : part.length < (sent.map (·, reply)).length :=
      Nat.lt_of_le_of_ne hpart.length_le
        (fun heq => hne (hpart.eq_of_length heq))
    rw [List.length_map] at hlt
    rw [hjob]
    refine Call.after_loop (hwaits.map wrap Prod.snd) hready (fun x hx => ?_) ?_
    · obtain ⟨a, _, rfl⟩ := List.mem_map.mp (hpart.subset hx)
      exact hgood
    · rw [haddrs, List.length_append]
      omega

/-- When all servers answer they agree again. -/
theorem Agree.exchange_all (h : Agree t start s addrs store)
    (hpos : 0 < addrs.length) (hnodup : addrs.Nodup)
    (hnext : t.program i (s.results i) = some job)
    (hcall : job.call t.env =
      .loop (addrs.map (·, message)) start'
        (fun s x => (body s x.2).map wrap) stop)
    (hserve : t.serve store.table message store'.table [reply])
    (hends : Loop.EndsAfter body good Ready addrs.length r)
    (hgood : good reply) (hready : Ready 0 start') :
    ∃ s', t.Run s s' ∧ Agree t start s' addrs store' ∧
      Exchanged s s' i (addrs.map (·, message)) [] (addrs.map (·, reply))
        (fun _ => store'.table) (wrap r) := by
  have hfst : (addrs.map (fun a => (a, message))).map Prod.fst = addrs := by
    rw [List.map_map]
    exact List.map_id _
  have hbodies : ∀ x ∈ addrs.map (·, reply), good x.2 := by
    intro x hx
    obtain ⟨a, _, rfl⟩ := List.mem_map.mp hx
    exact hgood
  have houtcome : (job.call t.env).outcome (addrs.map (·, reply)) = wrap r := by
    rw [hcall]
    exact Call.outcome_loop_all (hends.map wrap Prod.snd) hready hbodies
      (List.length_map ..) hpos
  obtain ⟨s', hrun, hs'⟩ := h.exchange (List.append_nil addrs).symm hnodup hnext
    hcall hserve hends.toWaitsFor hgood hready houtcome
  refine ⟨s', hrun, ⟨h.initial, h.run.trans hrun, ?_, ?_⟩, hs'⟩
  · rw [hs'.running]
    exact h.free
  · intro a ha
    rw [hs'.servers]
    exact served_of_mem _ s.servers (by rwa [hfst]) (by rwa [hfst])

/-- When some do not the call times out. -/
theorem Agree.exchange_few (h : Agree t start s addrs store)
    (haddrs : addrs = sent ++ dropped) (hdropped : 0 < dropped.length)
    (hnodup : addrs.Nodup) (hnext : t.program i (s.results i) = some job)
    (hcall : job.call t.env =
      .loop (addrs.map (·, message)) start'
        (fun s x => (body s x.2).map wrap) stop)
    (hserve : t.serve store.table message store'.table [reply])
    (hwaits : Loop.WaitsFor body good Ready addrs.length)
    (hgood : good reply) (hready : Ready 0 start') :
    ∃ s' st, t.Run s s' ∧ Ready sent.length st ∧
      Exchanged s s' i (sent.map (·, message)) (dropped.map (·, message))
        (sent.map (·, reply)) (fun _ => store'.table) (stop st) := by
  have hbodies : ∀ x ∈ sent.map (·, reply), good x.2 := by
    intro x hx
    obtain ⟨a, _, rfl⟩ := List.mem_map.mp hx
    exact hgood
  obtain ⟨st, hst, houtcome⟩ : ∃ st, Ready sent.length st ∧
      (job.call t.env).outcome (sent.map (·, reply)) = stop st := by
    have hlength : (sent.map (·, reply)).length = sent.length :=
      List.length_map _
    rw [hcall, ← hlength]
    refine Call.outcome_loop_few (hwaits.map wrap Prod.snd) hready hbodies ?_
    rw [List.length_map, haddrs, List.length_append]
    omega
  obtain ⟨s', hrun, hs'⟩ := h.exchange haddrs hnodup hnext hcall hserve hwaits
    hgood hready houtcome
  exact ⟨s', st, hrun, hst, hs'⟩

end Exchange

omit [DecidableEq ι] in
/-- A server stores the pair of a put. -/
theorem serve_put (hm : t.memory m) (hexact : m.Exact)
    (hkey : strlen key ≤ maxMsgElemSize) (hne : key.bytes ≠ [])
    (hvalue : strlen value ≤ maxMsgElemSize) (store : Store) :
    t.serve store.table (putDatagram key value) (store.add key value).table
      [[]] :=
  Or.inl ⟨m, 0, hm,
    serverStep_put 0 store hkey hvalue hne hexact.1 hexact.2⟩

omit [DecidableEq ι] in
/-- A server sends what it holds. -/
theorem serve_get (hm : t.memory m) (hexact : m.Exact)
    (hkey : strlen key ≤ maxMsgElemSize) (hne : key.bytes ≠ [])
    (hget : store.get key = some value) :
    t.serve store.table key.bytes store.table
      [readBytes (mem value ++ m.past) maxMsgElemSize] := by
  have hserver := serverStep_get 0 store hkey hne hexact.2
  rw [hget] at hserver
  exact Or.inl ⟨m, 0, hm, hserver⟩

section Calls

variable (h : Agree t start s addrs store) (hasks : AsksAll t.env client addrs)
  (hm : t.memory m) (hexact : m.Exact) (hkey : strlen key ≤ maxMsgElemSize)
  (hne : key.bytes ≠ []) (hvalue : strlen value ≤ maxMsgElemSize)

include h hasks hm hexact hkey hne hvalue

/-- A put can succeed. -/
theorem Agree.put
    (hnext : t.program i (s.results i) = some ⟨client, .put key value⟩) :
    ∃ s', t.Run s s' ∧ Agree t start s' addrs (store.add key value) ∧
      Exchanged s s' i (addrs.map (·, putDatagram key value)) []
        (addrs.map (·, [])) (fun _ => (store.add key value).table)
        (.put (.ok .ERR_NONE)) := by
  obtain ⟨list, hcall⟩ := hasks.putCall hkey hvalue
  exact h.exchange_all hasks.pos hasks.nodup hnext hcall
    (serve_put hm hexact hkey hne hvalue store)
    (putReply_endsAfter list addrs.length) trivial rfl

/-- It fails when a server does not get its request. -/
theorem Agree.put_fails (haddrs : addrs = sent ++ dropped)
    (hdropped : 0 < dropped.length)
    (hnext : t.program i (s.results i) = some ⟨client, .put key value⟩) :
    ∃ s', t.Run s s' ∧
      Exchanged s s' i (sent.map (·, putDatagram key value))
        (dropped.map (·, putDatagram key value)) (sent.map (·, []))
        (fun _ => (store.add key value).table) (.put (.ok .ERR_NETWORK)) := by
  obtain ⟨list, hcall⟩ := hasks.putCall hkey hvalue
  obtain ⟨s', _, hrun, _, hs'⟩ := h.exchange_few haddrs hdropped hasks.nodup
    hnext hcall (serve_put hm hexact hkey hne hvalue store)
    (putReply_endsAfter list addrs.length).toWaitsFor trivial rfl
  exact ⟨s', hrun, hs'⟩

/-- A get can return what all servers hold. -/
theorem Agree.get (hget : store.get key = some value)
    (hnext : t.program i (s.results i) = some ⟨client, .get key⟩) :
    ∃ s', t.Run s s' ∧ Agree t start s' addrs store ∧
      Exchanged s s' i (addrs.map (·, key.bytes)) []
        (addrs.map (·, readBytes (mem value ++ m.past) maxMsgElemSize))
        (fun _ => store.table) (.get (.ok (.ERR_NONE, some value))) := by
  exact h.exchange_all hasks.pos hasks.nodup hnext (hasks.getCall hkey)
    (serve_get hm hexact hkey hne hget)
    (getReply_endsAfter hasks.small value 0)
    (replyValue_of_get value m.past hvalue) ⟨counts_nil, rfl⟩

/-- It fails when a server does not get its request. -/
theorem Agree.get_fails (haddrs : addrs = sent ++ dropped)
    (hdropped : 0 < dropped.length) (hget : store.get key = some value)
    (hnext : t.program i (s.results i) = some ⟨client, .get key⟩) :
    ∃ s', t.Run s s' ∧
      Exchanged s s' i (sent.map (·, key.bytes)) (dropped.map (·, key.bytes))
        (sent.map (·, readBytes (mem value ++ m.past) maxMsgElemSize))
        (fun _ => store.table) (.get (.ok (.ERR_NETWORK, none))) := by
  obtain ⟨s', st, hrun, ⟨_, hnone⟩, hs'⟩ := h.exchange_few haddrs hdropped
    hasks.nodup hnext (hasks.getCall hkey)
    (serve_get hm hexact hkey hne hget)
    (getReply_endsAfter hasks.small value 0).toWaitsFor
    (replyValue_of_get value m.past hvalue) ⟨counts_nil, rfl⟩
  simp only [hnone, if_pos] at hs'
  exact ⟨s', hrun, hs'⟩

end Calls

end Agree

section Demo

open Exchange Function

/-! ## Two processes -/

/-- The servers of two rings. -/
def demoAddrs : List SockAddr := [⟨1, 1⟩, ⟨2, 1⟩]

/-- `-n 2 -r 2`, on a ring with a third server. -/
def widerClient : Client where
  name := lit ['g', 'e', 't']
  server := nodeListAdd demoList { addr := ⟨3, 1⟩, id := 1, sha := [40] }
  socket := 4
  args := { N := 2, R := 2, W := 2 }

theorem demoClient_asks : AsksAll demoEnv demoClient demoAddrs where
  requests := fun _ _ => ⟨_, _, rfl, rfl⟩
  nodup := by decide
  pos := by decide
  small := by decide
  R := rfl
  W := rfl

theorem widerClient_asks : AsksAll demoEnv widerClient demoAddrs where
  requests := fun _ _ => ⟨_, _, rfl, rfl⟩
  nodup := by decide
  pos := by decide
  small := by decide
  R := rfl
  W := rfl

/-- What the first process puts. -/
def demoPairs : List (CString × CString) :=
  [(lit ['k'], lit ['a', 'b', 'c']), (lit ['p'], lit ['b', 'c'])]

/-- The first process puts its pairs, one after the other, and the second one
runs a program. -/
def demoTraffic (program : List Outcome → Option Job) : Traffic Bool where
  SHA1 := demoEnv.SHA1
  program := fun i results =>
    match i with
    | false =>
      (demoPairs[results.length]?).map (fun kv => ⟨demoClient, .put kv.1 kv.2⟩)
    | true => program results
  duplicates := False
  memory := ServerMem.Exact

/-- Empty servers, and nothing on its way. -/
def demoWorld : World Bool where
  servers := fun _ => constructHtable htableSize htableSize_pos
  results := fun _ => []
  running := fun _ => false
  pending := fun _ => []
  requests := []
  answers := []
  handled := []
  heard := []
  lost := []

theorem demoWorld_initial : demoWorld.Initial :=
  ⟨fun _ => rfl, fun _ => rfl, fun _ => rfl, rfl, rfl, rfl, rfl, rfl⟩

theorem demoWorld_tables : Tables demoWorld where
  inv := fun _ => constructHtable_inv htableSize htableSize_pos
  length := by
    intro a key value h
    rw [demoWorld, constructHtable_toMap] at h
    cases h

variable {program : List Outcome → Option Job} {s : World Bool}
  {store : Store} {results : List Outcome} {client : Client}
  {key value : CString}

theorem demoTraffic_plain
    (h : ∀ results job, program results = some job → job.op.Plain) :
    (demoTraffic program).Plain := by
  intro i results job hjob
  cases i with
  | false =>
    obtain ⟨kv, hkv, rfl⟩ := Option.map_eq_some_iff.mp hjob
    have hne : ∀ kv ∈ demoPairs, kv.1.bytes ≠ [] := by decide
    exact Or.inl (hne kv (List.mem_of_getElem? hkv))
  | true => exact h results job hjob

/-- Between two calls of the second process, when the first one is done. -/
structure DemoStage (program : List Outcome → Option Job) (s : World Bool)
    (store : Store) (results : List Outcome) : Prop where
  agree : Agree (demoTraffic program) demoWorld s demoAddrs store
  writer : s.results false = [.put (.ok .ERR_NONE), .put (.ok .ERR_NONE)]
  reader : s.results true = results

/-- The table with both pairs. -/
def writtenStore : Store :=
  ((Store.empty htableSize htableSize_pos).add (lit ['k'])
    (lit ['a', 'b', 'c'])).add (lit ['p']) (lit ['b', 'c'])

/-- The requests of both puts. -/
def demoPuts : List (Mailing Bool) :=
  [⟨false, 0, ⟨1, 1⟩, putDatagram (lit ['k']) (lit ['a', 'b', 'c'])⟩,
    ⟨false, 0, ⟨2, 1⟩, putDatagram (lit ['k']) (lit ['a', 'b', 'c'])⟩,
    ⟨false, 1, ⟨1, 1⟩, putDatagram (lit ['p']) (lit ['b', 'c'])⟩,
    ⟨false, 1, ⟨2, 1⟩, putDatagram (lit ['p']) (lit ['b', 'c'])⟩]

theorem demoWorld_agree (program : List Outcome → Option Job) :
    Agree (demoTraffic program) demoWorld demoWorld demoAddrs
      (Store.empty htableSize htableSize_pos) :=
  ⟨demoWorld_initial, .refl, fun _ => rfl, fun _ _ => rfl⟩

/-- The first process can put its pairs. -/
theorem demo_writes (program : List Outcome → Option Job) :
    ∃ s, (demoTraffic program).Run demoWorld s ∧
      DemoStage program s writtenStore [] ∧ s.handled = demoPuts := by
  have hmem : (demoTraffic program).memory demoMem := ⟨rfl, rfl⟩
  obtain ⟨s₁, hrun₁, h₁, hs₁⟩ := (demoWorld_agree program).put (i := false)
    demoClient_asks hmem hmem (strlen_lit_le_max ['k'] (by decide))
    (by decide) (strlen_lit_le_max ['a', 'b', 'c'] (by decide)) rfl
  have hfalse : s₁.results false = [.put (.ok .ERR_NONE)] := by
    rw [hs₁.results, update_self]
    rfl
  obtain ⟨s₂, hrun₂, h₂, hs₂⟩ := h₁.put (i := false)
    demoClient_asks hmem hmem (strlen_lit_le_max ['p'] (by decide)) (by decide)
    (strlen_lit_le_max ['b', 'c'] (by decide)) (by rw [hfalse]; rfl)
  refine ⟨s₂, hrun₁.trans hrun₂, ⟨h₂, ?_, ?_⟩, ?_⟩
  · rw [hs₂.results, update_self, hfalse]
    rfl
  · rw [hs₂.results, update_of_ne (by decide), hs₁.results,
      update_of_ne (by decide)]
    rfl
  · have hcurrent : s₁.current false = 1 := congrArg List.length hfalse
    rw [hs₂.handled, hs₁.handled]
    simp only [demoAddrs, List.map_cons, List.map_nil, State.packet, hcurrent]
    rfl

/-- The second process has not started. -/
theorem DemoStage.new (h : DemoStage program s store []) : ¬ s.Began true 0 :=
  State.not_began h.reader (h.agree.free true) 0

/-- It can get what the servers hold. -/
theorem DemoStage.get (h : DemoStage program s store results)
    (hasks : AsksAll demoEnv client demoAddrs)
    (hnext : program results = some ⟨client, .get key⟩)
    (hkey : strlen key ≤ maxMsgElemSize) (hne : key.bytes ≠ [])
    (hvalue : strlen value ≤ maxMsgElemSize)
    (hget : store.get key = some value) :
    ∃ s', (demoTraffic program).Run s s' ∧ DemoStage program s' store
      (results ++ [.get (.ok (.ERR_NONE, some value))]) := by
  have hmem : (demoTraffic program).memory demoMem := ⟨rfl, rfl⟩
  obtain ⟨s', hrun, h', hs'⟩ := h.agree.get (i := true) hasks hmem
    hmem hkey hne hvalue hget (by rw [h.reader]; exact hnext)
  refine ⟨s', hrun, h', ?_, ?_⟩
  · rw [hs'.results, update_of_ne (by decide), h.writer]
  · rw [hs'.results, update_self, h.reader]

/-- It can put another pair. -/
theorem DemoStage.put (h : DemoStage program s store results)
    (hasks : AsksAll demoEnv client demoAddrs)
    (hnext : program results = some ⟨client, .put key value⟩)
    (hkey : strlen key ≤ maxMsgElemSize) (hne : key.bytes ≠ [])
    (hvalue : strlen value ≤ maxMsgElemSize) :
    ∃ s', (demoTraffic program).Run s s' ∧ DemoStage program s'
      (store.add key value) (results ++ [.put (.ok .ERR_NONE)]) := by
  have hmem : (demoTraffic program).memory demoMem := ⟨rfl, rfl⟩
  obtain ⟨s', hrun, h', hs'⟩ := h.agree.put (i := true) hasks hmem
    hmem hkey hne hvalue (by rw [h.reader]; exact hnext)
  refine ⟨s', hrun, h', ?_, ?_⟩
  · rw [hs'.results, update_of_ne (by decide), h.writer]
  · rw [hs'.results, update_self, h.reader]

/-- The servers hold the first pair, -/
theorem written_k :
    writtenStore.get (lit ['k']) = some (lit ['a', 'b', 'c']) := by
  rw [writtenStore, Store.get_add, if_neg (by decide), Store.get_add,
    if_pos rfl]

/-- and the second one. -/
theorem written_p : writtenStore.get (lit ['p']) = some (lit ['b', 'c']) := by
  rw [writtenStore, Store.get_add, if_pos rfl]

/-- A program gets the first value, -/
theorem DemoStage.gets_k (h : DemoStage program s writtenStore results)
    (hnext : program results = some ⟨widerClient, .get (lit ['k'])⟩) :
    ∃ s', (demoTraffic program).Run s s' ∧ DemoStage program s' writtenStore
      (results ++ [.get (.ok (.ERR_NONE, some (lit ['a', 'b', 'c'])))]) :=
  h.get widerClient_asks hnext (strlen_lit_le_max ['k'] (by decide)) (by decide)
    (strlen_lit_le_max ['a', 'b', 'c'] (by decide)) written_k

/-- and the second one. -/
theorem DemoStage.gets_p (h : DemoStage program s writtenStore results)
    (hnext : program results = some ⟨widerClient, .get (lit ['p'])⟩) :
    ∃ s', (demoTraffic program).Run s s' ∧ DemoStage program s' writtenStore
      (results ++ [.get (.ok (.ERR_NONE, some (lit ['b', 'c'])))]) :=
  h.get widerClient_asks hnext (strlen_lit_le_max ['p'] (by decide)) (by decide)
    (strlen_lit_le_max ['b', 'c'] (by decide)) written_p

/-- The puts of the first process. -/
theorem DemoStage.makesPut (h : DemoStage program s store results) {n : Nat}
    (hn : demoPairs[n]? = some (key, value)) :
    (demoTraffic program).Makes s false n ⟨demoClient, .put key value⟩ ∧
      (s.results false)[n]? = some (.put (.ok .ERR_NONE)) := by
  obtain ⟨hlt, _⟩ := List.getElem?_eq_some_iff.mp hn
  have hlength : (s.results false).length = demoPairs.length := by
    rw [h.writer]
    rfl
  refine ⟨⟨Or.inl (hlt.trans_eq hlength.symm), ?_⟩, ?_⟩
  · show (demoPairs[((s.results false).take n).length]?).map _ = _
    rw [List.length_take_of_le (by omega), hn]
    rfl
  · rw [h.writer]
    match n, hlt with
    | 0, _ => rfl
    | 1, _ => rfl

/-- The first process puts nothing else. -/
theorem demoPairs_of_makes {n : Nat} {client : Client}
    (hmakes : (demoTraffic program).Makes s false n
      ⟨client, .put key value⟩) : demoPairs[n]? = some (key, value) := by
  have hnext := hmakes.next
  have hle : n ≤ (s.results false).length := hmakes.began.le
  change (demoPairs[((s.results false).take n).length]?).map _ = _ at hnext
  rw [List.length_take_of_le hle] at hnext
  obtain ⟨kv, hkv, hjob⟩ := Option.map_eq_some_iff.mp hnext
  cases hjob
  exact hkv

/-- A program that only gets `k`. -/
def getsOnce : List Outcome → Option Job
  | [] => some ⟨widerClient, .get (lit ['k'])⟩
  | _ :: _ => none

theorem getsOnce_plain : (demoTraffic getsOnce).Plain := by
  refine demoTraffic_plain ?_
  intro results job h
  cases results with
  | nil => cases h; trivial
  | cons outcome results => cases h

/-- The second process gets what the first one has put, over a ring with one
server more. -/
theorem demo_reads {s : World Bool} (h : DemoStage getsOnce s writtenStore []) :
    ∃ s', (demoTraffic getsOnce).Run s s' ∧ DemoStage getsOnce s' writtenStore
      [.get (.ok (.ERR_NONE, some (lit ['a', 'b', 'c'])))] :=
  h.gets_k rfl

/-- Its only call. -/
theorem DemoStage.makesGet {result : Outcome}
    (h : DemoStage getsOnce s store [result]) :
    (demoTraffic getsOnce).Makes s true 0 ⟨widerClient, .get (lit ['k'])⟩ :=
  makes_first h.reader rfl

end Demo

end PpsDht
