import PpsDht.Cluster
import PpsDht.ServerLoop

/-!
# One put and its servers

A single `network_put` and the servers it contacts, over a network that loses,
delays and reorders datagrams, and that may duplicate them.  A step is one pass
of one of the code's loops, or something that the network does.

The client counts the datagrams on its socket and does not look at their
senders.  So an acknowledgement that arrives twice counts twice,
`one_server_twice`.  If nothing is duplicated, every server causes at most one
acknowledgement, and `write_quorum` follows.

`served` and `heard` record which servers have handled a request, and what the
client has received.  No step reads them.
-/

namespace PpsDht

open CMem Function

/-- A datagram in flight, and the server that it goes to or comes from. -/
abbrev Mail := SockAddr × List UInt8

/-- What stays fixed in a run.  `memory` are the states in which a server can
find its memory. -/
structure PutSystem where
  env : Env
  client : Client
  key : CString
  value : CString
  duplicates : Bool
  memory : ServerMem → Prop

/-- The state of the client, the network and the servers. -/
structure PutState where
  tables : SockAddr → Htable
  pending : List (Node × List UInt8)
  requests : List Mail
  replies : List Mail
  put : PutCall
  served : List SockAddr
  heard : List Mail

/-- One step. -/
inductive PutStep (c : PutSystem) : PutState → PutState → Prop
  /-- The client calls `network_put`. -/
  | call (s : PutState) (nodes : Option NodeList)
      (sent : List (Node × List UInt8)) (hidle : s.put = .idle)
      (hkey : strlen c.key ≤ maxMsgElemSize)
      (hvalue : strlen c.value ≤ maxMsgElemSize)
      (hsend : putRequests c.env c.client c.key c.value =
        .ok (nodes, sent)) :
      PutStep c s { s with
        put := .active c.value nodes 0
        pending := sent }
  /-- The key or the value is too long. -/
  | reject (s : PutState) (hidle : s.put = .idle)
      (hlen : maxMsgElemSize < strlen c.key ∨
        maxMsgElemSize < strlen c.value) :
      PutStep c s { s with
        put := .returned c.value (.ok .ERR_BAD_PARAMETER) }
  /-- The client sends the next datagram of its sending loop. -/
  | send (s : PutState) (node : Node) (datagram : List UInt8)
      (rest : List (Node × List UInt8))
      (hpending : s.pending = (node, datagram) :: rest) :
      PutStep c s { s with
        requests := s.requests ++ [(node.addr, datagram)]
        pending := rest }
  /-- A server receives a datagram and answers it. -/
  | deliver (s : PutState) (addr : SockAddr) (datagram : List UInt8)
      (before after : List Mail) (m : ServerMem) (fuel : Nat)
      (table : Htable) (answers : List (List UInt8))
      (hrequests : s.requests = before ++ (addr, datagram) :: after)
      (hmem : c.memory m)
      (hstep : serverStep fuel m (s.tables addr) datagram =
        .ok (table, answers)) :
      PutStep c s { s with
        tables := update s.tables addr table
        requests := before ++ after
        replies := s.replies ++ answers.map (fun answer => (addr, answer))
        served := s.served ++ [addr] }
  /-- The client receives a datagram. -/
  | receive (s : PutState) (nodes : Option NodeList) (success : Nat)
      (r : Mail) (before after : List Mail)
      (hput : s.put = .active c.value nodes success)
      (hsent : s.pending = [])
      (hreplies : s.replies = before ++ r :: after) :
      PutStep c s { s with
        replies := before ++ after
        put := .next c.value nodes (putReply nodes c.client.args.W success r.2)
        heard := s.heard ++ [r] }
  /-- The socket of the client times out. -/
  | timeout (s : PutState) (nodes : Option NodeList) (success : Nat)
      (hput : s.put = .active c.value nodes success)
      (hsent : s.pending = []) :
      PutStep c s { s with
        put := .returned c.value
          ((giveUp nodes .ERR_NETWORK).map Prod.fst) }
  /-- A datagram to a server is lost. -/
  | loseRequest (s : PutState) (q : Mail) (before after : List Mail)
      (hrequests : s.requests = before ++ q :: after) :
      PutStep c s { s with requests := before ++ after }
  /-- A datagram to the client is lost. -/
  | loseReply (s : PutState) (r : Mail) (before after : List Mail)
      (hreplies : s.replies = before ++ r :: after) :
      PutStep c s { s with replies := before ++ after }
  /-- A datagram to a server is duplicated. -/
  | duplicateRequest (s : PutState) (q : Mail) (hdup : c.duplicates = true)
      (hq : q ∈ s.requests) :
      PutStep c s { s with requests := q :: s.requests }
  /-- A datagram to the client is duplicated. -/
  | duplicateReply (s : PutState) (r : Mail) (hdup : c.duplicates = true)
      (hr : r ∈ s.replies) :
      PutStep c s { s with replies := r :: s.replies }

/-- A run. -/
abbrev PutRun (c : PutSystem) : PutState → PutState → Prop :=
  Relation.ReflTransGen (PutStep c)

/-- Before the call: the servers hold any tables. -/
structure PutState.Initial (s : PutState) : Prop where
  tables : ∀ addr, (s.tables addr).Inv
  pending : s.pending = []
  requests : s.requests = []
  replies : s.replies = []
  put : s.put = .idle
  served : s.served = []
  heard : s.heard = []

/-- The servers that the call contacts. -/
def PutSystem.contacts (c : PutSystem) : List SockAddr :=
  match putRequests c.env c.client c.key c.value with
  | .ok (_, sent) => sent.map (fun x => x.1.addr)
  | .error _ => []

/-! ## The client -/

/-- The call is `network_put` on the datagrams heard so far. -/
def ClientInv (c : PutSystem) (heard : List Mail) : PutCall → Prop
  | .idle => heard = []
  | .active value nodes success =>
    value = c.value ∧ strlen c.key ≤ maxMsgElemSize ∧
      strlen c.value ≤ maxMsgElemSize ∧
      (∃ sent, putRequests c.env c.client c.key c.value =
        .ok (nodes, sent)) ∧
      success = heard.length ∧ (heard = [] ∨ success < c.client.args.W)
  | .returned _ result =>
    networkPut c.env c.client c.key c.value (heard.map Prod.snd) = result

/-- One pass of the reply loop. -/
theorem ClientInv.receive {c : PutSystem} {heard : List Mail}
    {nodes : Option NodeList} {success : Nat}
    (h : ClientInv c heard (.active c.value nodes success)) (r : Mail) :
    ClientInv c (heard ++ [r])
      (.next c.value nodes (putReply nodes c.client.args.W success r.2)) := by
  obtain ⟨_, hkey, hvalue, ⟨sent, hsend⟩, hsuccess, _⟩ := h
  have hlen : (heard ++ [r]).length = success + 1 := by
    rw [List.length_append, hsuccess, List.length_singleton]
  have hne : heard ++ [r] ≠ [] := List.append_ne_nil_of_right_ne_nil _
    (List.cons_ne_nil _ _)
  by_cases hW : success + 1 ≥ c.client.args.W
  · have hbody : putReply nodes c.client.args.W success r.2 =
        .done ((giveUp nodes .ERR_NONE).map Prod.fst) := if_pos hW
    rw [hbody]
    show networkPut _ _ _ _ _ = _
    rw [networkPut_eq hkey hvalue hsend, if_pos]
    refine ⟨?_, ?_⟩
    · rwa [ne_eq, List.map_eq_nil_iff]
    · rw [List.length_map, hlen]
      exact hW
  · have hbody : putReply nodes c.client.args.W success r.2 =
        .again (success + 1) := if_neg hW
    rw [hbody]
    exact ⟨rfl, hkey, hvalue, ⟨sent, hsend⟩, hlen.symm, Or.inr (by omega)⟩

/-- The timeout. -/
theorem ClientInv.timeout {c : PutSystem} {heard : List Mail}
    {nodes : Option NodeList} {success : Nat}
    (h : ClientInv c heard (.active c.value nodes success)) :
    ClientInv c heard (.returned c.value
      ((giveUp nodes .ERR_NETWORK).map Prod.fst)) := by
  obtain ⟨_, hkey, hvalue, ⟨sent, hsend⟩, hsuccess, hfew⟩ := h
  show networkPut _ _ _ _ _ = _
  rw [networkPut_eq hkey hvalue hsend, if_neg]
  rintro ⟨hne, hle⟩
  rw [List.length_map] at hle
  rcases hfew with hnil | hlt
  · exact hne (by rw [hnil, List.map_nil])
  · omega

/-- Every step keeps the client's part. -/
theorem clientInv_step {c : PutSystem} {s s' : PutState}
    (h : ClientInv c s.heard s.put) (hstep : PutStep c s s') :
    ClientInv c s'.heard s'.put := by
  cases hstep with
  | call nodes sent hidle hkey hvalue hsend =>
    rw [hidle] at h
    have hheard : s.heard = [] := h
    refine ⟨rfl, hkey, hvalue, ⟨sent, hsend⟩, ?_, Or.inl hheard⟩
    simp only [hheard, List.length_nil]
  | reject hidle hlen =>
    rw [hidle] at h
    have hheard : s.heard = [] := h
    show networkPut _ _ _ _ _ = _
    rw [networkPut]
    by_cases hkey : strlen c.key > maxMsgElemSize
    · rw [if_pos hkey]
    · rw [if_neg hkey, if_pos (hlen.resolve_left hkey)]
  | receive nodes success r before after hput hsent hreplies =>
    rw [hput] at h
    exact h.receive r
  | timeout nodes success hput hsent =>
    rw [hput] at h
    exact h.timeout
  | send | deliver | loseRequest | loseReply | duplicateRequest
    | duplicateReply => exact h

/-- A call that has returned is `network_put` on the datagrams it has heard. -/
theorem putRun_result {c : PutSystem} {s₀ s : PutState} (h₀ : s₀.Initial)
    (hrun : PutRun c s₀ s) {value : CString} {result : Except Fault ErrorCode}
    (hput : s.put = .returned value result) :
    networkPut c.env c.client c.key c.value (s.heard.map Prod.snd) =
      result := by
  have hinit : ClientInv c s₀.heard s₀.put := by
    rw [h₀.put]
    exact h₀.heard
  have hinv := Protocol.run_inv (fun s => ClientInv c s.heard s.put)
    (fun _ _ h hstep => clientInv_step h hstep) hrun hinit
  rw [hput] at hinv
  exact hinv

/-! ## Requests and acknowledgements -/

/-- The datagram of the put, within the limits of the client. -/
structure IsRequest (c : PutSystem) (datagram : List UInt8) : Prop where
  key : strlen c.key ≤ maxMsgElemSize
  value : strlen c.value ≤ maxMsgElemSize
  eq : datagram = putDatagram c.key c.value

/-- The servers whose request is still to be sent, in flight or handled. -/
def PutState.asked (s : PutState) : List SockAddr :=
  s.pending.map (fun x => x.1.addr) ++ s.requests.map Prod.fst ++ s.served

/-- The senders of the datagrams to the client, in flight or received. -/
def PutState.acked (s : PutState) : List SockAddr :=
  s.replies.map Prod.fst ++ s.heard.map Prod.fst

/-- Every server is asked once, and has added the pair when it has handled its
request. -/
structure RequestInv (c : PutSystem) (tables₀ : SockAddr → Htable)
    (s : PutState) : Prop where
  idle : s.put = .idle → s.asked = []
  pending : ∀ x ∈ s.pending, IsRequest c x.2
  requests : ∀ q ∈ s.requests, IsRequest c q.2
  nodup : s.asked.Nodup
  contacts : s.asked ⊆ c.contacts
  old : ∀ addr, addr ∉ s.served → s.tables addr = tables₀ addr
  new : ∀ addr, addr ∈ s.served →
    s.tables addr = addAll (tables₀ addr) [(c.key, c.value)]

/-- Every server that has handled its request has caused at most one
acknowledgement, and no other server has. -/
structure AckInv (s : PutState) : Prop where
  nodup : s.acked.Nodup
  served : s.acked ⊆ s.served

/-- Nothing is duplicated, the servers store what they receive, and the put is
not taken for the request of a dump. -/
structure PutSystem.Reliable (c : PutSystem) : Prop where
  once : c.duplicates = false
  exact : ∀ m, c.memory m → m.Exact
  ne : c.key.bytes ≠ [] ∨ c.value.bytes ≠ []

/-- A request that is in flight has not been handled. -/
theorem RequestInv.not_served {c : PutSystem} {tables₀ : SockAddr → Htable}
    {s : PutState} (h : RequestInv c tables₀ s) {q : Mail}
    (hq : q ∈ s.requests) : q.1 ∉ s.served := by
  have hnodup := h.nodup
  rw [PutState.asked, List.nodup_append'] at hnodup
  exact hnodup.2.2 (List.mem_append_right _ (List.mem_map_of_mem hq))

/-- What a server does with a request. -/
theorem RequestInv.deliver {c : PutSystem} (hc : c.Reliable)
    {tables₀ : SockAddr → Htable} {s : PutState} (h : RequestInv c tables₀ s)
    {addr : SockAddr} {datagram : List UInt8}
    (hq : (addr, datagram) ∈ s.requests) {m : ServerMem} (hmem : c.memory m)
    {fuel : Nat} {table : Htable} {answers : List (List UInt8)}
    (hstep : serverStep fuel m (s.tables addr) datagram =
      .ok (table, answers)) :
    table = addAll (tables₀ addr) [(c.key, c.value)] ∧ answers.length ≤ 1 := by
  obtain ⟨hkey, hvalue, hdatagram⟩ := h.requests _ hq
  obtain ⟨hok, hrest⟩ := hc.exact m hmem
  simp only at hdatagram
  rw [hdatagram, serverStep_putDatagram fuel (s.tables addr) hkey hvalue hc.ne
    hrest, hok, h.old addr (h.not_served hq)] at hstep
  cases hstep
  refine ⟨rfl, ?_⟩
  split <;> simp

/-- What a step keeps that asks no other server. -/
theorem RequestInv.asked_of_subperm {c : PutSystem}
    {tables₀ : SockAddr → Htable} {s s' : PutState}
    (h : RequestInv c tables₀ s) (hasked : s'.asked.Subperm s.asked)
    (hput : s'.put = .idle → s.put = .idle) :
    (s'.put = .idle → s'.asked = []) ∧ s'.asked.Nodup ∧
      s'.asked ⊆ c.contacts := by
  obtain ⟨asked, hperm, hsub⟩ := hasked
  refine ⟨?_, ?_, ?_⟩
  · intro hidle
    have hnil := h.idle (hput hidle)
    rw [hnil, List.sublist_nil] at hsub
    rw [hsub] at hperm
    exact List.nil_perm.mp hperm
  · exact hperm.nodup_iff.mp (h.nodup.sublist hsub)
  · intro addr haddr
    exact h.contacts (hsub.subset (hperm.mem_iff.mpr haddr))

/-- A step after which fewer servers are asked, and that handles no request. -/
theorem RequestInv.of_sublist {c : PutSystem} {tables₀ : SockAddr → Htable}
    {s s' : PutState} (h : RequestInv c tables₀ s)
    (hput : s'.put = .idle → s.put = .idle)
    (hpending : s'.pending = s.pending)
    (hrequests : s'.requests.Sublist s.requests)
    (hserved : s'.served = s.served) (htables : s'.tables = s.tables) :
    RequestInv c tables₀ s' := by
  have hsub : s'.asked.Sublist s.asked := by
    rw [PutState.asked, PutState.asked, hpending, hserved]
    exact ((hrequests.map _).append_left _).append_right _
  obtain ⟨hidle, hnodup, hcontacts⟩ := h.asked_of_subperm hsub.subperm hput
  refine ⟨hidle, ?_, ?_, hnodup, hcontacts, ?_, ?_⟩
  · rw [hpending]
    exact h.pending
  · intro q hq
    exact h.requests q (hrequests.subset hq)
  · rw [hserved, htables]
    exact h.old
  · rw [hserved, htables]
    exact h.new

/-- Every step keeps the requests in order. -/
theorem requestInv_step {c : PutSystem} (hc : c.Reliable)
    {tables₀ : SockAddr → Htable} {s s' : PutState}
    (h : RequestInv c tables₀ s) (hstep : PutStep c s s') :
    RequestInv c tables₀ s' := by
  cases hstep with
  | call nodes sent hidle hkey hvalue hsend =>
    have hnil := h.idle hidle
    rw [PutState.asked, List.append_eq_nil_iff, List.append_eq_nil_iff] at hnil
    obtain ⟨⟨_, hrequests⟩, hserved⟩ := hnil
    obtain ⟨hnodup, hmessage⟩ := requests_distinct hsend
    have hcontacts : c.contacts = sent.map (fun x => x.1.addr) := by
      rw [PutSystem.contacts, hsend]
    have hasked : PutState.asked { s with
        put := .active c.value nodes 0
        pending := sent } = c.contacts := by
      rw [PutState.asked, hcontacts]
      simp only
      rw [hrequests, hserved, List.append_nil, List.append_nil]
    refine ⟨fun hput => (by cases hput), ?_, h.requests, ?_, ?_, h.old, h.new⟩
    · intro x hx
      exact ⟨hkey, hvalue, hmessage x hx⟩
    · rw [hasked, hcontacts]
      exact hnodup
    · rw [hasked]
      exact List.Subset.refl _
  | reject hidle hlen =>
    exact h.of_sublist (fun hput => (by cases hput)) rfl (List.Sublist.refl _)
      rfl rfl
  | send node datagram rest hpending =>
    have hhead : IsRequest c datagram :=
      h.pending (node, datagram) (hpending ▸ List.mem_cons_self)
    have hperm : (PutState.asked { s with
        requests := s.requests ++ [(node.addr, datagram)]
        pending := rest }).Perm s.asked := by
      rw [PutState.asked, PutState.asked, hpending, List.perm_iff_count]
      intro addr
      simp only [List.map_append, List.map_cons, List.map_nil,
        List.count_append, List.count_cons, List.count_nil]
      omega
    obtain ⟨hidle, hnodup, hcontacts⟩ := h.asked_of_subperm hperm.subperm id
    refine ⟨hidle, ?_, ?_, hnodup, hcontacts, h.old, h.new⟩
    · intro x hx
      exact h.pending x (hpending ▸ List.mem_cons_of_mem _ hx)
    · intro q hq
      rcases List.mem_append.mp hq with hq | hq
      · exact h.requests q hq
      · rw [List.mem_singleton.mp hq]
        exact hhead
  | deliver addr datagram before after m fuel table answers hrequests hmem
      hserver =>
    have hq : (addr, datagram) ∈ s.requests := Protocol.mem_of_split hrequests
    obtain ⟨htable, _⟩ := h.deliver hc hq hmem hserver
    have hperm : (PutState.asked { s with
        tables := update s.tables addr table
        requests := before ++ after
        replies := s.replies ++ answers.map (fun answer => (addr, answer))
        served := s.served ++ [addr] }).Perm s.asked := by
      rw [PutState.asked, PutState.asked, hrequests, List.perm_iff_count]
      intro addr'
      simp only [List.map_append, List.map_cons, List.count_append,
        List.count_cons, List.count_nil]
      omega
    obtain ⟨hidle, hnodup, hcontacts⟩ := h.asked_of_subperm hperm.subperm id
    refine ⟨hidle, h.pending, ?_, hnodup, hcontacts, ?_, ?_⟩
    · intro q hq'
      exact h.requests q (Protocol.mem_of_mem_rest hrequests hq')
    · intro addr' haddr
      rw [List.mem_append, List.mem_singleton, not_or] at haddr
      simp only [update_of_ne haddr.2]
      exact h.old addr' haddr.1
    · intro addr' haddr
      by_cases heq : addr' = addr
      · subst heq
        simp only [update_self]
        exact htable
      · simp only [update_of_ne heq]
        exact h.new addr' ((List.mem_append.mp haddr).resolve_right
          (fun h => heq (List.mem_singleton.mp h)))
  | receive nodes success r before after hput hsent hreplies =>
    refine h.of_sublist ?_ rfl (List.Sublist.refl _) rfl rfl
    cases putReply nodes c.client.args.W success r.2 with
    | again success => exact fun hidle => (by cases hidle)
    | done result => exact fun hidle => (by cases hidle)
  | timeout nodes success hput hsent =>
    exact h.of_sublist (fun hidle => (by cases hidle)) rfl
      (List.Sublist.refl _) rfl rfl
  | loseRequest q before after hrequests =>
    exact h.of_sublist id rfl (Protocol.rest_sublist hrequests) rfl rfl
  | loseReply r before after hreplies =>
    exact h.of_sublist id rfl (List.Sublist.refl _) rfl rfl
  | duplicateRequest q hdup hq =>
    rw [hc.once] at hdup
    cases hdup
  | duplicateReply r hdup hr =>
    rw [hc.once] at hdup
    cases hdup

/-- Every step keeps the acknowledgements in order. -/
theorem ackInv_step {c : PutSystem} (hc : c.Reliable)
    {tables₀ : SockAddr → Htable} {s s' : PutState}
    (hreq : RequestInv c tables₀ s) (h : AckInv s) (hstep : PutStep c s s') :
    AckInv s' := by
  cases hstep with
  | deliver addr datagram before after m fuel table answers hrequests hmem
      hserver =>
    have hq : (addr, datagram) ∈ s.requests := Protocol.mem_of_split hrequests
    obtain ⟨_, hlen⟩ := hreq.deliver hc hq hmem hserver
    have hnew : addr ∉ s.acked := fun haddr =>
      hreq.not_served hq (h.served haddr)
    cases answers with
    | nil =>
      have hacked : PutState.acked { s with
          tables := update s.tables addr table
          requests := before ++ after
          replies := s.replies ++ []
          served := s.served ++ [addr] } = s.acked := by
        rw [PutState.acked, PutState.acked, List.append_nil]
      refine ⟨hacked ▸ h.nodup, ?_⟩
      intro addr' haddr
      exact List.mem_append_left _ (h.served (hacked ▸ haddr))
    | cons answer answers =>
      -- The server answers once.
      have hnil : answers = [] := by
        rw [List.length_cons] at hlen
        exact List.length_eq_zero_iff.mp (by omega)
      subst hnil
      have hperm : (PutState.acked { s with
          tables := update s.tables addr table
          requests := before ++ after
          replies := s.replies ++ [(addr, answer)]
          served := s.served ++ [addr] }).Perm (addr :: s.acked) := by
        rw [PutState.acked, PutState.acked, List.perm_iff_count]
        intro addr'
        simp only [List.map_append, List.map_cons, List.map_nil,
          List.count_append, List.count_cons, List.count_nil]
        omega
      refine ⟨hperm.nodup_iff.mpr (List.nodup_cons.mpr ⟨hnew, h.nodup⟩), ?_⟩
      intro addr' haddr
      rcases List.mem_cons.mp (hperm.mem_iff.mp haddr) with rfl | haddr
      · exact List.mem_append_right _ List.mem_cons_self
      · exact List.mem_append_left _ (h.served haddr)
  | receive nodes success r before after hput hsent hreplies =>
    have hperm : ((before ++ after).map Prod.fst ++
        (s.heard ++ [r]).map Prod.fst).Perm s.acked := by
      rw [PutState.acked, hreplies, List.perm_iff_count]
      intro addr
      simp only [List.map_append, List.map_cons, List.map_nil,
        List.count_append, List.count_cons, List.count_nil]
      omega
    exact ⟨hperm.nodup_iff.mpr h.nodup,
      fun addr haddr => h.served (hperm.mem_iff.mp haddr)⟩
  | loseReply r before after hreplies =>
    have hsub : ((before ++ after).map Prod.fst ++
        s.heard.map Prod.fst).Sublist s.acked :=
      ((Protocol.rest_sublist hreplies).map _).append_right _
    exact ⟨h.nodup.sublist hsub,
      fun addr haddr => h.served (hsub.subset haddr)⟩
  | duplicateReply r hdup hr =>
    rw [hc.once] at hdup
    cases hdup
  | call | reject | send | timeout | loseRequest | duplicateRequest =>
    exact ⟨h.nodup, h.served⟩

/-- The invariants hold throughout a run. -/
theorem putRun_inv {c : PutSystem} (hc : c.Reliable) {s₀ s : PutState}
    (h₀ : s₀.Initial) (hrun : PutRun c s₀ s) :
    RequestInv c s₀.tables s ∧ AckInv s := by
  have hasked : s₀.asked = [] := by
    rw [PutState.asked, h₀.pending, h₀.requests, h₀.served]
    rfl
  have hacked : s₀.acked = [] := by
    rw [PutState.acked, h₀.replies, h₀.heard]
    rfl
  refine Protocol.run_inv (fun s => RequestInv c s₀.tables s ∧ AckInv s)
    (fun s s' h hstep => ⟨requestInv_step hc h.1 hstep,
      ackInv_step hc h.1 h.2 hstep⟩) hrun ⟨?_, ?_⟩
  · refine ⟨fun _ => hasked, ?_, ?_, hasked ▸ List.nodup_nil, ?_,
      fun _ _ => rfl, ?_⟩
    · rw [h₀.pending]
      exact fun _ hx => absurd hx List.not_mem_nil
    · rw [h₀.requests]
      exact fun _ hq => absurd hq List.not_mem_nil
    · rw [hasked]
      exact List.nil_subset _
    · rw [h₀.served]
      exact fun _ h => absurd h List.not_mem_nil
  · refine ⟨hacked ▸ List.nodup_nil, ?_⟩
    rw [hacked]
    exact List.nil_subset _

/-! ## The write quorum -/

/-- There are `W` different servers among the contacted ones that have handled
the put and added its pair. -/
def HasQuorum (c : PutSystem) (s₀ s : PutState) : Prop :=
  ∃ quorum : List SockAddr, quorum.Nodup ∧
    c.client.args.W ≤ quorum.length ∧ quorum ⊆ c.contacts ∧
    ∀ addr ∈ quorum, addr ∈ s.served ∧
      s.tables addr = addAll (s₀.tables addr) [(c.key, c.value)] ∧
      (s.tables addr).toMap c.key = some c.value

/-- Over a network that does not duplicate, a put that returns `ERR_NONE` has
been applied by `W` servers. -/
theorem write_quorum (c : PutSystem) (hc : c.Reliable) (s₀ s : PutState)
    (h₀ : s₀.Initial) (hrun : PutRun c s₀ s) (value : CString)
    (hput : s.put = .returned value (.ok .ERR_NONE)) :
    HasQuorum c s₀ s := by
  obtain ⟨hreq, hack⟩ := putRun_inv hc h₀ hrun
  obtain ⟨_, hW⟩ := networkPut_none (putRun_result h₀ hrun hput)
  have hserved : ∀ addr ∈ s.heard.map Prod.fst, addr ∈ s.served :=
    fun addr haddr => hack.served (List.mem_append_right _ haddr)
  refine ⟨s.heard.map Prod.fst, ?_, ?_, ?_, ?_⟩
  · exact hack.nodup.sublist (List.sublist_append_right _ _)
  · rw [List.length_map] at hW ⊢
    exact hW
  · intro addr haddr
    exact hreq.contacts (List.mem_append_right _ (hserved addr haddr))
  · intro addr haddr
    have htable := hreq.new addr (hserved addr haddr)
    refine ⟨hserved addr haddr, htable, ?_⟩
    rw [htable, addAll_toMap (h₀.tables addr), List.reverse_singleton,
      List.lookup_cons, beq_self_eq_true]
    rfl

/-! ## Two servers -/

/-- `-n 2 -w 2`, on a ring of two servers. -/
def twoServersClient : Client where
  name := lit ['p', 'u', 't']
  server := demoList
  socket := 4
  args := { N := 2, R := 1, W := 2 }

/-- A put of `v` under `k`. -/
def demoPut (duplicates : Bool) : PutSystem where
  env := demoEnv
  client := twoServersClient
  key := lit ['k']
  value := lit ['v']
  duplicates := duplicates
  memory := ServerMem.Exact

/-- Two empty servers. -/
def demoPutStart : PutState where
  tables := fun _ => constructHtable htableSize htableSize_pos
  pending := []
  requests := []
  replies := []
  put := .idle
  served := []
  heard := []

theorem demoPutStart_initial : demoPutStart.Initial :=
  ⟨fun _ => constructHtable_inv htableSize htableSize_pos, rfl, rfl, rfl, rfl,
    rfl, rfl⟩

/-- What the client has in flight when the first server has answered. -/
structure FirstAck (nodes : Option NodeList) (s : PutState) : Prop where
  pending : s.pending = []
  requests : s.requests = [(⟨2, 1⟩, putDatagram (lit ['k']) (lit ['v']))]
  replies : s.replies = [(⟨1, 1⟩, [])]
  put : s.put = .active (lit ['v']) nodes 0
  served : s.served = [⟨1, 1⟩]
  tables : s.tables ⟨2, 1⟩ = constructHtable htableSize htableSize_pos

/-- The client sends both requests, and the first server answers. -/
theorem demoPut_firstAck (duplicates : Bool) : ∃ list s,
    PutRun (demoPut duplicates) demoPutStart s ∧ FirstAck (some list) s := by
  have hkey : (lit ['k']).bytes ≠ [] := by decide
  have hk := strlen_lit_le_max ['k'] (by decide)
  have hv := strlen_lit_le_max ['v'] (by decide)
  obtain ⟨list, ⟨_, id₁, sha₁⟩, ⟨_, id₂, sha₂⟩, hsend, rfl, rfl⟩ :
      ∃ list node₁ node₂, putRequests demoEnv twoServersClient (lit ['k'])
        (lit ['v']) = .ok (some list,
          [(node₁, putDatagram (lit ['k']) (lit ['v'])),
            (node₂, putDatagram (lit ['k']) (lit ['v']))]) ∧
        node₁.addr = ⟨1, 1⟩ ∧ node₂.addr = ⟨2, 1⟩ := ⟨_, _, _, rfl, rfl, rfl⟩
  have hserver := serverStep_put 0 (m := ⟨[], [], true⟩)
    (Store.empty htableSize htableSize_pos) hk hv hkey rfl rfl
  have hcall := PutStep.call (c := demoPut duplicates) demoPutStart (some list) _
    rfl hk hv hsend
  have hrun₁ := (Relation.ReflTransGen.single hcall).tail
    (PutStep.send _ ⟨⟨1, 1⟩, id₁, sha₁⟩ (putDatagram (lit ['k']) (lit ['v'])) _
      rfl)
  have hrun₂ := hrun₁.tail
    (PutStep.send _ ⟨⟨2, 1⟩, id₂, sha₂⟩ (putDatagram (lit ['k']) (lit ['v'])) []
      rfl)
  have hrun₃ := hrun₂.tail (PutStep.deliver _ ⟨1, 1⟩
    (putDatagram (lit ['k']) (lit ['v'])) [] _ ⟨[], [], true⟩ 0 _ [[]] rfl
    ⟨rfl, rfl⟩ hserver)
  exact ⟨list, _, hrun₃, rfl, rfl, rfl, rfl, rfl, rfl⟩

/-- Both servers answer, and the put succeeds. -/
theorem write_quorum_demo : ∃ s,
    PutRun (demoPut false) demoPutStart s ∧
      s.put = .returned (lit ['v']) (.ok .ERR_NONE) ∧
      HasQuorum (demoPut false) demoPutStart s := by
  have hkey : (lit ['k']).bytes ≠ [] := by decide
  have hk := strlen_lit_le_max ['k'] (by decide)
  have hv := strlen_lit_le_max ['v'] (by decide)
  obtain ⟨list, s, hrun, hs⟩ := demoPut_firstAck false
  have hserver := serverStep_put 0 (m := ⟨[], [], true⟩)
    (Store.empty htableSize htableSize_pos) hk hv hkey rfl rfl
  have hrun₁ := hrun.tail (PutStep.deliver s ⟨2, 1⟩
    (putDatagram (lit ['k']) (lit ['v'])) [] [] ⟨[], [], true⟩ 0 _ [[]]
    hs.requests ⟨rfl, rfl⟩ (by rw [hs.tables]; exact hserver))
  have hrun₂ := hrun₁.tail (PutStep.receive _ (some list) 0 (⟨1, 1⟩, []) []
    [(⟨2, 1⟩, [])] hs.put hs.pending (by
      simp only [hs.replies, List.map_cons, List.map_nil, List.cons_append,
        List.nil_append]))
  have hrun₃ := hrun₂.tail (PutStep.receive _ (some list) 1 (⟨2, 1⟩, []) [] [] rfl
    hs.pending rfl)
  exact ⟨_, hrun₃, rfl, write_quorum (demoPut false)
    ⟨rfl, fun _ h => h, Or.inl hkey⟩ _ _ demoPutStart_initial hrun₃ _ rfl⟩

/-- The acknowledgement of one server arrives twice. -/
theorem one_server_twice :
    ¬ ∀ (c : PutSystem) (s₀ s : PutState) (value : CString),
      (∀ m, c.memory m → m.Exact) → s₀.Initial → PutRun c s₀ s →
      s.put = .returned value (.ok .ERR_NONE) → HasQuorum c s₀ s := by
  intro h
  obtain ⟨list, s, hrun, hs⟩ := demoPut_firstAck true
  have hmem : (⟨1, 1⟩, []) ∈ s.replies := hs.replies ▸ List.mem_cons_self
  have hrun₁ := hrun.tail (PutStep.duplicateReply s (⟨1, 1⟩, []) rfl hmem)
  have hrun₂ := hrun₁.tail (PutStep.receive _ (some list) 0 (⟨1, 1⟩, []) []
    s.replies hs.put hs.pending rfl)
  have hrun₃ := hrun₂.tail (PutStep.receive _ (some list) 1 (⟨1, 1⟩, []) [] [] rfl
    hs.pending hs.replies)
  obtain ⟨quorum, hnodup, hW, _, hquorum⟩ := h _ _ _ _ (fun _ h => h)
    demoPutStart_initial hrun₃ rfl
  have hsub : quorum ⊆ [⟨1, 1⟩] := by
    intro addr haddr
    have hserved : addr ∈ s.served := (hquorum addr haddr).1
    rwa [hs.served] at hserved
  have hlen := (hnodup.subperm hsub).length_le
  have htwo : 2 ≤ quorum.length := hW
  rw [List.length_singleton] at hlen
  omega

end PpsDht
