import PpsDht.ClusterTokens

/-!
# Every call is a run of the function

The steps of a call are single passes of a reply loop.  `Replays` says that,
over all the steps of a call, they compute what `network_put` and `network_get`
compute on the datagrams that the socket has received.  So what is known about
the two functions holds of the calls of the system.
-/

namespace PpsDht

open CMem Function

variable {c : Cluster} {s s' : State}

/-- What a socket has received, in the order of arrival. -/
def State.received (s : State) (socket : Socket) : List (List UInt8) :=
  (s.heard socket).map Packet.datagram

/-- After `replies`, the writer is where `network_put` is: whatever comes next,
the rest of its loop gives the result of the whole call. -/
def PutCall.Replays (c : Cluster) (replies : List (List UInt8)) :
    PutCall → Prop
  | .idle => True
  | .active value nodes success =>
    ∀ rest, networkPut c.env c.writer c.key value (replies ++ rest) =
      Loop.feed (putReply nodes c.writer.args.W)
        (fun _ => (giveUp nodes .ERR_NETWORK).map Prod.fst) success rest
  | .returned value result =>
    networkPut c.env c.writer c.key value replies = result

/-- The same for a reader. -/
def GetCall.Replays (c : Cluster) (client : Client)
    (replies : List (List UInt8)) : GetCall → Prop
  | .idle => True
  | .active nodes st =>
    ∀ rest, networkGet c.env client c.key (replies ++ rest) =
      Loop.feed (getReply client.args.R)
        (fun st => giveUp nodes
          (if st.errorNotFound = 0 then .ERR_NETWORK else .ERR_NOT_FOUND))
        st rest
  | .returned result => networkGet c.env client c.key replies = result

/-- All calls are runs of the functions. -/
structure Replays (c : Cluster) (s : State) : Prop where
  put : s.put.Replays c (s.received (.put s.puts))
  get : ∀ g, (s.get g).Replays c (c.reader g) (s.received (.get g))

/-! ## One call -/

theorem putReplays_start (hc : c.Valid) {value : CString}
    {nodes : Option NodeList} {sent : List (Node × List UInt8)}
    (hlen : strlen value ≤ maxMsgElemSize)
    (hsend : putRequests c.env c.writer c.key value = .ok (nodes, sent)) :
    (PutCall.active value nodes 0).Replays c [] := by
  intro rest
  have hkey := hc.key.2
  rw [List.nil_append, networkPut, if_neg (by omega), if_neg (by omega), hsend]

theorem putReplays_reject (hc : c.Valid) {value : CString}
    (hlen : maxMsgElemSize < strlen value) :
    (PutCall.returned value (.ok .ERR_BAD_PARAMETER)).Replays c [] := by
  have hkey := hc.key.2
  show networkPut c.env c.writer c.key value [] = .ok .ERR_BAD_PARAMETER
  rw [networkPut, if_neg (by omega), if_pos hlen]

/-- One more acknowledgement. -/
theorem putReplays_next {replies : List (List UInt8)} {value : CString}
    {nodes : Option NodeList} {success : Nat}
    (h : (PutCall.active value nodes success).Replays c replies)
    (datagram : List UInt8) :
    (PutCall.next value nodes
      (putReply nodes c.writer.args.W success datagram)).Replays c
        (replies ++ [datagram]) := by
  cases hbody : putReply nodes c.writer.args.W success datagram with
  | again success' =>
    intro rest
    rw [List.append_assoc, h]
    exact Loop.feed_again hbody rest
  | done result =>
    show networkPut c.env c.writer c.key value (replies ++ [datagram]) = result
    rw [h]
    exact Loop.feed_done hbody []

/-- No more of them. -/
theorem putReplays_timeout {replies : List (List UInt8)} {value : CString}
    {nodes : Option NodeList} {success : Nat}
    (h : (PutCall.active value nodes success).Replays c replies) :
    (PutCall.returned value
      ((giveUp nodes .ERR_NETWORK).map Prod.fst)).Replays c replies := by
  have hend := h []
  rw [List.append_nil] at hend
  exact hend

theorem getReplays_start (hc : c.Valid) {client : Client}
    {nodes : Option NodeList} {sent : List (Node × List UInt8)}
    (hsend : getRequests c.env client c.key = .ok (nodes, sent)) :
    (GetCall.active nodes getStart).Replays c client [] := by
  intro rest
  have hkey := hc.key.2
  rw [List.nil_append, networkGet, if_neg (by omega), hsend]
  rfl

/-- One more reply. -/
theorem getReplays_next {client : Client} {replies : List (List UInt8)}
    {nodes : Option NodeList} {st : GetState}
    (h : (GetCall.active nodes st).Replays c client replies)
    (datagram : List UInt8) :
    (GetCall.next nodes (getReply client.args.R st datagram)).Replays c client
      (replies ++ [datagram]) := by
  cases hbody : getReply client.args.R st datagram with
  | again st' =>
    intro rest
    rw [List.append_assoc, h]
    exact Loop.feed_again hbody rest
  | done result =>
    show networkGet c.env client c.key (replies ++ [datagram]) = result
    rw [h]
    exact Loop.feed_done hbody []

/-- No more of them. -/
theorem getReplays_timeout {client : Client} {replies : List (List UInt8)}
    {nodes : Option NodeList} {st : GetState}
    (h : (GetCall.active nodes st).Replays c client replies) :
    (GetCall.returned (giveUp nodes
      (if st.errorNotFound = 0 then .ERR_NETWORK
        else .ERR_NOT_FOUND))).Replays c client replies := by
  have hend := h []
  rw [List.append_nil] at hend
  exact hend

/-! ## All calls -/

/-- A fresh socket has received nothing. -/
theorem received_of_fresh {socket : Socket}
    (h : ∀ addr, tokens s socket addr = 0) : s.received socket = [] := by
  rw [State.received, (empty_of_tokens h).1]
  rfl

/-- A datagram is received at one socket only. -/
theorem received_update {heard : Socket → List Packet} {r : Packet}
    (h : s'.heard = update heard r.socket (heard r.socket ++ [r]))
    (socket : Socket) :
    s'.received socket = if socket = r.socket
      then (heard socket).map Packet.datagram ++ [r.datagram]
      else (heard socket).map Packet.datagram := by
  rw [State.received, h]
  by_cases hsocket : socket = r.socket
  · subst hsocket
    rw [if_pos rfl, update_self, List.map_append]
    rfl
  · rw [if_neg hsocket, update_of_ne hsocket]

/-- One reader has a new state, and nobody has received anything. -/
theorem replays_update {g : Nat} {call : GetCall}
    (hcall : call.Replays c (c.reader g) (s.received (.get g)))
    (h : ∀ g', (s.get g').Replays c (c.reader g') (s.received (.get g')))
    (g' : Nat) :
    (update s.get g call g').Replays c (c.reader g')
      (s.received (.get g')) := by
  by_cases hg : g' = g
  · subst hg
    rw [update_self]
    exact hcall
  · rw [update_of_ne hg]
    exact h g'

theorem replays_step (hc : c.Valid) (hcounted : Counted c s)
    (h : Replays c s) (hstep : Step c s s') : Replays c s' := by
  cases hstep with
  | putStart value nodes sent hfree hlen hsend =>
    refine ⟨?_, h.get⟩
    have hfresh := received_of_fresh
      (hcounted.freshPut (s.puts + 1) (Nat.lt_succ_self _))
    show (PutCall.active value nodes 0).Replays c
      (s.received (.put (s.puts + 1)))
    rw [hfresh]
    exact putReplays_start hc hlen hsend
  | putReject value hfree hlen =>
    refine ⟨?_, h.get⟩
    have hfresh := received_of_fresh
      (hcounted.freshPut (s.puts + 1) (Nat.lt_succ_self _))
    show (PutCall.returned value (.ok .ERR_BAD_PARAMETER)).Replays c
      (s.received (.put (s.puts + 1)))
    rw [hfresh]
    exact putReplays_reject hc hlen
  | putReceive value nodes success r before after hput hsent hreplies hsocket =>
    constructor
    · have hold := h.put
      rw [hput] at hold
      rw [received_update rfl, if_pos hsocket.symm]
      exact putReplays_next hold r.datagram
    · intro g
      have hne : Socket.get g ≠ r.socket := by
        rw [hsocket]
        exact nofun
      rw [received_update rfl, if_neg hne]
      exact h.get g
  | putTimeout value nodes success hput hsent =>
    refine ⟨?_, h.get⟩
    have hold := h.put
    rw [hput] at hold
    exact putReplays_timeout hold
  | getStart g nodes sent hidle hsend =>
    have hfresh := received_of_fresh (hcounted.freshGet g hidle)
    have hcall := getReplays_start hc hsend
    rw [← hfresh] at hcall
    exact ⟨h.put, replays_update hcall h.get⟩
  | getReceive g nodes st r before after hget hsent hreplies hsocket =>
    constructor
    · have hne : Socket.put s.puts ≠ r.socket := by
        rw [hsocket]
        exact nofun
      rw [received_update rfl, if_neg hne]
      exact h.put
    · intro g'
      rw [received_update rfl]
      by_cases hg : g' = g
      · subst hg
        have hold := h.get g'
        rw [hget] at hold
        rw [if_pos hsocket.symm]
        simp only [update_self]
        exact getReplays_next hold r.datagram
      · have hne : Socket.get g' ≠ r.socket := by
          rw [hsocket]
          intro heq
          cases heq
          exact hg rfl
        rw [if_neg hne]
        simp only [update_of_ne hg]
        exact h.get g'
  | getTimeout g nodes st hget hsent =>
    have hold := h.get g
    rw [hget] at hold
    exact ⟨h.put, replays_update (getReplays_timeout hold) h.get⟩
  | send => exact ⟨h.put, h.get⟩
  | deliver => exact ⟨h.put, h.get⟩
  | loseRequest => exact ⟨h.put, h.get⟩
  | loseReply => exact ⟨h.put, h.get⟩

end PpsDht
