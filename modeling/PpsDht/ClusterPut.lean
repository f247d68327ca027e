import PpsDht.ClusterTokens

/-!
# What an acknowledgement is worth

A server acknowledges a put once it has stored the value.  `Applied` says that
it has, and that nothing of the writer is on its way to it any more: datagrams
of older puts arrive before, since the writer's datagrams to one server keep
their order.  So an `Applied` server keeps the value until the writer starts
its next call (`Applied.step`), and every acknowledgement of the current put
comes from such a server (`Acked`).
-/

namespace PpsDht

open CMem Function

variable {c : Cluster} {s s' : State}

/-! ## One call after the other -/

/-- Two datagrams of the writer to one server are in flight in the order of
their calls. -/
def InOrder (q q' : Packet) : Prop :=
  ∀ p p', q.socket = .put p → q'.socket = .put p' → q.addr = q'.addr → p ≤ p'

/-- The writer sends for its current call only. -/
structure Sequential (s : State) : Prop where
  order : s.requests.Pairwise InOrder
  pendingPut : ∀ p, s.pending (.put p) ≠ [] → p = s.puts ∧ ¬ s.put.Free

theorem not_free_active (value : CString) (nodes : Option NodeList) (n : Nat) :
    ¬ (PutCall.active value nodes n).Free := by
  intro h
  exact h value nodes n rfl

/-- The reply loop runs after the sending loop. -/
theorem Sequential.sent (h : Sequential s)
    (hsent : s.pending (.put s.puts) = []) (p : Nat) :
    s.pending (.put p) = [] := by
  by_contra hne
  rw [(h.pendingPut p hne).1] at hne
  exact hne hsent

/-- Between two calls there is nothing to send. -/
theorem Sequential.free (h : Sequential s) (hfree : s.put.Free) (p : Nat) :
    s.pending (.put p) = [] := by
  by_contra hne
  exact (h.pendingPut p hne).2 hfree

theorem sequential_step (hwf : WellFormed c s) (h : Sequential s)
    (hstep : Step c s s') : Sequential s' := by
  cases hstep with
  | putStart value nodes sent hfree hlen hsend =>
    refine ⟨h.order, ?_⟩
    intro p hp
    by_cases heq : p = s.puts + 1
    · exact ⟨heq, not_free_active value nodes 0⟩
    · have hne : Socket.put p ≠ .put (s.puts + 1) := by
        intro hput
        cases hput
        exact heq rfl
      simp only [update_of_ne hne] at hp
      exact absurd (h.free hfree p) hp
  | putReject value hfree hlen =>
    exact ⟨h.order, fun p hp => absurd (h.free hfree p) hp⟩
  | putReceive value nodes success r before after hput hsent hreplies hsocket =>
    exact ⟨h.order, fun p hp => absurd (h.sent hsent p) hp⟩
  | putTimeout value nodes success hput hsent =>
    exact ⟨h.order, fun p hp => absurd (h.sent hsent p) hp⟩
  | getStart g nodes sent hidle hsend =>
    exact ⟨h.order, h.pendingPut⟩
  | getReceive g nodes st r before after hget hsent hreplies hsocket =>
    exact ⟨h.order, h.pendingPut⟩
  | getTimeout g nodes st hget hsent =>
    exact ⟨h.order, h.pendingPut⟩
  | send socket node datagram rest hpending =>
    constructor
    · apply List.pairwise_append.mpr
      refine ⟨h.order, List.pairwise_singleton _ _, ?_⟩
      intro q hq q' hq' p p' hp hp' haddr
      rw [List.mem_singleton.mp hq'] at hp'
      -- The new datagram is one of the current call, the largest number.
      have hnew : s.pending (.put p') ≠ [] := by
        rw [← show socket = .put p' from hp', hpending]
        exact List.cons_ne_nil _ _
      have hold := hwf.requests q hq
      rw [hp] at hold
      rw [(h.pendingPut p' hnew).1]
      exact hold.1
    · intro p hp
      apply h.pendingPut p
      by_cases heq : Socket.put p = socket
      · rw [heq, hpending]
        exact List.cons_ne_nil _ _
      · simpa only [update_of_ne heq] using hp
  | deliver q before after m fuel table answers hrequests horder hexact hserver =>
    exact ⟨h.order.sublist (Protocol.rest_sublist hrequests), h.pendingPut⟩
  | loseRequest q before after hrequests =>
    exact ⟨h.order.sublist (Protocol.rest_sublist hrequests), h.pendingPut⟩
  | loseReply r before after hreplies =>
    exact ⟨h.order, h.pendingPut⟩

/-! ## Servers that have the value -/

/-- The server has the value, and nothing of the writer is on its way to it. -/
structure Applied (c : Cluster) (s : State) (v : CString) (addr : SockAddr) :
    Prop where
  stored : (s.tables addr).toMap c.key = some v
  quiet : ∀ q ∈ s.requests, q.IsPut → q.addr ≠ addr
  sent : ∀ x ∈ s.pending (.put s.puts), x.1.addr ≠ addr

/-- The server keeps the value until the next call of the writer. -/
theorem Applied.step (hc : c.Valid) {v : CString} {addr : SockAddr}
    (h : Applied c s v addr) (hwf : WellFormed c s) (hseq : Sequential s)
    (hstep : Step c s s') (hputs : s'.puts = s.puts) : Applied c s' v addr := by
  cases hstep with
  | putStart value nodes sent hfree hlen hsend =>
    exact absurd hputs (Nat.succ_ne_self _)
  | putReject value hfree hlen =>
    exact absurd hputs (Nat.succ_ne_self _)
  | putReceive value nodes success r before after hput hsent hreplies hsocket =>
    exact ⟨h.stored, h.quiet, h.sent⟩
  | putTimeout value nodes success hput hsent =>
    exact ⟨h.stored, h.quiet, h.sent⟩
  | getStart g nodes sent hidle hsend =>
    exact ⟨h.stored, h.quiet, h.sent⟩
  | getReceive g nodes st r before after hget hsent hreplies hsocket =>
    exact ⟨h.stored, h.quiet, h.sent⟩
  | getTimeout g nodes st hget hsent =>
    exact ⟨h.stored, h.quiet, h.sent⟩
  | send socket node datagram rest hpending =>
    refine ⟨h.stored, ?_, ?_⟩
    · intro q hq hput
      rcases List.mem_append.mp hq with hq | hq
      · exact h.quiet q hq hput
      · rw [List.mem_singleton.mp hq] at hput ⊢
        obtain ⟨p, hp⟩ := hput
        -- It was still to be sent, and not to this server.
        have hsocket : socket = .put p := hp
        have hne : s.pending (.put p) ≠ [] := by
          rw [← hsocket, hpending]
          exact List.cons_ne_nil _ _
        apply h.sent (node, datagram)
        rw [← (hseq.pendingPut p hne).1, ← hsocket, hpending]
        exact List.mem_cons_self
    · intro x hx
      by_cases heq : Socket.put s.puts = socket
      · apply h.sent x
        rw [heq, hpending]
        simp only [heq, update_self] at hx
        exact List.mem_cons_of_mem _ hx
      · simp only [update_of_ne heq] at hx
        exact h.sent x hx
  | deliver q before after m fuel table answers hrequests horder hexact hserver =>
    have hq : q ∈ s.requests := Protocol.mem_of_split hrequests
    refine ⟨?_, ?_, h.sent⟩
    · by_cases haddr : addr = q.addr
      · subst haddr
        simp only [update_self]
        rcases deliver_spec hc hwf hq hexact hserver with
          ⟨p, w, hp, _⟩ | ⟨g, past, _, htable, _⟩
        · exact absurd rfl (h.quiet q hq ⟨p, hp⟩)
        · rw [htable]
          exact h.stored
      · simp only [update_of_ne haddr]
        exact h.stored
    · intro q' hq'
      exact h.quiet q' (Protocol.mem_of_mem_rest hrequests hq')
  | loseRequest q before after hrequests =>
    refine ⟨h.stored, ?_, h.sent⟩
    intro q' hq'
    exact h.quiet q' (Protocol.mem_of_mem_rest hrequests hq')
  | loseReply r before after hreplies =>
    exact ⟨h.stored, h.quiet, h.sent⟩

/-- A datagram of the current put makes its server one of those. -/
theorem applied_deliver (hc : c.Valid) (hwf : WellFormed c s)
    (hcounted : Counted c s) (hseq : Sequential s) {q : Packet}
    {before after : List Packet} (hrequests : s.requests = before ++ q :: after)
    (hsocket : q.socket = .put s.puts)
    (horder : q.IsPut → ∀ q' ∈ before, q'.IsPut → q'.addr ≠ q.addr)
    {v : CString} {table : Htable}
    (htable : table.toMap c.key = some v) {replies : List Packet} :
    Applied c { s with
      tables := update s.tables q.addr table
      requests := before ++ after
      replies := replies } v q.addr := by
  obtain ⟨honly, hsent⟩ := hcounted.only_request hc.servers hrequests
  rw [hsocket] at honly hsent
  refine ⟨?_, ?_, hsent⟩
  · simp only [update_self]
    exact htable
  · intro q' hq' hput haddr
    rcases List.mem_append.mp hq' with hbefore | hafter
    · exact horder ⟨s.puts, hsocket⟩ q' hbefore hput haddr
    · -- Behind the datagram there is at most a later put, and there is none.
      obtain ⟨p', hp'⟩ := hput
      have hasks := hwf.requests q' (by
        rw [hrequests]
        exact List.mem_append_right _ (List.mem_cons_of_mem _ hafter))
      rw [hp'] at hasks
      have hpair := hseq.order
      rw [hrequests] at hpair
      have hle := List.rel_of_pairwise_cons
        (List.pairwise_append.mp hpair).2.1 hafter s.puts p' hsocket hp'
        haddr.symm
      have heq : p' = s.puts := Nat.le_antisymm hasks.1 hle
      subst heq
      exact honly q' hq' hp' haddr

/-! ## Acknowledgements -/

/-- Every acknowledgement of the current put, received or in flight, comes from
a server that has the value. -/
def Acked (c : Cluster) (s : State) : Prop :=
  ∀ v, s.put.value = some v →
    ∀ q, s.HasReply (.put s.puts) q → Applied c s v q.addr

/-- A put that starts has no acknowledgements. -/
theorem acked_start (hcounted : Counted c s) (h1 : s'.puts = s.puts + 1)
    (h2 : s'.heard = s.heard) (h3 : s'.replies = s.replies) : Acked c s' := by
  obtain ⟨_, hnone⟩ :=
    empty_of_tokens (hcounted.freshPut (s.puts + 1) (Nat.lt_succ_self _))
  intro v hv q hq
  rw [State.HasReply, h1, h2, h3] at hq
  exact absurd hq (hnone q)

/-- Steps of a put with no new acknowledgements. -/
theorem Acked.of_step (hc : c.Valid) (h : Acked c s) (hwf : WellFormed c s)
    (hseq : Sequential s) (hstep : Step c s s') (hputs : s'.puts = s.puts)
    (hvalue : s'.put.value = s.put.value)
    (hreply : ∀ q, s'.HasReply (.put s.puts) q → s.HasReply (.put s.puts) q) :
    Acked c s' := by
  intro v hv q hq
  rw [hvalue] at hv
  rw [hputs] at hq
  exact (h v hv q (hreply q hq)).step hc hwf hseq hstep hputs

theorem acked_step (hc : c.Valid) (hwf : WellFormed c s)
    (hcounted : Counted c s) (hseq : Sequential s) (h : Acked c s)
    (hstep : Step c s s') : Acked c s' := by
  have hstep' := hstep
  cases hstep with
  | putStart value nodes sent hfree hlen hsend =>
    exact acked_start hcounted rfl rfl rfl
  | putReject value hfree hlen =>
    exact acked_start hcounted rfl rfl rfl
  | putReceive value nodes success r before after hput hsent hreplies hsocket =>
    refine h.of_step hc hwf hseq hstep' rfl ?_ ?_
    · rw [hput]
      exact putNext_value value nodes _
    · intro q hq
      apply hasReply_of_receive hreplies _ _ hq <;> rfl
  | putTimeout value nodes success hput hsent =>
    refine h.of_step hc hwf hseq hstep' rfl ?_ (fun q hq => hq)
    rw [hput]
    rfl
  | getStart g nodes sent hidle hsend =>
    exact h.of_step hc hwf hseq hstep' rfl rfl (fun q hq => hq)
  | getReceive g nodes st r before after hget hsent hreplies hsocket =>
    refine h.of_step hc hwf hseq hstep' rfl rfl ?_
    intro q hq
    apply hasReply_of_receive hreplies _ _ hq <;> rfl
  | getTimeout g nodes st hget hsent =>
    exact h.of_step hc hwf hseq hstep' rfl rfl (fun q hq => hq)
  | send socket node datagram rest hpending =>
    exact h.of_step hc hwf hseq hstep' rfl rfl (fun q hq => hq)
  | deliver q before after m fuel table answers hrequests horder hexact hserver =>
    have hq : q ∈ s.requests := Protocol.mem_of_split hrequests
    intro v hv r hr
    rcases hr with hr | ⟨hr, hsocket⟩
    · exact (h v hv r (Or.inl hr)).step hc hwf hseq hstep' rfl
    · rcases List.mem_append.mp hr with hr | hr
      · exact (h v hv r (Or.inr ⟨hr, hsocket⟩)).step hc hwf hseq hstep' rfl
      · -- The acknowledgement is new: the server has just stored the value.
        obtain ⟨datagram, _, rfl⟩ := List.mem_map.mp hr
        rcases deliver_spec hc hwf hq hexact hserver with
          ⟨p, w, hp, hw, htable, _⟩ | ⟨g, past, hg, _⟩
        · have heq : p = s.puts := by
            have hput := hp.symm.trans hsocket
            cases hput
            rfl
          have hwv : some w = some v := (hw heq).symm.trans hv
          apply applied_deliver hc hwf hcounted hseq hrequests hsocket horder
          rw [htable, getHtableValue_add (hwf.tables q.addr), if_pos rfl, hwv]
        · exact absurd (hg.symm.trans hsocket) nofun
  | loseRequest q before after hrequests =>
    exact h.of_step hc hwf hseq hstep' rfl rfl (fun q hq => hq)
  | loseReply r before after hreplies =>
    refine h.of_step hc hwf hseq hstep' rfl rfl ?_
    intro q hq
    apply hasReply_of_lose hreplies _ _ hq <;> rfl

end PpsDht
