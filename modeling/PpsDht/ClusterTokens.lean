import PpsDht.Cluster

/-!
# Every call hears of every server at most once

`tokens` counts where one server occurs in one call: in the datagrams that the
call has still to send, in its request, in the answer, or in what its socket
has received.  A datagram only ever moves from one of these places to the next,
so the number does not grow (`Counted`).
-/

namespace PpsDht

open CMem Function Tally

/-! ## One token for each server and call -/

/-- A datagram between a socket and a server. -/
def between (socket : Socket) (addr : SockAddr) (q : Packet) : Bool :=
  decide (q.socket = socket ∧ q.addr = addr)

/-- How often a server occurs in a call. -/
def tokens (s : State) (socket : Socket) (addr : SockAddr) : Nat :=
  (s.heard socket).countP (fun q => decide (q.addr = addr)) +
    s.replies.countP (between socket addr) +
    s.requests.countP (between socket addr) +
    (s.pending socket).countP (fun x => decide (x.1.addr = addr))

theorem countP_one {α : Type} (p : α → Bool) (before after : List α) (a : α) :
    (before ++ a :: after).countP p =
      (before ++ after).countP p + if p a then 1 else 0 := by
  rw [List.countP_append, List.countP_append, List.countP_cons]
  omega

section Moves

variable {s s' : State} {before after : List Packet}

/-- A received datagram moves from the network to its socket. -/
theorem tokens_receive {r : Packet} (hreplies : s.replies = before ++ r :: after)
    (h1 : s'.replies = before ++ after)
    (h2 : s'.heard = update s.heard r.socket (s.heard r.socket ++ [r]))
    (h3 : s'.requests = s.requests) (h4 : s'.pending = s.pending)
    {socket : Socket} {addr : SockAddr} :
    tokens s' socket addr = tokens s socket addr := by
  unfold tokens
  rw [h1, h2, h3, h4, hreplies, countP_one]
  by_cases hsocket : socket = r.socket
  · subst hsocket
    rw [update_self, List.countP_append, List.countP_singleton]
    simp only [between, true_and, decide_eq_true_eq]
    omega
  · have hno : between socket addr r = false := by
      simp [between, Ne.symm hsocket]
    rw [update_of_ne hsocket, hno, if_neg Bool.false_ne_true]
    omega

/-- A sent datagram moves from the sending loop to the network. -/
theorem tokens_send {sender : Socket} {node : Node} {datagram : List UInt8}
    {rest : List (Node × List UInt8)}
    (hpending : s.pending sender = (node, datagram) :: rest)
    (h1 : s'.requests = s.requests ++
      [{ socket := sender, addr := node.addr, datagram := datagram }])
    (h2 : s'.pending = update s.pending sender rest)
    (h3 : s'.heard = s.heard) (h4 : s'.replies = s.replies)
    {socket : Socket} {addr : SockAddr} :
    tokens s' socket addr = tokens s socket addr := by
  unfold tokens
  rw [h1, h2, h3, h4, List.countP_append, List.countP_singleton]
  by_cases hsocket : socket = sender
  · subst hsocket
    rw [update_self, hpending, List.countP_cons]
    simp only [between, true_and, decide_eq_true_eq]
    omega
  · have hno : between socket addr
        { socket := sender, addr := node.addr, datagram := datagram } =
          false := by
      simp [between, Ne.symm hsocket]
    rw [update_of_ne hsocket, hno, if_neg Bool.false_ne_true]
    omega

/-- A request becomes an answer. -/
theorem tokens_deliver {q : Packet} {answer : List UInt8}
    (hrequests : s.requests = before ++ q :: after)
    (h1 : s'.requests = before ++ after)
    (h2 : s'.replies = s.replies ++
      [{ socket := q.socket, addr := q.addr, datagram := answer }])
    (h3 : s'.heard = s.heard) (h4 : s'.pending = s.pending)
    {socket : Socket} {addr : SockAddr} :
    tokens s' socket addr = tokens s socket addr := by
  have hsame : between socket addr
      { socket := q.socket, addr := q.addr, datagram := answer } =
        between socket addr q := rfl
  unfold tokens
  rw [h1, h2, h3, h4, hrequests, countP_one _ before after q,
    List.countP_append, List.countP_singleton, hsame]
  omega

/-- A lost datagram is gone. -/
theorem tokens_lose {q : Packet} {socket : Socket} {addr : SockAddr}
    (h : (s.requests = before ++ q :: after ∧
        s'.requests = before ++ after ∧ s'.replies = s.replies) ∨
      (s.replies = before ++ q :: after ∧
        s'.replies = before ++ after ∧ s'.requests = s.requests))
    (h1 : s'.heard = s.heard) (h2 : s'.pending = s.pending) :
    tokens s' socket addr ≤ tokens s socket addr := by
  unfold tokens
  rcases h with ⟨h3, h4, h5⟩ | ⟨h3, h4, h5⟩
  · rw [h1, h2, h3, h4, h5, countP_one]
    omega
  · rw [h1, h2, h3, h4, h5, countP_one]
    omega

end Moves

/-- Every call meets every server at most once and no other address, and a
call that has not started meets none. -/
structure Counted (c : Cluster) (s : State) : Prop where
  once : ∀ socket addr, tokens s socket addr ≤ c.servers.count addr
  freshPut : ∀ p, s.puts < p → ∀ addr, tokens s (.put p) addr = 0
  freshGet : ∀ g, s.get g = .idle → ∀ addr, tokens s (.get g) addr = 0

/-- Steps that start no call. -/
theorem Counted.of_le {c : Cluster} {s s' : State} (h : Counted c s)
    (hle : ∀ socket addr, tokens s' socket addr ≤ tokens s socket addr)
    (hputs : s.puts ≤ s'.puts)
    (hget : ∀ g, s'.get g = .idle → s.get g = .idle) : Counted c s' := by
  constructor
  · intro socket addr
    exact (hle socket addr).trans (h.once socket addr)
  · intro p hp addr
    have hzero := h.freshPut p (by omega) addr
    have hle := hle (.put p) addr
    omega
  · intro g hg addr
    have hzero := h.freshGet g (hget g hg) addr
    have hle := hle (.get g) addr
    omega

/-- A call starts: it will send one datagram to every server. -/
theorem tokens_start {c : Cluster} {s s' : State} {started : Socket}
    {sent : List (Node × List UInt8)} (h1 : s'.heard = s.heard)
    (h2 : s'.replies = s.replies) (h3 : s'.requests = s.requests)
    (h4 : s'.pending = update s.pending started sent)
    (hfresh : ∀ addr, tokens s started addr = 0)
    (hsent : (sent.map (fun x => x.1.addr)).Perm c.servers)
    {socket : Socket} {addr : SockAddr} :
    tokens s' socket addr = if socket = started then c.servers.count addr
      else tokens s socket addr := by
  have hold := hfresh addr
  unfold tokens at hold ⊢
  rw [h1, h2, h3, h4]
  by_cases hsocket : socket = started
  · subst hsocket
    have hcount : sent.countP (fun x => decide (x.1.addr = addr)) =
        c.servers.count addr := by
      rw [← hsent.count_eq, List.count, List.countP_map]
      rfl
    rw [if_pos rfl, update_self, hcount]
    omega
  · rw [if_neg hsocket, update_of_ne hsocket]

theorem Counted.start {c : Cluster} {s s' : State} (h : Counted c s)
    (started : Socket) (hputs : s.puts ≤ s'.puts)
    (hget : ∀ g, s'.get g = .idle → s.get g = .idle)
    (hstarted : ∀ p, started = .put p → p ≤ s'.puts)
    (hactive : ∀ g, started = .get g → s'.get g ≠ .idle)
    (htokens : ∀ socket addr, tokens s' socket addr =
      if socket = started then c.servers.count addr
        else tokens s socket addr) : Counted c s' := by
  constructor
  · intro socket addr
    rw [htokens]
    split
    · exact Nat.le_refl _
    · exact h.once socket addr
  · intro p hp addr
    have hne : Socket.put p ≠ started := by
      intro heq
      have hle := hstarted p heq.symm
      omega
    rw [htokens, if_neg hne]
    exact h.freshPut p (by omega) addr
  · intro g hg addr
    have hne : Socket.get g ≠ started := by
      intro heq
      exact hactive g heq.symm hg
    rw [htokens, if_neg hne]
    exact h.freshGet g (hget g hg) addr

theorem getNext_ne_idle (nodes : Option NodeList)
    (r : Loop.Step GetState (Except Fault (ErrorCode × Option CString))) :
    GetCall.next nodes r ≠ .idle := by
  cases r <;> exact nofun

/-- A reader that is idle after the update of a call was idle before. -/
theorem idle_of_update {get : Nat → GetCall} {g : Nat} {call : GetCall}
    (hcall : call ≠ .idle) (g' : Nat) (h : update get g call g' = .idle) :
    get g' = .idle := by
  by_cases heq : g' = g
  · subst heq
    rw [update_self] at h
    exact absurd h hcall
  · rwa [update_of_ne heq] at h

theorem counted_step {c : Cluster} (hc : c.Valid) {s s' : State}
    (hwf : WellFormed c s) (h : Counted c s) (hstep : Step c s s') :
    Counted c s' := by
  cases hstep with
  | putStart value nodes sent hfree hlen hsend =>
    refine h.start (.put (s.puts + 1)) (Nat.le_succ _) (fun g hg => hg)
      ?_ ?_ ?_
    · intro p hp
      cases hp
      exact Nat.le_refl _
    · intro g hg
      cases hg
    · intro socket addr
      refine tokens_start ?_ ?_ ?_ ?_ (h.freshPut _ (Nat.lt_succ_self _))
        (requests_sent hc.writer.2 hsend).1 <;> rfl
  | putReject value hfree hlen =>
    exact h.of_le (fun _ _ => Nat.le_refl _) (Nat.le_succ _) (fun g hg => hg)
  | putReceive value nodes success r before after hput hsent hreplies hsocket =>
    refine h.of_le ?_ (Nat.le_refl _) (fun g hg => hg)
    intro socket addr
    apply Nat.le_of_eq
    apply tokens_receive hreplies <;> rfl
  | putTimeout value nodes success hput hsent =>
    exact h.of_le (fun _ _ => Nat.le_refl _) (Nat.le_refl _) (fun g hg => hg)
  | getStart g nodes sent hidle hsend =>
    refine h.start (.get g) (Nat.le_refl _) (idle_of_update nofun) ?_ ?_ ?_
    · intro p hp
      cases hp
    · intro g' hg'
      cases hg'
      show update s.get g _ g ≠ .idle
      rw [update_self]
      exact nofun
    · intro socket addr
      refine tokens_start ?_ ?_ ?_ ?_ (h.freshGet g hidle)
        (requests_sent (hc.reader g).2 hsend).1 <;> rfl
  | getReceive g nodes st r before after hget hsent hreplies hsocket =>
    refine h.of_le ?_ (Nat.le_refl _) (idle_of_update (getNext_ne_idle _ _))
    intro socket addr
    apply Nat.le_of_eq
    apply tokens_receive hreplies <;> rfl
  | getTimeout g nodes st hget hsent =>
    exact h.of_le (fun _ _ => Nat.le_refl _) (Nat.le_refl _)
      (idle_of_update nofun)
  | send socket node datagram rest hpending =>
    refine h.of_le ?_ (Nat.le_refl _) (fun g hg => hg)
    intro socket' addr
    apply Nat.le_of_eq
    apply tokens_send hpending <;> rfl
  | deliver q before after m fuel table answers hrequests horder hexact hserver =>
    have hq : q ∈ s.requests := Protocol.mem_of_split hrequests
    obtain ⟨_, answer, rfl⟩ := deliver_answer hc hwf hq hexact hserver
    refine h.of_le ?_ (Nat.le_refl _) (fun g hg => hg)
    intro socket addr
    apply Nat.le_of_eq
    apply tokens_deliver hrequests <;> rfl
  | loseRequest q before after hrequests =>
    refine h.of_le ?_ (Nat.le_refl _) (fun g hg => hg)
    intro socket addr
    exact tokens_lose (Or.inl ⟨hrequests, rfl, rfl⟩) rfl rfl
  | loseReply r before after hreplies =>
    refine h.of_le ?_ (Nat.le_refl _) (fun g hg => hg)
    intro socket addr
    exact tokens_lose (Or.inr ⟨hreplies, rfl, rfl⟩) rfl rfl

/-! ## Replies -/

/-- A reply to a socket, received or in flight. -/
def State.HasReply (s : State) (socket : Socket) (q : Packet) : Prop :=
  q ∈ s.heard socket ∨ (q ∈ s.replies ∧ q.socket = socket)

section Replies

variable {s s' : State} {before after : List Packet} {socket : Socket}
  {q r : Packet}

/-- A received datagram is no new reply. -/
theorem hasReply_of_receive (hreplies : s.replies = before ++ r :: after)
    (h1 : s'.replies = before ++ after)
    (h2 : s'.heard = update s.heard r.socket (s.heard r.socket ++ [r]))
    (h : s'.HasReply socket q) : s.HasReply socket q := by
  rw [State.HasReply, h1, h2] at h
  rcases h with hq | ⟨hq, hsocket⟩
  · by_cases heq : socket = r.socket
    · rw [heq, update_self] at hq
      rcases List.mem_append.mp hq with hq | hq
      · rw [← heq] at hq
        exact Or.inl hq
      · have hqr : q = r := List.mem_singleton.mp hq
        subst hqr
        exact Or.inr ⟨Protocol.mem_of_split hreplies, heq.symm⟩
    · rw [update_of_ne heq] at hq
      exact Or.inl hq
  · exact Or.inr ⟨Protocol.mem_of_mem_rest hreplies hq, hsocket⟩

/-- Nor is what remains after a loss. -/
theorem hasReply_of_lose (hreplies : s.replies = before ++ r :: after)
    (h1 : s'.replies = before ++ after) (h2 : s'.heard = s.heard)
    (h : s'.HasReply socket q) : s.HasReply socket q := by
  rw [State.HasReply, h1, h2] at h
  rcases h with hq | ⟨hq, hsocket⟩
  · exact Or.inl hq
  · exact Or.inr ⟨Protocol.mem_of_mem_rest hreplies hq, hsocket⟩

end Replies

/-! ## What the invariant says -/

section Counted

variable {c : Cluster} {s : State}

/-- Nothing of a call without tokens is on its way. -/
theorem empty_of_tokens {socket : Socket}
    (h : ∀ addr, tokens s socket addr = 0) :
    s.heard socket = [] ∧ ∀ q, ¬ s.HasReply socket q := by
  have hnone : ∀ q, ¬ s.HasReply socket q := by
    intro q hq
    have hzero := h q.addr
    unfold tokens at hzero
    rcases hq with hq | ⟨hq, hsocket⟩
    · have hpos : 0 < (s.heard socket).countP
          (fun q' => decide (q'.addr = q.addr)) :=
        List.countP_pos_iff.mpr ⟨q, hq, decide_eq_true rfl⟩
      omega
    · have hpos : 0 < s.replies.countP (between socket q.addr) :=
        List.countP_pos_iff.mpr ⟨q, hq, decide_eq_true ⟨hsocket, rfl⟩⟩
      omega
  refine ⟨?_, hnone⟩
  apply List.eq_nil_iff_forall_not_mem.mpr
  intro q hq
  exact hnone q (Or.inl hq)

/-- A call has at most one token of a server. -/
theorem Counted.unique (h : Counted c s) (hservers : c.servers.Nodup)
    (socket : Socket) (addr : SockAddr) : tokens s socket addr ≤ 1 :=
  (h.once socket addr).trans (List.nodup_iff_count_le_one.mp hservers addr)

theorem count_heard (socket : Socket) (addr : SockAddr) :
    ((s.heard socket).map Packet.addr).count addr ≤ tokens s socket addr := by
  have hcount : ((s.heard socket).map Packet.addr).count addr =
      (s.heard socket).countP (fun q => decide (q.addr = addr)) := by
    rw [List.count, List.countP_map]
    rfl
  rw [hcount, tokens]
  omega

/-- A socket hears of every server at most once. -/
theorem Counted.heard_nodup (h : Counted c s) (hservers : c.servers.Nodup)
    (socket : Socket) : ((s.heard socket).map Packet.addr).Nodup := by
  apply List.nodup_iff_count_le_one.mpr
  intro addr
  exact (count_heard socket addr).trans (h.unique hservers socket addr)

/-- A socket hears of servers only. -/
theorem Counted.heard_subset (h : Counted c s) (socket : Socket) :
    (s.heard socket).map Packet.addr ⊆ c.servers := by
  intro addr haddr
  apply List.count_pos_iff.mp
  have hpos := List.count_pos_iff.mpr haddr
  have hle := (count_heard socket addr).trans (h.once socket addr)
  omega

/-- A request that is on its way is the only trace of its server in the
call. -/
theorem Counted.only_request (h : Counted c s) (hservers : c.servers.Nodup)
    {q : Packet} {before after : List Packet}
    (hrequests : s.requests = before ++ q :: after) :
    (∀ q' ∈ before ++ after, q'.socket = q.socket → q'.addr ≠ q.addr) ∧
      ∀ x ∈ s.pending q.socket, x.1.addr ≠ q.addr := by
  have hone := h.unique hservers q.socket q.addr
  have hself : between q.socket q.addr q = true := decide_eq_true ⟨rfl, rfl⟩
  rw [tokens, hrequests, countP_one, if_pos hself] at hone
  constructor
  · intro q' hq' hsocket haddr
    have hpos : 0 < (before ++ after).countP (between q.socket q.addr) :=
      List.countP_pos_iff.mpr ⟨q', hq', decide_eq_true ⟨hsocket, haddr⟩⟩
    omega
  · intro x hx haddr
    have hpos : 0 < (s.pending q.socket).countP
        (fun x => decide (x.1.addr = q.addr)) :=
      List.countP_pos_iff.mpr ⟨x, hx, decide_eq_true haddr⟩
    omega

end Counted

end PpsDht
