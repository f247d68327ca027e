import PpsDht.ClusterCalls
import PpsDht.ClusterPut

/-!
# Reads see the last completed put

`Committed` is what a put leaves behind that returned `ERR_NONE`: `W` servers
that have the value, until the writer starts its next call.  A read that starts
later hears the value from each of them (`Sees`), and its `R` equal replies
include one of them (`get_returns_committed`).
-/

namespace PpsDht

open CMem Function

variable {c : Cluster} {s s' : State}

/-! ## The invariant -/

/-- What holds in every state of every run. -/
structure Inv (c : Cluster) (s : State) : Prop where
  wellFormed : WellFormed c s
  counted : Counted c s
  sequential : Sequential s
  acked : Acked c s
  replays : Replays c s

theorem inv_initial (h : s.Initial) : Inv c s := by
  have htokens : ∀ socket addr, tokens s socket addr = 0 := by
    intro socket addr
    rw [tokens, h.heard, h.replies, h.requests, h.pending]
    rfl
  constructor
  · refine ⟨h.tables, ?_, ?_⟩
    · intro q hq
      rw [h.requests] at hq
      exact absurd hq List.not_mem_nil
    · intro socket x hx
      rw [h.pending] at hx
      exact absurd hx List.not_mem_nil
  · refine ⟨?_, fun p _ => htokens _, fun g _ => htokens _⟩
    intro socket addr
    rw [htokens]
    exact Nat.zero_le _
  · refine ⟨?_, fun p hp => absurd (h.pending _) hp⟩
    rw [h.requests]
    exact List.Pairwise.nil
  · intro v hv
    rw [h.put] at hv
    cases hv
  · constructor
    · rw [h.put]
      trivial
    · intro g
      rw [h.get]
      trivial

theorem inv_step (hc : c.Valid) (h : Inv c s) (hstep : Step c s s') :
    Inv c s' where
  wellFormed := wellFormed_step hc h.wellFormed hstep
  counted := counted_step hc h.wellFormed h.counted hstep
  sequential := sequential_step h.wellFormed h.sequential hstep
  acked := acked_step hc h.wellFormed h.counted h.sequential h.acked hstep
  replays := replays_step hc h.counted h.replays hstep

theorem inv_run (hc : c.Valid) (hrun : Run c s s') (h : Inv c s) : Inv c s' :=
  Protocol.run_inv (Inv c) (fun _ _ => inv_step hc) hrun h

/-- The result of a put is that of `network_put` on what its socket has
received. -/
theorem Inv.networkPut_eq (h : Inv c s) {v : CString}
    {result : Except Fault ErrorCode} (hput : s.put = .returned v result) :
    networkPut c.env c.writer c.key v (s.received (.put s.puts)) = result := by
  have hcall := h.replays.put
  rw [hput] at hcall
  exact hcall

/-- The result of a get is that of `network_get`. -/
theorem Inv.networkGet_eq (h : Inv c s) {g : Nat}
    {result : Except Fault (ErrorCode × Option CString)}
    (hget : s.get g = .returned result) :
    networkGet c.env (c.reader g) c.key (s.received (.get g)) = result := by
  have hcall := h.replays.get g
  rw [hget] at hcall
  exact hcall

/-! ## A completed put -/

/-- `W` servers have the value. -/
structure Committed (c : Cluster) (s : State) (v : CString)
    (quorum : List SockAddr) : Prop where
  length : strlen v ≤ maxMsgElemSize
  nodup : quorum.Nodup
  subset : quorum ⊆ c.servers
  large : c.W ≤ quorum.length
  applied : ∀ addr ∈ quorum, Applied c s v addr

/-- `ERR_NONE` means that. -/
theorem committed_of_returned (hc : c.Valid) (h : Inv c s) {v : CString}
    (hput : s.put = .returned v (.ok .ERR_NONE)) :
    Committed c s v ((s.heard (.put s.puts)).map Packet.addr) := by
  obtain ⟨hlen, hW⟩ := networkPut_none (h.networkPut_eq hput)
  rw [hc.writer.1, State.received, List.length_map] at hW
  have hvalue : s.put.value = some v := by
    rw [hput]
    rfl
  refine ⟨hlen, h.counted.heard_nodup hc.servers _, h.counted.heard_subset _,
    ?_, ?_⟩
  · rw [List.length_map]
    exact hW
  · intro addr haddr
    obtain ⟨q, hq, rfl⟩ := List.mem_map.mp haddr
    exact h.acked v hvalue q (Or.inl hq)

/-- A reader hears `v` from every server of the quorum. -/
def Sees (s : State) (g : Nat) (v : CString) (quorum : List SockAddr) : Prop :=
  ∀ q, s.HasReply (.get g) q → q.addr ∈ quorum →
    isNotFound q.datagram = false ∧ replyValue q.datagram = v

/-- A reader that has not started has heard nothing. -/
theorem sees_of_idle (h : Inv c s) {g : Nat} (hidle : s.get g = .idle)
    (v : CString) (quorum : List SockAddr) : Sees s g v quorum := by
  obtain ⟨_, hnone⟩ := empty_of_tokens (h.counted.freshGet g hidle)
  intro q hq
  exact absurd hq (hnone q)

theorem sees_step (hc : c.Valid) (hinv : Inv c s) {g : Nat} {v : CString}
    {quorum : List SockAddr} (hcommitted : Committed c s v quorum)
    (h : Sees s g v quorum) (hstep : Step c s s') : Sees s' g v quorum := by
  intro r hr
  cases hstep with
  | putReceive value nodes success r' before after hput hsent hreplies hsocket =>
    apply h r
    apply hasReply_of_receive hreplies _ _ hr <;> rfl
  | getReceive g' nodes st r' before after hget hsent hreplies hsocket =>
    apply h r
    apply hasReply_of_receive hreplies _ _ hr <;> rfl
  | deliver q before after m fuel table answers hrequests horder hexact hserver =>
    have hq : q ∈ s.requests := Protocol.mem_of_split hrequests
    rcases hr with hr | ⟨hr, hsocket⟩
    · exact h r (Or.inl hr)
    · rcases List.mem_append.mp hr with hr | hr
      · exact h r (Or.inr ⟨hr, hsocket⟩)
      · -- A new answer of a server that has the value.
        intro haddr
        obtain ⟨datagram, hdatagram, rfl⟩ := List.mem_map.mp hr
        rcases deliver_spec hc hinv.wellFormed hq hexact hserver with
          ⟨p, w, hp, _⟩ | ⟨g', past, _, _, hanswers⟩
        · have hput : Socket.put p = .get g := hp.symm.trans hsocket
          cases hput
        · rw [hanswers, (hcommitted.applied q.addr haddr).stored] at hdatagram
          simp only [List.mem_singleton] at hdatagram
          show isNotFound datagram = false ∧ replyValue datagram = v
          rw [hdatagram]
          exact replyValue_of_get v past hcommitted.length
  | loseReply r' before after hreplies =>
    apply h r
    apply hasReply_of_lose hreplies _ _ hr <;> rfl
  | putStart => exact h r hr
  | putReject => exact h r hr
  | putTimeout => exact h r hr
  | getStart => exact h r hr
  | getTimeout => exact h r hr
  | send => exact h r hr
  | loseRequest => exact h r hr

/-! ## Runs without a later put -/

theorem puts_le_step (hstep : Step c s s') : s.puts ≤ s'.puts := by
  cases hstep <;> first | exact Nat.le_refl _ | exact Nat.le_succ _

theorem puts_le_run (hrun : Run c s s') : s.puts ≤ s'.puts :=
  Protocol.run_inv (fun t => s.puts ≤ t.puts)
    (fun _ _ h hstep => h.trans (puts_le_step hstep)) hrun (Nat.le_refl _)

/-- What the steps between two calls of the writer preserve, a run without a
call of the writer preserves. -/
theorem run_inv_same_put (hc : c.Valid) (P : State → Prop)
    (hstep : ∀ t t', Inv c t → P t → Step c t t' → t'.puts = t.puts → P t')
    (hrun : Run c s s') (hputs : s'.puts = s.puts) (hinv : Inv c s) (h : P s) :
    P s' := by
  have hall : Inv c s' ∧ s.puts ≤ s'.puts ∧ (s'.puts = s.puts → P s') := by
    refine Protocol.run_inv (fun t =>
      Inv c t ∧ s.puts ≤ t.puts ∧ (t.puts = s.puts → P t)) ?_ hrun
      ⟨hinv, Nat.le_refl _, fun _ => h⟩
    intro t t' ⟨hinvt, hle, ht⟩ htt
    have hmono := puts_le_step htt
    refine ⟨inv_step hc hinvt htt, hle.trans hmono, ?_⟩
    intro heq
    have hsame : t.puts = s.puts := by omega
    exact hstep t t' hinvt (ht hsame) htt (heq.trans hsame.symm)
  exact hall.2.2 hputs

theorem Committed.step (hc : c.Valid) {v : CString} {quorum : List SockAddr}
    (h : Committed c s v quorum) (hinv : Inv c s) (hstep : Step c s s')
    (hputs : s'.puts = s.puts) : Committed c s' v quorum := by
  refine ⟨h.length, h.nodup, h.subset, h.large, ?_⟩
  intro addr haddr
  exact (h.applied addr haddr).step hc hinv.wellFormed hinv.sequential hstep
    hputs

theorem committed_run (hc : c.Valid) (hinv : Inv c s) {v : CString}
    {quorum : List SockAddr} (h : Committed c s v quorum) (hrun : Run c s s')
    (hputs : s'.puts = s.puts) : Committed c s' v quorum := by
  refine run_inv_same_put hc (fun t => Committed c t v quorum) ?_ hrun hputs
    hinv h
  intro t t' hinv h hstep hputs
  exact h.step hc hinv hstep hputs

theorem sees_run (hc : c.Valid) (hinv : Inv c s) {g : Nat} {v : CString}
    {quorum : List SockAddr} (hcommitted : Committed c s v quorum)
    (h : Sees s g v quorum) (hrun : Run c s s') (hputs : s'.puts = s.puts) :
    Sees s' g v quorum := by
  refine (run_inv_same_put hc
    (fun t => Committed c t v quorum ∧ Sees t g v quorum) ?_ hrun hputs hinv
    ⟨hcommitted, h⟩).2
  intro t t' hinv ⟨hcommitted, h⟩ hstep hputs
  exact ⟨hcommitted.step hc hinv hstep hputs,
    sees_step hc hinv hcommitted h hstep⟩

/-! ## The read -/

/-- The servers from which a reader has heard the value `u`. -/
def State.agreeing (s : State) (g : Nat) (u : CString) : List SockAddr :=
  ((s.heard (.get g)).filter (fun q =>
    replyValue q.datagram == u && !isNotFound q.datagram)).map Packet.addr

/-- There is one for each reply with the value `u`. -/
theorem count_received (s : State) (g : Nat) (u : CString) :
    (valueReplies (s.received (.get g))).count u =
      (s.agreeing g u).length := by
  rw [State.received, State.agreeing, valueReplies, List.length_map, List.count,
    List.countP_map, List.countP_filter, List.countP_map,
    List.countP_eq_length_filter]
  rfl

/-- They are among the servers that the reader has heard of. -/
theorem agreeing_sublist (s : State) (g : Nat) (u : CString) :
    (s.agreeing g u).Sublist ((s.heard (.get g)).map Packet.addr) :=
  List.filter_sublist.map Packet.addr

/-- A read that starts after a put of `v` has returned `ERR_NONE`, and itself
returns `ERR_NONE` before the next put starts, returns `v`. -/
theorem get_returns_committed (c : Cluster) (hc : c.Valid)
    (s0 s1 s2 s3 : State) (v u : CString) (g : Nat) (hinit : s0.Initial)
    (hrun1 : Run c s0 s1) (hput : s1.put = .returned v (.ok .ERR_NONE))
    (hrun2 : Run c s1 s2) (hstart : s2.get g = .idle) (hrun3 : Run c s2 s3)
    (hlast : s3.puts = s1.puts)
    (hget : s3.get g = .returned (.ok (.ERR_NONE, some u))) : u = v := by
  have hinv1 : Inv c s1 := inv_run hc hrun1 (inv_initial hinit)
  have hinv2 : Inv c s2 := inv_run hc hrun2 hinv1
  have hinv3 : Inv c s3 := inv_run hc hrun3 hinv2
  have hputs12 := puts_le_run hrun2
  have hputs23 := puts_le_run hrun3
  -- The write quorum keeps `v`, and the reader hears `v` from it.
  have hcommitted := committed_run hc hinv1 (committed_of_returned hc hinv1 hput)
    hrun2 (by omega)
  have hsees := sees_run hc hinv2 hcommitted
    (sees_of_idle hinv2 hstart v _) hrun3 (by omega)
  -- The reader has counted `R` replies with the value `u`.
  have hsmall : (c.reader g).args.R < 2 ^ 31 := by
    rw [(hc.reader g).1]
    exact Nat.lt_of_le_of_lt hc.R.2 hc.small
  have hR : c.R ≤ (s3.agreeing g u).length := by
    rw [← count_received, ← (hc.reader g).1]
    exact networkGet_none hsmall (hinv3.networkGet_eq hget)
  -- The two quorums share a server.
  have hnodup : (s3.agreeing g u).Nodup :=
    (hinv3.counted.heard_nodup hc.servers (.get g)).sublist
      (agreeing_sublist s3 g u)
  have hsubset : s3.agreeing g u ⊆ c.servers := by
    intro addr haddr
    exact hinv3.counted.heard_subset (.get g)
      ((agreeing_sublist s3 g u).subset haddr)
  have hlarge : c.servers.length <
      ((s1.heard (.put s1.puts)).map Packet.addr).length +
        (s3.agreeing g u).length :=
    Nat.lt_of_lt_of_le hc.quorum
      (by rw [Nat.add_comm]; exact Nat.add_le_add hcommitted.large hR)
  obtain ⟨addr, hwrite, hread⟩ := Protocol.exists_mem_of_quorums
    hcommitted.nodup hnodup hcommitted.subset hsubset hlarge
  obtain ⟨q, hq, rfl⟩ := List.mem_map.mp hread
  obtain ⟨hheard, hvalue⟩ := List.mem_filter.mp hq
  rw [Bool.and_eq_true, beq_iff_eq] at hvalue
  exact hvalue.1.symm.trans (hsees q (Or.inl hheard) hwrite).2

/-! ## Three servers -/

/-- `-n 3 -w 2`, on a ring of three servers. -/
def demoWriter : Client where
  name := lit ['p', 'u', 't']
  server := nodeListAdd (nodeListAdd (nodeListAdd nodeListNew
    { addr := ⟨1, 1⟩, id := 1, sha := [20] })
    { addr := ⟨2, 1⟩, id := 1, sha := [30] })
    { addr := ⟨3, 1⟩, id := 1, sha := [40] }
  socket := 4
  args := { N := 3, R := 2, W := 2 }

/-- `-n 3 -r 2`, with a second virtual node of the last server. -/
def demoReader : Client where
  name := lit ['g', 'e', 't']
  server := nodeListAdd (nodeListAdd (nodeListAdd (nodeListAdd nodeListNew
    { addr := ⟨3, 1⟩, id := 2, sha := [18] })
    { addr := ⟨1, 1⟩, id := 1, sha := [20] })
    { addr := ⟨2, 1⟩, id := 1, sha := [30] })
    { addr := ⟨3, 1⟩, id := 1, sha := [40] }
  socket := 4
  args := { N := 3, R := 2, W := 2 }

/-- Three servers, two of which make a quorum. -/
def demoCluster : Cluster where
  env := demoEnv
  key := lit ['k']
  servers := [⟨1, 1⟩, ⟨2, 1⟩, ⟨3, 1⟩]
  R := 2
  W := 2
  writer := demoWriter
  reader := fun _ => demoReader

/-- Empty servers. -/
def demoStart : State where
  tables := fun _ => constructHtable htableSize htableSize_pos
  requests := []
  replies := []
  puts := 0
  put := .idle
  get := fun _ => .idle
  pending := fun _ => []
  heard := fun _ => []

theorem demoCluster_valid : demoCluster.Valid := by
  have hwriter : Contacts demoCluster demoWriter :=
    contacts_of_servers rfl (by decide) (by decide)
  have hreader : Contacts demoCluster demoReader :=
    contacts_of_servers rfl (by decide) (by decide)
  exact ⟨⟨by decide, strlen_lit_le_max _ (by decide)⟩, by decide, by decide,
    by decide, by decide, by decide, ⟨rfl, hwriter⟩, fun _ => ⟨rfl, hreader⟩⟩

theorem demoStart_initial : demoStart.Initial :=
  ⟨fun _ => constructHtable_inv htableSize htableSize_pos, rfl, rfl, rfl, rfl,
    fun _ => rfl, fun _ => rfl, fun _ => rfl⟩

/-- A server with a zeroed buffer. -/
def demoMem : ServerMem where
  rest := []
  past := []
  mallocOk := true

/-- An empty table with one more pair. -/
def demoStore : Store :=
  (Store.empty htableSize htableSize_pos).add (lit ['k']) (lit ['v'])

/-- Behind the put: two servers have the value, and the request to the third
one is still on its way. -/
structure DemoPut (s : State) : Prop where
  put : s.put = .returned (lit ['v']) (.ok .ERR_NONE)
  get : s.get 0 = .idle
  requests : s.requests =
    [⟨.put 1, ⟨3, 1⟩, putDatagram (lit ['k']) (lit ['v'])⟩]
  replies : s.replies = []
  first : s.tables ⟨1, 1⟩ = demoStore.table
  second : s.tables ⟨2, 1⟩ = demoStore.table
  third : s.tables ⟨3, 1⟩ = (Store.empty htableSize htableSize_pos).table

theorem demo_put : ∃ s, Run demoCluster demoStart s ∧ DemoPut s := by
  have hkey : (lit ['k']).bytes ≠ [] := by decide
  have hk := strlen_lit_le_max ['k'] (by decide)
  have hv := strlen_lit_le_max ['v'] (by decide)
  obtain ⟨sentTo, ⟨_, id₁, sha₁⟩, ⟨_, id₂, sha₂⟩, ⟨_, id₃, sha₃⟩, hsend, rfl, rfl,
      rfl⟩ :
      ∃ list node₁ node₂ node₃, putRequests demoEnv demoWriter (lit ['k'])
        (lit ['v']) = .ok (some list,
          [(node₁, putDatagram (lit ['k']) (lit ['v'])),
            (node₂, putDatagram (lit ['k']) (lit ['v'])),
            (node₃, putDatagram (lit ['k']) (lit ['v']))]) ∧
        node₁.addr = ⟨1, 1⟩ ∧ node₂.addr = ⟨2, 1⟩ ∧ node₃.addr = ⟨3, 1⟩ :=
    ⟨_, _, _, _, rfl, rfl, rfl, rfl⟩
  have hserver := serverStep_put 0 (m := demoMem)
    (Store.empty htableSize htableSize_pos) hk hv hkey rfl rfl
  have hcall := Step.putStart (c := demoCluster) demoStart (lit ['v']) (some sentTo) _
    nofun hv hsend
  have hsent := (((Relation.ReflTransGen.single hcall).tail
    (Step.send _ (.put 1) ⟨⟨1, 1⟩, id₁, sha₁⟩ _ _ rfl)).tail
    (Step.send _ (.put 1) ⟨⟨2, 1⟩, id₂, sha₂⟩ _ _ rfl)).tail
    (Step.send _ (.put 1) ⟨⟨3, 1⟩, id₃, sha₃⟩ _ [] rfl)
  have hstored := (hsent.tail (Step.deliver _
    ⟨.put 1, ⟨1, 1⟩, _⟩ [] _ demoMem 0 _ [[]] rfl
    (fun _ _ h => absurd h List.not_mem_nil) ⟨rfl, rfl⟩ hserver)).tail
    (Step.deliver _ ⟨.put 1, ⟨2, 1⟩, _⟩ [] _ demoMem 0 _ [[]] rfl
    (fun _ _ h => absurd h List.not_mem_nil) ⟨rfl, rfl⟩ hserver)
  have hheard := (hstored.tail (Step.putReceive _ (lit ['v']) (some sentTo) 0
    ⟨.put 1, ⟨1, 1⟩, []⟩ [] _ rfl rfl rfl rfl)).tail
    (Step.putReceive _ (lit ['v']) (some sentTo) 1 ⟨.put 1, ⟨2, 1⟩, []⟩ [] _ rfl rfl rfl
      rfl)
  have hne : (⟨1, 1⟩ : SockAddr) ≠ ⟨2, 1⟩ := by decide
  refine ⟨_, hheard, rfl, rfl, rfl, rfl, ?_, ?_, rfl⟩
  · simp only [update_of_ne hne, update_self, demoStore]
  · simp only [update_self, demoStore]

/-- The reader has asked all servers, in the order of its own ring. -/
structure DemoAsked (nodes : Option NodeList) (s : State) : Prop where
  get : s.get 0 = .active nodes getStart
  pending : s.pending (.get 0) = []
  requests : s.requests =
    [⟨.put 1, ⟨3, 1⟩, putDatagram (lit ['k']) (lit ['v'])⟩,
      ⟨.get 0, ⟨3, 1⟩, (lit ['k']).bytes⟩, ⟨.get 0, ⟨1, 1⟩, (lit ['k']).bytes⟩,
      ⟨.get 0, ⟨2, 1⟩, (lit ['k']).bytes⟩]
  replies : s.replies = []
  first : s.tables ⟨1, 1⟩ = demoStore.table
  second : s.tables ⟨2, 1⟩ = demoStore.table
  third : s.tables ⟨3, 1⟩ = (Store.empty htableSize htableSize_pos).table

theorem demo_asks {s : State} (h : DemoPut s) : ∃ nodes s',
    Run demoCluster s s' ∧ s'.puts = s.puts ∧ DemoAsked nodes s' := by
  obtain ⟨tables, requests, replies, puts, put, get, pending, heard⟩ := s
  obtain ⟨rfl, hget, rfl, rfl, hfirst, hsecond, hthird⟩ := h
  obtain ⟨nodes, ⟨_, id₁, sha₁⟩, ⟨_, id₂, sha₂⟩, ⟨_, id₃, sha₃⟩, hsend, rfl, rfl,
      rfl⟩ :
      ∃ nodes node₁ node₂ node₃, getRequests demoEnv demoReader (lit ['k']) =
          .ok (nodes, [(node₁, (lit ['k']).bytes), (node₂, (lit ['k']).bytes),
            (node₃, (lit ['k']).bytes)]) ∧
        node₁.addr = ⟨3, 1⟩ ∧ node₂.addr = ⟨1, 1⟩ ∧ node₃.addr = ⟨2, 1⟩ :=
    ⟨_, _, _, _, rfl, rfl, rfl, rfl⟩
  have hcall := Step.getStart (c := demoCluster) _ 0 nodes _ hget hsend
  have hsent := (((Relation.ReflTransGen.single hcall).tail
    (Step.send _ (.get 0) ⟨⟨3, 1⟩, id₁, sha₁⟩ _ _ rfl)).tail
    (Step.send _ (.get 0) ⟨⟨1, 1⟩, id₂, sha₂⟩ _ _ rfl)).tail
    (Step.send _ (.get 0) ⟨⟨2, 1⟩, id₃, sha₃⟩ _ [] rfl)
  exact ⟨nodes, _, hsent, rfl, rfl, rfl, rfl, rfl, hfirst, hsecond, hthird⟩

/-- The third server has no value, and the others have the same one. -/
structure DemoAnswered (nodes : Option NodeList) (s : State) : Prop where
  get : s.get 0 = .active nodes getStart
  pending : s.pending (.get 0) = []
  replies : s.replies = [⟨.get 0, ⟨3, 1⟩, [0]⟩, ⟨.get 0, ⟨1, 1⟩, demoReply⟩,
    ⟨.get 0, ⟨2, 1⟩, demoReply⟩]

theorem demo_answers {nodes : Option NodeList} {s : State}
    (h : DemoAsked nodes s) : ∃ s',
    Run demoCluster s s' ∧ s'.puts = s.puts ∧ DemoAnswered nodes s' := by
  have hkey : (lit ['k']).bytes ≠ [] := by decide
  have hk := strlen_lit_le_max ['k'] (by decide)
  have hempty : serverStep 0 demoMem (s.tables ⟨3, 1⟩) (lit ['k']).bytes =
      .ok (s.tables ⟨3, 1⟩, [[0]]) := by
    rw [h.third, serverStep_get 0 _ hk hkey rfl, Store.get_empty]
  have hserver : ∀ addr, s.tables addr = demoStore.table →
      serverStep 0 demoMem (s.tables addr) (lit ['k']).bytes =
        .ok (s.tables addr, [demoReply]) := by
    intro addr haddr
    rw [haddr, serverStep_get 0 _ hk hkey rfl, demoStore, Store.get_add,
      if_pos rfl]
    rfl
  have hrun₁ := Relation.ReflTransGen.single (Step.deliver (c := demoCluster) s
    ⟨.get 0, ⟨3, 1⟩, (lit ['k']).bytes⟩ [_] _ demoMem 0 _ _ h.requests nofun
    ⟨rfl, rfl⟩ hempty)
  have hrun₂ := hrun₁.tail (Step.deliver _
    ⟨.get 0, ⟨1, 1⟩, (lit ['k']).bytes⟩ [_] _ demoMem 0 _ _ rfl nofun
    ⟨rfl, rfl⟩ (hserver ⟨1, 1⟩ h.first))
  have hrun₃ := hrun₂.tail (Step.deliver _
    ⟨.get 0, ⟨2, 1⟩, (lit ['k']).bytes⟩ [_] _ demoMem 0 _ _ rfl nofun
    ⟨rfl, rfl⟩ (hserver ⟨2, 1⟩ h.second))
  refine ⟨_, hrun₃, rfl, h.get, h.pending, ?_⟩
  simp only [h.replies, List.map_cons, List.map_nil, List.nil_append,
    List.cons_append]

/-- The get returns the value that two servers have. -/
theorem demo_get {nodes : Option NodeList} {s : State}
    (h : DemoAnswered nodes s) : ∃ s',
    Run demoCluster s s' ∧ s'.puts = s.puts ∧
      s'.get 0 = .returned (.ok (.ERR_NONE, some (lit ['v']))) := by
  have hvalue := replyValue_of_get (lit ['v']) []
    (strlen_lit_le_max ['v'] (by decide))
  have hloop := getReply_endsAfter (R := 2) (by decide) (lit ['v'])
    (getStart.errorNotFound + 1)
  have hmissing : getReply 2 getStart [0] =
      .again { getStart with errorNotFound := getStart.errorNotFound + 1 } := by
    rw [getReply]
    exact if_pos ⟨rfl, rfl⟩
  obtain ⟨st, hagain, hcounts⟩ := hloop.again 0
    { getStart with errorNotFound := getStart.errorNotFound + 1 } demoReply
    (by decide) hvalue ⟨counts_nil, rfl⟩
  have hdone := hloop.done 1 st demoReply rfl hvalue hcounts
  have hrun₁ := Relation.ReflTransGen.single (Step.getReceive
    (c := demoCluster) s 0 nodes getStart ⟨.get 0, ⟨3, 1⟩, [0]⟩ [] _ h.get
    h.pending h.replies rfl)
  have hrun₂ := hrun₁.tail (Step.getReceive _ 0 nodes
    { getStart with errorNotFound := getStart.errorNotFound + 1 }
    ⟨.get 0, ⟨1, 1⟩, demoReply⟩ [] _ (by
      simp only [update_self]
      exact congrArg (GetCall.next nodes) hmissing) h.pending rfl rfl)
  have hrun₃ := hrun₂.tail (Step.getReceive _ 0 nodes st
    ⟨.get 0, ⟨2, 1⟩, demoReply⟩ [] [] (by
      simp only [update_self]
      exact congrArg (GetCall.next nodes) hagain) h.pending rfl rfl)
  refine ⟨_, hrun₃, rfl, ?_⟩
  simp only [update_self]
  exact congrArg (GetCall.next nodes) hdone

/-- Three servers, one put and one get over another ring: the quorums share the
server that the put has reached and the get has heard. -/
theorem get_returns_committed_demo : ∃ s1 s3 u,
    Run demoCluster demoStart s1 ∧
      s1.put = .returned (lit ['v']) (.ok .ERR_NONE) ∧
      Run demoCluster s1 s3 ∧ s3.get 0 = .returned (.ok (.ERR_NONE, some u)) ∧
      u = lit ['v'] := by
  obtain ⟨s1, hrun1, h1⟩ := demo_put
  obtain ⟨nodes, s, hasks, hputs, h⟩ := demo_asks h1
  obtain ⟨s', hanswers, hputs', h'⟩ := demo_answers h
  obtain ⟨s3, hget, hputs3, hvalue⟩ := demo_get h'
  have hrun3 := (hasks.trans hanswers).trans hget
  exact ⟨s1, s3, _, hrun1, h1.put, hrun3, hvalue,
    get_returns_committed demoCluster demoCluster_valid demoStart s1 s1 s3
      (lit ['v']) _ 0 demoStart_initial hrun1 h1.put .refl h1.get hrun3
      (hputs3.trans (hputs'.trans hputs)) hvalue⟩

end PpsDht
