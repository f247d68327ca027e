import PpsDht.Lib.ExchangeDelivery
import PpsDht.TrafficTools

/-!
# How much the quorums tolerate

What is left of a put, and what a put and a get return, when some datagrams are
missing: lost, or still on their way when the socket times out.

* `put_tolerates`: a put succeeds unless more than `N - W` of its datagrams are
  missing.
* `put_durable`: `W` servers hold the value of a put that is over, until another
  put of the key interferes.
* `get_tolerates`: a get behind a put returns its value unless more than
  `W - R` of its datagrams are missing, for clients with one ring.
-/

namespace PpsDht

open CMem Exchange

variable {ι : Type} {t : Traffic ι} {start s₁ s : World ι}

/-! ## Every request is answered -/

/-- A server whose allocations succeed answers whatever is no dump request. -/
theorem answers_ne_nil {fuel : Nat} {m : ServerMem} {table table' : Htable}
    {op : Op} {answers : List (List UInt8)} (hok : m.mallocOk = true)
    (hinv : table.Inv) (hfits : op.Fits) (hplain : op.Plain) (honce : op.Once)
    (h : serverStep fuel m table op.datagram = .ok (table', answers)) :
    answers ≠ [] := by
  have hmax := hfits.length_le
  cases op with
  | put key value =>
    have hput := isPut_putDatagram hplain
    rw [Op.datagram, serverStep_ofNul fuel m table hput.nul hput.two hmax,
      hok] at h
    simp only at h
    rw [if_pos (addHtableValue_err hinv _ _)] at h
    cases h
    exact List.cons_ne_nil _ _
  | get key =>
    by_cases hkey : key.bytes = []
    · rw [Op.datagram, hkey, serverStep_ping] at h
      cases h
      exact List.cons_ne_nil _ _
    · rw [Op.datagram, serverStep_noNul fuel m table key.noNul hkey hmax] at h
      cases h
      rw [getBranch]
      split
      · exact List.cons_ne_nil _ _
      · exact List.cons_ne_nil _ _
  | listNodes =>
    rw [Op.datagram, serverStep_ping] at h
    cases h
    exact List.cons_ne_nil _ _
  | dump server inMsg stack => exact honce.elim

theorem Traffic.Plain.answersAll (hplain : t.Plain) (hok : t.Allocates) :
    AnswersAll t.system (fun job => job.op.Once) Htable.Inv := by
  intro i results job hjob x hx table table' answers hinv hserve
  obtain ⟨hfits, hbody⟩ := mem_requests hx
  have hop := hplain i results job hjob
  rw [hbody] at hserve
  rcases hserve with ⟨m, fuel, hm, hstep⟩ | ⟨hdump, rfl, _⟩
  · constructor
    · rcases serverStep_cases hfits.length_le hstep with rfl | ⟨_, rfl⟩
      · exact hinv
      · exact addAll_inv hinv _
    · intro honce
      exact answers_ne_nil (hok m hm) hinv hfits hop honce hstep
  · exact ⟨hinv, fun honce => absurd hdump (hop.datagram_ne honce)⟩

/-- The sending part of a call reaches the replicas of the key, `N` different
servers, when the ring has as many. -/
theorem requests_reach (env : Env) {client : Client} (hN : 1 ≤ client.args.N)
    (hring : client.args.N ≤ (servers client.server).length) (key : CString)
    (message : List UInt8) : ∃ list sent,
      requests env client key message = .ok (some list, sent) ∧
        addressed sent =
          ((replicasOf env client.server client.args.N key).map Node.addr).map
            (·, message) := by
  have hsize : client.args.N ≤ client.server.size := by
    have hdedup :=
      (List.dedup_sublist (client.server.nodes.map Node.addr)).length_le
    rw [List.length_map] at hdedup
    exact hring.trans hdedup
  obtain ⟨nodes, sent, hsend, hlength, _⟩ :=
    (requestsReach_iff env client key message hsize).mpr hring
  obtain ⟨list, rfl⟩ : ∃ list, nodes = some list := by
    cases nodes with
    | some list => exact ⟨list, rfl⟩
    | none =>
      -- Without a list the sending loop would not get past its first pass.
      obtain ⟨left, hleft⟩ : ∃ left, client.args.N = left + 1 :=
        ⟨client.args.N - 1, by omega⟩
      rw [requests] at hsend
      split at hsend
      · cases hsend
      · split at hsend
        · cases hsend
        · rename_i hloop
          cases hsend
          rw [hleft] at hloop
          cases hloop
  refine ⟨list, sent, hsend, ?_⟩
  have hservers := (requests_sublist hsend).1.eq_of_length (by
    rw [List.length_map, List.length_map, length_replicasOf, hlength]
    omega)
  rw [← addressed_contacts] at hservers
  rw [← hservers, List.map_map]
  refine (List.map_id' _).symm.trans (List.map_congr_left (fun x hx => ?_))
  exact Prod.ext rfl (mem_addressed hsend hx)

theorem length_addressed {env : Env} {client : Client} {key : CString}
    {message : List UInt8} {sent : List (Node × List UInt8)}
    (hring : client.args.N ≤ (servers client.server).length)
    (h : addressed sent =
      ((replicasOf env client.server client.args.N key).map Node.addr).map
        (·, message)) : (addressed sent).length = client.args.N := by
  rw [h, List.length_map, List.length_map, length_replicasOf]
  omega

theorem putCall_reach (env : Env) {client : Client} {key value : CString}
    (hkey : strlen key ≤ maxMsgElemSize)
    (hvalue : strlen value ≤ maxMsgElemSize) (hN : 1 ≤ client.args.N)
    (hring : client.args.N ≤ (servers client.server).length) :
    ∃ list sent, putRequests env client key value = .ok (some list, sent) ∧
      (addressed sent).length = client.args.N ∧
      putCall env client key value = .loop (addressed sent) 0
        (fun success r =>
          (putReply (some list) client.args.W success r.2).map .put)
        (fun _ => .put (.ok .ERR_NETWORK)) := by
  obtain ⟨list, sent, hsend, haddressed⟩ :=
    requests_reach env hN hring key (putDatagram key value)
  refine ⟨list, sent, hsend, length_addressed hring haddressed, ?_⟩
  rw [putCall, if_neg (by omega), if_neg (by omega), putRequests, hsend]
  rfl

theorem getCall_reach (env : Env) {client : Client} {key : CString}
    (hkey : strlen key ≤ maxMsgElemSize) (hN : 1 ≤ client.args.N)
    (hring : client.args.N ≤ (servers client.server).length) :
    ∃ list sent, getRequests env client key = .ok (some list, sent) ∧
      (addressed sent).length = client.args.N ∧
      getCall env client key = .loop (addressed sent) getStart
        (fun st r => (getReply client.args.R st r.2).map .get)
        (fun st => .get (.ok (if st.errorNotFound = 0 then .ERR_NETWORK
          else .ERR_NOT_FOUND, none))) := by
  obtain ⟨list, sent, hsend, haddressed⟩ :=
    requests_reach env hN hring key key.bytes
  refine ⟨list, sent, hsend, length_addressed hring haddressed, ?_⟩
  rw [getCall, if_neg (by omega), getRequests, hsend]
  rfl

variable [DecidableEq ι]

/-- What becomes of the requests in a run. -/
abbrev Traffic.Accounted (t : Traffic ι) (s : World ι) : Prop :=
  Exchange.Accounted t.system (fun job => job.op.Once) Htable.Inv s

/-- A call that is over has taken an answer to each of its requests, but for
those that are missing. -/
theorem length_heard_of_loop (h : t.Accounted s) {i : ι} {n : Nat} {job : Job}
    (hmakes : t.Makes s i n job) (honce : job.op.Once) {τ : Type}
    {requests : List (SockAddr × List UInt8)} {start : τ}
    {body : τ → SockAddr × List UInt8 → Loop.Step τ Outcome}
    {stop : τ → Outcome}
    (hcall : job.call t.env = .loop requests start body stop)
    (hover : n < s.current i) :
    requests.length ≤ (s.heardIn i n).length + s.missing i n := by
  have hcall' : t.system.call job = .loop requests start body stop := hcall
  have hwaits : (t.system.call job).after [] = none := by
    rw [hcall']
    rfl
  have hheard := h.length_heard hmakes honce hwaits hover
  rwa [hcall'] at hheard

/-! ## Puts -/

/-- Over any network: a put to enough servers succeeds, or more than `N - W` of
its datagrams are missing. -/
theorem put_tolerates (t : Traffic ι) (hplain : t.Plain) (hok : t.Allocates)
    (start s : World ι) (h₀ : start.Initial)
    (htables : ∀ a, (start.servers a).Inv) (hrun : t.Run start s) (i : ι)
    (n : Nat) (client : Client) (key value : CString)
    (hkey : strlen key ≤ maxMsgElemSize)
    (hvalue : strlen value ≤ maxMsgElemSize) (hN : 1 ≤ client.args.N)
    (hring : client.args.N ≤ (servers client.server).length)
    (hmakes : t.Makes s i n ⟨client, .put key value⟩)
    (result : Except Fault ErrorCode)
    (hput : (s.results i)[n]? = some (.put result)) :
    result = .ok .ERR_NONE ∨ result = .ok .ERR_NETWORK ∧
      client.args.N < max client.args.W 1 + s.missing i n := by
  obtain ⟨list, sent, hsend, hrequests, hcall⟩ :=
    putCall_reach t.env hkey hvalue hN hring
  have haccounted := run_accounted (hplain.answersAll hok) h₀ htables hrun
  have hheard := length_heard_of_loop haccounted hmakes trivial hcall
    (List.getElem?_eq_some_iff.mp hput).1
  have hresult := result_put haccounted.calls hmakes hput
  rw [networkPut_eq hkey hvalue hsend] at hresult
  have htaken : ((s.taken i n).map Prod.snd).length =
      (s.heardIn i n).length := by
    rw [List.length_map, State.taken, List.length_map]
  split at hresult
  · exact Or.inl hresult.symm
  · rename_i hfew
    refine Or.inr ⟨hresult.symm, ?_⟩
    rw [← List.length_pos_iff, htaken] at hfew
    omega

theorem demoAddrs_split : demoAddrs = [⟨1, 1⟩] ++ [⟨2, 1⟩] := rfl

/-- One of the two requests of the first put is lost. -/
theorem put_tolerates_demo : ∃ s, (demoTraffic getsOnce).Run demoWorld s ∧
    s.results false = [.put (.ok .ERR_NETWORK)] ∧
    demoClient.args.N < max demoClient.args.W 1 + s.missing false 0 := by
  have hkey := strlen_lit_le_max ['k'] (by decide)
  have hvalue := strlen_lit_le_max ['a', 'b', 'c'] (by decide)
  have hmem : (demoTraffic getsOnce).memory demoMem := ⟨rfl, rfl⟩
  obtain ⟨s, hrun, hs⟩ := (demoWorld_agree getsOnce).put_fails (i := false)
    demoClient_asks hmem hmem hkey (by decide) hvalue demoAddrs_split
    (by decide) rfl
  have hput : s.results false = [.put (.ok .ERR_NETWORK)] := by
    rw [hs.results]
    rfl
  refine ⟨s, hrun, hput, ?_⟩
  rcases put_tolerates (demoTraffic getsOnce) getsOnce_plain (fun _ hm => hm.1)
      demoWorld s demoWorld_initial demoWorld_tables.inv hrun false 0
      demoClient (lit ['k']) (lit ['a', 'b', 'c']) hkey hvalue (by decide)
      (by decide) (makes_first hput rfl) _ (by rw [hput]; rfl) with
    hnone | ⟨_, hmissing⟩
  · cases hnone
  · exact hmissing

/-- A put that has returned `ERR_NONE` stays at `W` different servers among those
that it contacts, as long as no other put of the key interferes. -/
theorem put_durable (t : Traffic ι) (start s₀ s₁ s : World ι)
    (hdep : Deployed t start) (hrun : t.Run s₁ s) (i : ι) (n : Nat)
    (writer : Client) (key value : CString)
    (hput : PutDone t start s₁ s key value s₀ i n writer) :
    ∃ quorum : List SockAddr, quorum.Nodup ∧
      quorum ⊆ Job.contacts t.env ⟨writer, .put key value⟩ ∧
      writer.args.W ≤ quorum.length ∧
      ∀ a ∈ quorum, (s.servers a).toMap key = some value := by
  have hrun₁ := hput.before.trans hput.after
  obtain ⟨quorum, hnodup, hsub, hW, hstores⟩ := stores_quorum
    (hdep.counted hrun₁) hdep.plain hdep.exact hdep.inv hput.makes hput.result
  refine ⟨quorum, hnodup, hsub, hW, fun a ha => ?_⟩
  obtain ⟨v, hstored⟩ := hstores a ha
  exact kept_later hdep.exact hdep.plain hdep.initial hdep.inv hput.before
    hput.after hrun hput.new hput.makes hput.undisturbed hstored
    (hrun₁.trans hrun) .refl (Run.extends hrun).handled

/-- The servers still hold the first pair when the second process has read
it. -/
theorem put_durable_demo : ∃ s, (demoTraffic getsOnce).Run demoWorld s ∧
    s.results true = [.get (.ok (.ERR_NONE, some (lit ['a', 'b', 'c'])))] ∧
    ∃ quorum : List SockAddr, quorum.Nodup ∧
      quorum ⊆ Job.contacts demoEnv
        ⟨demoClient, .put (lit ['k']) (lit ['a', 'b', 'c'])⟩ ∧
      demoClient.args.W ≤ quorum.length ∧
      ∀ a ∈ quorum,
        (s.servers a).toMap (lit ['k']) = some (lit ['a', 'b', 'c']) := by
  obtain ⟨s₁, _, hs₁, _⟩ := demo_writes getsOnce
  obtain ⟨s, hrun, hs⟩ := demo_reads hs₁
  exact ⟨s, hs.agree.run, hs.reader, put_durable (demoTraffic getsOnce)
    demoWorld demoWorld s₁ s (demoTraffic_deployed getsOnce_plain) hrun false 0 demoClient
    (lit ['k']) (lit ['a', 'b', 'c']) (hs₁.putDone hs.reader (n := 0) rfl
      (fun _ _ client value => getsOnce_not_put _ client _ value))⟩

/-! ## Gets behind a put -/

/-- The answer of a server that has stored the put. -/
theorem PutDone.answer (hdep : Deployed t start) {key value : CString}
    {s₀ : World ι} {i : ι} {n : Nat} {writer : Client}
    (h : PutDone t start s₁ s key value s₀ i n writer) (hrun : t.Run s₁ s)
    (hkey : key.bytes ≠ []) {j : ι} {m : Nat} (hlater : ¬ s₁.Began j m)
    {reader : Client} (hreader : t.Makes s j m ⟨reader, .get key⟩)
    {r : Mailing ι} (hr : r ∈ s.heardIn j m) {v : World ι}
    (hstored : Stores t start s₁ i n key value r.server v) :
    isNotFound r.body = false ∧ replyValue r.body = value := by
  obtain ⟨hheard, rfl, rfl⟩ := mem_heardIn.mp hr
  have hserved := run_served hdep.initial ((h.before.trans h.after).trans hrun)
  obtain ⟨q, u, u', ho⟩ := hserved.heard r hheard
  obtain ⟨rest, hsplit⟩ := ho.split
  have hkept := held_later hdep.exact hdep.plain hdep.initial hdep.inv h.before
    h.after hrun h.new h.makes h.undisturbed hstored ho.before
    (ho.after.head ho.step) hsplit (by rwa [ho.process, ho.call])
  have hanswer := answer_of_get hdep.exact.zeroed hdep.tables hdep.initial ho
    hreader hkey
  rwa [hkept] at hanswer

/-- The key was short enough for the put. -/
theorem PutDone.key_le (hdep : Deployed t start) {key value : CString}
    {s₀ : World ι} {i : ι} {n : Nat} {writer : Client}
    (h : PutDone t start s₁ s key value s₀ i n writer) :
    strlen key ≤ maxMsgElemSize :=
  networkPut_key (result_put
    (run_calls hdep.initial (h.before.trans h.after)) h.makes h.result)

/-- The servers of the two quorums agree on the value. -/
theorem PutDone.length_agreeing (hdep : Deployed t start)
    {key value : CString} {s₀ : World ι} {i : ι} {n : Nat} {writer : Client}
    (h : PutDone t start s₁ s key value s₀ i n writer) (hrun : t.Run s₁ s)
    (hkey : key.bytes ≠ []) {j : ι} {m : Nat} (hlater : ¬ s₁.Began j m)
    {reader : Client} (hreader : t.Makes s j m ⟨reader, .get key⟩)
    {all : List SockAddr}
    (hall : Job.contacts t.env ⟨writer, .put key value⟩ ⊆ all)
    (hall' : Job.contacts t.env ⟨reader, .get key⟩ ⊆ all) :
    writer.args.W + (s.heardIn j m).length ≤
      all.length + (World.agreeing s j m value).length := by
  have hrun₁ := h.before.trans h.after
  have hcounted := hdep.counted (hrun₁.trans hrun)
  obtain ⟨quorum, hnodup, hsub, hW, hstores⟩ := stores_quorum
    (hdep.counted hrun₁) hdep.plain hdep.exact hdep.inv h.makes h.result
  have hcommon := Protocol.length_add_le_of_quorums hnodup
    (hcounted.servers_nodup hreader trivial (contacts_get t.env reader key))
    (List.Subset.trans hsub hall) (List.Subset.trans
      (hcounted.servers_subperm hreader trivial).subset hall')
  have hagree : ((s.heardIn j m).map Packet.server).countP
      (fun b => decide (b ∈ quorum)) ≤ (World.agreeing s j m value).length := by
    rw [World.agreeing, ← List.countP_eq_length_filter, List.countP_map]
    refine List.countP_mono_left (fun r hr hmem => ?_)
    obtain ⟨v, hstored⟩ := hstores r.server (of_decide_eq_true hmem)
    obtain ⟨hfound, hvalue⟩ :=
      h.answer hdep hrun hkey hlater hreader hr hstored
    rw [hfound, hvalue, beq_self_eq_true]
    rfl
  rw [List.length_map] at hcommon
  omega

/-- When fewer than `R` servers agree on the value of the put, datagrams of the
get are missing. -/
theorem PutOver.le_missing (hdep : Deployed t start) (hrun : t.Run s₁ s)
    {reader : Client} {key value : CString} {s₀ : World ι} {i : ι} {n : Nat}
    {writer : Client} {list list' : NodeList} {changed : List SockAddr}
    (hput : PutOver t start s₁ s reader key value s₀ i n writer list list'
      changed)
    {j : ι} {m : Nat} (hlater : ¬ s₁.Began j m) (hkey : key.bytes ≠ [])
    (hN : 1 ≤ reader.args.N)
    (hring : reader.args.N ≤ (servers reader.server).length)
    (hreader : t.Makes s j m ⟨reader, .get key⟩) (hended : m < s.current j) :
    writer.args.W + reader.args.N ≤
      max writer.args.N reader.args.N + changed.length +
        (World.agreeing s j m value).length + s.missing j m := by
  obtain ⟨nodes, sent, _, hrequests, hcall⟩ :=
    getCall_reach t.env (hput.toPutDone.key_le hdep) hN hring
  have haccounted := run_accounted
    (hdep.plain.answersAll hdep.exact.allocates) hdep.initial hdep.inv
    ((hput.before.trans hput.after).trans hrun)
  have hheard := length_heard_of_loop haccounted hreader trivial hcall hended
  have hagree := hput.toPutDone.length_agreeing hdep hrun hkey hlater
    hreader (contacts_put_holders t.env hput.writerRing key value changed
      (Nat.le_max_left writer.args.N reader.args.N))
    (by rw [hput.same.holdersOf_eq]
        exact contacts_get_holders t.env hput.readerRing key changed
          (Nat.le_max_right ..))
  have hholders := length_holdersOf_le t.env changed list
    (max writer.args.N reader.args.N) key
  omega

/-- What a get returns that starts when the put is over. -/
theorem PutOver.tolerated (hdep : Deployed t start) (hrun : t.Run s₁ s)
    {reader : Client} {key value : CString} {s₀ : World ι} {i : ι} {n : Nat}
    {writer : Client} {list list' : NodeList} {changed : List SockAddr}
    (hput : PutOver t start s₁ s reader key value s₀ i n writer list list'
      changed)
    {j : ι} {m : Nat} (hlater : ¬ s₁.Began j m) (hkey : key.bytes ≠ [])
    (hN : 1 ≤ reader.args.N)
    (hring : reader.args.N ≤ (servers reader.server).length)
    (hR : 1 ≤ reader.args.R) (hR' : reader.args.R ≤ 127)
    (hreader : t.Makes s j m ⟨reader, .get key⟩)
    {result : Except Fault (ErrorCode × Option CString)}
    (hget : (s.results j)[m]? = some (.get result)) :
    result = .ok (.ERR_NONE, some value) ∨
      (result = .ok (.ERR_NETWORK, none) ∨
        result = .ok (.ERR_NOT_FOUND, none)) ∧
      writer.args.W + reader.args.N <
        max writer.args.N reader.args.N + changed.length + reader.args.R +
          s.missing j m := by
  have hrunS := (hput.before.trans hput.after).trans hrun
  have hlength := hput.toPutDone.key_le hdep
  obtain ⟨nodes, sent, hsend, _⟩ := getCall_reach t.env hlength hN hring
  have hresult := result_get (run_calls hdep.initial hrunS) hreader hget
  rcases networkGet_few hlength hsend hR hR' ((s.taken j m).map Prod.snd) with
    ⟨value', hvalue⟩ | ⟨herr, hfew⟩
  · left
    rw [hvalue] at hresult
    have hseen : value' = value := hput.seen hdep.once hdep.plain hdep.exact
      hdep.initial hdep.tables hrun hkey hlater hreader (by omega)
      (by rw [hget, ← hresult])
    rw [← hresult, hseen]
  · right
    rw [hresult] at herr
    have hmissing := hput.le_missing hdep hrun hlater hkey hN hring hreader
      (List.getElem?_eq_some_iff.mp hget).1
    have hcount := hfew value
    rw [← length_agreeing] at hcount
    exact ⟨herr, by omega⟩

/-- Over any network: a get that starts when a put is over returns the value of
the put, or more of its datagrams are missing than the quorums tolerate.  In no
case does it return another value. -/
theorem get_tolerates (t : Traffic ι) (start s₀ s₁ s : World ι)
    (hdep : Deployed t start) (hrun : t.Run s₁ s) (i : ι) (n : Nat)
    (writer reader : Client) (key value : CString) (list list' : NodeList)
    (changed : List SockAddr)
    (hput : PutOver t start s₁ s reader key value s₀ i n writer list list'
      changed)
    (j : ι) (m : Nat) (hlater : ¬ s₁.Began j m) (hkey : key.bytes ≠ [])
    (hN : 1 ≤ reader.args.N)
    (hring : reader.args.N ≤ (servers reader.server).length)
    (hR : 1 ≤ reader.args.R) (hR' : reader.args.R ≤ 127)
    (hreader : t.Makes s j m ⟨reader, .get key⟩)
    (result : Except Fault (ErrorCode × Option CString))
    (hget : (s.results j)[m]? = some (.get result)) :
    result = .ok (.ERR_NONE, some value) ∨
      (result = .ok (.ERR_NETWORK, none) ∨
        result = .ok (.ERR_NOT_FOUND, none)) ∧
      writer.args.W + reader.args.N <
        max writer.args.N reader.args.N + changed.length + reader.args.R +
          s.missing j m :=
  hput.tolerated hdep hrun hlater hkey hN hring hR hR' hreader hget

/-- One of the two requests of the second process is lost. -/
theorem get_tolerates_demo : ∃ s, (demoTraffic getsOnce).Run demoWorld s ∧
    s.results true = [.get (.ok (.ERR_NETWORK, none))] ∧
    demoClient.args.W + widerClient.args.N <
      max demoClient.args.N widerClient.args.N + 1 + widerClient.args.R +
        s.missing true 0 := by
  have hkey := strlen_lit_le_max ['k'] (by decide)
  have hmem : (demoTraffic getsOnce).memory demoMem := ⟨rfl, rfl⟩
  obtain ⟨s₁, _, hs₁, _⟩ := demo_writes getsOnce
  obtain ⟨s, hrun, hs⟩ := hs₁.agree.get_fails (i := true)
    widerClient_asks hmem hmem hkey (by decide)
    (strlen_lit_le_max ['a', 'b', 'c'] (by decide)) demoAddrs_split
    (by decide) written_k (by rw [hs₁.reader]; rfl)
  have hget : s.results true = [.get (.ok (.ERR_NETWORK, none))] := by
    rw [hs.results, Function.update_self, hs₁.reader]
    rfl
  have hover := hs₁.putOver hget (n := 0) rfl
    (fun _ _ client value => getsOnce_not_put _ client _ value)
  refine ⟨s, hs₁.agree.run.trans hrun, hget, ?_⟩
  rcases get_tolerates (demoTraffic getsOnce) demoWorld demoWorld s₁ s
      (demoTraffic_deployed getsOnce_plain) hrun false 0 demoClient widerClient (lit ['k'])
      (lit ['a', 'b', 'c']) _ _ _ hover true 0 hs₁.new (by decide)
      (by decide) (by decide) (by decide) (by decide) (makes_first hget rfl) _
      (by rw [hget]; rfl) with hvalue | ⟨_, hmissing⟩
  · cases hvalue
  · exact hmissing

end PpsDht
