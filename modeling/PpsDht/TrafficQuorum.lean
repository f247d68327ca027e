import PpsDht.TrafficServers

/-!
# Quorums among any number of clients

What a successful put and a successful get say about the servers when the
network duplicates nothing, whatever else is going on.

The servers whose answers a call takes are different ones among those that it
contacts, so `W` acknowledgements and `R` equal replies are quorums of servers.

* `put_quorum`: the servers that have stored the pair of a put.
* `get_quorum`: the servers that held the value of a get.
* `quorums_meet`: a get that starts after a put has succeeded returns its
  value, unless another put of the key interferes.
-/

namespace PpsDht

open CMem Exchange

variable {ι : Type} {t : Traffic ι}

/-! ## What a call sends -/

/-- The servers send one answer to each request, but for a dump. -/
def Op.Once : Op → Prop
  | .put _ _ => True
  | .get _ => True
  | .listNodes => True
  | .dump .. => False

/-- Only a dump is a dump request. -/
theorem Op.Plain.datagram_ne {op : Op} (hplain : op.Plain)
    (honce : op.Once) : op.datagram ≠ [0] := by
  intro h
  cases op with
  | put key value =>
    have hput := putOf_put hplain
    rw [Op.datagram] at h
    rw [h, putOf_dump] at hput
    cases hput
  | get key =>
    rw [Op.datagram] at h
    exact key.noNul (h ▸ List.mem_cons_self)
  | listNodes => cases h
  | dump server inMsg stack => exact honce

/-- A server sends at most one answer to a datagram that is not a dump
request. -/
theorem length_answers_le {fuel : Nat} {m : ServerMem} {table table' : Htable}
    {op : Op} {answers : List (List UInt8)} (hfits : op.Fits)
    (hplain : op.Plain) (honce : op.Once)
    (h : serverStep fuel m table op.datagram = .ok (table', answers)) :
    answers.length ≤ 1 := by
  have hmax := hfits.length_le
  by_cases hnil : op.datagram = []
  · rw [hnil, serverStep_ping] at h
    cases h
    exact Nat.le_refl 1
  by_cases hnul : (0 : UInt8) ∈ op.datagram
  · cases op with
    | put key value =>
      rw [serverStep_ofNul fuel m table hnul (isPut_putDatagram hplain).two
        hmax] at h
      simp only at h
      cases h
      split
      · exact Nat.le_refl 1
      · exact Nat.zero_le 1
    | get key => exact absurd hnul key.noNul
    | listNodes => exact absurd hnul List.not_mem_nil
    | dump server inMsg stack => exact honce.elim
  · rw [serverStep_noNul fuel m table hnul hnil hmax] at h
    cases h
    rw [getBranch]
    split
    · exact Nat.le_refl 1
    · exact Nat.le_refl 1

theorem Traffic.Plain.answersOnce (hplain : t.Plain) :
    AnswersOnce t.system (fun job => job.op.Once) := by
  intro i results job hjob honce x hx table table' answers hserve
  obtain ⟨hfits, hbody⟩ := mem_requests hx
  have hop := hplain i results job hjob
  rw [hbody] at hserve
  rcases hserve with ⟨m, fuel, _, hstep⟩ | ⟨hdump, _⟩
  · exact length_answers_le hfits hop honce hstep
  · exact absurd hdump (hop.datagram_ne honce)

/-- What is counted in a run without duplicates. -/
abbrev Traffic.Counted [DecidableEq ι] (t : Traffic ι) (s₀ s : World ι) :
    Prop :=
  Exchange.Counted t.system (fun job => job.op.Once) s₀ s

theorem addressed_contacts (sent : List (Node × List UInt8)) :
    (addressed sent).map Prod.fst = sent.map (fun x => x.1.addr) := by
  rw [addressed, List.map_map]
  rfl

/-- A put contacts different servers. -/
theorem contacts_put (env : Env) (client : Client) (key value : CString) :
    (Job.contacts env ⟨client, .put key value⟩).Nodup := by
  rw [Job.contacts, Job.call_put]
  rcases putCall_cases env client key value with
    ⟨result, hcall⟩ | ⟨_, _, nodes, sent, hsend, hrequests⟩
  · rw [hcall]
    exact List.nodup_nil
  · rw [hrequests, addressed_contacts]
    exact (requests_distinct hsend).1

/-- A put contacts at most `N` servers. -/
theorem length_contacts_put (env : Env) (client : Client)
    (key value : CString) :
    (Job.contacts env ⟨client, .put key value⟩).length ≤ client.args.N := by
  rw [Job.contacts, Job.call_put]
  rcases putCall_cases env client key value with
    ⟨result, hcall⟩ | ⟨_, _, nodes, sent, hsend, hrequests⟩
  · rw [hcall]
    exact Nat.zero_le _
  · have hreplicas := length_replicasOf env client.server client.args.N key
    have hsub := (requests_sublist hsend).1.length_le
    rw [List.length_map, List.length_map] at hsub
    rw [hrequests, addressed_contacts, List.length_map]
    omega

/-- A get contacts different servers. -/
theorem contacts_get (env : Env) (client : Client) (key : CString) :
    (Job.contacts env ⟨client, .get key⟩).Nodup := by
  rw [Job.contacts, Job.call_get]
  rcases getCall_cases env client key with
    ⟨result, hcall⟩ | ⟨_, nodes, sent, hsend, hrequests⟩
  · rw [hcall]
    exact List.nodup_nil
  · rw [hrequests, addressed_contacts]
    exact (requests_distinct hsend).1

variable [DecidableEq ι] {s₀ s : World ι}

/-! ## The write quorum -/

/-- The run passes through `u`, in which the server `a` has just handled the
request of a put, and held the value. -/
structure Stores (t : Traffic ι) (s₀ s : World ι) (i : ι) (n : Nat)
    (key value : CString) (a : SockAddr) (u : World ι) : Prop where
  before : t.Run s₀ u
  after : t.Run u s
  handled : ∃ earlier q, u.handled = earlier ++ [q] ∧ q.process = i ∧
    q.call = n ∧ q.server = a
  held : (u.servers a).toMap key = some value

/-- `W` different servers among those that the put contacts have stored its
pair. -/
def StoredByQuorum (t : Traffic ι) (s₀ s : World ι) (i : ι) (n : Nat)
    (client : Client) (key value : CString) : Prop :=
  ∃ quorum : List SockAddr, quorum.Nodup ∧
    quorum ⊆ Job.contacts t.env ⟨client, .put key value⟩ ∧
    client.args.W ≤ quorum.length ∧
    ∀ a ∈ quorum, ∃ u, Stores t s₀ s i n key value a u

/-- An acknowledgement of a put: its server has stored the pair. -/
theorem stores_of_answered (hexact : t.Exact) (hplain : t.Plain)
    (htables : ∀ a, (s₀.servers a).Inv) (h₀ : s₀.Initial)
    {r : Mailing ι} (h : Answered t.system s₀ s r) {client : Client}
    {key value : CString}
    (hjob : t.Makes s r.process r.call ⟨client, .put key value⟩) :
    (∃ u, Stores t s₀ s r.process r.call key value r.server u) ∧
      r.server ∈ Job.contacts t.env ⟨client, .put key value⟩ := by
  obtain ⟨q, u, u', ho⟩ := h
  have hbefore := ho.before.tail ho.step
  have hissued := run_issued h₀ (hbefore.trans ho.after)
  obtain ⟨job, hjob', _, hbody, hcontact⟩ := handled_op hissued ho.mem_handled
  rw [ho.process, ho.call] at hjob'
  cases hjob'.unique hjob
  have hput : putOf q.body = some (key, value) := by
    rw [hbody]
    exact putOf_put (hplain _ _ _ hjob'.next)
  have hlog : logOf u'.handled r.server =
      logOf u.handled r.server ++ [q.body] := by
    rw [ho.handled, logOf_concat, if_pos ho.server]
  refine ⟨⟨u', hbefore, ho.after, ⟨u.handled, q, ho.handled, ho.process,
    ho.call, ho.server⟩, ?_⟩, ho.server ▸ hcontact⟩
  rw [serves_exact hexact ((run_served h₀ hbefore).servers r.server)
      (length_log_le hissued (Run.extends ho.after).handled.subset _), hlog,
    putsOf_concat, hput, addAll_toMap (htables _),
    Assoc.lookup_reverse_append (b := value) ?_ ?_, Option.some_or]
  · intro entry hentry _
    rw [Option.toList_some, List.mem_singleton] at hentry
    rw [hentry]
  · exact List.mem_singleton_self _

/-- The servers that have stored the pair of a put that has succeeded. -/
theorem stores_quorum (h : t.Counted s₀ s) (hplain : t.Plain)
    (hexact : t.Exact) (htables : ∀ a, (s₀.servers a).Inv) {i : ι} {n : Nat}
    {client : Client} {key value : CString}
    (hmakes : t.Makes s i n ⟨client, .put key value⟩)
    (hput : (s.results i)[n]? = some (.put (.ok .ERR_NONE))) :
    StoredByQuorum t s₀ s i n client key value := by
  obtain ⟨_, hW⟩ := networkPut_none (result_put h.calls hmakes hput)
  rw [List.length_map, State.taken, List.length_map] at hW
  have hanswer : ∀ r ∈ s.heardIn i n,
      (∃ u, Stores t s₀ s i n key value r.server u) ∧
        r.server ∈ Job.contacts t.env ⟨client, .put key value⟩ := by
    intro r hr
    obtain ⟨hheard, rfl, rfl⟩ := mem_heardIn.mp hr
    exact stores_of_answered hexact hplain htables h.served.initial
      (h.served.heard _ hheard) hmakes
  refine ⟨(s.heardIn i n).map Packet.server,
    h.servers_nodup hmakes trivial (contacts_put t.env client key value),
    ?_, ?_, ?_⟩
  · intro a ha
    obtain ⟨r, hr, rfl⟩ := List.mem_map.mp ha
    exact (hanswer r hr).2
  · rwa [List.length_map]
  · intro a ha
    obtain ⟨r, hr, rfl⟩ := List.mem_map.mp ha
    exact (hanswer r hr).1

/-- A put that succeeds has been stored by `W` different servers among those
that it contacts. -/
theorem put_quorum (t : Traffic ι) (hdup : ¬ t.duplicates) (hplain : t.Plain)
    (hexact : t.Exact) (s₀ s : World ι) (h₀ : s₀.Initial)
    (htables : ∀ a, (s₀.servers a).Inv) (hrun : t.Run s₀ s) (i : ι) (n : Nat)
    (client : Client) (key value : CString)
    (hmakes : t.Makes s i n ⟨client, .put key value⟩)
    (hput : (s.results i)[n]? = some (.put (.ok .ERR_NONE))) :
    StoredByQuorum t s₀ s i n client key value :=
  stores_quorum (run_counted hdup hplain.answersOnce h₀ hrun) hplain hexact
    htables hmakes hput

/-- Both servers have stored the first pair. -/
theorem put_quorum_demo : ∃ s, (demoTraffic getsOnce).Run demoWorld s ∧
    s.results false = [.put (.ok .ERR_NONE), .put (.ok .ERR_NONE)] ∧
    StoredByQuorum (demoTraffic getsOnce) demoWorld s false 0 demoClient
      (lit ['k']) (lit ['a', 'b', 'c']) := by
  obtain ⟨s, hrun, hs, _⟩ := demo_writes getsOnce
  obtain ⟨hmakes, hput⟩ := hs.makesPut (n := 0) rfl
  exact ⟨s, hrun, hs.writer, put_quorum (demoTraffic getsOnce) id
    getsOnce_plain (fun _ hm => hm) demoWorld s demoWorld_initial
    demoWorld_tables.inv hrun false 0 demoClient (lit ['k'])
    (lit ['a', 'b', 'c']) hmakes hput⟩

/-! ## The read quorum -/

/-- The answers with this value that a call has taken. -/
def World.agreeing (s : World ι) (i : ι) (n : Nat) (value : CString) :
    List (Mailing ι) :=
  (s.heardIn i n).filter (fun r =>
    !isNotFound r.body && replyValue r.body == value)

theorem length_agreeing (s : World ι) (i : ι) (n : Nat) (value : CString) :
    (World.agreeing s i n value).length =
      (valueReplies ((s.taken i n).map Prod.snd)).count value := by
  rw [World.agreeing, ← List.countP_eq_length_filter, valueReplies, List.count,
    List.countP_map, List.countP_filter, State.taken, List.map_map,
    List.countP_map]
  refine List.countP_congr (fun r _ => ?_)
  simp [Packet.content, Bool.and_comm]

/-- `R` different servers among those that the get contacts held the value when
they handled it. -/
def HeldByQuorum (t : Traffic ι) (s₀ s : World ι) (i : ι) (n : Nat)
    (client : Client) (key value : CString) : Prop :=
  ∃ quorum : List SockAddr, quorum.Nodup ∧
    quorum ⊆ Job.contacts t.env ⟨client, .get key⟩ ∧
    client.args.R ≤ quorum.length ∧
    ∀ a ∈ quorum, ∃ u, Reads t s₀ s i n key value a u

/-- The servers that held the value of a get that has succeeded. -/
theorem reads_quorum (h : t.Counted s₀ s) (hzero : t.Zeroed)
    (htables : Tables s₀) {i : ι} {n : Nat} {client : Client}
    {key value : CString} (hmakes : t.Makes s i n ⟨client, .get key⟩)
    (hkey : key.bytes ≠ []) (hR : client.args.R < 2 ^ 31)
    (hget : (s.results i)[n]? = some (.get (.ok (.ERR_NONE, some value)))) :
    HeldByQuorum t s₀ s i n client key value := by
  have hcount := networkGet_none hR (result_get h.calls hmakes hget)
  have hanswer : ∀ r ∈ World.agreeing s i n value,
      (∃ u, Reads t s₀ s i n key value r.server u) ∧
        r.server ∈ Job.contacts t.env ⟨client, .get key⟩ := by
    intro r hr
    rw [World.agreeing, List.mem_filter, Bool.and_eq_true, Bool.not_eq_true',
      beq_iff_eq] at hr
    obtain ⟨hr, hfound, rfl⟩ := hr
    obtain ⟨hheard, rfl, rfl⟩ := mem_heardIn.mp hr
    obtain ⟨u, hreads, hcontact, _⟩ := answered_reads hzero htables
      h.served.initial (h.served.heard _ hheard) hmakes hkey hfound
    exact ⟨⟨u, hreads⟩, hcontact⟩
  refine ⟨(World.agreeing s i n value).map Packet.server, ?_, ?_, ?_, ?_⟩
  · exact (h.servers_nodup hmakes trivial
      (contacts_get t.env client key)).sublist (List.filter_sublist.map _)
  · intro a ha
    obtain ⟨r, hr, rfl⟩ := List.mem_map.mp ha
    exact (hanswer r hr).2
  · rwa [List.length_map, length_agreeing]
  · intro a ha
    obtain ⟨r, hr, rfl⟩ := List.mem_map.mp ha
    exact (hanswer r hr).1

/-- A get that succeeds has its value from `R` different servers among those
that it contacts. -/
theorem get_quorum (t : Traffic ι) (hdup : ¬ t.duplicates) (hplain : t.Plain)
    (hzero : t.Zeroed) (s₀ s : World ι) (h₀ : s₀.Initial)
    (htables : Tables s₀) (hrun : t.Run s₀ s) (i : ι) (n : Nat)
    (client : Client) (key value : CString)
    (hmakes : t.Makes s i n ⟨client, .get key⟩) (hkey : key.bytes ≠ [])
    (hR : client.args.R < 2 ^ 31)
    (hget : (s.results i)[n]? = some (.get (.ok (.ERR_NONE, some value)))) :
    HeldByQuorum t s₀ s i n client key value :=
  reads_quorum (run_counted hdup hplain.answersOnce h₀ hrun) hzero htables
    hmakes hkey hR hget

/-- Both servers held what the second process gets. -/
theorem get_quorum_demo : ∃ s, (demoTraffic getsOnce).Run demoWorld s ∧
    s.results true = [.get (.ok (.ERR_NONE, some (lit ['a', 'b', 'c'])))] ∧
    HeldByQuorum (demoTraffic getsOnce) demoWorld s true 0 widerClient
      (lit ['k']) (lit ['a', 'b', 'c']) := by
  obtain ⟨s₁, _, hs₁, _⟩ := demo_writes getsOnce
  obtain ⟨s, _, hs⟩ := demo_reads hs₁
  exact ⟨s, hs.agree.run, hs.reader, get_quorum (demoTraffic getsOnce) id
    getsOnce_plain (fun _ hm => hm.2) demoWorld s demoWorld_initial
    demoWorld_tables hs.agree.run true 0 widerClient (lit ['k'])
    (lit ['a', 'b', 'c']) hs.makesGet (by decide) (by decide)
    (by rw [hs.reader]; rfl)⟩

/-! ## A get behind a put -/

/-- Requests that were handled before another one. -/
theorem prefix_of_split {α : Type} {l rest before after : List α} {x : α}
    (h : l ++ rest = before ++ x :: after) (hx : x ∉ l) : l <+: before := by
  rcases List.append_eq_append_iff.mp h with ⟨l', hbefore, _⟩ | ⟨l', hl, hrest⟩
  · exact ⟨l', hbefore.symm⟩
  · cases l' with
    | nil =>
      rw [List.append_nil] at hl
      exact ⟨[], by rw [hl, List.append_nil]⟩
    | cons y l' =>
      rw [List.cons_append, List.cons.injEq] at hrest
      refine absurd ?_ hx
      rw [hl, hrest.1]
      exact List.mem_append_right _ List.mem_cons_self

/-- When a put starts, every other put of its key is over or does not start
before the state `s`. -/
def Undisturbed (t : Traffic ι) (s₀ s : World ι) (i : ι) (n : Nat)
    (key : CString) : Prop :=
  ∀ j m client value, t.Makes s j m ⟨client, .put key value⟩ →
    (j, m) = (i, n) ∨ Settled s₀ j m

/-- A server that has handled an undisturbed put, and nothing of its key that
came later, has its value. -/
theorem stored_value (hexact : t.Exact) (hplain : t.Plain)
    {start s u : World ι} (hstart : start.Initial)
    (htables : ∀ a, (start.servers a).Inv) (hbefore : t.Run start u)
    (hafter : t.Run u s) {i : ι} {n : Nat} {client : Client}
    {key value : CString} (hmakes : t.Makes s i n ⟨client, .put key value⟩)
    {earlier mid : List (Mailing ι)}
    (hsettled : ∀ j m client' value',
      t.Makes s j m ⟨client', .put key value'⟩ → (j, m) = (i, n) ∨
        ∀ q ∈ mid, ¬ (q.process = j ∧ q.call = m))
    (hsplit : u.handled = earlier ++ mid)
    {q : Mailing ι} (hq : q ∈ mid) (hprocess : q.process = i)
    (hcall : q.call = n) :
    (u.servers q.server).toMap key = some value := by
  have hissued := run_issued hstart (hbefore.trans hafter)
  have hsub : u.handled ⊆ s.handled := (Run.extends hafter).handled.subset
  have hmid : mid ⊆ s.handled := by
    refine List.Subset.trans ?_ hsub
    rw [hsplit]
    exact List.subset_append_right _ _
  have hall : ∀ kv ∈ putsOf (logOf mid q.server), kv.1 = key →
      kv.2 = value := by
    rintro ⟨key', value'⟩ hkv rfl
    obtain ⟨datagram, hdatagram, hput⟩ := List.mem_filterMap.mp hkv
    obtain ⟨q', hq', _, rfl⟩ := mem_logOf.mp hdatagram
    obtain ⟨⟨client', op⟩, hjob, _, hbody, _⟩ := handled_op hissued (hmid hq')
    rw [hbody] at hput
    cases putOf_datagram hput
    rcases hsettled _ _ _ _ hjob with heq | hnone
    · rw [Prod.mk.injEq] at heq
      rw [heq.1, heq.2] at hjob
      cases hjob.unique hmakes
      rfl
    · exact absurd ⟨rfl, rfl⟩ (hnone q' hq')
  have hmem : key ∈ Assoc.keys (putsOf (logOf mid q.server)) := by
    obtain ⟨job, hjob, _, hbody, _⟩ := handled_op hissued (hmid hq)
    rw [hprocess, hcall] at hjob
    cases hjob.unique hmakes
    refine List.mem_map.mpr ⟨(key, value), List.mem_filterMap.mpr
      ⟨q.body, mem_logOf.mpr ⟨q, hq, rfl, rfl⟩, ?_⟩, rfl⟩
    rw [hbody]
    exact putOf_put (hplain _ _ _ hjob.next)
  rw [serves_exact hexact ((run_served hstart hbefore).servers q.server)
      (length_log_le hissued hsub _),
    addAll_toMap (htables _), hsplit, logOf_append, putsOf_append,
    Assoc.lookup_reverse_append hall hmem, Option.some_or]

/-- A server that has stored the pair of an undisturbed put still holds it when
it has handled all that was handled when the put was over, and some more. -/
theorem kept_later (hexact : t.Exact) (hplain : t.Plain)
    {start s₀ s₁ u : World ι} (hstart : start.Initial)
    (htables : ∀ a, (start.servers a).Inv) (hrun₀ : t.Run start s₀)
    (hrun₁ : t.Run s₀ s₁) (hrun : t.Run s₁ s) {i : ι} {n : Nat}
    {client : Client} {key value : CString} (hnew : ¬ s₀.Began i n)
    (hmakes : t.Makes s₁ i n ⟨client, .put key value⟩)
    (hundisturbed : Undisturbed t s₀ s i n key) {a : SockAddr}
    {v : World ι} (hstored : Stores t start s₁ i n key value a v)
    (hbefore : t.Run start u) (hafter : t.Run u s)
    (hearlier : s₁.handled <+: u.handled) :
    (u.servers a).toMap key = some value := by
  obtain ⟨later, hlaterSplit⟩ := hearlier
  obtain ⟨earlier, q, hlast, hprocess, hcall, ha⟩ := hstored.handled
  -- The put is handled after everything that was handled when it started.
  obtain ⟨mid, hmid⟩ := (Run.extends hrun₁).handled
  have hqMid : q ∈ mid := by
    have hq : q ∈ s₁.handled :=
      (Run.extends hstored.after).handled.subset
        (hlast ▸ List.mem_append_right _ (List.mem_singleton_self q))
    rw [← hmid] at hq
    rcases List.mem_append.mp hq with hold | hq
    · exact absurd ⟨hprocess, hcall⟩
        ((run_issued hstart hrun₀).not_handled hnew q hold)
    · exact hq
  obtain ⟨rest, hrest⟩ := (Run.extends hafter).handled
  have hsettled : ∀ j m client' value',
      t.Makes s j m ⟨client', .put key value'⟩ → (j, m) = (i, n) ∨
        ∀ q ∈ mid ++ later, ¬ (q.process = j ∧ q.call = m) := by
    intro j m client' value' hjob
    refine (hundisturbed j m client' value' hjob).imp id (fun hover => ?_)
    obtain ⟨new, hnewSplit, hnone⟩ := hover.run (hrun₁.trans hrun)
    intro q' hq'
    refine hnone q' ?_
    have heq : s₀.handled ++ (mid ++ later ++ rest) = s₀.handled ++ new := by
      rw [← hnewSplit, ← hrest, ← hlaterSplit, ← hmid]
      simp only [List.append_assoc]
    rw [← List.append_cancel_left heq]
    exact List.mem_append_left _ hq'
  have hsplit : u.handled = s₀.handled ++ (mid ++ later) := by
    rw [← hlaterSplit, ← hmid, List.append_assoc]
  subst ha
  exact stored_value hexact hplain hstart htables hbefore hafter
    ((Run.extends hrun).makes i n _ hmakes) hsettled hsplit
    (List.mem_append_left later hqMid) hprocess hcall

/-- So it does when it handles a request of a call that starts later. -/
theorem held_later (hexact : t.Exact) (hplain : t.Plain)
    {start s₀ s₁ u : World ι} (hstart : start.Initial)
    (htables : ∀ a, (start.servers a).Inv) (hrun₀ : t.Run start s₀)
    (hrun₁ : t.Run s₀ s₁) (hrun : t.Run s₁ s) {i : ι} {n : Nat}
    {client : Client} {key value : CString} (hnew : ¬ s₀.Began i n)
    (hmakes : t.Makes s₁ i n ⟨client, .put key value⟩)
    (hundisturbed : Undisturbed t s₀ s i n key) {a : SockAddr}
    {v : World ι} (hstored : Stores t start s₁ i n key value a v)
    (hbefore : t.Run start u) (hafter : t.Run u s) {q' : Mailing ι}
    {rest : List (Mailing ι)} (hsplit : s.handled = u.handled ++ q' :: rest)
    (hlater : ¬ s₁.Began q'.process q'.call) :
    (u.servers a).toMap key = some value := by
  have hissued := run_issued hstart (hrun₀.trans hrun₁)
  -- The request is handled after everything that was handled when its call
  -- started.
  obtain ⟨more, hmore⟩ := (Run.extends hrun).handled
  have hearlier : s₁.handled <+: u.handled :=
    prefix_of_split (hmore.trans hsplit) (fun hq' =>
      hissued.not_handled hlater q' hq' ⟨rfl, rfl⟩)
  exact kept_later hexact hplain hstart htables hrun₀ hrun₁ hrun hnew hmakes
    hundisturbed hstored hbefore hafter hearlier

/-- A get that starts after a put has succeeded returns the value of the put,
when the quorums of the two are larger than all the servers that they contact,
and no other put of the key interferes. -/
theorem quorums_meet (t : Traffic ι) (hdup : ¬ t.duplicates) (hplain : t.Plain)
    (hexact : t.Exact) (start s₀ s₁ s : World ι) (hstart : start.Initial)
    (htables : Tables start) (hrun₀ : t.Run start s₀) (hrun₁ : t.Run s₀ s₁)
    (hrun : t.Run s₁ s) (i j : ι) (n m : Nat) (writer reader : Client)
    (key value value' : CString) (hkey : key.bytes ≠ [])
    (hnew : ¬ s₀.Began i n)
    (hwriter : t.Makes s₁ i n ⟨writer, .put key value⟩)
    (hput : (s₁.results i)[n]? = some (.put (.ok .ERR_NONE)))
    (hlater : ¬ s₁.Began j m)
    (hreader : t.Makes s j m ⟨reader, .get key⟩)
    (hR : reader.args.R < 2 ^ 31)
    (hget : (s.results j)[m]? = some (.get (.ok (.ERR_NONE, some value'))))
    (hundisturbed : Undisturbed t s₀ s i n key) (all : List SockAddr)
    (hall : Job.contacts t.env ⟨writer, .put key value⟩ ⊆ all)
    (hall' : Job.contacts t.env ⟨reader, .get key⟩ ⊆ all)
    (hquorum : all.length < writer.args.W + reader.args.R) :
    value' = value := by
  have hrunS₁ := hrun₀.trans hrun₁
  obtain ⟨stored, hstoredNodup, hstoredAll, hW, hstored⟩ := stores_quorum
    (run_counted hdup hplain.answersOnce hstart hrunS₁) hplain hexact
    htables.inv hwriter hput
  obtain ⟨read, hreadNodup, hreadAll, hRead, hread⟩ := reads_quorum
    (run_counted hdup hplain.answersOnce hstart (hrunS₁.trans hrun))
    hexact.zeroed htables hreader hkey hR hget
  obtain ⟨a, haStored, haRead⟩ := Protocol.exists_mem_of_quorums hstoredNodup
    hreadNodup (List.Subset.trans hstoredAll hall)
    (List.Subset.trans hreadAll hall') (by omega)
  obtain ⟨v, hstores⟩ := hstored a haStored
  obtain ⟨u, hreads⟩ := hread a haRead
  obtain ⟨q', rest, hsplit, rfl, rfl, _⟩ := hreads.handled
  have hkept := held_later hexact hplain hstart htables.inv hrun₀ hrun₁ hrun
    hnew hwriter hundisturbed hstores hreads.before hreads.after hsplit hlater
  exact Option.some.inj (hreads.held.symm.trans hkept)

end PpsDht
