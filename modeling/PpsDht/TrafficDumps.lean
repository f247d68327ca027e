import PpsDht.TrafficTools

/-!
# Dumps among other traffic

`pps-dump-node` over the network, while any other processes put, get, ping and
dump.

* `dump_snapshot`: what it prints is what its server held at one moment, when
  that makes one datagram.
* `dump_sees_put`: a put that is over is among it, when the put has waited for
  all its servers.
-/

namespace PpsDht

open CMem Exchange

variable {ι : Type} {t : Traffic ι} {start s₁ s : World ι}

/-! ## One dump -/

/-- The pairs of the table make one datagram. -/
structure OneDatagram (table : Htable) : Prop where
  ne : contentPairs table ≠ []
  size : dumpSize (contentPairs table) ≤ maxMsgSize

theorem serverStep_dump (fuel : Nat) (m : ServerMem) (table : Htable) :
    serverStep fuel m table [0] =
      match dumpLoop fuel (getHtableContent table) with
      | none => .error .outOfFuel
      | some (.error fault) => .error fault
      | some (.ok sent) => .ok (table, sent) := rfl

/-- A dump of one datagram ends. -/
theorem OneDatagram.dumpLoop_eq {table : Htable} (h : OneDatagram table) :
    dumpLoop ((contentPairs table).length + 1) (getHtableContent table) =
      some (.ok [htonl (contentPairs table).length ++
        joined (contentPairs table)]) := by
  rw [getHtableContent_eq]
  exact dumpLoop_fits h.ne h.size (Nat.lt_succ_self _)

/-- The answer to a dump request. -/
theorem OneDatagram.serve {table : Htable} (h : OneDatagram table)
    {m : ServerMem} (hm : t.memory m) :
    t.serve table [0] table
      [htonl (contentPairs table).length ++ joined (contentPairs table)] := by
  refine Or.inl ⟨m, (contentPairs table).length + 1, hm, ?_⟩
  rw [serverStep_dump, h.dumpLoop_eq]

/-- There is no other one. -/
theorem OneDatagram.answers_eq {table table' : Htable}
    (h : OneDatagram table) {answers : List (List UInt8)}
    (hserve : t.serve table [0] table' answers) :
    answers = [htonl (contentPairs table).length ++
      joined (contentPairs table)] := by
  rcases hserve with ⟨m, fuel, _, hstep⟩ | ⟨_, _, hends, _⟩
  · rw [serverStep_dump] at hstep
    cases hloop : dumpLoop fuel (getHtableContent table) with
    | none =>
      rw [hloop] at hstep
      cases hstep
    | some result =>
      cases dumpLoop_unique hloop h.dumpLoop_eq
      rw [hloop] at hstep
      cases hstep
      rfl
  · exact absurd ⟨_, _, h.dumpLoop_eq⟩ hends

variable [DecidableEq ι]

/-- The run passes through `u`, and then the server `a` handles the dump request
of a call. -/
structure Dumped (t : Traffic ι) (start s : World ι) (i : ι) (n : Nat)
    (a : SockAddr) (u : World ι) : Prop where
  before : t.Run start u
  after : t.Run u s
  handled : ∃ q rest, s.handled = u.handled ++ q :: rest ∧ q.process = i ∧
    q.call = n ∧ q.server = a

/-- A dump that prints a list. -/
theorem dumped_of_result (h₀ : start.Initial) (hrun : t.Run start s) {i : ι}
    {n : Nat} {client : Client} {server : SockAddr} {inMsg : List UInt8}
    {stack : List (List UInt8 × List UInt8)} {printed : List (Option KvPair)}
    (hmakes : t.Makes s i n ⟨client, .dump server inMsg stack⟩)
    (hresult : (s.results i)[n]? = some (.dump (.ok (some printed)))) :
    ∃ u, Dumped t start s i n server u ∧ (OneDatagram (u.servers server) →
      printed = (contentPairs (u.servers server)).map some) := by
  have hissued := run_issued h₀ hrun
  have hprints := Outcome.dump.inj
    ((dumpCall_outcome server inMsg stack _).symm.trans
      ((run_calls h₀ hrun).outcome_eq hmakes hresult))
  cases hheard : s.heardIn i n with
  | nil =>
    -- The first `recv` has timed out.
    rw [State.taken, hheard] at hprints
    cases hprints
  | cons r rest =>
    have hr : r ∈ s.heardIn i n := by
      rw [hheard]
      exact List.mem_cons_self
    obtain ⟨hmem, rfl, rfl⟩ := mem_heardIn.mp hr
    obtain ⟨q, u, u', ho⟩ := (run_served h₀ hrun).heard r hmem
    obtain ⟨job, hjob, _, hbody, hcontact⟩ := handled_op hissued ho.mem_handled
    rw [ho.process, ho.call] at hjob
    cases hjob.unique hmakes
    have hserver : q.server = server := List.mem_singleton.mp hcontact
    obtain ⟨later, hsplit⟩ := ho.split
    refine ⟨u, ⟨ho.before, ho.after.head ho.step, q, later, hsplit, ho.process,
      ho.call, hserver⟩, fun hone => ?_⟩
    obtain ⟨answers, hserve, hanswer⟩ := ho.answer
    rw [hserver, hbody] at hserve
    rw [hone.answers_eq hserve, List.mem_singleton] at hanswer
    rw [State.taken, hheard] at hprints
    simp only [List.map_cons, Packet.content, arrivals, onStack] at hprints
    rw [hanswer, dumpNode_joined hone.ne hone.size] at hprints
    cases hprints
    rfl

section Demo

open Function

def demoLocals : Locals where
  array := []
  node := ⟨0, 0⟩
  inMsg := []
  stack := []

/-- `pps-dump-node 1.0.0.0 256`, behind `client_init`. -/
def demoDump : Tool :=
  dumpTool demoEnv demoLocals widerClient
    [lit ['1', '.', '0', '.', '0', '.', '0'], lit ['2', '5', '6']]

/-- The pairs that the first process has put. -/
def demoContent : List KvPair :=
  [{ key := lit ['k'], value := lit ['a', 'b', 'c'] },
    { key := lit ['p'], value := lit ['b', 'c'] }]

/-- What the program prints. -/
def demoListing : List (Option KvPair) := demoContent.map some

theorem demo_contentPairs : contentPairs writtenStore.table = demoContent := by
  decide +kernel

theorem demo_oneDatagram : OneDatagram writtenStore.table := by
  constructor
  · rw [demo_contentPairs]
    exact List.cons_ne_nil _ _
  · rw [demo_contentPairs]
    decide

theorem demo_contacts : (⟨1, 1⟩ : SockAddr) ∈ Job.contacts demoEnv
    ⟨demoClient, .put (lit ['k']) (lit ['a', 'b', 'c'])⟩ := by
  decide

theorem demoDump_deployed : Deployed (demoTraffic demoDump.next) demoWorld :=
  tool_deployed (dumpTool_within _ _ _ _) (by decide)

/-- The second process prints the pairs. -/
theorem DemoStage.dumps {s : World Bool}
    (h : DemoStage demoDump.next s writtenStore []) :
    ∃ s', (demoTraffic demoDump.next).Run s s' ∧
      Runs (demoTraffic demoDump.next) s' true demoDump
        { report := .listing demoListing, freed := [], status := 0 } ∧
      s'.results true = [.dump (.ok (some demoListing))] := by
  have hserve : (demoTraffic demoDump.next).serve writtenStore.table [0]
      writtenStore.table [htonl 2 ++ joined demoContent] := by
    have hmem : (demoTraffic demoDump.next).memory demoMem := ⟨rfl, rfl⟩
    have hanswer := demo_oneDatagram.serve hmem
    rwa [demo_contentPairs] at hanswer
  have houtcome : ((demoTraffic demoDump.next).system.call
      ⟨widerClient, .dump ⟨1, 1⟩ [] []⟩).outcome
        [(⟨1, 1⟩, htonl 2 ++ joined demoContent)] =
      .dump (.ok (some demoListing)) := by
    show (dumpCall ⟨1, 1⟩ [] []).outcome _ = _
    rw [dumpCall_outcome]
    have hne : demoContent ≠ [] := List.cons_ne_nil _ _
    exact congrArg Outcome.dump
      (dumpNode_joined hne (by decide) [] [] [] _)
  have hnext : demoDump.next (s.results true) =
      some ⟨widerClient, .dump ⟨1, 1⟩ [] []⟩ := by
    rw [h.reader]
    rfl
  have hrequests : ((demoTraffic demoDump.next).system.call
      ⟨widerClient, .dump ⟨1, 1⟩ [] []⟩).requests =
      [(⟨1, 1⟩, [0])] ++ [] := rfl
  obtain ⟨s', hrun, hs⟩ := run_exchanged
    (c := (demoTraffic demoDump.next).system)
    (run_calls h.agree.initial h.agree.run) (fun _ => writtenStore.table)
    (fun _ => htonl 2 ++ joined demoContent) (i := true) (h.agree.free true)
    hnext hrequests (List.nodup_singleton _)
    (by
      intro x hx
      rw [List.mem_singleton.mp hx, h.agree.servers _ List.mem_cons_self]
      exact hserve) List.map_singleton rfl
    (by
      intro part hpart hne
      rcases List.sublist_singleton.mp hpart.sublist with rfl | rfl
      · rfl
      · exact absurd rfl hne) houtcome
  have hresults : s'.results true = [.dump (.ok (some demoListing))] := by
    rw [hs.results, update_self, h.reader]
    rfl
  exact ⟨s', hrun, ⟨rfl, by rw [hresults]; rfl⟩, hresults⟩

end Demo

/-- A put that has waited for all its servers has been stored by each of
them. -/
theorem PutDone.stored (hdep : Deployed t start) {key value : CString}
    {s₀ : World ι} {j : ι} {m : Nat} {writer : Client}
    (h : PutDone t start s₁ s key value s₀ j m writer)
    (hall : writer.args.N ≤ writer.args.W) {a : SockAddr}
    (ha : a ∈ Job.contacts t.env ⟨writer, .put key value⟩) :
    ∃ v, Stores t start s₁ j m key value a v := by
  have hrun := h.before.trans h.after
  obtain ⟨quorum, hnodup, hsub, hW, hstores⟩ := stores_quorum
    (hdep.counted hrun) hdep.plain hdep.exact hdep.inv h.makes h.result
  have hlength := length_contacts_put t.env writer key value
  obtain ⟨b, hb, hab⟩ := Protocol.exists_mem_of_quorums hnodup
    (List.nodup_singleton a) hsub
    (List.cons_subset.mpr ⟨ha, List.nil_subset _⟩)
    (by rw [List.length_singleton]; omega)
  rw [List.mem_singleton.mp hab] at hb
  exact hstores a hb

/-- `pps-dump-node` starts when a put is over that has waited for all its
servers, and prints the content of one of them: the pair of the put is listed,
and no other one for its key. -/
theorem dump_sees_put (t : Traffic ι) (start s₀ s₁ s : World ι)
    (hdep : Deployed t start) (hrun : t.Run s₁ s) (j : ι) (m : Nat)
    (writer : Client) (key value : CString)
    (hput : PutDone t start s₁ s key value s₀ j m writer)
    (hall : writer.args.N ≤ writer.args.W) (i : ι) (hnew : ¬ s₁.Began i 0)
    (env : Env) (locals : Locals) (client : Client) (ip port : CString)
    (exit : Exit) (printed : List (Option KvPair))
    (hserver : dumpServer env locals.node ip port ∈
      Job.contacts t.env ⟨writer, .put key value⟩)
    (htool : Runs t s i (dumpTool env locals client [ip, port]) exit)
    (hexit : exit.report = .listing printed) :
    ∃ u, Dumped t start s i 0 (dumpServer env locals.node ip port) u ∧
      (OneDatagram (u.servers (dumpServer env locals.node ip port)) →
        ∀ value', some { key := key, value := value' } ∈ printed ↔
          value' = value) := by
  have hrunS := (hput.before.trans hput.after).trans hrun
  obtain ⟨calls, htrace, hcalls⟩ := htool.trace hdep.initial hrunS
  cases dumpTool_trace htrace hexit
  obtain ⟨hmakes, hresult⟩ := hcalls 0 _ _ rfl
  obtain ⟨u, hdumped, hlisting⟩ :=
    dumped_of_result hdep.initial hrunS hmakes hresult
  refine ⟨u, hdumped, fun hone value' => ?_⟩
  obtain ⟨v, hstored⟩ := hput.stored hdep hall hserver
  obtain ⟨q, rest, hsplit, hprocess, hcall, _⟩ := hdumped.handled
  have hkept := held_later hdep.exact hdep.plain hdep.initial hdep.inv
    hput.before hput.after hrun hput.new hput.makes hput.undisturbed hstored
    hdumped.before hdumped.after hsplit (by rwa [hprocess, hcall])
  have hinv := (stored_on_way hdep.exact.zeroed hdep.tables hdep.initial
    hdumped.before hdumped.after (dumpServer env locals.node ip port)).1
  rw [hlisting hone, List.mem_map_of_injective (Option.some_injective _),
    mem_contentPairs hinv, hkept, Option.some_inj]
  exact eq_comm

/-- Nothing else is listed for `k`. -/
theorem dump_sees_put_demo : ∃ s exit,
    Runs (demoTraffic demoDump.next) s true demoDump exit ∧
    exit.report = .listing demoListing ∧
    ∃ u, Dumped (demoTraffic demoDump.next) demoWorld s true 0 ⟨1, 1⟩ u ∧
      (OneDatagram (u.servers ⟨1, 1⟩) → ∀ value',
        some { key := lit ['k'], value := value' } ∈ demoListing ↔
          value' = lit ['a', 'b', 'c']) := by
  obtain ⟨s₁, _, h₁, _⟩ := demo_writes demoDump.next
  obtain ⟨s, hrun, htool, hresults⟩ := h₁.dumps
  have hput := h₁.putDone hresults (n := 0) rfl (by
    intro m hm client value hnext
    match m, hm with
    | 0, _ => cases hnext
    | 1, _ => cases hnext)
  exact ⟨s, _, htool, rfl, dump_sees_put _ demoWorld demoWorld s₁ s
    demoDump_deployed hrun false 0 demoClient (lit ['k'])
    (lit ['a', 'b', 'c']) hput (by decide) true h₁.new demoEnv demoLocals
    widerClient (lit ['1', '.', '0', '.', '0', '.', '0'])
    (lit ['2', '5', '6']) _ _ demo_contacts htool rfl⟩

end PpsDht
