import PpsDht.TrafficQuorum

/-!
# Pings among other traffic

`pps-list-nodes` over the network.  `list_nodes_alive`: a node that is listed as
`OK` has a server that has handled a ping of this process, whatever the network
does.  `list_nodes_complete`: when the network duplicates nothing and the
program stops because it has enough responses, every node is listed as `OK`.
-/

namespace PpsDht

open CMem Exchange Function

variable {ι : Type} [DecidableEq ι] {t : Traffic ι} {s₀ s : World ι}

/-- The sources of the responses that a call has taken. -/
def World.sources (s : World ι) (i : ι) (n : Nat) : List SockAddr :=
  (s.heardIn i n).map Packet.server

theorem map_fst_taken (s : World ι) (i : ι) (n : Nat) :
    (s.taken i n).map Prod.fst = World.sources s i n := by
  rw [State.taken, List.map_map]
  rfl

/-- The lines that `pps-list-nodes` prints. -/
theorem reports_of_result (hcalls : Calls t.system s) {i : ι} {n : Nat}
    {client : Client} {reports : List NodeReport}
    (hmakes : t.Makes s i n ⟨client, .listNodes⟩)
    (hresult : (s.results i)[n]? = some (.nodes reports)) :
    List.Forall₂ (Reports ((World.sources s i n).take client.server.size))
      (nodeListSort client.server nodeCmpServerAddr).nodes reports := by
  have hnodes := Outcome.nodes.inj ((listNodesCall_outcome client _).symm.trans
    (hcalls.outcome_eq hmakes hresult))
  rw [map_fst_taken] at hnodes
  rw [← hnodes]
  exact listNodes_reports client.server _

/-- The program waits for as many responses as there are nodes. -/
theorem listNodesCall_waits (client : Client)
    {taken : List (SockAddr × List UInt8)}
    (hfew : taken.length < client.server.size) :
    (listNodesCall client).after taken = none := by
  have hwaits : Loop.WaitsFor
      (collectBody (nodeListSort client.server nodeCmpServerAddr).size)
      (fun _ => True) (fun j st => st.2 = j)
      (nodeListSort client.server nodeCmpServerAddr).size :=
    ⟨by
      rintro _ ⟨table, nbrResponse⟩ source hj _ rfl
      exact ⟨_, if_neg (by omega), rfl⟩⟩
  exact Call.after_loop (hwaits.map _ Prod.fst) rfl (fun _ _ => trivial)
    (hfew.trans_eq (size_nodeListSort _ _).symm)

/-! ## Three pings -/

/-- One process pings three servers. -/
def pingTraffic : Traffic Bool where
  SHA1 := demoEnv.SHA1
  program := fun i results =>
    match i, results with
    | false, [] => some ⟨demoWriter, .listNodes⟩
    | _, _ => none
  duplicates := False
  memory := ServerMem.Exact

/-- All servers answer. -/
structure Pinged (s : World Bool) (reports : List NodeReport) : Prop where
  run : pingTraffic.Run demoWorld s
  results : s.results false = [.nodes reports]
  makes : pingTraffic.Makes s false 0 ⟨demoWriter, .listNodes⟩
  sources : World.sources s false 0 = [⟨1, 1⟩, ⟨2, 1⟩, ⟨3, 1⟩]

theorem demo_pings : ∃ s reports, Pinged s reports := by
  have hserve : ∀ a, pingTraffic.serve (demoWorld.servers a) []
      (demoWorld.servers a) [[]] := fun a =>
    Or.inl ⟨demoMem, 0, ⟨rfl, rfl⟩, serverStep_ping 0 demoMem _⟩
  have hsorted : (nodeListSort demoWriter.server nodeCmpServerAddr).nodes =
      demoWriter.server.nodes := List.mergeSort_of_pairwise (by decide)
  have hrequests : (pingTraffic.system.call ⟨demoWriter, .listNodes⟩).requests =
      [(⟨1, 1⟩, []), (⟨2, 1⟩, []), (⟨3, 1⟩, [])] ++ [] := by
    show (nodeListSort demoWriter.server nodeCmpServerAddr).nodes.map
      (fun node => (node.addr, [])) = _
    rw [hsorted]
    rfl
  obtain ⟨s, hrun, hs⟩ := run_exchanged (c := pingTraffic.system)
    (run_calls demoWorld_initial .refl) demoWorld.servers (fun _ => [])
    (i := false) rfl rfl hrequests
    (by decide) (List.forall_mem_cons.mpr ⟨hserve _, List.forall_mem_cons.mpr
      ⟨hserve _, List.forall_mem_singleton.mpr (hserve _)⟩⟩) rfl rfl
    (fun part hpart hne => listNodesCall_waits demoWriter
      (Nat.lt_of_le_of_ne hpart.length_le
        (fun heq => hne (hpart.eq_of_length heq))))
    (listNodesCall_outcome demoWriter _)
  have hresults : s.results false = _ :=
    (congrFun hs.results false).trans (update_self ..)
  refine ⟨s, _, hrun, hresults, makes_first hresults rfl, ?_⟩
  rw [World.sources, State.heardIn, hs.heard]
  rfl

/-- The server has handled a ping of the call. -/
def Alive (s : World ι) (i : ι) (n : Nat) (a : SockAddr) : Prop :=
  ∃ q ∈ s.handled, q.process = i ∧ q.call = n ∧ q.server = a ∧ q.body = []

/-- Whatever the network does, a node is listed as `OK` only if its server has
handled a ping of this call. -/
theorem list_nodes_alive (t : Traffic ι) (s₀ s : World ι) (h₀ : s₀.Initial)
    (hrun : t.Run s₀ s) (i : ι) (n : Nat) (client : Client)
    (reports : List NodeReport)
    (hmakes : t.Makes s i n ⟨client, .listNodes⟩)
    (hresult : (s.results i)[n]? = some (.nodes reports)) :
    List.Forall₂ (fun node report =>
        report.status = statusOk → Alive s i n node.addr)
      (nodeListSort client.server nodeCmpServerAddr).nodes reports := by
  refine (reports_of_result (run_calls h₀ hrun) hmakes hresult).imp ?_
  intro node report hreport hok
  have hsource := List.mem_of_mem_take (hreport.ok_iff.mp hok)
  obtain ⟨r, hr, haddr⟩ := List.mem_map.mp hsource
  obtain ⟨hheard, rfl, rfl⟩ := mem_heardIn.mp hr
  obtain ⟨q, u, u', ho⟩ := (run_served h₀ hrun).heard _ hheard
  have hq := ho.mem_handled
  obtain ⟨job, hjob, _, hbody, _⟩ := handled_op (run_issued h₀ hrun) hq
  rw [ho.process, ho.call] at hjob
  cases hjob.unique hmakes
  exact ⟨q, hq, ho.process, ho.call, ho.server.trans haddr, hbody⟩

/-- The servers that are listed as `OK` have handled the ping. -/
theorem list_nodes_alive_demo : ∃ s reports, Pinged s reports ∧
    List.Forall₂ (fun node report =>
        report.status = statusOk → Alive s false 0 node.addr)
      (nodeListSort demoWriter.server nodeCmpServerAddr).nodes reports := by
  obtain ⟨s, reports, h⟩ := demo_pings
  exact ⟨s, reports, h, list_nodes_alive pingTraffic demoWorld s
    demoWorld_initial h.run false 0 demoWriter reports h.makes
    (by rw [h.results]; rfl)⟩

/-- The pings of a call. -/
theorem pings_listNodes (client : Client) :
    (listNodesCall client).requests.map Prod.fst =
      (nodeListSort client.server nodeCmpServerAddr).nodes.map Node.addr := by
  rw [listNodesCall, Exchange.Call.loop, List.map_map]
  rfl

theorem length_pings (client : Client) :
    ((listNodesCall client).requests.map Prod.fst).length =
      client.server.size := by
  rw [pings_listNodes, List.length_map]
  exact size_nodeListSort _ _

omit [DecidableEq ι] in
/-- A server sends one answer to a ping. -/
theorem answersOnce_listNodes (t : Traffic ι) :
    AnswersOnce t.system (fun job => job.op = .listNodes) := by
  intro i results job _ hop x hx table table' answers hserve
  have hbody := (mem_requests hx).2
  rw [hop] at hbody
  have hping : x.2 = [] := hbody
  rw [hping] at hserve
  rcases hserve with ⟨m, fuel, _, hstep⟩ | ⟨hdump, _⟩
  · rw [serverStep_ping] at hstep
    cases hstep
    exact Nat.le_refl 1
  · cases hdump

/-- When nothing is duplicated, and a call has taken as many responses as there
are nodes, every node is listed as `OK`. -/
theorem list_nodes_complete (t : Traffic ι) (hdup : ¬ t.duplicates)
    (s₀ s : World ι) (h₀ : s₀.Initial)
    (hrun : t.Run s₀ s) (i : ι) (n : Nat) (client : Client)
    (reports : List NodeReport)
    (hmakes : t.Makes s i n ⟨client, .listNodes⟩)
    (hresult : (s.results i)[n]? = some (.nodes reports))
    (hcount : client.server.size ≤ (World.sources s i n).length) :
    ∀ report ∈ reports, report.status = statusOk := by
  have hcounted := run_counted hdup (answersOnce_listNodes t) h₀ hrun
  have hsub : (World.sources s i n).Subperm
      ((listNodesCall client).requests.map Prod.fst) :=
    hcounted.servers_subperm hmakes rfl
  -- No server has two responses for one ping, so each ping has its response.
  have hperm := hsub.perm_of_length_le ((length_pings client).trans_le hcount)
  have htake : (World.sources s i n).take client.server.size =
      World.sources s i n :=
    List.take_of_length_le (hperm.length_eq.trans (length_pings client)).le
  have hreports := reports_of_result hcounted.calls hmakes hresult
  rw [htake] at hreports
  intro report hreport
  obtain ⟨k, hk, rfl⟩ := List.mem_iff_getElem.mp hreport
  have hnode := hreports.get (i := k) (by rw [hreports.length_eq]; exact hk) hk
  refine hnode.ok_iff.mpr (hperm.mem_iff.mpr ?_)
  rw [pings_listNodes]
  exact List.mem_map_of_mem (List.getElem_mem _)

/-- All three nodes are listed as `OK`. -/
theorem list_nodes_complete_demo : ∃ s reports, Pinged s reports ∧
    ∀ report ∈ reports, report.status = statusOk := by
  obtain ⟨s, reports, h⟩ := demo_pings
  exact ⟨s, reports, h, list_nodes_complete pingTraffic id demoWorld s
    demoWorld_initial h.run false 0 demoWriter reports h.makes
    (by rw [h.results]; rfl) (by rw [h.sources]; exact Nat.le_refl 3)⟩

end PpsDht
