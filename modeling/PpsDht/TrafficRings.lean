import PpsDht.TrafficQuorum

/-!
# Quorums on different rings

Every program reads its servers file when it starts, so two clients may place a
key on two rings.  When these differ in the nodes of `d` servers, the two
contact at most `N + d` servers for a key, `contacts_put_holders` and
`contacts_get_holders`.  Quorums with `N + d < R + W` still meet,
`get_sees_put`.
-/

namespace PpsDht

open CMem Exchange

/-! ## The servers of a key on two rings -/

/-- The ring of the client holds the nodes of the list, in order. -/
def OnRing (client : Client) (list : NodeList) : Prop :=
  client.server.nodes = (nodeListSort list nodeCmpSha).nodes

/-- The lists have the same nodes in the same order, but for those of some
servers. -/
def SameBut (changed : List SockAddr) (list list' : NodeList) : Prop :=
  list.nodes.filter (fun node => decide (node.addr ∉ changed)) =
    list'.nodes.filter (fun node => decide (node.addr ∉ changed))

/-- The servers that can hold the key on a list like this one. -/
def holdersOf (env : Env) (changed : List SockAddr) (list : NodeList) (n : Nat)
    (key : CString) : List SockAddr :=
  Clockwise.holders Node.pos Node.addr changed (strKey (env.SHA1 key.bytes)) n
    list.nodes

theorem SameBut.holdersOf_eq {changed : List SockAddr} {list list' : NodeList}
    (h : SameBut changed list list') (env : Env) (n : Nat) (key : CString) :
    holdersOf env changed list n key = holdersOf env changed list' n key := by
  rw [SameBut] at h
  rw [holdersOf, holdersOf, Clockwise.holders, Clockwise.holders, h]

theorem length_holdersOf_le (env : Env) (changed : List SockAddr)
    (list : NodeList) (n : Nat) (key : CString) :
    (holdersOf env changed list n key).length ≤ changed.length + n :=
  Clockwise.length_holders_le ..

theorem sent_holders {env : Env} {client : Client} {list : NodeList}
    (hring : OnRing client list) {key : CString} {message : List UInt8}
    {nodes : Option NodeList} {sent : List (Node × List UInt8)}
    (h : requests env client key message = .ok (nodes, sent))
    (changed : List SockAddr) {n : Nat} (hn : client.args.N ≤ n) :
    (addressed sent).map Prod.fst ⊆ holdersOf env changed list n key := by
  rw [addressed_contacts]
  refine List.Subset.trans (requests_sublist h).1.subset ?_
  rw [replicasOf, hring, nodeListSort_nodes]
  exact Clockwise.replicas_subset_holders Node.pos Node.addr changed _ hn _

theorem contacts_put_holders (env : Env) {client : Client} {list : NodeList}
    (hring : OnRing client list) (key value : CString)
    (changed : List SockAddr) {n : Nat} (hn : client.args.N ≤ n) :
    Job.contacts env ⟨client, .put key value⟩ ⊆
      holdersOf env changed list n key := by
  rw [Job.contacts, Job.call_put]
  rcases putCall_cases env client key value with
    ⟨result, hcall⟩ | ⟨_, _, nodes, sent, hsend, hrequests⟩
  · rw [hcall]
    exact List.nil_subset _
  · rw [hrequests]
    exact sent_holders hring hsend changed hn

theorem contacts_get_holders (env : Env) {client : Client} {list : NodeList}
    (hring : OnRing client list) (key : CString) (changed : List SockAddr)
    {n : Nat} (hn : client.args.N ≤ n) :
    Job.contacts env ⟨client, .get key⟩ ⊆
      holdersOf env changed list n key := by
  rw [Job.contacts, Job.call_get]
  rcases getCall_cases env client key with
    ⟨result, hcall⟩ | ⟨_, nodes, sent, hsend, hrequests⟩
  · rw [hcall]
    exact List.nil_subset _
  · rw [hrequests]
    exact sent_holders hring hsend changed hn

/-! ## A get behind a put -/

variable {ι : Type} [DecidableEq ι]

/-- The put `n` of the process `i` is over before `s₁`, and no other put of its
key interferes before `s`. -/
structure PutDone (t : Traffic ι) (start s₁ s : World ι) (key value : CString)
    (s₀ : World ι) (i : ι) (n : Nat) (writer : Client) : Prop where
  before : t.Run start s₀
  after : t.Run s₀ s₁
  new : ¬ s₀.Began i n
  makes : t.Makes s₁ i n ⟨writer, .put key value⟩
  result : (s₁.results i)[n]? = some (.put (.ok .ERR_NONE))
  undisturbed : Undisturbed t s₀ s i n key

/-- The put is done, and its quorum is large enough for the reader. -/
structure PutOver (t : Traffic ι) (start s₁ s : World ι) (reader : Client)
    (key value : CString) (s₀ : World ι) (i : ι) (n : Nat) (writer : Client)
    (list list' : NodeList) (changed : List SockAddr) : Prop
    extends PutDone t start s₁ s key value s₀ i n writer where
  writerRing : OnRing writer list
  readerRing : OnRing reader list'
  same : SameBut changed list list'
  quorum : max writer.args.N reader.args.N + changed.length <
    writer.args.W + reader.args.R

/-- A get that starts after the put is over returns its value. -/
theorem PutOver.seen {t : Traffic ι} (hdup : ¬ t.duplicates)
    (hplain : t.Plain) (hexact : t.Exact) {start s₁ s : World ι}
    (hstart : start.Initial) (htables : Tables start) {reader : Client}
    {key value : CString} {s₀ : World ι} {i : ι} {n : Nat} {writer : Client}
    {list list' : NodeList} {changed : List SockAddr}
    (h : PutOver t start s₁ s reader key value s₀ i n writer list list'
      changed) (hrun : t.Run s₁ s) {j : ι} {m : Nat} (hkey : key.bytes ≠ [])
    (hlater : ¬ s₁.Began j m) (hreader : t.Makes s j m ⟨reader, .get key⟩)
    (hR : reader.args.R < 2 ^ 31) {value' : CString}
    (hget : (s.results j)[m]? = some (.get (.ok (.ERR_NONE, some value')))) :
    value' = value := by
  have hlength := length_holdersOf_le t.env changed list
    (max writer.args.N reader.args.N) key
  have hquorum := h.quorum
  refine quorums_meet t hdup hplain hexact start s₀ s₁ s hstart htables
    h.before h.after hrun i j n m writer reader key value value' hkey h.new
    h.makes h.result hlater hreader hR hget h.undisturbed
    (holdersOf t.env changed list (max writer.args.N reader.args.N) key)
    (contacts_put_holders t.env h.writerRing key value changed
      (Nat.le_max_left ..)) ?_ (by omega)
  rw [h.same.holdersOf_eq]
  exact contacts_get_holders t.env h.readerRing key changed
    (Nat.le_max_right ..)

/-- A get that starts after a put has succeeded returns the value of the put,
when the quorums of the two are larger than the number of replicas and the
number of servers that their rings do not share, and no other put of the key
interferes. -/
theorem get_sees_put (t : Traffic ι) (hdup : ¬ t.duplicates) (hplain : t.Plain)
    (hexact : t.Exact) (start s₀ s₁ s : World ι) (hstart : start.Initial)
    (htables : Tables start) (hrun₀ : t.Run start s₀) (hrun₁ : t.Run s₀ s₁)
    (hrun : t.Run s₁ s) (i j : ι) (n m : Nat) (writer reader : Client)
    (key value value' : CString) (hkey : key.bytes ≠ [])
    (hnew : ¬ s₀.Began i n)
    (hwriter : t.Makes s₁ i n ⟨writer, .put key value⟩)
    (hput : (s₁.results i)[n]? = some (.put (.ok .ERR_NONE)))
    (hlater : ¬ s₁.Began j m)
    (hreader : t.Makes s j m ⟨reader, .get key⟩)
    (hR : reader.args.R < 2 ^ 31)
    (hget : (s.results j)[m]? = some (.get (.ok (.ERR_NONE, some value'))))
    (hundisturbed : Undisturbed t s₀ s i n key) (list list' : NodeList)
    (changed : List SockAddr) (hwriterRing : OnRing writer list)
    (hreaderRing : OnRing reader list') (hsame : SameBut changed list list')
    (hquorum : max writer.args.N reader.args.N + changed.length <
      writer.args.W + reader.args.R) : value' = value := by
  have hover : PutOver t start s₁ s reader key value s₀ i n writer list list'
      changed := ⟨⟨hrun₀, hrun₁, hnew, hwriter, hput, hundisturbed⟩, hwriterRing,
    hreaderRing, hsame, hquorum⟩
  exact hover.seen hdup hplain hexact hstart htables hrun hkey hlater hreader
    hR hget

section Demo

variable {program : List Outcome → Option Job} {s₁ s : World Bool}
  {results : List Outcome} {key value : CString}

theorem demoClient_onRing : OnRing demoClient demoList :=
  (List.mergeSort_of_pairwise (by decide)).symm

theorem widerClient_onRing : OnRing widerClient widerClient.server :=
  (List.mergeSort_of_pairwise (by decide)).symm

/-- The rings differ in the node of the third server. -/
theorem demo_sameBut : SameBut [⟨3, 1⟩] demoList widerClient.server :=
  rfl

/-- A put of the first process is over when the second one starts, if that does
not put the key. -/
theorem DemoStage.putDone (h : DemoStage program s₁ writtenStore [])
    (hs : s.results true = results) {n : Nat}
    (hn : demoPairs[n]? = some (key, value))
    (hother : ∀ m, m ≤ results.length → ∀ client value',
      program (results.take m) ≠ some ⟨client, .put key value'⟩) :
    PutDone (demoTraffic program) demoWorld s₁ s key value demoWorld false n
      demoClient where
  before := .refl
  after := h.agree.run
  new := State.not_began rfl rfl n
  makes := (h.makesPut hn).1
  result := (h.makesPut hn).2
  undisturbed := by
    intro j m client value' hjob
    cases j with
    | true =>
      have hnext := hjob.next
      have hle : m ≤ (s.results true).length := hjob.began.le
      rw [hs] at hnext hle
      exact absurd hnext (hother m hle client value')
    | false =>
      -- The keys of the pairs differ.
      have hpair := demoPairs_of_makes hjob
      have hkeys : (demoPairs.map Prod.fst).Nodup := by decide
      left
      rw [Prod.mk.injEq]
      refine ⟨rfl, (List.getElem?_inj ?_ hkeys).mp ?_⟩
      · rw [List.length_map]
        exact (List.getElem?_eq_some_iff.mp hpair).1
      · rw [List.getElem?_map, List.getElem?_map, hpair, hn]
        rfl

theorem DemoStage.putOver (h : DemoStage program s₁ writtenStore [])
    (hs : s.results true = results) {n : Nat}
    (hn : demoPairs[n]? = some (key, value))
    (hother : ∀ m, m ≤ results.length → ∀ client value',
      program (results.take m) ≠ some ⟨client, .put key value'⟩) :
    PutOver (demoTraffic program) demoWorld s₁ s widerClient key value
      demoWorld false n demoClient demoList widerClient.server [⟨3, 1⟩] :=
  ⟨h.putDone hs hn hother, demoClient_onRing, widerClient_onRing, demo_sameBut,
    by decide⟩

theorem getsOnce_not_put (results : List Outcome) (client : Client)
    (key value : CString) :
    getsOnce results ≠ some ⟨client, .put key value⟩ := by
  cases results with
  | nil => nofun
  | cons outcome results => nofun

/-- The second process starts when the first one is done, with a ring of one
server more. -/
theorem get_sees_put_demo : ∃ s value',
    (demoTraffic getsOnce).Run demoWorld s ∧
    s.results true = [.get (.ok (.ERR_NONE, some value'))] ∧
    value' = lit ['a', 'b', 'c'] := by
  obtain ⟨s₁, hrun₁, hs₁, _⟩ := demo_writes getsOnce
  obtain ⟨s, hrun, hs⟩ := demo_reads hs₁
  have hover := hs₁.putOver hs.reader (n := 0) rfl
    (fun _ _ client value' => getsOnce_not_put _ client _ value')
  exact ⟨s, _, hs.agree.run, hs.reader, get_sees_put (demoTraffic getsOnce) id
    getsOnce_plain (fun _ hm => hm) demoWorld demoWorld s₁ s
    demoWorld_initial demoWorld_tables .refl hrun₁ hrun false true 0 0
    demoClient widerClient (lit ['k']) (lit ['a', 'b', 'c']) _ (by decide)
    hover.new hover.makes hover.result hs₁.new hs.makesGet (by decide)
    (by rw [hs.reader]; rfl) hover.undisturbed demoList widerClient.server
    [⟨3, 1⟩] hover.writerRing hover.readerRing hover.same hover.quorum⟩

end Demo

end PpsDht
