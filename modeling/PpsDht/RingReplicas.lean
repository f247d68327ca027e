import PpsDht.Ring

/-!
# The nodes of a key

`ringGetNodesForKeyFuel_replicas` refines `ring_get_nodes_for_key` to
`Clockwise.replicas`: the walk takes the first node of each server, once
around the ring from the successor of the key.  The rest of this file reads
three facts off it: the result node by node, the number and the distinctness
of its servers, and what happens to the nodes of a key when one server leaves
the ring.
-/

namespace PpsDht

open CMem

/-- The servers of a ring, each once. -/
def servers (ring : NodeList) : List SockAddr :=
  (ring.nodes.map Node.addr).dedup

/-- The nodes that a key has on a ring. -/
def replicasOf (env : Env) (ring : NodeList) (n : Nat) (key : CString) :
    List Node :=
  Clockwise.replicas Node.pos Node.addr (strKey (env.SHA1 key.bytes)) n
    ring.nodes

/-- The walk from `start` finds the same first nodes as one round of the ring:
what it meets in its second round past `start` has been seen in the first. -/
theorem target_eq_replicas (env : Env) {ring : NodeList}
    (hne : ring.nodes ≠ []) {n : Nat} (hn : n ≠ 0) (key : CString) :
    ∃ node, ring.nodes[ringStart ring (env.SHA1 key.bytes)]? = some node ∧
      WalkState.target ring
        { iterator := ringStart ring (env.SHA1 key.bytes), left := n - 1,
          looped := false, nodes := nodeListAdd nodeListNew node } =
        (replicasOf env ring n key).map copyNode := by
  have hstart : ringStart ring (env.SHA1 key.bytes) < ring.nodes.length := by
    rw [ringStart_eq]
    exact Clockwise.start_lt Node.pos hne
  obtain ⟨k, rfl⟩ : ∃ k, n = k + 1 := ⟨n - 1, by omega⟩
  rw [replicasOf, Clockwise.replicas, Clockwise.clockwise_eq, ← ringStart_eq]
  generalize ringStart ring (env.SHA1 key.bytes) = start at hstart
  refine ⟨ring.nodes[start], List.getElem?_eq_getElem hstart, ?_⟩
  have hdrop := List.drop_eq_getElem_cons hstart
  -- The second round splits into what the first round still lacks and what
  -- it has met already.
  have hround : ring.nodes.drop start ++ ring.nodes =
      ring.nodes[start] :: ((ring.nodes.drop (start + 1) ++
        ring.nodes.take start) ++ ring.nodes.drop start) := by
    conv_lhs => rw [← List.take_append_drop start ring.nodes]
    rw [List.drop_append_of_le_length (by rw [List.length_take]; omega),
      List.drop_take_self, List.nil_append, hdrop, List.cons_append,
      List.append_assoc]
  have hseen : ∀ a ∈ ring.nodes.drop start, a.addr ∈
      (ring.nodes.drop (start + 1) ++ ring.nodes.take start).map Node.addr ++
        [ring.nodes[start].addr] := by
    intro a ha
    rw [hdrop, List.mem_cons] at ha
    rw [List.mem_append, List.map_append, List.mem_append,
      List.mem_singleton]
    rcases ha with rfl | ha
    · exact Or.inr rfl
    · exact Or.inl (Or.inl (List.mem_map_of_mem ha))
  have hfirst : Clockwise.firsts Node.addr [ring.nodes[start].addr]
      (ring.nodes.drop start ++ ring.nodes) =
      Clockwise.firsts Node.addr [ring.nodes[start].addr]
        (ring.nodes.drop (start + 1) ++ ring.nodes.take start) := by
    rw [hround, Clockwise.firsts_cons_of_mem Node.addr _
        (List.mem_singleton.mpr rfl), Clockwise.firsts_append,
      Clockwise.firsts_eq_nil Node.addr hseen, List.append_nil]
  have hpath : WalkState.path ring
      { iterator := start, left := k + 1 - 1, looped := false,
        nodes := nodeListAdd nodeListNew ring.nodes[start] } =
      ring.nodes.drop start ++ ring.nodes := by
    rw [WalkState.path, if_neg (by simp)]
  rw [WalkState.target, hpath, firsts_add, nodeListNew_nodes, List.map_nil,
    hfirst, hdrop, List.cons_append,
    Clockwise.firsts_cons_of_not_mem Node.addr _ List.not_mem_nil,
    List.take_succ_cons, List.map_cons]
  rfl

/-- `ring_get_nodes_for_key` ends without a fault, and returns copies of the
replicas. -/
theorem ringGetNodesForKeyFuel_replicas (env : Env) {ring : NodeList}
    (hne : ring.nodes ≠ []) {n : Nat} (hn : n ≠ 0) (key : CString)
    {fuel : Nat} (hfuel : 2 * ring.size < fuel) :
    ∃ nodes, ringGetNodesForKeyFuel env fuel ring n key = .ok (some nodes) ∧
      nodes.nodes = (replicasOf env ring n key).map copyNode := by
  obtain ⟨node, hnode, htarget⟩ := target_eq_replicas env hne hn key
  have hsearch := runLoop_searchBody hne (env.SHA1 key.bytes)
    (show ring.size < fuel by omega)
  have hsize : ring.size = ring.nodes.length := rfl
  have hpath : (WalkState.path ring
      { iterator := ringStart ring (env.SHA1 key.bytes), left := n - 1,
        looped := false, nodes := nodeListAdd nodeListNew node }).length <
      fuel := by
    rw [WalkState.path, if_neg (by simp), List.length_append,
      List.length_drop]
    omega
  obtain ⟨nodes, hrun, hnodes⟩ :=
    runLoop_walkBody _ (List.getElem?_eq_some_iff.mp hnode).1 hpath
  refine ⟨nodes, ?_, hnodes.trans htarget⟩
  rw [ringGetNodesForKeyFuel, if_neg hn, hsearch]
  simp only [hnode, hrun]
  rfl

/-- The result for the fuel that the model uses. -/
theorem ringGetNodesForKey_replicas (env : Env) {ring : NodeList}
    (hne : ring.nodes ≠ []) {n : Nat} (hn : n ≠ 0) (key : CString) :
    ∃ nodes, ringGetNodesForKey env ring n key = .ok (some nodes) ∧
      nodes.nodes = (replicasOf env ring n key).map copyNode :=
  ringGetNodesForKeyFuel_replicas env hne hn key (Nat.lt_succ_self _)

/-- Without nodes the search reads past the ring. -/
theorem ringGetNodesForKey_empty (env : Env) {ring : NodeList}
    (hnil : ring.nodes = []) {n : Nat} (hn : n ≠ 0) (key : CString) :
    ringGetNodesForKey env ring n key = .error .outOfBounds := by
  have hbody : searchBody ring (env.SHA1 key.bytes) 0 =
      .done (.error .outOfBounds) := by
    rw [searchBody, hnil]
    rfl
  have hsearch := runLoop_of_run (Loop.run_succ_done (2 * ring.size) hbody)
  rw [ringGetNodesForKey, ringGetNodesForKeyFuel, if_neg hn, hsearch]

@[simp] theorem map_addr_copyNode (nodes : List Node) :
    (nodes.map copyNode).map Node.addr = nodes.map Node.addr := by
  rw [List.map_map]
  rfl

/-- There are `n` nodes, or one for each server of the ring. -/
theorem length_replicasOf (env : Env) (ring : NodeList) (n : Nat)
    (key : CString) :
    (replicasOf env ring n key).length = min n (servers ring).length :=
  Clockwise.length_replicas Node.pos Node.addr _ n ring.nodes

/-- No server is chosen twice. -/
theorem nodup_replicasOf (env : Env) (ring : NodeList) (n : Nat)
    (key : CString) : ((replicasOf env ring n key).map Node.addr).Nodup :=
  Clockwise.nodup_owner_replicas Node.pos Node.addr _ n ring.nodes

/-- If the ring has `n` servers, all of them are chosen. -/
theorem perm_replicasOf (env : Env) {ring : NodeList} {n : Nat}
    (h : (servers ring).length ≤ n) (key : CString) :
    ((replicasOf env ring n key).map Node.addr).Perm (servers ring) :=
  Clockwise.perm_owner_replicas Node.pos Node.addr _ h

/-- What a node is compared by: its server and its id. -/
def Node.ident (node : Node) : SockAddr × Nat := (node.addr, node.id)

/-- Replica selection.  The walk ends on every non-empty ring, reads no slot
past the ring, and returns the first `min n D` entries of the list of first
nodes of each server, clockwise from the successor of the key, where `D` is
the number of servers of the ring. -/
theorem ringGetNodesForKey_selects (env : Env) (ring : NodeList)
    (hne : ring.nodes ≠ []) (n : Nat) (hn : 1 ≤ n) (key : CString)
    (fuel : Nat) (hfuel : 2 * ring.size < fuel) :
    ∃ nodes, ringGetNodesForKeyFuel env fuel ring n key = .ok (some nodes) ∧
      nodes.nodes.map Node.ident =
        ((Clockwise.firsts Node.addr []
          (ring.nodes.drop (ringStart ring (env.SHA1 key.bytes)) ++
            ring.nodes.take (ringStart ring (env.SHA1 key.bytes)))).take
          (min n (servers ring).length)).map Node.ident ∧
      (nodes.nodes.map Node.addr).Nodup ∧
      nodes.size = min n (servers ring).length := by
  obtain ⟨nodes, hrun, hnodes⟩ :=
    ringGetNodesForKeyFuel_replicas env hne (by omega : n ≠ 0) key hfuel
  have hident : (Node.ident ∘ copyNode : Node → SockAddr × Nat) = Node.ident :=
    rfl
  have hlen := length_replicasOf env ring n key
  have htake : replicasOf env ring n key =
      (Clockwise.firsts Node.addr []
        (ring.nodes.drop (ringStart ring (env.SHA1 key.bytes)) ++
          ring.nodes.take (ringStart ring (env.SHA1 key.bytes)))).take
        (min n (servers ring).length) := by
    rw [← hlen, replicasOf, Clockwise.replicas, Clockwise.clockwise_eq,
      ← ringStart_eq, List.length_take, ← List.take_take, List.take_length]
  refine ⟨nodes, hrun, ?_, ?_, ?_⟩
  · rw [hnodes, List.map_map, hident, htake]
  · rw [hnodes, map_addr_copyNode]
    exact nodup_replicasOf env ring n key
  · rw [NodeList.size, hnodes, List.length_map, hlen]

/-- Two servers, the first with two virtual nodes. -/
def demoList : NodeList :=
  nodeListAdd (nodeListAdd (nodeListAdd nodeListNew
    { addr := ⟨1, 1⟩, id := 2, sha := [10] })
    { addr := ⟨1, 1⟩, id := 1, sha := [20] })
    { addr := ⟨2, 1⟩, id := 1, sha := [30] }

/-- The digest of every text is the byte 15. -/
def demoEnv : Env := { SHA1 := fun _ => [15], pastSpace := [] }

/-- Three nodes wanted, two servers: the walk starts at the second node and
comes around. -/
theorem ringGetNodesForKey_selects_demo :
    ∃ nodes, ringGetNodesForKeyFuel demoEnv 7 demoList 3 (lit ['k']) =
        .ok (some nodes) ∧
      nodes.nodes.map Node.ident = [(⟨1, 1⟩, 1), (⟨2, 1⟩, 1)] := by
  obtain ⟨nodes, hrun, hident, _⟩ := ringGetNodesForKey_selects demoEnv demoList
    (by decide) 3 (by decide) (lit ['k']) 7 (by decide)
  exact ⟨nodes, hrun, hident.trans (by decide)⟩

/-- Adding or removing one server moves only its own nodes.  `list'` holds the
nodes of `list` in their order and, anywhere between them, nodes of the server
`s`; without `s`, the servers of a key on the larger ring are a prefix of those
on the smaller one. -/
theorem ringGetNodesForKey_remove (env : Env) (list list' : NodeList)
    (s : SockAddr) (hne : list.nodes ≠ [])
    (hlist : list'.nodes.filter (fun node => node.addr ≠ s) = list.nodes)
    (n : Nat) (hn : 1 ≤ n) (key : CString) :
    ∃ nodes nodes',
      ringGetNodesForKey env (nodeListSort list nodeCmpSha) n key =
        .ok (some nodes) ∧
      ringGetNodesForKey env (nodeListSort list' nodeCmpSha) n key =
        .ok (some nodes') ∧
      (nodes'.nodes.map Node.addr).filter (fun addr => addr ≠ s) <+:
        nodes.nodes.map Node.addr := by
  have hmem : ∀ (l : List Node) (x : Node),
      x ∈ Clockwise.sortByPos Node.pos l ↔ x ∈ l :=
    fun l x => List.mem_mergeSort
  have hne1 : (nodeListSort list nodeCmpSha).nodes ≠ [] := by
    obtain ⟨x, hx⟩ := List.exists_mem_of_ne_nil _ hne
    rw [nodeListSort_nodes]
    exact List.ne_nil_of_mem ((hmem _ x).mpr hx)
  have hne2 : (nodeListSort list' nodeCmpSha).nodes ≠ [] := by
    obtain ⟨x, hx⟩ := List.exists_mem_of_ne_nil _ hne
    rw [nodeListSort_nodes]
    exact List.ne_nil_of_mem ((hmem _ x).mpr
      (List.mem_of_mem_filter (hlist.symm ▸ hx)))
  obtain ⟨nodes, hrun, hnodes⟩ :=
    ringGetNodesForKey_replicas env hne1 (by omega : n ≠ 0) key
  obtain ⟨nodes', hrun', hnodes'⟩ :=
    ringGetNodesForKey_replicas env hne2 (by omega : n ≠ 0) key
  have hprefix := Clockwise.replicas_filter_prefix Node.pos Node.addr
    (strKey (env.SHA1 key.bytes)) n list'.nodes s
  rw [hlist] at hprefix
  refine ⟨nodes, nodes', hrun, hrun', ?_⟩
  rw [hnodes, hnodes', map_addr_copyNode, map_addr_copyNode, replicasOf,
    replicasOf, nodeListSort_nodes, nodeListSort_nodes, List.filter_map]
  exact hprefix.map Node.addr

/-- The server `2` leaves the ring of `demoList`. -/
theorem ringGetNodesForKey_remove_demo :
    ∃ nodes nodes',
      ringGetNodesForKey demoEnv (nodeListSort (nodeListAdd nodeListNew
        { addr := ⟨1, 1⟩, id := 1, sha := [20] }) nodeCmpSha) 2 (lit ['k']) =
        .ok (some nodes) ∧
      ringGetNodesForKey demoEnv (nodeListSort (nodeListAdd (nodeListAdd
        nodeListNew { addr := ⟨2, 1⟩, id := 1, sha := [30] })
        { addr := ⟨1, 1⟩, id := 1, sha := [20] }) nodeCmpSha) 2 (lit ['k']) =
        .ok (some nodes') ∧
      (nodes'.nodes.map Node.addr).filter (fun addr => addr ≠ ⟨2, 1⟩) <+:
        nodes.nodes.map Node.addr :=
  ringGetNodesForKey_remove demoEnv _ _ ⟨2, 1⟩ (by decide) (by decide) 2
    (by decide) (lit ['k'])

end PpsDht
