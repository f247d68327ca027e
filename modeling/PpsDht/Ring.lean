import PpsDht.Node

/-!
# The ring of nodes

`ring.c`.  The ring is the list of nodes of the servers file, sorted by
digest.  `ring_get_nodes_for_key` searches the first node whose digest is not
before the digest of the key, takes it, and walks the ring from there until it
has enough different servers or has come around.

Reading a slot at or past `ring->size` is the fault `outOfBounds`.  The walk
is `ringWalk`; its loop invariant relates the list built so far to
`Clockwise.firsts` of the nodes that are still ahead, `WalkState.path`.
-/

namespace PpsDht

open CMem

/-- `ring_init`: the error code, and the ring afterwards. -/
def ringInit (env : Env) (fuel : Nat) (content : Option (List UInt8))
    (ring : NodeList) : Except Fault (ErrorCode × NodeList) :=
  match getNodes env fuel content with
  | .error fault => .error fault
  | .ok none => .ok (.ERR_BAD_PARAMETER, ring)
  | .ok (some nodeList) => .ok (.ERR_NONE, nodeListSort nodeList nodeCmpSha)

/-- One pass of the search loop of `ring_get_nodes_for_key`. -/
def searchBody (ring : NodeList) (sha : List UInt8) (iterator : Nat) :
    Loop.Step Nat (Except Fault Nat) :=
  match ring.nodes[iterator]? with
  | none => .done (.error .outOfBounds)
  | some node =>
    if strcmp sha node.sha > 0 then
      if iterator + 1 ≥ ring.size then .done (.ok 0)
      else .again (iterator + 1)
    else .done (.ok iterator)

/-- The state of the walk. -/
structure WalkState where
  iterator : Nat
  left : Nat
  looped : Bool
  nodes : NodeList

/-- One pass of `while (left != 0)`. -/
def walkBody (ring : NodeList) (st : WalkState) :
    Loop.Step WalkState (Except Fault NodeList) :=
  if st.left = 0 then .done (.ok st.nodes)
  else
    match ring.nodes[st.iterator]? with
    | none => .done (.error .outOfBounds)
    | some node =>
      let found := nodeListContains st.nodes node
      let nodes := if found then st.nodes else nodeListAdd st.nodes node
      let left := if found then st.left else st.left - 1
      let iterator := st.iterator + 1
      if iterator ≥ ring.size then
        if st.looped then .done (.ok nodes)
        else .again { iterator := 0, left := left, looped := true,
                      nodes := nodes }
      else .again { st with iterator := iterator, left := left, nodes := nodes }

/-- `ring_get_nodes_for_key`, with at most `fuel` passes through each loop;
the result `none` is `NULL`. -/
def ringGetNodesForKeyFuel (env : Env) (fuel : Nat) (ring : NodeList)
    (wantedListSize : Nat) (key : CString) : Except Fault (Option NodeList) :=
  if wantedListSize = 0 then .ok none
  else
    match runLoop (searchBody ring (env.SHA1 key.bytes)) fuel 0 with
    | .error fault => .error fault
    | .ok iterator =>
      match ring.nodes[iterator]? with
      | none => .error .outOfBounds
      | some node =>
        (runLoop (walkBody ring) fuel
          { iterator := iterator, left := wantedListSize - 1, looped := false,
            nodes := nodeListAdd nodeListNew node }).map some

/-- `ring_get_nodes_for_key`.  Two rounds of the ring are fuel enough:
`ringGetNodesForKeyFuel_replicas` holds for every larger fuel too. -/
def ringGetNodesForKey (env : Env) (ring : NodeList) (wantedListSize : Nat)
    (key : CString) : Except Fault (Option NodeList) :=
  ringGetNodesForKeyFuel env (2 * ring.size + 1) ring wantedListSize key

/-! ## The search -/

/-- The position of a node: digests are ordered as `strcmp` orders them. -/
def Node.pos (node : Node) : List Nat := strKey node.sha

theorem nodeCmpSha_nonpos_iff (a b : Node) :
    nodeCmpSha a b ≤ 0 ↔ a.pos ≤ b.pos := strcmp_nonpos_iff a.sha b.sha

/-- Sorting by `node_cmp_sha` is the stable sort by position. -/
theorem nodeListSort_nodes (list : NodeList) :
    (nodeListSort list nodeCmpSha).nodes =
      Clockwise.sortByPos Node.pos list.nodes := by
  show list.nodes.mergeSort (fun a b => decide (nodeCmpSha a b ≤ 0)) = _
  simp only [nodeCmpSha_nonpos_iff]
  rfl

/-- Where the walk for a digest starts: the first index whose digest is not
smaller, `0` when there is none. -/
def ringStart (ring : NodeList) (sha : List UInt8) : Nat :=
  (ring.nodes.findIdx? (fun node => decide (strcmp sha node.sha ≤ 0))).getD 0

theorem ringStart_eq (ring : NodeList) (sha : List UInt8) :
    ringStart ring sha = Clockwise.start Node.pos (strKey sha) ring.nodes := by
  rw [ringStart, Clockwise.start]
  simp only [strcmp_nonpos_iff]
  rfl

/-- Every node below `iterator` is before the digest. -/
def SearchInv (ring : NodeList) (sha : List UInt8) (iterator : Nat) : Prop :=
  iterator < ring.size ∧
    ∀ (j : Nat) (h : j < ring.nodes.length), j < iterator →
      0 < strcmp sha ring.nodes[j].sha

/-- What one pass of the search does. -/
theorem searchBody_spec {ring : NodeList} {sha : List UInt8} {it : Nat}
    (hinv : SearchInv ring sha it) :
    (searchBody ring sha it = .again (it + 1) ∧
      SearchInv ring sha (it + 1)) ∨
    searchBody ring sha it = .done (.ok (ringStart ring sha)) := by
  obtain ⟨hit, hbelow⟩ := hinv
  have hsize : ring.size = ring.nodes.length := rfl
  have hlt : it < ring.nodes.length := hit
  rw [searchBody, List.getElem?_eq_getElem hlt]
  simp only
  by_cases hpos : strcmp sha ring.nodes[it].sha > 0
  · have hbelow' : ∀ (j : Nat) (h : j < ring.nodes.length), j < it + 1 →
        0 < strcmp sha ring.nodes[j].sha := by
      intro j hj hji
      by_cases hjt : j = it
      · subst hjt
        exact hpos
      · exact hbelow j hj (by omega)
    rw [if_pos hpos]
    by_cases hend : it + 1 ≥ ring.size
    · right
      have hnone : ring.nodes.findIdx?
          (fun node => decide (strcmp sha node.sha ≤ 0)) = none := by
        rw [List.findIdx?_eq_none_iff]
        intro x hx
        obtain ⟨j, hj, rfl⟩ := List.mem_iff_getElem.mp hx
        rw [decide_eq_false_iff_not, not_le]
        exact hbelow' j hj (by omega)
      rw [if_pos hend, ringStart, hnone]
      rfl
    · left
      rw [if_neg hend]
      exact ⟨rfl, by omega, hbelow'⟩
  · right
    have hsome : ring.nodes.findIdx?
        (fun node => decide (strcmp sha node.sha ≤ 0)) = some it := by
      rw [List.findIdx?_eq_some_iff_getElem]
      refine ⟨hlt, ?_, ?_⟩
      · rw [decide_eq_true_iff]
        exact not_lt.mp hpos
      · intro j hj
        rw [decide_eq_true_iff, not_le]
        exact hbelow j (by omega) hj
    rw [if_neg hpos, ringStart, hsome]
    rfl

/-- The search ends, at `ringStart`. -/
theorem runLoop_searchBody {ring : NodeList} (hne : ring.nodes ≠ [])
    (sha : List UInt8) {fuel : Nat} (hfuel : ring.size < fuel) :
    runLoop (searchBody ring sha) fuel 0 = .ok (ringStart ring sha) := by
  have hinit : SearchInv ring sha 0 :=
    ⟨List.length_pos_iff.mpr hne, fun j _ hj => absurd hj (Nat.not_lt_zero j)⟩
  have hstep : ∀ it, SearchInv ring sha it →
      (∃ it', searchBody ring sha it = .again it' ∧ SearchInv ring sha it' ∧
        ring.size - it' < ring.size - it) ∨
      ∃ r, searchBody ring sha it = .done r ∧
        r = .ok (ringStart ring sha) := by
    intro it hinv
    have hit := hinv.1
    rcases searchBody_spec hinv with ⟨h, hinv'⟩ | h
    · exact Or.inl ⟨it + 1, h, hinv', by omega⟩
    · exact Or.inr ⟨_, h, rfl⟩
  obtain ⟨r, hrun, rfl⟩ := Loop.run_total (fun it => ring.size - it) hstep
    hinit (show ring.size - 0 < fuel by omega)
  exact runLoop_of_run hrun

/-! ## The walk -/

/-- The nodes that the walk still has ahead, to the end of its second
round. -/
def WalkState.path (ring : NodeList) (st : WalkState) : List Node :=
  ring.nodes.drop st.iterator ++ if st.looped then [] else ring.nodes

/-- The nodes that the walk will have found when it ends. -/
def WalkState.target (ring : NodeList) (st : WalkState) : List Node :=
  st.nodes.nodes ++ ((Clockwise.firsts Node.addr (st.nodes.nodes.map Node.addr)
    (st.path ring)).take st.left).map copyNode

/-- Adding a node marks its server as seen. -/
theorem firsts_add (list : NodeList) (node : Node) (path : List Node) :
    Clockwise.firsts Node.addr ((nodeListAdd list node).nodes.map Node.addr)
        path =
      Clockwise.firsts Node.addr (node.addr :: list.nodes.map Node.addr)
        path := by
  refine Clockwise.firsts_congr Node.addr ?_ path
  intro b
  rw [nodeListAdd_nodes, List.map_append, List.mem_append, List.mem_cons,
    List.map_singleton, List.mem_singleton, copyNode_addr, or_comm]

/-- Looking at one node does not change the target: it is taken when its
server is new, and skipped when it is not. -/
theorem target_step (nodes : NodeList) {left : Nat} (hleft : left ≠ 0)
    (node : Node) (path : List Node) :
    nodes.nodes ++ ((Clockwise.firsts Node.addr (nodes.nodes.map Node.addr)
        (node :: path)).take left).map copyNode =
      (if nodeListContains nodes node then nodes
        else nodeListAdd nodes node).nodes ++
        ((Clockwise.firsts Node.addr
          ((if nodeListContains nodes node then nodes
            else nodeListAdd nodes node).nodes.map Node.addr) path).take
          (if nodeListContains nodes node then left else left - 1)).map
            copyNode := by
  have hmem := nodeListContains_iff nodes node
  by_cases hc : nodeListContains nodes node
  · rw [if_pos hc, if_pos hc, Clockwise.firsts, if_pos (hmem.mp hc)]
  · have hnew : node.addr ∉ nodes.nodes.map Node.addr := fun h => hc (hmem.mpr h)
    obtain ⟨k, rfl⟩ : ∃ k, left = k + 1 := ⟨left - 1, by omega⟩
    rw [if_neg hc, if_neg hc, firsts_add, Clockwise.firsts, if_neg hnew,
      List.take_succ_cons, List.map_cons, nodeListAdd_nodes,
      List.append_assoc, List.singleton_append, Nat.add_sub_cancel]

/-- What one pass of the walk does: it keeps the target and shortens the path,
or it ends with the target. -/
theorem walkBody_spec {ring : NodeList} {st : WalkState}
    (hit : st.iterator < ring.size) :
    (∃ st', walkBody ring st = .again st' ∧ st'.iterator < ring.size ∧
      st'.target ring = st.target ring ∧
      (st'.path ring).length < (st.path ring).length) ∨
    ∃ nodes, walkBody ring st = .done (.ok nodes) ∧
      nodes.nodes = st.target ring := by
  have hlt : st.iterator < ring.nodes.length := hit
  have hsize : ring.size = ring.nodes.length := rfl
  have hdrop := List.drop_eq_getElem_cons hlt
  by_cases hleft : st.left = 0
  · right
    refine ⟨st.nodes, ?_, ?_⟩
    · rw [walkBody, if_pos hleft]
    · simp [WalkState.target, hleft]
  · have htarget := target_step st.nodes hleft
      ring.nodes[st.iterator]
      (ring.nodes.drop (st.iterator + 1) ++
        if st.looped then [] else ring.nodes)
    have hpath : st.path ring = ring.nodes[st.iterator] ::
        (ring.nodes.drop (st.iterator + 1) ++
          if st.looped then [] else ring.nodes) := by
      rw [WalkState.path, hdrop, List.cons_append]
    rw [walkBody, if_neg hleft, List.getElem?_eq_getElem hlt]
    simp only
    by_cases hend : st.iterator + 1 ≥ ring.size
    · have hnil : ring.nodes.drop (st.iterator + 1) = [] :=
        List.drop_eq_nil_of_le hend
      rw [if_pos hend]
      by_cases hloop : st.looped
      · -- The second round is over: nothing is left ahead.
        right
        rw [if_pos hloop]
        refine ⟨_, rfl, ?_⟩
        rw [WalkState.target, hpath, htarget, hnil, hloop]
        simp [Clockwise.firsts]
      · left
        rw [if_neg hloop]
        refine ⟨_, rfl, by simp only; omega, ?_, ?_⟩
        · rw [WalkState.target, WalkState.target, hpath, htarget, hnil]
          simp [WalkState.path, hloop]
        · rw [hpath, hnil]
          simp [WalkState.path, hloop]
    · left
      rw [if_neg hend]
      refine ⟨_, rfl, by simp only; omega, ?_, ?_⟩
      · rw [WalkState.target, WalkState.target, hpath, htarget]
        rfl
      · rw [hpath, List.length_cons]
        exact Nat.lt_succ_self _

/-- The walk ends with its target. -/
theorem runLoop_walkBody {ring : NodeList} (st : WalkState) {fuel : Nat}
    (hit : st.iterator < ring.size)
    (hfuel : (st.path ring).length < fuel) :
    ∃ nodes, runLoop (walkBody ring) fuel st = .ok nodes ∧
      nodes.nodes = st.target ring := by
  have hstep : ∀ s : WalkState,
      s.iterator < ring.size ∧ s.target ring = st.target ring →
      (∃ s', walkBody ring s = .again s' ∧
        (s'.iterator < ring.size ∧ s'.target ring = st.target ring) ∧
        (s'.path ring).length < (s.path ring).length) ∨
      ∃ r, walkBody ring s = .done r ∧
        ∃ nodes, r = .ok nodes ∧ nodes.nodes = st.target ring := by
    rintro s ⟨hs, ht⟩
    rcases walkBody_spec hs with ⟨s', h, hs', ht', hlt⟩ | ⟨nodes, h, hn⟩
    · exact Or.inl ⟨s', h, ⟨hs', ht'.trans ht⟩, hlt⟩
    · exact Or.inr ⟨_, h, nodes, rfl, hn.trans ht⟩
  obtain ⟨r, hrun, nodes, rfl, hnodes⟩ :=
    Loop.run_total (fun s : WalkState => (s.path ring).length) hstep ⟨hit, rfl⟩
      hfuel
  exact ⟨nodes, runLoop_of_run hrun, hnodes⟩

end PpsDht
