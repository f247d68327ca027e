import PpsDht.RingReplicas
import PpsDht.Lib.FineOrder

/-!
# Does the ring follow the order of the digests?

`node_cmp_sha` and the search of `ring_get_nodes_for_key` compare digests with
`strcmp`, up to the first zero byte.  `FollowsDigests` is what they are for:
the ring is in the order of all the bytes of the digests, and the first node of
a key is its successor in that order.

`strcmp` orders digests of one length as all their bytes do, except that it can
take different digests for equal.  `followsDigests_iff` says which lists and
keys notice.
-/

namespace PpsDht

open CMem

/-- The bytes of a digest as unsigned numbers, which are compared one after the
other. -/
def digestKey (sha : List UInt8) : List Nat := sha.map UInt8.toNat

/-- The whole digest of a node. -/
def Node.digest (node : Node) : List Nat := digestKey node.sha

/-- The node at which the search stops: `ring->nodes[iterator]`. -/
def searchedNode (env : Env) (ring : NodeList) (key : CString) :
    Except Fault Node :=
  match runLoop (searchBody ring (env.SHA1 key.bytes)) (ring.size + 1) 0 with
  | .error fault => .error fault
  | .ok iterator =>
    match ring.nodes[iterator]? with
    | none => .error .outOfBounds
    | some node => .ok node

/-- The sorted list is in the order of the digests, and the first node for the
key is the one with the least digest that is not smaller than that of the key,
or with the least of all if there is none. -/
structure FollowsDigests (env : Env) (list : NodeList) (key : CString) :
    Prop where
  sorted : (nodeListSort list nodeCmpSha).nodes.Pairwise
    (fun a b => a.digest ≤ b.digest)
  first : ∃ node ∈ list.nodes,
    searchedNode env (nodeListSort list nodeCmpSha) key = .ok node ∧
      FineOrder.IsSuccessor Node.digest (digestKey (env.SHA1 key.bytes))
        list.nodes node ∧
      ∀ n, 1 ≤ n → ∃ nodes,
        ringGetNodesForKey env (nodeListSort list nodeCmpSha) n key =
          .ok (some nodes) ∧ nodes.nodes.head? = some (copyNode node)

/-- Where `strcmp` takes two digests for equal, the list has them in order, and
the digest of the key is not behind one of them; or `strcmp` takes all digests
for equal to that of the key, and they are smaller. -/
structure DigestsCompare (env : Env) (list : NodeList) (key : CString) :
    Prop where
  nonempty : list.nodes ≠ []
  ties : list.nodes.Pairwise
    (fun a b => strcmp a.sha b.sha = 0 → a.digest ≤ b.digest)
  key : (∀ node ∈ list.nodes, strcmp (env.SHA1 key.bytes) node.sha = 0 →
      digestKey (env.SHA1 key.bytes) ≤ node.digest) ∨
    ∀ node ∈ list.nodes, strcmp (env.SHA1 key.bytes) node.sha = 0 ∧
      node.digest < digestKey (env.SHA1 key.bytes)

/-! ## The search -/

/-- The search stops at the first node for the key. -/
theorem searchedNode_first (env : Env) {ring : NodeList}
    (hne : ring.nodes ≠ []) (key : CString) :
    ∃ node, ring.nodes[Clockwise.start Node.pos (strKey (env.SHA1 key.bytes))
        ring.nodes]? = some node ∧
      searchedNode env ring key = .ok node ∧
      ∀ n, 1 ≤ n → ∃ nodes,
        ringGetNodesForKey env ring n key = .ok (some nodes) ∧
          nodes.nodes.head? = some (copyNode node) := by
  have hlt : Clockwise.start Node.pos (strKey (env.SHA1 key.bytes))
      ring.nodes < ring.nodes.length := Clockwise.start_lt Node.pos hne
  have hget := List.getElem?_eq_getElem hlt
  refine ⟨_, hget, ?_, ?_⟩
  · rw [searchedNode, runLoop_searchBody hne _ (Nat.lt_succ_self _),
      ringStart_eq]
    simp only [hget]
  · intro n hn
    obtain ⟨nodes, hrun, hnodes⟩ :=
      ringGetNodesForKey_replicas env hne (by omega : n ≠ 0) key
    refine ⟨nodes, hrun, ?_⟩
    rw [hnodes, List.head?_map, replicasOf,
      Clockwise.head?_replicas Node.pos Node.addr _ hn, hget]
    rfl

theorem searchedNode_nil (env : Env) {ring : NodeList}
    (hnil : ring.nodes = []) (key : CString) :
    searchedNode env ring key = .error .outOfBounds := by
  have hbody : searchBody ring (env.SHA1 key.bytes) 0 =
      .done (.error .outOfBounds) := by
    rw [searchBody, hnil]
    rfl
  have hsearch := runLoop_of_run (Loop.run_succ_done ring.size hbody)
  rw [searchedNode, hsearch]

/-! ## The order -/

/-- Digests of one length that `strcmp` tells apart are in the order of all
their bytes. -/
theorem refines_digest {nodes : List Node}
    (hlen : ∀ node ∈ nodes, node.sha.length = 20) :
    FineOrder.Refines Node.pos Node.digest nodes := by
  intro a ha b hb hlt
  exact map_toNat_lt_of_strKey_lt ((hlen a ha).trans (hlen b hb).symm) hlt

/-- When the sorted list is in the order of the digests. -/
theorem pairwise_digest_iff {list : NodeList}
    (hlen : ∀ node ∈ list.nodes, node.sha.length = 20) :
    (nodeListSort list nodeCmpSha).nodes.Pairwise
        (fun a b => a.digest ≤ b.digest) ↔
      list.nodes.Pairwise
        (fun a b => strcmp a.sha b.sha = 0 → a.digest ≤ b.digest) := by
  simp only [strcmp_eq_zero_iff_strKey]
  rw [nodeListSort_nodes]
  exact FineOrder.pairwise_fine_sortByPos Node.pos Node.digest
    (refines_digest hlen)

theorem mem_nodeListSort (list : NodeList) (node : Node) :
    node ∈ (nodeListSort list nodeCmpSha).nodes ↔ node ∈ list.nodes := by
  rw [nodeListSort_nodes]
  exact List.mem_mergeSort

/-- When the first node for the key is its successor, in a list that is in the
order of the digests. -/
theorem first_isSuccessor_iff (env : Env) {list : NodeList} {key : CString}
    (hsha : ∀ text, (env.SHA1 text).length = 20)
    (hlen : ∀ node ∈ list.nodes, node.sha.length = 20)
    (hfine : (nodeListSort list nodeCmpSha).nodes.Pairwise
      (fun a b => a.digest ≤ b.digest)) {node : Node}
    (hstart : (nodeListSort list nodeCmpSha).nodes[Clockwise.start Node.pos
      (strKey (env.SHA1 key.bytes)) (nodeListSort list nodeCmpSha).nodes]? =
        some node) :
    FineOrder.IsSuccessor Node.digest (digestKey (env.SHA1 key.bytes))
        list.nodes node ↔
      (∀ node ∈ list.nodes, strcmp (env.SHA1 key.bytes) node.sha = 0 →
        digestKey (env.SHA1 key.bytes) ≤ node.digest) ∨
      ∀ node ∈ list.nodes, strcmp (env.SHA1 key.bytes) node.sha = 0 ∧
        node.digest < digestKey (env.SHA1 key.bytes) := by
  have hmem := mem_nodeListSort list
  have hiff := FineOrder.start_isSuccessor_iff Node.pos Node.digest hfine
    (fun a ha b hb =>
      refines_digest hlen a ((hmem a).mp ha) b ((hmem b).mp hb))
    (k := digestKey (env.SHA1 key.bytes))
    (fun b hb hlt => map_toNat_lt_of_strKey_lt
      ((hsha _).trans (hlen b ((hmem b).mp hb)).symm) hlt)
    (fun b hb hlt => map_toNat_lt_of_strKey_lt
      ((hlen b ((hmem b).mp hb)).trans (hsha _).symm) hlt) hstart
  simp only [FineOrder.IsSuccessor, hmem] at hiff
  simp only [strcmp_eq_zero_iff_strKey,
    eq_comm (a := strKey (env.SHA1 key.bytes))]
  exact hiff

/-- When the ring follows the order of the digests. -/
theorem followsDigests_iff (env : Env) (list : NodeList) (key : CString)
    (hsha : ∀ text, (env.SHA1 text).length = 20)
    (hlen : ∀ node ∈ list.nodes, node.sha.length = 20) :
    FollowsDigests env list key ↔ DigestsCompare env list key := by
  have hmem := mem_nodeListSort list
  have hsorted := pairwise_digest_iff hlen
  by_cases hne : list.nodes = []
  · -- The empty ring has no first node.
    have hring : (nodeListSort list nodeCmpSha).nodes = [] := by
      rw [List.eq_nil_iff_forall_not_mem]
      intro node hnode
      rw [hmem, hne] at hnode
      exact List.not_mem_nil hnode
    constructor
    · rintro ⟨_, node, _, hnode, _⟩
      rw [searchedNode_nil env hring] at hnode
      cases hnode
    · exact fun h => absurd hne h.nonempty
  have hring : (nodeListSort list nodeCmpSha).nodes ≠ [] := by
    obtain ⟨node, hnode⟩ := List.exists_mem_of_ne_nil _ hne
    exact List.ne_nil_of_mem ((hmem node).mpr hnode)
  obtain ⟨node, hstart, hsearch, hfirst⟩ := searchedNode_first env hring key
  have hnode : node ∈ list.nodes := (hmem node).mp (List.mem_of_getElem? hstart)
  constructor
  · rintro ⟨hfine, node', _, hsearch', hsucc, _⟩
    rw [hsearch] at hsearch'
    cases hsearch'
    exact ⟨hne, hsorted.mp hfine,
      (first_isSuccessor_iff env hsha hlen hfine hstart).mp hsucc⟩
  · rintro ⟨_, hties, hkey⟩
    have hfine := hsorted.mpr hties
    exact ⟨hfine, node, hnode, hsearch,
      (first_isSuccessor_iff env hsha hlen hfine hstart).mpr hkey, hfirst⟩

/-- Two nodes with the given digests. -/
def twoNodes (sha sha' : List UInt8) : NodeList where
  nodes := [{ addr := ⟨1, 1⟩, id := 1, sha := sha },
    { addr := ⟨2, 1⟩, id := 1, sha := sha' }]
  allocatedSize := allocatedMemoryList
  fits := (by decide : 2 ≤ 32)

/-- A digest of 20 bytes that starts with `first` and ends with `last`. -/
def digestOf (first last : UInt8) : List UInt8 :=
  first :: List.replicate 18 first ++ [last]

/-- Digests without a zero byte. -/
theorem followsDigests_iff_nonzero :
    FollowsDigests { SHA1 := fun _ => digestOf 3 3, pastSpace := [] }
      (twoNodes (digestOf 2 2) (digestOf 4 4)) (lit ['k']) :=
  (followsDigests_iff { SHA1 := fun _ => digestOf 3 3, pastSpace := [] }
    (twoNodes (digestOf 2 2) (digestOf 4 4)) (lit ['k']) (fun _ => rfl)
    (by decide)).mpr ⟨by decide, by decide, by decide⟩

/-- Digests that start with a zero byte stay in the order of the list. -/
theorem digests_misordered :
    ¬ ∀ (env : Env) (list : NodeList) (key : CString), list.nodes ≠ [] →
      (∀ text, (env.SHA1 text).length = 20) →
      (∀ node ∈ list.nodes, node.sha.length = 20) →
      FollowsDigests env list key := by
  intro h
  have hsorted := (h { SHA1 := fun _ => digestOf 3 3, pastSpace := [] }
    (twoNodes (digestOf 0 2) (digestOf 0 1)) (lit ['k']) (by decide)
    (fun _ => rfl) (by decide)).sorted
  rw [pairwise_digest_iff (by decide)] at hsorted
  exact absurd hsorted (by decide)

end PpsDht
