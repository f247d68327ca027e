import PpsDht.ServersFile

/-!
# What a list of nodes keeps

`node_list_add` copies each node.  Its address and id are kept; its digest is
copied with `strcpy`, so a zero byte in the digest ends the copy.  `Intact`
says that a list has every added node with all 20 bytes of its digest, and
`nodeListAddAll_intact_iff` when a run of additions leaves the list so.
-/

namespace PpsDht

open CMem

/-- The entry of a list that `node` was added to. -/
structure IntactNode (entry node : Node) : Prop where
  addr : entry.addr = node.addr
  id : entry.id = node.id
  digest : entry.sha.take 20 = node.sha.take 20

/-- The list has room for its nodes, and they are the added ones. -/
structure Intact (list : NodeList) (added : List Node) : Prop where
  fits : list.size ≤ list.allocatedSize
  entries : List.Forall₂ IntactNode list.nodes added

/-! ## One copy -/

/-- The copy of a digest stops at the first zero byte. -/
theorem copyNode_intact_iff {node : Node} (hlen : 20 ≤ node.sha.length) :
    IntactNode (copyNode node) node ↔ 0 ∉ node.sha.take 19 := by
  have hdigest := take_strcpy_iff 19 node.sha (by omega)
  constructor
  · intro h
    exact hdigest.mp h.digest
  · intro h
    exact { addr := rfl, id := rfl, digest := hdigest.mpr h }

/-! ## Runs of additions -/

theorem nodeListAddAll_entries (added : List Node) :
    (nodeListAddAll nodeListNew added).nodes = added.map copyNode := by
  rw [nodeListAddAll_nodes, nodeListNew_nodes, List.nil_append]

theorem nodeListAddAll_intact {added : List Node}
    (hlen : ∀ node ∈ added, 20 ≤ node.sha.length) :
    Intact (nodeListAddAll nodeListNew added) added ↔
      ∀ node ∈ added, 0 ∉ node.sha.take 19 := by
  have hentries : List.Forall₂ IntactNode
      (nodeListAddAll nodeListNew added).nodes added ↔
        ∀ node ∈ added, IntactNode (copyNode node) node := by
    rw [nodeListAddAll_entries, List.forall₂_map_left_iff,
      List.forall₂_same]
  constructor
  · intro h node hmem
    exact (copyNode_intact_iff (hlen node hmem)).mp
      (hentries.mp h.entries node hmem)
  · intro h
    refine { fits := (nodeListAddAll nodeListNew added).fits,
             entries := hentries.mpr ?_ }
    intro node hmem
    exact (copyNode_intact_iff (hlen node hmem)).mpr (h node hmem)

/-- After each addition of a run the list is intact exactly when no added
digest has a zero byte in front of its last byte. -/
theorem nodeListAddAll_intact_iff (added : List Node)
    (hlen : ∀ node ∈ added, 20 ≤ node.sha.length) :
    (∀ n, Intact (nodeListAddAll nodeListNew (added.take n)) (added.take n)) ↔
      ∀ node ∈ added, 0 ∉ node.sha.take 19 := by
  constructor
  · intro h
    have hall := h added.length
    rw [List.take_length] at hall
    exact (nodeListAddAll_intact hlen).mp hall
  · intro h n
    exact (nodeListAddAll_intact
      (fun node hmem => hlen node (List.mem_of_mem_take hmem))).mpr
      (fun node hmem => h node (List.mem_of_mem_take hmem))

/-- A node with the given digest. -/
def demoNode (sha : List UInt8) : Node where
  addr := ⟨1, 1⟩
  id := 1
  sha := sha

/-- More nodes than the list has slots at first, with different digests. -/
def manyNodes : List Node :=
  (List.range 40).map (fun i =>
    demoNode (UInt8.ofNat (i + 1) :: List.replicate 19 7))

/-- The list grows, and all digests are intact. -/
theorem nodeListAddAll_intact_iff_many :
    allocatedMemoryList < manyNodes.length ∧
    ∀ n, Intact (nodeListAddAll nodeListNew (manyNodes.take n))
      (manyNodes.take n) :=
  ⟨by decide, (nodeListAddAll_intact_iff manyNodes (by decide)).mpr (by decide)⟩

/-- A digest that starts with a zero byte. -/
theorem zeroDigest_truncated :
    ¬ ∀ added : List Node, (∀ node ∈ added, node.sha.length = 20) → ∀ n,
      Intact (nodeListAddAll nodeListNew (added.take n)) (added.take n) := by
  intro h
  have hall := h [demoNode (0 :: List.replicate 19 7)] (fun node hmem => by
    rw [List.mem_singleton.mp hmem]
    decide) 1
  have hentry : IntactNode (copyNode (demoNode (0 :: List.replicate 19 7)))
      (demoNode (0 :: List.replicate 19 7)) := by
    cases hall.entries with
    | cons hnode _ => exact hnode
  exact absurd hentry.digest (by decide)

end PpsDht
