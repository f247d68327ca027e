import PpsDht.Node
import PpsDht.Lib.Comparator

/-!
# The order of the servers

`node_cmp_server_addr` returns 1 when its first argument comes second, and 0 in
every other case: it never says that the first argument comes first.  As a
three-way comparison it is therefore valid only for the nodes of one server
(`serverOrder_iff`).

Its results are still enough for a sort that only asks whether they are
positive: `grouped_nodeListSort`.
-/

namespace PpsDht

/-- The nodes of a list can be compared by their server, and sorting puts the
nodes of one server next to each other. -/
structure ServerOrder (list : NodeList) : Prop where
  consistent : Comparator.Consistent nodeCmpServerAddr Node.addr list.nodes
  grouped : Comparator.Grouped Node.addr
    (nodeListSort list nodeCmpServerAddr).nodes

theorem nodeCmpServerAddr_nonneg (n1 n2 : Node) :
    0 ≤ nodeCmpServerAddr n1 n2 := by
  unfold nodeCmpServerAddr
  split_ifs <;> decide

theorem nodeCmpServerAddr_le_iff (n1 n2 : Node) :
    nodeCmpServerAddr n1 n2 ≤ 0 ↔
      n1.addr.sAddr.toNat < n2.addr.sAddr.toNat ∨
        n1.addr.sAddr.toNat = n2.addr.sAddr.toNat ∧
          n1.addr.sinPort.toNat ≤ n2.addr.sinPort.toNat := by
  unfold nodeCmpServerAddr
  simp only [← UInt32.toNat_inj, gt_iff_lt, UInt16.lt_iff_toNat_lt,
    UInt32.lt_iff_toNat_lt]
  split_ifs <;> omega

theorem nodeCmpServerAddr_of_addr_eq {n1 n2 : Node} (h : n1.addr = n2.addr) :
    nodeCmpServerAddr n1 n2 = 0 := by
  have hle : nodeCmpServerAddr n1 n2 ≤ 0 := by
    rw [nodeCmpServerAddr_le_iff, h]
    omega
  exact le_antisymm hle (nodeCmpServerAddr_nonneg n1 n2)

/-- Two nodes that are not in the wrong order either way are of one server. -/
theorem addr_eq_of_nodeCmpServerAddr {n1 n2 : Node}
    (h : nodeCmpServerAddr n1 n2 ≤ 0) (h' : nodeCmpServerAddr n2 n1 ≤ 0) :
    n1.addr = n2.addr := by
  rw [nodeCmpServerAddr_le_iff] at h h'
  have haddr : n1.addr.sAddr = n2.addr.sAddr := UInt32.toNat_inj.mp (by omega)
  have hport : n1.addr.sinPort = n2.addr.sinPort :=
    UInt16.toNat_inj.mp (by omega)
  cases hn1 : n1.addr
  cases hn2 : n2.addr
  rw [hn1, hn2] at haddr hport
  exact congrArg₂ SockAddr.mk haddr hport

/-- The sort puts the virtual nodes of one server next to each other. -/
theorem grouped_nodeListSort (list : NodeList) :
    Comparator.Grouped Node.addr
      (nodeListSort list nodeCmpServerAddr).nodes := by
  refine Comparator.grouped_mergeSort ?_ ?_ ?_ ?_ list.nodes
  · intro a b c hab hbc
    rw [nodeCmpServerAddr_le_iff] at hab hbc ⊢
    omega
  · intro a b
    rw [nodeCmpServerAddr_le_iff, nodeCmpServerAddr_le_iff]
    omega
  · intro a b hab hba
    exact addr_eq_of_nodeCmpServerAddr hab hba
  · intro a b h
    exact (nodeCmpServerAddr_of_addr_eq h).le

/-- The comparison is a valid one on the nodes of a single server only. -/
theorem serverOrder_iff (list : NodeList) :
    ServerOrder list ↔
      ∀ a ∈ list.nodes, ∀ b ∈ list.nodes, a.addr = b.addr := by
  have hconsistent : Comparator.Consistent nodeCmpServerAddr Node.addr
      list.nodes ↔ ∀ a ∈ list.nodes, ∀ b ∈ list.nodes, a.addr = b.addr :=
    Comparator.consistent_iff_of_nonneg nodeCmpServerAddr_nonneg
      (fun _ _ => nodeCmpServerAddr_of_addr_eq)
  constructor
  · intro h
    exact hconsistent.mp h.consistent
  · intro h
    exact { consistent := hconsistent.mpr h,
            grouped := grouped_nodeListSort list }

/-- Two servers, and the comparison says that neither comes first. -/
theorem serverOrder_twoServers : ¬ ∀ list : NodeList, ServerOrder list := by
  intro h
  let first : Node := { addr := ⟨1, 0⟩, id := 1, sha := [] }
  let second : Node := { addr := ⟨2, 0⟩, id := 1, sha := [] }
  have horder := h { nodes := [first, second], allocatedSize := 2,
                     fits := Nat.le_refl 2 }
  have hswap := horder.consistent.swap first List.mem_cons_self second
    (List.mem_cons_of_mem first List.mem_cons_self)
  exact absurd hswap (by decide)

end PpsDht
