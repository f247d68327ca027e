import PpsDht.RingReplicas
import PpsDht.ServersFile

/-!
# Agreement on placement

Two clients read servers files with the same lines in different orders.  Each
sorts its nodes with `node_cmp_sha`, which compares digests up to their first
zero byte only, so nodes with different digests can be at one position, and
there they stay in the order of the file.

`serversAt` is what the order of a file can show: the servers of the nodes at
one position, each once.  `samePlacement_iff` says that the clients agree on
every key exactly when their files agree on `serversAt`.
-/

namespace PpsDht

open CMem

/-- The servers that `ring_get_nodes_for_key` finds, in order. -/
def serversForKey (env : Env) (ring : NodeList) (n : Nat) (key : CString) :
    Except Fault (Option (List SockAddr)) :=
  (ringGetNodesForKey env ring n key).map
    (Option.map (fun list => list.nodes.map Node.addr))

/-- Two rings find the same servers for every key, in the same order. -/
def SamePlacement (env : Env) (ring ring' : NodeList) : Prop :=
  ∀ (key : CString) (n : Nat), 1 ≤ n →
    serversForKey env ring n key = serversForKey env ring' n key

/-- The servers of the nodes at one position, in the order of the file. -/
def serversAt (env : Env) (lines : List ServerLine) (pos : List Nat) :
    List SockAddr :=
  Clockwise.ownersOf Node.addr
    (Clockwise.group Node.pos pos (lineNodes env lines))

/-- The ring of a file. -/
def ringOf (env : Env) (lines : List ServerLine) : NodeList :=
  nodeListSort (nodeListAddAll nodeListNew (lineNodes env lines)) nodeCmpSha

theorem ringInit_lines (env : Env) (lines : List ServerLine) {fuel : Nat}
    (hfuel : fileFuel lines ≤ fuel) (ring : NodeList) :
    ringInit env fuel (some (fileText lines)) ring =
      .ok (.ERR_NONE, ringOf env lines) := by
  rw [ringInit, getNodes_lines env lines hfuel]
  rfl

theorem ringOf_nodes (env : Env) (lines : List ServerLine) :
    (ringOf env lines).nodes = Clockwise.sortByPos Node.pos
      ((lineNodes env lines).map copyNode) := by
  rw [ringOf, nodeListSort_nodes, nodeListAddAll_nodes, nodeListNew_nodes,
    List.nil_append]

/-- Every line has a node. -/
theorem lineNodes_ne_nil (env : Env) {lines : List ServerLine}
    (h : lines ≠ []) : lineNodes env lines ≠ [] := by
  obtain ⟨line, rest, rfl⟩ := List.exists_cons_of_ne_nil h
  intro hnil
  rw [lineNodes, List.flatMap_eq_nil_iff] at hnil
  have hnodes := hnil line List.mem_cons_self
  have hlen := congrArg List.length hnodes
  rw [ServerLine.nodes, List.length_map, List.length_reverse,
    List.length_range, List.length_nil] at hlen
  exact line.count_pos.ne' hlen

/-- The copy in a list is at the position of the node. -/
theorem copyNode_pos (node : Node) : (copyNode node).pos = node.pos := by
  rw [Node.pos, Node.pos, strKey, strKey, copyNode]
  simp only
  rw [cstr_append_zero]

/-- What `ring_get_nodes_for_key` finds on the ring of a file. -/
theorem serversForKey_ringOf (env : Env) {lines : List ServerLine}
    (hne : lines ≠ []) {n : Nat} (hn : 1 ≤ n) (key : CString) :
    serversForKey env (ringOf env lines) n key =
      .ok (some ((Clockwise.replicas Node.pos Node.addr
        (strKey (env.SHA1 key.bytes)) n (Clockwise.sortByPos Node.pos
          ((lineNodes env lines).map copyNode))).map Node.addr)) := by
  have hring : (ringOf env lines).nodes ≠ [] := by
    intro hnil
    have hlen := congrArg List.length hnil
    rw [ringOf_nodes, Clockwise.sortByPos, List.length_mergeSort,
      List.length_map] at hlen
    exact lineNodes_ne_nil env hne (List.length_eq_zero_iff.mp hlen)
  obtain ⟨list, hrun, hlist⟩ :=
    ringGetNodesForKey_replicas env hring (by omega : n ≠ 0) key
  rw [serversForKey, hrun, ← ringOf_nodes]
  show Except.ok (some (list.nodes.map Node.addr)) = _
  rw [hlist, map_addr_copyNode]
  rfl

/-- The copies of the nodes at a position have the same servers. -/
theorem ownersOf_group_copies (env : Env) (lines : List ServerLine)
    (pos : List Nat) :
    Clockwise.ownersOf Node.addr (Clockwise.group Node.pos pos
        ((lineNodes env lines).map copyNode)) = serversAt env lines pos := by
  rw [Clockwise.group_map, Clockwise.ownersOf_map]
  simp only [copyNode_pos, copyNode_addr]
  rfl

/-- Files that list the same servers at every position give the same
placement. -/
theorem samePlacement_of_serversAt (env : Env) {lines lines' : List ServerLine}
    (hperm : lines.Perm lines')
    (h : ∀ pos, serversAt env lines pos = serversAt env lines' pos) :
    SamePlacement env (ringOf env lines) (ringOf env lines') := by
  intro key n hn
  by_cases hne : lines = []
  · rw [hne] at hperm
    rw [hne, List.nil_perm.mp hperm]
  · have hne' : lines' ≠ [] := fun hnil => hne (List.perm_nil.mp (hnil ▸ hperm))
    rw [serversForKey_ringOf env hne hn, serversForKey_ringOf env hne' hn,
      Clockwise.owners_replicas_congr]
    intro pos
    rw [ownersOf_group_copies, ownersOf_group_copies, h pos]

/-- The same nodes stand at a position. -/
theorem group_perm (env : Env) {lines lines' : List ServerLine}
    (h : lines.Perm lines') (pos : List Nat) :
    (Clockwise.group Node.pos pos (lineNodes env lines)).Perm
      (Clockwise.group Node.pos pos (lineNodes env lines')) :=
  (h.flatMap_right _).filter _

/-- The text of a node is a key with the digest of the node, so the first
servers for it show the order at that position. -/
theorem serversAt_of_samePlacement (env : Env) {lines lines' : List ServerLine}
    (hperm : lines.Perm lines')
    (h : SamePlacement env (ringOf env lines) (ringOf env lines'))
    (pos : List Nat) : serversAt env lines pos = serversAt env lines' pos := by
  have hnodes := group_perm env hperm pos
  by_cases hgroup : Clockwise.group Node.pos pos (lineNodes env lines) = []
  · rw [hgroup] at hnodes
    rw [serversAt, serversAt, hgroup, List.nil_perm.mp hnodes]
  · have hlength : (serversAt env lines pos).length =
        (serversAt env lines' pos).length := by
      rw [serversAt, serversAt, Clockwise.length_ownersOf,
        Clockwise.length_ownersOf, (hnodes.map _).dedup.length_eq]
    obtain ⟨node, hmem⟩ := List.exists_mem_of_ne_nil _ hgroup
    obtain ⟨hnode, hpos⟩ := (Clockwise.mem_group Node.pos).mp hmem
    obtain ⟨line, hline, hid⟩ := List.mem_flatMap.mp hnode
    obtain ⟨i, _, rfl⟩ := List.mem_map.mp hid
    have hkey : strKey (env.SHA1 (nodeText env line.ip
        (UInt16.ofNat line.port.value) (i + 1)).bytes) = pos := hpos
    have hlen : 1 ≤ (serversAt env lines pos).length := by
      refine List.length_pos_iff.mpr (List.ne_nil_of_mem (a := line.addr) ?_)
      rw [serversAt, Clockwise.mem_ownersOf]
      exact List.mem_map_of_mem hmem
    have hne : lines ≠ [] := List.ne_nil_of_mem hline
    have hne' : lines' ≠ [] := List.ne_nil_of_mem (hperm.mem_iff.mp hline)
    have hsame := h (nodeText env line.ip (UInt16.ofNat line.port.value)
      (i + 1)) _ hlen
    rw [serversForKey_ringOf env hne hlen, serversForKey_ringOf env hne' hlen,
      hkey] at hsame
    have hleft := Clockwise.owners_replicas_group Node.pos Node.addr pos
      ((lineNodes env lines).map copyNode)
    have hright := Clockwise.owners_replicas_group Node.pos Node.addr pos
      ((lineNodes env lines').map copyNode)
    rw [ownersOf_group_copies] at hleft hright
    rw [← hlength] at hright
    rw [← hleft, ← hright]
    exact Option.some.inj (Except.ok.inj hsame)

/-- Where the digests of different servers differ before their first zero
byte, the order of the lines does not show. -/
theorem serversAt_congr (env : Env) {lines lines' : List ServerLine}
    (hperm : lines.Perm lines')
    (h : ∀ a ∈ lineNodes env lines, ∀ b ∈ lineNodes env lines,
      a.pos = b.pos → a.addr = b.addr) (pos : List Nat) :
    serversAt env lines pos = serversAt env lines' pos := by
  have hnodes := group_perm env hperm pos
  rw [serversAt, serversAt]
  cases hgroup : Clockwise.group Node.pos pos (lineNodes env lines) with
  | nil =>
    rw [hgroup] at hnodes
    rw [List.nil_perm.mp hnodes]
  | cons node rest =>
    have hnode : node ∈ Clockwise.group Node.pos pos (lineNodes env lines) :=
      hgroup ▸ List.mem_cons_self
    have hone : ∀ b ∈ Clockwise.group Node.pos pos (lineNodes env lines),
        b.addr = node.addr := by
      intro b hb
      obtain ⟨hnode, hpos⟩ := (Clockwise.mem_group Node.pos).mp hnode
      obtain ⟨hb, hposb⟩ := (Clockwise.mem_group Node.pos).mp hb
      exact h b hb node hnode (hposb.trans hpos.symm)
    have hne : Clockwise.group Node.pos pos (lineNodes env lines') ≠ [] :=
      List.ne_nil_of_mem (hnodes.mem_iff.mp hnode)
    rw [← hgroup, Clockwise.ownersOf_eq_singleton Node.addr
        (List.ne_nil_of_mem hnode) hone,
      Clockwise.ownersOf_eq_singleton Node.addr hne
        (fun b hb => hone b (hnodes.mem_iff.mpr hb))]

/-- Two clients whose servers files have the same lines agree on the servers of
every key exactly when, for every position, the files list its servers in the
same order. -/
theorem samePlacement_iff (env : Env) (lines lines' : List ServerLine)
    (hperm : lines.Perm lines') (ring : NodeList) :
    ∃ ring₁ ring₂,
      (∀ fuel, fileFuel lines ≤ fuel →
        ringInit env fuel (some (fileText lines)) ring =
          .ok (.ERR_NONE, ring₁)) ∧
      (∀ fuel, fileFuel lines' ≤ fuel →
        ringInit env fuel (some (fileText lines')) ring =
          .ok (.ERR_NONE, ring₂)) ∧
      (SamePlacement env ring₁ ring₂ ↔
        ∀ pos, serversAt env lines pos = serversAt env lines' pos) := by
  refine ⟨ringOf env lines, ringOf env lines', ?_, ?_, ?_⟩
  · intro fuel hfuel
    exact ringInit_lines env lines hfuel ring
  · intro fuel hfuel
    exact ringInit_lines env lines' hfuel ring
  · exact ⟨serversAt_of_samePlacement env hperm,
      samePlacement_of_serversAt env hperm⟩

/-! ## Two servers -/

/-- The number 1 in decimal. -/
def one : Numeral where
  digits := [49]
  ne := List.cons_ne_nil _ _
  isdigits := by
    intro d hd
    rw [List.mem_singleton.mp hd]
    rfl

/-- One blank. -/
def blank : Blanks where
  bytes := [32]
  ne := List.cons_ne_nil _ _
  isblanks := by
    intro c hc
    rw [List.mem_singleton.mp hc]
    decide

/-- A line with port 1 and one node. -/
def lineOf (ip : CString) (h : (inetPton ip).isSome = true) : ServerLine where
  ip := ip
  gap := blank
  port := one
  gap' := blank
  count := one
  comment := []
  isAddr := h
  port_lt := by decide
  count_pos := by decide
  count_lt := by decide
  comment_blank := by simp
  comment_line := List.not_mem_nil

/-- The servers `1.1.1.1` and `2.2.2.2`. -/
def twoLines : List ServerLine :=
  [lineOf (lit ['1', '.', '1', '.', '1', '.', '1']) (by decide),
    lineOf (lit ['2', '.', '2', '.', '2', '.', '2']) (by decide)]

/-- Digests of 20 bytes that start with `first` and end with the first byte of
the text. -/
def digestEnv (first : UInt8 → UInt8) : Env where
  SHA1 text := first (text.headD 0) :: List.replicate 18 0 ++ [text.headD 0]
  pastSpace := []

/-- Digests that differ in their first byte: the order of the lines does not
matter. -/
theorem samePlacement_iff_two : ∃ ring₁ ring₂,
    (∀ fuel, fileFuel twoLines ≤ fuel →
      ringInit (digestEnv id) fuel (some (fileText twoLines)) nodeListNew =
        .ok (.ERR_NONE, ring₁)) ∧
    (∀ fuel, fileFuel twoLines.reverse ≤ fuel →
      ringInit (digestEnv id) fuel (some (fileText twoLines.reverse))
        nodeListNew = .ok (.ERR_NONE, ring₂)) ∧
    SamePlacement (digestEnv id) ring₁ ring₂ := by
  have hperm := (List.reverse_perm twoLines).symm
  obtain ⟨ring₁, ring₂, h₁, h₂, hsame⟩ := samePlacement_iff (digestEnv id)
    twoLines twoLines.reverse hperm nodeListNew
  exact ⟨ring₁, ring₂, h₁, h₂,
    hsame.mpr (serversAt_congr (digestEnv id) hperm (by decide))⟩

/-- Different digests that start with a zero byte are at one position, and the
order of the lines shows. -/
theorem placement_differs :
    ¬ ∀ (env : Env) (lines lines' : List ServerLine), lines.Perm lines' →
      (∀ text, (env.SHA1 text).length = 20) →
      ((lineNodes env lines).map Node.sha).Nodup →
      ∀ ring ring₁ ring₂ fuel fuel',
        ringInit env fuel (some (fileText lines)) ring =
          .ok (.ERR_NONE, ring₁) →
        ringInit env fuel' (some (fileText lines')) ring =
          .ok (.ERR_NONE, ring₂) →
        SamePlacement env ring₁ ring₂ := by
  intro h
  have hperm := (List.reverse_perm twoLines).symm
  have hsame := h (digestEnv (fun _ => 0)) twoLines twoLines.reverse hperm
    (fun _ => rfl) (by decide) nodeListNew _ _ _ _
    (ringInit_lines _ twoLines (Nat.le_refl _) nodeListNew)
    (ringInit_lines _ twoLines.reverse (Nat.le_refl _) nodeListNew)
  have hservers := serversAt_of_samePlacement _ hperm hsame []
  exact absurd hservers (by decide)

end PpsDht
