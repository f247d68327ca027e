import PpsDht.ServerOrder
import PpsDht.HashtableMap
import PpsDht.Lib.Decimal

/-!
# Which servers are up

`pps-list-nodes.c`, behind `client_init`.  The nodes are sorted by server, each
of them is sent a message, and the source of every response is put into a hash
table of ten buckets, under the text of its address and port.  A node is listed
with the status `OK` when its own text is in the table.  `responses` are the
sources that `recvfrom` yields until it times out.

* `createKeyFromSockaddr_injective`: the text tells servers apart.
* `collect_get`: the table after the loop, whatever the responses are and
  wherever it stops.
* `listNodes_status`: the status of a node says whether its server responded.
* `keyFits_iff`: when the text fits the buffers that it is written to.
-/

namespace PpsDht

open CMem

/-! ## The key of a server -/

/-- `create_key_from_sockaddr`: the string in `dest`. -/
def createKeyFromSockaddr (address : SockAddr) : CString :=
  let dest := cstr [0]
  let space := lit [' ']
  let dest := strcat dest (inetNtoa address.sAddr)
  let dest := strncat dest space 2
  let portStr := cstr (decimal (ntohs address.sinPort).toNat)
  strncat dest portStr 5

/-- What `create_key_from_sockaddr` appends to `dest`: neither `strncat` cuts
its source. -/
def keyParts (address : SockAddr) : List CString :=
  [inetNtoa address.sAddr, lit [' '],
    cstr (decimal (ntohs address.sinPort).toNat)]

theorem createKeyFromSockaddr_eq_strcats (address : SockAddr) :
    createKeyFromSockaddr address = strcats (cstr [0]) (keyParts address) := by
  have hspace : firstChars 2 (lit [' ']) = lit [' '] :=
    firstChars_of_le (by decide)
  have hport : firstChars 5 (cstr (decimal (ntohs address.sinPort).toNat)) =
      cstr (decimal (ntohs address.sinPort).toNat) := by
    refine firstChars_of_le ?_
    show (cstr (decimal (ntohs address.sinPort).toNat)).bytes.length ≤ 5
    rw [bytes_cstr_decimal]
    exact length_decimal_uint16 _
  rw [createKeyFromSockaddr, strncat, strncat, hspace, hport]
  rfl

/-- The text of a server: the address and the port, with a space between
them. -/
def serverText (address : SockAddr) : List UInt8 :=
  dotted address.sAddr ++ 32 :: decimal (ntohs address.sinPort).toNat

theorem bytes_createKeyFromSockaddr (address : SockAddr) :
    (createKeyFromSockaddr address).bytes = serverText address := by
  rw [createKeyFromSockaddr_eq_strcats, bytes_strcats, keyParts]
  simp only [List.flatMap_cons, List.flatMap_nil, List.append_nil,
    bytes_cstr_decimal, bytes_inetNtoa]
  rfl

theorem blank_notMem_dotted (addr : UInt32) : 32 ∉ dotted addr := by
  intro h
  rcases isdigit_or_dot_of_mem_dotted addr 32 h with hd | hdot
  · exact absurd hd (by decide)
  · exact absurd hdot (by decide)

/-- Two servers never share a key. -/
theorem createKeyFromSockaddr_injective :
    Function.Injective createKeyFromSockaddr := by
  intro a b h
  have htext := congrArg CString.bytes h
  rw [bytes_createKeyFromSockaddr, bytes_createKeyFromSockaddr] at htext
  obtain ⟨haddr, hport⟩ := append_cons_inj (blank_notMem_dotted a.sAddr)
    (blank_notMem_dotted b.sAddr) htext
  have hsAddr := dotted_injective haddr
  have hsinPort := ntohs_injective
    (UInt16.toNat_inj.mp (decimal_injective hport))
  cases a
  cases b
  exact congrArg₂ SockAddr.mk hsAddr hsinPort

/-! ## Collecting the responses -/

/-- `"OK"`. -/
def statusOk : CString := lit ['O', 'K']

/-- `"FAIL"`. -/
def statusFail : CString := lit ['F', 'A', 'I', 'L']

/-- The table that the responses are put into. -/
def htableNodes : Store := Store.empty 10 (by decide)

/-- `add_Htable_value(*htable_nodes, key, "OK")`, for one response. -/
def addResponse (table : Store) (sourceAddress : SockAddr) : Store :=
  table.add (createKeyFromSockaddr sourceAddress) statusOk

/-- One pass of the receive loop; the state is the table and
`nbr_response`. -/
def collectBody (size : Nat) (st : Store × Nat) (sourceAddress : SockAddr) :
    Loop.Step (Store × Nat) Store :=
  let table := addResponse st.1 sourceAddress
  let nbrResponse := st.2 + 1
  if nbrResponse ≥ size then .done table else .again (table, nbrResponse)

/-- The receive loop: a timeout ends it with the table as it is. -/
def collect (size : Nat) (responses : List SockAddr) : Store :=
  Loop.feed (collectBody size) Prod.fst (htableNodes, 0) responses

/-- The loop takes responses until there are as many as nodes. -/
theorem feed_collectBody (size : Nat) : ∀ (responses : List SockAddr)
    (table : Store) (n : Nat), n < size →
    Loop.feed (collectBody size) Prod.fst (table, n) responses =
      (responses.take (size - n)).foldl addResponse table := by
  intro responses
  induction responses with
  | nil =>
    intro table n _
    rw [List.take_nil]
    rfl
  | cons source responses ih =>
    intro table n hn
    have hsucc : size - n = size - (n + 1) + 1 := by omega
    rw [hsucc, List.take_succ_cons, List.foldl_cons]
    by_cases hlast : n + 1 ≥ size
    · have hbody : collectBody size (table, n) source =
          .done (addResponse table source) := by
        rw [collectBody, if_pos hlast]
      have hrest : size - (n + 1) = 0 := by omega
      rw [Loop.feed_done hbody, hrest, List.take_zero]
      rfl
    · have hbody : collectBody size (table, n) source =
          .again (addResponse table source, n + 1) := by
        rw [collectBody, if_neg hlast]
      rw [Loop.feed_again hbody]
      exact ih _ _ (by omega)

theorem get_foldl_addResponse (key : CString) : ∀ (responses : List SockAddr)
    (table : Store),
    (responses.foldl addResponse table).get key =
      if key ∈ responses.map createKeyFromSockaddr then some statusOk
      else table.get key := by
  intro responses
  induction responses with
  | nil =>
    intro table
    exact (if_neg List.not_mem_nil).symm
  | cons source responses ih =>
    intro table
    rw [List.foldl_cons, ih, addResponse, Store.get_add, List.map_cons]
    by_cases hrest : key ∈ responses.map createKeyFromSockaddr
    · rw [if_pos hrest, if_pos (List.mem_cons_of_mem _ hrest)]
    · rw [if_neg hrest]
      by_cases hkey : key = createKeyFromSockaddr source
      · rw [if_pos hkey, if_pos (hkey ▸ List.mem_cons_self)]
      · rw [if_neg hkey, if_neg (by simp [hkey, hrest])]

/-- The table has the keys of the responses that were taken. -/
theorem collect_get {size : Nat} (hsize : 0 < size)
    (responses : List SockAddr) (address : SockAddr) :
    (collect size responses).get (createKeyFromSockaddr address) =
      if address ∈ responses.take size then some statusOk else none := by
  rw [collect, feed_collectBody size responses htableNodes 0 hsize,
    get_foldl_addResponse, Nat.sub_zero, htableNodes, Store.get_empty]
  simp only [List.mem_map_of_injective createKeyFromSockaddr_injective]

/-! ## The list of nodes -/

/-- What `main` prints of a node. -/
structure NodeReport where
  ip : CString
  port : UInt16
  sha : List UInt8
  status : CString
  deriving DecidableEq

/-- The `printf` calls for one node. -/
def reportNode (table : Store) (node : Node) : NodeReport where
  ip := inetNtoa node.addr.sAddr
  port := ntohs node.addr.sinPort
  sha := readBytes node.sha 20
  status := (table.get (createKeyFromSockaddr node.addr)).getD statusFail

/-- `main` of `pps-list-nodes`, on the nodes of the client. -/
def listNodes (list : NodeList) (responses : List SockAddr) :
    List NodeReport :=
  let sorted := nodeListSort list nodeCmpServerAddr
  let table := collect sorted.size responses
  sorted.nodes.map (reportNode table)

/-- The line of a node: its address, and whether its server is among the
sources. -/
structure Reports (sources : List SockAddr) (node : Node)
    (report : NodeReport) : Prop where
  ip : report.ip = inetNtoa node.addr.sAddr
  port : report.port = ntohs node.addr.sinPort
  status : report.status =
    if node.addr ∈ sources then statusOk else statusFail

theorem Reports.ok_iff {sources : List SockAddr} {node : Node}
    {report : NodeReport} (h : Reports sources node report) :
    report.status = statusOk ↔ node.addr ∈ sources := by
  have hne : statusFail ≠ statusOk := by decide
  rw [h.status]
  by_cases hmem : node.addr ∈ sources
  · rw [if_pos hmem]
    exact ⟨fun _ => hmem, fun _ => rfl⟩
  · rw [if_neg hmem]
    exact ⟨fun h => absurd h hne, fun h => absurd h hmem⟩

theorem size_nodeListSort (list : NodeList) (cmp : Node → Node → Int) :
    (nodeListSort list cmp).size = list.size := List.length_mergeSort _

/-- One line for each node. -/
theorem listNodes_reports (list : NodeList) (responses : List SockAddr) :
    List.Forall₂ (Reports (responses.take list.size))
      (nodeListSort list nodeCmpServerAddr).nodes
      (listNodes list responses) := by
  rw [listNodes, List.forall₂_map_right_iff, List.forall₂_same]
  intro node hnode
  have hpos : 0 < (nodeListSort list nodeCmpServerAddr).size :=
    List.length_pos_of_mem hnode
  refine { ip := rfl, port := rfl, status := ?_ }
  rw [reportNode, collect_get hpos, size_nodeListSort]
  by_cases hmem : node.addr ∈ responses.take list.size
  · rw [if_pos hmem, if_pos hmem]
    rfl
  · rw [if_neg hmem, if_neg hmem]
    rfl

/-- The nodes are listed in sorted order, one line for each.  A node is listed
as `OK` exactly when one of the responses that the loop took came from its
server: the loop takes them until a timeout, and at most as many as there are
nodes.  No two servers share a key, so the nodes of one server have one
status. -/
theorem listNodes_status (list : NodeList) (responses : List SockAddr) :
    (nodeListSort list nodeCmpServerAddr).nodes.Perm list.nodes ∧
    (listNodes list responses).length = list.size ∧
    (∀ (i : Nat) (node : Node) (report : NodeReport),
      (nodeListSort list nodeCmpServerAddr).nodes[i]? = some node →
      (listNodes list responses)[i]? = some report →
      report.ip = inetNtoa node.addr.sAddr ∧
        report.port = ntohs node.addr.sinPort ∧
        (report.status = statusOk ↔
          node.addr ∈ responses.take list.size)) ∧
    Function.Injective createKeyFromSockaddr ∧
    ∀ (i j : Nat) (node node' : Node) (report report' : NodeReport),
      (nodeListSort list nodeCmpServerAddr).nodes[i]? = some node →
      (nodeListSort list nodeCmpServerAddr).nodes[j]? = some node' →
      (listNodes list responses)[i]? = some report →
      (listNodes list responses)[j]? = some report' →
      node.addr = node'.addr → report.status = report'.status := by
  have hreports := listNodes_reports list responses
  have hat : ∀ (i : Nat) (node : Node) (report : NodeReport),
      (nodeListSort list nodeCmpServerAddr).nodes[i]? = some node →
      (listNodes list responses)[i]? = some report →
      Reports (responses.take list.size) node report := by
    intro i node report hnode hreport
    obtain ⟨hi, rfl⟩ := List.getElem?_eq_some_iff.mp hnode
    obtain ⟨hi', rfl⟩ := List.getElem?_eq_some_iff.mp hreport
    exact hreports.get hi hi'
  refine ⟨List.mergeSort_perm _ _, ?_, ?_, createKeyFromSockaddr_injective, ?_⟩
  · rw [← hreports.length_eq]
    exact size_nodeListSort list nodeCmpServerAddr
  · intro i node report hnode hreport
    have h := hat i node report hnode hreport
    exact ⟨h.ip, h.port, h.ok_iff⟩
  · intro i j node node' report report' hnode hnode' hreport hreport' haddr
    rw [(hat i node report hnode hreport).status,
      (hat j node' report' hnode' hreport').status, haddr]

/-! ## The buffers of a key -/

/-- The stores of `create_key_from_sockaddr`, by buffer. -/
structure KeyStores where
  portStr : List Write
  dest : List Write

/-- The stores of `memset`, of `strcat` and two `strncat`, and of
`sprintf`. -/
def keyStores (address : SockAddr) : KeyStores where
  portStr := stringStores 0 (cstr (decimal (ntohs address.sinPort).toNat))
  dest := (0, 0) :: strcatStores (cstr [0])
    [inetNtoa address.sAddr, firstChars 2 (lit [' ']),
      firstChars 5 (cstr (decimal (ntohs address.sinPort).toNat))]

/-- The size of `port_str` in `create_key_from_sockaddr`. -/
def keyPortSize : Nat := 5

/-- `BUFFER_LENGTH`, the size of both key buffers of `main`. -/
def keyBufferLength : Nat := 20

/-- The key is the text of the server, and no store is outside a buffer. -/
structure KeyFits (address : SockAddr) : Prop where
  portStr : ∀ w ∈ (keyStores address).portStr, w.1 < keyPortSize
  dest : ∀ w ∈ (keyStores address).dest, w.1 < keyBufferLength
  text : (createKeyFromSockaddr address).bytes = serverText address

theorem keyStores_portStr_inside (address : SockAddr) :
    (∀ w ∈ (keyStores address).portStr, w.1 < keyPortSize) ↔
      (ntohs address.sinPort).toNat < 10 ^ 4 := by
  rw [keyStores, decimalStores_inside_iff, keyPortSize,
    ← length_decimal_le_iff (show 0 < 4 by decide)]
  exact Nat.lt_succ_iff

theorem keyStores_dest_inside (address : SockAddr) :
    (∀ w ∈ (keyStores address).dest, w.1 < keyBufferLength) ↔
      (serverText address).length < keyBufferLength := by
  have hkey : strcats (cstr [0]) [inetNtoa address.sAddr,
      firstChars 2 (lit [' ']),
      firstChars 5 (cstr (decimal (ntohs address.sinPort).toNat))] =
        createKeyFromSockaddr address := rfl
  rw [keyStores, List.forall_mem_cons, strcatStores_inside_iff, hkey]
  show 0 < keyBufferLength ∧
    (createKeyFromSockaddr address).bytes.length < keyBufferLength ↔ _
  rw [bytes_createKeyFromSockaddr]
  exact and_iff_right (by decide)

/-- `port_str` has room for four digits, and `dest` for 19 characters. -/
theorem keyFits_iff (address : SockAddr) :
    KeyFits address ↔
      (ntohs address.sinPort).toNat < 10 ^ 4 ∧
        (dotted address.sAddr).length +
          (decimal (ntohs address.sinPort).toNat).length ≤ 18 := by
  have hlen : (serverText address).length = (dotted address.sAddr).length +
      ((decimal (ntohs address.sinPort).toNat).length + 1) := by
    rw [serverText, List.length_append, List.length_cons]
  have hport := keyStores_portStr_inside address
  have hdest := keyStores_dest_inside address
  rw [hlen, keyBufferLength] at hdest
  constructor
  · intro h
    have hlt := hdest.mp h.dest
    exact ⟨hport.mp h.portStr, by omega⟩
  · rintro ⟨hlt, hle⟩
    exact { portStr := hport.mpr hlt, dest := hdest.mpr (by omega),
            text := bytes_createKeyFromSockaddr address }

/-- `127.0.0.1 10000`: the port has five digits. -/
theorem keyFits_port10000 : ¬ ∀ address : SockAddr, KeyFits address := by
  intro h
  have hport := h { sAddr := 16777343, sinPort := htons 10000 }
  exact absurd ((keyStores_portStr_inside _).mp hport.portStr) (by decide)

end PpsDht
