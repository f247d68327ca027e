import PpsDht.Basic
import PpsDht.Lib.CStdlib
import PpsDht.Lib.Clockwise

/-!
# Nodes and lists of nodes

`node.c`, `node_list.c` and `get_server_addr` of `system.c`.  A node is one
virtual node of a server: the server is its address, and `sha` is the memory
behind its digest pointer, so every digest is read as terminated behind its
last byte.  Allocations succeed, and stores past the short buffers of
`node_init` are harmless.

`Env` collects what the code takes from outside: the digest function, and the
memory behind the one-byte array `space` of `node_init`, which has no
terminator of its own.
-/

namespace PpsDht

open CMem

/-- What the node code takes from outside. -/
structure Env where
  SHA1 : List UInt8 → List UInt8
  pastSpace : List UInt8

/-- `struct sockaddr_in`: what identifies a server. -/
structure SockAddr where
  sAddr : UInt32
  sinPort : UInt16
  deriving DecidableEq

/-- `node_t`. -/
structure Node where
  addr : SockAddr
  id : Nat
  sha : List UInt8
  deriving DecidableEq

/-- `get_server_addr`. -/
def getServerAddr (ip : CString) (port : UInt16) : Except ErrorCode SockAddr :=
  match inetPton ip with
  | none => .error .ERR_NETWORK
  | some addr => .ok { sAddr := addr, sinPort := htons port }

/-- The string that `node_init` hashes. -/
def nodeText (env : Env) (ip : CString) (port : UInt16) (nodeId : Nat) :
    CString :=
  let portStr := cstr (decimal port.toNat)
  let idStr := cstr (decimal nodeId)
  let space := cstr (32 :: env.pastSpace)
  let dest := cstr [0]
  let dest := strcat dest ip
  let dest := strcat dest space
  let dest := strcat dest portStr
  let dest := strcat dest space
  strcat dest idStr

/-- `node_init`. -/
def nodeInit (env : Env) (ip : CString) (port : UInt16) (nodeId : Nat) :
    Except ErrorCode Node :=
  let sha := env.SHA1 (nodeText env ip port nodeId).bytes
  match getServerAddr ip port with
  | .error err => .error err
  | .ok addr => .ok { addr := addr, id := nodeId, sha := sha }

/-- `node_cmp_sha`. -/
def nodeCmpSha (first second : Node) : Int := strcmp first.sha second.sha

/-- `node_cmp_server_addr`. -/
def nodeCmpServerAddr (n1 n2 : Node) : Int :=
  if n1.addr.sAddr = n2.addr.sAddr then
    if n1.addr.sinPort > n2.addr.sinPort then 1 else 0
  else if n1.addr.sAddr > n2.addr.sAddr then 1 else 0

/-! ## Lists of nodes -/

/-- `ALLOCATED_MEMORY_LIST`. -/
def allocatedMemoryList : Nat := 32

/-- `node_list_t`: the nodes in use, and the number of slots allocated. -/
structure NodeList where
  nodes : List Node
  allocatedSize : Nat
  fits : nodes.length ≤ allocatedSize
  deriving DecidableEq

/-- `list->size`. -/
def NodeList.size (list : NodeList) : Nat := list.nodes.length

/-- `node_list_new`. -/
def nodeListNew : NodeList where
  nodes := []
  allocatedSize := allocatedMemoryList
  fits := Nat.zero_le _

/-- The deep copy that `node_list_add` stores: `strcpy` stops at the first
zero byte of the digest. -/
def copyNode (node : Node) : Node where
  addr := node.addr
  id := node.id
  sha := (cstr node.sha).bytes ++ [0]

/-- `node_list_add`, for a list that is not `NULL`. -/
def nodeListAdd (list : NodeList) (node : Node) : NodeList where
  nodes := list.nodes ++ [copyNode node]
  allocatedSize :=
    if list.size + 1 > list.allocatedSize
    then list.allocatedSize + allocatedMemoryList else list.allocatedSize
  fits := by
    have h := list.fits
    rw [List.length_append, List.length_singleton, NodeList.size,
      allocatedMemoryList]
    split <;> omega

/-- `node_list_contains`. -/
def nodeListContains (list : NodeList) (node : Node) : Bool :=
  list.nodes.any (fun n => n.addr.sAddr == node.addr.sAddr &&
    n.addr.sinPort == node.addr.sinPort)

/-- `node_list_sort`; `qsort` is a stable sort. -/
def nodeListSort (list : NodeList) (comparator : Node → Node → Int) :
    NodeList where
  nodes := list.nodes.mergeSort (fun a b => decide (comparator a b ≤ 0))
  allocatedSize := list.allocatedSize
  fits := by
    rw [List.length_mergeSort]
    exact list.fits

/-! ## The servers file -/

/-- The node loop of `get_nodes`: one node for every id from `nodeIdMax` down
to 1.  The unsigned counter ends the loop when it wraps around. -/
def addNodes (env : Env) (fuel : Nat) (ip : CString) (port : UInt16)
    (nodeIdMax : Nat) (nodes : NodeList) : Except Fault (Option NodeList) :=
  runLoop (fun (nodeId, nodes) =>
    if nodeId < nodeIdMax then
      match nodeInit env ip port (nodeId + 1) with
      | .error _ => .done (.ok none)
      | .ok node => .again (sizeSub nodeId 1, nodeListAdd nodes node)
    else .done (.ok (some nodes)))
    fuel (sizeSub nodeIdMax 1, nodes)

/-- `while (current_char != '\n') current_char = fgetc(file);` -/
def skipLine (fuel : Nat) (currentChar : Option UInt8) (file : Stream) :
    Except Fault Stream :=
  runLoop (fun (currentChar, file) =>
    if currentChar ≠ some 10 then .again (fgetc file)
    else .done (.ok file))
    fuel (currentChar, file)

/-- The state of the outer loop of `get_nodes`.  `ip` holds the first `index`
bytes of the buffer. -/
structure ParseState where
  file : Stream
  currentChar : Option UInt8
  ip : List UInt8
  nodes : NodeList

/-- `ip[index] = (char) current_char; index += 1; current_char = fgetc(file);`
`EOF` is stored as the byte 255. -/
def storeChar (st : ParseState) : ParseState :=
  let (next, file) := fgetc st.file
  { st with
    file := file
    currentChar := next
    ip := st.ip ++ [st.currentChar.getD 255] }

/-- The branch of `get_nodes` for the end of the address field: the port, the
number of nodes, and the rest of the line. -/
def parseEntry (env : Env) (fuel : Nat) (st : ParseState) :
    Except Fault (Option ParseState) :=
  match scanUnsigned st.file with
  | none => .ok none
  | some (port, file) =>
    match scanUnsigned file with
    | none => .ok none
    | some (nodeIdMax, file) =>
      if nodeIdMax = 0 then .ok none
      else
        let (currentChar, file) := fgetc file
        let realIp := cstr st.ip
        match addNodes env fuel realIp (UInt16.ofNat port) nodeIdMax
          st.nodes with
        | .error fault => .error fault
        | .ok none => .ok none
        | .ok (some nodes) =>
          match skipLine fuel currentChar file with
          | .error fault => .error fault
          | .ok file =>
            let (currentChar, file) := fgetc file
            .ok (some { file := file, currentChar := currentChar, ip := [],
                        nodes := nodes })

/-- `isspace(current_char)`; `EOF` is no blank. -/
def isspaceInt (c : Option UInt8) : Bool := c.elim false isspace

/-- The outer loop of `get_nodes`. -/
def getNodesBody (env : Env) (fuel : Nat) (st : ParseState) :
    Loop.Step ParseState (Except Fault (Option NodeList)) :=
  if st.file.eof then .done (.ok (some st.nodes))
  else if isspaceInt st.currentChar then
    match parseEntry env fuel st with
    | .error fault => .done (.error fault)
    | .ok none => .done (.ok none)
    | .ok (some st) => .again (storeChar st)
  else .again (storeChar st)

/-- `get_nodes`, on the content of the servers file; `none` as content means
that the file cannot be opened, and `none` as result is `NULL`.  Each loop
makes at most `fuel` passes. -/
def getNodes (env : Env) (fuel : Nat) (content : Option (List UInt8)) :
    Except Fault (Option NodeList) :=
  match content with
  | none => .ok none
  | some content =>
    let (currentChar, file) := fgetc (fopen content)
    runLoop (getNodesBody env fuel) fuel
      { file := file, currentChar := currentChar, ip := [],
        nodes := nodeListNew }

/-! ## Lemmas -/

@[simp] theorem copyNode_addr (node : Node) : (copyNode node).addr = node.addr :=
  rfl

@[simp] theorem nodeListNew_nodes : nodeListNew.nodes = [] := rfl

@[simp] theorem nodeListAdd_nodes (list : NodeList) (node : Node) :
    (nodeListAdd list node).nodes = list.nodes ++ [copyNode node] := rfl

/-- `node_list_contains` looks at the server only. -/
theorem nodeListContains_iff (list : NodeList) (node : Node) :
    nodeListContains list node = true ↔
      node.addr ∈ list.nodes.map Node.addr := by
  rw [nodeListContains, List.any_eq_true, List.mem_map]
  constructor
  · rintro ⟨n, hn, h⟩
    rw [Bool.and_eq_true, beq_iff_eq, beq_iff_eq] at h
    refine ⟨n, hn, ?_⟩
    cases hn1 : n.addr
    cases hn2 : node.addr
    rw [hn1, hn2] at h
    exact congrArg₂ SockAddr.mk h.1 h.2
  · rintro ⟨n, hn, h⟩
    exact ⟨n, hn, by simp [h]⟩

end PpsDht
