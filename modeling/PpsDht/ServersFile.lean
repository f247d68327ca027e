import Mathlib.Algebra.Order.BigOperators.Group.List
import PpsDht.Node

/-!
# Well-formed servers files

A `ServerLine` is one line of the servers file: an address, blanks, a port,
blanks, the number of nodes, and anything that is set off by a blank.  Its
fields say that it is well formed.

`getNodes_lines` is the result: `get_nodes` returns the nodes of the lines, in
order.  Its loop takes the first character of a line in the same pass as the
end of the line before, so the induction over the lines, `run_lines`, starts
behind that character.
-/

namespace PpsDht

open CMem

/-! ## Lines -/

/-- A number in decimal. -/
structure Numeral where
  digits : List UInt8
  ne : digits ≠ []
  isdigits : ∀ d ∈ digits, isdigit d = true

def Numeral.value (n : Numeral) : Nat := digitsVal n.digits

/-- One or more blanks: white space that does not end the line. -/
structure Blanks where
  bytes : List UInt8
  ne : bytes ≠ []
  isblanks : ∀ c ∈ bytes, isspace c = true ∧ c ≠ 10

/-- A well-formed line of the servers file, without its newline. -/
structure ServerLine where
  ip : CString
  gap : Blanks
  port : Numeral
  gap' : Blanks
  count : Numeral
  comment : List UInt8
  isAddr : (inetPton ip).isSome = true
  port_lt : port.value < 2 ^ 16
  count_pos : 0 < count.value
  count_lt : count.value < 2 ^ 64
  comment_blank : ∀ c ∈ comment.head?, isspace c = true
  comment_line : 10 ∉ comment

namespace ServerLine

/-- The line as it stands in the file. -/
def text (line : ServerLine) : List UInt8 :=
  line.ip.bytes ++ line.gap.bytes ++ line.port.digits ++ line.gap'.bytes ++
    line.count.digits ++ line.comment ++ [10]

/-- The server of the line. -/
def addr (line : ServerLine) : SockAddr where
  sAddr := (inetPton line.ip).get line.isAddr
  sinPort := htons (UInt16.ofNat line.port.value)

/-- The node of the line with the given id. -/
def node (env : Env) (line : ServerLine) (id : Nat) : Node where
  addr := line.addr
  id := id
  sha := env.SHA1
    (nodeText env line.ip (UInt16.ofNat line.port.value) id).bytes

/-- The nodes of the line, from the largest id down. -/
def nodes (env : Env) (line : ServerLine) : List Node :=
  (List.range line.count.value).reverse.map (fun i => line.node env (i + 1))

/-- The line behind its address, followed by `tail`. -/
def fields (line : ServerLine) (tail : List UInt8) : List UInt8 :=
  line.gap.bytes ++ (line.port.digits ++ (line.gap'.bytes ++
    (line.count.digits ++ (line.comment ++ 10 :: tail))))

theorem text_append (line : ServerLine) (tail : List UInt8) :
    line.text ++ tail = line.ip.bytes ++ line.fields tail := by
  simp [text, fields, List.append_assoc]

theorem getServerAddr_eq (line : ServerLine) :
    getServerAddr line.ip (UInt16.ofNat line.port.value) = .ok line.addr := by
  have haddr : inetPton line.ip = some ((inetPton line.ip).get line.isAddr) :=
    (Option.some_get _).symm
  rw [getServerAddr, haddr]
  rfl

end ServerLine

/-- The content of a file of the given lines. -/
def fileText (lines : List ServerLine) : List UInt8 :=
  lines.flatMap ServerLine.text

/-- The nodes of the lines, in the order of the file. -/
def lineNodes (env : Env) (lines : List ServerLine) : List Node :=
  lines.flatMap (ServerLine.nodes env)

/-- `node_list_add`, one node after the other. -/
def nodeListAddAll (list : NodeList) (nodes : List Node) : NodeList :=
  nodes.foldl nodeListAdd list

theorem nodeListAddAll_append (list : NodeList) (nodes nodes' : List Node) :
    nodeListAddAll list (nodes ++ nodes') =
      nodeListAddAll (nodeListAddAll list nodes) nodes' :=
  List.foldl_append

theorem nodeListAddAll_nodes (nodes : List Node) : ∀ (list : NodeList),
    (nodeListAddAll list nodes).nodes = list.nodes ++ nodes.map copyNode := by
  induction nodes with
  | nil =>
    intro list
    exact (List.append_nil _).symm
  | cons node nodes ih =>
    intro list
    show (nodeListAddAll (nodeListAdd list node) nodes).nodes = _
    rw [ih, nodeListAdd_nodes, List.append_assoc]
    rfl

/-- Enough passes for every loop of `get_nodes`. -/
def fileFuel (lines : List ServerLine) : Nat :=
  (fileText lines).length + (lines.map (fun line => line.count.value)).sum + 2

/-! ## The node loop -/

/-- A node of a server. -/
def serverNode (env : Env) (ip : CString) (port : UInt16) (addr : SockAddr)
    (id : Nat) : Node where
  addr := addr
  id := id
  sha := env.SHA1 (nodeText env ip port id).bytes

/-- The nodes of a server, from the largest id down. -/
def serverNodes (env : Env) (ip : CString) (port : UInt16) (addr : SockAddr)
    (count : Nat) : List Node :=
  (List.range count).reverse.map (fun i => serverNode env ip port addr (i + 1))

/-- The loop over the ids, when `k` of them are left. -/
theorem addNodes_loop (env : Env) {ip : CString} {port : UInt16}
    {addr : SockAddr} (haddr : getServerAddr ip port = .ok addr) {count : Nat}
    (hcount : count < 2 ^ 64) : ∀ (k : Nat) (nodes : NodeList) (fuel : Nat),
    k ≤ count → k < fuel →
    runLoop (fun (nodeId, nodes) =>
      if nodeId < count then
        match nodeInit env ip port (nodeId + 1) with
        | .error _ => .done (.ok none)
        | .ok node => .again (sizeSub nodeId 1, nodeListAdd nodes node)
      else .done (.ok (some nodes)))
      fuel (sizeSub k 1, nodes) =
      .ok (some (nodeListAddAll nodes (serverNodes env ip port addr k))) := by
  intro k
  have hinit : ∀ id, nodeInit env ip port id =
      .ok (serverNode env ip port addr id) := by
    intro id
    rw [nodeInit, haddr]
    rfl
  induction k with
  | zero =>
    intro nodes fuel _ hfuel
    -- The counter has wrapped around.
    obtain ⟨fuel, rfl⟩ : ∃ f, fuel = f + 1 := ⟨fuel - 1, by omega⟩
    refine runLoop_of_run (Loop.run_succ_done fuel ?_)
    have hwrap : sizeSub 0 1 = 2 ^ 64 - 1 := by decide
    simp only [hwrap]
    rw [if_neg (by omega)]
    rfl
  | succ k ih =>
    intro nodes fuel hk hfuel
    obtain ⟨fuel, rfl⟩ : ∃ f, fuel = f + 1 := ⟨fuel - 1, by omega⟩
    have hsub : sizeSub (k + 1) 1 = k := by
      rw [sizeSub]
      omega
    rw [runLoop_succ_again fuel (by
      simp only [hsub, hinit]
      rw [if_pos (by omega)]), ih _ fuel (by omega) (by omega), serverNodes,
      serverNodes, List.range_succ, List.reverse_append]
    rfl

/-- The loop adds the nodes of a server whose address is valid. -/
theorem addNodes_ok (env : Env) {ip : CString} {port : UInt16}
    {addr : SockAddr} (haddr : getServerAddr ip port = .ok addr)
    {count fuel : Nat} (hcount : count < 2 ^ 64) (hfuel : count < fuel)
    (nodes : NodeList) :
    addNodes env fuel ip port count nodes =
      .ok (some (nodeListAddAll nodes (serverNodes env ip port addr count))) :=
  addNodes_loop env haddr hcount count nodes fuel (Nat.le_refl _) hfuel

/-! ## One line -/

/-- The rest of a line is skipped, its newline included. -/
theorem skipLine_line (comment tail : List UInt8) (h : 10 ∉ comment) :
    ∀ {fuel : Nat}, comment.length < fuel →
      skipLine fuel (fgetc { rest := comment ++ 10 :: tail, eof := false }).1
        (fgetc { rest := comment ++ 10 :: tail, eof := false }).2 =
          .ok { rest := tail, eof := false } := by
  induction comment with
  | nil =>
    intro fuel hfuel
    obtain ⟨fuel, rfl⟩ : ∃ f, fuel = f + 1 := ⟨fuel - 1, by omega⟩
    exact runLoop_of_run (Loop.run_succ_done fuel rfl)
  | cons c comment ih =>
    intro fuel hfuel
    obtain ⟨fuel, rfl⟩ : ∃ f, fuel = f + 1 := ⟨fuel - 1, by omega⟩
    rw [List.mem_cons, not_or] at h
    rw [List.length_cons] at hfuel
    have hc : some c ≠ some 10 := fun he => h.1 (Option.some.inj he).symm
    have hrest := ih h.2 (show comment.length < fuel by omega)
    unfold skipLine at hrest ⊢
    refine (runLoop_succ_again fuel ?_).trans hrest
    exact if_pos hc

/-- The state of `get_nodes` in front of `text`. -/
def parseAt (text ip : List UInt8) (nodes : NodeList) : ParseState where
  file := (fgetc (fopen text)).2
  currentChar := (fgetc (fopen text)).1
  ip := ip
  nodes := nodes

theorem storeChar_parseAt (c : UInt8) (text ip : List UInt8)
    (nodes : NodeList) :
    storeChar (parseAt (c :: text) ip nodes) =
      parseAt text (ip ++ [c]) nodes := rfl

/-- At the end of the address `get_nodes` reads the line and adds its nodes. -/
theorem parseEntry_line (env : Env) {fuel : Nat} {line : ServerLine}
    (hcount : line.count.value < fuel) (hcomment : line.comment.length < fuel)
    (tail : List UInt8) (nodes : NodeList) :
    parseEntry env fuel (parseAt (line.fields tail) line.ip.bytes nodes) =
      .ok (some (parseAt tail []
        (nodeListAddAll nodes (line.nodes env)))) := by
  obtain ⟨b, gap, hgap⟩ := List.exists_cons_of_ne_nil line.gap.ne
  obtain ⟨b', gap', hgap'⟩ := List.exists_cons_of_ne_nil line.gap'.ne
  have hblank : ∀ c ∈ gap, isspace c = true := fun c hc =>
    (line.gap.isblanks c (hgap ▸ List.mem_cons_of_mem b hc)).1
  have hblank' : ∀ c ∈ line.gap'.bytes, isspace c = true :=
    fun c hc => (line.gap'.isblanks c hc).1
  have hb' : isdigit b' = false :=
    not_isdigit_of_isspace (hblank' b' (hgap' ▸ List.mem_cons_self))
  have hport := scanUnsigned_digits (gap' ++ (line.count.digits ++
    (line.comment ++ 10 :: tail))) false hblank line.port.isdigits
    line.port.ne hb' (by
      have h := line.port_lt
      rw [Numeral.value] at h
      omega)
  -- The count is followed by the first byte of the comment or the newline.
  obtain ⟨c, rest, hrest, hc⟩ : ∃ c rest,
      line.comment ++ 10 :: tail = c :: rest ∧ isdigit c = false := by
    cases hcomment : line.comment with
    | nil => exact ⟨10, tail, rfl, by decide⟩
    | cons c comment =>
      refine ⟨c, comment ++ 10 :: tail, rfl, not_isdigit_of_isspace ?_⟩
      exact line.comment_blank c (by rw [hcomment]; rfl)
  have hcountScan := scanUnsigned_digits rest false hblank'
    line.count.isdigits line.count.ne hc line.count_lt
  have hfile : (parseAt (line.fields tail) line.ip.bytes nodes).file =
      { rest := gap ++ (line.port.digits ++ b' :: (gap' ++
          (line.count.digits ++ (line.comment ++ 10 :: tail)))),
        eof := false } := by
    rw [parseAt, ServerLine.fields, hgap, hgap']
    rfl
  have haddNodes : addNodes env fuel
      (cstr (parseAt (line.fields tail) line.ip.bytes nodes).ip)
      (UInt16.ofNat (digitsVal line.port.digits))
      (digitsVal line.count.digits)
      (parseAt (line.fields tail) line.ip.bytes nodes).nodes =
        .ok (some (nodeListAddAll nodes (line.nodes env))) := by
    rw [parseAt]
    simp only [cstr_bytes]
    exact addNodes_ok env line.getServerAddr_eq line.count_lt hcount nodes
  have hskip := skipLine_line line.comment tail line.comment_line hcomment
  rw [← hrest, hgap', List.cons_append] at hcountScan
  have hpos : digitsVal line.count.digits ≠ 0 := line.count_pos.ne'
  rw [parseEntry, hfile, hport]
  simp only
  rw [hcountScan]
  simp only
  rw [if_neg hpos, haddNodes]
  simp only
  rw [hskip]
  rfl

/-! ## The outer loop -/

/-- A character that is not white space belongs to the address. -/
theorem getNodesBody_char (env : Env) (fuel : Nat) {c : UInt8}
    (hc : isspace c = false) (text ip : List UInt8) (nodes : NodeList) :
    getNodesBody env fuel (parseAt (c :: text) ip nodes) =
      .again (parseAt text (ip ++ [c]) nodes) := by
  have heof : ¬ (parseAt (c :: text) ip nodes).file.eof = true :=
    Bool.false_ne_true
  have hspace :
      ¬ isspaceInt (parseAt (c :: text) ip nodes).currentChar = true := by
    show ¬ isspace c = true
    rw [hc]
    exact Bool.false_ne_true
  rw [getNodesBody, if_neg heof, if_neg hspace, storeChar_parseAt]

/-- The pass that reads the fields of a line also takes the first character
behind it. -/
theorem getNodesBody_fields (env : Env) {fuel : Nat} {line : ServerLine}
    (hcount : line.count.value < fuel) (hcomment : line.comment.length < fuel)
    (tail : List UInt8) (nodes : NodeList) :
    getNodesBody env fuel (parseAt (line.fields tail) line.ip.bytes nodes) =
      .again (storeChar (parseAt tail []
        (nodeListAddAll nodes (line.nodes env)))) := by
  obtain ⟨b, gap, hgap⟩ := List.exists_cons_of_ne_nil line.gap.ne
  have hb : isspace b = true :=
    (line.gap.isblanks b (hgap ▸ List.mem_cons_self)).1
  obtain ⟨rest, hfields⟩ : ∃ rest, line.fields tail = b :: rest := by
    rw [ServerLine.fields, hgap]
    exact ⟨_, rfl⟩
  have heof : ¬ (parseAt (line.fields tail) line.ip.bytes nodes).file.eof =
      true := by
    rw [hfields]
    exact Bool.false_ne_true
  have hspace : isspaceInt
      (parseAt (line.fields tail) line.ip.bytes nodes).currentChar = true := by
    rw [hfields]
    exact hb
  rw [getNodesBody, if_neg heof, if_pos hspace,
    parseEntry_line env hcount hcomment]

/-- A field is read character by character. -/
theorem leads_chars (env : Env) (fuel : Nat) (text : List UInt8)
    (nodes : NodeList) : ∀ {chars : List UInt8} (ip : List UInt8),
    (∀ c ∈ chars, isspace c = false) →
    Loop.Leads (getNodesBody env fuel) chars.length
      (parseAt (chars ++ text) ip nodes) (parseAt text (ip ++ chars) nodes) := by
  intro chars
  induction chars with
  | nil =>
    intro ip _
    rw [List.append_nil]
    rfl
  | cons c chars ih =>
    intro ip h
    have hrest := ih (ip ++ [c])
      (fun c' hc' => h c' (List.mem_cons_of_mem c hc'))
    rw [List.append_assoc, List.singleton_append] at hrest
    exact ⟨_, getNodesBody_char env fuel (h c List.mem_cons_self)
      (chars ++ text) ip nodes, hrest⟩

/-- The loop from behind the first character of the lines on. -/
theorem run_lines (env : Env) {fuel : Nat} : ∀ {lines : List ServerLine}
    (nodes : NodeList),
    (∀ line ∈ lines, line.count.value < fuel ∧
      line.comment.length < fuel) →
    Loop.run (getNodesBody env fuel) ((fileText lines).length + 1)
        (storeChar (parseAt (fileText lines) [] nodes)) =
      some (.ok (some (nodeListAddAll nodes (lineNodes env lines)))) := by
  intro lines
  induction lines with
  | nil =>
    intro nodes _
    exact Loop.run_succ_done 0 rfl
  | cons line lines ih =>
    intro nodes hfuel
    obtain ⟨hcount, hcomment⟩ := hfuel line List.mem_cons_self
    obtain ⟨hne, hchars⟩ := not_isspace_of_inetPton line.isAddr
    obtain ⟨c, ip, hip⟩ := List.exists_cons_of_ne_nil hne
    have htext : fileText (line :: lines) =
        c :: (ip ++ line.fields (fileText lines)) := by
      rw [fileText, List.flatMap_cons, ServerLine.text_append, hip]
      rfl
    have hlength : (fileText lines).length + 1 + 1 + ip.length ≤
        (fileText (line :: lines)).length + 1 := by
      have hfields : (fileText lines).length + 1 ≤
          (line.fields (fileText lines)).length := by
        simp only [ServerLine.fields, List.length_append, List.length_cons]
        omega
      rw [htext, List.length_cons, List.length_append]
      omega
    have hnodes : lineNodes env (line :: lines) =
        line.nodes env ++ lineNodes env lines := List.flatMap_cons
    have hrest := ih (nodeListAddAll nodes (line.nodes env))
      (fun l hl => hfuel l (List.mem_cons_of_mem line hl))
    have hstep := getNodesBody_fields env hcount hcomment (fileText lines) nodes
    rw [hip] at hstep
    have hleads := leads_chars env fuel (line.fields (fileText lines)) nodes
      ([] ++ [c]) (fun c' hc' => hchars c' (hip ▸ List.mem_cons_of_mem c hc'))
    refine Loop.run_of_le hlength ?_
    rw [htext, storeChar_parseAt, hleads.run, List.nil_append,
      List.singleton_append, Loop.run_succ_again _ hstep, hrest, hnodes,
      nodeListAddAll_append]

/-- `get_nodes` reads every line of the file. -/
theorem getNodes_lines (env : Env) (lines : List ServerLine) {fuel : Nat}
    (hfuel : fileFuel lines ≤ fuel) :
    getNodes env fuel (some (fileText lines)) =
      .ok (some (nodeListAddAll nodeListNew (lineNodes env lines))) := by
  rw [fileFuel] at hfuel
  have hlines : ∀ line ∈ lines, line.count.value < fuel ∧
      line.comment.length < fuel := by
    intro line hline
    have hsum : line.count.value ≤
        (lines.map (fun line => line.count.value)).sum :=
      List.le_sum_of_mem (List.mem_map_of_mem hline)
    have hline' : line.text.length ≤ (fileText lines).length := by
      rw [fileText, List.length_flatMap]
      exact List.le_sum_of_mem (List.mem_map_of_mem hline)
    have hcomment : line.comment.length ≤ line.text.length := by
      simp only [ServerLine.text, List.length_append]
      omega
    constructor <;> omega
  have hrun := run_lines env nodeListNew hlines
  refine runLoop_of_run ?_
  cases lines with
  | nil => exact Loop.run_of_le (by omega) hrun
  | cons line lines =>
    obtain ⟨hne, hchars⟩ := not_isspace_of_inetPton line.isAddr
    obtain ⟨c, ip, hip⟩ := List.exists_cons_of_ne_nil hne
    obtain ⟨rest, htext⟩ : ∃ rest,
        fileText (line :: lines) = c :: rest := by
      rw [fileText, List.flatMap_cons, ServerLine.text_append, hip]
      exact ⟨_, rfl⟩
    have hstep := getNodesBody_char env fuel
      (hchars c (hip ▸ List.mem_cons_self)) rest [] nodeListNew
    refine Loop.run_of_le (by omega :
      (fileText (line :: lines)).length + 1 + 1 ≤ fuel) ?_
    refine (Loop.run_succ_again _ ?_).trans hrun
    rw [htext]
    exact hstep

/-- Every line of the file gives its nodes: those of its server, with the ids
from its count down to 1. -/
theorem getNodes_entries (env : Env) (lines : List ServerLine) :
    ∃ list,
      (∀ fuel, fileFuel lines ≤ fuel →
        getNodes env fuel (some (fileText lines)) = .ok (some list)) ∧
      list.nodes.map (fun node => (node.addr, node.id)) =
        lines.flatMap (fun line =>
          (List.range' 1 line.count.value).reverse.map
            (fun id => (line.addr, id))) := by
  refine ⟨nodeListAddAll nodeListNew (lineNodes env lines),
    fun fuel hfuel => getNodes_lines env lines hfuel, ?_⟩
  rw [nodeListAddAll_nodes, nodeListNew_nodes, List.nil_append, List.map_map,
    lineNodes, List.map_flatMap]
  congr 1
  funext line
  rw [ServerLine.nodes, List.map_map, List.range'_eq_map_range,
    ← List.map_reverse, List.map_map]
  apply List.map_congr_left
  intro i _
  show (line.addr, i + 1) = (line.addr, 1 + i)
  rw [Nat.add_comm]

end PpsDht
