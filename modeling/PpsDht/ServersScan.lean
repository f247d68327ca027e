import PpsDht.ServersFile
import Mathlib.Logic.Relation

/-!
# `get_nodes` on any file

A `Place` is where `get_nodes` stands in a field: the bytes that it has stored
in `ip`, and the text still ahead.  `Place.read` says what the text holds from
there on: the end of the file, something that makes `get_nodes` return `NULL`,
or an entry, with what follows its count.  `Place.next` is the place behind the
line of an entry, and `Reached` are the places that `get_nodes` gets to.

The loop that skips the rest of a line waits for a newline and does not look
for the end of the file.  `getNodes_terminates_iff` says when that matters.
-/

namespace PpsDht

open CMem

/-! ## Places -/

/-- A place in the servers file, inside or in front of a field. -/
structure Place where
  ip : List UInt8
  text : List UInt8

namespace Place

/-- The field: what is stored, and the text up to the next white space. -/
def field (p : Place) : List UInt8 :=
  p.ip ++ p.text.takeWhile (fun c => !isspace c)

/-- The text from the end of the field on. -/
def rest (p : Place) : List UInt8 := p.text.dropWhile (fun c => !isspace c)

end Place

/-- What the text holds at a place: the file ends in the field, or `get_nodes`
returns `NULL` there, or an entry, and what follows its count. -/
inductive FieldEnd where
  | file
  | null
  | entry (behind : List UInt8)
  deriving DecidableEq

namespace Place

/-- What the text holds at the place. -/
def read (p : Place) : FieldEnd :=
  match p.rest with
  | [] => .file
  | _ :: text =>
    match scanUnsigned (fopen text) with
    | none => .null
    | some (_, file) =>
      match scanUnsigned file with
      | none => .null
      | some (nodeIdMax, file) =>
        if nodeIdMax = 0 ∨ inetPton (cstr p.field) = none then .null
        else .entry file.rest

/-- The place behind a newline: the first byte of the next line is stored
whatever it is, and at the end of the file `EOF` is. -/
def behind (tail : List UInt8) : Place where
  ip := [tail.headD 255]
  text := tail.tail

/-- The place behind the line of an entry. -/
def next (p : Place) : Option Place :=
  match p.read with
  | .file => none
  | .null => none
  | .entry rest =>
    if 10 ∈ rest then some (behind (rest.dropWhile (· != 10)).tail) else none

/-- The state of `get_nodes` at the place. -/
def state (p : Place) (nodes : NodeList) : ParseState :=
  parseAt p.text p.ip nodes

/-- The state at the end of the field. -/
def stop (p : Place) (nodes : NodeList) : ParseState :=
  parseAt p.rest p.field nodes

end Place

/-- The places that `get_nodes` gets to, from the start of the file on. -/
def Reached (content : List UInt8) (p : Place) : Prop :=
  Relation.ReflTransGen (fun p q => Place.next p = some q) ⟨[], content⟩ p

/-! ## The parts of a line -/

/-- An entry: white space, two numbers, and a valid address in front of
them. -/
theorem Place.read_eq_entry {p : Place} {behind : List UInt8}
    (h : p.read = .entry behind) :
    ∃ b text port file nodeIdMax file', p.rest = b :: text ∧
      scanUnsigned (fopen text) = some (port, file) ∧
      scanUnsigned file = some (nodeIdMax, file') ∧ nodeIdMax ≠ 0 ∧
      nodeIdMax < 2 ^ 64 ∧
      inetPton (cstr p.field) ≠ none ∧ file'.rest = behind ∧
      file'.eof = behind.isEmpty ∧
      ∃ front d, isdigit d = true ∧ text = front ++ d :: behind := by
  unfold read at h
  split at h
  · cases h
  rename_i b text hrest
  split at h
  · cases h
  rename_i port file hport
  split at h
  · cases h
  rename_i nodeIdMax file' hcount
  split at h
  · cases h
  rename_i hok
  cases h
  rw [not_or] at hok
  obtain ⟨hlt, heof, hsplit⟩ := scanUnsigned_second hport hcount
  exact ⟨b, text, port, file, nodeIdMax, file', hrest, hport, hcount, hok.1, hlt,
    hok.2, rfl, heof, hsplit⟩

/-- The count of an entry ends in a digit. -/
theorem Place.text_of_entry {p : Place} {behind : List UInt8}
    (h : p.read = .entry behind) :
    ∃ front d, isdigit d = true ∧ p.text = front ++ d :: behind := by
  obtain ⟨b, text, _, _, _, _, hrest, _, _, _, _, _, _, _, front, d, hd, rfl⟩ :=
    read_eq_entry h
  refine ⟨p.text.takeWhile (fun c => !isspace c) ++ b :: front, d, hd, ?_⟩
  calc p.text
      = p.text.takeWhile (fun c => !isspace c) ++ p.rest :=
        List.takeWhile_append_dropWhile.symm
    _ = _ := by rw [hrest, List.append_assoc, List.cons_append]

/-- The place behind an entry is behind the first newline. -/
theorem Place.next_eq_some {p q : Place} (h : p.next = some q) :
    ∃ comment tail, p.read = .entry (comment ++ 10 :: tail) ∧ 10 ∉ comment ∧
      q = behind tail := by
  unfold next at h
  split at h
  · cases h
  · cases h
  · rename_i rest hread
    split at h
    · rename_i hline
      cases h
      obtain ⟨comment, tail, rfl, hcomment⟩ := List.eq_append_cons_of_mem hline
      have hne : ∀ c ∈ comment, (c != 10) = true := by
        intro c hc
        have hc10 : c ≠ 10 := fun h10 => hcomment (h10 ▸ hc)
        simpa using hc10
      refine ⟨comment, tail, hread, hcomment, ?_⟩
      rw [List.dropWhile_append_of_pos hne, List.dropWhile_cons,
        if_neg (by simp), List.tail_cons]
    · cases h

theorem Place.suffix_of_next {p q : Place} (h : p.next = some q) :
    ∃ rest, p.read = .entry rest ∧ q.text <:+ rest := by
  obtain ⟨comment, tail, hread, _, rfl⟩ := next_eq_some h
  refine ⟨_, hread, ?_⟩
  exact ((List.tail_suffix tail).trans (List.suffix_cons 10 tail)).trans
    (List.suffix_append comment _)

theorem Place.next_of_line {p : Place} {rest : List UInt8}
    (h : p.read = .entry rest) (hline : 10 ∈ rest) :
    p.next = some (behind (rest.dropWhile (· != 10)).tail) := by
  rw [next, h]
  exact if_pos hline

/-- A line consumes text. -/
theorem Place.length_next_lt {p q : Place} (h : p.next = some q) :
    q.text.length < p.text.length := by
  obtain ⟨behind, hread, hsuffix⟩ := suffix_of_next h
  obtain ⟨front, d, _, htext⟩ := text_of_entry hread
  have hle := hsuffix.length_le
  rw [htext, List.length_append, List.length_cons]
  omega

theorem isspace_of_rest {p : Place} {b : UInt8} {text : List UInt8}
    (h : p.rest = b :: text) : isspace b = true := by
  have hne : p.text.dropWhile (fun c => !isspace c) ≠ [] := by
    rw [show p.text.dropWhile (fun c => !isspace c) = b :: text from h]
    exact List.cons_ne_nil b text
  have hhead := List.head_dropWhile_not (fun c => !isspace c) hne
  have hb : (p.text.dropWhile (fun c => !isspace c)).head hne = b := by
    simp only [show p.text.dropWhile (fun c => !isspace c) = b :: text from h,
      List.head_cons]
  rw [hb] at hhead
  simpa using hhead

/-- The field is read up to its end. -/
theorem Place.leads_stop (env : Env) (fuel : Nat) (p : Place)
    (nodes : NodeList) :
    Loop.Leads (getNodesBody env fuel)
      (p.text.takeWhile (fun c => !isspace c)).length (p.state nodes)
      (p.stop nodes) := by
  have hchars : ∀ c ∈ p.text.takeWhile (fun c => !isspace c),
      isspace c = false := by
    intro c hc
    have himp := List.mem_takeWhile_imp hc
    simpa using himp
  have hleads := leads_chars env fuel p.rest nodes p.ip hchars
  rw [rest, List.takeWhile_append_dropWhile] at hleads
  exact hleads

/-! ## The end of a field -/

theorem storeChar_behind (tail : List UInt8) (nodes : NodeList) :
    storeChar (parseAt tail [] nodes) = (Place.behind tail).state nodes := by
  cases tail <;> rfl

/-- The pass at white space behind a field. -/
theorem getNodesBody_stop (env : Env) (fuel : Nat) {p : Place} {b : UInt8}
    {text : List UInt8} (h : p.rest = b :: text) (nodes : NodeList) :
    getNodesBody env fuel (p.stop nodes) =
      match parseEntry env fuel (p.stop nodes) with
      | .error fault => .done (.error fault)
      | .ok none => .done (.ok none)
      | .ok (some st) => .again (storeChar st) := by
  have hspace : isspaceInt (p.stop nodes).currentChar = true := by
    rw [Place.stop, h]
    exact isspace_of_rest h
  have heof : ¬ (p.stop nodes).file.eof = true := by
    rw [Place.stop, h]
    exact Bool.false_ne_true
  rw [getNodesBody]
  exact (if_neg heof).trans (if_pos hspace)

/-- The file ends in the field. -/
theorem getNodesBody_file (env : Env) (fuel : Nat) {p : Place}
    (h : p.read = .file) (nodes : NodeList) :
    getNodesBody env fuel (p.stop nodes) = .done (.ok (some nodes)) := by
  have hrest : p.rest = [] := by
    unfold Place.read at h
    split at h
    · assumption
    · split at h
      · cases h
      · split at h
        · cases h
        · split at h
          · cases h
          · cases h
  rw [Place.stop, hrest]
  rfl

/-- Without a newline ahead, the rest of the line has no end. -/
theorem skipLine_diverges (fuel : Nat) {file : Stream} (h : 10 ∉ file.rest) :
    skipLine fuel (fgetc file).1 (fgetc file).2 = .error .outOfFuel := by
  have hfgetc : ∀ file : Stream, 10 ∉ file.rest →
      (fgetc file).1 ≠ some 10 ∧ 10 ∉ (fgetc file).2.rest := by
    rintro ⟨rest, eof⟩ hrest
    cases rest with
    | nil => exact ⟨Option.some_ne_none 10 |>.symm, hrest⟩
    | cons c rest =>
      have hrest' : 10 ∉ c :: rest := hrest
      rw [List.mem_cons, not_or] at hrest'
      exact ⟨fun hc => hrest'.1 (Option.some.inj hc).symm, hrest'.2⟩
  have hrun : Loop.run (fun (st : Option UInt8 × Stream) =>
      if st.1 ≠ some 10 then Loop.Step.again (fgetc st.2)
      else Loop.Step.done (Except.ok st.2 : Except Fault Stream))
      fuel (fgetc file) = none :=
    Loop.run_diverges (fun st => st.1 ≠ some 10 ∧ 10 ∉ st.2.rest)
      (fun st hst => ⟨fgetc st.2, if_pos hst.1, hfgetc st.2 hst.2⟩) fuel
      (hfgetc file h)
  rw [skipLine, runLoop]
  exact congrArg (fun r => Option.getD r (.error .outOfFuel)) hrun

/-- No node is added for an address that is not valid. -/
theorem addNodes_invalid (env : Env) {fuel : Nat} (hfuel : 1 ≤ fuel)
    {ip : CString} (hip : inetPton ip = none) (port : UInt16)
    {nodeIdMax : Nat} (hpos : nodeIdMax ≠ 0) (hlt : nodeIdMax < 2 ^ 64)
    (nodes : NodeList) :
    addNodes env fuel ip port nodeIdMax nodes = .ok none := by
  obtain ⟨fuel, rfl⟩ : ∃ f, fuel = f + 1 := ⟨fuel - 1, by omega⟩
  have hsub : sizeSub nodeIdMax 1 < nodeIdMax := by
    unfold sizeSub
    omega
  refine runLoop_of_run (Loop.run_succ_done fuel ?_)
  simp only
  rw [if_pos hsub, nodeInit, getServerAddr, hip]

/-- What `get_nodes` reads where a place makes it return `NULL`. -/
theorem getNodesBody_null (env : Env) (fuel : Nat) {p : Place}
    (h : p.read = .null) (nodes : NodeList) :
    (1 ≤ fuel → getNodesBody env fuel (p.stop nodes) = .done (.ok none)) ∧
      ∃ r, getNodesBody env fuel (p.stop nodes) = .done r := by
  unfold Place.read at h
  split at h
  · cases h
  rename_i b text hrest
  have hfile : (p.stop nodes).file = fopen text := by
    rw [Place.stop, hrest]
    rfl
  -- The two scans and the test of the count do not use the fuel.
  have hnone : parseEntry env fuel (p.stop nodes) = .ok none →
      (1 ≤ fuel → getNodesBody env fuel (p.stop nodes) = .done (.ok none)) ∧
        ∃ r, getNodesBody env fuel (p.stop nodes) = .done r := by
    intro hentry
    have hbody : getNodesBody env fuel (p.stop nodes) = .done (.ok none) := by
      rw [getNodesBody_stop env fuel hrest, hentry]
    exact ⟨fun _ => hbody, _, hbody⟩
  split at h
  · rename_i hport
    refine hnone ?_
    rw [parseEntry, hfile, hport]
  rename_i port file hport
  split at h
  · rename_i hcount
    refine hnone ?_
    rw [parseEntry, hfile, hport]
    simp only [hcount]
  rename_i nodeIdMax file' hcount
  split at h
  · rename_i hbad
    by_cases hzero : nodeIdMax = 0
    · refine hnone ?_
      rw [parseEntry, hfile, hport]
      simp only [hcount]
      rw [if_pos hzero]
    · have hip := hbad.resolve_left hzero
      rcases Nat.eq_zero_or_pos fuel with rfl | hpos
      · refine ⟨fun hpos => absurd hpos (Nat.not_succ_le_zero 0),
          .error .outOfFuel, ?_⟩
        rw [getNodesBody_stop env 0 hrest, parseEntry, hfile, hport]
        simp only [hcount]
        rw [if_neg hzero]
        rfl
      · refine hnone ?_
        have hlt := (scanUnsigned_second hport hcount).1
        rw [parseEntry, hfile, hport]
        simp only [hcount]
        rw [if_neg hzero]
        have hip' : inetPton (cstr (p.stop nodes).ip) = none := hip
        rw [addNodes_invalid env hpos hip' _ hzero hlt]
  · cases h

/-- The pass that reads an entry: its nodes are added, and the rest of its line
is skipped. -/
theorem parseEntry_entry (env : Env) (fuel : Nat) {p : Place} {b : UInt8}
    {text : List UInt8} {port nodeIdMax : Nat} {file file' : Stream}
    (hrest : p.rest = b :: text)
    (hport : scanUnsigned (fopen text) = some (port, file))
    (hcount : scanUnsigned file = some (nodeIdMax, file'))
    (hne : nodeIdMax ≠ 0) (nodes : NodeList) :
    parseEntry env fuel (p.stop nodes) =
      match addNodes env fuel (cstr p.field) (UInt16.ofNat port) nodeIdMax
        nodes with
      | .error fault => .error fault
      | .ok none => .ok none
      | .ok (some nodes) =>
        match skipLine fuel (fgetc file').1 (fgetc file').2 with
        | .error fault => .error fault
        | .ok file =>
          let (currentChar, file) := fgetc file
          .ok (some { file := file, currentChar := currentChar, ip := [],
                      nodes := nodes }) := by
  have hfile : (p.stop nodes).file = fopen text := by
    rw [Place.stop, hrest]
    rfl
  rw [parseEntry, hfile, hport]
  simp only [hcount]
  rw [if_neg hne]
  rfl

/-- The nodes of an entry, with enough fuel. -/
theorem addNodes_entry (env : Env) {ip : CString} (hip : inetPton ip ≠ none)
    (port : UInt16) {nodeIdMax : Nat} (hlt : nodeIdMax < 2 ^ 64)
    (nodes : NodeList) :
    ∃ nodes', ∀ fuel, nodeIdMax < fuel →
      addNodes env fuel ip port nodeIdMax nodes = .ok (some nodes') := by
  obtain ⟨sAddr, haddr⟩ := Option.ne_none_iff_exists'.mp hip
  have hserver : getServerAddr ip port =
      .ok { sAddr := sAddr, sinPort := htons port } := by
    rw [getServerAddr, haddr]
  exact ⟨_, fun fuel hfuel => addNodes_ok env hserver hlt hfuel nodes⟩

theorem addNodes_ok_or {env : Env} {ip : CString} {port : UInt16}
    {nodeIdMax fuel : Nat} {nodes : NodeList} {r : Option NodeList}
    (h : addNodes env fuel ip port nodeIdMax nodes = .ok r) (fuel' : Nat) :
    addNodes env fuel' ip port nodeIdMax nodes = .ok r ∨
      addNodes env fuel' ip port nodeIdMax nodes = .error .outOfFuel :=
  runLoop_ok_or h fuel'

theorem skipLine_ok_or {fuel : Nat} {c : Option UInt8} {file file' : Stream}
    (h : skipLine fuel c file = .ok file') (fuel' : Nat) :
    skipLine fuel' c file = .ok file' ∨
      skipLine fuel' c file = .error .outOfFuel :=
  runLoop_ok_or h fuel'

/-- An entry whose line does not end. -/
theorem getNodesBody_unfinished (env : Env) (fuel : Nat) {p : Place}
    {behind : List UInt8} (h : p.read = .entry behind) (hline : 10 ∉ behind)
    (nodes : NodeList) :
    getNodesBody env fuel (p.stop nodes) = .done (.error .outOfFuel) := by
  obtain ⟨b, text, port, file, nodeIdMax, file', hrest, hport, hcount, hne, hlt,
    hip, rfl, _⟩ := Place.read_eq_entry h
  obtain ⟨nodes', hnodes⟩ :=
    addNodes_entry env hip (UInt16.ofNat port) hlt nodes
  rw [getNodesBody_stop env fuel hrest,
    parseEntry_entry env fuel hrest hport hcount hne]
  rcases addNodes_ok_or (hnodes _ (Nat.lt_succ_self _)) fuel with hadd | hadd
  · rw [hadd]
    simp only [skipLine_diverges fuel hline]
  · rw [hadd]

/-- An entry whose line ends: with enough fuel its nodes are added and the line
is skipped, with less there is no result. -/
theorem parseEntry_finished (env : Env) {p : Place} {comment tail : List UInt8}
    (h : p.read = .entry (comment ++ 10 :: tail)) (hcomment : 10 ∉ comment)
    (nodes : NodeList) :
    ∃ nodes' fuel₀,
      (∀ fuel, fuel₀ ≤ fuel →
        parseEntry env fuel (p.stop nodes) =
          .ok (some (parseAt tail [] nodes'))) ∧
      ∀ fuel, parseEntry env fuel (p.stop nodes) =
          .ok (some (parseAt tail [] nodes')) ∨
        parseEntry env fuel (p.stop nodes) = .error .outOfFuel := by
  obtain ⟨b, text, port, file, nodeIdMax, file', hrest, hport, hcount, hne, hlt,
    hip, hbehind, heof, _⟩ := Place.read_eq_entry h
  obtain ⟨nodes', hnodes⟩ :=
    addNodes_entry env hip (UInt16.ofNat port) hlt nodes
  have hfile : file' = { rest := comment ++ 10 :: tail, eof := false } := by
    obtain ⟨rest, eof⟩ := file'
    simp only at hbehind heof
    rw [heof, hbehind]
    simp
  have hskip : ∀ fuel, comment.length < fuel →
      skipLine fuel (fgetc file').1 (fgetc file').2 =
        .ok { rest := tail, eof := false } := by
    intro fuel hfuel
    rw [hfile]
    exact skipLine_line comment tail hcomment hfuel
  refine ⟨nodes', nodeIdMax + comment.length + 1, ?_, ?_⟩
  · intro fuel hfuel
    rw [parseEntry_entry env fuel hrest hport hcount hne,
      hnodes fuel (by omega)]
    simp only [hskip fuel (by omega)]
    rfl
  · intro fuel
    rw [parseEntry_entry env fuel hrest hport hcount hne]
    rcases addNodes_ok_or (hnodes _ (Nat.lt_succ_self _)) fuel with hadd | hadd
    · rw [hadd]
      rcases skipLine_ok_or (hskip _ (Nat.lt_succ_self _)) fuel with hs | hs
      · left
        simp only [hs]
        rfl
      · right
        simp only [hs]
    · right
      rw [hadd]

/-- The pass behind the field of such an entry goes on behind its line. -/
theorem getNodesBody_line (env : Env) {p q : Place} (h : p.next = some q)
    (nodes : NodeList) :
    ∃ nodes' fuel₀,
      (∀ fuel, fuel₀ ≤ fuel →
        getNodesBody env fuel (p.stop nodes) = .again (q.state nodes')) ∧
      ∀ fuel, getNodesBody env fuel (p.stop nodes) = .again (q.state nodes') ∨
        getNodesBody env fuel (p.stop nodes) = .done (.error .outOfFuel) := by
  obtain ⟨comment, tail, hread, hcomment, rfl⟩ := Place.next_eq_some h
  obtain ⟨b, text, _, _, _, _, hrest, _⟩ := Place.read_eq_entry hread
  obtain ⟨nodes', fuel₀, henough, hany⟩ :=
    parseEntry_finished env hread hcomment nodes
  refine ⟨nodes', fuel₀, ?_, ?_⟩
  · intro fuel hfuel
    rw [getNodesBody_stop env fuel hrest, henough fuel hfuel]
    exact congrArg Loop.Step.again (storeChar_behind tail nodes')
  · intro fuel
    rw [getNodesBody_stop env fuel hrest]
    rcases hany fuel with hentry | hentry
    · left
      rw [hentry]
      exact congrArg Loop.Step.again (storeChar_behind tail nodes')
    · right
      rw [hentry]

/-! ## Termination -/

/-- `get_nodes` returns, a list or `NULL`. -/
def Terminates (env : Env) (content : List UInt8) : Prop :=
  ∃ result fuel₀, ∀ fuel, fuel₀ ≤ fuel →
    getNodes env fuel (some content) = .ok result

/-- A run that gets to an entry whose line does not end has no result. -/
theorem run_unfinished (env : Env) {p q : Place}
    (hreach : Relation.ReflTransGen (fun p q => Place.next p = some q) p q)
    {behind : List UInt8} (hread : q.read = .entry behind)
    (hline : 10 ∉ behind) (fuel : Nat) :
    ∀ (k : Nat) (nodes : NodeList) (r : Except Fault (Option NodeList)),
      Loop.run (getNodesBody env fuel) k (p.state nodes) = some r →
      r = .error .outOfFuel := by
  induction hreach using Relation.ReflTransGen.head_induction_on with
  | refl =>
    intro k nodes r hrun
    have hstop := (q.leads_stop env fuel nodes).run_eq_some hrun
    have hbody := getNodesBody_unfinished env fuel hread hline nodes
    cases k with
    | zero => cases hstop
    | succ k =>
      rw [Loop.run_succ_done k hbody] at hstop
      exact (Option.some.inj hstop).symm
  | @head p p' hnext _ ih =>
    intro k nodes r hrun
    have hstop := (p.leads_stop env fuel nodes).run_eq_some hrun
    obtain ⟨nodes', _, _, hbody⟩ := getNodesBody_line env hnext nodes
    cases k with
    | zero => cases hstop
    | succ k =>
      rcases hbody fuel with hagain | hdone
      · rw [Loop.run_succ_again k hagain] at hstop
        exact ih k nodes' r hstop
      · rw [Loop.run_succ_done k hdone] at hstop
        exact (Option.some.inj hstop).symm

/-- A run has a result when every line ahead ends. -/
theorem run_finished (env : Env) : ∀ (n : Nat) (p : Place),
    p.text.length < n →
    (∀ q, Relation.ReflTransGen (fun p q => Place.next p = some q) p q →
      ∀ behind, q.read = .entry behind → 10 ∈ behind) →
    ∀ nodes, ∃ result fuel₀, ∀ fuel, fuel₀ ≤ fuel →
      Loop.run (getNodesBody env fuel) fuel₀ (p.state nodes) =
        some (.ok result) := by
  intro n
  induction n with
  | zero =>
    intro p hlen
    exact absurd hlen (Nat.not_lt_zero _)
  | succ n ih =>
    intro p hlen hlines nodes
    -- A result behind the field is one of the run.
    have hleads : ∀ fuel k, Loop.run (getNodesBody env fuel)
        (k + (p.text.takeWhile (fun c => !isspace c)).length)
        (p.state nodes) = Loop.run (getNodesBody env fuel) k (p.stop nodes) :=
      fun fuel k => (p.leads_stop env fuel nodes).run k
    cases hread : p.read with
    | file =>
      refine ⟨some nodes, _, fun fuel _ => (hleads fuel 1).trans ?_⟩
      exact Loop.run_succ_done 0 (getNodesBody_file env fuel hread nodes)
    | null =>
      refine ⟨none, _, fun fuel hfuel => (hleads fuel 1).trans ?_⟩
      exact Loop.run_succ_done 0
        ((getNodesBody_null env fuel hread nodes).1 (by omega))
    | entry behind =>
      have hnl := hlines p Relation.ReflTransGen.refl behind hread
      have hnext := Place.next_of_line hread hnl
      obtain ⟨nodes', fuel₁, hbody, _⟩ := getNodesBody_line env hnext nodes
      have hshort := Place.length_next_lt hnext
      obtain ⟨result, fuel₂, hrun⟩ := ih _ (by omega)
        (fun q hq => hlines q (Relation.ReflTransGen.head hnext hq)) nodes'
      refine ⟨result, max fuel₁ fuel₂ + 1 +
        (p.text.takeWhile (fun c => !isspace c)).length, ?_⟩
      intro fuel hfuel
      have hle := Loop.run_of_le (Nat.le_max_right fuel₁ fuel₂)
        (hrun fuel (by omega))
      rw [hleads, Loop.run_succ_again _ (hbody fuel (by omega)), hle]

/-- The outer loop starts at the first place of the file. -/
theorem getNodes_state (env : Env) (fuel : Nat) (content : List UInt8) :
    getNodes env fuel (some content) =
      runLoop (getNodesBody env fuel) fuel
        (Place.state ⟨[], content⟩ nodeListNew) := rfl

/-- An entry without a newline behind it makes `get_nodes` hang. -/
theorem getNodes_hangs (env : Env) {content : List UInt8} {p : Place}
    (hreach : Reached content p) {behind : List UInt8}
    (hread : p.read = .entry behind) (hline : 10 ∉ behind) (fuel : Nat) :
    getNodes env fuel (some content) = .error .outOfFuel := by
  rw [getNodes_state, runLoop]
  cases hrun : Loop.run (getNodesBody env fuel) fuel
      (Place.state ⟨[], content⟩ nodeListNew) with
  | none => rfl
  | some r =>
    rw [run_unfinished env hreach hread hline fuel fuel nodeListNew r hrun]
    rfl

theorem terminates_of_lines (env : Env) {content : List UInt8}
    (hlines : ∀ p, Reached content p →
      ∀ behind, p.read = .entry behind → 10 ∈ behind) :
    Terminates env content := by
  obtain ⟨result, fuel₀, hrun⟩ := run_finished env (content.length + 1)
    ⟨[], content⟩ (Nat.lt_succ_self _) hlines nodeListNew
  refine ⟨result, fuel₀, fun fuel hfuel => ?_⟩
  rw [getNodes_state]
  exact runLoop_of_run (Loop.run_of_le hfuel (hrun fuel hfuel))

/-- The text ahead is the end of the file. -/
theorem Reached.suffix {content : List UInt8} {p : Place}
    (h : Reached content p) : p.text <:+ content := by
  induction h with
  | refl => exact List.suffix_refl content
  | @tail p q _ hnext ih =>
    obtain ⟨behind, hread, hsuffix⟩ := Place.suffix_of_next hnext
    obtain ⟨front, d, _, htext⟩ := Place.text_of_entry hread
    have hbehind : behind <:+ p.text :=
      ⟨front ++ [d], by rw [htext, List.append_assoc, List.singleton_append]⟩
    exact (hsuffix.trans hbehind).trans ih

/-- A file that ends in a newline. -/
theorem terminates_of_newline (env : Env) (lines : List UInt8) :
    Terminates env (lines ++ [10]) := by
  refine terminates_of_lines env fun p hreach behind hread => ?_
  obtain ⟨front, d, hd, htext⟩ := Place.text_of_entry hread
  obtain ⟨before, hsuffix⟩ := Reached.suffix hreach
  have hsplit : before ++ (front ++ d :: behind) = lines ++ [10] := by
    rw [← htext, hsuffix]
  rcases List.eq_nil_or_concat' behind with rfl | ⟨line, last, rfl⟩
  · have hlast : d = 10 := by
      have h := congrArg List.getLast? hsplit
      simpa using h
    rw [hlast] at hd
    exact absurd hd (by decide)
  · have hlast : last = 10 := by
      have h := congrArg List.getLast? hsplit
      simpa [List.getLast?_cons] using h
    rw [hlast]
    exact List.mem_append_right line List.mem_cons_self

/-- `get_nodes` returns exactly when every entry that it gets to has a newline
behind its count.  Otherwise it hangs. -/
theorem getNodes_terminates_iff (env : Env) (content : List UInt8) :
    (Terminates env content ↔ ∀ p, Reached content p →
      ∀ behind, p.read = .entry behind → 10 ∈ behind) ∧
    (¬ Terminates env content →
      ∀ fuel, getNodes env fuel (some content) = .error .outOfFuel) := by
  have hhangs : (¬ ∀ p, Reached content p →
      ∀ behind, p.read = .entry behind → 10 ∈ behind) →
      ∀ fuel, getNodes env fuel (some content) = .error .outOfFuel := by
    intro h fuel
    simp only [not_forall] at h
    obtain ⟨p, hreach, behind, hread, hline⟩ := h
    exact getNodes_hangs env hreach hread hline fuel
  refine ⟨⟨?_, terminates_of_lines env⟩, ?_⟩
  · rintro ⟨result, fuel₀, hok⟩
    by_contra h
    have hfuel := hok fuel₀ (Nat.le_refl _)
    rw [hhangs h] at hfuel
    cases hfuel
  · exact fun h => hhangs (mt (terminates_of_lines env) h)

/-- A line without its newline: `1.2.3.4 5 1`. -/
def openLine : List UInt8 :=
  (lit ['1', '.', '2', '.', '3', '.', '4', ' ', '5', ' ', '1']).bytes

theorem openLine_hangs :
    ¬ ∀ (env : Env) (content : List UInt8), Terminates env content := by
  intro h
  obtain ⟨result, fuel₀, hok⟩ := h { SHA1 := id, pastSpace := [] } openLine
  have hfuel := hok fuel₀ (Nat.le_refl _)
  have hread : Place.read ⟨[], openLine⟩ = .entry [] := by decide
  rw [getNodes_hangs _ Relation.ReflTransGen.refl hread List.not_mem_nil]
    at hfuel
  cases hfuel

end PpsDht
