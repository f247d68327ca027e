import PpsDht.Node
import PpsDht.Lib.Decimal

/-!
# The text behind a ring position

`node_init` hashes the address, the port and the id of a node, each in decimal
and with spaces between them.  Three buffers take part: `port_str` of 8 bytes,
`id_str` of 2, and `dest`, which is sized by the lengths of the parts.

* `nodeInitStores` lists the stores into these buffers, and
  `nodeInitStores_text` ties them to `nodeText`.
* `joinedText_inj`: no two nodes have the same text.
* `ringText_iff`: when text and buffers are right.  A node id of two digits
  does not fit `id_str`, and `space` ends only where the memory behind it
  starts with a zero byte.
-/

namespace PpsDht

open CMem

/-! ## The parts of the text -/

/-- What `node_init` appends to `dest`. -/
def nodeTextParts (env : Env) (ip : CString) (port : UInt16) (nodeId : Nat) :
    List CString :=
  [ip, cstr (32 :: env.pastSpace), cstr (decimal port.toNat),
    cstr (32 :: env.pastSpace), cstr (decimal nodeId)]

theorem nodeText_eq_strcats (env : Env) (ip : CString) (port : UInt16)
    (nodeId : Nat) :
    nodeText env ip port nodeId =
      strcats (cstr [0]) (nodeTextParts env ip port nodeId) := rfl

/-- The text of a node: the address, the port and the id, with spaces between
them. -/
def joinedText (ip : CString) (port : UInt16) (nodeId : Nat) : List UInt8 :=
  ip.bytes ++ 32 :: (decimal port.toNat ++ 32 :: decimal nodeId)

theorem length_joinedText (ip : CString) (port : UInt16) (nodeId : Nat) :
    (joinedText ip port nodeId).length =
      ip.bytes.length + 1 + (decimal port.toNat).length + 1 +
        (decimal nodeId).length := by
  rw [joinedText, List.length_append, List.length_cons, List.length_append,
    List.length_cons]
  omega

theorem bytes_nodeText (env : Env) (ip : CString) (port : UInt16)
    (nodeId : Nat) :
    (nodeText env ip port nodeId).bytes =
      ip.bytes ++ ((cstr (32 :: env.pastSpace)).bytes ++
        (decimal port.toNat ++ ((cstr (32 :: env.pastSpace)).bytes ++
          decimal nodeId))) := by
  rw [nodeText_eq_strcats, bytes_strcats, nodeTextParts]
  simp only [List.flatMap_cons, List.flatMap_nil, List.append_nil,
    bytes_cstr_decimal]
  rfl

/-- `space` is a single blank exactly when a zero byte stands behind it. -/
theorem cstr_space_iff (past : List UInt8) :
    cstr (32 :: past) = lit [' '] ↔ peek past 0 = 0 :=
  cstr_append_eq_iff (lit [' ']) past

/-- The text is the joined one exactly when `space` is a single blank. -/
theorem bytes_nodeText_iff (env : Env) (ip : CString) (port : UInt16)
    (nodeId : Nat) :
    (nodeText env ip port nodeId).bytes = joinedText ip port nodeId ↔
      peek env.pastSpace 0 = 0 := by
  constructor
  · intro h
    have hlen := congrArg List.length h
    rw [bytes_nodeText, length_joinedText] at hlen
    simp only [List.length_append] at hlen
    have hspace : (cstr (32 :: env.pastSpace)).bytes =
        32 :: (cstr env.pastSpace).bytes := rfl
    have hempty : (cstr env.pastSpace).bytes = [] := by
      rw [hspace, List.length_cons] at hlen
      exact List.eq_nil_of_length_eq_zero (by omega)
    exact (cstr_space_iff env.pastSpace).mp
      (CString.ext (hspace.trans (congrArg (List.cons 32) hempty)))
  · intro h
    rw [bytes_nodeText, (cstr_space_iff env.pastSpace).mpr h]
    rfl

/-! ## Different nodes -/

theorem blank_notMem_of_inetPton {ip : CString}
    (h : (inetPton ip).isSome = true) : 32 ∉ ip.bytes := fun hmem =>
  absurd ((not_isspace_of_inetPton h).2 32 hmem) (by decide)

/-- The fields can be read off the text. -/
theorem joinedText_inj {ip ip' : CString} {port port' : UInt16}
    {nodeId nodeId' : Nat} (hip : (inetPton ip).isSome = true)
    (hip' : (inetPton ip').isSome = true)
    (h : joinedText ip port nodeId = joinedText ip' port' nodeId') :
    ip = ip' ∧ port = port' ∧ nodeId = nodeId' := by
  obtain ⟨hbytes, h⟩ := append_cons_inj (blank_notMem_of_inetPton hip)
    (blank_notMem_of_inetPton hip') h
  obtain ⟨hport, hid⟩ := decimal_append_cons_inj rfl h
  exact ⟨CString.ext hbytes, UInt16.toNat_inj.mp hport, decimal_injective hid⟩

/-! ## Stores -/

/-- The stores of `node_init`, by buffer. -/
structure NodeInitStores where
  portStr : List Write
  idStr : List Write
  dest : List Write

/-- The stores of two `sprintf`, of `memset` and of five `strcat`. -/
def nodeInitStores (env : Env) (ip : CString) (port : UInt16) (nodeId : Nat) :
    NodeInitStores where
  portStr := stringStores 0 (cstr (decimal port.toNat))
  idStr := stringStores 0 (cstr (decimal nodeId))
  dest := (0, 0) :: strcatStores (cstr [0]) (nodeTextParts env ip port nodeId)

/-- The size of `port_str`. -/
def portStrSize : Nat := 8

/-- The size of `id_str`. -/
def idStrSize : Nat := 2

/-- The size of `dest`. -/
def destSize (ip : CString) (port : UInt16) (nodeId : Nat) : Nat :=
  strlen ip + 1 + strlen (cstr (decimal port.toNat)) + 1 +
    strlen (cstr (decimal nodeId)) + 1

/-- The stores into `dest` leave the hashed string there. -/
theorem nodeInitStores_text (env : Env) (ip : CString) (port : UInt16)
    (nodeId : Nat) (m : List UInt8) :
    cstr (applyWrites m (nodeInitStores env ip port nodeId).dest) =
      nodeText env ip port nodeId := by
  have hempty : cstr (poke m 0 0) = cstr [0] := by
    refine cstr_eq (s := cstr [0]) ?_ ?_
    · intro i hi
      exact absurd hi (Nat.not_lt_zero i)
    · rw [peek_poke]
      rfl
  show cstr (applyWrites (poke m 0 0)
    (strcatStores (cstr [0]) (nodeTextParts env ip port nodeId))) = _
  rw [← hempty, cstr_applyWrites_strcatStores, hempty, nodeText_eq_strcats]

theorem destStores_inside_iff (env : Env) (ip : CString) (port : UInt16)
    (nodeId size : Nat) :
    (∀ w ∈ (nodeInitStores env ip port nodeId).dest, w.1 < size) ↔
      strlen (nodeText env ip port nodeId) < size := by
  rw [nodeInitStores, List.forall_mem_cons, nodeTextParts,
    strcatStores_inside_iff, nodeText_eq_strcats, ← nodeTextParts]
  constructor
  · rintro ⟨_, h⟩
    exact h
  · intro h
    exact ⟨Nat.zero_lt_of_lt h, h⟩

theorem destSize_eq (ip : CString) (port : UInt16) (nodeId : Nat) :
    destSize ip port nodeId = (joinedText ip port nodeId).length + 1 := by
  rw [destSize, length_joinedText]
  show ip.bytes.length + 1 + (cstr (decimal port.toNat)).bytes.length + 1 +
    (cstr (decimal nodeId)).bytes.length + 1 = _
  rw [bytes_cstr_decimal, bytes_cstr_decimal]

/-! ## The ring position of a node -/

/-- `node_init` hashes the text of the node, and no other node's, without a
store outside a buffer. -/
structure RingText (env : Env) (ip : CString) (port : UInt16) (nodeId : Nat) :
    Prop where
  text : (nodeText env ip port nodeId).bytes = joinedText ip port nodeId
  distinct : ∀ (ip' : CString) (port' : UInt16) (nodeId' : Nat),
    (inetPton ip').isSome = true →
    nodeText env ip port nodeId = nodeText env ip' port' nodeId' →
    ip = ip' ∧ port = port' ∧ nodeId = nodeId'
  portStr : ∀ w ∈ (nodeInitStores env ip port nodeId).portStr,
    w.1 < portStrSize
  idStr : ∀ w ∈ (nodeInitStores env ip port nodeId).idStr, w.1 < idStrSize
  dest : ∀ w ∈ (nodeInitStores env ip port nodeId).dest,
    w.1 < destSize ip port nodeId

/-- `id_str` has room for one digit. -/
theorem ringText_iff (env : Env) (ip : CString) (port : UInt16) (nodeId : Nat)
    (hip : (inetPton ip).isSome = true) :
    RingText env ip port nodeId ↔ peek env.pastSpace 0 = 0 ∧ nodeId ≤ 9 := by
  have hid := decimalStores_inside_iff nodeId idStrSize
  have hdigit := length_decimal_le_iff (n := nodeId) (show 0 < 1 by decide)
  constructor
  · intro h
    have hlen := hid.mp h.idStr
    rw [idStrSize] at hlen
    exact ⟨(bytes_nodeText_iff env ip port nodeId).mp h.text, by omega⟩
  · rintro ⟨hspace, hle⟩
    have htext := fun ip port nodeId =>
      (bytes_nodeText_iff env ip port nodeId).mpr hspace
    refine { text := htext ip port nodeId, distinct := ?_, portStr := ?_,
             idStr := ?_, dest := ?_ }
    · intro ip' port' nodeId' hip' heq
      refine joinedText_inj hip hip' ?_
      rw [← htext, ← htext, heq]
    · have hport := length_decimal_uint16 port
      exact (decimalStores_inside_iff port.toNat portStrSize).mpr
        (by rw [portStrSize]; omega)
    · exact hid.mpr (by rw [idStrSize]; omega)
    · rw [destStores_inside_iff, destSize_eq, ← htext ip port nodeId]
      exact Nat.lt_succ_self _

/-- `127.0.0.1` -/
def loopbackText : CString :=
  lit ['1', '2', '7', '.', '0', '.', '0', '.', '1']

theorem ringText_iff_loopback :
    RingText { SHA1 := id, pastSpace := [0] } loopbackText 1234 9 :=
  (ringText_iff { SHA1 := id, pastSpace := [0] } loopbackText 1234 9
    (by decide)).mpr (by decide)

/-- The tenth virtual node of a server. -/
theorem ringText_tenthNode :
    ¬ ∀ (env : Env) (ip : CString) (port : UInt16) (nodeId : Nat),
      (inetPton ip).isSome = true → 1 ≤ nodeId → nodeId < 2 ^ 64 →
      RingText env ip port nodeId := by
  intro h
  have hten := h { SHA1 := id, pastSpace := [0] } loopbackText 1234 10
    (by decide) (by decide) (by decide)
  have hlen := (decimalStores_inside_iff 10 idStrSize).mp hten.idStr
  exact absurd hlen (by decide)

end PpsDht
