import PpsDht.Lib.CString

/-!
# The stores of string functions

`strcpy`, `strcat`, `strncat` and `sprintf` store the bytes of a string and its
terminator, one behind the other.  `stringStores i s` is that trace at index
`i`, and `strcatStores` the trace of several calls of `strcat` in a row.

* `stringStores_inside_iff` and `strcatStores_inside_iff`: the stores stay
  inside a buffer exactly when the last terminator does.
* `cstr_applyWrites_strcatStores`: the stores leave the string that `strcat`
  computes.
* `holdsNul_iff`: when strings are stored over each other at index 0, and some
  bytes over them, a terminator is left if a string was as long as the bytes.

`strncat` is `strcat` of the first characters of its source.
-/

namespace CMem

/-! ## One string -/

/-- The stores of a string at index `i`, with its terminator. -/
def stringStores (i : Nat) (s : CString) : List Write := writesFrom i (mem s)

theorem exists_mem_writesFrom {bs : List UInt8} {i j : Nat} (hi : i ≤ j)
    (hj : j < i + bs.length) : ∃ w ∈ writesFrom i bs, w.1 = j := by
  have hlt : j - i < bs.length := by omega
  refine ⟨(j, bs[j - i]), ?_, rfl⟩
  rw [writesFrom, List.mem_map]
  refine ⟨(bs[j - i], j), ?_, rfl⟩
  rw [List.mk_mem_zipIdx_iff_le_and_getElem?_sub]
  exact ⟨hi, List.getElem?_eq_getElem hlt⟩

/-- The terminator is the last store. -/
theorem stringStores_inside_iff (i n : Nat) (s : CString) :
    (∀ w ∈ stringStores i s, w.1 < n) ↔ i + strlen s < n := by
  have hlen : (mem s).length = strlen s + 1 := by
    rw [mem, List.length_append, List.length_singleton]
  constructor
  · intro h
    have hlast : ∃ w ∈ writesFrom i (mem s), w.1 = i + strlen s :=
      exists_mem_writesFrom (Nat.le_add_right _ _) (by omega)
    obtain ⟨w, hw, hidx⟩ := hlast
    exact hidx ▸ h w hw
  · intro h w hw
    have hlt := lt_of_mem_writesFrom hw
    omega

/-- Storing a string behind the string that stands in memory. -/
theorem cstr_applyWrites_stringStores (m : List UInt8) (s : CString) :
    (cstr (applyWrites m (stringStores (strlen (cstr m)) s))).bytes =
      (cstr m).bytes ++ s.bytes := by
  have hnul : (0 : UInt8) ∉ (cstr m).bytes ++ s.bytes := by
    rw [List.mem_append, not_or]
    exact ⟨(cstr m).noNul, s.noNul⟩
  have hstr : cstr (applyWrites m (stringStores (strlen (cstr m)) s)) =
      ⟨(cstr m).bytes ++ s.bytes, hnul⟩ := by
    rw [stringStores, applyWrites_writesFrom]
    have hlen : (mem s).length = s.bytes.length + 1 := by
      rw [mem, List.length_append, List.length_singleton]
    have hjoin : strlen ⟨(cstr m).bytes ++ s.bytes, hnul⟩ =
        strlen (cstr m) + s.bytes.length := List.length_append
    refine cstr_eq ?_ ?_
    · intro i hi
      rw [hjoin] at hi
      rw [peek_pokes, peek_append]
      by_cases hlt : i < strlen (cstr m)
      · rw [if_neg (by omega), if_pos hlt]
        have hsplit : (cstr m).bytes ++ m.dropWhile (· != 0) = m :=
          List.takeWhile_append_dropWhile
        conv_lhs => rw [← hsplit]
        rw [peek_append, if_pos hlt]
      · rw [if_pos (by omega), if_neg hlt, mem, peek_append,
          if_pos (by omega)]
    · rw [hjoin, peek_pokes, if_pos (by omega), mem, peek_append,
        if_neg (by omega), Nat.add_sub_cancel_left, Nat.sub_self,
        peek_cons_zero]
  rw [hstr]

/-! ## Strings stored over each other -/

/-- The byte that a trace stores last at an index. -/
def lastByte : List Write → Nat → Option UInt8
  | [], _ => none
  | w :: writes, i =>
    (lastByte writes i).or (if w.1 = i then some w.2 else none)

theorem lastByte_append (writes writes' : List Write) (i : Nat) :
    lastByte (writes ++ writes') i =
      (lastByte writes' i).or (lastByte writes i) := by
  induction writes with
  | nil => rw [List.nil_append, lastByte, Option.or_none]
  | cons w writes ih =>
    rw [List.cons_append, lastByte, lastByte, ih, Option.or_assoc]

theorem lastByte_writesFrom (bs : List UInt8) : ∀ j i : Nat,
    lastByte (writesFrom j bs) i = if j ≤ i then bs[i - j]? else none := by
  induction bs with
  | nil =>
    intro j i
    rw [List.getElem?_nil, ite_self]
    rfl
  | cons b bs ih =>
    intro j i
    have hcons : writesFrom j (b :: bs) = (j, b) :: writesFrom (j + 1) bs := rfl
    rw [hcons, lastByte, ih]
    simp only
    rcases Nat.lt_trichotomy i j with hlt | rfl | hlt
    · rw [if_neg (by omega), if_neg (by omega), if_neg (by omega)]
      rfl
    · rw [if_neg (by omega), if_pos rfl, if_pos (Nat.le_refl i), Nat.sub_self]
      rfl
    · obtain ⟨d, rfl⟩ : ∃ d, i = j + 1 + d := ⟨i - (j + 1), by omega⟩
      rw [if_pos (by omega), if_neg (by omega), if_pos (by omega),
        Nat.add_sub_cancel_left, show j + 1 + d - j = d + 1 by omega,
        List.getElem?_cons_succ, Option.or_none]

theorem lastByte_stringStores (s : CString) (i : Nat) :
    lastByte (stringStores 0 s) i = (mem s)[i]? := by
  rw [stringStores, lastByte_writesFrom, if_pos (Nat.zero_le i), Nat.sub_zero]

/-- What is left of strings that are stored over each other: a terminator is
that of a string of this length. -/
theorem le_of_lastByte {strings : List CString} {i : Nat} {b : UInt8}
    (h : lastByte (strings.flatMap (stringStores 0)) i = some b) :
    ∃ s ∈ strings, i ≤ strlen s ∧ (b = 0 → i = strlen s) := by
  induction strings with
  | nil => cases h
  | cons s strings ih =>
    rw [List.flatMap_cons, lastByte_append, lastByte_stringStores,
      Option.or_eq_some_iff] at h
    rcases h with hlater | ⟨_, hhere⟩
    · obtain ⟨s', hs', hle⟩ := ih hlater
      exact ⟨s', List.mem_cons_of_mem s hs', hle⟩
    · refine ⟨s, List.mem_cons_self, ?_, ?_⟩
      · have hlt := (List.getElem?_eq_some_iff.mp hhere).1
        rw [mem, List.length_append, List.length_singleton] at hlt
        exact Nat.le_of_lt_succ hlt
      · rintro rfl
        by_contra hne
        have hlt := (List.getElem?_eq_some_iff.mp hhere).1
        rw [mem, List.length_append, List.length_singleton] at hlt
        have hin : i < s.bytes.length := by
          have hlen : strlen s = s.bytes.length := rfl
          omega
        rw [mem, List.getElem?_append_left hin] at hhere
        exact s.noNul (List.mem_of_getElem? hhere)

/-- Some terminator is left at the length of a string, or behind it. -/
theorem exists_nul_of_mem {strings : List CString} {s : CString}
    (h : s ∈ strings) : ∃ i, strlen s ≤ i ∧
      lastByte (strings.flatMap (stringStores 0)) i = some 0 := by
  induction strings generalizing s with
  | nil => exact absurd h List.not_mem_nil
  | cons t strings ih =>
    have hrest : ∀ s ∈ strings, ∃ i, strlen s ≤ i ∧
        lastByte ((t :: strings).flatMap (stringStores 0)) i = some 0 := by
      intro s hs
      obtain ⟨i, hi, hnul⟩ := ih hs
      exact ⟨i, hi, by rw [List.flatMap_cons, lastByte_append, hnul]; rfl⟩
    rcases List.mem_cons.mp h with rfl | hs
    · cases hlater : lastByte (strings.flatMap (stringStores 0)) (strlen s) with
      | none =>
        refine ⟨strlen s, Nat.le_refl _, ?_⟩
        rw [List.flatMap_cons, lastByte_append, hlater, lastByte_stringStores,
          mem, List.getElem?_append_right (Nat.le_refl _)]
        simp
      | some b =>
        -- A later string reaches the terminator; its own one is behind it.
        obtain ⟨s', hs', hle, _⟩ := le_of_lastByte hlater
        obtain ⟨i, hi, hnul⟩ := hrest s' hs'
        exact ⟨i, hle.trans hi, hnul⟩
    · exact hrest s hs

/-- Bytes that are stored over strings leave a terminator behind them when one
of the strings was as long. -/
theorem holdsNul_iff (strings : List CString) {k : List UInt8}
    (hk : (0 : UInt8) ∉ k) :
    (∃ i, lastByte (strings.flatMap (stringStores 0) ++ writesFrom 0 k) i =
      some 0) ↔ ∃ s ∈ strings, k.length ≤ strlen s := by
  have hbyte : ∀ i, lastByte
      (strings.flatMap (stringStores 0) ++ writesFrom 0 k) i =
        (k[i]?).or (lastByte (strings.flatMap (stringStores 0)) i) := by
    intro i
    rw [lastByte_append, lastByte_writesFrom, if_pos (Nat.zero_le i),
      Nat.sub_zero]
  simp only [hbyte, Option.or_eq_some_iff]
  constructor
  · rintro ⟨i, hover | ⟨hbehind, hnul⟩⟩
    · exact absurd (List.mem_of_getElem? hover) hk
    · obtain ⟨s, hs, _, hend⟩ := le_of_lastByte hnul
      have hlen := List.getElem?_eq_none_iff.mp hbehind
      exact ⟨s, hs, by have heq := hend rfl; omega⟩
  · rintro ⟨s, hs, hle⟩
    obtain ⟨i, hi, hnul⟩ := exists_nul_of_mem hs
    exact ⟨i, Or.inr ⟨List.getElem?_eq_none_iff.mpr (hle.trans hi), hnul⟩⟩

/-! ## `strcat` -/

@[simp] theorem bytes_strcat (dest src : CString) :
    (strcat dest src).bytes = dest.bytes ++ src.bytes := by
  have hnul : (0 : UInt8) ∉ dest.bytes ++ src.bytes := by
    rw [List.mem_append, not_or]
    exact ⟨dest.noNul, src.noNul⟩
  have h := cstr_append_zero ⟨dest.bytes ++ src.bytes, hnul⟩ []
  rw [strcat, mem, ← List.append_assoc, h]

theorem strlen_strcat (dest src : CString) :
    strlen (strcat dest src) = strlen dest + strlen src := by
  rw [show strlen (strcat dest src) = (strcat dest src).bytes.length from rfl,
    bytes_strcat, List.length_append]

/-- The first `n` characters of a string. -/
def firstChars (n : Nat) (s : CString) : CString where
  bytes := s.bytes.take n
  noNul h := s.noNul (List.mem_of_mem_take h)

theorem firstChars_of_le {n : Nat} {s : CString} (h : strlen s ≤ n) :
    firstChars n s = s := CString.ext (List.take_of_length_le h)

/-- `strncat`. -/
def strncat (dest src : CString) (n : Nat) : CString :=
  strcat dest (firstChars n src)

/-- One `strcat` after the other. -/
def strcats (dest : CString) (srcs : List CString) : CString :=
  srcs.foldl strcat dest

theorem bytes_strcats (srcs : List CString) : ∀ dest : CString,
    (strcats dest srcs).bytes =
      dest.bytes ++ srcs.flatMap CString.bytes := by
  induction srcs with
  | nil =>
    intro dest
    exact (List.append_nil _).symm
  | cons src srcs ih =>
    intro dest
    show (strcats (strcat dest src) srcs).bytes = _
    rw [ih, bytes_strcat, List.flatMap_cons, List.append_assoc]

theorem strlen_strcats (dest : CString) (srcs : List CString) :
    strlen (strcats dest srcs) =
      strlen dest + (srcs.flatMap CString.bytes).length := by
  rw [show strlen (strcats dest srcs) = (strcats dest srcs).bytes.length
    from rfl, bytes_strcats, List.length_append]

/-- The stores of one `strcat` after the other. -/
def strcatStores (dest : CString) : List CString → List Write
  | [] => []
  | src :: srcs =>
    stringStores (strlen dest) src ++ strcatStores (strcat dest src) srcs

/-- The strings get longer, so the last terminator is the farthest store. -/
theorem strcatStores_inside_iff (n : Nat) (srcs : List CString) :
    ∀ (dest src : CString),
    (∀ w ∈ strcatStores dest (src :: srcs), w.1 < n) ↔
      strlen (strcats dest (src :: srcs)) < n := by
  induction srcs with
  | nil =>
    intro dest src
    rw [strcatStores, strcatStores, List.append_nil, stringStores_inside_iff]
    show _ ↔ strlen (strcat dest src) < n
    rw [strlen_strcat]
  | cons src' srcs ih =>
    intro dest src
    rw [strcatStores, List.forall_mem_append, stringStores_inside_iff,
      ih (strcat dest src) src']
    have hgrow : strlen dest + strlen src ≤
        strlen (strcats (strcat dest src) (src' :: srcs)) := by
      rw [← strlen_strcat, strlen_strcats]
      exact Nat.le_add_right _ _
    show _ ↔ strlen (strcats (strcat dest src) (src' :: srcs)) < n
    omega

/-- The stores leave the concatenated string in memory. -/
theorem cstr_applyWrites_strcatStores (srcs : List CString) :
    ∀ m : List UInt8,
    cstr (applyWrites m (strcatStores (cstr m) srcs)) =
      strcats (cstr m) srcs := by
  induction srcs with
  | nil =>
    intro m
    rfl
  | cons src srcs ih =>
    intro m
    have hstep : cstr (applyWrites m (stringStores (strlen (cstr m)) src)) =
        strcat (cstr m) src := by
      apply CString.ext
      rw [cstr_applyWrites_stringStores, bytes_strcat]
    rw [strcatStores, applyWrites_append, ← hstep, ih, hstep]
    rfl

end CMem
