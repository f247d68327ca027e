import Mathlib.Data.List.GetD
import Mathlib.Data.List.Lex
import Mathlib.Data.List.TakeWhile
import Mathlib.Tactic.SplitIfs
import Mathlib.Tactic.NormNum

/-!
# Byte memory and C strings

The memory behind a `char *` is the list of its bytes from the pointed-to
address on.  A read past the bytes that are modelled yields zero, and a store
past them extends the list, so `peek_poke` holds at every index.  Whether an
index lies inside an allocation is a separate question that this module does
not answer.

* `storeLoop` is `for (size_t i = lo; i < hi; i++) m[i] = f(i);`, the shape of
  every copy loop, and `pokes` stores a given list of bytes.
* `CString` is a string without its terminator.  No byte of it is zero, so a
  `CString` is exactly what C can tell about a `char *` with `strlen` and
  `strcmp`; `cstr m` is the string that starts at `m`.
* `strcmp` compares as unsigned bytes.  `strKey` maps it into a linear order:
  `strcmp_neg_iff` and `strcmp_pos_iff` say that the sign of `strcmp` is the
  order of the keys.
-/

namespace CMem

/-! ## Bytes -/

/-- The byte at index `i`. -/
def peek (m : List UInt8) (i : Nat) : UInt8 := m.getD i 0

/-- Store `b` at index `i`. -/
def poke (m : List UInt8) (i : Nat) (b : UInt8) : List UInt8 :=
  if i < m.length then m.set i b
  else m ++ List.replicate (i - m.length) 0 ++ [b]

@[simp] theorem peek_cons_zero (b : UInt8) (m : List UInt8) :
    peek (b :: m) 0 = b := rfl

@[simp] theorem peek_cons_succ (b : UInt8) (m : List UInt8) (i : Nat) :
    peek (b :: m) (i + 1) = peek m i := rfl

theorem peek_append (m m' : List UInt8) (i : Nat) :
    peek (m ++ m') i = if i < m.length then peek m i
      else peek m' (i - m.length) := by
  unfold peek
  split
  · rename_i h
    rw [List.getD_append _ _ _ _ h]
  · rename_i h
    rw [List.getD_append_right _ _ _ _ (by omega)]

theorem peek_replicate_zero (n i : Nat) :
    peek (List.replicate n 0) i = 0 := by
  unfold peek
  rw [List.getD_eq_getElem?_getD, List.getElem?_replicate]
  split <;> rfl

theorem peek_poke (m : List UInt8) (i : Nat) (b : UInt8) (j : Nat) :
    peek (poke m i b) j = if j = i then b else peek m j := by
  unfold poke
  by_cases hi : i < m.length
  · rw [if_pos hi]
    unfold peek
    rw [List.getD_eq_getElem?_getD, List.getD_eq_getElem?_getD,
      List.getElem?_set]
    by_cases hj : i = j
    · simp [hj.symm, hi]
    · simp [hj, Ne.symm hj]
  · rw [if_neg hi, List.append_assoc, peek_append, peek_append,
      peek_replicate_zero, List.length_replicate]
    by_cases hj : j = i
    · subst hj
      rw [if_neg hi, if_neg (by omega), if_pos rfl, Nat.sub_self]
      rfl
    · rw [if_neg hj]
      split_ifs with h1 h2
      · rfl
      · have hge : m.length ≤ j := by omega
        unfold peek
        rw [List.getD_eq_default _ _ hge]
      · obtain ⟨d, hd⟩ : ∃ d, j - m.length - (i - m.length) = d + 1 :=
          ⟨j - m.length - (i - m.length) - 1, by omega⟩
        have hge : m.length ≤ j := by omega
        rw [hd]
        unfold peek
        rw [List.getD_eq_default _ _ hge]
        rfl

/-- The `n` bytes from the start of `m`: what a call with buffer `m` and
length `n` reads. -/
def readBytes (m : List UInt8) (n : Nat) : List UInt8 :=
  (List.range n).map (peek m)

@[simp] theorem length_readBytes (m : List UInt8) (n : Nat) :
    (readBytes m n).length = n := by simp [readBytes]

theorem peek_readBytes (m : List UInt8) {n i : Nat} (h : i < n) :
    peek (readBytes m n) i = peek m i := by
  unfold readBytes
  rw [peek, List.getD_eq_getElem _ _ (by simpa using h)]
  simp

/-- A byte list is the first `n` bytes of `m` when it has length `n` and
agrees with `m` below `n`. -/
theorem readBytes_eq {m l : List UInt8} {n : Nat} (hlen : l.length = n)
    (h : ∀ i, i < n → peek m i = peek l i) : readBytes m n = l := by
  apply List.ext_getElem
  · rw [length_readBytes, hlen]
  · intro i h1 h2
    have hi : i < n := by rw [← hlen]; exact h2
    simp only [readBytes, List.getElem_map, List.getElem_range]
    rw [h i hi, peek, List.getD_eq_getElem _ _ h2]

theorem readBytes_append (l rest : List UInt8) :
    readBytes (l ++ rest) l.length = l := by
  refine readBytes_eq rfl ?_
  intro i hi
  rw [peek_append, if_pos hi]

/-- A shorter read of the same memory. -/
theorem take_readBytes (m : List UInt8) {k n : Nat} (h : k ≤ n) :
    (readBytes m n).take k = readBytes m k := by
  rw [readBytes, readBytes, ← List.map_take, List.take_range, Nat.min_eq_left h]

/-- A read that ends inside `l`. -/
theorem readBytes_append_le {l : List UInt8} {n : Nat} (h : n ≤ l.length)
    (rest : List UInt8) : readBytes (l ++ rest) n = l.take n := by
  refine readBytes_eq (List.length_take_of_le h) ?_
  intro i hi
  rw [peek_append, if_pos (by omega), peek, peek, List.getD_eq_getElem?_getD,
    List.getD_eq_getElem?_getD, List.getElem?_take, if_pos hi]

/-! ## Copy loops -/

/-- `for (size_t i = lo; i < hi; i++) m[i] = f(i);` -/
def storeLoop (m : List UInt8) (lo hi : Nat) (f : Nat → UInt8) : List UInt8 :=
  (List.range' lo (hi - lo)).foldl (fun m i => poke m i (f i)) m

private theorem peek_foldl_poke (f : Nat → UInt8) (j : Nat) :
    ∀ (n lo : Nat) (m : List UInt8),
      peek ((List.range' lo n).foldl (fun m i => poke m i (f i)) m) j =
        if lo ≤ j ∧ j < lo + n then f j else peek m j := by
  intro n
  induction n with
  | zero =>
    intro lo m
    rw [if_neg (by omega)]
    rfl
  | succ n ih =>
    intro lo m
    rw [List.range'_succ, List.foldl_cons, ih, peek_poke]
    split_ifs with h1 h2 h3 h4 h5
    · rfl
    · exact absurd h1 (by omega)
    · rw [h3]
    · exact absurd h3 (by omega)
    · exact absurd h5 (by omega)
    · rfl

/-- What a copy loop leaves in memory. -/
theorem peek_storeLoop (m : List UInt8) (lo hi : Nat) (f : Nat → UInt8)
    (j : Nat) : peek (storeLoop m lo hi f) j =
      if lo ≤ j ∧ j < hi then f j else peek m j := by
  rw [storeLoop, peek_foldl_poke]
  by_cases h : lo ≤ j ∧ j < hi
  · rw [if_pos h, if_pos (by omega)]
  · rw [if_neg h, if_neg (by omega)]

/-- One store after the other, from index `i` on. -/
def pokes : List UInt8 → Nat → List UInt8 → List UInt8
  | m, _, [] => m
  | m, i, b :: bs => pokes (poke m i b) (i + 1) bs

theorem peek_pokes (bs : List UInt8) : ∀ (m : List UInt8) (i j : Nat),
    peek (pokes m i bs) j =
      if i ≤ j ∧ j < i + bs.length then peek bs (j - i) else peek m j := by
  induction bs with
  | nil =>
    intro m i j
    rw [pokes, List.length_nil, if_neg (by omega)]
  | cons b bs ih =>
    intro m i j
    rw [pokes, ih, peek_poke, List.length_cons]
    by_cases hij : j = i
    · subst hij
      rw [if_neg (by omega), if_pos rfl, if_pos (by omega), Nat.sub_self,
        peek_cons_zero]
    · rw [if_neg hij]
      by_cases hin : i + 1 ≤ j ∧ j < i + 1 + bs.length
      · obtain ⟨d, hd⟩ : ∃ d, j - i = d + 1 := ⟨j - i - 1, by omega⟩
        rw [if_pos hin, if_pos (by omega), hd, peek_cons_succ]
        congr 1
        omega
      · rw [if_neg hin, if_neg (by omega)]

/-! ## Write traces -/

/-- One store: the index and the byte. -/
abbrev Write := Nat × UInt8

/-- The stores of a trace, one after the other. -/
def applyWrites (m : List UInt8) (writes : List Write) : List UInt8 :=
  writes.foldl (fun m w => poke m w.1 w.2) m

/-- The trace of `pokes`. -/
def writesFrom (i : Nat) (bs : List UInt8) : List Write :=
  (bs.zipIdx i).map Prod.swap

theorem applyWrites_append (m : List UInt8) (writes writes' : List Write) :
    applyWrites m (writes ++ writes') =
      applyWrites (applyWrites m writes) writes' := List.foldl_append

@[simp] theorem applyWrites_singleton (m : List UInt8) (w : Write) :
    applyWrites m [w] = poke m w.1 w.2 := rfl

theorem applyWrites_writesFrom (bs : List UInt8) : ∀ (m : List UInt8) (i : Nat),
    applyWrites m (writesFrom i bs) = pokes m i bs := by
  induction bs with
  | nil =>
    intro m i
    rfl
  | cons b bs ih =>
    intro m i
    exact ih (poke m i b) (i + 1)

/-- A trace of consecutive stores stays below its end. -/
theorem lt_of_mem_writesFrom {i : Nat} {bs : List UInt8} {w : Write}
    (h : w ∈ writesFrom i bs) : w.1 < i + bs.length := by
  obtain ⟨entry, hentry, rfl⟩ := List.mem_map.mp h
  exact List.snd_lt_add_of_mem_zipIdx hentry

/-- The trace of a copy loop. -/
def loopWrites (lo hi : Nat) (f : Nat → UInt8) : List Write :=
  (List.range' lo (hi - lo)).map (fun i => (i, f i))

theorem applyWrites_loopWrites (m : List UInt8) (lo hi : Nat)
    (f : Nat → UInt8) :
    applyWrites m (loopWrites lo hi f) = storeLoop m lo hi f := by
  rw [applyWrites, loopWrites, List.foldl_map, storeLoop]

/-! ## C strings -/

/-- A C string without its terminator. -/
structure CString where
  bytes : List UInt8
  noNul : (0 : UInt8) ∉ bytes
  deriving DecidableEq

theorem CString.ext {s t : CString} (h : s.bytes = t.bytes) : s = t := by
  cases s
  cases t
  simp only at h
  subst h
  rfl

/-- `strlen`. -/
abbrev strlen (s : CString) : Nat := s.bytes.length

/-- The C string that starts at `m`. -/
def cstr (m : List UInt8) : CString where
  bytes := m.takeWhile (· != 0)
  noNul := by
    intro h
    have := List.mem_takeWhile_imp h
    simp at this

/-- The string literal with the characters `cs`. -/
def lit (cs : List Char) : CString := cstr (cs.map (·.toNat.toUInt8))

theorem strlen_lit_le (cs : List Char) : strlen (lit cs) ≤ cs.length := by
  have h := (List.takeWhile_sublist (· != 0)
    (l := cs.map (·.toNat.toUInt8))).length_le
  rwa [List.length_map] at h

private theorem takeWhile_of_peek :
    ∀ (l m : List UInt8), (∀ i, i < l.length → peek m i = peek l i) →
      peek m l.length = 0 → m.takeWhile (· != 0) = l.takeWhile (· != 0) := by
  intro l
  induction l with
  | nil =>
    intro m _ h0
    cases m with
    | nil => rfl
    | cons b m =>
      have hb : b = 0 := h0
      simp [hb]
  | cons c l ih =>
    intro m h h0
    have hc : peek m 0 = c := h 0 (by simp)
    cases m with
    | nil =>
      have hc0 : c = 0 := hc.symm
      simp [hc0]
    | cons b m =>
      have hb : b = c := hc
      have htail : m.takeWhile (· != 0) = l.takeWhile (· != 0) :=
        ih m (fun i hi => h (i + 1) (by simpa using hi)) h0
      rw [List.takeWhile_cons, List.takeWhile_cons, hb, htail]

/-- Memory that holds the bytes `l` and then a zero holds the same string as
`l` alone. -/
theorem cstr_eq_cstr {l m : List UInt8}
    (h : ∀ i, i < l.length → peek m i = peek l i)
    (h0 : peek m l.length = 0) : cstr m = cstr l :=
  CString.ext (takeWhile_of_peek l m h h0)

/-- No byte of a string is zero, so the string of its bytes is itself. -/
@[simp] theorem cstr_bytes (s : CString) : cstr s.bytes = s := by
  refine CString.ext (List.takeWhile_eq_self_iff.mpr ?_)
  intro b hb
  have hne : b ≠ 0 := fun h => s.noNul (h ▸ hb)
  simpa using hne

/-- The string at `m` is `s` when the bytes of `s` and a zero stand there. -/
theorem cstr_eq {m : List UInt8} {s : CString}
    (h : ∀ i, i < strlen s → peek m i = peek s.bytes i)
    (h0 : peek m (strlen s) = 0) : cstr m = s :=
  (cstr_eq_cstr h h0).trans (cstr_bytes s)

/-- A string stored byte by byte, and then its terminator. -/
theorem cstr_pokes (m : List UInt8) (s : CString) :
    cstr (poke (pokes m 0 s.bytes) (strlen s) 0) = s := by
  refine cstr_eq ?_ ?_
  · intro i hi
    have hin : 0 ≤ i ∧ i < 0 + s.bytes.length := ⟨Nat.zero_le i, by
      rw [Nat.zero_add]
      exact hi⟩
    rw [peek_poke, if_neg (Nat.ne_of_lt hi), peek_pokes, if_pos hin,
      Nat.sub_zero]
  · rw [peek_poke, if_pos rfl]

/-- A string is followed by its terminator, then by anything. -/
theorem cstr_append_zero (s : CString) (rest : List UInt8) :
    cstr (s.bytes ++ 0 :: rest) = s := by
  refine cstr_eq ?_ ?_
  · intro i hi
    rw [peek_append, if_pos hi]
  · rw [strlen, peek_append, if_neg (Nat.lt_irrefl _), Nat.sub_self,
      peek_cons_zero]

/-- A zero byte behind the memory is not part of the string. -/
theorem cstr_concat_zero (m : List UInt8) : cstr (m ++ [0]) = cstr m := by
  refine cstr_eq_cstr ?_ ?_
  · intro i hi
    rw [peek_append, if_pos hi]
  · rw [peek_append, if_neg (Nat.lt_irrefl _), Nat.sub_self, peek_cons_zero]

theorem bne_zero_of_notMem {m : List UInt8} (h : (0 : UInt8) ∉ m) :
    ∀ b ∈ m, (b != 0) = true := by
  intro b hb
  have hne : b ≠ 0 := fun h0 => h (h0 ▸ hb)
  simpa using hne

/-- The string goes on behind its bytes unless a zero byte follows. -/
theorem cstr_append_eq_iff (s : CString) (rest : List UInt8) :
    cstr (s.bytes ++ rest) = s ↔ peek rest 0 = 0 := by
  constructor
  · intro h
    by_contra hne
    cases rest with
    | nil => exact hne rfl
    | cons b rest =>
      have hb : b ≠ 0 := hne
      have hlen := congrArg (fun s => s.bytes.length) h
      simp only [cstr] at hlen
      rw [List.takeWhile_append_of_pos (bne_zero_of_notMem s.noNul),
        List.takeWhile_cons, if_pos (by simpa using hb), List.length_append,
        List.length_cons] at hlen
      omega
  · intro h
    refine cstr_eq ?_ ?_
    · intro i hi
      rw [peek_append, if_pos hi]
    · rw [strlen, peek_append, if_neg (Nat.lt_irrefl _), Nat.sub_self]
      exact h

/-- The memory of a C string, with its terminator. -/
def mem (s : CString) : List UInt8 := s.bytes ++ [0]

theorem mem_append (s : CString) (past : List UInt8) :
    mem s ++ past = s.bytes ++ 0 :: past := by
  rw [mem, List.append_assoc, List.singleton_append]

@[simp] theorem cstr_mem (s : CString) : cstr (mem s) = s :=
  cstr_append_zero s []

/-- The string in the first `n` bytes behind a string. -/
theorem cstr_readBytes_mem (s : CString) (past : List UInt8) (n : Nat) :
    (cstr (readBytes (mem s ++ past) n)).bytes = s.bytes.take n := by
  have hnul : (0 : UInt8) ∉ s.bytes.take n :=
    fun h => s.noNul (List.mem_of_mem_take h)
  have hcstr : cstr (readBytes (mem s ++ past) n) = ⟨s.bytes.take n, hnul⟩ := by
    refine cstr_eq ?_ ?_
    · intro i hi
      have hlt : i < n ∧ i < s.bytes.length := by
        rw [strlen, List.length_take] at hi
        omega
      rw [peek_readBytes _ hlt.1, mem_append, peek_append, if_pos hlt.2, peek,
        peek, List.getD_eq_getElem?_getD, List.getD_eq_getElem?_getD,
        List.getElem?_take, if_pos hlt.1]
    · rw [strlen, List.length_take]
      by_cases h : s.bytes.length < n
      · rw [Nat.min_eq_right (by omega), peek_readBytes _ h, mem_append,
          peek_append, if_neg (Nat.lt_irrefl _), Nat.sub_self, peek_cons_zero]
      · rw [Nat.min_eq_left (by omega), peek, List.getD_eq_default]
        exact Nat.le_of_eq (length_readBytes _ _)
  rw [hcstr]

/-- `strcat`: the string in `dest` afterwards. -/
def strcat (dest src : CString) : CString := cstr (dest.bytes ++ mem src)

/-- `memchr(m, '\0', n)`: the index of the first zero among the first `n`
bytes. -/
def memchrNul (m : List UInt8) (n : Nat) : Option Nat :=
  (List.range n).find? (fun i => peek m i == 0)

/-- `memchr` finds the terminator of a string. -/
theorem memchrNul_append_zero (s : CString) (rest : List UInt8) {n : Nat}
    (h : strlen s < n) :
    memchrNul (s.bytes ++ 0 :: rest) n = some (strlen s) := by
  rw [memchrNul, List.find?_range_eq_some]
  refine ⟨?_, List.mem_range.mpr h, ?_⟩
  · rw [strlen, peek_append, if_neg (Nat.lt_irrefl _), Nat.sub_self]
    rfl
  · intro j hj
    have hmem : peek s.bytes j ∈ s.bytes := by
      rw [peek, List.getD_eq_getElem _ _ hj]
      exact List.getElem_mem hj
    have hne : peek s.bytes j ≠ 0 := fun h0 => s.noNul (h0 ▸ hmem)
    rw [peek_append, if_pos hj]
    simpa using hne

/-! ## Messages with a zero byte -/

/-- The bytes of a message behind its first zero byte. -/
def afterNul (m : List UInt8) : List UInt8 := (m.dropWhile (· != 0)).tail

theorem afterNul_append_zero (s : CString) (tail : List UInt8) :
    afterNul (s.bytes ++ 0 :: tail) = tail := by
  rw [afterNul, List.dropWhile_append_of_pos (bne_zero_of_notMem s.noNul),
    List.dropWhile_cons, if_neg (by simp), List.tail_cons]

theorem afterNul_of_notMem {m : List UInt8} (h : (0 : UInt8) ∉ m) :
    afterNul m = [] := by
  rw [afterNul, List.dropWhile_eq_nil_iff.mpr (bne_zero_of_notMem h),
    List.tail_nil]

/-- A message with a zero byte is a string, a zero and the bytes behind it. -/
theorem eq_append_afterNul {m : List UInt8} (h : (0 : UInt8) ∈ m) :
    m = (cstr m).bytes ++ 0 :: afterNul m := by
  have hsplit : (cstr m).bytes ++ m.dropWhile (· != 0) = m :=
    List.takeWhile_append_dropWhile
  cases hdrop : m.dropWhile (· != 0) with
  | nil =>
    rw [hdrop, List.append_nil] at hsplit
    exact absurd (hsplit.symm ▸ h) (cstr m).noNul
  | cons b tail =>
    have hb : b = 0 := by
      have hne : m.dropWhile (· != 0) ≠ [] := by
        rw [hdrop]
        exact List.cons_ne_nil _ _
      have hhead := List.head_dropWhile_not (· != 0) hne
      simpa [hdrop] using hhead
    rw [afterNul, hdrop, List.tail_cons, ← hb, ← hdrop]
    exact hsplit.symm

theorem length_eq_of_nul {m : List UInt8} (h : (0 : UInt8) ∈ m) :
    m.length = strlen (cstr m) + ((afterNul m).length + 1) := by
  have hlen := congrArg List.length (eq_append_afterNul h)
  rwa [List.length_append, List.length_cons] at hlen

theorem length_afterNul_le (m : List UInt8) :
    (afterNul m).length ≤ m.length := by
  have hle := (List.dropWhile_sublist (· != 0) (l := m)).length_le
  rw [afterNul, List.length_tail]
  omega

theorem count_afterNul {m : List UInt8} (h : (0 : UInt8) ∈ m) :
    m.count 0 = (afterNul m).count 0 + 1 := by
  have hcount := congrArg (List.count 0) (eq_append_afterNul h)
  rwa [List.count_append, List.count_cons_self,
    List.count_eq_zero_of_not_mem (cstr m).noNul, Nat.zero_add] at hcount

/-- What stands behind a message with a zero byte is not part of its
string. -/
theorem cstr_append_of_mem {m : List UInt8} (h : (0 : UInt8) ∈ m)
    (rest : List UInt8) : cstr (m ++ rest) = cstr m := by
  have hsplit := eq_append_afterNul h
  rw [hsplit, List.append_assoc, List.cons_append, cstr_append_zero,
    cstr_append_zero]

/-- A message without a zero byte is a string. -/
theorem bytes_cstr {m : List UInt8} (h : (0 : UInt8) ∉ m) :
    (cstr m).bytes = m := by
  have hself := cstr_bytes ⟨m, h⟩
  exact congrArg CString.bytes hself

/-- What `strcpy` stores agrees with its source on `n + 1` bytes exactly when
none of the first `n` is zero: a zero behind them is the terminator. -/
theorem take_strcpy_iff : ∀ (n : Nat) (m : List UInt8), n < m.length →
    (((cstr m).bytes ++ [0]).take (n + 1) = m.take (n + 1) ↔
      (0 : UInt8) ∉ m.take n) := by
  intro n m
  induction m generalizing n with
  | nil =>
    intro h
    exact absurd h (Nat.not_lt_zero n)
  | cons b m ih =>
    intro h
    rw [List.length_cons] at h
    by_cases hb : b = 0
    · have hbytes : (cstr (b :: m)).bytes = [] := by
        rw [cstr, hb]
        rfl
      rw [hbytes, hb]
      cases n with
      | zero => simp
      | succ n =>
        -- The copy ends with its terminator, the source does not.
        have hshort : ([] ++ [(0 : UInt8)]).take (n + 1 + 1) ≠
            (0 :: m).take (n + 1 + 1) := by
          intro heq
          have hlen := congrArg List.length heq
          simp only [List.nil_append, List.length_take, List.length_cons,
            List.length_nil] at hlen
          omega
        exact ⟨fun heq => absurd heq hshort,
          fun hmem => absurd List.mem_cons_self hmem⟩
    · have hbytes : (cstr (b :: m)).bytes = b :: (cstr m).bytes := by
        have hne : (b != 0) = true := by simpa using hb
        exact List.takeWhile_cons_of_pos (p := (· != 0)) hne
      rw [hbytes]
      cases n with
      | zero => simp
      | succ n =>
        rw [List.cons_append, List.take_succ_cons, List.take_succ_cons,
          List.take_succ_cons, List.cons_inj_right, ih n (by omega),
          List.mem_cons, not_or]
        exact ⟨fun hmem => ⟨fun h0 => hb h0.symm, hmem⟩, fun h => h.2⟩

/-- `memchr` finds a zero byte when the message has one. -/
theorem isSome_memchrNul (m rest : List UInt8) :
    (memchrNul (m ++ rest) m.length).isSome ↔ (0 : UInt8) ∈ m := by
  rw [memchrNul, List.find?_isSome]
  constructor
  · rintro ⟨i, hi, hnul⟩
    have hlt : i < m.length := List.mem_range.mp hi
    rw [peek_append, if_pos hlt, peek, List.getD_eq_getElem _ _ hlt] at hnul
    have heq : m[i] = 0 := by simpa using hnul
    exact heq ▸ List.getElem_mem hlt
  · intro h
    obtain ⟨i, hi, hnul⟩ := List.mem_iff_getElem.mp h
    refine ⟨i, List.mem_range.mpr hi, ?_⟩
    rw [peek_append, if_pos hi, peek, List.getD_eq_getElem _ _ hi, hnul]
    rfl

/-! ## `strcmp` -/

/-- `strcmp`: the difference of the first two bytes that differ, as unsigned
bytes, the terminator included. -/
def strcmp : List UInt8 → List UInt8 → Int
  | [], [] => 0
  | [], b :: _ => -(b.toNat : Int)
  | a :: _, [] => a.toNat
  | a :: as, b :: bs =>
    if a = b ∧ a ≠ 0 then strcmp as bs else (a.toNat : Int) - b.toNat

/-- The key that orders strings as `strcmp` does. -/
def strKey (m : List UInt8) : List Nat := (cstr m).bytes.map UInt8.toNat

theorem strKey_nil : strKey [] = [] := rfl

theorem strKey_cons (a : UInt8) (m : List UInt8) :
    strKey (a :: m) = if a = 0 then [] else a.toNat :: strKey m := by
  unfold strKey cstr
  by_cases h : a = 0 <;> simp [h]

theorem toNat_pos_of_ne_zero {a : UInt8} (h : a ≠ 0) : 0 < a.toNat := by
  rcases Nat.eq_zero_or_pos a.toNat with h0 | h0
  · exact absurd (UInt8.toNat_inj.mp (by simpa using h0)) h
  · exact h0

theorem strcmp_neg_iff : ∀ (a b : List UInt8),
    strcmp a b < 0 ↔ strKey a < strKey b
  | [], [] => by simp [strcmp, strKey_nil]
  | [], b :: bs => by
    rw [strcmp, strKey_nil, strKey_cons]
    by_cases hb : b = 0
    · simp [hb]
    · have := toNat_pos_of_ne_zero hb
      simp only [if_neg hb, List.nil_lt_cons, iff_true]
      omega
  | a :: as, [] => by
    rw [strcmp, strKey_nil, strKey_cons]
    simp only [List.not_lt_nil, iff_false, not_lt]
    exact Int.natCast_nonneg _
  | a :: as, b :: bs => by
    rw [strcmp, strKey_cons, strKey_cons]
    by_cases ha : a = 0
    · by_cases hb : b = 0
      · simp [ha, hb]
      · have := toNat_pos_of_ne_zero hb
        simp only [ha, ne_eq, not_true_eq_false, and_false, if_false, if_true,
          if_neg hb, List.nil_lt_cons, iff_true]
        simpa using this
    · by_cases hab : a = b
      · subst hab
        rw [if_pos ⟨rfl, ha⟩, strcmp_neg_iff as bs, if_neg ha, if_neg ha,
          List.cons_lt_cons_iff]
        simp
      · rw [if_neg (fun h => hab h.1), if_neg ha]
        have hne : a.toNat ≠ b.toNat := fun h => hab (UInt8.toNat_inj.mp h)
        by_cases hb : b = 0
        · have := toNat_pos_of_ne_zero ha
          simp [hb]
        · rw [if_neg hb, List.cons_lt_cons_iff]
          constructor
          · intro h
            exact Or.inl (by omega)
          · rintro (h | ⟨h, _⟩)
            · omega
            · exact absurd h hne

theorem strcmp_swap : ∀ (a b : List UInt8), strcmp b a = -strcmp a b
  | [], [] => rfl
  | [], b :: bs => by simp [strcmp]
  | a :: as, [] => by simp [strcmp]
  | a :: as, b :: bs => by
    rw [strcmp, strcmp]
    by_cases h : a = b ∧ a ≠ 0
    · rw [if_pos h, if_pos ⟨h.1.symm, h.1 ▸ h.2⟩]
      exact strcmp_swap as bs
    · rw [if_neg h,
        if_neg (fun h' : b = a ∧ b ≠ 0 => h ⟨h'.1.symm, h'.1 ▸ h'.2⟩)]
      omega

theorem strcmp_pos_iff (a b : List UInt8) :
    0 < strcmp a b ↔ strKey b < strKey a := by
  rw [← strcmp_neg_iff b a, strcmp_swap a b]
  omega

theorem strcmp_nonpos_iff (a b : List UInt8) :
    strcmp a b ≤ 0 ↔ strKey a ≤ strKey b := by
  rw [← not_lt, ← not_lt, strcmp_pos_iff]

/-- `strcmp` is zero exactly when the strings are equal. -/
theorem strcmp_eq_zero_iff_strKey (a b : List UInt8) :
    strcmp a b = 0 ↔ strKey a = strKey b := by
  have hneg := strcmp_neg_iff a b
  have hpos := strcmp_pos_iff a b
  constructor
  · intro h
    have h1 := mt hneg.mpr (by omega)
    have h2 := mt hpos.mpr (by omega)
    exact le_antisymm (not_lt.mp h2) (not_lt.mp h1)
  · intro h
    have h1 := mt hneg.mp (by rw [h]; exact lt_irrefl _)
    have h2 := mt hpos.mp (by rw [h]; exact lt_irrefl _)
    omega

theorem map_toNat_injective :
    Function.Injective (List.map UInt8.toNat) :=
  List.map_injective_iff.mpr fun _ _ h => UInt8.toNat_inj.mp h

theorem strcmp_eq_zero_iff (s t : CString) :
    strcmp s.bytes t.bytes = 0 ↔ s = t := by
  rw [strcmp_eq_zero_iff_strKey, strKey, strKey, cstr_bytes, cstr_bytes]
  constructor
  · exact fun h => CString.ext (map_toNat_injective h)
  · rintro rfl
    rfl

/-- Where `strcmp` tells two byte strings of one length apart, it orders them
as the comparison of all their bytes does. -/
theorem map_toNat_lt_of_strKey_lt : ∀ {a b : List UInt8},
    a.length = b.length → strKey a < strKey b →
      a.map UInt8.toNat < b.map UInt8.toNat
  | [], [], _, h => absurd h (lt_irrefl _)
  | a :: as, b :: bs, hlen, h => by
    rw [strKey_cons, strKey_cons] at h
    rw [List.map_cons, List.map_cons, List.cons_lt_cons_iff]
    by_cases hb : b = 0
    · rw [if_pos hb] at h
      exact absurd h (List.not_lt_nil _)
    rw [if_neg hb] at h
    by_cases ha : a = 0
    · -- The shorter string ends here.
      refine Or.inl ?_
      rw [ha]
      exact toNat_pos_of_ne_zero hb
    · rw [if_neg ha, List.cons_lt_cons_iff] at h
      rcases h with hlt | ⟨heq, hlt⟩
      · exact Or.inl hlt
      · exact Or.inr ⟨heq,
          map_toNat_lt_of_strKey_lt (Nat.succ.inj hlen) hlt⟩

end CMem
