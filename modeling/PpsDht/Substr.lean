import PpsDht.StringToInt

/-!
# Substrings

`pps-client-substr.c`, behind `client_init`.  The additions of `int` and the
accesses to the value and to the array `substring` are checked: a fault says
which of them went wrong.  `stack` is the memory of `substring` before it is
written to, since the empty substring is made with `strlen(substring)`.

* `substring_none`, `substring_empty` and `substring_slice` are the cases in
  which the code does what it is for, and `substring_overflow` and
  `substring_outOfBounds` the others.
* `substrMain_iff` puts them together: when the requested substring or nothing
  is put, without a fault.
-/

namespace PpsDht

open CMem

/-- What goes wrong in a run. -/
inductive SubstrFault where
  | overflow
  | outOfBounds
  | outOfFuel
  deriving DecidableEq, Repr

/-! ## Checked operations -/

/-- `a + b` in `int`. -/
def addInt (a b : Int) : Except SubstrFault Int :=
  if FitsInt (a + b) then .ok (a + b) else .error .overflow

/-- `value_from[i]`; the terminator is readable. -/
def readAt (valueFrom : CString) (i : Int) : Except SubstrFault UInt8 :=
  if 0 ≤ i ∧ i ≤ strlen valueFrom then .ok (peek (mem valueFrom) i.toNat)
  else .error .outOfBounds

/-- `substring[i] = b`, for an array of `size` bytes. -/
def storeByte (size : Nat) (substring : List UInt8) (i : Int) (b : UInt8) :
    Except SubstrFault (List UInt8) :=
  if 0 ≤ i ∧ i < size then .ok (poke substring i.toNat b)
  else .error .outOfBounds

/-! ## The substring -/

/-- One pass of the copy loop behind its test: the body and `i++`. -/
def copyPass (valueFrom : CString) (position : Int) (st : Int × List UInt8) :
    Except SubstrFault (Int × List UInt8) :=
  match readAt valueFrom st.1, addInt st.1 (-position), addInt st.1 1 with
  | .ok b, .ok j, .ok next =>
    match storeByte (strlen valueFrom) st.2 j b with
    | .ok substring => .ok (next, substring)
    | .error fault => .error fault
  | .error fault, _, _ => .error fault
  | _, .error fault, _ => .error fault
  | _, _, .error fault => .error fault

/-- One pass of the copy loop; the state is `i` and `substring`. -/
def copyBody (valueFrom : CString) (position length : Int)
    (st : Int × List UInt8) :
    Loop.Step (Int × List UInt8) (Except SubstrFault (List UInt8)) :=
  match addInt position length with
  | .error fault => .done (.error fault)
  | .ok stop =>
    if st.1 < stop then
      match copyPass valueFrom position st with
      | .error fault => .done (.error fault)
      | .ok st => .again st
    else .done (.ok st.2)

/-- `for (int i = position; i < position + length; i++)`.  Every pass comes
closer to the end, so the fuel suffices. -/
def copyLoop (stack : List UInt8) (valueFrom : CString)
    (position length : Int) : Except SubstrFault (List UInt8) :=
  (Loop.run (copyBody valueFrom position length) (length.toNat + 1)
    (position, stack)).getD (.error .outOfFuel)

/-- The position that `main` computes with: `strlen` is unsigned, and so is its
sum with a negative position. -/
def adjustPosition (valueFrom : CString) (position : Int) : Int :=
  if position < 0 then
    int32 (((strlen valueFrom : Int) + position) % 2 ^ 64).toNat
  else position

/-- The string in `substring`, or `none` when `main` gives up. -/
def substring (stack : List UInt8) (valueFrom : CString)
    (position length : Int) : Except SubstrFault (Option CString) :=
  let position := adjustPosition valueFrom position
  match addInt length position with
  | .error fault => .error fault
  | .ok stop =>
    if stop > int32 (strlen valueFrom) then .ok none
    else if length = 0 then
      -- `memset(substring, '\0', strlen(substring))`
      match memchrNul stack (strlen valueFrom) with
      | none => .error .outOfBounds
      | some len => .ok (some (cstr (storeLoop stack 0 len (fun _ => 0))))
    else
      match copyLoop stack valueFrom position length with
      | .error fault => .error fault
      | .ok copied =>
        match storeByte (strlen valueFrom) copied length 0 with
        | .error fault => .error fault
        | .ok copied => .ok (some (cstr copied))

/-- What a run of `pps-client-substr` puts, and what it returns. -/
structure SubstrRun where
  puts : List (CString × CString)
  status : Int
  deriving DecidableEq

/-- `printf("FAIL\n"); return -1;` -/
def substrFail : SubstrRun := { puts := [], status := -1 }

/-- `network_put`, and what `main` returns then. -/
def substrPut (put : CString → CString → ErrorCode) (keyTo value : CString) :
    SubstrRun where
  puts := [(keyTo, value)]
  status := if put keyTo value ≠ .ERR_NONE then -1 else 0

/-- `main` of `pps-client-substr`, on the arguments that `client_init`
leaves. -/
def substrMain (get : CString → Except ErrorCode CString)
    (put : CString → CString → ErrorCode) (stack : List UInt8)
    (argv : List CString) : Except SubstrFault SubstrRun :=
  match argv with
  | [keyFrom, positionText, lengthText, keyTo] =>
    match stringToInt positionText 0 with
    | (.ERR_NONE, position) =>
      match stringToInt lengthText 0 with
      | (.ERR_NONE, length) =>
        match get keyFrom with
        | .error _ => .ok substrFail
        | .ok valueFrom =>
          match substring stack valueFrom position length with
          | .error fault => .error fault
          | .ok none => .ok substrFail
          | .ok (some value) => .ok (substrPut put keyTo value)
      | _ => .ok substrFail
    | _ => .ok substrFail
  | _ => .ok substrFail

/-! ## What it is for -/

/-- The start of the substring: a negative position counts from the end. -/
def startOf (valueFrom : CString) (position : Int) : Int :=
  if 0 ≤ position then position else strlen valueFrom + position

/-- `k` bytes of a value from index `p` on. -/
def slice (valueFrom : CString) (p k : Nat) : CString where
  bytes := (valueFrom.bytes.drop p).take k
  noNul h := valueFrom.noNul (List.mem_of_mem_drop (List.mem_of_mem_take h))

/-- The requested substring, if it lies inside the value. -/
def wantedSubstring (valueFrom : CString) (position length : Int) :
    Option CString :=
  let p := startOf valueFrom position
  if 0 ≤ length ∧ 0 ≤ p ∧ p + length ≤ strlen valueFrom then
    some (slice valueFrom p.toNat length.toNat)
  else none

/-- The requested substring is put; without one `main` fails. -/
def substrWanted (put : CString → CString → ErrorCode)
    (valueFrom keyTo : CString) (position length : Int) : SubstrRun :=
  match wantedSubstring valueFrom position length with
  | some value => substrPut put keyTo value
  | none => substrFail

/-- The substring reaches behind the value, and an `int` can say so; or it lies
inside and is shorter than the value.  For the empty one, the array has to hold
a zero byte before anything is stored there. -/
def SubstrFits (stack : List UInt8) (valueFrom : CString) (p length : Int) :
    Prop :=
  strlen valueFrom < p + length ∧ p + length < 2 ^ 31 ∨
    0 ≤ p ∧ p + length ≤ strlen valueFrom ∧
      (length = 0 ∧ (∃ i < strlen valueFrom, peek stack i = 0) ∨
        0 < length ∧ length < strlen valueFrom)

/-! ## Single operations -/

theorem addInt_of_fitsInt {a b : Int} (h : FitsInt (a + b)) :
    addInt a b = .ok (a + b) := if_pos h

theorem storeByte_of_not {size : Nat} {i : Int} (h : ¬(0 ≤ i ∧ i < size))
    (m : List UInt8) (b : UInt8) : storeByte size m i b = .error .outOfBounds :=
  if_neg h

section

variable {valueFrom : CString}

theorem startOf_range (hlen : strlen valueFrom ≤ maxMsgElemSize)
    {position : Int} (hpos : FitsInt position) :
    FitsInt (startOf valueFrom position) := by
  obtain ⟨hmin, hmax⟩ := hpos
  rw [maxMsgElemSize] at hlen
  rw [startOf, FitsInt]
  split_ifs <;> omega

theorem adjustPosition_eq (hlen : strlen valueFrom ≤ maxMsgElemSize)
    {position : Int} (hpos : FitsInt position) :
    adjustPosition valueFrom position = startOf valueFrom position := by
  have hfits := startOf_range hlen hpos
  rw [adjustPosition]
  by_cases hneg : position < 0
  · rw [if_pos hneg]
    rw [startOf, if_neg (by omega)] at hfits ⊢
    exact intOfLong_of_fitsInt hfits
  · rw [if_neg hneg, startOf, if_pos (by omega)]

theorem int32_strlen (hlen : strlen valueFrom ≤ maxMsgElemSize) :
    int32 (strlen valueFrom) = strlen valueFrom := by
  rw [maxMsgElemSize] at hlen
  exact int32_of_lt (by omega)

/-! ## The copy loop -/

/-- A pass inside the value and the array. -/
theorem copyPass_ok (hlen : strlen valueFrom ≤ maxMsgElemSize)
    {position i : Int} (m : List UInt8) (hpos : 0 ≤ position)
    (hle : position ≤ i) (hlt : i < strlen valueFrom) :
    copyPass valueFrom position (i, m) =
      .ok (i + 1, poke m (i - position).toNat
        (peek (mem valueFrom) i.toNat)) := by
  rw [maxMsgElemSize] at hlen
  have hread : readAt valueFrom i = .ok (peek (mem valueFrom) i.toNat) :=
    if_pos ⟨by omega, by omega⟩
  have hsub : addInt i (-position) = .ok (i + -position) :=
    if_pos ⟨by omega, by omega⟩
  have hnext : addInt i 1 = .ok (i + 1) := if_pos ⟨by omega, by omega⟩
  have hstore : storeByte (strlen valueFrom) m (i + -position)
      (peek (mem valueFrom) i.toNat) =
        .ok (poke m (i + -position).toNat (peek (mem valueFrom) i.toNat)) :=
    if_pos ⟨by omega, by omega⟩
  rw [copyPass, Int.sub_eq_add_neg]
  simp only [hread, hsub, hnext, hstore]

/-- The first `k` bytes have been copied. -/
def Copied (valueFrom : CString) (position length : Int)
    (st : Int × List UInt8) : Prop :=
  ∃ k : Nat, (k : Int) ≤ length ∧ st.1 = position + k ∧
    ∀ j < k, peek st.2 j = peek valueFrom.bytes (position.toNat + j)

/-- One pass copies one byte. -/
theorem Copied.step (hlen : strlen valueFrom ≤ maxMsgElemSize)
    {position length : Int} (hpos : 0 ≤ position)
    (hstop : position + length ≤ strlen valueFrom)
    (st : Int × List UInt8) (h : Copied valueFrom position length st) :
    (∃ st', copyBody valueFrom position length st = .again st' ∧
      Copied valueFrom position length st' ∧
      (position + length - st'.1).toNat < (position + length - st.1).toNat) ∨
    ∃ r, copyBody valueFrom position length st = .done r ∧
      ∃ m, r = .ok m ∧ ∀ j < length.toNat,
        peek m j = peek valueFrom.bytes (position.toNat + j) := by
  obtain ⟨i, m⟩ := st
  obtain ⟨k, hk, hi, hcopied⟩ := h
  simp only at hi hcopied
  have hsum : addInt position length = .ok (position + length) := by
    rw [maxMsgElemSize] at hlen
    exact addInt_of_fitsInt ⟨by omega, by omega⟩
  rw [copyBody, hsum]
  simp only
  by_cases hlt : i < position + length
  · rw [if_pos hlt, copyPass_ok hlen m hpos (by omega) (by omega)]
    refine Or.inl ⟨_, rfl, ⟨k + 1, by omega, by simp only; omega, ?_⟩,
      by simp only; omega⟩
    intro j hj
    have hidx : (i - position).toNat = k := by omega
    simp only [hidx]
    rw [peek_poke]
    by_cases hjk : j = k
    · have hinside : i.toNat < strlen valueFrom := by omega
      have hnat : i.toNat = position.toNat + k := by omega
      rw [if_pos hjk, mem, peek_append, if_pos hinside, hnat, hjk]
    · rw [if_neg hjk]
      exact hcopied j (by omega)
  · rw [if_neg hlt]
    refine Or.inr ⟨_, rfl, m, rfl, ?_⟩
    intro j hj
    exact hcopied j (by omega)

/-- The loop copies the bytes of the substring. -/
theorem copyLoop_ok (hlen : strlen valueFrom ≤ maxMsgElemSize)
    {position length : Int} (hpos : 0 ≤ position) (hnonneg : 0 ≤ length)
    (hstop : position + length ≤ strlen valueFrom) (stack : List UInt8) :
    ∃ m, copyLoop stack valueFrom position length = .ok m ∧
      ∀ j < length.toNat,
        peek m j = peek valueFrom.bytes (position.toNat + j) := by
  have hstart : Copied valueFrom position length (position, stack) :=
    ⟨0, hnonneg, (Int.add_zero position).symm,
      fun j hj => absurd hj (Nat.not_lt_zero j)⟩
  have hfuel : (position + length - position).toNat < length.toNat + 1 := by
    omega
  obtain ⟨r, hrun, m, rfl, hbytes⟩ := Loop.run_total
    (fun st : Int × List UInt8 => (position + length - st.1).toNat)
    (Copied.step hlen hpos hstop) hstart hfuel
  rw [copyLoop, hrun]
  exact ⟨m, rfl, hbytes⟩

/-- In front of the value there is nothing to read. -/
theorem copyLoop_negPosition {position length : Int} (hneg : position < 0)
    (hpos : 0 < length) (hfits : FitsInt (position + length))
    (stack : List UInt8) :
    copyLoop stack valueFrom position length = .error .outOfBounds := by
  have hread : readAt valueFrom position = .error .outOfBounds :=
    if_neg (fun h => absurd h.1 (by omega))
  have hbody : copyBody valueFrom position length (position, stack) =
      .done (.error .outOfBounds) := by
    rw [copyBody, addInt_of_fitsInt hfits]
    simp only
    rw [if_pos (by omega), copyPass]
    simp only [hread]
  rw [copyLoop, Loop.run_succ_done _ hbody]
  rfl

/-- A loop for a negative length makes no pass. -/
theorem copyLoop_negLength {position length : Int} (hneg : length < 0)
    (hfits : FitsInt (position + length)) (stack : List UInt8) :
    copyLoop stack valueFrom position length = .ok stack := by
  have hbody : copyBody valueFrom position length (position, stack) =
      .done (.ok stack) := by
    rw [copyBody, addInt_of_fitsInt hfits]
    simp only
    rw [if_neg (by omega)]
  rw [copyLoop, Loop.run_succ_done _ hbody]
  rfl

/-! ## The cases of a substring -/

variable {position length : Int} (stack : List UInt8)

/-- The sum of length and start is not an `int`. -/
theorem substring_overflow (hlen : strlen valueFrom ≤ maxMsgElemSize)
    (hpos : FitsInt position)
    (h : ¬ FitsInt (length + startOf valueFrom position)) :
    substring stack valueFrom position length = .error .overflow := by
  have hsum : addInt length (startOf valueFrom position) = .error .overflow :=
    if_neg h
  rw [substring, adjustPosition_eq hlen hpos]
  simp only [hsum]

/-- The substring reaches behind the value. -/
theorem substring_none (hlen : strlen valueFrom ≤ maxMsgElemSize)
    (hpos : FitsInt position)
    (hfits : FitsInt (length + startOf valueFrom position))
    (h : strlen valueFrom < length + startOf valueFrom position) :
    substring stack valueFrom position length = .ok none := by
  rw [substring, adjustPosition_eq hlen hpos]
  simp only [addInt_of_fitsInt hfits, int32_strlen hlen]
  exact if_pos h

/-- The empty substring, when the array has a zero byte already. -/
theorem substring_empty (hlen : strlen valueFrom ≤ maxMsgElemSize)
    (hpos : FitsInt position) (h : startOf valueFrom position ≤ strlen valueFrom)
    (hnul : ∃ i < strlen valueFrom, peek stack i = 0) :
    substring stack valueFrom position 0 =
      .ok (some (slice valueFrom (startOf valueFrom position).toNat 0)) := by
  have hstart := startOf_range hlen hpos
  have hfits : FitsInt (0 + startOf valueFrom position) := by
    rw [Int.zero_add]
    exact hstart
  have hsome : (memchrNul stack (strlen valueFrom)).isSome = true := by
    obtain ⟨i, hi, hzero⟩ := hnul
    rw [memchrNul, List.find?_isSome]
    exact ⟨i, List.mem_range.mpr hi, by simp [hzero]⟩
  obtain ⟨len, hfound⟩ := Option.isSome_iff_exists.mp hsome
  have hempty : cstr (storeLoop stack 0 len (fun _ => 0)) =
      slice valueFrom (startOf valueFrom position).toNat 0 := by
    refine cstr_eq ?_ ?_
    · intro i hi
      exact absurd hi (Nat.not_lt_zero i)
    · show peek (storeLoop stack 0 len (fun _ => 0)) 0 = 0
      rw [peek_storeLoop]
      by_cases hzero : len = 0
      · have hnone := List.find?_some hfound
        rw [hzero] at hnone
        rw [if_neg (by omega)]
        simpa using hnone
      · rw [if_pos (by omega)]
  rw [substring, adjustPosition_eq hlen hpos]
  simp only [addInt_of_fitsInt hfits, int32_strlen hlen, hfound, hempty]
  rw [if_neg (by omega), if_pos trivial]

/-- An array without a zero byte has no `strlen`. -/
theorem substring_noNul (hlen : strlen valueFrom ≤ maxMsgElemSize)
    (hpos : FitsInt position) (h : startOf valueFrom position ≤ strlen valueFrom)
    (hnul : ¬ ∃ i < strlen valueFrom, peek stack i = 0) :
    substring stack valueFrom position 0 = .error .outOfBounds := by
  have hstart := startOf_range hlen hpos
  have hfits : FitsInt (0 + startOf valueFrom position) := by
    rw [Int.zero_add]
    exact hstart
  have hnone : memchrNul stack (strlen valueFrom) = none := by
    rw [memchrNul, List.find?_eq_none]
    intro i hi hzero
    exact hnul ⟨i, List.mem_range.mp hi, by simpa using hzero⟩
  rw [substring, adjustPosition_eq hlen hpos]
  simp only [addInt_of_fitsInt hfits, int32_strlen hlen, hnone]
  rw [if_neg (by omega), if_pos trivial]

/-- A substring that is shorter than the value. -/
theorem substring_slice (hlen : strlen valueFrom ≤ maxMsgElemSize)
    (hpos : FitsInt position) (hstart : 0 ≤ startOf valueFrom position)
    (hstop : startOf valueFrom position + length ≤ strlen valueFrom)
    (hlength : 0 < length) (hshort : length < strlen valueFrom) :
    substring stack valueFrom position length =
      .ok (some (slice valueFrom (startOf valueFrom position).toNat
        length.toNat)) := by
  have hsize := hlen
  rw [maxMsgElemSize] at hsize
  have hfits : FitsInt (length + startOf valueFrom position) :=
    ⟨by omega, by omega⟩
  obtain ⟨m, hcopy, hbytes⟩ :=
    copyLoop_ok hlen hstart hlength.le hstop stack
  have hterm : storeByte (strlen valueFrom) m length 0 =
      .ok (poke m length.toNat 0) := if_pos ⟨hlength.le, hshort⟩
  have hslice : strlen (slice valueFrom
      (startOf valueFrom position).toNat length.toNat) = length.toNat := by
    have hbytes : strlen valueFrom = valueFrom.bytes.length := rfl
    show ((valueFrom.bytes.drop _).take _).length = _
    rw [List.length_take, List.length_drop]
    omega
  have hstr : cstr (poke m length.toNat 0) =
      slice valueFrom (startOf valueFrom position).toNat length.toNat := by
    refine cstr_eq ?_ ?_
    · intro i hi
      rw [hslice] at hi
      rw [peek_poke, if_neg (by omega), hbytes i hi, peek, peek, slice,
        List.getD_eq_getElem?_getD, List.getD_eq_getElem?_getD,
        List.getElem?_take, if_pos hi, List.getElem?_drop]
    · rw [hslice, peek_poke, if_pos rfl]
  rw [substring, adjustPosition_eq hlen hpos]
  simp only [addInt_of_fitsInt hfits, int32_strlen hlen, hcopy, hterm, hstr]
  rw [if_neg (by omega), if_neg (by omega)]

/-- Everything else leaves the value or the array: a start in front of the
value, the terminator of the whole value, or that of a negative length. -/
theorem substring_outOfBounds (hlen : strlen valueFrom ≤ maxMsgElemSize)
    (hpos : FitsInt position)
    (hfits : FitsInt (length + startOf valueFrom position))
    (hstop : startOf valueFrom position + length ≤ strlen valueFrom)
    (hne : length ≠ 0)
    (h : startOf valueFrom position < 0 ∨ length < 0 ∨
      strlen valueFrom ≤ length) :
    substring stack valueFrom position length = .error .outOfBounds := by
  have hsum : FitsInt (startOf valueFrom position + length) := by
    rw [Int.add_comm]
    exact hfits
  rw [substring, adjustPosition_eq hlen hpos]
  simp only [addInt_of_fitsInt hfits, int32_strlen hlen]
  rw [if_neg (by omega), if_neg hne]
  by_cases hneg : length < 0
  · rw [copyLoop_negLength hneg hsum]
    simp only
    rw [storeByte_of_not (by omega)]
  · by_cases hstart : startOf valueFrom position < 0
    · rw [copyLoop_negPosition hstart (by omega) hsum]
    · obtain ⟨m, hcopy, _⟩ :=
        copyLoop_ok hlen (by omega) (by omega) hstop stack
      rw [hcopy]
      simp only
      rw [storeByte_of_not (by omega)]

/-- When the array holds the requested substring, or there is none. -/
theorem substring_iff (hlen : strlen valueFrom ≤ maxMsgElemSize)
    (hpos : FitsInt position) :
    substring stack valueFrom position length =
        .ok (wantedSubstring valueFrom position length) ↔
      SubstrFits stack valueFrom (startOf valueFrom position) length := by
  rw [wantedSubstring, SubstrFits]
  by_cases hfits : FitsInt (length + startOf valueFrom position)
  · have hmax := hfits.2
    by_cases hbehind : strlen valueFrom < length + startOf valueFrom position
    · rw [substring_none stack hlen hpos hfits hbehind,
        if_neg (fun h => absurd h.2.2 (by omega))]
      exact ⟨fun _ => Or.inl ⟨by omega, by omega⟩, fun _ => rfl⟩
    · by_cases hzero : length = 0
      · subst hzero
        by_cases hnul : ∃ i < strlen valueFrom, peek stack i = 0
        · rw [substring_empty stack hlen hpos (by omega) hnul]
          by_cases hstart : 0 ≤ startOf valueFrom position
          · rw [if_pos ⟨le_refl 0, hstart, by omega⟩]
            exact ⟨fun _ => Or.inr ⟨hstart, by omega, Or.inl ⟨rfl, hnul⟩⟩,
              fun _ => rfl⟩
          · rw [if_neg (fun h => hstart h.2.1)]
            refine ⟨fun h => ?_, fun h => ?_⟩
            · cases h
            · omega
        · rw [substring_noNul stack hlen hpos (by omega) hnul]
          refine ⟨fun h => ?_, ?_⟩
          · cases h
          · rintro (h | ⟨_, _, h | h⟩)
            · omega
            · exact absurd h.2 hnul
            · omega
      · by_cases hinside : 0 ≤ startOf valueFrom position ∧ 0 < length ∧
          length < strlen valueFrom
        · obtain ⟨hstart, hlength, hshort⟩ := hinside
          rw [substring_slice stack hlen hpos hstart (by omega) hlength hshort,
            if_pos ⟨hlength.le, hstart, by omega⟩]
          exact ⟨fun _ => Or.inr ⟨hstart, by omega, Or.inr ⟨hlength, hshort⟩⟩,
            fun _ => rfl⟩
        · rw [substring_outOfBounds stack hlen hpos hfits (by omega) hzero
            (by omega)]
          refine ⟨fun h => ?_, fun h => ?_⟩
          · cases h
          · omega
  · rw [substring_overflow stack hlen hpos hfits]
    refine ⟨fun h => ?_, fun h => ?_⟩
    · cases h
    · -- A sum that is not an `int` is above or below all of them.
      rw [FitsInt] at hfits
      rw [maxMsgElemSize] at hlen
      omega

end

/-! ## The whole run -/

/-- What `main` does with the substring. -/
def substrResult (put : CString → CString → ErrorCode) (keyTo : CString) :
    Option CString → SubstrRun
  | some value => substrPut put keyTo value
  | none => substrFail

theorem substrResult_injective (put : CString → CString → ErrorCode)
    (keyTo : CString) : Function.Injective (substrResult put keyTo) := by
  intro a b h
  have hputs := congrArg SubstrRun.puts h
  cases a with
  | none =>
    cases b with
    | none => rfl
    | some value => cases hputs
  | some value =>
    cases b with
    | none => cases hputs
    | some value' =>
      cases hputs
      rfl

theorem substrMain_eq {get : CString → Except ErrorCode CString}
    {put : CString → CString → ErrorCode} {stack : List UInt8}
    {keyFrom positionText lengthText keyTo valueFrom : CString}
    {position length : Int}
    (hposition : stringToInt positionText 0 = (.ERR_NONE, position))
    (hlength : stringToInt lengthText 0 = (.ERR_NONE, length))
    (hget : get keyFrom = .ok valueFrom) :
    substrMain get put stack [keyFrom, positionText, lengthText, keyTo] =
      (substring stack valueFrom position length).map
        (substrResult put keyTo) := by
  simp only [substrMain, hposition, hlength, hget]
  cases substring stack valueFrom position length with
  | error fault => rfl
  | ok value =>
    cases value with
    | none => rfl
    | some value => rfl

/-- When the requested substring or nothing is put, without a fault. -/
theorem substrMain_iff (get : CString → Except ErrorCode CString)
    (put : CString → CString → ErrorCode) (stack : List UInt8)
    (keyFrom positionText lengthText keyTo valueFrom : CString)
    (position length : Int)
    (hposition : stringToInt positionText 0 = (.ERR_NONE, position))
    (hlength : stringToInt lengthText 0 = (.ERR_NONE, length))
    (hget : get keyFrom = .ok valueFrom)
    (hlen : strlen valueFrom ≤ maxMsgElemSize) :
    substrMain get put stack [keyFrom, positionText, lengthText, keyTo] =
        .ok (substrWanted put valueFrom keyTo position length) ↔
      SubstrFits stack valueFrom (startOf valueFrom position) length := by
  have hwanted : substrWanted put valueFrom keyTo position length =
      substrResult put keyTo (wantedSubstring valueFrom position length) := by
    rw [substrWanted]
    cases wantedSubstring valueFrom position length with
    | none => rfl
    | some value => rfl
  rw [substrMain_eq hposition hlength hget, hwanted,
    ← substring_iff stack hlen (fitsInt_of_stringToInt hposition)]
  constructor
  · intro h
    cases hsub : substring stack valueFrom position length with
    | error fault =>
      rw [hsub] at h
      cases h
    | ok value =>
      rw [hsub] at h
      exact congrArg Except.ok (substrResult_injective put keyTo
        (Except.ok.inj h))
  · intro h
    rw [h]
    rfl

/-- The second byte of a value of three. -/
theorem substrMain_iff_inside :
    substrMain (fun _ => .ok (lit ['a', 'b', 'c'])) (fun _ _ => .ERR_NONE) []
        [lit ['k'], lit ['-', '2'], lit ['1'], lit ['l']] =
      .ok (substrWanted (fun _ _ => .ERR_NONE) (lit ['a', 'b', 'c'])
        (lit ['l']) (-2) 1) :=
  (substrMain_iff (fun _ => .ok (lit ['a', 'b', 'c'])) (fun _ _ => .ERR_NONE)
    [] (lit ['k']) (lit ['-', '2']) (lit ['1']) (lit ['l'])
    (lit ['a', 'b', 'c']) (-2) 1 (by decide +kernel) (by decide +kernel) rfl
    (by decide)).mpr (Or.inr (by decide))

/-- The whole value: its terminator is stored behind the array. -/
theorem substrMain_wholeValue :
    ¬ ∀ (get : CString → Except ErrorCode CString)
        (put : CString → CString → ErrorCode) (stack : List UInt8)
        (keyFrom positionText lengthText keyTo valueFrom : CString)
        (position length : Int),
      stringToInt positionText 0 = (.ERR_NONE, position) →
      stringToInt lengthText 0 = (.ERR_NONE, length) →
      get keyFrom = .ok valueFrom → strlen valueFrom ≤ maxMsgElemSize →
      substrMain get put stack [keyFrom, positionText, lengthText, keyTo] =
        .ok (substrWanted put valueFrom keyTo position length) := by
  intro h
  have hrun := h (fun _ => .ok (lit ['a', 'b'])) (fun _ _ => .ERR_NONE) []
    (lit ['k']) (lit ['0']) (lit ['2']) (lit ['l']) (lit ['a', 'b']) 0 2
    (by decide +kernel) (by decide +kernel) rfl (by decide)
  have hmain : substrMain (fun _ => .ok (lit ['a', 'b']))
      (fun _ _ => .ERR_NONE) [] [lit ['k'], lit ['0'], lit ['2'], lit ['l']] =
        (substring [] (lit ['a', 'b']) 0 2).map
          (substrResult (fun _ _ => .ERR_NONE) (lit ['l'])) :=
    substrMain_eq (by decide +kernel) (by decide +kernel) rfl
  have hfault : substring [] (lit ['a', 'b']) 0 2 = .error .outOfBounds :=
    substring_outOfBounds [] (by decide) (by decide) (by decide) (by decide)
      (by decide) (by decide)
  rw [hmain, hfault] at hrun
  cases hrun

end PpsDht
