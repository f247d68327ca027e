import PpsDht.Basic
import PpsDht.Lib.Numerals

/-!
# Numbers on the command line

`isValidNumber` and `string_to_int` of `pps-client-substr.c`.  A string has to
be a number to `strtod`, without a blank in front, and then to `strtol`; of all
the numbers that `strtod` knows only the integer numerals are left.  The value
is a `long` that is converted to `int`.

`stringToInt_of_denotes` and `stringToInt_of_not_denotes` say what comes out.
`acceptsInts_iff`: `string_to_int` accepts exactly the numerals of an `int`
unless the string denotes a number that a `long` can hold and an `int` cannot.
-/

namespace PpsDht

open CMem

/-- `isValidNumber`, for a string that is not `NULL`. -/
def isValidNumber (str : CString) : Bool :=
  match str.bytes with
  | [] => false
  | c :: _ => if isspace c then false else decide (strtodRest str = [])

/-- `(int) n`, for a `long`. -/
def intOfLong (n : Int) : Int := int32 (n % 2 ^ 64).toNat

/-- `string_to_int`, for a string that is not `NULL`: the error code, and
`*dest` afterwards. -/
def stringToInt (string : CString) (dest : Int) : ErrorCode × Int :=
  if !isValidNumber string then (.ERR_BAD_PARAMETER, dest)
  else
    let res := strtol string
    let dest := intOfLong res.value
    if res.erange ∨ res.rest ≠ [] then (.ERR_BAD_PARAMETER, dest)
    else (.ERR_NONE, dest)

/-- A value of type `int`. -/
def FitsInt (n : Int) : Prop := -2 ^ 31 ≤ n ∧ n < 2 ^ 31

/-- A value of type `long`. -/
def FitsLong (n : Int) : Prop := longMin ≤ n ∧ n ≤ longMax

instance (n : Int) : Decidable (FitsInt n) := instDecidableAnd

instance (n : Int) : Decidable (FitsLong n) := instDecidableAnd

/-! ## Conversions -/

theorem fitsInt_int32 (n : Nat) : FitsInt (int32 n) := by
  rw [FitsInt, int32]
  split_ifs <;> omega

theorem fitsInt_intOfLong (n : Int) : FitsInt (intOfLong n) := fitsInt_int32 _

/-- The conversion keeps the values of type `int`. -/
theorem intOfLong_of_fitsInt {n : Int} (h : FitsInt n) : intOfLong n = n := by
  obtain ⟨hmin, hmax⟩ := h
  rw [intOfLong, int32]
  split_ifs <;> omega

theorem FitsInt.fitsLong {n : Int} (h : FitsInt n) : FitsLong n := by
  obtain ⟨hmin, hmax⟩ := h
  rw [FitsLong, longMin, longMax]
  omega

/-! ## Which strings are accepted -/

/-- A numeral passes the first test. -/
theorem isValidNumber_of_denotes {s : CString} {n : Int}
    (h : Denotes s.bytes n) : isValidNumber s = true := by
  obtain ⟨c, cs, hs, hc⟩ := h.head
  rw [isValidNumber, hs]
  simp only
  rw [if_neg (by simp [hc]), strtodRest_of_denotes h]
  rfl

/-- What passes the first test does not start with a blank. -/
theorem dropWhile_isspace_of_isValidNumber {s : CString}
    (h : isValidNumber s = true) :
    s.bytes ≠ [] ∧ s.bytes.dropWhile isspace = s.bytes := by
  rw [isValidNumber] at h
  cases hs : s.bytes with
  | nil =>
    rw [hs] at h
    cases h
  | cons c cs =>
    rw [hs] at h
    simp only at h
    by_cases hc : isspace c = true
    · rw [if_pos hc] at h
      cases h
    · exact ⟨List.cons_ne_nil c cs, List.dropWhile_cons_of_neg hc⟩

/-- A numeral is accepted when it denotes a `long`. -/
theorem stringToInt_of_denotes {s : CString} {n : Int}
    (h : Denotes s.bytes n) (dest : Int) :
    FitsLong n ∧ stringToInt s dest = (.ERR_NONE, intOfLong n) ∨
      ¬ FitsLong n ∧ (stringToInt s dest).1 = .ERR_BAD_PARAMETER := by
  rw [stringToInt, isValidNumber_of_denotes h, strtol_of_denotes h]
  by_cases hmax : longMax < n
  · rw [if_pos hmax]
    exact Or.inr ⟨fun hlong => absurd hlong.2 (not_le.mpr hmax), rfl⟩
  · by_cases hmin : n < longMin
    · rw [if_neg hmax, if_pos hmin]
      exact Or.inr ⟨fun hlong => absurd hlong.1 (not_le.mpr hmin), rfl⟩
    · rw [if_neg hmax, if_neg hmin]
      exact Or.inl ⟨⟨not_lt.mp hmin, not_lt.mp hmax⟩, rfl⟩

/-- Everything else is rejected. -/
theorem stringToInt_of_not_denotes {s : CString}
    (h : ¬ ∃ n, Denotes s.bytes n) (dest : Int) :
    (stringToInt s dest).1 = .ERR_BAD_PARAMETER := by
  rw [stringToInt]
  by_cases hvalid : isValidNumber s = true
  · obtain ⟨hne, hblank⟩ := dropWhile_isspace_of_isValidNumber hvalid
    have hrest : (strtol s).rest ≠ [] :=
      fun hrest => h (denotes_of_strtol hne hblank hrest)
    rw [hvalid]
    simp only [Bool.not_true, Bool.false_eq_true, if_false]
    rw [if_pos (Or.inr hrest)]
  · rw [Bool.not_eq_true] at hvalid
    rw [hvalid]
    rfl

/-- An accepted string has set `*dest` to an `int`. -/
theorem fitsInt_of_stringToInt {s : CString} {dest n : Int}
    (h : stringToInt s dest = (.ERR_NONE, n)) : FitsInt n := by
  by_cases hdenotes : ∃ m, Denotes s.bytes m
  · obtain ⟨m, hm⟩ := hdenotes
    rcases stringToInt_of_denotes hm dest with ⟨_, hok⟩ | ⟨_, hbad⟩
    · cases hok.symm.trans h
      exact fitsInt_intOfLong m
    · rw [h] at hbad
      cases hbad
  · have hbad := stringToInt_of_not_denotes hdenotes dest
    rw [h] at hbad
    cases hbad

/-! ## The numerals of an `int` -/

/-- `string_to_int` accepts the string with the number that it denotes, if that
is an `int`, and rejects it if it denotes none. -/
structure AcceptsInts (s : CString) : Prop where
  accepted : ∀ n, Denotes s.bytes n → FitsInt n →
    ∀ dest, stringToInt s dest = (.ERR_NONE, n)
  rejected : (¬ ∃ n, Denotes s.bytes n ∧ FitsInt n) →
    ∀ dest, (stringToInt s dest).1 = .ERR_BAD_PARAMETER

/-- The range that is checked is that of `long`. -/
theorem acceptsInts_iff (s : CString) :
    AcceptsInts s ↔ ∀ n, Denotes s.bytes n → FitsLong n → FitsInt n := by
  constructor
  · intro h n hn hlong
    by_contra hint
    have hnone : ¬ ∃ n, Denotes s.bytes n ∧ FitsInt n := by
      rintro ⟨m, hm, hfits⟩
      rw [hm.unique hn] at hfits
      exact hint hfits
    have hbad := h.rejected hnone 0
    rcases stringToInt_of_denotes hn 0 with ⟨_, hok⟩ | ⟨hnot, _⟩
    · rw [hok] at hbad
      cases hbad
    · exact hnot hlong
  · intro h
    refine { accepted := ?_, rejected := ?_ }
    · intro n hn hint dest
      rcases stringToInt_of_denotes hn dest with ⟨_, hok⟩ | ⟨hnot, _⟩
      · rw [hok, intOfLong_of_fitsInt hint]
      · exact absurd hint.fitsLong hnot
    · intro hnone dest
      by_cases hdenotes : ∃ n, Denotes s.bytes n
      · obtain ⟨n, hn⟩ := hdenotes
        rcases stringToInt_of_denotes hn dest with ⟨hlong, _⟩ | ⟨_, hbad⟩
        · exact absurd ⟨n, hn, h n hn hlong⟩ hnone
        · exact hbad
      · exact stringToInt_of_not_denotes hdenotes dest

/-- `2147483648` is accepted as the smallest `int`. -/
theorem acceptsInts_intMax_succ : ¬ ∀ s : CString, AcceptsInts s := by
  intro h
  let text : CString := ⟨decimal 2147483648, notMem_decimal rfl _⟩
  have hdenotes : Denotes text.bytes 2147483648 := by
    have hds := Denotes.digits (decimal_ne_nil 2147483648)
      (isdigit_of_mem_decimal 2147483648)
    rw [digitsVal_decimal] at hds
    exact hds
  have hnone : ¬ ∃ n, Denotes text.bytes n ∧ FitsInt n := by
    rintro ⟨n, hn, hfits⟩
    rw [hn.unique hdenotes] at hfits
    exact absurd hfits (by decide)
  have hbad := (h text).rejected hnone 0
  rcases stringToInt_of_denotes hdenotes 0 with ⟨_, hok⟩ | ⟨hnot, _⟩
  · rw [hok] at hbad
    cases hbad
  · exact hnot (by decide)

end PpsDht
