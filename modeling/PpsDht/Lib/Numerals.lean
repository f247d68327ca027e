import PpsDht.Lib.Decimal

/-!
# Numerals and where `strtod` stops

`Denotes l n` is the grammar of integer numerals: an optional sign and decimal
digits.  `strtol_of_denotes` and `denotes_of_strtol` say what `strtol` makes of
a text that does not start with a blank.

`strtodRest` is the text behind the number that `strtod` reads: blanks, a sign,
and then a decimal number with a fraction and an exponent, a hexadecimal one
with a binary exponent, an infinity or a NaN.  The value of the number is not
modelled.  Every numeral is such a number (`strtodRest_of_denotes`).
-/

namespace CMem

/-! ## Integer numerals -/

/-- The text `l` is an optional sign and decimal digits, and denotes `n`. -/
inductive Denotes : List UInt8 → Int → Prop where
  | digits {ds : List UInt8} (hne : ds ≠ [])
      (hds : ∀ d ∈ ds, isdigit d = true) : Denotes ds (digitsVal ds)
  | plus {ds : List UInt8} (hne : ds ≠ [])
      (hds : ∀ d ∈ ds, isdigit d = true) : Denotes (43 :: ds) (digitsVal ds)
  | minus {ds : List UInt8} (hne : ds ≠ [])
      (hds : ∀ d ∈ ds, isdigit d = true) : Denotes (45 :: ds) (-digitsVal ds)

/-- A number with its sign. -/
def signed (neg : Bool) (n : Nat) : Int := if neg then -(n : Int) else n

theorem scanSign_digits {ds : List UInt8} (hne : ds ≠ [])
    (hds : ∀ d ∈ ds, isdigit d = true) : scanSign ds = (false, ds) := by
  obtain ⟨d, ds, rfl⟩ := List.exists_cons_of_ne_nil hne
  exact scanSign_of_isdigit (hds d List.mem_cons_self) ds

/-- The digits of a numeral stand behind its sign. -/
theorem Denotes.scan {l : List UInt8} {n : Int} (h : Denotes l n) :
    (scanSign l).2 ≠ [] ∧ (∀ d ∈ (scanSign l).2, isdigit d = true) ∧
      n = signed (scanSign l).1 (digitsVal (scanSign l).2) := by
  cases h with
  | digits hne hds =>
    rw [scanSign_digits hne hds]
    exact ⟨hne, hds, rfl⟩
  | plus hne hds => exact ⟨hne, hds, rfl⟩
  | minus hne hds => exact ⟨hne, hds, rfl⟩

theorem denotes_of_scan {l : List UInt8} (hne : (scanSign l).2 ≠ [])
    (hds : ∀ d ∈ (scanSign l).2, isdigit d = true) :
    Denotes l (signed (scanSign l).1 (digitsVal (scanSign l).2)) := by
  cases l with
  | nil => exact absurd rfl hne
  | cons c cs =>
    by_cases hminus : c = 45
    · subst hminus
      exact .minus hne hds
    · by_cases hplus : c = 43
      · subst hplus
        exact .plus hne hds
      · have hscan : scanSign (c :: cs) = (false, c :: cs) := by
          rw [scanSign, if_neg hminus, if_neg hplus]
        rw [hscan] at hds ⊢
        exact .digits (List.cons_ne_nil c cs) hds

/-- A text denotes one number. -/
theorem Denotes.unique {l : List UInt8} {m n : Int} (hm : Denotes l m)
    (hn : Denotes l n) : m = n := by
  rw [hm.scan.2.2, hn.scan.2.2]

/-- A numeral does not start with a blank. -/
theorem Denotes.head {l : List UInt8} {n : Int} (h : Denotes l n) :
    ∃ c cs, l = c :: cs ∧ isspace c = false := by
  cases h with
  | digits hne hds =>
    obtain ⟨d, ds, rfl⟩ := List.exists_cons_of_ne_nil hne
    exact ⟨d, ds, rfl, isspace_of_isdigit (hds d List.mem_cons_self)⟩
  | plus hne hds => exact ⟨43, _, rfl, by decide⟩
  | minus hne hds => exact ⟨45, _, rfl, by decide⟩

theorem Denotes.dropWhile_isspace {l : List UInt8} {n : Int}
    (h : Denotes l n) : l.dropWhile isspace = l := by
  obtain ⟨c, cs, rfl, hc⟩ := h.head
  exact List.dropWhile_cons_of_neg (by simp [hc])

theorem takeWhile_isdigit {ds : List UInt8}
    (h : ∀ d ∈ ds, isdigit d = true) : ds.takeWhile isdigit = ds :=
  List.takeWhile_eq_self_iff.mpr h

theorem dropWhile_isdigit {ds : List UInt8}
    (h : ∀ d ∈ ds, isdigit d = true) : ds.dropWhile isdigit = [] :=
  List.dropWhile_eq_nil_iff.mpr h

/-! ## `strtol` -/

/-- `strtol` reads a numeral to its end, and saturates. -/
theorem strtol_of_denotes {s : CString} {n : Int} (h : Denotes s.bytes n) :
    strtol s =
      if longMax < n then { value := longMax, rest := [], erange := true }
      else if n < longMin then
        { value := longMin, rest := [], erange := true }
      else { value := n, rest := [], erange := false } := by
  obtain ⟨hne, hds, rfl⟩ := h.scan
  rw [strtol, h.dropWhile_isspace]
  simp only [takeWhile_isdigit hds, dropWhile_isdigit hds]
  rw [if_neg hne, signed]

/-- A text that `strtol` reads to its end is a numeral, unless it is empty or
starts with a blank. -/
theorem denotes_of_strtol {s : CString} (hne : s.bytes ≠ [])
    (hblank : s.bytes.dropWhile isspace = s.bytes)
    (h : (strtol s).rest = []) : ∃ n, Denotes s.bytes n := by
  have hrest : (strtol s).rest =
      if (scanSign s.bytes).2.takeWhile isdigit = [] then s.bytes
      else (scanSign s.bytes).2.dropWhile isdigit := by
    rw [strtol, hblank]
    simp only
    split_ifs <;> rfl
  rw [hrest] at h
  by_cases hnone : (scanSign s.bytes).2.takeWhile isdigit = []
  · rw [if_pos hnone] at h
    exact absurd h hne
  · rw [if_neg hnone] at h
    refine ⟨_, denotes_of_scan ?_ (List.dropWhile_eq_nil_iff.mp h)⟩
    intro hnil
    rw [hnil] at hnone
    exact hnone rfl

/-! ## `strtod` -/

/-- `tolower`. -/
def tolower (c : UInt8) : UInt8 := if 65 ≤ c && c ≤ 90 then c + 32 else c

/-- `isxdigit`. -/
def isxdigit (c : UInt8) : Bool :=
  isdigit c || (97 ≤ tolower c && tolower c ≤ 102)

/-- A character of the sequence in `NAN(...)`: a digit, a letter or an
underscore. -/
def isNanChar (c : UInt8) : Bool :=
  isdigit c || (97 ≤ tolower c && tolower c ≤ 122) || c == 95

/-- The text behind a word, whose letters may be in either case. -/
def dropWord (word : CString) (text : List UInt8) : Option (List UInt8) :=
  if (text.take (strlen word)).map tolower = word.bytes then
    some (text.drop (strlen word))
  else none

/-- The text behind digits with an optional point. -/
def dropMantissa (isDig : UInt8 → Bool) (text : List UInt8) :
    Option (List UInt8) :=
  let whole := text.takeWhile isDig
  match text.dropWhile isDig with
  | [] => if whole = [] then none else some []
  | c :: rest =>
    if c = 46 then
      if whole = [] ∧ rest.takeWhile isDig = [] then none
      else some (rest.dropWhile isDig)
    else if whole = [] then none else some (c :: rest)

/-- The text behind an optional exponent: a letter, an optional sign, and
digits. -/
def dropExponent (letter : UInt8) (text : List UInt8) : List UInt8 :=
  match text with
  | [] => []
  | c :: rest =>
    if tolower c = letter then
      let digits := (scanSign rest).2
      if digits.takeWhile isdigit = [] then c :: rest
      else digits.dropWhile isdigit
    else c :: rest

/-- The text behind an optional sequence of characters in parentheses. -/
def dropNanChars (text : List UInt8) : List UInt8 :=
  match text with
  | [] => []
  | c :: rest =>
    if c = 40 then
      match rest.dropWhile isNanChar with
      | [] => c :: rest
      | c' :: rest' => if c' = 41 then rest' else c :: rest
    else c :: rest

/-- The text behind an infinity or a NaN. -/
def dropSpecial (text : List UInt8) : Option (List UInt8) :=
  match dropWord (lit ['i', 'n', 'f', 'i', 'n', 'i', 't', 'y']) text with
  | some rest => some rest
  | none =>
    match dropWord (lit ['i', 'n', 'f']) text with
    | some rest => some rest
    | none => (dropWord (lit ['n', 'a', 'n']) text).map dropNanChars

/-- The text behind a number without a sign. -/
def dropNumber (text : List UInt8) : Option (List UInt8) :=
  match dropWord (lit ['0', 'x']) text with
  | some hex =>
    match dropMantissa isxdigit hex with
    | some rest => some (dropExponent 112 rest)
    -- Without a hexadecimal digit the number is the zero alone.
    | none => some (text.drop 1)
  | none =>
    match dropMantissa isdigit text with
    | some rest => some (dropExponent 101 rest)
    | none => dropSpecial text

/-- `*end` after `strtod(s, &end)`: the text behind the number, or all of it
when there is none. -/
def strtodRest (s : CString) : List UInt8 :=
  match dropNumber (scanSign (s.bytes.dropWhile isspace)).2 with
  | some rest => rest
  | none => s.bytes

theorem tolower_of_isdigit {c : UInt8} (h : isdigit c = true) :
    tolower c = c := by
  rw [isdigit_iff_toNat] at h
  refine if_neg ?_
  rw [Bool.and_eq_true, decide_eq_true_iff, UInt8.le_iff_toNat_le]
  simp only [UInt8.reduceToNat]
  omega

/-- Digits do not start a word with a letter. -/
theorem dropWord_digits {word : CString} {ds : List UInt8}
    (hds : ∀ d ∈ ds, isdigit d = true) {c : UInt8} (hc : c ∈ word.bytes)
    (hletter : isdigit c = false) : dropWord word ds = none := by
  refine if_neg ?_
  intro h
  rw [← h] at hc
  obtain ⟨d, hd, rfl⟩ := List.mem_map.mp hc
  have hdigit := hds d (List.mem_of_mem_take hd)
  rw [tolower_of_isdigit hdigit, hdigit] at hletter
  cases hletter

/-- Digits are a number. -/
theorem dropNumber_digits {ds : List UInt8} (hne : ds ≠ [])
    (hds : ∀ d ∈ ds, isdigit d = true) : dropNumber ds = some [] := by
  have hmantissa : dropMantissa isdigit ds = some [] := by
    rw [dropMantissa, takeWhile_isdigit hds, dropWhile_isdigit hds]
    exact if_neg hne
  have hx : (120 : UInt8) ∈ (lit ['0', 'x']).bytes := by decide
  rw [dropNumber, dropWord_digits hds hx rfl, hmantissa]
  rfl

/-- `strtod` reads a numeral to its end. -/
theorem strtodRest_of_denotes {s : CString} {n : Int}
    (h : Denotes s.bytes n) : strtodRest s = [] := by
  obtain ⟨hne, hds, _⟩ := h.scan
  rw [strtodRest, h.dropWhile_isspace, dropNumber_digits hne hds]

end CMem
