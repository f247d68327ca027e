import PpsDht.Lib.CString

/-!
# The C standard library on bytes

Numbers as text, and a byte stream with an end-of-file indicator.  `long` and
`unsigned long` are the 64-bit types, and the locale is the C locale.

* `strtol` and `scanUnsigned` accept the same text: blanks, an optional sign,
  and digits.  `strtol` saturates at the bounds of `long`, `scanUnsigned` at
  the largest `unsigned long`; a minus sign negates the latter modulo
  `2 ^ 64`.
* `fgetc` at the end of the input sets the indicator that `feof` reads, and so
  does a `fscanf` that reads digits up to the end.
* `schar` and `int32` are the conversions between integer types of different
  width.
* `inetPton` accepts four decimal numbers below 256 without leading zeros.
-/

namespace CMem

/-- `isspace`. -/
def isspace (c : UInt8) : Bool := c == 32 || (9 ≤ c && c ≤ 13)

/-- `isdigit`. -/
def isdigit (c : UInt8) : Bool := 48 ≤ c && c ≤ 57

/-- The number that a run of digits denotes. -/
def digitsVal (ds : List UInt8) : Nat :=
  ds.foldl (fun n d => 10 * n + (d.toNat - 48)) 0

/-- An optional sign: whether it is a minus, and the rest. -/
def scanSign : List UInt8 → Bool × List UInt8
  | [] => (false, [])
  | c :: cs =>
    if c = 45 then (true, cs) else if c = 43 then (false, cs)
    else (false, c :: cs)

/-- The result of `strtol`: the value, the text behind the number, and whether
`errno` is set to `ERANGE`. -/
structure Strtol where
  value : Int
  rest : List UInt8
  erange : Bool
  deriving DecidableEq

/-- `LONG_MAX`. -/
def longMax : Int := 2 ^ 63 - 1

/-- `LONG_MIN`. -/
def longMin : Int := -2 ^ 63

/-- `strtol(s, &end, 10)`. -/
def strtol (s : CString) : Strtol :=
  let (neg, text) := scanSign (s.bytes.dropWhile isspace)
  let digits := text.takeWhile isdigit
  if digits = [] then { value := 0, rest := s.bytes, erange := false }
  else
    let rest := text.dropWhile isdigit
    let n : Int := if neg then -(digitsVal digits : Int) else digitsVal digits
    if longMax < n then { value := longMax, rest := rest, erange := true }
    else if n < longMin then { value := longMin, rest := rest, erange := true }
    else { value := n, rest := rest, erange := false }

/-- `sprintf` with `%d` or `%lu`, for a number that is not negative. -/
def decimal (n : Nat) : List UInt8 :=
  (Nat.toDigits 10 n).map (fun c => c.toNat.toUInt8)

/-! ## Integer conversions -/

/-- The value of a `char`: 8 bits, signed. -/
def schar (b : UInt8) : Int :=
  if b.toNat < 2 ^ 7 then b.toNat else (b.toNat : Int) - 2 ^ 8

/-- `(int) n`: the lowest 32 bits, signed. -/
def int32 (n : Nat) : Int :=
  if n % 2 ^ 32 < 2 ^ 31 then (n % 2 ^ 32 : Nat)
  else (n % 2 ^ 32 : Nat) - 2 ^ 32

theorem int32_of_lt {n : Nat} (h : n < 2 ^ 31) : int32 n = n := by
  rw [int32, Nat.mod_eq_of_lt (by omega), if_pos h]

/-! ## Streams -/

/-- A `FILE *` open for reading. -/
structure Stream where
  rest : List UInt8
  eof : Bool
  deriving DecidableEq

/-- `fopen` of a file with the given content. -/
def fopen (content : List UInt8) : Stream := { rest := content, eof := false }

/-- `fgetc`; `none` is `EOF`. -/
def fgetc (file : Stream) : Option UInt8 × Stream :=
  match file.rest with
  | [] => (none, { file with eof := true })
  | c :: cs => (some c, { file with rest := cs })

/-- `fscanf` with a conversion `%lu`; `none` when it does not return 1. -/
def scanUnsigned (file : Stream) : Option (Nat × Stream) :=
  let (neg, text) := scanSign (file.rest.dropWhile isspace)
  let digits := text.takeWhile isdigit
  if digits = [] then none
  else
    let rest := text.dropWhile isdigit
    let n := digitsVal digits
    let value :=
      if 2 ^ 64 ≤ n then 2 ^ 64 - 1
      else if neg then (2 ^ 64 - n) % 2 ^ 64 else n
    some (value, { rest := rest, eof := file.eof || rest.isEmpty })

/-! ## Reading a number -/

theorem isspace_of_isdigit {c : UInt8} (h : isdigit c = true) :
    isspace c = false := by
  unfold isdigit at h
  unfold isspace
  simp only [Bool.and_eq_true, decide_eq_true_iff, UInt8.le_iff_toNat_le] at h
  simp only [Bool.or_eq_false_iff, beq_eq_false_iff_ne, Bool.and_eq_false_iff,
    decide_eq_false_iff_not, UInt8.le_iff_toNat_le, ne_eq,
    ← UInt8.toNat_inj]
  simp only [UInt8.reduceToNat] at h ⊢
  omega

theorem not_isdigit_of_isspace {c : UInt8} (h : isspace c = true) :
    isdigit c = false := by
  cases hd : isdigit c with
  | false => rfl
  | true => exact absurd (h.symm.trans (isspace_of_isdigit hd)) (by decide)

theorem scanSign_of_isdigit {c : UInt8} (h : isdigit c = true)
    (cs : List UInt8) : scanSign (c :: cs) = (false, c :: cs) := by
  have hminus : c ≠ 45 := by
    rintro rfl
    exact absurd h (by decide)
  have hplus : c ≠ 43 := by
    rintro rfl
    exact absurd h (by decide)
  rw [scanSign, if_neg hminus, if_neg hplus]

/-- `fscanf` skips blanks, reads the digits, and stops in front of the next
byte. -/
theorem scanUnsigned_digits {blanks digits : List UInt8} {c : UInt8}
    (rest : List UInt8) (eof : Bool)
    (hblanks : ∀ b ∈ blanks, isspace b = true)
    (hdigits : ∀ d ∈ digits, isdigit d = true) (hne : digits ≠ [])
    (hc : isdigit c = false) (hval : digitsVal digits < 2 ^ 64) :
    scanUnsigned { rest := blanks ++ (digits ++ c :: rest), eof := eof } =
      some (digitsVal digits, { rest := c :: rest, eof := eof }) := by
  obtain ⟨d, ds, rfl⟩ := List.exists_cons_of_ne_nil hne
  have hd := hdigits d List.mem_cons_self
  have hblank : (blanks ++ (d :: ds ++ c :: rest)).dropWhile isspace =
      d :: (ds ++ c :: rest) := by
    rw [List.dropWhile_append_of_pos hblanks, List.cons_append,
      List.dropWhile_cons_of_neg (by simp [isspace_of_isdigit hd])]
  have htake : (d :: (ds ++ c :: rest)).takeWhile isdigit = d :: ds := by
    rw [← List.cons_append, List.takeWhile_append_of_pos hdigits,
      List.takeWhile_cons_of_neg (by simp [hc]), List.append_nil]
  have hdrop : (d :: (ds ++ c :: rest)).dropWhile isdigit = c :: rest := by
    rw [← List.cons_append, List.dropWhile_append_of_pos hdigits,
      List.dropWhile_cons_of_neg (by simp [hc])]
  rw [scanUnsigned, hblank, scanSign_of_isdigit hd]
  simp only [htake, hdrop]
  rw [if_neg (List.cons_ne_nil d ds), if_neg (by omega)]
  simp

theorem exists_sign (cs : List UInt8) :
    ∃ sign, cs = sign ++ (scanSign cs).2 := by
  cases cs with
  | nil => exact ⟨[], rfl⟩
  | cons c cs =>
    rw [scanSign]
    split_ifs
    · exact ⟨[c], rfl⟩
    · exact ⟨[c], rfl⟩
    · exact ⟨[], rfl⟩

/-- `fscanf` stops behind a digit, and sees the end of the input when nothing
follows. -/
theorem scanUnsigned_spec {text : List UInt8} {n : Nat} {file : Stream}
    (h : scanUnsigned (fopen text) = some (n, file)) :
    n < 2 ^ 64 ∧ file.eof = file.rest.isEmpty ∧
      ∃ front d, isdigit d = true ∧ text = front ++ d :: file.rest := by
  rw [scanUnsigned] at h
  simp only at h
  split at h
  · cases h
  rename_i hdigits
  cases h
  refine ⟨?_, Bool.false_or _, ?_⟩
  · split_ifs
    · omega
    · exact Nat.mod_lt _ (by omega)
    · omega
  · obtain ⟨sign, hsign⟩ := exists_sign (text.dropWhile isspace)
    obtain ⟨ds, d, hds⟩ :=
      (List.eq_nil_or_concat' _).resolve_left hdigits
    have hd : d ∈ (scanSign (text.dropWhile isspace)).2.takeWhile isdigit := by
      rw [show (scanSign (text.dropWhile isspace)).2.takeWhile isdigit =
        ds ++ [d] from hds]
      exact List.mem_append_right ds List.mem_cons_self
    refine ⟨text.takeWhile isspace ++ sign ++ ds, d, List.mem_takeWhile_imp hd,
      ?_⟩
    calc text
        = text.takeWhile isspace ++ text.dropWhile isspace :=
          List.takeWhile_append_dropWhile.symm
      _ = text.takeWhile isspace ++
            (sign ++ (scanSign (text.dropWhile isspace)).2) := by rw [← hsign]
      _ = text.takeWhile isspace ++ (sign ++ ((ds ++ [d]) ++
            (scanSign (text.dropWhile isspace)).2.dropWhile isdigit)) := by
          rw [← show (scanSign (text.dropWhile isspace)).2.takeWhile isdigit =
            ds ++ [d] from hds, List.takeWhile_append_dropWhile]
      _ = _ := by simp only [List.append_assoc, List.cons_append, List.nil_append,
            fopen]

/-- The second of two numbers. -/
theorem scanUnsigned_second {text : List UInt8} {n n' : Nat}
    {file file' : Stream} (h : scanUnsigned (fopen text) = some (n, file))
    (h' : scanUnsigned file = some (n', file')) :
    n' < 2 ^ 64 ∧ file'.eof = file'.rest.isEmpty ∧
      ∃ front d, isdigit d = true ∧ text = front ++ d :: file'.rest := by
  obtain ⟨_, heof, front, d, _, htext⟩ := scanUnsigned_spec h
  -- The first number is not at the end of the input.
  have hfile : file = fopen file.rest := by
    obtain ⟨rest, eof⟩ := file
    cases rest with
    | nil => cases h'
    | cons c rest =>
      simp only [List.isEmpty_cons] at heof
      rw [heof]
      rfl
  rw [hfile] at h'
  obtain ⟨hlt, heof', front', d', hd', hrest⟩ := scanUnsigned_spec h'
  refine ⟨hlt, heof', front ++ d :: front', d', hd', ?_⟩
  rw [htext, hrest, List.append_assoc, List.cons_append]

/-! ## Internet addresses -/

/-- The octets of `inet_pton`: `done` are the finished ones, `cur` the one
being read once it has a digit. -/
def inetOctets : List UInt8 → List Nat → Option Nat → Option (List Nat)
  | [], done, cur =>
    match cur with
    | none => none
    | some n => if done.length = 3 then some (done ++ [n]) else none
  | c :: cs, done, cur =>
    if isdigit c then
      match cur with
      | none =>
        if done.length = 4 then none
        else inetOctets cs done (some (c.toNat - 48))
      | some n =>
        if n = 0 then none
        else
          let new := n * 10 + (c.toNat - 48)
          if 255 < new then none else inetOctets cs done (some new)
    else if c = 46 then
      match cur with
      | none => none
      | some n =>
        if done.length = 3 then none else inetOctets cs (done ++ [n]) none
    else none

/-- `inet_pton(AF_INET, ip, &addr)`: the address in network byte order, read
as a little-endian number. -/
def inetPton (ip : CString) : Option UInt32 :=
  match inetOctets ip.bytes [] none with
  | some [a, b, c, d] =>
    some (UInt32.ofNat (a + 2 ^ 8 * b + 2 ^ 16 * c + 2 ^ 24 * d))
  | _ => none

/-- An address consists of digits and dots. -/
theorem isdigit_or_dot_of_inetOctets : ∀ {cs : List UInt8} {done : List Nat}
    {cur : Option Nat} {octets : List Nat},
    inetOctets cs done cur = some octets →
      ∀ c ∈ cs, isdigit c = true ∨ c = 46 := by
  intro cs
  induction cs with
  | nil =>
    intro done cur octets _ c hc
    exact absurd hc List.not_mem_nil
  | cons c cs ih =>
    intro done cur octets h
    have hrest : ∃ done' cur', inetOctets cs done' cur' = some octets := by
      unfold inetOctets at h
      cases cur with
      | none =>
        simp only at h
        split_ifs at h
        exact ⟨_, _, h⟩
      | some n =>
        simp only at h
        split_ifs at h
        · exact ⟨_, _, h⟩
        · exact ⟨_, _, h⟩
    have hhead : isdigit c = true ∨ c = 46 := by
      by_contra hbad
      rw [not_or] at hbad
      unfold inetOctets at h
      rw [if_neg hbad.1, if_neg hbad.2] at h
      cases h
    obtain ⟨done', cur', hcs⟩ := hrest
    intro b hb
    rcases List.mem_cons.mp hb with rfl | hb
    · exact hhead
    · exact ih hcs b hb

/-- An address is not empty and holds no blank. -/
theorem not_isspace_of_inetPton {ip : CString}
    (h : (inetPton ip).isSome = true) :
    ip.bytes ≠ [] ∧ ∀ c ∈ ip.bytes, isspace c = false := by
  have hoctets : ∃ octets, inetOctets ip.bytes [] none = some octets := by
    cases ho : inetOctets ip.bytes [] none with
    | none =>
      rw [inetPton, ho] at h
      cases h
    | some octets => exact ⟨octets, rfl⟩
  obtain ⟨octets, hsome⟩ := hoctets
  constructor
  · intro hnil
    rw [hnil] at hsome
    cases hsome
  · intro c hc
    rcases isdigit_or_dot_of_inetOctets hsome c hc with hd | rfl
    · exact isspace_of_isdigit hd
    · decide

/-- `htons`. -/
def htons (port : UInt16) : UInt16 := (port <<< 8) ||| (port >>> 8)

/-- `ntohs`. -/
def ntohs (port : UInt16) : UInt16 := (port <<< 8) ||| (port >>> 8)

theorem toNat_ntohs (port : UInt16) :
    (ntohs port).toNat = 2 ^ 8 * (port.toNat % 2 ^ 8) + port.toNat / 2 ^ 8 := by
  have hlt := port.toNat_lt
  have hlow : (port <<< 8).toNat = 2 ^ 8 * (port.toNat % 2 ^ 8) := by
    rw [UInt16.toNat_shiftLeft, Nat.shiftLeft_eq]
    simp only [UInt16.reduceToNat, Nat.reduceMod, Nat.reducePow]
    omega
  have hhigh : (port >>> 8).toNat = port.toNat / 2 ^ 8 := by
    rw [UInt16.toNat_shiftRight, Nat.shiftRight_eq_div_pow]
    rfl
  rw [ntohs, UInt16.toNat_or, hlow, hhigh,
    ← Nat.two_pow_add_eq_or_of_lt (by omega)]

/-- No two ports are the same number in network byte order. -/
theorem ntohs_injective : Function.Injective ntohs := by
  intro p q h
  have heq := congrArg UInt16.toNat h
  rw [toNat_ntohs, toNat_ntohs] at heq
  have hp := p.toNat_lt
  have hq := q.toNat_lt
  apply UInt16.toNat_inj.mp
  omega

end CMem
