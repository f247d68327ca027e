import PpsDht.Lib.CStdlib
import PpsDht.Lib.StringStores

/-!
# Numbers and addresses as text

`decimal` is what `sprintf` writes for a number that is not negative, and
`inetNtoa` is what `inet_ntoa` returns: the four octets of an address in
decimal, with dots between them.

* `digitsVal_decimal` reads a number back from its digits, so no two numbers
  have the same text; `length_decimal_le_iff` says how long the text is.
* `append_cons_inj` takes a text apart at its first separator.  It gives the
  injectivity of every text that is built from fields with separators.
* `dotted_injective`: no two addresses have the same text.
-/

namespace CMem

/-! ## Decimal numbers -/

theorem decimal_of_lt {n : Nat} (h : n < 10) :
    decimal n = [(48 + n).toUInt8] := by
  rw [decimal, Nat.toDigits_of_lt_base h, List.map_singleton,
    Nat.toNat_digitChar_of_lt_ten h]

theorem decimal_of_le {n : Nat} (h : 10 ≤ n) :
    decimal n = decimal (n / 10) ++ decimal (n % 10) := by
  rw [decimal_of_lt (Nat.mod_lt n (by decide)), decimal,
    Nat.toDigits_of_base_le (by decide) h, List.map_append, List.map_singleton,
    Nat.toNat_digitChar_of_lt_ten (Nat.mod_lt n (by decide)), ← decimal]

theorem decimal_ne_nil (n : Nat) : decimal n ≠ [] := by
  rw [decimal, ne_eq, List.map_eq_nil_iff]
  exact Nat.toDigits_ne_nil

/-- The text of `n` has at most `k` digits. -/
theorem length_decimal_le_iff {n k : Nat} (hk : 0 < k) :
    (decimal n).length ≤ k ↔ n < 10 ^ k := by
  rw [decimal, List.length_map]
  exact Nat.length_toDigits_le_iff (by decide) hk

theorem toNat_digit {d : Nat} (h : d < 10) :
    ((48 + d).toUInt8).toNat = 48 + d := by
  rw [Nat.toUInt8_eq, UInt8.toNat_ofNat']
  omega

theorem isdigit_iff_toNat {c : UInt8} :
    isdigit c = true ↔ 48 ≤ c.toNat ∧ c.toNat ≤ 57 := by
  rw [isdigit, Bool.and_eq_true, decide_eq_true_iff, decide_eq_true_iff,
    UInt8.le_iff_toNat_le, UInt8.le_iff_toNat_le]
  rfl

theorem isdigit_of_mem_decimal (n : Nat) :
    ∀ c ∈ decimal n, isdigit c = true := by
  induction n using Nat.strong_induction_on with
  | _ n ih =>
    intro c hc
    by_cases h : n < 10
    · rw [decimal_of_lt h, List.mem_singleton] at hc
      rw [hc, isdigit_iff_toNat, toNat_digit h]
      omega
    · rw [decimal_of_le (by omega), List.mem_append] at hc
      rcases hc with hc | hc
      · exact ih (n / 10) (by omega) c hc
      · exact ih (n % 10) (by omega) c hc

/-- A character that is no digit does not occur in a number. -/
theorem notMem_decimal {c : UInt8} (h : isdigit c = false) (n : Nat) :
    c ∉ decimal n := by
  intro hc
  rw [isdigit_of_mem_decimal n c hc] at h
  cases h

theorem digitsVal_concat (ds : List UInt8) (d : UInt8) :
    digitsVal (ds ++ [d]) = 10 * digitsVal ds + (d.toNat - 48) := by
  rw [digitsVal, List.foldl_append, ← digitsVal]
  rfl

/-- The text of a number denotes it. -/
theorem digitsVal_decimal (n : Nat) : digitsVal (decimal n) = n := by
  induction n using Nat.strong_induction_on with
  | _ n ih =>
    by_cases h : n < 10
    · rw [decimal_of_lt h, ← List.nil_append [_], digitsVal_concat,
        toNat_digit h, Nat.add_sub_cancel_left]
      exact Nat.zero_add n
    · have hmod : n % 10 < 10 := Nat.mod_lt n (by decide)
      rw [decimal_of_le (by omega), decimal_of_lt hmod, digitsVal_concat,
        ih (n / 10) (by omega), toNat_digit hmod]
      omega

theorem decimal_injective : Function.Injective decimal := by
  intro m n h
  rw [← digitsVal_decimal m, h, digitsVal_decimal n]

/-- The string of a number is all of its digits. -/
@[simp] theorem bytes_cstr_decimal (n : Nat) :
    (cstr (decimal n)).bytes = decimal n :=
  bytes_cstr (notMem_decimal rfl n)

/-- A port has at most five digits. -/
theorem length_decimal_uint16 (port : UInt16) :
    (decimal port.toNat).length ≤ 5 := by
  have hlt := port.toNat_lt
  rw [length_decimal_le_iff (by decide)]
  omega

/-- `sprintf` of a number into a buffer, with the terminator. -/
theorem decimalStores_inside_iff (n size : Nat) :
    (∀ w ∈ stringStores 0 (cstr (decimal n)), w.1 < size) ↔
      (decimal n).length < size := by
  rw [stringStores_inside_iff, Nat.zero_add]
  show (cstr (decimal n)).bytes.length < size ↔ _
  rw [bytes_cstr_decimal]

/-! ## Texts with separators -/

/-- A text is determined up to the first separator, and behind it. -/
theorem append_cons_inj {α : Type*} {s : α} : ∀ {a a' b b' : List α},
    s ∉ a → s ∉ a' → a ++ s :: b = a' ++ s :: b' → a = a' ∧ b = b' := by
  intro a
  induction a with
  | nil =>
    intro a' b b' _ ha' h
    cases a' with
    | nil => exact ⟨rfl, (List.cons.inj h).2⟩
    | cons c a' =>
      exact absurd ((List.cons.inj h).1 ▸ List.mem_cons_self) ha'
  | cons c a ih =>
    intro a' b b' ha ha' h
    cases a' with
    | nil => exact absurd ((List.cons.inj h).1 ▸ List.mem_cons_self) ha
    | cons c' a' =>
      obtain ⟨rfl, htail⟩ := List.cons.inj h
      obtain ⟨rfl, rfl⟩ := ih (fun hs => ha (List.mem_cons_of_mem c hs))
        (fun hs => ha' (List.mem_cons_of_mem c hs)) htail
      exact ⟨rfl, rfl⟩

/-- A separator and a number in front of it. -/
theorem decimal_append_cons_inj {s : UInt8} (hs : isdigit s = false)
    {m n : Nat} {b b' : List UInt8}
    (h : decimal m ++ s :: b = decimal n ++ s :: b') : m = n ∧ b = b' := by
  obtain ⟨htext, hrest⟩ :=
    append_cons_inj (notMem_decimal hs m) (notMem_decimal hs n) h
  exact ⟨decimal_injective htext, hrest⟩

/-! ## Addresses -/

/-- The text of an address, the lowest octet first: `s_addr` is in network
byte order, read as a little-endian number. -/
def dotted (addr : UInt32) : List UInt8 :=
  decimal (addr.toNat % 2 ^ 8) ++ 46 ::
    (decimal (addr.toNat / 2 ^ 8 % 2 ^ 8) ++ 46 ::
      (decimal (addr.toNat / 2 ^ 16 % 2 ^ 8) ++ 46 ::
        decimal (addr.toNat / 2 ^ 24)))

/-- `inet_ntoa`. -/
def inetNtoa (addr : UInt32) : CString := cstr (dotted addr)

/-- An address consists of digits and dots. -/
theorem isdigit_or_dot_of_mem_dotted (addr : UInt32) :
    ∀ c ∈ dotted addr, isdigit c = true ∨ c = 46 := by
  intro c hc
  simp only [dotted, List.mem_append, List.mem_cons] at hc
  rcases hc with h | rfl | h | rfl | h | rfl | h
  · exact Or.inl (isdigit_of_mem_decimal _ c h)
  · exact Or.inr rfl
  · exact Or.inl (isdigit_of_mem_decimal _ c h)
  · exact Or.inr rfl
  · exact Or.inl (isdigit_of_mem_decimal _ c h)
  · exact Or.inr rfl
  · exact Or.inl (isdigit_of_mem_decimal _ c h)

@[simp] theorem bytes_inetNtoa (addr : UInt32) :
    (inetNtoa addr).bytes = dotted addr := by
  refine bytes_cstr (fun h => ?_)
  rcases isdigit_or_dot_of_mem_dotted addr 0 h with hd | hdot
  · exact absurd hd (by decide)
  · exact absurd hdot (by decide)

/-- No two addresses have the same text. -/
theorem dotted_injective : Function.Injective dotted := by
  intro x y h
  have hdot : isdigit 46 = false := rfl
  obtain ⟨ha, h⟩ := decimal_append_cons_inj hdot h
  obtain ⟨hb, h⟩ := decimal_append_cons_inj hdot h
  obtain ⟨hc, h⟩ := decimal_append_cons_inj hdot h
  have hd := decimal_injective h
  apply UInt32.toNat_inj.mp
  omega

end CMem
