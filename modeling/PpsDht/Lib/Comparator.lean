import Mathlib.Data.List.Sort
import Mathlib.Data.Int.Order.Basic

/-!
# Three-way comparators

A comparator of `qsort` returns a negative number, zero or a positive number.
`Consistent` is what makes it a valid one: swapping the arguments swaps the
sign, it is transitive, and it is zero for equal keys only.

* `consistent_iff_of_nonneg`: a comparator that is never negative is consistent
  only on elements of one key.
* `grouped_mergeSort`: to sort by merging, it is enough that "not positive" is
  a total preorder whose ties have one key.  The elements of a key then stand
  next to each other.
-/

namespace Comparator

variable {α κ : Type*}

/-- `cmp` is a valid comparator of the elements of `l` by their key. -/
structure Consistent (cmp : α → α → Int) (key : α → κ) (l : List α) : Prop where
  swap : ∀ a ∈ l, ∀ b ∈ l, (cmp b a).sign = -(cmp a b).sign
  trans : ∀ a ∈ l, ∀ b ∈ l, ∀ c ∈ l,
    cmp a b ≤ 0 → cmp b c ≤ 0 → cmp a c ≤ 0
  zero : ∀ a ∈ l, ∀ b ∈ l, cmp a b = 0 ↔ key a = key b

/-- Between two elements of one key there is no element of another one. -/
def Grouped (key : α → κ) (l : List α) : Prop :=
  ∀ (i j k : Nat) (a b c : α), i < j → j < k → l[i]? = some a →
    l[j]? = some b → l[k]? = some c → key a = key c → key b = key a

/-- A comparator without negative results. -/
theorem consistent_iff_of_nonneg {cmp : α → α → Int} {key : α → κ} {l : List α}
    (hnonneg : ∀ a b, 0 ≤ cmp a b) (hself : ∀ a b, key a = key b → cmp a b = 0) :
    Consistent cmp key l ↔ ∀ a ∈ l, ∀ b ∈ l, key a = key b := by
  constructor
  · intro h a ha b hb
    have hsign := h.swap a ha b hb
    have hab : 0 ≤ (cmp a b).sign := Int.sign_nonneg_iff.mpr (hnonneg a b)
    have hba : 0 ≤ (cmp b a).sign := Int.sign_nonneg_iff.mpr (hnonneg b a)
    have hzero : cmp a b = 0 := Int.sign_eq_zero_iff_zero.mp (by omega)
    exact (h.zero a ha b hb).mp hzero
  · intro h
    have hzero : ∀ a ∈ l, ∀ b ∈ l, cmp a b = 0 :=
      fun a ha b hb => hself a b (h a ha b hb)
    refine { swap := ?_, trans := ?_, zero := ?_ }
    · intro a ha b hb
      rw [hzero a ha b hb, hzero b hb a ha]
      rfl
    · intro a ha b hb c hc _ _
      exact (hzero a ha c hc).le
    · intro a ha b hb
      exact ⟨fun _ => h a ha b hb, hself a b⟩

/-- In a list that is ordered by "not positive", ties are all there is between
two elements of one key. -/
theorem grouped_of_pairwise {cmp : α → α → Int} {key : α → κ} {l : List α}
    (htrans : ∀ a b c, cmp a b ≤ 0 → cmp b c ≤ 0 → cmp a c ≤ 0)
    (hties : ∀ a b, cmp a b ≤ 0 → cmp b a ≤ 0 → key a = key b)
    (hsame : ∀ a b, key a = key b → cmp a b ≤ 0)
    (h : l.Pairwise (fun a b => cmp a b ≤ 0)) : Grouped key l := by
  intro i j k a b c hij hjk ha hb hc hkey
  obtain ⟨hi, rfl⟩ := List.getElem?_eq_some_iff.mp ha
  obtain ⟨hj, rfl⟩ := List.getElem?_eq_some_iff.mp hb
  obtain ⟨hk, rfl⟩ := List.getElem?_eq_some_iff.mp hc
  have hle := List.pairwise_iff_getElem.mp h
  have hback : cmp l[j] l[i] ≤ 0 :=
    htrans _ _ _ (hle j k hj hk hjk) (hsame _ _ hkey.symm)
  exact hties _ _ hback (hle i j hi hj hij)

/-- Sorting by merging needs the preorder only. -/
theorem grouped_mergeSort {cmp : α → α → Int} {key : α → κ}
    (htrans : ∀ a b c, cmp a b ≤ 0 → cmp b c ≤ 0 → cmp a c ≤ 0)
    (htotal : ∀ a b, cmp a b ≤ 0 ∨ cmp b a ≤ 0)
    (hties : ∀ a b, cmp a b ≤ 0 → cmp b a ≤ 0 → key a = key b)
    (hsame : ∀ a b, key a = key b → cmp a b ≤ 0) (l : List α) :
    Grouped key (l.mergeSort (fun a b => decide (cmp a b ≤ 0))) := by
  refine grouped_of_pairwise htrans hties hsame ?_
  have hle_trans : ∀ a b c, decide (cmp a b ≤ 0) = true →
      decide (cmp b c ≤ 0) = true → decide (cmp a c ≤ 0) = true := by
    intro a b c hab hbc
    simp only [decide_eq_true_iff] at hab hbc ⊢
    exact htrans a b c hab hbc
  have hle_total : ∀ a b,
      (decide (cmp a b ≤ 0) || decide (cmp b a ≤ 0)) = true := by
    intro a b
    simp only [Bool.or_eq_true, decide_eq_true_iff]
    exact htotal a b
  refine (List.pairwise_mergeSort hle_trans hle_total l).imp ?_
  intro a b hab
  simpa using hab

end Comparator
