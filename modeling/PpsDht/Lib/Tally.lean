import Mathlib.Data.List.Count

/-!
# Counting occurrences in a sequence

`firstWith p seen l` reads `l` from the left, after `seen` has been read, and
stops at the first element whose number of occurrences so far satisfies `p`.
`firstToOccur n` is the special case of the first element to occur `n` times,
and `FirstToOccur` says the same without running.

* `firstWith_eq_firstToOccur`: a predicate that first holds at `n` stops where
  `firstToOccur n` stops.
* `firstToOccur_eq_some_iff` and `firstToOccur_eq_none_iff` are what
  `firstToOccur` means.
-/

namespace Tally

variable {α : Type*} [DecidableEq α]

/-- The first element whose number of occurrences so far satisfies `p`. -/
def firstWith (p : Nat → Bool) : List α → List α → Option α
  | _, [] => none
  | seen, a :: l =>
    if p (seen.count a + 1) then some a else firstWith p (a :: seen) l

/-- The first element to occur `n` times. -/
def firstToOccur (n : Nat) (l : List α) : Option α :=
  firstWith (fun j => j == n) [] l

/-- `a` is the first element of `l` to occur `n` times. -/
def FirstToOccur (n : Nat) (l : List α) (a : α) : Prop :=
  ∃ pre post, l = pre ++ a :: post ∧ pre.count a + 1 = n ∧
    ∀ b, pre.count b < n

theorem firstWith_eq_none {p : Nat → Bool} (hp : ∀ j, p j = false)
    (l seen : List α) : firstWith p seen l = none := by
  induction l generalizing seen with
  | nil => rfl
  | cons a l ih => rw [firstWith, hp, if_neg (by simp), ih]

/-- The number of occurrences that stops the reading is not larger than the
number of all occurrences. -/
theorem exists_of_firstWith {p : Nat → Bool} {a : α} (l : List α) :
    ∀ seen : List α, firstWith p seen l = some a →
      ∃ j, p j = true ∧ j ≤ seen.count a + l.count a := by
  induction l with
  | nil =>
    intro seen h
    cases h
  | cons c l ih =>
    intro seen h
    rw [firstWith] at h
    by_cases hc : p (seen.count c + 1) = true
    · rw [if_pos hc] at h
      cases h
      refine ⟨_, hc, ?_⟩
      rw [List.count_cons_self]
      omega
    · rw [if_neg hc] at h
      obtain ⟨j, hj, hle⟩ := ih (c :: seen) h
      refine ⟨j, hj, ?_⟩
      rw [List.count_cons] at hle ⊢
      omega

/-- The reading stops at an element of the list. -/
theorem mem_of_firstWith {p : Nat → Bool} {a : α} (l : List α) :
    ∀ seen : List α, firstWith p seen l = some a → a ∈ l := by
  induction l with
  | nil =>
    intro seen h
    cases h
  | cons c l ih =>
    intro seen h
    rw [firstWith] at h
    by_cases hc : p (seen.count c + 1) = true
    · rw [if_pos hc] at h
      cases h
      exact List.mem_cons_self
    · rw [if_neg hc] at h
      exact List.mem_cons_of_mem c (ih (c :: seen) h)

/-- Reading an element that does not reach `n` keeps all counts below `n`. -/
theorem count_cons_lt {n : Nat} {seen : List α} {a : α}
    (hseen : ∀ b, seen.count b < n) (ha : seen.count a + 1 ≠ n) :
    ∀ b, (a :: seen).count b < n := by
  intro b
  have hb := hseen b
  rw [List.count_cons]
  by_cases hab : a = b
  · subst hab
    simp only [beq_self_eq_true, if_true]
    omega
  · simp only [beq_iff_eq, hab, if_false]
    omega

private theorem firstWith_least {p : Nat → Bool} {n : Nat} (hp : p n = true)
    (hlt : ∀ j, 1 ≤ j → j < n → p j = false) (l : List α) :
    ∀ seen : List α, (∀ b, seen.count b < n) →
      firstWith p seen l = firstWith (fun j => j == n) seen l := by
  induction l with
  | nil =>
    intro seen _
    rfl
  | cons a l ih =>
    intro seen hseen
    have ha := hseen a
    rw [firstWith, firstWith]
    by_cases hn : seen.count a + 1 = n
    · rw [hn, hp]
      simp
    · have hfalse := hlt (seen.count a + 1) (by omega) (by omega)
      rw [hfalse, if_neg (by simp), if_neg (by simpa using hn)]
      exact ih (a :: seen) (count_cons_lt hseen hn)

/-- A predicate that holds at `n`, and at no smaller number of occurrences,
stops at the first element to occur `n` times. -/
theorem firstWith_eq_firstToOccur {p : Nat → Bool} {n : Nat} (hn : 1 ≤ n)
    (hp : p n = true) (hlt : ∀ j, 1 ≤ j → j < n → p j = false) (l : List α) :
    firstWith p [] l = firstToOccur n l :=
  firstWith_least hp hlt l [] (fun b => by rw [List.count_nil]; omega)

private theorem firstWith_some {n : Nat} {a : α} (l : List α) :
    ∀ seen : List α, (∀ b, seen.count b < n) →
      (firstWith (fun j => j == n) seen l = some a ↔
        ∃ pre post, l = pre ++ a :: post ∧
          pre.count a + seen.count a + 1 = n ∧
          ∀ b, pre.count b + seen.count b < n) := by
  induction l with
  | nil =>
    intro seen _
    simp [firstWith]
  | cons c l ih =>
    intro seen hseen
    rw [firstWith]
    by_cases hc : seen.count c + 1 = n
    · rw [if_pos (by simpa using hc), Option.some.injEq]
      constructor
      · intro hca
        subst hca
        refine ⟨[], l, rfl, by simpa using hc, ?_⟩
        intro b
        simpa using hseen b
      · intro h
        obtain ⟨pre, post, hl, _, hpre⟩ := h
        cases pre with
        | nil => exact (List.cons.inj hl).1
        | cons d pre =>
          have hd : c = d := (List.cons.inj hl).1
          have hcount := hpre c
          rw [← hd, List.count_cons_self] at hcount
          omega
    · have hrec := ih (c :: seen) (count_cons_lt hseen hc)
      have hshift : ∀ (pre : List α) (b : α),
          pre.count b + (c :: seen).count b =
            (c :: pre).count b + seen.count b := by
        intro pre b
        rw [List.count_cons, List.count_cons]
        omega
      rw [if_neg (by simpa using hc), hrec]
      constructor
      · intro h
        obtain ⟨pre, post, hl, hcount, hpre⟩ := h
        refine ⟨c :: pre, post, by rw [hl, List.cons_append], ?_, ?_⟩
        · rw [← hshift]
          exact hcount
        · intro b
          rw [← hshift]
          exact hpre b
      · intro h
        obtain ⟨pre, post, hl, hcount, hpre⟩ := h
        cases pre with
        | nil =>
          have hca : c = a := (List.cons.inj hl).1
          rw [List.count_nil, ← hca] at hcount
          omega
        | cons d pre =>
          obtain ⟨hd, htl⟩ := List.cons.inj hl
          subst hd
          refine ⟨pre, post, htl, ?_, ?_⟩
          · rw [hshift]
            exact hcount
          · intro b
            rw [hshift]
            exact hpre b

theorem firstToOccur_eq_some_iff {n : Nat} (hn : 1 ≤ n) (l : List α) (a : α) :
    firstToOccur n l = some a ↔ FirstToOccur n l a := by
  have h := firstWith_some (n := n) (a := a) l []
    (fun b => by rw [List.count_nil]; omega)
  simp only [List.count_nil, Nat.add_zero] at h
  exact h

private theorem firstWith_none {n : Nat} (l : List α) :
    ∀ seen : List α, (∀ b, seen.count b < n) →
      (firstWith (fun j => j == n) seen l = none ↔
        ∀ b, seen.count b + l.count b < n) := by
  induction l with
  | nil =>
    intro seen hseen
    simpa [firstWith] using hseen
  | cons c l ih =>
    intro seen hseen
    rw [firstWith]
    by_cases hc : seen.count c + 1 = n
    · rw [if_pos (by simpa using hc)]
      constructor
      · intro h
        cases h
      · intro h
        have hcount := h c
        rw [List.count_cons_self] at hcount
        omega
    · rw [if_neg (by simpa using hc),
        ih (c :: seen) (count_cons_lt hseen hc)]
      refine forall_congr' fun b => ?_
      rw [List.count_cons, List.count_cons]
      omega

theorem firstToOccur_eq_none_iff {n : Nat} (hn : 1 ≤ n) (l : List α) :
    firstToOccur n l = none ↔ ∀ b, l.count b < n := by
  have h := firstWith_none (n := n) l []
    (fun b => by rw [List.count_nil]; omega)
  simp only [List.count_nil, Nat.zero_add] at h
  exact h

end Tally
