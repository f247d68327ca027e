import PpsDht.Lib.Clockwise

/-!
# Sorting by a coarse position

The points of a ring are sorted and searched by a position `pos`, and `fine` is
a finer order that they are meant to follow: wherever `pos` tells two points
apart, `fine` orders them alike.

* `pairwise_fine_sortByPos`: the sorted list follows `fine` exactly when the
  points at one position were in the order of `fine` before.
* `start_isSuccessor_iff`: when the search by position finds the successor of a
  key in the order of `fine`.
-/

namespace FineOrder

open Clockwise

variable {α ι κ : Type*} [LinearOrder ι] [LinearOrder κ]

section Sorting

variable (pos : α → ι) (fine : α → κ)

/-- Points at different positions are in the same order by `fine`. -/
def Refines (l : List α) : Prop :=
  ∀ a ∈ l, ∀ b ∈ l, pos a < pos b → fine a < fine b

/-- A relation between the points at one position, group by group. -/
theorem pairwise_ties_iff (r : α → α → Prop) (l : List α) :
    l.Pairwise (fun a b => pos a = pos b → r a b) ↔
      ∀ p, (group pos p l).Pairwise r := by
  simp only [group, List.pairwise_filter, decide_eq_true_iff]
  constructor
  · intro h p
    refine h.imp ?_
    intro a b hab ha hb
    exact hab (ha.trans hb.symm)
  · intro h
    rw [List.pairwise_iff_getElem]
    intro i j hi hj hij heq
    exact List.pairwise_iff_getElem.mp (h (pos l[j])) i j hi hj hij heq rfl

/-- A stable sort keeps the order of the points at one position. -/
theorem pairwise_ties_sortByPos (r : α → α → Prop) (l : List α) :
    (sortByPos pos l).Pairwise (fun a b => pos a = pos b → r a b) ↔
      l.Pairwise (fun a b => pos a = pos b → r a b) := by
  rw [pairwise_ties_iff, pairwise_ties_iff]
  simp only [group_sortByPos]

/-- When a sorted list follows the finer order, too. -/
theorem pairwise_fine_sortByPos {l : List α} (h : Refines pos fine l) :
    (sortByPos pos l).Pairwise (fun a b => fine a ≤ fine b) ↔
      l.Pairwise (fun a b => pos a = pos b → fine a ≤ fine b) := by
  rw [← pairwise_ties_sortByPos]
  constructor
  · intro hfine
    refine hfine.imp ?_
    intro a b hab _
    exact hab
  · intro hties
    have hboth := hties.and (pairwise_sortByPos pos l)
    refine hboth.imp_of_mem ?_
    rintro a b ha hb ⟨htie, hle⟩
    rcases hle.eq_or_lt with heq | hlt
    · exact htie heq
    · exact (h a (List.mem_mergeSort.mp ha) b (List.mem_mergeSort.mp hb) hlt).le

end Sorting

section Successor

variable (pos : α → ι) (fine : α → κ)

/-- The least point that is not before `k`, or the least of all if there is
none. -/
def IsSuccessor (k : κ) (l : List α) (a : α) : Prop :=
  (k ≤ fine a ∧ ∀ b ∈ l, k ≤ fine b → fine a ≤ fine b) ∨
    (∀ b ∈ l, fine b < k) ∧ ∀ b ∈ l, fine a ≤ fine b

/-- What the search by position finds: every point in front of it is before the
key, and it is not, unless all of them are. -/
theorem start_cases {l : List α} (p : ι) {a : α}
    (hstart : l[start pos p l]? = some a) :
    (∀ b ∈ l, pos b < p) ∧ start pos p l = 0 ∨
      p ≤ pos a ∧ ∀ b ∈ l.take (start pos p l), pos b < p := by
  cases hfind : l.findIdx? (fun a => decide (p ≤ pos a)) with
  | none =>
    refine Or.inl ⟨?_, by rw [start, hfind]; rfl⟩
    intro b hb
    have hnot := List.findIdx?_eq_none_iff.mp hfind b hb
    simpa using hnot
  | some i =>
    have hi : start pos p l = i := by
      rw [start, hfind]
      rfl
    rw [hi] at hstart ⊢
    obtain ⟨hlt, hp, hbefore⟩ := List.findIdx?_eq_some_iff_getElem.mp hfind
    obtain ⟨_, ha⟩ := List.getElem?_eq_some_iff.mp hstart
    refine Or.inr ⟨by simpa [ha] using hp, ?_⟩
    intro b hb
    obtain ⟨j, hj, rfl⟩ := List.mem_iff_getElem.mp hb
    rw [List.length_take] at hj
    have hnot := hbefore j (by omega)
    rw [List.getElem_take]
    simpa using hnot

/-- Behind a point of an ordered list no point is before it. -/
theorem le_of_mem_drop {l : List α}
    (h : l.Pairwise (fun a b => fine a ≤ fine b)) {i : Nat} {a : α}
    (ha : l[i]? = some a) : ∀ b ∈ l.drop i, fine a ≤ fine b := by
  intro b hb
  have hcons : l.drop i = a :: l.drop (i + 1) := by
    obtain ⟨hlt, hget⟩ := List.getElem?_eq_some_iff.mp ha
    rw [List.drop_eq_getElem_cons hlt, hget]
  have hdrop := h.sublist (List.drop_sublist i l)
  rw [hcons] at hb hdrop
  rcases List.mem_cons.mp hb with rfl | hb
  · exact le_refl _
  · exact (List.pairwise_cons.mp hdrop).1 b hb

/-- A search that does not come around finds a point `a` that no point at its
position or behind the key is before. -/
theorem le_of_start {l : List α} {p : ι} {a b : α}
    (hfine : l.Pairwise (fun a b => fine a ≤ fine b))
    (hfront : ∀ b ∈ l.take (start pos p l), pos b < p)
    (hstart : l[start pos p l]? = some a) (hb : b ∈ l) (hp : ¬ pos b < p) :
    fine a ≤ fine b := by
  rw [← List.take_append_drop (start pos p l) l, List.mem_append] at hb
  rcases hb with hb | hb
  · exact absurd (hfront b hb) hp
  · exact le_of_mem_drop fine hfine hstart b hb

/-- On a list that is in the finer order, the search by position finds the
successor of `k` exactly when `k` is not behind a point at its own position, or
all points are there and before `k`. -/
theorem start_isSuccessor_iff {l : List α} {p : ι} {k : κ} {a : α}
    (hfine : l.Pairwise (fun a b => fine a ≤ fine b))
    (hrefines : Refines pos fine l)
    (hbehind : ∀ b ∈ l, p < pos b → k < fine b)
    (hbefore : ∀ b ∈ l, pos b < p → fine b < k)
    (hstart : l[start pos p l]? = some a) :
    IsSuccessor fine k l a ↔
      (∀ b ∈ l, pos b = p → k ≤ fine b) ∨
        ∀ b ∈ l, pos b = p ∧ fine b < k := by
  have ha : a ∈ l := List.mem_of_getElem? hstart
  rcases start_cases pos p hstart with ⟨hall, hzero⟩ | ⟨hle, hfront⟩
  · -- All points are before the key, and the search comes around.
    rw [hzero] at hstart
    constructor
    · intro _
      exact Or.inl (fun b hb heq => absurd heq (hall b hb).ne)
    · intro _
      exact Or.inr ⟨fun b hb => hbefore b hb (hall b hb),
        le_of_mem_drop fine hfine hstart⟩
  · have hleast : ∀ b ∈ l, ¬ pos b < p → fine a ≤ fine b :=
      fun b hb hp => le_of_start pos fine hfine hfront hstart hb hp
    by_cases hk : k ≤ fine a
    · constructor
      · exact fun _ => Or.inl
          (fun b hb heq => hk.trans (hleast b hb heq.not_lt))
      · exact fun _ => Or.inl ⟨hk, fun b hb hkb => hleast b hb
          (fun hlt => absurd hkb (not_le.mpr (hbefore b hb hlt)))⟩
    · have heq : pos a = p := by
        rcases hle.eq_or_lt with heq | hlt
        · exact heq.symm
        · exact absurd (hbehind a ha hlt).le hk
      constructor
      · rintro (⟨hge, _⟩ | ⟨hnone, hmin⟩)
        · exact absurd hge hk
        · refine Or.inr (fun b hb => ⟨?_, hnone b hb⟩)
          rcases lt_trichotomy (pos b) p with hlt | hb' | hgt
          · exact absurd (hmin b hb)
              (not_le.mpr (hrefines b hb a ha (heq.symm ▸ hlt)))
          · exact hb'
          · exact absurd (hnone b hb) (not_lt.mpr (hbehind b hb hgt).le)
      · rintro (hnot | hone)
        · exact absurd (hnot a ha heq) hk
        · exact Or.inr ⟨fun b hb => (hone b hb).2,
            fun b hb => hleast b hb (hone b hb).1.not_lt⟩

end Successor

end FineOrder
