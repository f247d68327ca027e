import Mathlib.Data.List.Sort
import Mathlib.Data.List.Rotate
import Mathlib.Data.List.Dedup
import Mathlib.Data.Finset.Sort

/-!
# Clockwise walks on a ring of owned points

A ring is a list of points.  `pos` is the position of a point and `owner` is
the party that holds it; a party may hold many points.  `firsts` keeps the
first point of each owner, and `clockwise` walks the ring once from the first
point that is not before a key.  The replicas of a key are the first points
met on that walk.

* `firsts_append`, `firsts_filter`, `nodup_owner_firsts` and
  `length_firsts` are the algebra of `firsts`.
* `mergeSort_filter`: a stable sort commutes with a filter.
* `clockwise_eq_filter`: on a sorted ring the walk is the list of the points
  from the key on, followed by the points before it.
* `replicas_filter` and `replicas_filter_prefix`: taking owners out of the ring
  does not reorder the replicas of the others.
* `replicas_subset_holders`: rings that differ in the points of some owners
  place a key among not many more owners than one ring does.
* `owners_replicas_congr` and `owners_replicas_group`: the owners of all
  replicas depend on the order of the points only through the order in which
  the owners of one position are listed, and they show that order.
-/

namespace Clockwise

variable {α β ι : Type*}

/-! ## The first point of each owner -/

section Firsts

variable [DecidableEq β] (owner : α → β)

/-- The first point of each owner that is not among `seen`. -/
def firsts (seen : List β) : List α → List α
  | [] => []
  | a :: l =>
    if owner a ∈ seen then firsts seen l
    else a :: firsts (owner a :: seen) l

theorem firsts_cons_of_mem {seen : List β} {a : α} (l : List α)
    (h : owner a ∈ seen) :
    firsts owner seen (a :: l) = firsts owner seen l := by
  rw [firsts, if_pos h]

theorem firsts_cons_of_not_mem {seen : List β} {a : α} (l : List α)
    (h : owner a ∉ seen) :
    firsts owner seen (a :: l) = a :: firsts owner (owner a :: seen) l := by
  rw [firsts, if_neg h]

/-- Only the set of the owners seen matters. -/
theorem firsts_congr {seen seen' : List β} (h : ∀ b, b ∈ seen ↔ b ∈ seen')
    (l : List α) : firsts owner seen l = firsts owner seen' l := by
  induction l generalizing seen seen' with
  | nil => rfl
  | cons a l ih =>
    have hcons : ∀ b, b ∈ owner a :: seen ↔ b ∈ owner a :: seen' := by
      intro b
      rw [List.mem_cons, List.mem_cons, h b]
    rw [firsts, firsts, ih h, ih hcons]
    simp only [h]

theorem firsts_append (seen : List β) (l l' : List α) :
    firsts owner seen (l ++ l') =
      firsts owner seen l ++ firsts owner (l.map owner ++ seen) l' := by
  induction l generalizing seen with
  | nil => rfl
  | cons a l ih =>
    rw [List.cons_append, firsts, firsts]
    split
    · rename_i hmem
      rw [ih]
      congr 1
      refine firsts_congr owner ?_ l'
      intro b
      simp only [List.map_cons, List.mem_append, List.mem_cons]
      constructor
      · rintro (h | h)
        · exact Or.inl (Or.inr h)
        · exact Or.inr h
      · rintro ((rfl | h) | h)
        · exact Or.inr hmem
        · exact Or.inl h
        · exact Or.inr h
    · rw [ih, List.cons_append]
      congr 2
      refine firsts_congr owner ?_ l'
      intro b
      simp only [List.map_cons, List.mem_append, List.mem_cons]
      tauto

/-- Points of owners already seen add nothing. -/
theorem firsts_eq_nil {seen : List β} {l : List α}
    (h : ∀ a ∈ l, owner a ∈ seen) : firsts owner seen l = [] := by
  induction l with
  | nil => rfl
  | cons a l ih =>
    rw [firsts, if_pos (h a List.mem_cons_self)]
    exact ih (fun b hb => h b (List.mem_cons_of_mem a hb))

theorem mem_owner_firsts (seen : List β) (l : List α) (b : β) :
    b ∈ (firsts owner seen l).map owner ↔ b ∈ l.map owner ∧ b ∉ seen := by
  induction l generalizing seen with
  | nil => simp [firsts]
  | cons a l ih =>
    rw [firsts]
    split
    · rename_i hmem
      rw [ih, List.map_cons, List.mem_cons]
      constructor
      · rintro ⟨h, hb⟩
        exact ⟨Or.inr h, hb⟩
      · rintro ⟨rfl | h, hb⟩
        · exact absurd hmem hb
        · exact ⟨h, hb⟩
    · rename_i hmem
      rw [List.map_cons, List.mem_cons, ih, List.map_cons, List.mem_cons,
        List.mem_cons, not_or]
      constructor
      · rintro (rfl | ⟨h, _, hb⟩)
        · exact ⟨Or.inl rfl, hmem⟩
        · exact ⟨Or.inr h, hb⟩
      · rintro ⟨h, hb⟩
        by_cases he : b = owner a
        · exact Or.inl he
        · exact Or.inr ⟨h.resolve_left he, he, hb⟩

/-- No owner is met twice. -/
theorem nodup_owner_firsts (seen : List β) (l : List α) :
    ((firsts owner seen l).map owner).Nodup := by
  induction l generalizing seen with
  | nil => exact List.nodup_nil
  | cons a l ih =>
    rw [firsts]
    split
    · exact ih seen
    · rw [List.map_cons, List.nodup_cons, mem_owner_firsts]
      exact ⟨fun h => h.2 List.mem_cons_self, ih _⟩

/-- One point is kept for each owner of the list. -/
theorem length_firsts (l : List α) :
    (firsts owner [] l).length = (l.map owner).dedup.length := by
  have hset : ((firsts owner [] l).map owner).toFinset =
      (l.map owner).toFinset := by
    ext b
    rw [List.mem_toFinset, List.mem_toFinset, mem_owner_firsts]
    simp
  have hcard := congrArg Finset.card hset
  rw [List.toFinset_card_of_nodup (nodup_owner_firsts owner [] l),
    List.card_toFinset, List.length_map] at hcard
  exact hcard

/-- Taking owners out of the list takes their points out of the result. -/
theorem firsts_filter (seen : List β) (l : List α) (p : β → Bool) :
    firsts owner seen (l.filter (fun a => p (owner a))) =
      (firsts owner seen l).filter (fun a => p (owner a)) := by
  have hcongr : ∀ (x : β) (seen : List β) (l : List α),
      (∀ a ∈ l, owner a ≠ x) →
      firsts owner (x :: seen) l = firsts owner seen l := by
    intro x seen l
    induction l generalizing seen with
    | nil => exact fun _ => rfl
    | cons a l ih =>
      intro h
      have hne := h a List.mem_cons_self
      have htail : ∀ b ∈ l, owner b ≠ x :=
        fun b hb => h b (List.mem_cons_of_mem a hb)
      have hswap : firsts owner (owner a :: x :: seen) l =
          firsts owner (owner a :: seen) l := by
        rw [← ih (owner a :: seen) htail]
        refine firsts_congr owner ?_ l
        intro b
        simp only [List.mem_cons]
        tauto
      rw [firsts, firsts, ih seen htail, hswap]
      simp only [List.mem_cons, hne, false_or]
  induction l generalizing seen with
  | nil => rfl
  | cons a l ih =>
    by_cases hx : p (owner a)
    · rw [List.filter_cons_of_pos (by simpa using hx), firsts, firsts]
      split
      · exact ih seen
      · rw [List.filter_cons_of_pos (by simpa using hx), ih]
    · rw [List.filter_cons_of_neg (by simpa using hx), firsts]
      split
      · exact ih seen
      · rw [List.filter_cons_of_neg (by simpa using hx), ← ih]
        refine (hcongr (owner a) seen _ ?_).symm
        intro b hb heq
        exact hx (heq ▸ (List.mem_filter.mp hb).2)

/-! ### The owners of a list -/

/-- The owners of a list, in the order in which they are met. -/
def ownersOf (l : List α) : List β := (firsts owner [] l).map owner

/-- The owners that are not among `seen`. -/
theorem map_owner_firsts (seen : List β) (l : List α) :
    (firsts owner seen l).map owner =
      (ownersOf owner l).filter (fun b => b ∉ seen) := by
  induction l generalizing seen with
  | nil => rfl
  | cons a l ih =>
    have hfirst : ownersOf owner (a :: l) =
        owner a :: (ownersOf owner l).filter (fun b => b ∉ [owner a]) := by
      rw [ownersOf, firsts_cons_of_not_mem owner l List.not_mem_nil,
        List.map_cons, ih]
    rw [hfirst]
    by_cases hmem : owner a ∈ seen
    · rw [firsts_cons_of_mem owner l hmem, ih,
        List.filter_cons_of_neg (by simpa using hmem), List.filter_filter]
      apply List.filter_congr
      intro b _
      by_cases hb : b = owner a
      · simp [hb, hmem]
      · simp [hb]
    · rw [firsts_cons_of_not_mem owner l hmem, List.map_cons, ih,
        List.filter_cons_of_pos (by simpa using hmem), List.filter_filter]
      congr 1
      apply List.filter_congr
      intro b _
      simp [Bool.and_comm]

theorem ownersOf_append (l l' : List α) :
    ownersOf owner (l ++ l') =
      ownersOf owner l ++
        (ownersOf owner l').filter (fun b => b ∉ ownersOf owner l) := by
  rw [ownersOf, firsts_append, List.map_append, map_owner_firsts owner _ l']
  congr 1
  apply List.filter_congr
  intro b _
  simp [ownersOf, mem_owner_firsts]

theorem mem_ownersOf (l : List α) (b : β) :
    b ∈ ownersOf owner l ↔ b ∈ l.map owner := by
  rw [ownersOf, mem_owner_firsts]
  exact and_iff_left List.not_mem_nil

theorem length_ownersOf (l : List α) :
    (ownersOf owner l).length = (l.map owner).dedup.length := by
  rw [ownersOf, List.length_map, length_firsts]

theorem ownersOf_map {γ : Type*} (f : γ → α) (l : List γ) :
    ownersOf owner (l.map f) = ownersOf (fun c => owner (f c)) l := by
  have hfirsts : ∀ (l : List γ) (seen : List β),
      firsts owner seen (l.map f) =
        (firsts (fun c => owner (f c)) seen l).map f := by
    intro l
    induction l with
    | nil => exact fun _ => rfl
    | cons c l ih =>
      intro seen
      rw [List.map_cons, firsts, firsts, ih, ih]
      split <;> rfl
  rw [ownersOf, hfirsts, List.map_map]
  rfl

/-- A list with one owner. -/
theorem ownersOf_eq_singleton {l : List α} {b : β} (hne : l ≠ [])
    (h : ∀ a ∈ l, owner a = b) : ownersOf owner l = [b] := by
  obtain ⟨a, t, rfl⟩ := List.exists_cons_of_ne_nil hne
  have ha := h a List.mem_cons_self
  rw [ownersOf, firsts_cons_of_not_mem owner t List.not_mem_nil, ha,
    firsts_eq_nil owner, List.map_singleton, ha]
  intro c hc
  rw [h c (List.mem_cons_of_mem a hc)]
  exact List.mem_singleton.mpr rfl

/-- Lists that are made up of parts with the same owners have the same
owners. -/
theorem ownersOf_flatMap_congr {parts parts' : ι → List α} {ps : List ι}
    (h : ∀ p, ownersOf owner (parts p) = ownersOf owner (parts' p)) :
    ownersOf owner (ps.flatMap parts) = ownersOf owner (ps.flatMap parts') := by
  induction ps with
  | nil => rfl
  | cons p ps ih =>
    rw [List.flatMap_cons, List.flatMap_cons, ownersOf_append, ownersOf_append,
      h p, ih]

end Firsts

/-! ## Stable sorting -/

section StableSort

variable [LinearOrder ι] (pos : α → ι)

/-- The stable sort by position. -/
def sortByPos (l : List α) : List α :=
  l.mergeSort (fun a b => decide (pos a ≤ pos b))

private theorem le_trans' (a b c : α) (hab : decide (pos a ≤ pos b) = true)
    (hbc : decide (pos b ≤ pos c) = true) :
    decide (pos a ≤ pos c) = true := by
  rw [decide_eq_true_iff] at hab hbc ⊢
  exact hab.trans hbc

private theorem le_total' (a b : α) :
    (decide (pos a ≤ pos b) || decide (pos b ≤ pos a)) = true := by
  rw [Bool.or_eq_true, decide_eq_true_iff, decide_eq_true_iff]
  exact le_total _ _

theorem pairwise_sortByPos (l : List α) :
    (sortByPos pos l).Pairwise (fun a b => pos a ≤ pos b) :=
  (List.pairwise_mergeSort (le_trans' pos) (le_total' pos) l).imp
    (fun h => of_decide_eq_true h)

/-- Two splits of one sorted list at the same position are the same split. -/
private theorem split_unique {a : α} :
    ∀ {l₁ l₂ m₁ m₂ : List α}, l₁ ++ l₂ = m₁ ++ m₂ →
      (∀ b ∈ l₁, pos b < pos a) → (∀ b ∈ m₁, pos b < pos a) →
      (∀ b ∈ l₂, pos a ≤ pos b) → (∀ b ∈ m₂, pos a ≤ pos b) →
      l₁ = m₁ ∧ l₂ = m₂
  | [], l₂, [], m₂, h, _, _, _, _ => ⟨rfl, by simpa using h⟩
  | [], l₂, b :: m₁, m₂, h, _, hm₁, hl₂, _ => by
    have hb : b ∈ l₂ := by
      have h' : l₂ = b :: (m₁ ++ m₂) := by simpa using h
      rw [h']
      exact List.mem_cons_self
    exact absurd (hm₁ b List.mem_cons_self) (not_lt.mpr (hl₂ b hb))
  | b :: l₁, l₂, [], m₂, h, hl₁, _, _, hm₂ => by
    have hb : b ∈ m₂ := by
      have h' : b :: (l₁ ++ l₂) = m₂ := by simpa using h
      rw [← h']
      exact List.mem_cons_self
    exact absurd (hl₁ b List.mem_cons_self) (not_lt.mpr (hm₂ b hb))
  | b :: l₁, l₂, c :: m₁, m₂, h, hl₁, hm₁, hl₂, hm₂ => by
    rw [List.cons_append, List.cons_append, List.cons.injEq] at h
    obtain ⟨h1, h2⟩ := split_unique h.2
      (fun x hx => hl₁ x (List.mem_cons_of_mem b hx))
      (fun x hx => hm₁ x (List.mem_cons_of_mem c hx)) hl₂ hm₂
    exact ⟨by rw [h.1, h1], h2⟩

/-- Where a stable sort puts a new first element: behind the smaller ones, in
front of the others. -/
private theorem sortByPos_cons (a : α) (l : List α) :
    ∃ l₁ l₂, sortByPos pos (a :: l) = l₁ ++ a :: l₂ ∧
      sortByPos pos l = l₁ ++ l₂ ∧ (∀ b ∈ l₁, pos b < pos a) ∧
      ∀ b ∈ l₂, pos a ≤ pos b := by
  obtain ⟨l₁, l₂, hcons, hl, hlt⟩ :=
    List.mergeSort_cons (le_trans' pos) (le_total' pos) a l
  refine ⟨l₁, l₂, hcons, hl, ?_, ?_⟩
  · intro b hb
    have := hlt b hb
    simpa using this
  · intro b hb
    have hsorted := pairwise_sortByPos pos (a :: l)
    rw [show sortByPos pos (a :: l) = l₁ ++ a :: l₂ from hcons,
      List.pairwise_append] at hsorted
    exact (List.pairwise_cons.mp hsorted.2.1).1 b hb

/-- A stable sort commutes with a filter. -/
theorem mergeSort_filter (p : α → Bool) (l : List α) :
    sortByPos pos (l.filter p) = (sortByPos pos l).filter p := by
  induction l with
  | nil => simp [sortByPos]
  | cons a l ih =>
    obtain ⟨l₁, l₂, hcons, hl, hlt, hle⟩ := sortByPos_cons pos a l
    rw [hcons, List.filter_append]
    by_cases hp : p a
    · obtain ⟨m₁, m₂, hcons', hm, hlt', hle'⟩ :=
        sortByPos_cons pos a (l.filter p)
      have hsplit : l₁.filter p ++ l₂.filter p = m₁ ++ m₂ := by
        rw [← List.filter_append, ← hl, ← ih, hm]
      obtain ⟨h1, h2⟩ := split_unique pos hsplit
        (fun b hb => hlt b (List.mem_of_mem_filter hb)) hlt'
        (fun b hb => hle b (List.mem_of_mem_filter hb)) hle'
      rw [List.filter_cons_of_pos hp, List.filter_cons_of_pos hp, hcons',
        h1, h2]
    · rw [List.filter_cons_of_neg hp, List.filter_cons_of_neg hp, ih, hl,
        List.filter_append]

/-- The points at one position, in their order. -/
def group (p : ι) (l : List α) : List α :=
  l.filter (fun a => decide (pos a = p))

theorem mem_group {p : ι} {l : List α} {a : α} :
    a ∈ group pos p l ↔ a ∈ l ∧ pos a = p := by
  rw [group, List.mem_filter, decide_eq_true_iff]

/-- A stable sort keeps the order of the points at one position. -/
theorem group_sortByPos (p : ι) (l : List α) :
    group pos p (sortByPos pos l) = group pos p l := by
  have hsorted : (group pos p l).Pairwise
      (fun a b => decide (pos a ≤ pos b) = true) := by
    apply List.pairwise_of_forall_mem_list
    intro a ha b hb
    rw [((mem_group pos).mp ha).2, ((mem_group pos).mp hb).2,
      decide_eq_true_iff]
  have hself : sortByPos pos (group pos p l) = group pos p l :=
    List.mergeSort_of_pairwise hsorted
  rw [group, ← mergeSort_filter]
  exact hself

theorem group_map {γ : Type*} (f : γ → α) (p : ι) (l : List γ) :
    group pos p (l.map f) = (group (fun c => pos (f c)) p l).map f :=
  List.filter_map

/-- A filter by position keeps a group or drops it. -/
theorem group_filter (q : ι → Bool) (p : ι) (l : List α) :
    group pos p (l.filter (fun a => q (pos a))) =
      if q p then group pos p l else [] := by
  rw [group, List.filter_filter]
  by_cases hq : q p
  · rw [if_pos hq, group]
    apply List.filter_congr
    intro a _
    by_cases ha : pos a = p
    · simp [ha, hq]
    · simp [ha]
  · rw [if_neg hq, List.filter_eq_nil_iff]
    intro a _ h
    rw [Bool.and_eq_true, decide_eq_true_iff] at h
    rw [h.1] at h
    exact hq h.2

/-- On a sorted list the points at `p` stand before the points behind `p`. -/
theorem filter_le_eq (p : ι) {l : List α}
    (h : l.Pairwise (fun a b => pos a ≤ pos b)) :
    l.filter (fun a => decide (p ≤ pos a)) =
      group pos p l ++ l.filter (fun a => decide (p < pos a)) := by
  induction l with
  | nil => rfl
  | cons a l ih =>
    rw [List.pairwise_cons] at h
    have ihl := ih h.2
    unfold group at ihl ⊢
    rcases lt_trichotomy (pos a) p with hlt | rfl | hgt
    · rw [List.filter_cons_of_neg (by simpa using hlt),
        List.filter_cons_of_neg (by simpa using hlt.ne),
        List.filter_cons_of_neg (by simpa using hlt.le), ihl]
    · rw [List.filter_cons_of_pos (by simp), List.filter_cons_of_pos (by simp),
        List.filter_cons_of_neg (by simp), ihl, List.cons_append]
    · -- All the points from here on are behind `p`.
      have hnone : l.filter (fun b => decide (pos b = p)) = [] := by
        rw [List.filter_eq_nil_iff]
        intro b hb
        have hb' := hgt.trans_le (h.1 b hb)
        simpa using hb'.ne'
      rw [hnone, List.nil_append] at ihl
      rw [List.filter_cons_of_pos (by simpa using hgt.le),
        List.filter_cons_of_neg (by simpa using hgt.ne'),
        List.filter_cons_of_pos (by simpa using hgt), ihl, hnone,
        List.nil_append]

/-- A sorted list is its groups, position after position. -/
theorem eq_flatMap_group {ps : List ι} (hps : ps.Pairwise (· < ·)) :
    ∀ {l : List α}, l.Pairwise (fun a b => pos a ≤ pos b) →
      (∀ a ∈ l, pos a ∈ ps) → l = ps.flatMap (fun p => group pos p l) := by
  induction ps with
  | nil =>
    intro l _ hmem
    exact List.eq_nil_iff_forall_not_mem.mpr (fun a ha =>
      List.not_mem_nil (hmem a ha))
  | cons p ps ih =>
    intro l hsorted hmem
    rw [List.pairwise_cons] at hps
    have hle : ∀ a ∈ l, p ≤ pos a := by
      intro a ha
      rcases List.mem_cons.mp (hmem a ha) with h | h
      · exact h.ge
      · exact (hps.1 _ h).le
    have hrest : ∀ a ∈ l.filter (fun a => decide (p < pos a)),
        pos a ∈ ps := by
      intro a ha
      have hlt : p < pos a := by simpa using (List.mem_filter.mp ha).2
      exact (List.mem_cons.mp (hmem a (List.mem_of_mem_filter ha))).resolve_left
        hlt.ne'
    have hgroups : ∀ q ∈ ps,
        group pos q (l.filter (fun a => decide (p < pos a))) =
          group pos q l := by
      intro q hq
      rw [group_filter pos (fun r => decide (p < r)),
        if_pos (decide_eq_true (hps.1 q hq))]
    calc l = l.filter (fun a => decide (p ≤ pos a)) :=
          (List.filter_eq_self.mpr (fun a ha => by simpa using hle a ha)).symm
      _ = group pos p l ++ l.filter (fun a => decide (p < pos a)) :=
          filter_le_eq pos p hsorted
      _ = group pos p l ++ ps.flatMap (fun q =>
            group pos q (l.filter (fun a => decide (p < pos a)))) := by
          rw [← ih hps.2 (hsorted.filter _) hrest]
      _ = group pos p l ++ ps.flatMap (fun q => group pos q l) := by
          rw [List.flatMap_congr hgroups]
      _ = (p :: ps).flatMap (fun q => group pos q l) := by
          rw [List.flatMap_cons]

/-- Sorted lists whose groups have the same owners have the same owners. -/
theorem ownersOf_congr [DecidableEq β] (owner : α → β) {l l' : List α}
    (hsorted : l.Pairwise (fun a b => pos a ≤ pos b))
    (hsorted' : l'.Pairwise (fun a b => pos a ≤ pos b))
    (h : ∀ p, ownersOf owner (group pos p l) =
      ownersOf owner (group pos p l')) :
    ownersOf owner l = ownersOf owner l' := by
  let ps := ((l ++ l').map pos).toFinset.sort
  have hps : ps.Pairwise (· < ·) := (Finset.sortedLT_sort _).pairwise
  have hmem : ∀ a ∈ l ++ l', pos a ∈ ps := by
    intro a ha
    rw [Finset.mem_sort, List.mem_toFinset]
    exact List.mem_map_of_mem ha
  rw [eq_flatMap_group pos hps hsorted
      (fun a ha => hmem a (List.mem_append_left _ ha)),
    eq_flatMap_group pos hps hsorted'
      (fun a ha => hmem a (List.mem_append_right _ ha))]
  exact ownersOf_flatMap_congr owner h

end StableSort

/-! ## The walk -/

section Walk

variable [LinearOrder ι] (pos : α → ι)

/-- The index where the walk for `key` starts: the first point that is not
before `key`, or `0` when every point is. -/
def start (key : ι) (l : List α) : Nat :=
  (l.findIdx? (fun a => decide (key ≤ pos a))).getD 0

/-- The points of the ring, once around from `start`. -/
def clockwise (key : ι) (l : List α) : List α := l.rotate (start pos key l)

theorem start_lt {key : ι} {l : List α} (h : l ≠ []) :
    start pos key l < l.length := by
  unfold start
  cases hf : l.findIdx? (fun a => decide (key ≤ pos a)) with
  | none => exact List.length_pos_iff.mpr h
  | some i =>
    rw [List.findIdx?_eq_some_iff_getElem] at hf
    exact hf.1

theorem clockwise_eq (key : ι) (l : List α) :
    clockwise pos key l =
      l.drop (start pos key l) ++ l.take (start pos key l) := by
  cases l with
  | nil => simp [clockwise]
  | cons a l =>
    exact List.rotate_eq_drop_append_take
      (start_lt pos (List.cons_ne_nil a l)).le

/-- On a sorted ring the walk is the points from `key` on, then the points
before it. -/
theorem clockwise_eq_filter (key : ι) {l : List α}
    (h : l.Pairwise (fun a b => pos a ≤ pos b)) :
    clockwise pos key l =
      l.filter (fun a => decide (key ≤ pos a)) ++
        l.filter (fun a => decide (pos a < key)) := by
  have hsplit : ∀ {l : List α}, l.Pairwise (fun a b => pos a ≤ pos b) →
      l.drop (l.findIdx (fun a => decide (key ≤ pos a))) =
        l.filter (fun a => decide (key ≤ pos a)) ∧
      l.take (l.findIdx (fun a => decide (key ≤ pos a))) =
        l.filter (fun a => decide (pos a < key)) := by
    intro l h
    induction l with
    | nil => exact ⟨rfl, rfl⟩
    | cons a l ih =>
      rw [List.pairwise_cons] at h
      rw [List.findIdx_cons]
      by_cases ha : key ≤ pos a
      · have hall : ∀ b ∈ a :: l, key ≤ pos b := by
          intro b hb
          rcases List.mem_cons.mp hb with rfl | hb
          · exact ha
          · exact ha.trans (h.1 b hb)
        constructor
        · rw [List.filter_eq_self.mpr (fun b hb => by simpa using hall b hb)]
          simp [ha]
        · rw [List.filter_eq_nil_iff.mpr
            (fun b hb => by simpa using hall b hb)]
          simp [ha]
      · obtain ⟨hd, ht⟩ := ih h.2
        rw [List.filter_cons_of_neg (by simpa using ha),
          List.filter_cons_of_pos (by simpa using ha), ← hd, ← ht]
        simp [ha]
  obtain ⟨hdrop, htake⟩ := hsplit h
  rw [clockwise_eq, ← hdrop, ← htake]
  unfold start
  cases hf : l.findIdx? (fun a => decide (key ≤ pos a)) with
  | none =>
    -- Every point is before the key: both lists are the whole ring.
    have hlen : l.findIdx (fun a => decide (key ≤ pos a)) = l.length := by
      rw [List.findIdx_eq_length]
      exact List.findIdx?_eq_none_iff.mp hf
    simp [hlen]
  | some i =>
    have hi : l.findIdx (fun a => decide (key ≤ pos a)) = i :=
      (List.findIdx?_eq_some_iff_findIdx_eq.mp hf).2
    rw [hi]
    rfl

/-- Walking and filtering commute on sorted rings. -/
theorem clockwise_filter (key : ι) (p : α → Bool) {l : List α}
    (h : l.Pairwise (fun a b => pos a ≤ pos b)) :
    clockwise pos key (l.filter p) = (clockwise pos key l).filter p := by
  rw [clockwise_eq_filter pos key h,
    clockwise_eq_filter pos key (h.filter p), List.filter_append,
    List.filter_filter, List.filter_filter, List.filter_filter,
    List.filter_filter]
  congr 1 <;>
  · apply List.filter_congr
    intro a _
    exact Bool.and_comm _ _

end Walk

/-! ## Replicas -/

section Replicas

variable [LinearOrder ι] [DecidableEq β] (pos : α → ι) (owner : α → β)

/-- The first `n` points of different owners, clockwise from `key`. -/
def replicas (key : ι) (n : Nat) (l : List α) : List α :=
  (firsts owner [] (clockwise pos key l)).take n

/-- The first replica is the point at which the walk starts. -/
theorem head?_replicas (key : ι) {n : Nat} (hn : 1 ≤ n) (l : List α) :
    (replicas pos owner key n l).head? = l[start pos key l]? := by
  by_cases hl : l = []
  · simp [hl, replicas, clockwise, firsts]
  · have hlt : start pos key l < l.length := start_lt pos hl
    obtain ⟨k, rfl⟩ : ∃ k, n = k + 1 := ⟨n - 1, by omega⟩
    rw [replicas, clockwise_eq, List.drop_eq_getElem_cons hlt,
      List.cons_append, firsts_cons_of_not_mem owner _ List.not_mem_nil,
      List.take_succ_cons, List.head?_cons, List.getElem?_eq_getElem hlt]

/-- The replicas have different owners. -/
theorem nodup_owner_replicas (key : ι) (n : Nat) (l : List α) :
    ((replicas pos owner key n l).map owner).Nodup := by
  rw [replicas, List.map_take]
  exact (nodup_owner_firsts owner [] _).sublist (List.take_sublist n _)

/-- There are as many replicas as wanted, or one for each owner. -/
theorem length_replicas (key : ι) (n : Nat) (l : List α) :
    (replicas pos owner key n l).length =
      min n (l.map owner).dedup.length := by
  have hperm : ((clockwise pos key l).map owner).Perm (l.map owner) :=
    (List.rotate_perm l _).map owner
  rw [replicas, List.length_take, length_firsts, hperm.dedup.length_eq]

/-- If as many are wanted, the replicas are one for each owner. -/
theorem perm_owner_replicas (key : ι) {n : Nat} {l : List α}
    (h : (l.map owner).dedup.length ≤ n) :
    ((replicas pos owner key n l).map owner).Perm (l.map owner).dedup := by
  have hperm : ((clockwise pos key l).map owner).Perm (l.map owner) :=
    (List.rotate_perm l _).map owner
  have htake : replicas pos owner key n l =
      firsts owner [] (clockwise pos key l) := by
    rw [replicas, List.take_of_length_le]
    rw [length_firsts, hperm.dedup.length_eq]
    exact h
  rw [htake]
  apply (List.perm_ext_iff_of_nodup (nodup_owner_firsts owner [] _)
    (List.nodup_dedup _)).mpr
  intro b
  rw [mem_owner_firsts, hperm.mem_iff, List.mem_dedup]
  exact and_iff_left List.not_mem_nil

private theorem filter_take_prefix (p : α → Bool) (n : Nat) (l : List α) :
    (l.take n).filter p <+: (l.filter p).take n := by
  rw [List.prefix_take_iff]
  constructor
  · exact (List.take_prefix n l).filter p
  · exact (List.length_filter_le p _).trans (List.length_take_le n l)

/-- Taking owners out of the ring takes them out of the replicas and leaves the
others in place. -/
theorem replicas_filter (key : ι) (n : Nat) (l : List α) (p : β → Bool) :
    (replicas pos owner key n (sortByPos pos l)).filter
        (fun a => p (owner a)) <+:
      replicas pos owner key n
        (sortByPos pos (l.filter (fun a => p (owner a)))) := by
  have h := filter_take_prefix (fun a => p (owner a)) n
    (firsts owner [] (clockwise pos key (sortByPos pos l)))
  rw [← firsts_filter,
    ← clockwise_filter pos key _ (pairwise_sortByPos pos l),
    ← mergeSort_filter] at h
  exact h

/-- Taking one owner out of the ring takes it out of the replicas and leaves
the others in place. -/
theorem replicas_filter_prefix (key : ι) (n : Nat) (l : List α) (x : β) :
    (replicas pos owner key n (sortByPos pos l)).filter
        (fun a => owner a ≠ x) <+:
      replicas pos owner key n
        (sortByPos pos (l.filter (fun a => owner a ≠ x))) :=
  replicas_filter pos owner key n l (fun b => decide (b ≠ x))

theorem map_owner_replicas (key : ι) (n : Nat) (l : List α) :
    (replicas pos owner key n l).map owner =
      (ownersOf owner (clockwise pos key l)).take n :=
  List.map_take

/-- The owners that can hold a key on the ring `l` or on a ring that differs
from it in the points of some owners. -/
def holders (changed : List β) (key : ι) (n : Nat) (l : List α) : List β :=
  changed ++ (replicas pos owner key n (sortByPos pos
    (l.filter (fun a => decide (owner a ∉ changed))))).map owner

theorem length_holders_le (changed : List β) (key : ι) (n : Nat)
    (l : List α) :
    (holders pos owner changed key n l).length ≤ changed.length + n := by
  rw [holders, List.length_append, List.length_map]
  exact Nat.add_le_add_left (List.length_take_le n _) _

theorem replicas_subset_holders (changed : List β) (key : ι) {n m : Nat}
    (hn : n ≤ m) (l : List α) :
    (replicas pos owner key n (sortByPos pos l)).map owner ⊆
      holders pos owner changed key m l := by
  intro b hb
  rw [holders, List.mem_append]
  by_cases hchanged : b ∈ changed
  · exact Or.inl hchanged
  · obtain ⟨a, ha, rfl⟩ := List.mem_map.mp hb
    have hkept := (replicas_filter pos owner key n l
      (fun b => decide (b ∉ changed))).subset
        (List.mem_filter.mpr ⟨ha, decide_eq_true hchanged⟩)
    exact Or.inr (List.mem_map_of_mem
      (List.take_subset_take_left _ hn hkept))

/-- Two rings that list the same owners at every position have the same
replicas. -/
theorem owners_replicas_congr {l l' : List α}
    (h : ∀ p, ownersOf owner (group pos p l) =
      ownersOf owner (group pos p l')) (key : ι) (n : Nat) :
    (replicas pos owner key n (sortByPos pos l)).map owner =
      (replicas pos owner key n (sortByPos pos l')).map owner := by
  have hgroup : ∀ p, ownersOf owner (group pos p (sortByPos pos l)) =
      ownersOf owner (group pos p (sortByPos pos l')) := by
    intro p
    rw [group_sortByPos, group_sortByPos, h p]
  have hsorted := pairwise_sortByPos pos l
  have hsorted' := pairwise_sortByPos pos l'
  -- Either half of the walk is a sorted list that holds whole groups.
  have hhalf : ∀ q : ι → Bool,
      ownersOf owner ((sortByPos pos l).filter (fun a => q (pos a))) =
        ownersOf owner ((sortByPos pos l').filter (fun a => q (pos a))) := by
    intro q
    refine ownersOf_congr pos owner (hsorted.filter _) (hsorted'.filter _) ?_
    intro p
    rw [group_filter, group_filter]
    cases q p with
    | false => rfl
    | true => exact hgroup p
  rw [map_owner_replicas, map_owner_replicas,
    clockwise_eq_filter pos key hsorted, clockwise_eq_filter pos key hsorted',
    ownersOf_append, ownersOf_append, hhalf (fun p => decide (key ≤ p)),
    hhalf (fun p => decide (p < key))]

/-- The first replicas for the key `p` are the owners listed at `p`. -/
theorem owners_replicas_group (p : ι) (l : List α) :
    (replicas pos owner p (ownersOf owner (group pos p l)).length
        (sortByPos pos l)).map owner = ownersOf owner (group pos p l) := by
  have hsorted := pairwise_sortByPos pos l
  rw [map_owner_replicas, clockwise_eq_filter pos p hsorted,
    filter_le_eq pos p hsorted, group_sortByPos, List.append_assoc,
    ownersOf_append, List.take_left]

end Replicas

end Clockwise
