import Mathlib.Data.List.Nodup
import Mathlib.Data.List.Perm.Subperm
import Mathlib.Logic.Relation

/-!
# Runs of a protocol, and quorums

A protocol is a step relation between system states, and a run is its
reflexive-transitive closure.  `run_inv` is the only induction over runs.
`exists_mem_of_quorums` is the counting argument of every quorum protocol: two
sets of members that are together larger than the whole have a member in
common.
-/

namespace Protocol

/-- What every step preserves, every run preserves. -/
theorem run_inv {σ : Type*} {Step : σ → σ → Prop} (Inv : σ → Prop)
    (hstep : ∀ s s', Inv s → Step s s' → Inv s') {s s' : σ}
    (hrun : Relation.ReflTransGen Step s s') (h : Inv s) : Inv s' := by
  induction hrun with
  | refl => exact h
  | tail _ hlast ih => exact hstep _ _ ih hlast

section Flight

variable {α : Type*} {flight before after : List α} {a b : α}

/-- The message that is taken out was in flight. -/
theorem mem_of_split (h : flight = before ++ a :: after) : a ∈ flight := by
  rw [h]
  exact List.mem_append_right _ List.mem_cons_self

/-- The messages that remain keep their order. -/
theorem rest_sublist (h : flight = before ++ a :: after) :
    (before ++ after).Sublist flight := by
  rw [h]
  exact (List.sublist_cons_self a after).append_left before

/-- What is in flight after one message has been taken out was so before. -/
theorem mem_of_mem_rest (h : flight = before ++ b :: after)
    (ha : a ∈ before ++ after) : a ∈ flight :=
  (rest_sublist h).subset ha

end Flight

/-- Two quorums whose sizes exceed the number of members intersect. -/
theorem exists_mem_of_quorums {α : Type*} {all A B : List α}
    (hA : A.Nodup) (hB : B.Nodup) (hAall : A ⊆ all) (hBall : B ⊆ all)
    (hlarge : all.length < A.length + B.length) : ∃ a ∈ A, a ∈ B := by
  by_contra hnone
  have hdisjoint : A.Disjoint B := by
    intro a ha hb
    exact hnone ⟨a, ha, hb⟩
  have hnodup : (A ++ B).Nodup := List.nodup_append'.mpr ⟨hA, hB, hdisjoint⟩
  have hsub : A ++ B ⊆ all := by
    intro a ha
    rcases List.mem_append.mp ha with h | h
    · exact hAall h
    · exact hBall h
  have hlen := (hnodup.subperm hsub).length_le
  rw [List.length_append] at hlen
  omega

/-- How many members two quorums have in common. -/
theorem length_add_le_of_quorums {α : Type*} [DecidableEq α]
    {all A B : List α} (hA : A.Nodup) (hB : B.Nodup) (hAall : A ⊆ all)
    (hBall : B ⊆ all) :
    A.length + B.length ≤ all.length + B.countP (fun b => decide (b ∈ A)) := by
  have hnodup : (A ++ B.filter (fun b => !decide (b ∈ A))).Nodup := by
    refine List.nodup_append'.mpr ⟨hA, hB.filter _, ?_⟩
    intro b hbA hb
    rw [List.mem_filter, Bool.not_eq_true', decide_eq_false_iff_not] at hb
    exact hb.2 hbA
  have hsub : A ++ B.filter (fun b => !decide (b ∈ A)) ⊆ all :=
    List.append_subset.mpr
      ⟨hAall, List.Subset.trans (List.filter_subset_self _) hBall⟩
  have hlen := (hnodup.subperm hsub).length_le
  have hsplit := List.length_eq_length_filter_add (l := B)
    (fun b => decide (b ∈ A))
  rw [List.length_append] at hlen
  rw [List.countP_eq_length_filter]
  omega

end Protocol
