import Mathlib.Data.List.Nodup
import Mathlib.Tactic.SplitIfs

/-!
# Association lists with update in place

`upsert l a b` replaces the value of the first entry under `a`, or appends a
new entry when there is none.  `List.lookup` reads it back like a finite map,
and the list of keys only ever grows at its end.
-/

namespace Assoc

variable {α β : Type*} [DecidableEq α]

/-- Replace the value under `a` in place, or append the entry. -/
def upsert : List (α × β) → α → β → List (α × β)
  | [], a, b => [(a, b)]
  | (a', b') :: l, a, b =>
    if a = a' then (a, b) :: l else (a', b') :: upsert l a b

/-- The keys of an association list, in order. -/
abbrev keys (l : List (α × β)) : List α := l.map Prod.fst

theorem lookup_cons_ite (a : α) (b : β) (l : List (α × β)) (c : α) :
    ((a, b) :: l).lookup c = if c = a then some b else l.lookup c := by
  by_cases h : c = a
  · simp [h]
  · have hbeq : (c == a) = false := by simpa using h
    simp only [List.lookup_cons, hbeq, if_neg h]

/-- Reading after an update. -/
theorem lookup_upsert (l : List (α × β)) (a : α) (b : β) (c : α) :
    (upsert l a b).lookup c = if c = a then some b else l.lookup c := by
  induction l with
  | nil => rw [upsert, lookup_cons_ite]
  | cons entry l ih =>
    obtain ⟨a', b'⟩ := entry
    rw [upsert]
    split
    · rename_i ha
      rw [lookup_cons_ite, lookup_cons_ite, ← ha]
      split <;> rfl
    · rename_i ha
      rw [lookup_cons_ite, lookup_cons_ite, ih]
      split_ifs with h1 h2
      · exact absurd (h2.symm.trans h1) ha
      all_goals rfl

/-- An update keeps the key list, or appends the new key to it. -/
theorem keys_upsert (l : List (α × β)) (a : α) (b : β) :
    keys (upsert l a b) = if a ∈ keys l then keys l else keys l ++ [a] := by
  induction l with
  | nil => simp [upsert]
  | cons entry l ih =>
    obtain ⟨a', b'⟩ := entry
    by_cases ha : a = a'
    · subst ha
      simp [upsert]
    · rw [upsert, if_neg ha]
      simp only [List.map_cons, ih, List.mem_cons, ha, false_or]
      split <;> simp

theorem mem_keys_upsert {l : List (α × β)} {a c : α} {b : β} :
    c ∈ keys (upsert l a b) ↔ c = a ∨ c ∈ keys l := by
  rw [keys_upsert]
  split
  · rename_i hmem
    constructor
    · exact Or.inr
    · rintro (rfl | h)
      · exact hmem
      · exact h
  · rw [List.mem_append, List.mem_singleton, or_comm]

theorem nodup_keys_upsert {l : List (α × β)} (h : (keys l).Nodup) (a : α)
    (b : β) : (keys (upsert l a b)).Nodup := by
  rw [keys_upsert]
  split
  · exact h
  · rename_i hmem
    refine List.nodup_append.mpr ⟨h, List.nodup_singleton a, ?_⟩
    intro x hx y hy hxy
    rw [List.mem_singleton] at hy
    exact hmem (hy ▸ hxy ▸ hx)

theorem lookup_eq_none_iff {l : List (α × β)} {a : α} :
    l.lookup a = none ↔ a ∉ keys l := by
  rw [List.lookup_eq_none_iff]
  constructor
  · intro h hmem
    obtain ⟨entry, hentry, rfl⟩ := List.mem_map.mp hmem
    exact absurd (h entry hentry) (by simp)
  · intro h entry hentry
    have hne : a ≠ entry.1 := fun he =>
      h (List.mem_map.mpr ⟨entry, hentry, he.symm⟩)
    simpa using hne

/-- Reading a list from its end finds the last entry of a key. -/
theorem lookup_reverse_eq_some_iff (l : List (α × β)) (a : α) (b : β) :
    l.reverse.lookup a = some b ↔
      ∃ l₁ l₂, l = l₁ ++ (a, b) :: l₂ ∧ a ∉ keys l₂ := by
  rw [List.lookup_eq_some_iff]
  constructor
  · rintro ⟨l₁, l₂, hl, hne⟩
    refine ⟨l₂.reverse, l₁.reverse, ?_, ?_⟩
    · rw [← List.reverse_reverse l, hl, List.reverse_append,
        List.reverse_cons, List.append_assoc, List.singleton_append]
    · intro hmem
      obtain ⟨entry, hentry, rfl⟩ := List.mem_map.mp hmem
      have hkey := hne entry (List.mem_reverse.mp hentry)
      exact absurd hkey (by simp)
  · rintro ⟨l₁, l₂, rfl, hnot⟩
    refine ⟨l₂.reverse, l₁.reverse, ?_, ?_⟩
    · rw [List.reverse_append, List.reverse_cons, List.append_assoc,
        List.singleton_append]
    · intro entry hentry
      have hne : a ≠ entry.1 := fun h => hnot
        (List.mem_map.mpr ⟨entry, List.mem_reverse.mp hentry, h.symm⟩)
      simpa using hne

/-- An entry at the end, when all that follow it with its key have its
value. -/
theorem lookup_reverse_append {l l' : List (α × β)} {a : α} {b : β}
    (hall : ∀ entry ∈ l', entry.1 = a → entry.2 = b) (hmem : a ∈ keys l') :
    (l ++ l').reverse.lookup a = some b := by
  rw [List.reverse_append, List.lookup_append]
  have hsome : l'.reverse.lookup a = some b := by
    cases h : l'.reverse.lookup a with
    | none =>
      rw [lookup_eq_none_iff, keys, List.map_reverse, List.mem_reverse] at h
      exact absurd hmem h
    | some b' =>
      obtain ⟨l₁, l₂, hl, _⟩ := (lookup_reverse_eq_some_iff l' a b').mp h
      have hentry : (a, b') ∈ l' := by
        rw [hl]
        exact List.mem_append_right _ List.mem_cons_self
      rw [← hall (a, b') hentry rfl]
  rw [hsome, Option.some_or]

/-- With distinct keys, reading finds every entry. -/
theorem lookup_eq_some_iff_mem {l : List (α × β)} (h : (keys l).Nodup) {a : α}
    {b : β} : l.lookup a = some b ↔ (a, b) ∈ l := by
  induction l with
  | nil => simp
  | cons entry l ih =>
    obtain ⟨a', b'⟩ := entry
    have hcons := List.nodup_cons.mp h
    rw [lookup_cons_ite, List.mem_cons, Prod.mk.injEq]
    by_cases ha : a = a'
    · subst ha
      have hnot : (a, b) ∉ l := fun hmem =>
        hcons.1 (List.mem_map.mpr ⟨(a, b), hmem, rfl⟩)
      rw [if_pos rfl, Option.some.injEq]
      constructor
      · exact fun hb => Or.inl ⟨rfl, hb.symm⟩
      · rintro (⟨_, hb⟩ | hmem)
        · exact hb.symm
        · exact absurd hmem hnot
    · rw [if_neg ha, ih hcons.2]
      constructor
      · exact Or.inr
      · rintro (⟨heq, _⟩ | hmem)
        · exact absurd heq ha
        · exact hmem

end Assoc
