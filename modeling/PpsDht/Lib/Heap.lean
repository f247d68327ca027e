import Mathlib.Data.List.Basic
import Mathlib.Logic.Function.Basic

/-!
# Programs on a heap

A heap holds blocks under addresses.  An address is used once, so a pointer to
a block that was freed never points to another one, and every access through it
is a fault.  `room` says which allocations succeed.

A program is a function that changes the heap and returns a value, or has a
fault.  `Runs` says that it returns, and `Fails` that it has a fault; the rules
of both follow the structure of a program.

`Moves` is what a program does to the blocks that it owns: it turns the blocks
`own` into the blocks `own'`, frees the others of `own`, and leaves every block
that it does not own as it is.

* `Moves.trans` and `Moves.frame` put programs one after the other and beside
  blocks that they do not own.
* `Moves.block_eq`: a block that is live and not owned is left as it is.
* `Drops` is the special case of a program that frees blocks.
-/

namespace Memory

open Function

variable {β α α' : Type}

/-! ## Heaps -/

/-- What goes wrong in an access.  `dead` is an access to a block that was freed,
a second `free` among them, `kind` one to a block that holds something else, and
`endless` a walk through more blocks than were ever allocated. -/
inductive Fault where
  | null
  | dead
  | kind
  | bounds
  | endless
  deriving DecidableEq

/-- The live blocks, and the first address that was not used yet. -/
structure Heap (β : Type) where
  block : Nat → Option β
  fresh : Nat
  room : Nat → Bool
  unused : ∀ a, fresh ≤ a → block a = none

/-- Every allocation succeeds. -/
def Heap.Roomy (h : Heap β) : Prop := ∀ n, h.room n = true

/-- The next `n` allocations succeed. -/
def Heap.Room (h : Heap β) (n : Nat) : Prop :=
  ∀ i < n, h.room (h.fresh + i) = true

theorem Heap.Roomy.room {h : Heap β} (hroom : h.Roomy) (n : Nat) : h.Room n :=
  fun i _ => hroom (h.fresh + i)

theorem Heap.Room.of_eq {h h' : Heap β} {n : Nat} (hroom : h.Room n)
    (hfresh : h'.fresh = h.fresh) (heq : h'.room = h.room) : h'.Room n := by
  intro i hi
  rw [heq, hfresh]
  exact hroom i hi

/-- The heap with another block under an address that was used. -/
def Heap.put (h : Heap β) (a : Nat) (b : Option β) : Heap β where
  block x := if x = a ∧ a < h.fresh then b else h.block x
  fresh := h.fresh
  room := h.room
  unused := by
    intro x hx
    rw [if_neg (by omega)]
    exact h.unused x hx

/-- The heap behind an allocation. -/
def Heap.grow (h : Heap β) (b : Option β) : Heap β where
  block := update h.block h.fresh b
  fresh := h.fresh + 1
  room := h.room
  unused := by
    intro x hx
    rw [update_of_ne (by omega)]
    exact h.unused x (by omega)

theorem Heap.lt_fresh {h : Heap β} {a : Nat} (ha : h.block a ≠ none) :
    a < h.fresh := by
  by_contra hle
  exact ha (h.unused a (by omega))

theorem Heap.lt_of_some {h : Heap β} {a : Nat} {b : β}
    (ha : h.block a = some b) : a < h.fresh :=
  h.lt_fresh (by rw [ha]; simp)

@[simp] theorem Heap.put_fresh (h : Heap β) (a : Nat) (b : Option β) :
    (h.put a b).fresh = h.fresh := rfl

@[simp] theorem Heap.put_room (h : Heap β) (a : Nat) (b : Option β) :
    (h.put a b).room = h.room := rfl

theorem Heap.put_block_self {h : Heap β} {a : Nat} (b : Option β)
    (ha : a < h.fresh) : (h.put a b).block a = b :=
  if_pos ⟨rfl, ha⟩

theorem Heap.put_block_of_ne {h : Heap β} {a x : Nat} (b : Option β)
    (hx : x ≠ a) : (h.put a b).block x = h.block x :=
  if_neg (fun h => hx h.1)

theorem Heap.put_put (h : Heap β) (a : Nat) (b b' : Option β) :
    (h.put a b).put a b' = h.put a b' := by
  simp only [Heap.put, Heap.mk.injEq, and_true]
  funext x
  split <;> rfl

@[simp] theorem Heap.grow_fresh (h : Heap β) (b : Option β) :
    (h.grow b).fresh = h.fresh + 1 := rfl

@[simp] theorem Heap.grow_room (h : Heap β) (b : Option β) :
    (h.grow b).room = h.room := rfl

@[simp] theorem Heap.grow_block_self (h : Heap β) (b : Option β) :
    (h.grow b).block h.fresh = b := update_self ..

theorem Heap.grow_block_of_ne {h : Heap β} {x : Nat} (b : Option β)
    (hx : x ≠ h.fresh) : (h.grow b).block x = h.block x :=
  update_of_ne hx ..

/-! ## Programs -/

/-- A program. -/
abbrev Prog (β α : Type) := StateT (Heap β) (Except Fault) α

/-- A program that has a fault. -/
def fail (fault : Fault) : Prog β α := fun _ => .error fault

/-- Read a block. -/
def load (a : Nat) : Prog β β := fun h =>
  match h.block a with
  | none => .error .dead
  | some b => .ok (b, h)

/-- Write a block. -/
def store (a : Nat) (b : β) : Prog β Unit := fun h =>
  match h.block a with
  | none => .error .dead
  | some _ => .ok ((), h.put a (some b))

/-- Free a block. -/
def release (a : Nat) : Prog β Unit := fun h =>
  match h.block a with
  | none => .error .dead
  | some _ => .ok ((), h.put a none)

/-- Allocate a block. -/
def alloc (b : β) : Prog β (Option Nat) := fun h =>
  if h.room h.fresh then .ok (some h.fresh, h.grow (some b))
  else .ok (none, h.grow none)

/-- The address of a pointer that is followed. -/
def deref : Option Nat → Prog β Nat
  | none => fail .null
  | some a => pure a

/-- `free`, which accepts `NULL`. -/
def free : Option Nat → Prog β Unit
  | none => pure ()
  | some a => release a

/-- How many addresses were used so far: a walk without a cycle meets no more
blocks. -/
def used : Prog β Nat := fun h => .ok (h.fresh, h)

/-- `for (size_t i = lo; i < lo + n; i++)`. -/
def forLoop (body : Nat → α → Prog β α) : Nat → Nat → α → Prog β α
  | 0, _, x => pure x
  | n + 1, lo, x => do
    let x ← body lo x
    forLoop body n (lo + 1) x

/-! ## Returning and failing -/

/-- The program returns `r`, and leaves the heap `h'`. -/
def Runs (h : Heap β) (p : Prog β α) (r : α) (h' : Heap β) : Prop :=
  p h = .ok (r, h')

/-- The program has this fault. -/
def FailsWith (h : Heap β) (p : Prog β α) (fault : Fault) : Prop :=
  p h = .error fault

/-- The program has a fault. -/
def Fails (h : Heap β) (p : Prog β α) : Prop := ∃ fault, FailsWith h p fault

variable {h h' h'' : Heap β} {p : Prog β α} {f : α → Prog β α'} {r : α}
  {r' : α'} {fault : Fault}

theorem FailsWith.fails (hp : FailsWith h p fault) : Fails h p := ⟨fault, hp⟩

theorem Runs.not_fails (hruns : Runs h p r h') : ¬ Fails h p := by
  rintro ⟨fault, hfault⟩
  rw [FailsWith, hruns] at hfault
  cases hfault

theorem Runs.unique {r₁ r₂ : α} {h₁ h₂ : Heap β} (hruns : Runs h p r₁ h₁)
    (hruns' : Runs h p r₂ h₂) : r₁ = r₂ ∧ h₁ = h₂ := by
  rw [Runs, hruns] at hruns'
  cases hruns'
  exact ⟨rfl, rfl⟩

theorem runs_pure (h : Heap β) (r : α) : Runs h (pure r : Prog β α) r h := rfl

theorem Runs.bind (hp : Runs h p r h') (hf : Runs h' (f r) r' h'') :
    Runs h (p >>= f) r' h'' := by
  show (p h >>= fun x => f x.1 x.2) = _
  rw [hp]
  exact hf

theorem FailsWith.bind (hp : FailsWith h p fault) (f : α → Prog β α') :
    FailsWith h (p >>= f) fault := by
  show (p h >>= fun x => f x.1 x.2) = _
  rw [hp]
  rfl

theorem Runs.bind_failsWith (hp : Runs h p r h')
    (hf : FailsWith h' (f r) fault) : FailsWith h (p >>= f) fault := by
  show (p h >>= fun x => f x.1 x.2) = _
  rw [hp]
  exact hf

theorem Fails.bind (hp : Fails h p) (f : α → Prog β α') :
    Fails h (p >>= f) := by
  obtain ⟨fault, hfault⟩ := hp
  exact (hfault.bind f).fails

theorem runs_load {a : Nat} {b : β} (ha : h.block a = some b) :
    Runs h (load a) b h := by
  rw [Runs, load, ha]

theorem failsWith_load {a : Nat} (ha : h.block a = none) :
    FailsWith h (load a) .dead := by
  rw [FailsWith, load, ha]

theorem runs_store {a : Nat} {b : β} (ha : h.block a = some b) (b' : β) :
    Runs h (store a b') () (h.put a (some b')) := by
  rw [Runs, store, ha]

theorem runs_release {a : Nat} {b : β} (ha : h.block a = some b) :
    Runs h (release a) () (h.put a none) := by
  rw [Runs, release, ha]

theorem failsWith_release {a : Nat} (ha : h.block a = none) :
    FailsWith h (release a) .dead := by
  rw [FailsWith, release, ha]

theorem runs_alloc (hroom : h.room h.fresh = true) (b : β) :
    Runs h (alloc b) (some h.fresh) (h.grow (some b)) := by
  rw [Runs, alloc, if_pos hroom]

theorem runs_used (h : Heap β) : Runs h used h.fresh h := rfl

/-- The rule of a loop: every pass keeps the invariant. -/
theorem runs_forLoop {body : Nat → α → Prog β α} (Inv : Nat → α → Heap β → Prop) :
    ∀ {n lo : Nat} {x : α} {h : Heap β}, Inv lo x h →
      (∀ i x h, lo ≤ i → i < lo + n → Inv i x h →
        ∃ x' h', Runs h (body i x) x' h' ∧ Inv (i + 1) x' h') →
      ∃ x' h', Runs h (forLoop body n lo x) x' h' ∧ Inv (lo + n) x' h' := by
  intro n
  induction n with
  | zero =>
    intro lo x h hinv _
    exact ⟨x, h, runs_pure h x, hinv⟩
  | succ n ih =>
    intro lo x h hinv hbody
    obtain ⟨x₁, h₁, hruns₁, hinv₁⟩ :=
      hbody lo x h (Nat.le_refl lo) (by omega) hinv
    obtain ⟨x', h', hruns, hinv'⟩ := ih hinv₁
      (fun i x h hlo hi => hbody i x h (by omega) (by omega))
    refine ⟨x', h', hruns₁.bind hruns, ?_⟩
    rwa [show lo + (n + 1) = lo + 1 + n by omega]

/-- The rule of a loop that counts from zero. -/
theorem runs_for (body : Nat → α → Prog β α) (Inv : Nat → α → Heap β → Prop)
    (n : Nat) {x : α} {h : Heap β} (hinv : Inv 0 x h)
    (hbody : ∀ i x h, i < n → Inv i x h →
      ∃ x' h', Runs h (body i x) x' h' ∧ Inv (i + 1) x' h') :
    ∃ x' h', Runs h (forLoop body n 0 x) x' h' ∧ Inv n x' h' := by
  have hruns := runs_forLoop Inv (n := n) hinv
    (fun i x h _ hi => hbody i x h (by omega))
  rwa [Nat.zero_add] at hruns

/-- A loop has a fault when one of its passes has. -/
theorem failsWith_forLoop {body : Nat → α → Prog β α}
    (Inv : Nat → α → Heap β → Prop) {j : Nat}
    (hj : ∀ x h, Inv j x h → FailsWith h (body j x) fault) :
    ∀ {n lo : Nat} {x : α} {h : Heap β}, lo ≤ j → j < lo + n → Inv lo x h →
      (∀ i x h, lo ≤ i → i < lo + n → Inv i x h →
        FailsWith h (body i x) fault ∨
          ∃ x' h', Runs h (body i x) x' h' ∧ Inv (i + 1) x' h') →
      FailsWith h (forLoop body n lo x) fault := by
  intro n
  induction n with
  | zero =>
    intro lo x h hlo hlt
    omega
  | succ n ih =>
    intro lo x h hlo hlt hinv hbody
    rcases hbody lo x h (Nat.le_refl lo) (by omega) hinv with
      hfails | ⟨x₁, h₁, hruns₁, hinv₁⟩
    · exact hfails.bind _
    · have hne : lo ≠ j := by
        rintro rfl
        exact hruns₁.not_fails (hj x h hinv).fails
      exact hruns₁.bind_failsWith (ih (by omega) (by omega) hinv₁
        (fun i x h hle hi => hbody i x h (by omega) (by omega)))

/-! ## Owned blocks -/

/-- A program that owns the blocks `own` leaves the blocks `own'`. -/
structure Moves (h : Heap β) (own : List Nat) (h' : Heap β)
    (own' : List Nat) : Prop where
  freed : ∀ a ∈ own, a ∉ own' → h'.block a = none
  kept : ∀ a ∉ own, a ∉ own' → h'.block a = h.block a
  new : ∀ a ∈ own', a ∈ own ∨ h.fresh ≤ a
  fresh : h.fresh ≤ h'.fresh
  room : h'.room = h.room

section Moves

variable {own own' own'' : List Nat}

theorem Moves.refl (h : Heap β) (own : List Nat) : Moves h own h own :=
  ⟨fun _ ha hna => absurd ha hna, fun _ _ _ => rfl, fun _ => Or.inl,
    Nat.le_refl _, rfl⟩

/-- A block that is live and not owned is not taken. -/
theorem Moves.not_mem (hm : Moves h own h' own') {a : Nat}
    (hlive : h.block a ≠ none) (ha : a ∉ own) : a ∉ own' := by
  intro ha'
  have hlt := Heap.lt_fresh hlive
  rcases hm.new a ha' with hmem | hle
  · exact ha hmem
  · omega

theorem Moves.block_eq (hm : Moves h own h' own') {a : Nat}
    (hlive : h.block a ≠ none) (ha : a ∉ own) :
    h'.block a = h.block a :=
  hm.kept a ha (hm.not_mem hlive ha)

theorem Moves.block_some (hm : Moves h own h' own') {a : Nat} {b : β}
    (hlive : h.block a = some b) (ha : a ∉ own) : h'.block a = some b :=
  (hm.block_eq (by simp [hlive]) ha).trans hlive

theorem Moves.trans (hm : Moves h own h' own') (hm' : Moves h' own' h'' own'') :
    Moves h own h'' own'' where
  freed := by
    intro a ha ha''
    by_cases ha' : a ∈ own'
    · exact hm'.freed a ha' ha''
    · rw [hm'.kept a ha' ha'']
      exact hm.freed a ha ha'
  kept := by
    intro a ha ha''
    by_cases ha' : a ∈ own'
    · rw [hm'.freed a ha' ha'']
      rcases hm.new a ha' with hmem | hle
      · exact absurd hmem ha
      · exact (h.unused a hle).symm
    · rw [hm'.kept a ha' ha'']
      exact hm.kept a ha ha'
  new := by
    intro a ha''
    rcases hm'.new a ha'' with ha' | hle
    · exact hm.new a ha'
    · exact Or.inr (Nat.le_trans hm.fresh hle)
  fresh := Nat.le_trans hm.fresh hm'.fresh
  room := hm'.room.trans hm.room

/-- Blocks beside those that the program owns. -/
theorem Moves.frame (hm : Moves h own h' own') (rest : List Nat) :
    Moves h (own ++ rest) h' (own' ++ rest) where
  freed := by
    intro a ha ha'
    rw [List.mem_append] at ha ha'
    push Not at ha'
    exact hm.freed a (ha.resolve_right ha'.2) ha'.1
  kept := by
    intro a ha ha'
    rw [List.mem_append] at ha ha'
    push Not at ha ha'
    exact hm.kept a ha.1 ha'.1
  new := by
    intro a ha'
    rw [List.mem_append] at ha' ⊢
    rcases ha' with hmem | hmem
    · exact (hm.new a hmem).imp_left Or.inl
    · exact Or.inl (Or.inr hmem)
  fresh := hm.fresh
  room := hm.room

/-- The blocks of a program stay apart from live blocks beside them. -/
theorem Moves.nodup (hm : Moves h own h' own') {rest : List Nat}
    (hnodup : (own ++ rest).Nodup) (hlive : ∀ a ∈ rest, h.block a ≠ none)
    (hown' : own'.Nodup) : (own' ++ rest).Nodup := by
  rw [List.nodup_append] at hnodup ⊢
  obtain ⟨_, hrest, hdisjoint⟩ := hnodup
  refine ⟨hown', hrest, ?_⟩
  rintro a ha' b hb rfl
  rcases hm.new a ha' with ha | hle
  · exact hdisjoint a ha a hb rfl
  · exact hlive a hb (h.unused a hle)

/-- The order in which blocks are listed does not matter. -/
theorem Moves.congr (hm : Moves h own h' own') {l m : List Nat}
    (hl : ∀ a, a ∈ l ↔ a ∈ own) (hm' : ∀ a, a ∈ m ↔ a ∈ own') :
    Moves h l h' m where
  freed := by
    intro a ha ha'
    rw [hl] at ha
    rw [hm'] at ha'
    exact hm.freed a ha ha'
  kept := by
    intro a ha ha'
    rw [hl] at ha
    rw [hm'] at ha'
    exact hm.kept a ha ha'
  new := by
    intro a ha'
    rw [hm'] at ha'
    rw [hl]
    exact hm.new a ha'
  fresh := hm.fresh
  room := hm.room

theorem moves_alloc (h : Heap β) (b : β) :
    Moves h [] (h.grow (some b)) [h.fresh] where
  freed := by simp
  kept := by
    intro a _ ha
    exact Heap.grow_block_of_ne _ (by simpa using ha)
  new := by simp
  fresh := by simp
  room := rfl

theorem moves_store {a : Nat} (h : Heap β) (b : β) :
    Moves h [a] (h.put a (some b)) [a] where
  freed := by simp
  kept := by
    intro x hx _
    exact Heap.put_block_of_ne _ (by simpa using hx)
  new := by simp
  fresh := by simp
  room := rfl

/-- A record that is allocated before the block it points to, and filled in
behind it. -/
theorem runs_record (hroom : h.Roomy) (b b' c : β) :
    ∃ h₁ h₂ h₃, Runs h (alloc b) (some h.fresh) h₁ ∧
      Runs h₁ (alloc b') (some (h.fresh + 1)) h₂ ∧
      Runs h₂ (store h.fresh c) () h₃ ∧ h₃.block h.fresh = some c ∧
      h₃.block (h.fresh + 1) = some b' ∧
      Moves h [] h₃ [h.fresh, h.fresh + 1] := by
  have hm₁ := moves_alloc h b
  have hruns₁ := runs_alloc (hroom h.fresh) b
  have hblock₁ := h.grow_block_self (some b)
  have hfresh₁ := h.grow_fresh (some b)
  generalize h.grow (some b) = h₁ at *
  have hm₂ := moves_alloc h₁ b'
  have hruns₂ := runs_alloc (h := h₁) (by rw [hm₁.room]; exact hroom _) b'
  have hblock₂ := h₁.grow_block_self (some b')
  rw [hfresh₁] at hruns₂ hblock₂ hm₂
  generalize h₁.grow (some b') = h₂ at *
  have hrecord : h₂.block h.fresh = some b := hm₂.block_some hblock₁ (by simp)
  have hm₃ := moves_store (a := h.fresh) h₂ c
  refine ⟨h₁, h₂, _, hruns₁, hruns₂, runs_store hrecord c,
    h₂.put_block_self (some c) (Heap.lt_of_some hrecord),
    hm₃.block_some hblock₂ (by simp), ?_⟩
  have hm₃' := (hm₃.frame [h.fresh + 1]).congr
    (l := [h.fresh + 1] ++ [h.fresh]) (m := [h.fresh, h.fresh + 1])
    (by simp [or_comm]) (by simp)
  exact (hm₁.trans (hm₂.frame [h.fresh])).trans hm₃'

end Moves

/-! ## Freed blocks -/

/-- A program that frees some blocks, and does nothing else. -/
structure Drops (h : Heap β) (gone : List Nat) (h' : Heap β) : Prop where
  dead : ∀ a ∈ gone, h'.block a = none
  kept : ∀ a ∉ gone, h'.block a = h.block a
  fresh : h'.fresh = h.fresh
  room : h'.room = h.room

theorem Drops.refl (h : Heap β) : Drops h [] h :=
  ⟨by simp, fun _ _ => rfl, rfl, rfl⟩

theorem Drops.trans {gone gone' : List Nat} (hd : Drops h gone h')
    (hd' : Drops h' gone' h'') : Drops h (gone ++ gone') h'' where
  dead := by
    intro a ha
    by_cases ha' : a ∈ gone'
    · exact hd'.dead a ha'
    · rw [hd'.kept a ha']
      exact hd.dead a ((List.mem_append.mp ha).resolve_right ha')
  kept := by
    intro a ha
    rw [List.mem_append] at ha
    push Not at ha
    rw [hd'.kept a ha.2, hd.kept a ha.1]
  fresh := hd'.fresh.trans hd.fresh
  room := hd'.room.trans hd.room

theorem Drops.none {gone : List Nat} (hd : Drops h gone h') {a : Nat}
    (ha : h.block a = none) : h'.block a = none := by
  by_cases hmem : a ∈ gone
  · exact hd.dead a hmem
  · rw [hd.kept a hmem, ha]

theorem Drops.congr {gone gone' : List Nat} (hd : Drops h gone h')
    (hgone : ∀ a, a ∈ gone' ↔ a ∈ gone) : Drops h gone' h' where
  dead := fun a ha => hd.dead a ((hgone a).mp ha)
  kept := fun a ha => hd.kept a (fun hmem => ha ((hgone a).mpr hmem))
  fresh := hd.fresh
  room := hd.room

theorem drops_release {a : Nat} (ha : h.block a ≠ none) :
    Drops h [a] (h.put a none) where
  dead := by
    intro x hx
    rw [List.mem_singleton.mp hx]
    exact Heap.put_block_self _ (Heap.lt_fresh ha)
  kept := by
    intro x hx
    exact Heap.put_block_of_ne _ (by simpa using hx)
  fresh := rfl
  room := rfl

/-- A block that is overwritten and freed. -/
theorem runs_dispose {a : Nat} {b : β} (ha : h.block a = some b) (b' : β) :
    ∃ h', Runs h (do
          let x ← deref (some a)
          store x b'
          free (some a)) () h' ∧
      Drops h [a] h' := by
  have hlt := Heap.lt_of_some ha
  have hd := drops_release (h := h) (a := a) (by simp [ha])
  rw [← h.put_put a (some b')] at hd
  exact ⟨_, (runs_pure h a).bind ((runs_store ha b').bind
    (runs_release (Heap.put_block_self _ hlt))), hd⟩

/-- The blocks that are left. -/
theorem Drops.moves {gone : List Nat} (hd : Drops h gone h')
    (own left : List Nat) (hgone : ∀ a, a ∈ gone ↔ a ∈ own ∧ a ∉ left)
    (hleft : left ⊆ own) : Moves h own h' left where
  freed := fun _ ha hna => hd.dead _ ((hgone _).mpr ⟨ha, hna⟩)
  kept := fun _ ha _ => hd.kept _ (fun hmem => ha ((hgone _).mp hmem).1)
  new := fun _ ha => Or.inl (hleft ha)
  fresh := Nat.le_of_eq hd.fresh.symm
  room := hd.room

end Memory
