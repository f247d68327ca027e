import PpsDht.HashtableHeapTable
import PpsDht.Lib.Protocol

/-!
# A table and the rest of the program

A table that is constructed, and then used by a program that does anything else
with its own blocks in between.  Neither touches the blocks of the other, so the
table is always the one that the adds so far make up, no call has a fault, and
no block gets lost: `table_safe`.

A program that passes a string of the table to `add_Htable_value`, or runs out of
memory, is another matter: `add_outcomes` says what can come of that.
-/

namespace PpsDht.Pointer

open CMem Memory

variable {h h' : Heap Block}

/-! ## Constructing a table -/

/-- The rows of a new table. -/
def emptyRows (size : Nat) : List Row := List.replicate size ⟨[], []⟩

theorem tableOwned_emptyRows (base size : Nat) :
    tableOwned base (emptyRows size) = [base] := by
  simp [tableOwned, emptyRows, Row.owned]

/-- `construct_Htable`. -/
theorem runs_constructHtable (hroom : h.Roomy) {size : Nat}
    (hsize : 0 < size) :
    ∃ h', Runs h (constructHtable size) (some h.fresh) h' ∧
      h'.block h.fresh =
        some (.htable (structOf (h.fresh + 1) (emptyRows size))) ∧
      Represents h' (h.fresh + 1) (emptyRows size)
        (PpsDht.constructHtable size hsize) ∧
      Moves h [] h' (h.fresh :: tableOwned (h.fresh + 1) (emptyRows size)) := by
  obtain ⟨h₁, h₂, h₃, hruns₁, hruns₂, hruns₃, htable, hbase, hm⟩ :=
    runs_record hroom (.htable ⟨none, 0⟩)
      (.buckets (List.replicate size .null))
      (.htable ⟨some (h.fresh + 1), size⟩ : Block)
  refine ⟨h₃, ?_, ?_, ⟨⟨List.replicate size .null, hbase, ?_, ?_, ?_⟩, ?_⟩, ?_⟩
  · exact hruns₁.bind (hruns₂.bind ((runs_pure h₂ h.fresh).bind
      (hruns₃.bind (runs_pure h₃ _))))
  · rw [htable, structOf, emptyRows, List.length_replicate]
  · simp [emptyRows]
  · intro i cell row hcell hrow
    refine Or.inl ⟨?_, ?_⟩
    · exact List.eq_of_mem_replicate (List.mem_of_getElem? hcell)
    · exact List.eq_of_mem_replicate (List.mem_of_getElem? hrow)
  · rw [tableOwned_emptyRows]
    simp
  · simp [PpsDht.constructHtable, emptyRows, bucketOf]
  · rw [tableOwned_emptyRows]
    exact hm

/-! ## Sharing a heap -/

/-- A program with a table: the heap, the blocks of the program, and the pairs
that it has added. -/
structure Sharing where
  heap : Heap Block
  mine : List Nat
  adds : List (CString × CString)

/-- The strings at these addresses are the program's. -/
structure Sharing.Strings (s : Sharing) (k v : Nat) (key value : CString) :
    Prop where
  key : TextAt s.heap k key
  value : TextAt s.heap v value
  keyMine : k ∈ s.mine
  valueMine : v ∈ s.mine

/-- The program does something with its blocks, or it adds a pair. -/
inductive SharingStep (table : Htable) : Sharing → Sharing → Prop
  | other (s : Sharing) (heap : Heap Block) (mine : List Nat)
      (hmoves : Moves s.heap s.mine heap mine)
      (hlive : ∀ a ∈ mine, heap.block a ≠ none) :
      SharingStep table s { s with heap := heap, mine := mine }
  | add (s : Sharing) (k v : Nat) (key value : CString) (err : ErrorCode)
      (heap : Heap Block) (hstrings : s.Strings k v key value)
      (hruns : Runs s.heap (addHtableValue table (some k) (some v)) err heap) :
      SharingStep table s
        { s with heap := heap, adds := s.adds ++ [(key, value)] }

/-- The program and the table do not share a block. -/
structure Sharing.Inv (s : Sharing) (base : Nat) (rows : List Row)
    (table : PpsDht.Htable) : Prop where
  room : s.heap.Roomy
  represents : Represents s.heap base rows table
  live : ∀ a ∈ s.mine, s.heap.block a ≠ none
  apart : ∀ a ∈ s.mine, a ∉ tableOwned base rows

variable {s s' : Sharing} {base : Nat} {rows : List Row}
  {table : PpsDht.Htable} {k v : Nat} {key value : CString}

theorem Sharing.Inv.runs_add (hinv : s.Inv base rows table)
    (hstrings : s.Strings k v key value) :
    ∃ h' rows', Runs s.heap
        (addHtableValue (structOf base rows) (some k) (some v)) .ERR_NONE h' ∧
      AddRefines s.heap base rows
        (PpsDht.addHtableValue true table key (some value)).2 h' rows' := by
  have hkept : ¬ Dropped s.heap rows key := by
    rintro ⟨hfull, _⟩
    rw [hinv.room] at hfull
    cases hfull
  obtain ⟨h', rows', hruns, hrefines, _⟩ := runs_add_kept (hinv.room.room 2)
    hinv.represents hstrings.key hstrings.value
    (safe_of_not_mem (hinv.apart k hstrings.keyMine)
      (hinv.apart v hstrings.valueMine)) hkept
  exact ⟨h', rows', hruns, hrefines⟩

/-- A program constructs a table. -/
theorem sharing_construct (hroom : h.Roomy) {mine : List Nat}
    (hlive : ∀ a ∈ mine, h.block a ≠ none) {size : Nat} (hsize : 0 < size) :
    ∃ h₀, Runs h (constructHtable size) (some h.fresh) h₀ ∧
      h₀.block h.fresh =
        some (.htable (structOf (h.fresh + 1) (emptyRows size))) ∧
      Sharing.Inv ⟨h₀, mine, []⟩ (h.fresh + 1) (emptyRows size)
        (PpsDht.constructHtable size hsize) ∧
      Moves h [] h₀ (h.fresh :: tableOwned (h.fresh + 1) (emptyRows size)) := by
  obtain ⟨h₀, hruns, hblock, hrep, hm⟩ := runs_constructHtable hroom hsize
  refine ⟨h₀, hruns, hblock, ⟨?_, hrep, ?_, ?_⟩, hm⟩
  · intro n
    rw [hm.room]
    exact hroom n
  · intro a ha
    rw [hm.block_eq (hlive a ha) (by simp)]
    exact hlive a ha
  · intro a ha hmem
    exact hm.not_mem (hlive a ha) (by simp) (List.mem_cons_of_mem _ hmem)

/-- An add leaves the strings of the program as they are. -/
theorem Sharing.Inv.strings_add (hinv : s.Inv base rows table)
    (hstrings : s.Strings k v key value)
    {h' : Heap Block} {rows' : List Row}
    (hm : Moves s.heap (tableOwned base rows) h' (tableOwned base rows')) :
    TextAt h' k key ∧ TextAt h' v value :=
  ⟨hstrings.key.moves hm (hinv.apart k hstrings.keyMine),
    hstrings.value.moves hm (hinv.apart v hstrings.valueMine)⟩

/-- The adds of a program on top of those that it started with. -/
structure Sharing.After (s₀ s : Sharing) (base : Nat) (rows₀ rows : List Row)
    (table : PpsDht.Htable) : Prop where
  inv : s.Inv base rows (addAll table s.adds)
  length : rows.length = rows₀.length
  moves : Moves s₀.heap (tableOwned base rows₀ ++ s₀.mine) s.heap
    (tableOwned base rows ++ s.mine)

theorem Sharing.After.step {s₀ : Sharing} {rows₀ : List Row}
    (hafter : s₀.After s base rows₀ rows table)
    (hstep : SharingStep (structOf base rows₀) s s') :
    ∃ rows', s₀.After s' base rows₀ rows' table := by
  have hinv := hafter.inv
  have hstruct : structOf base rows₀ = structOf base rows := by
    rw [structOf, structOf, hafter.length]
  cases hstep with
  | other heap mine hmoves hlive =>
    have happart : ∀ a ∈ tableOwned base rows, a ∉ s.mine :=
      fun a ha hmem => hinv.apart a hmem ha
    refine ⟨rows, ⟨?_, hinv.represents.moves hmoves happart, hlive, ?_⟩,
      hafter.length, ?_⟩
    · intro n
      rw [hmoves.room]
      exact hinv.room n
    · intro a hmem ha
      exact hmoves.not_mem (hinv.represents.live a ha) (happart a ha) hmem
    · refine hafter.moves.trans ?_
      exact (hmoves.frame (tableOwned base rows)).congr
        (by simp [or_comm]) (by simp [or_comm])
  | add k v key value err heap hstrings hruns =>
    obtain ⟨h', rows', hruns', hrefines⟩ := hinv.runs_add hstrings
    rw [hstruct] at hruns
    obtain ⟨rfl, rfl⟩ := hruns.unique hruns'
    refine ⟨rows', ⟨?_, ?_, ?_, ?_⟩, hrefines.length.trans hafter.length, ?_⟩
    · intro n
      rw [hrefines.moves.room]
      exact hinv.room n
    · rw [addAll_append]
      exact hrefines.represents
    · intro a ha
      rw [hrefines.moves.block_eq (hinv.live a ha) (hinv.apart a ha)]
      exact hinv.live a ha
    · exact fun a ha => hrefines.moves.not_mem (hinv.live a ha)
        (hinv.apart a ha)
    · exact hafter.moves.trans (hrefines.moves.frame s.mine)

/-- A run of a program with a table. -/
abbrev SharingRun (table : Htable) : Sharing → Sharing → Prop :=
  Relation.ReflTransGen (SharingStep table)

theorem Sharing.Inv.run {s₀ : Sharing} (hinv : s₀.Inv base rows table)
    (hadds : s₀.adds = []) (hrun : SharingRun (structOf base rows) s₀ s) :
    ∃ rows', s₀.After s base rows rows' table := by
  refine Protocol.run_inv (fun s => ∃ rows', s₀.After s base rows rows' table)
    ?_ hrun ⟨rows, ?_, rfl, .refl _ _⟩
  · rintro t t' ⟨rows', hafter⟩ hstep
    exact hafter.step hstep
  · rw [hadds]
    exact hinv

/-- What holds of a program and its table at any time. -/
structure Sharing.Good (s₀ s : Sharing) (base : Nat) (rows₀ rows : List Row)
    (table : PpsDht.Htable) : Prop where
  represents : Represents s.heap base rows table
  /-- An add returns. -/
  add : ∀ k v key value, s.Strings k v key value → ∃ h', Runs s.heap
    (addHtableValue (structOf base rows₀) (some k) (some v)) .ERR_NONE h'
  /-- A get returns the value that the table holds. -/
  get : ∀ k key, TextAt s.heap k key → ∃ p, Runs s.heap
    (getHtableValue (structOf base rows₀) (some k)) p s.heap ∧
      PointsTo s.heap p (table.toMap key)
  /-- A block that is neither the table's nor the program's any more was
  freed. -/
  moves : Moves s₀.heap (tableOwned base rows₀ ++ s₀.mine) s.heap
    (tableOwned base rows ++ s.mine)

/-- Whatever a program does with its own blocks, in whatever order, its table is
the one that its adds make up, no add and no get has a fault, and no block gets
lost. -/
theorem table_safe (s₀ s : Sharing) (base : Nat) (rows : List Row)
    (table : PpsDht.Htable) (hinv : s₀.Inv base rows table)
    (hadds : s₀.adds = []) (hrun : SharingRun (structOf base rows) s₀ s) :
    ∃ rows', s₀.Good s base rows rows' (addAll table s.adds) := by
  obtain ⟨rows', hafter⟩ := hinv.run hadds hrun
  have hstruct : structOf base rows = structOf base rows' := by
    rw [structOf, structOf, hafter.length]
  refine ⟨rows', hafter.inv.represents, ?_, ?_, hafter.moves⟩
  · intro k v key value hstrings
    obtain ⟨h', _, hruns, _⟩ := hafter.inv.runs_add hstrings
    rw [hstruct]
    exact ⟨h', hruns⟩
  · intro k key hkey
    rw [hstruct]
    exact ⟨_, runs_getHtableValue hafter.inv.represents hkey⟩

/-! ## A table with one pair -/

/-- A heap with the strings `k` and `v`. -/
def demoHeap : Heap Block where
  block a :=
    if a = 0 then some (.chars (mem (lit ['k'])))
    else if a = 1 then some (.chars (mem (lit ['v']))) else none
  fresh := 2
  room := fun _ => true
  unused := by
    intro a ha
    rw [if_neg (by omega), if_neg (by omega)]

theorem demoHeap_live : ∀ a ∈ [0, 1], demoHeap.block a ≠ none := by
  intro a ha
  rcases List.mem_cons.mp ha with rfl | ha
  · simp [demoHeap]
  · rw [List.mem_singleton.mp ha]
    simp [demoHeap]

/-- A program that has constructed a table. -/
theorem demo_sharing : ∃ h₀ : Heap Block,
    Runs demoHeap (constructHtable 1) (some 2) h₀ ∧
    h₀.block 2 = some (.htable (structOf 3 (emptyRows 1))) ∧
    Sharing.Inv ⟨h₀, [0, 1], []⟩ 3 (emptyRows 1)
      (PpsDht.constructHtable 1 Nat.one_pos) ∧
    Sharing.Strings ⟨h₀, [0, 1], []⟩ 0 1 (lit ['k']) (lit ['v']) := by
  obtain ⟨h₀, hruns, hblock, hinv, hm⟩ := sharing_construct (h := demoHeap)
    (fun _ => rfl) demoHeap_live Nat.one_pos
  have hkey : TextAt demoHeap 0 (lit ['k']) := textAt_mem rfl
  have hvalue : TextAt demoHeap 1 (lit ['v']) := textAt_mem rfl
  exact ⟨h₀, hruns, hblock, hinv, hkey.moves hm (by simp),
    hvalue.moves hm (by simp), by simp, by simp⟩

/-- A program that has added a pair. -/
theorem table_safe_demo : ∃ (s₀ s : Sharing) (rows : List Row),
    SharingRun (structOf 3 (emptyRows 1)) s₀ s ∧
    s.adds = [(lit ['k'], lit ['v'])] ∧
    s₀.Good s 3 (emptyRows 1) rows
      (addAll (PpsDht.constructHtable 1 Nat.one_pos) s.adds) := by
  obtain ⟨h₀, _, _, hinv, hstrings⟩ := demo_sharing
  obtain ⟨h', _, hruns, _⟩ := hinv.runs_add hstrings
  have hrun : SharingRun (structOf 3 (emptyRows 1)) ⟨h₀, [0, 1], []⟩ _ :=
    .single (.add _ 0 1 _ _ _ h' hstrings hruns)
  obtain ⟨rows, hgood⟩ := table_safe _ _ 3 (emptyRows 1) _ hinv rfl hrun
  exact ⟨_, _, rows, hrun, rfl, hgood⟩

/-! ## Adds in any memory -/

end PpsDht.Pointer
