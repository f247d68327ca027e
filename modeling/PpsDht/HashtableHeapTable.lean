import PpsDht.HashtableHeapAdd
import Mathlib.Data.List.Perm.Basic
import Mathlib.Data.List.Perm.Subperm

/-!
# Tables in memory

A heap represents a table of `Hashtable` when its blocks make up the buckets of
the table, no block twice: `Represents`.

`runs_addHtableValue` and `runs_getHtableValue`: the functions with pointers
compute what those of `Hashtable` compute, and touch no block that is not the
table's.
-/

namespace PpsDht.Pointer

open CMem Memory

/-! ## The values of entries -/

/-- The bucket that some entries make up. -/
def bucketOf : List Entry → PpsDht.Bucket
  | [] => .last none
  | [e] => .last (some { key := e.key, value := e.value })
  | e :: e' :: es =>
    .link (some { key := e.key, value := e.value }) (bucketOf (e' :: es))

theorem addValueToBucket_bucketOf (new : Entry) : ∀ es : List Entry,
    PpsDht.addValueToBucket true (bucketOf es) new.key new.value =
      (.ERR_NONE, bucketOf (putEntry new es)) := by
  have hnew : PpsDht.createKvPair new.key new.value =
      { key := new.key, value := new.value } := by
    simp [PpsDht.createKvPair]
  intro es
  induction es with
  | nil => simp [bucketOf, putEntry, PpsDht.addValueToBucket, hnew]
  | cons e es ih =>
    cases es with
    | nil =>
      simp only [bucketOf, PpsDht.addValueToBucket, strcmp_eq_zero_iff, hnew]
      by_cases heq : e.key = new.key
      · simp [bucketOf, putEntry, heq]
      · simp [bucketOf, putEntry, heq, Ne.symm heq, PpsDht.createBucket]
    | cons e' es =>
      rw [bucketOf]
      simp only [PpsDht.addValueToBucket, strcmp_eq_zero_iff, hnew, ih]
      by_cases heq : e.key = new.key
      · simp [bucketOf, putEntry, heq]
      · rw [putEntry_of_ne new _ heq, if_neg (Ne.symm heq)]
        cases hput : putEntry new (e' :: es) with
        | nil =>
          rw [putEntry] at hput
          split at hput <;> cases hput
        | cons => rfl

/-- An add that needs no bucket does not notice. -/
theorem addValueToBucket_bucketOf_ok {key : CString} (value : CString)
    (ok : Bool) : ∀ {es : List Entry},
      (ok = true ∨ es = [] ∨ ∃ e, findEntry key es = some e) →
      PpsDht.addValueToBucket ok (bucketOf es) key value =
        PpsDht.addValueToBucket true (bucketOf es) key value := by
  intro es
  induction es with
  | nil => exact fun _ => rfl
  | cons e es ih =>
    intro hcase
    by_cases heq : e.key = key
    · cases es with
      | nil =>
        simp [bucketOf, PpsDht.addValueToBucket, strcmp_eq_zero_iff, heq]
      | cons e' es =>
        simp [bucketOf, PpsDht.addValueToBucket, strcmp_eq_zero_iff, heq]
    · rw [findEntry_cons_of_ne es heq] at hcase
      rcases hcase with hok | hnil | ⟨e₁, hfind⟩
      · rw [hok]
      · cases hnil
      · have hrest := ih (Or.inr (Or.inr ⟨e₁, hfind⟩))
        cases es with
        | nil => cases hfind
        | cons e' es =>
          simp [bucketOf, PpsDht.addValueToBucket, strcmp_eq_zero_iff,
            Ne.symm heq, hrest]

theorem getValueFromBucket_bucketOf (key : CString) : ∀ es : List Entry,
    PpsDht.getValueFromBucket (bucketOf es) key =
      (findEntry key es).map Entry.value := by
  intro es
  induction es with
  | nil => rfl
  | cons e es ih =>
    by_cases heq : e.key = key
    · rw [findEntry_cons_of_eq es heq]
      cases es with
      | nil =>
        simp [bucketOf, PpsDht.getValueFromBucket, strcmp_eq_zero_iff, heq]
      | cons e' es =>
        simp [bucketOf, PpsDht.getValueFromBucket, strcmp_eq_zero_iff, heq]
    · rw [findEntry_cons_of_ne es heq, ← ih]
      cases es with
      | nil =>
        simp [bucketOf, PpsDht.getValueFromBucket, strcmp_eq_zero_iff, heq]
      | cons e' es =>
        simp [bucketOf, PpsDht.getValueFromBucket, strcmp_eq_zero_iff, heq]

/-! ## Rows -/

/-- A bucket of a table: its entries, and the buckets that are linked in. -/
structure Row where
  entries : List Entry
  nodes : List Nat

/-- The blocks of a row. -/
def Row.owned (row : Row) : List Nat := Pointer.owned row.entries row.nodes

/-- The row starts with this bucket. -/
def Row.At (row : Row) (h : Heap Block) (cell : Bucket) : Prop :=
  (cell = .null ∧ row = ⟨[], []⟩) ∨ Chain h cell row.entries row.nodes

variable {h h' : Heap Block} {cell : Bucket} {row : Row} {bck : BucketPtr}
  {cells : List Bucket}

theorem Row.At.live (hrow : row.At h cell) :
    ∀ a ∈ row.owned, h.block a ≠ none := by
  rcases hrow with ⟨_, rfl⟩ | hchain
  · simp [Row.owned]
  · exact hchain.live

theorem Row.At.congr (hrow : row.At h cell)
    (heq : ∀ a ∈ row.owned, h'.block a = h.block a) : row.At h' cell := by
  rcases hrow with hnull | hchain
  · exact Or.inl hnull
  · exact Or.inr (hchain.congr heq)

/-- The strings of the entries. -/
theorem Row.At.entry (hrow : row.At h cell) {e : Entry}
    (he : e ∈ row.entries) : e.At h := by
  rcases hrow with ⟨_, rfl⟩ | hchain
  · cases he
  · exact hchain.entry he

theorem Row.At.length (hrow : row.At h cell) :
    row.nodes.length = row.entries.length - 1 := by
  rcases hrow with ⟨_, rfl⟩ | hchain
  · rfl
  · simp [hchain.length]

section Add

variable {k v : Nat} {key value : CString}

/-- An add of the key makes another bucket. -/
def Row.Links (row : Row) (key : CString) : Prop :=
  row.entries ≠ [] ∧ findEntry key row.entries = none

/-- An add to a bucket. -/
theorem Row.At.runs_add (hrow : row.At h cell) (hroom : h.Room 2)
    (hkey : TextAt h k key) (hvalue : TextAt h v value)
    (hb : BucketAt h bck cells cell) (hnodup : (bck.base :: row.owned).Nodup)
    (hapart : Apart row.entries key k v) {left : Nat}
    (hleft : row.nodes.length < left) (hmore : row.Links key → h.Room 3) :
    ∃ h' cell' ns', Runs h (addValueToBucket left bck (some k) (some v))
        .ERR_NONE h' ∧
      Added h bck cells row.entries row.nodes h' cell'
        (putEntry (nextEntry h key value) row.entries) ns' := by
  rcases hrow with ⟨rfl, rfl⟩ | hchain
  · obtain ⟨left, rfl⟩ : ∃ n, left = n + 1 := ⟨left - 1, by omega⟩
    obtain ⟨h', hruns, hat', hrewrites⟩ := runs_fill hroom hb hkey hvalue
    have hone : Pointer.owned [nextEntry h key value] [] =
        (nextEntry h key value).blocks := by simp [Pointer.owned]
    refine ⟨h', _, [], ?_, .last hat', ?_, ?_⟩
    · rw [addValueToBucket]
      exact (runs_loadBucket hb).bind hruns
    · show Rewrites h bck cells [] h' _ (Pointer.owned [_] [])
      rw [hone]
      exact hrewrites
    · show (bck.base :: Pointer.owned [_] []).Nodup
      have hnew := nextEntry_nodup (Heap.lt_of_some hb.block) key value []
        (Or.inl rfl)
      rwa [hone, ← List.append_nil (nextEntry h key value).blocks]
  · have hlength := hchain.length
    have hne : row.entries ≠ [] := by
      rw [← List.length_pos_iff, hlength]
      exact Nat.succ_pos _
    exact runs_addValueToBucket hroom hkey hvalue hchain hb hnodup hapart
      (by omega) (fun hfind => hmore ⟨hne, hfind⟩)

theorem Row.At.runs_get (hrow : row.At h cell) (hkey : TextAt h k key)
    (hb : BucketAt h bck cells cell) {left : Nat}
    (hleft : row.nodes.length < left) :
    Runs h (getValueFromBucket left bck (some k))
      ((findEntry key row.entries).map Entry.valueAt) h := by
  rcases hrow with ⟨rfl, rfl⟩ | hchain
  · obtain ⟨left, rfl⟩ : ∃ n, left = n + 1 := ⟨left - 1, by omega⟩
    rw [getValueFromBucket]
    exact (runs_loadBucket hb).bind (runs_pure h none)
  · have hlength := hchain.length
    exact runs_getValueFromBucket hkey hchain hb (by omega)

end Add

/-! ## Tables -/

/-- The blocks of a table, its `Htable_t` aside. -/
def tableOwned (base : Nat) (rows : List Row) : List Nat :=
  base :: rows.flatMap Row.owned

/-- The buckets of a table. -/
structure TableAt (h : Heap Block) (base : Nat) (cells : List Bucket)
    (rows : List Row) : Prop where
  block : h.block base = some (.buckets cells)
  length : cells.length = rows.length
  row : ∀ (i : Nat) (cell : Bucket) (row : Row), cells[i]? = some cell →
    rows[i]? = some row → row.At h cell
  nodup : (tableOwned base rows).Nodup

variable {base i : Nat} {rows : List Row}

theorem tableOwned_perm (base : Nat) (hrow : rows[i]? = some row) :
    (tableOwned base rows).Perm
      ((base :: row.owned) ++ (rows.eraseIdx i).flatMap Row.owned) := by
  obtain ⟨hi, rfl⟩ := List.getElem?_eq_some_iff.mp hrow
  exact ((List.getElem_cons_eraseIdx_perm (n := i) hi).symm.flatMap_right
    Row.owned).cons base

theorem tableOwned_set_perm (base : Nat) (hi : i < rows.length) (row' : Row) :
    (tableOwned base (rows.set i row')).Perm
      ((base :: row'.owned) ++ (rows.eraseIdx i).flatMap Row.owned) := by
  have hrow : (rows.set i row')[i]? = some row' := by simp [hi]
  have hperm := tableOwned_perm base hrow
  rwa [List.eraseIdx_set_eq] at hperm

theorem TableAt.bucketAt (ht : TableAt h base cells rows)
    (hrow : rows[i]? = some row) : ∃ cell, BucketAt h ⟨base, i⟩ cells cell ∧
      row.At h cell := by
  have hi := (List.getElem?_eq_some_iff.mp hrow).1
  have hlt : i < cells.length := by
    rw [ht.length]
    exact hi
  have hcell : cells[i]? = some cells[i] := List.getElem?_eq_getElem hlt
  exact ⟨_, ⟨ht.block, hcell⟩, ht.row i _ row hcell hrow⟩

theorem TableAt.live (ht : TableAt h base cells rows) :
    ∀ a ∈ tableOwned base rows, h.block a ≠ none := by
  intro a ha
  rcases List.mem_cons.mp ha with rfl | hmem
  · simp [ht.block]
  · obtain ⟨row, hrow, ha⟩ := List.mem_flatMap.mp hmem
    obtain ⟨i, hi⟩ := List.mem_iff_getElem?.mp hrow
    obtain ⟨cell, _, hat⟩ := ht.bucketAt hi
    exact hat.live a ha

theorem TableAt.congr (ht : TableAt h base cells rows)
    (heq : ∀ a ∈ tableOwned base rows, h'.block a = h.block a) :
    TableAt h' base cells rows where
  block := (heq base List.mem_cons_self).trans ht.block
  length := ht.length
  row := by
    intro i cell row hcell hrow
    refine (ht.row i cell row hcell hrow).congr (fun a ha => heq a ?_)
    exact List.mem_cons_of_mem _
      (List.mem_flatMap.mpr ⟨row, List.mem_of_getElem? hrow, ha⟩)
  nodup := ht.nodup

/-- A chain is shorter than the number of addresses in use. -/
theorem TableAt.nodes_lt (ht : TableAt h base cells rows)
    (hrow : rows[i]? = some row) : row.nodes.length < h.fresh := by
  have hnodup := (tableOwned_perm base hrow).nodup_iff.mp ht.nodup
  have hown := (List.nodup_append.mp hnodup).1
  have hsub : (base :: row.nodes) ⊆ List.range h.fresh := by
    intro a ha
    refine List.mem_range.mpr (Heap.lt_fresh (ht.live a ?_))
    rw [(tableOwned_perm base hrow).mem_iff]
    simp only [List.mem_append, List.mem_cons, Row.owned, owned] at ha ⊢
    tauto
  have hnodes : (base :: row.nodes).Nodup :=
    hown.sublist ((List.sublist_append_right _ _).cons_cons base)
  have hle := (List.subperm_of_subset hnodes hsub).length_le
  rw [List.length_range, List.length_cons] at hle
  omega

/-- A table after an add to one of its buckets. -/
theorem TableAt.set (ht : TableAt h base cells rows)
    (hrow : rows[i]? = some row) {cell' : Bucket} {es' : List Entry}
    {ns' : List Nat}
    (ha : Added h ⟨base, i⟩ cells row.entries row.nodes h' cell' es' ns') :
    TableAt h' base (cells.set i cell') (rows.set i ⟨es', ns'⟩) ∧
      Moves h (tableOwned base rows) h'
        (tableOwned base (rows.set i ⟨es', ns'⟩)) := by
  have hi := (List.getElem?_eq_some_iff.mp hrow).1
  have hperm := tableOwned_perm base hrow
  have hperm' := tableOwned_set_perm base hi ⟨es', ns'⟩
  have hnodup := hperm.nodup_iff.mp ht.nodup
  have hrest : ∀ a ∈ (rows.eraseIdx i).flatMap Row.owned,
      h.block a ≠ none := by
    intro a ha
    refine ht.live a ?_
    rw [hperm.mem_iff]
    exact List.mem_append_right _ ha
  have hapart : ∀ a ∈ (rows.eraseIdx i).flatMap Row.owned,
      a ∉ base :: row.owned :=
    fun a hmem hown => (List.nodup_append.mp hnodup).2.2 a hown a hmem rfl
  have hsame : ∀ a ∈ (rows.eraseIdx i).flatMap Row.owned,
      h'.block a = h.block a :=
    fun a hmem => ha.rewrites.moves.block_eq (hrest a hmem) (hapart a hmem)
  refine ⟨⟨ha.rewrites.bucket.block, ?_, ?_, ?_⟩, ?_⟩
  · simp [ht.length]
  · intro j cell row' hcell hrow'
    rw [List.getElem?_set] at hcell hrow'
    by_cases hij : i = j
    · subst hij
      rw [if_pos rfl, if_pos (by rw [ht.length]; exact hi)] at hcell
      rw [if_pos rfl, if_pos hi] at hrow'
      cases hcell
      cases hrow'
      exact Or.inr ha.chain
    · rw [if_neg hij] at hcell hrow'
      refine (ht.row j cell row' hcell hrow').congr (fun a hmem => hsame a ?_)
      refine List.mem_flatMap.mpr ⟨row', ?_, hmem⟩
      exact List.mem_eraseIdx_iff_getElem?.mpr ⟨j, Ne.symm hij, hrow'⟩
  · rw [hperm'.nodup_iff]
    exact ha.rewrites.moves.nodup hnodup hrest ha.nodup
  · exact (ha.rewrites.moves.frame _).congr (fun a => hperm.mem_iff)
      (fun a => hperm'.mem_iff)

/-! ## Refinement -/

/-- `Htable_t` of a table with these rows. -/
def structOf (base : Nat) (rows : List Row) : Htable :=
  { buckets := some base, size := rows.length }

/-- The heap holds the table. -/
structure Represents (h : Heap Block) (base : Nat) (rows : List Row)
    (table : PpsDht.Htable) : Prop where
  tableAt : ∃ cells, TableAt h base cells rows
  buckets : table.buckets = rows.map (fun row => bucketOf row.entries)

variable {table : PpsDht.Htable} {k v : Nat} {key value : CString}

theorem Represents.size (hrep : Represents h base rows table) :
    table.size = rows.length := by
  rw [PpsDht.Htable.size, hrep.buckets, List.length_map]

/-- The row in which a key belongs. -/
theorem Represents.rowOf (hrep : Represents h base rows table)
    (key : CString) :
    ∃ row, rows[PpsDht.hashFunction (some key) rows.length]? = some row ∧
      table.bucketOf key = bucketOf row.entries := by
  have hget := getElem?_bucketOf table key
  rw [hrep.size, hrep.buckets, List.getElem?_map, Option.map_eq_some_iff] at hget
  obtain ⟨row, hrow, heq⟩ := hget
  exact ⟨row, hrow, heq.symm⟩

theorem runs_hashFunction (hkey : TextAt h k key) (size : Nat) :
    Runs h (hashFunction (some k) size)
      (PpsDht.hashFunction (some key) size) h := by
  rw [hashFunction]
  by_cases hsize : size = 0
  · rw [if_pos hsize, PpsDht.hashFunction, if_pos hsize]
    exact runs_pure h _
  · rw [if_neg hsize, if_neg (by simp)]
    exact (runs_loadString hkey).bind (runs_pure h _)

/-- The pair that a table stores under a key. -/
def stored (rows : List Row) (key : CString) : Option Entry :=
  (rows[PpsDht.hashFunction (some key) rows.length]?).bind
    (fun row => findEntry key row.entries)

/-- Neither string is of the pair that an add of the key replaces. -/
def Safe (rows : List Row) (key : CString) (k v : Nat) : Prop :=
  ∀ e, stored rows key = some e → k ∉ e.blocks ∧ v ∉ e.blocks

theorem safe_iff {row : Row}
    (hrow : rows[PpsDht.hashFunction (some key) rows.length]? = some row) :
    Safe rows key k v ↔ Apart row.entries key k v := by
  rw [Safe, stored, hrow]
  rfl

theorem findEntry_mem {key : CString} {es : List Entry} {e : Entry}
    (hfind : findEntry key es = some e) : e ∈ es ∧ e.key = key := by
  rw [findEntry] at hfind
  exact ⟨List.mem_of_find?_eq_some hfind, by
    simpa using List.find?_some hfind⟩

/-- The strings of stored pairs are blocks of the table. -/
theorem stored_owned {e : Entry} (hstored : stored rows key = some e) :
    ∀ a ∈ e.blocks, a ∈ tableOwned base rows := by
  intro a ha
  obtain ⟨row, hrow, hfind⟩ := Option.bind_eq_some_iff.mp hstored
  refine List.mem_cons_of_mem _ (List.mem_flatMap.mpr
    ⟨row, List.mem_of_getElem? hrow, ?_⟩)
  exact List.mem_append_left _ (List.mem_flatMap.mpr
    ⟨e, (findEntry_mem hfind).1, ha⟩)

/-- Strings that are not the table's are safe. -/
theorem safe_of_not_mem (hk : k ∉ tableOwned base rows)
    (hv : v ∉ tableOwned base rows) : Safe rows key k v :=
  fun _ hstored => ⟨fun hmem => hk (stored_owned hstored k hmem),
    fun hmem => hv (stored_owned hstored v hmem)⟩

theorem Represents.live (hrep : Represents h base rows table) :
    ∀ a ∈ tableOwned base rows, h.block a ≠ none := by
  obtain ⟨cells, ht⟩ := hrep.tableAt
  exact ht.live

theorem Represents.moves (hrep : Represents h base rows table)
    {own own' : List Nat} (hm : Moves h own h' own')
    (hapart : ∀ a ∈ tableOwned base rows, a ∉ own) :
    Represents h' base rows table := by
  obtain ⟨cells, ht⟩ := hrep.tableAt
  exact ⟨⟨cells, ht.congr (fun a ha =>
    hm.block_eq (ht.live a ha) (hapart a ha))⟩, hrep.buckets⟩

/-- An add to the table, by the bucket of its key. -/
theorem Represents.buckets_add (hrep : Represents h base rows table)
    {row : Row}
    (hrow : rows[PpsDht.hashFunction (some key) rows.length]? = some row)
    (ok : Bool) (value : CString) :
    let added := PpsDht.addValueToBucket ok (bucketOf row.entries) key value
    (PpsDht.addHtableValue ok table key (some value)).1 = added.1 ∧
      (PpsDht.addHtableValue ok table key (some value)).2.buckets =
        (rows.map (fun row => bucketOf row.entries)).set
          (PpsDht.hashFunction (some key) rows.length) added.2 := by
  obtain ⟨row', hrow', hbucket⟩ := hrep.rowOf key
  cases hrow.symm.trans hrow'
  show (PpsDht.addValueToBucket ok (table.bucketOf key) key value).1 = _ ∧
    table.buckets.set (PpsDht.hashFunction (some key) table.size)
      (PpsDht.addValueToBucket ok (table.bucketOf key) key value).2 = _
  rw [hrep.size, hbucket, hrep.buckets]
  exact ⟨rfl, rfl⟩

/-- What an add leaves: a heap that represents the table with the pair added,
and no block beside those of the table that was touched, or got lost. -/
structure AddRefines (h : Heap Block) (base : Nat) (rows : List Row)
    (table : PpsDht.Htable) (h' : Heap Block) (rows' : List Row) : Prop where
  represents : Represents h' base rows' table
  length : rows'.length = rows.length
  moves : Moves h (tableOwned base rows) h' (tableOwned base rows')

/-- An add of the key needs memory for a bucket, and there is none. -/
def Dropped (h : Heap Block) (rows : List Row) (key : CString) : Prop :=
  h.room (h.fresh + 2) = false ∧ ∃ row,
    rows[PpsDht.hashFunction (some key) rows.length]? = some row ∧
      row.Links key

theorem dropped_iff {row : Row}
    (hrow : rows[PpsDht.hashFunction (some key) rows.length]? = some row) :
    Dropped h rows key ↔ h.room (h.fresh + 2) = false ∧ row.Links key := by
  simp [Dropped, hrow]

/-- An add that is not dropped. -/
theorem runs_add_kept (hroom : h.Room 2) (hrep : Represents h base rows table)
    (hkey : TextAt h k key) (hvalue : TextAt h v value)
    (hsafe : Safe rows key k v) (hkept : ¬ Dropped h rows key) :
    ∃ h' rows', Runs h (addHtableValue (structOf base rows) (some k) (some v))
        .ERR_NONE h' ∧
      AddRefines h base rows
        (PpsDht.addHtableValue true table key (some value)).2 h' rows' ∧
      PpsDht.addHtableValue (h.room (h.fresh + 2)) table key (some value) =
        PpsDht.addHtableValue true table key (some value) := by
  obtain ⟨cells, ht⟩ := hrep.tableAt
  obtain ⟨row, hrow, hbucket⟩ := hrep.rowOf key
  obtain ⟨cell, hb, hat⟩ := ht.bucketAt hrow
  have hnodup : (base :: row.owned).Nodup :=
    (List.nodup_append.mp
      ((tableOwned_perm base hrow).nodup_iff.mp ht.nodup)).1
  rw [dropped_iff hrow, not_and_or, Bool.not_eq_false] at hkept
  have hmore : row.Links key → h.Room 3 := by
    intro hlinks i hi
    by_cases htwo : i < 2
    · exact hroom i htwo
    · obtain rfl : i = 2 := by omega
      exact hkept.resolve_right (fun hnot => hnot hlinks)
  obtain ⟨h', cell', ns', hruns, hadded⟩ := hat.runs_add hroom hkey hvalue hb
    hnodup ((safe_iff hrow).mp hsafe) (ht.nodes_lt hrow) hmore
  obtain ⟨ht', hm⟩ := ht.set hrow hadded
  have hadd := addValueToBucket_bucketOf (nextEntry h key value) row.entries
  refine ⟨h', _, ?_, ⟨⟨⟨_, ht'⟩, ?_⟩, by simp, hm⟩, ?_⟩
  · rw [addHtableValue, if_neg (by simp)]
    exact (runs_hashFunction hkey _).bind ((runs_pure h base).bind
      ((runs_used h).bind hruns))
  · rw [(hrep.buckets_add hrow true value).2, List.map_set]
    exact congrArg _ (congrArg Prod.snd hadd)
  · have hcase : h.room (h.fresh + 2) = true ∨ row.entries = [] ∨
        ∃ e, findEntry key row.entries = some e := by
      rcases hkept with hok | hnot
      · exact Or.inl hok
      · rw [Row.Links, not_and_or, not_not] at hnot
        exact Or.inr (hnot.imp_right Option.ne_none_iff_exists'.mp)
    have hok := addValueToBucket_bucketOf_ok value (h.room (h.fresh + 2)) hcase
    rw [← hbucket] at hok
    simp only [PpsDht.addHtableValue, hok]

/-- A pointer to the string, or `NULL`. -/
def PointsTo (h : Heap Block) (p : Option Nat) (s : Option CString) : Prop :=
  match s with
  | none => p = none
  | some s => ∃ a, p = some a ∧ TextAt h a s

/-- `get_Htable_value` reads one bucket of the table. -/
theorem Row.At.runs_getHtableValue (hat : row.At h cell)
    (hrow : rows[PpsDht.hashFunction (some key) rows.length]? = some row)
    (hb : BucketAt h ⟨base, PpsDht.hashFunction (some key) rows.length⟩ cells
      cell) (hleft : row.nodes.length < h.fresh) (hkey : TextAt h k key) :
    Runs h (getHtableValue (structOf base rows) (some k))
        ((stored rows key).map Entry.valueAt) h ∧
      PointsTo h ((stored rows key).map Entry.valueAt)
        ((stored rows key).map Entry.value) := by
  have hstored : stored rows key = findEntry key row.entries := by
    rw [stored, hrow, Option.bind_some]
  rw [hstored]
  constructor
  · rw [getHtableValue, if_neg (by simp)]
    exact (runs_hashFunction hkey _).bind ((runs_pure h base).bind
      ((runs_used h).bind (hat.runs_get hkey hb hleft)))
  · cases hfind : findEntry key row.entries with
    | none => rfl
    | some e =>
      have hmem := (findEntry_mem hfind).1
      exact ⟨e.valueAt, rfl, textAt_mem (hat.entry hmem).value⟩

theorem Represents.toMap (hrep : Represents h base rows table)
    (key : CString) :
    table.toMap key = (stored rows key).map Entry.value := by
  obtain ⟨row, hrow, hbucket⟩ := hrep.rowOf key
  rw [PpsDht.Htable.toMap, PpsDht.getHtableValue, hbucket,
    getValueFromBucket_bucketOf, stored, hrow, Option.bind_some]

/-- `get_Htable_value` with pointers returns the value of the table that the
heap represents, in the string of the table. -/
theorem runs_getHtableValue (hrep : Represents h base rows table)
    (hkey : TextAt h k key) :
    Runs h (getHtableValue (structOf base rows) (some k))
        ((stored rows key).map Entry.valueAt) h ∧
      PointsTo h ((stored rows key).map Entry.valueAt) (table.toMap key) := by
  obtain ⟨cells, ht⟩ := hrep.tableAt
  obtain ⟨row, hrow, _⟩ := hrep.rowOf key
  obtain ⟨cell, hb, hat⟩ := ht.bucketAt hrow
  rw [hrep.toMap key]
  exact hat.runs_getHtableValue hrow hb (ht.nodes_lt hrow) hkey

end PpsDht.Pointer
