import PpsDht.HashtableHeapDelete
import PpsDht.HashtableContent

/-!
# The content of a table in memory

`get_bucket_content` copies the last pair of a bucket.  Of the others it lists
the pointers only, so the list and the table share their strings.

* `content_list`: the list holds the pairs of `getHtableContent`, the table is
  as it was, and which strings they share.
-/

namespace PpsDht.Pointer

open CMem Memory

variable {h h' h'' : Heap Block} {cell : Bucket} {es : List Entry}
  {ns : List Nat} {cells : List Bucket} {row : Row} {rows : List Row}
  {base i : Nat} {bck : BucketPtr} {table : PpsDht.Htable}
  {l arr size free : Nat} {pairs filled : List KvPair}

/-! ## Sizes -/

theorem runs_getBucketSize (hchain : Chain h cell es ns) :
    ∀ {bck : BucketPtr} {cells : List Bucket} {left : Nat},
      BucketAt h bck cells cell → es.length ≤ left →
      Runs h (getBucketSize left bck) es.length h := by
  induction hchain with
  | @last e hat =>
    intro bck cells left hb hleft
    obtain ⟨left, rfl⟩ : ∃ n, left = n + 1 :=
      ⟨left - 1, by simp at hleft; omega⟩
    unfold getBucketSize
    refine (runs_loadBucket hb).bind ?_
    rw [if_neg (by simp [Entry.ptrs])]
    exact runs_pure h 1
  | @link e n cell es ns hat hblock hrest ih =>
    intro bck cells left hb hleft
    obtain ⟨left, rfl⟩ : ∃ n, left = n + 1 :=
      ⟨left - 1, by simp at hleft; omega⟩
    unfold getBucketSize
    refine (runs_loadBucket hb).bind ?_
    rw [if_neg (by simp [Entry.ptrs])]
    have hn : BucketAt h ⟨n, 0⟩ [cell] cell := ⟨hblock, rfl⟩
    have hless : es.length ≤ left := by simpa using hleft
    have hruns := ih hn hless
    rw [List.length_cons, Nat.add_comm]
    exact hruns.bind (runs_pure h _)

theorem Row.At.runs_size (hrow : row.At h cell)
    (hb : BucketAt h bck cells cell) {left : Nat}
    (hleft : row.nodes.length < left) :
    Runs h (getBucketSize left bck) row.entries.length h := by
  rcases hrow with ⟨rfl, rfl⟩ | hchain
  · obtain ⟨left, rfl⟩ : ∃ n, left = n + 1 := ⟨left - 1, by omega⟩
    unfold getBucketSize
    exact (runs_loadBucket hb).bind (runs_pure h 0)
  · have hlength := hchain.length
    exact runs_getBucketSize hchain hb (by omega)

/-- The pairs of a table. -/
def allEntries (rows : List Row) : List Entry := rows.flatMap Row.entries

theorem allEntries_take_succ (hi : i < rows.length) :
    allEntries (rows.take (i + 1)) =
      allEntries (rows.take i) ++ rows[i].entries := by
  rw [List.take_succ_eq_append_getElem hi, allEntries, List.flatMap_append,
    List.flatMap_cons, List.flatMap_nil, List.append_nil]
  rfl

/-- `get_Htable_size`. -/
theorem runs_getHtableSize (ht : TableAt h base cells rows) :
    Runs h (getHtableSize (structOf base rows)) (allEntries rows).length h := by
  obtain ⟨total, h', hruns, rfl, rfl⟩ := runs_for
    (fun i total => do
      let base ← deref (some base)
      let most ← used
      let size ← getBucketSize most ⟨base, i⟩
      pure (total + size))
    (fun i total h' => total = (allEntries (rows.take i)).length ∧ h' = h)
    rows.length (x := 0) (h := h) ⟨rfl, rfl⟩ (by
      rintro i total h₁ hi ⟨rfl, rfl⟩
      have hrow : rows[i]? = some rows[i] := List.getElem?_eq_getElem hi
      obtain ⟨cell, hb, hat⟩ := ht.bucketAt hrow
      refine ⟨_, _, (runs_pure h₁ base).bind ((runs_used h₁).bind
        ((hat.runs_size hb (ht.nodes_lt hrow)).bind (runs_pure h₁ _))), ?_, rfl⟩
      rw [allEntries_take_succ hi, List.length_append])
  rw [List.take_length] at hruns
  exact hruns

/-! ## The list of one bucket -/

/-- The copy of a pair that `create_kv_pair` makes at an address. -/
def Entry.copy (e : Entry) (start : Nat) : Entry :=
  { e with keyAt := start, valueAt := start + 1 }

/-- The pairs of a bucket that its list takes over. -/
def listed (start : Nat) : List Entry → List Entry
  | [] => []
  | [e] => [e.copy start]
  | e :: e' :: es => e :: listed start (e' :: es)

/-- The blocks that are allocated for the list of a bucket. -/
def copies (start : Nat) (es : List Entry) : List Nat :=
  if es = [] then [] else [start, start + 1]

theorem copies_nodup {start : Nat} (harr : arr < start) (es : List Entry) :
    (arr :: copies start es).Nodup := by
  unfold copies
  split
  · simp
  · simp
    omega

/-- The strings that the list of a bucket shares with it. -/
def shared (es : List Entry) : List Nat := strings es.dropLast

/-- The pair without its addresses. -/
def Entry.pair (e : Entry) : PpsDht.KvPair := { key := e.key, value := e.value }

theorem map_pair_listed (start : Nat) : ∀ es : List Entry,
    (listed start es).map Entry.pair = es.map Entry.pair
  | [] => rfl
  | [_] => rfl
  | e :: e' :: es => by
    rw [listed, List.map_cons, map_pair_listed start (e' :: es)]
    rfl

theorem blocks_listed (start : Nat) : ∀ es : List Entry,
    strings (listed start es) = shared es ++ copies start es
  | [] => rfl
  | [_] => rfl
  | e :: e' :: es => by
    have ih := blocks_listed start (e' :: es)
    simp only [strings, shared, copies] at ih ⊢
    simp [listed, ih]

theorem length_listed (start : Nat) (es : List Entry) :
    (listed start es).length = es.length := by
  have hmap := congrArg List.length (map_pair_listed start es)
  simpa using hmap

/-- A list of pairs. -/
structure ListAt (h : Heap Block) (l arr size : Nat) (cells : List KvPair) :
    Prop where
  list : h.block l = some (.kvList ⟨size, some arr⟩)
  pairs : h.block arr = some (.pairs cells)


theorem ListAt.moves (hl : ListAt h l arr size pairs) {own own' : List Nat}
    (hm : Moves h own h' own') (hlown : l ∉ own) (harr : arr ∉ own) :
    ListAt h' l arr size pairs :=
  ⟨hm.block_some hl.list hlown, hm.block_some hl.pairs harr⟩

theorem ListAt.ne (hl : ListAt h l arr size pairs) : l ≠ arr := by
  rintro rfl
  have hlist := hl.list
  rw [hl.pairs] at hlist
  cases hlist

theorem set_replicate {α : Type} (filled : List α) (x y : α) (free : Nat) :
    (filled ++ List.replicate (free + 1) x).set filled.length y =
      (filled ++ [y]) ++ List.replicate free x := by
  simp [List.replicate_succ]

/-- Filling the next slot of a list. -/
theorem runs_setPair
    (hl : ListAt h l arr size (filled ++ List.replicate (free + 1) .null))
    (kv : KvPair) :
    ∃ h', Runs h (setPair (some l) filled.length kv) () h' ∧
      ListAt h' l arr size ((filled ++ [kv]) ++ List.replicate free .null) ∧
      Moves h [arr] h' [arr] ∧ h'.fresh = h.fresh := by
  have hlist : Runs h (loadKvList (some l)) ⟨size, some arr⟩ h :=
    (runs_pure h l).bind ((runs_load hl.list).bind (runs_pure h _))
  have hpairs : Runs h (loadPairs (some arr)) _ h :=
    (runs_pure h arr).bind ((runs_load hl.pairs).bind (runs_pure h _))
  have hcell : Runs h (element (filled ++ List.replicate (free + 1) .null)
      filled.length) KvPair.null h :=
    runs_element (by simp [List.replicate_succ])
  refine ⟨_, hlist.bind ((runs_pure h arr).bind (hpairs.bind (hcell.bind
    (runs_store hl.pairs _)))), ?_, moves_store h _, rfl⟩
  rw [set_replicate]
  exact ⟨(Heap.put_block_of_ne _ hl.ne).trans hl.list,
    Heap.put_block_self _ (Heap.lt_of_some hl.pairs)⟩

/-- What `get_bucket_content` leaves. -/
structure Lists (h : Heap Block) (l arr size : Nat) (filled : List KvPair)
    (free : Nat) (es : List Entry) (h' : Heap Block) : Prop where
  list : ListAt h' l arr size (filled ++ (listed h.fresh es).map Entry.ptrs ++
    List.replicate (free - es.length) .null)
  entries : ∀ e ∈ listed h.fresh es, e.At h'
  moves : Moves h [arr] h' (arr :: copies h.fresh es)

/-- `get_bucket_content` on a bucket that stores pairs. -/
theorem runs_getBucketContent (hchain : Chain h cell es ns) :
    ∀ {h₁ : Heap Block} {bck : BucketPtr} {cells : List Bucket} {left : Nat}
      {filled : List KvPair} {free : Nat}, h₁.Roomy →
      (∀ a ∈ owned es ns, h₁.block a = h.block a) →
      BucketAt h₁ bck cells cell →
      ListAt h₁ l arr size (filled ++ List.replicate free .null) →
      arr ∉ owned es ns → es.length ≤ free → es.length ≤ left →
      ∃ h', Runs h₁ (getBucketContent left bck (some l) filled.length)
          es.length h' ∧ Lists h₁ l arr size filled free es h' := by
  induction hchain with
  | @last e hat =>
    intro h₁ bck cells left filled free hroom heq hb hl harr hfree hleft
    obtain ⟨left, rfl⟩ : ∃ n, left = n + 1 :=
      ⟨left - 1, by simp at hleft; omega⟩
    obtain ⟨free, rfl⟩ : ∃ n, free = n + 1 :=
      ⟨free - 1, by simp at hfree; omega⟩
    have hat₁ : e.At h₁ := hat.congr (fun a ha => heq a (by simp [owned, ha]))
    obtain ⟨h₂, hruns₂, hat₂, hm₂, _⟩ := runs_createKvPair (hroom.room 2)
      (textAt_mem hat₁.key) (textAt_mem hat₁.value)
    obtain ⟨h₃, hruns₃, hl₃, hm₃, _⟩ :=
      runs_setPair (hl.moves hm₂ (by simp) (by simp))
        (nextEntry h₁ e.key e.value).ptrs
    have harr₂ : arr ∉ (nextEntry h₁ e.key e.value).blocks :=
      hm₂.not_mem (by simp [hl.pairs]) (by simp)
    refine ⟨h₃, ?_, hl₃, ?_, ?_⟩
    · unfold getBucketContent
      refine (runs_loadBucket hb).bind ?_
      rw [if_neg (by simp [Entry.ptrs])]
      exact hruns₂.bind (hruns₃.bind (runs_pure h₃ 1))
    · intro e' he'
      rw [List.mem_singleton.mp he']
      refine hat₂.congr (fun a ha => hm₃.block_eq (hat₂.live a ha) ?_)
      rw [List.mem_singleton]
      rintro rfl
      exact harr₂ ha
    · refine (hm₂.frame [arr]).trans ((hm₃.frame
        (nextEntry h₁ e.key e.value).blocks).congr ?_ ?_)
      · simp [or_comm]
      · simp [copies, nextEntry, Entry.blocks]
  | @link e n cell es ns hat hblock hrest ih =>
    intro h₁ bck cells left filled free hroom heq hb hl harr hfree hleft
    obtain ⟨left, rfl⟩ : ∃ n, left = n + 1 :=
      ⟨left - 1, by simp at hleft; omega⟩
    obtain ⟨free, rfl⟩ : ∃ n, free = n + 1 :=
      ⟨free - 1, by simp at hfree; omega⟩
    simp only [(owned_cons_cons e es n ns).mem_iff, List.mem_append,
      List.mem_cons, not_or] at heq harr
    obtain ⟨h₂, hruns₂, hl₂, hm₂, hfresh₂⟩ := runs_setPair hl e.ptrs
    have hkept : ∀ a, a ≠ arr → h₂.block a = h₁.block a := fun a ha =>
      hm₂.kept a (by simpa using ha) (by simpa using ha)
    have hat₁ : e.At h₁ := hat.congr (fun a ha => heq a (Or.inl ha))
    have hn₂ : h₂.block n = some (.buckets [cell]) := by
      rw [hkept n (fun h0 => harr.2.1 h0.symm), heq n (Or.inr (Or.inl rfl)),
        hblock]
    have hlength : (filled ++ [e.ptrs]).length = filled.length + 1 := by simp
    have hroom₂ : h₂.Roomy := fun x => by rw [hm₂.room]; exact hroom x
    have heq₂ : ∀ a ∈ owned es ns, h₂.block a = h.block a := by
      intro a ha
      rw [hkept a (fun h0 => harr.2.2 (h0 ▸ ha)), heq a (Or.inr (Or.inr ha))]
    have hb₂ : BucketAt h₂ ⟨n, 0⟩ [cell] cell := ⟨hn₂, rfl⟩
    have hfewer : es.length ≤ free := by simpa using hfree
    have hless : es.length ≤ left := by simpa using hleft
    obtain ⟨h₃, hruns₃, hlists⟩ :=
      ih hroom₂ heq₂ hb₂ hl₂ harr.2.2 hfewer hless
    rw [hlength] at hruns₃
    have hne : es ≠ [] := by
      rintro rfl
      cases hrest
    obtain ⟨e', es, rfl⟩ := List.exists_cons_of_ne_nil hne
    refine ⟨h₃, ?_, ?_, ?_, ?_⟩
    · unfold getBucketContent
      refine (runs_loadBucket hb).bind ?_
      rw [if_neg (by simp [Entry.ptrs]), List.length_cons,
        Nat.add_comm (e' :: es).length]
      exact hruns₂.bind (hruns₃.bind (runs_pure h₃ _))
    · have hl₃ := hlists.list
      rw [hfresh₂, List.append_assoc filled] at hl₃
      rw [List.length_cons, Nat.add_sub_add_right]
      exact hl₃
    · intro e₁ he₁
      rw [listed, List.mem_cons] at he₁
      rcases he₁ with rfl | he₁
      · refine hat₁.congr (fun a ha => ?_)
        have hne : a ≠ arr := by
          rintro rfl
          exact harr.1 ha
        rw [← hkept a hne]
        refine hlists.moves.block_eq ?_ (by simpa using hne)
        rw [hkept a hne]
        exact hat₁.live a ha
      · exact hlists.entries e₁ (by rw [hfresh₂]; exact he₁)
    · have hm₃ := hlists.moves
      rw [hfresh₂] at hm₃
      exact hm₂.trans hm₃

theorem Row.At.runs_content (hrow : row.At h cell) (hroom : h.Roomy)
    (hb : BucketAt h bck cells cell)
    (hl : ListAt h l arr size (filled ++ List.replicate free .null))
    (harr : arr ∉ row.owned) (hfree : row.entries.length ≤ free) {left : Nat}
    (hleft : row.nodes.length < left) :
    ∃ h', Runs h (getBucketContent left bck (some l) filled.length)
        row.entries.length h' ∧
      Lists h l arr size filled free row.entries h' := by
  rcases hrow with ⟨rfl, rfl⟩ | hchain
  · obtain ⟨left, rfl⟩ : ∃ n, left = n + 1 := ⟨left - 1, by omega⟩
    refine ⟨h, ?_, ⟨?_, ?_, .refl h _⟩⟩
    · unfold getBucketContent
      exact (runs_loadBucket hb).bind (runs_pure h 0)
    · simpa [listed] using hl
    · simp [listed]
  · have hlength := hchain.length
    exact runs_getBucketContent hchain hroom (fun _ _ => rfl) hb hl harr hfree
      (by omega)

/-! ## The list of a table -/

/-- The strings that the list of a table shares with it. -/
def allShared (rows : List Row) : List Nat :=
  rows.flatMap (fun row => shared row.entries)

/-- The list while the buckets `rows` are in it. -/
structure Gathers (h : Heap Block) (l arr size : Nat) (rows : List Row)
    (es : List Entry) (copied : List Nat) (h' : Heap Block) : Prop where
  list : ListAt h' l arr size
    (es.map Entry.ptrs ++ List.replicate (size - es.length) .null)
  entries : ∀ e ∈ es, e.At h'
  pairs : es.map Entry.pair = (allEntries rows).map Entry.pair
  blocks : (strings es).Perm (allShared rows ++ copied)
  moves : Moves h [arr] h' (arr :: copied)
  nodup : (arr :: copied).Nodup

variable {copied : List Nat}

theorem Entry.At.apart {e : Entry} (hat : e.At h) {a : Nat} {b : Block}
    (hblock : h.block a = some b) (hkind : ∀ bytes, b ≠ .chars bytes) :
    a ∉ e.blocks := by
  intro hmem
  simp only [Entry.blocks, List.mem_cons, List.not_mem_nil, or_false] at hmem
  rcases hmem with rfl | rfl
  · exact hkind _ (Option.some.inj (hblock.symm.trans hat.key))
  · exact hkind _ (Option.some.inj (hblock.symm.trans hat.value))

theorem strings_apart (hentries : ∀ e ∈ es, e.At h) {a : Nat} {b : Block}
    (hblock : h.block a = some b) (hkind : ∀ bytes, b ≠ .chars bytes) :
    a ∉ strings es := by
  intro hmem
  obtain ⟨e, he, ha⟩ := List.mem_flatMap.mp hmem
  exact (hentries e he).apart hblock hkind ha

theorem strings_append (es es' : List Entry) :
    strings (es ++ es') = strings es ++ strings es' :=
  List.flatMap_append

theorem Gathers.length (hg : Gathers h l arr size rows es copied h') :
    es.length = (allEntries rows).length := by
  have hlength := congrArg List.length hg.pairs
  simpa using hlength

/-- One more bucket. -/
theorem Gathers.step (hg : Gathers h l arr size rows es copied h')
    (hlists : Lists h' l arr size (es.map Entry.ptrs) (size - es.length)
      row.entries h'') :
    Gathers h l arr size (rows ++ [row])
      (es ++ listed h'.fresh row.entries)
      (copied ++ copies h'.fresh row.entries) h'' := by
  have hlive : ∀ a ∈ copied, h'.block a ≠ none := by
    intro a ha
    have hmem := hg.blocks.symm.subset (List.mem_append_right _ ha)
    obtain ⟨e, he, ha⟩ := List.mem_flatMap.mp hmem
    exact (hg.entries e he).live a ha
  obtain ⟨harr, hcopied⟩ := List.nodup_cons.mp hg.nodup
  have hperm : (arr :: (copied ++ copies h'.fresh row.entries)).Perm
      ((arr :: copies h'.fresh row.entries) ++ copied) :=
    List.perm_append_comm.cons arr
  refine ⟨?_, ?_, ?_, ?_, ?_, ?_⟩
  · rw [List.map_append, List.length_append, length_listed, ← Nat.sub_sub]
    exact hlists.list
  · intro e he
    rcases List.mem_append.mp he with he | he
    · refine (hg.entries e he).congr (fun a ha => ?_)
      refine hlists.moves.block_eq ((hg.entries e he).live a ha) ?_
      rw [List.mem_singleton]
      rintro rfl
      exact (hg.entries e he).apart hg.list.pairs (by simp) ha
    · exact hlists.entries e he
  · rw [List.map_append, hg.pairs, map_pair_listed, ← List.map_append]
    simp [allEntries]
  · rw [strings_append, blocks_listed, allShared, List.flatMap_append,
      List.flatMap_singleton]
    have hsides := hg.blocks.append_right
      (shared row.entries ++ copies h'.fresh row.entries)
    refine hsides.trans ?_
    simp only [List.append_assoc]
    refine List.Perm.append_left _ ?_
    rw [← List.append_assoc, ← List.append_assoc]
    exact List.perm_append_comm.append_right _
  · refine (hg.moves.trans (hlists.moves.frame copied)).congr (by simp) ?_
    exact fun a => hperm.mem_iff
  · rw [hperm.nodup_iff]
    exact hlists.moves.nodup hg.nodup hlive
      (copies_nodup (Heap.lt_of_some hg.list.pairs) row.entries)

/-- `get_Htable_content` fills the list bucket by bucket. -/
theorem TableAt.runs_gather (ht : TableAt h base cells rows)
    (hroom : h.Roomy) (hsize : size = (allEntries rows).length)
    (hl : ListAt h l arr size (List.replicate size .null))
    (harr : arr ∉ tableOwned base rows) :
    ∃ h' es copied, Runs h (forLoop (fun i usedUntil => do
          let base ← deref (some base)
          let most ← used
          let count ← getBucketContent most ⟨base, i⟩ (some l) usedUntil
          pure (usedUntil + count)) rows.length 0 0) es.length h' ∧
      Gathers h l arr size rows es copied h' := by
  obtain ⟨n, h', hruns, es, copied, rfl, hg⟩ := runs_for
    (fun i usedUntil => do
      let base ← deref (some base)
      let most ← used
      let count ← getBucketContent most ⟨base, i⟩ (some l) usedUntil
      pure (usedUntil + count))
    (fun i usedUntil h' => ∃ es copied, usedUntil = es.length ∧
      Gathers h l arr size (rows.take i) es copied h')
    rows.length (x := 0) (h := h)
    ⟨[], [], rfl, ⟨by simpa using hl, by simp, rfl, .refl _, .refl h _,
      by simp⟩⟩ (by
      rintro i _ h₁ hi ⟨es, copied, rfl, hg⟩
      have hrow : rows[i]? = some rows[i] := List.getElem?_eq_getElem hi
      obtain ⟨cell, hb, hat⟩ := ht.bucketAt hrow
      have hown : ∀ a ∈ rows[i].owned, h₁.block a = h.block a := by
        intro a ha
        have hmem : a ∈ tableOwned base rows := List.mem_cons_of_mem _
          (List.mem_flatMap.mpr ⟨rows[i], List.getElem_mem hi, ha⟩)
        refine hg.moves.block_eq (ht.live a hmem) ?_
        rw [List.mem_singleton]
        rintro rfl
        exact harr hmem
      have hb₁ : BucketAt h₁ ⟨base, i⟩ cells cell := by
        refine hb.moves hg.moves ?_
        rw [List.mem_singleton]
        rintro rfl
        exact harr List.mem_cons_self
      have hfree : rows[i].entries.length ≤ size - es.length := by
        have hle := ((List.take_sublist (i + 1) rows).flatMap
          Row.entries).length_le
        have hlength := hg.length
        rw [← allEntries, allEntries_take_succ hi, List.length_append,
          ← allEntries] at hle
        omega
      have hrowArr : arr ∉ rows[i].owned := fun hmem => harr
        (List.mem_cons_of_mem _
          (List.mem_flatMap.mpr ⟨rows[i], List.getElem_mem hi, hmem⟩))
      have hleft : rows[i].nodes.length < h₁.fresh :=
        Nat.lt_of_lt_of_le (ht.nodes_lt hrow) hg.moves.fresh
      obtain ⟨h₂, hruns₂, hlists⟩ := (hat.congr hown).runs_content
        (fun x => by rw [hg.moves.room]; exact hroom x) hb₁ hg.list hrowArr
        hfree hleft
      rw [List.length_map] at hruns₂
      have hstep := hg.step hlists
      rw [← List.take_succ_eq_append_getElem hi] at hstep
      refine ⟨_, h₂, (runs_pure h₁ base).bind ((runs_used h₁).bind
        (hruns₂.bind (runs_pure h₂ _))), _, _, ?_, hstep⟩
      rw [List.length_append, length_listed])
  rw [List.take_length] at hg
  exact ⟨h', es, copied, hruns, hg⟩

/-- The list behind a pointer, and what it took to make it. -/
structure Content (h : Heap Block) (rows : List Row) (l arr : Nat)
    (es : List Entry) (copied : List Nat) (h' : Heap Block) : Prop where
  list : ListAt h' l arr es.length (es.map Entry.ptrs)
  entries : ∀ e ∈ es, e.At h'
  pairs : es.map Entry.pair = (allEntries rows).map Entry.pair
  blocks : (strings es).Perm (allShared rows ++ copied)
  moves : Moves h [] h' (l :: arr :: copied)
  nodup : (l :: arr :: copied).Nodup

/-- `get_Htable_content`. -/
theorem runs_getHtableContent (hroom : h.Roomy)
    (ht : TableAt h base cells rows) :
    ∃ h' es copied, Runs h (getHtableContent (structOf base rows))
        (some h.fresh) h' ∧
      Content h rows h.fresh (h.fresh + 1) es copied h' := by
  obtain ⟨h₁, h₂, h₃, hruns₁, hruns₂, hruns₃, hlist, hpairs, hm⟩ :=
    runs_record hroom (.kvList ⟨0, none⟩)
      (.pairs (List.replicate (allEntries rows).length .null))
      (.kvList ⟨(allEntries rows).length, some (h.fresh + 1)⟩ : Block)
  have hnew : ∀ a ∈ tableOwned base rows, a ∉ [h.fresh, h.fresh + 1] :=
    fun a ha => hm.not_mem (ht.live a ha) (by simp)
  have ht₃ : TableAt h₃ base cells rows :=
    ht.congr (fun a ha => hm.block_eq (ht.live a ha) (by simp))
  obtain ⟨h', es, copied, hruns, hg⟩ := ht₃.runs_gather
    (fun x => by rw [hm.room]; exact hroom x) rfl ⟨hlist, hpairs⟩
    (fun hmem => hnew _ hmem (by simp))
  have hsub : (allEntries rows).length - es.length = 0 := by
    rw [hg.length, Nat.sub_self]
  refine ⟨h', es, copied, ?_, ⟨?_, hg.entries, hg.pairs, hg.blocks, ?_, ?_⟩⟩
  · unfold getHtableContent
    refine (runs_getHtableSize ht).bind (hruns₁.bind ?_)
    rw [if_neg (by simp)]
    refine hruns₂.bind ?_
    rw [if_neg (by simp)]
    exact (runs_pure h₂ h.fresh).bind (hruns₃.bind
      (hruns.bind (runs_pure h' _)))
  · have hl := hg.list
    rw [hsub, List.replicate_zero, List.append_nil, ← hg.length] at hl
    exact hl
  · refine hm.trans ?_
    exact (hg.moves.frame [h.fresh]).congr (by simp [or_comm])
      (by simp; tauto)
  · refine List.nodup_cons.mpr ⟨?_, hg.nodup⟩
    exact hg.moves.not_mem (by simp [hlist]) (by simp)

/-- The list holds the pairs of `getHtableContent`, in its order. -/
theorem Represents.content (hrep : Represents h base rows table)
    (hpairs : es.map Entry.pair = (allEntries rows).map Entry.pair) :
    (PpsDht.getHtableContent table).list = es.map (some ∘ Entry.pair) := by
  have hbucket : ∀ es : List Entry,
      (bucketOf es).pairs = es.map Entry.pair := by
    intro es
    induction es with
    | nil => rfl
    | cons e es ih =>
      cases es with
      | nil => rfl
      | cons e' es => rw [bucketOf, Bucket.pairs_link, ih]; rfl
  rw [PpsDht.getHtableContent_flatMap, hrep.buckets, ← List.map_map, hpairs]
  simp only [List.flatMap_map, hbucket, allEntries, List.map_flatMap]

theorem length_strings (es : List Entry) :
    (strings es).length = 2 * es.length := by
  induction es with
  | nil => rfl
  | cons e es ih =>
    rw [strings] at ih ⊢
    rw [List.flatMap_cons, List.length_append, ih]
    simp [Entry.blocks]
    omega

/-- Of every bucket that stores a pair, one pair is not shared. -/
theorem length_allEntries (rows : List Row) :
    2 * (allEntries rows).length = (allShared rows).length +
      2 * rows.countP (fun row => decide (row.entries.length ≠ 0)) := by
  induction rows with
  | nil => rfl
  | cons row rows ih =>
    have hrow := length_strings row.entries.dropLast
    simp only [allEntries, allShared, shared, List.flatMap_cons,
      List.length_append, List.countP_cons] at ih ⊢
    rw [hrow, List.length_dropLast]
    by_cases hlength : row.entries.length = 0
    · rw [if_neg (by simpa using hlength)]
      omega
    · rw [if_pos (by simpa using hlength)]
      omega

theorem Content.length (hc : Content h rows l arr es copied h') :
    copied.length =
      2 * rows.countP (fun row => decide (row.entries.length ≠ 0)) := by
  have hblocks := hc.blocks.length_eq
  have hpairs := congrArg List.length hc.pairs
  have hshared := length_allEntries rows
  rw [length_strings, List.length_append] at hblocks
  rw [List.length_map, List.length_map] at hpairs
  omega

end PpsDht.Pointer
