import PpsDht.HashtableHeap
import PpsDht.HashtableMap

/-!
# Buckets in memory

How the blocks of a heap make up a bucket, and what the functions on strings,
pairs and single buckets do to them.

An `Entry` is a stored pair with the addresses of its two strings.  A bucket is
a list of entries, and a list of the addresses of the buckets that are linked
in behind the first one: `Chain` for a bucket that stores something, `Row` for
any.
-/

namespace PpsDht.Pointer

open CMem Memory

/-! ## Strings -/

/-- The string `s` is stored under the address. -/
def TextAt (h : Heap Block) (a : Nat) (s : CString) : Prop :=
  ∃ bytes, h.block a = some (.chars bytes) ∧ 0 ∈ bytes ∧ cstr bytes = s

variable {h h' : Heap Block}

theorem TextAt.live {a : Nat} {s : CString} (ht : TextAt h a s) :
    h.block a ≠ none := by
  obtain ⟨bytes, hblock, _⟩ := ht
  simp [hblock]

theorem textAt_mem {a : Nat} {s : CString}
    (hblock : h.block a = some (.chars (mem s))) : TextAt h a s :=
  ⟨mem s, hblock, by simp [mem], cstr_mem s⟩

theorem TextAt.of_eq {a : Nat} {s : CString} (ht : TextAt h a s)
    (heq : h'.block a = h.block a) : TextAt h' a s := by
  obtain ⟨bytes, hblock, hs⟩ := ht
  exact ⟨bytes, heq.trans hblock, hs⟩

theorem TextAt.moves {a : Nat} {s : CString} (ht : TextAt h a s)
    {own own' : List Nat} (hm : Moves h own h' own') (ha : a ∉ own) :
    TextAt h' a s :=
  ht.of_eq (hm.block_eq ht.live ha)

theorem runs_loadChars {a : Nat} {bytes : List UInt8}
    (hblock : h.block a = some (.chars bytes)) :
    Runs h (loadChars (some a)) bytes h :=
  (runs_pure h a).bind ((runs_load hblock).bind (runs_pure h bytes))

theorem runs_loadString {a : Nat} {s : CString} (ht : TextAt h a s) :
    Runs h (loadString (some a)) s h := by
  obtain ⟨bytes, hblock, hnul, rfl⟩ := ht
  refine (runs_loadChars hblock).bind ?_
  rw [if_pos hnul]
  exact runs_pure h _

theorem failsWith_loadString {a : Nat} (hdead : h.block a = none) :
    FailsWith h (loadString (some a)) .dead := by
  have hchars : FailsWith h (loadChars (some a)) .dead :=
    (runs_pure h a).bind_failsWith ((failsWith_load hdead).bind _)
  exact hchars.bind _

theorem runs_strcpy {a b : Nat} {s : CString} (ht : TextAt h b s)
    (hblock : h.block a = some (.chars (List.replicate (strlen s + 1) 0))) :
    Runs h (strcpy (some a) (some b)) () (h.put a (some (.chars (mem s)))) := by
  refine (runs_loadString ht).bind ((runs_pure h a).bind
    ((runs_loadChars hblock).bind ?_))
  have hdrop : (List.replicate (strlen s + 1) (0 : UInt8)).drop
      (strlen s + 1) = [] := by simp
  rw [if_pos (by simp), hdrop, List.append_nil]
  exact runs_store hblock _

/-- A stored pair and where its strings are. -/
structure Entry where
  key : CString
  value : CString
  keyAt : Nat
  valueAt : Nat

/-- Its `kv_pair_t`. -/
def Entry.ptrs (e : Entry) : KvPair := ⟨some e.keyAt, some e.valueAt⟩

/-- The blocks that it owns. -/
def Entry.blocks (e : Entry) : List Nat := [e.keyAt, e.valueAt]

/-- The strings of the pair, each in a block that it fills. -/
structure Entry.At (e : Entry) (h : Heap Block) : Prop where
  key : h.block e.keyAt = some (.chars (mem e.key))
  value : h.block e.valueAt = some (.chars (mem e.value))

theorem Entry.At.congr {e : Entry} (hat : e.At h)
    (heq : ∀ a ∈ e.blocks, h'.block a = h.block a) : e.At h' where
  key := (heq _ (by simp [Entry.blocks])).trans hat.key
  value := (heq _ (by simp [Entry.blocks])).trans hat.value

theorem Entry.At.live {e : Entry} (hat : e.At h) :
    ∀ a ∈ e.blocks, h.block a ≠ none := by
  intro a ha
  simp only [Entry.blocks, List.mem_cons, List.not_mem_nil, or_false] at ha
  rcases ha with rfl | rfl
  · simp [hat.key]
  · simp [hat.value]

theorem Entry.ptrs_ne_null (e : Entry) : e.ptrs ≠ .null := by
  simp [Entry.ptrs, KvPair.null]

/-- The pair that `create_kv_pair` makes next. -/
def nextEntry (h : Heap Block) (key value : CString) : Entry where
  key := key
  value := value
  keyAt := h.fresh
  valueAt := h.fresh + 1

/-- `create_kv_pair` copies the two strings, wherever they are. -/
theorem runs_createKvPair (hroom : h.Room 2) {k v : Nat} {key value : CString}
    (hkey : TextAt h k key) (hvalue : TextAt h v value) :
    ∃ h', Runs h (createKvPair (some k) (some v))
        (nextEntry h key value).ptrs h' ∧
      (nextEntry h key value).At h' ∧
      Moves h [] h' (nextEntry h key value).blocks ∧
      h'.fresh = h.fresh + 2 := by
  have hm₁ := moves_alloc h
    (.chars (List.replicate (strlen key + 1) 0) : Block)
  generalize hh₁ : h.grow (some (.chars (List.replicate (strlen key + 1) 0))) =
    h₁ at hm₁
  have hblock₁ : h₁.block h.fresh =
      some (.chars (List.replicate (strlen key + 1) 0)) := by
    rw [← hh₁, Heap.grow_block_self]
  have hfresh₁ : h₁.fresh = h.fresh + 1 := by rw [← hh₁, Heap.grow_fresh]
  have hm₂ := moves_alloc h₁
    (.chars (List.replicate (strlen value + 1) 0) : Block)
  generalize hh₂ : h₁.grow
    (some (.chars (List.replicate (strlen value + 1) 0))) = h₂ at hm₂
  have hblock₂ : h₂.block (h.fresh + 1) =
      some (.chars (List.replicate (strlen value + 1) 0)) := by
    rw [← hh₂, ← hfresh₁, Heap.grow_block_self]
  have hfresh₂ : h₂.fresh = h.fresh + 2 := by
    rw [← hh₂, Heap.grow_fresh, hfresh₁]
  have hm₃ := moves_store (a := h.fresh) h₂ (.chars (mem key))
  generalize hh₃ : h₂.put h.fresh (some (.chars (mem key))) = h₃ at hm₃
  have hm₄ := moves_store (a := h.fresh + 1) h₃ (.chars (mem value))
  generalize hh₄ : h₃.put (h.fresh + 1) (some (.chars (mem value))) = h₄
    at hm₄
  -- The strings that are copied are older than the copies.
  have hklt := Heap.lt_fresh hkey.live
  have hvlt := Heap.lt_fresh hvalue.live
  have hkey₂ : TextAt h₂ k key :=
    (hkey.moves hm₁ (by simp)).moves hm₂ (by simp)
  have hvalue₁ : TextAt h₁ v value := hvalue.moves hm₁ (by simp)
  have hvalue₃ : TextAt h₃ v value :=
    (hvalue₁.moves hm₂ (by simp)).moves hm₃ (by simp; omega)
  have hkeyBlock₂ : h₂.block h.fresh =
      some (.chars (List.replicate (strlen key + 1) 0)) :=
    hm₂.block_some hblock₁ (by simp)
  have hvalueBlock₃ : h₃.block (h.fresh + 1) =
      some (.chars (List.replicate (strlen value + 1) 0)) :=
    hm₃.block_some hblock₂ (by simp)
  have hruns₁ := runs_alloc (hroom 0 Nat.two_pos)
    (.chars (List.replicate (strlen key + 1) 0) : Block)
  rw [hh₁] at hruns₁
  have hroom₁ : h₁.room h₁.fresh = true := by
    rw [hm₁.room, hfresh₁]
    exact hroom 1 Nat.one_lt_two
  have hruns₂ := runs_alloc hroom₁
    (.chars (List.replicate (strlen value + 1) 0) : Block)
  rw [hh₂, hfresh₁] at hruns₂
  have hruns₃ := runs_strcpy hkey₂ hkeyBlock₂
  rw [hh₃] at hruns₃
  have hruns₄ := runs_strcpy hvalue₃ hvalueBlock₃
  rw [hh₄] at hruns₄
  refine ⟨h₄, ?_, ⟨?_, ?_⟩, ?_, ?_⟩
  · exact (runs_loadString hkey).bind (hruns₁.bind
      ((runs_loadString hvalue₁).bind (hruns₂.bind
        (hruns₃.bind (hruns₄.bind (runs_pure h₄ _))))))
  · refine hm₄.block_some ?_ (by simp [nextEntry])
    show h₃.block h.fresh = _
    rw [← hh₃, Heap.put_block_self _ (by omega)]
    rfl
  · show h₄.block (h.fresh + 1) = _
    have hfresh₃ : h₃.fresh = h.fresh + 2 := by
      rw [← hh₃, Heap.put_fresh, hfresh₂]
    rw [← hh₄, Heap.put_block_self _ (by omega)]
    rfl
  · have hm₁₂ := hm₁.trans (hm₂.frame [h.fresh])
    rw [hfresh₁] at hm₁₂
    have hm₃' := (hm₃.frame [h.fresh + 1]).congr (l := [h.fresh + 1, h.fresh])
      (m := [h.fresh + 1, h.fresh]) (by simp; tauto) (by simp; tauto)
    refine ((hm₁₂.trans hm₃').trans (hm₄.frame [h.fresh])).congr (by simp) ?_
    simp [Entry.blocks, nextEntry]
    tauto
  · rw [← hh₄, ← hh₃, Heap.put_fresh, Heap.put_fresh, hfresh₂]

/-- `kv_pair_free` frees the two strings. -/
theorem runs_kvPairFree {e : Entry} (hat : e.At h) (hne : e.blocks.Nodup) :
    ∃ h', Runs h (kvPairFree e.ptrs) () h' ∧ Drops h e.blocks h' := by
  have hkv : e.valueAt ≠ e.keyAt := by
    simp only [Entry.blocks, List.nodup_cons, List.mem_singleton] at hne
    exact fun heq => hne.1 heq.symm
  have hd₁ := drops_release (a := e.keyAt) (h := h) (by simp [hat.key])
  have hvalue : (h.put e.keyAt none).block e.valueAt =
      some (.chars (mem e.value)) := by
    rw [Heap.put_block_of_ne _ hkv, hat.value]
  have hd₂ := drops_release (a := e.valueAt) (h := h.put e.keyAt none)
    (by simp [hvalue])
  exact ⟨_, (runs_release hat.key).bind (runs_release hvalue), hd₁.trans hd₂⟩

theorem failsWith_kvPairFree {kv : KvPair} {a : Nat} (hkey : kv.key = some a)
    (hdead : h.block a = none) : FailsWith h (kvPairFree kv) .dead := by
  rw [kvPairFree, hkey]
  exact (failsWith_release hdead).bind _

/-! ## One bucket -/

theorem runs_element {α : Type} {cells : List α} {i : Nat} {cell : α}
    (hcell : cells[i]? = some cell) : Runs h (element cells i) cell h := by
  rw [element, hcell]
  exact runs_pure h cell

theorem runs_loadBuckets {a : Nat} {cells : List Bucket}
    (hblock : h.block a = some (.buckets cells)) :
    Runs h (loadBuckets a) cells h :=
  (runs_load hblock).bind (runs_pure h cells)

/-- The bucket behind a pointer. -/
structure BucketAt (h : Heap Block) (bck : BucketPtr) (cells : List Bucket)
    (cell : Bucket) : Prop where
  block : h.block bck.base = some (.buckets cells)
  element : cells[bck.index]? = some cell

variable {bck : BucketPtr} {cells : List Bucket} {cell : Bucket}

theorem BucketAt.moves (hb : BucketAt h bck cells cell) {own own' : List Nat}
    (hm : Moves h own h' own') (hbase : bck.base ∉ own) :
    BucketAt h' bck cells cell :=
  ⟨hm.block_some hb.block hbase, hb.element⟩

theorem runs_loadBucket (hb : BucketAt h bck cells cell) :
    Runs h (loadBucket bck) cell h :=
  (runs_loadBuckets hb.block).bind (runs_element hb.element)

/-- Writing one bucket of a block. -/
theorem BucketAt.put (hb : BucketAt h bck cells cell) (cell' : Bucket) :
    BucketAt (h.put bck.base (some (.buckets (cells.set bck.index cell'))))
      bck (cells.set bck.index cell') cell' where
  block := Heap.put_block_self _ (Heap.lt_of_some hb.block)
  element := by
    have hlt := (List.getElem?_eq_some_iff.mp hb.element).1
    simp [hlt]

theorem runs_setKeyValue (hb : BucketAt h bck cells cell) (kv : KvPair) :
    Runs h (setKeyValue bck kv) () (h.put bck.base
      (some (.buckets (cells.set bck.index { cell with keyValue := kv })))) :=
  (runs_loadBuckets hb.block).bind
    ((runs_element hb.element).bind (runs_store hb.block _))

theorem runs_setNext (hb : BucketAt h bck cells cell) (next : Option Nat) :
    Runs h (setNext bck next) () (h.put bck.base
      (some (.buckets (cells.set bck.index { cell with next := next })))) :=
  (runs_loadBuckets hb.block).bind
    ((runs_element hb.element).bind (runs_store hb.block _))

/-- What happens to the bucket `bck` and to the blocks that it owns. -/
structure Rewrites (h : Heap Block) (bck : BucketPtr) (cells : List Bucket)
    (own : List Nat) (h' : Heap Block) (cell' : Bucket) (own' : List Nat) :
    Prop where
  bucket : BucketAt h' bck (cells.set bck.index cell') cell'
  moves : Moves h (bck.base :: own) h' (bck.base :: own')

/-- A program that keeps the bucket, and then a write to it. -/
theorem Rewrites.of_put (hb : BucketAt h' bck cells cell) {own own' : List Nat}
    (hm : Moves h own h' own') (cell' : Bucket) :
    Rewrites h bck cells own
      (h'.put bck.base (some (.buckets (cells.set bck.index cell')))) cell'
      own' where
  bucket := hb.put cell'
  moves := by
    have hframe := (hm.frame [bck.base]).trans
      (((moves_store (a := bck.base) h'
        (.buckets (cells.set bck.index cell'))).frame own').congr
          (l := own' ++ [bck.base]) (m := bck.base :: own')
          (by simp; tauto) (by simp))
    exact hframe.congr (by simp; tauto) (by simp)

/-- The pair of an empty bucket is set. -/
theorem runs_fill (hroom : h.Room 2) (hb : BucketAt h bck cells cell)
    {k v : Nat} {key value : CString} (hkey : TextAt h k key)
    (hvalue : TextAt h v value) :
    ∃ h', Runs h (do
          let pairNew ← createKvPair (some k) (some v)
          setKeyValue bck pairNew
          pure ErrorCode.ERR_NONE) .ERR_NONE h' ∧
      (nextEntry h key value).At h' ∧
      Rewrites h bck cells [] h'
        { cell with keyValue := (nextEntry h key value).ptrs }
        (nextEntry h key value).blocks := by
  obtain ⟨h₁, hruns, hat, hm, _⟩ := runs_createKvPair hroom hkey hvalue
  have hb₁ := hb.moves hm (by simp)
  refine ⟨_, hruns.bind ((runs_setKeyValue hb₁ _).bind (runs_pure _ _)),
    ?_, Rewrites.of_put hb₁ hm _⟩
  have hbase : bck.base ∉ (nextEntry h key value).blocks :=
    hm.not_mem (by simp [hb.block]) (by simp)
  refine hat.congr (fun a ha => Heap.put_block_of_ne _ ?_)
  rintro rfl
  exact hbase ha

/-- The pair of a bucket is freed, and another one is set. -/
theorem runs_replace (hroom : h.Room 2) {e : Entry} {next : Option Nat}
    (hb : BucketAt h bck cells ⟨e.ptrs, next⟩) (hat : e.At h)
    (hnodup : (bck.base :: e.blocks).Nodup) {k v : Nat} {key value : CString}
    (hkey : TextAt h k key) (hvalue : TextAt h v value)
    (hk : k ∉ e.blocks) (hv : v ∉ e.blocks) :
    ∃ h', Runs h (do
          kvPairFree e.ptrs
          let pairNew ← createKvPair (some k) (some v)
          setKeyValue bck pairNew
          pure ErrorCode.ERR_NONE) .ERR_NONE h' ∧
      (nextEntry h key value).At h' ∧
      Rewrites h bck cells e.blocks h' ⟨(nextEntry h key value).ptrs, next⟩
        (nextEntry h key value).blocks := by
  rw [List.nodup_cons] at hnodup
  obtain ⟨h₁, hruns₁, hd⟩ := runs_kvPairFree hat hnodup.2
  have hm₁ := hd.moves e.blocks [] (by simp) (by simp)
  have hroom₁ : h₁.Room 2 := hroom.of_eq hd.fresh hd.room
  have hb₁ := hb.moves hm₁ hnodup.1
  obtain ⟨h₂, hruns₂, hat₂, hrewrites⟩ := runs_fill hroom₁ hb₁
    (hkey.moves hm₁ hk) (hvalue.moves hm₁ hv)
  have hnext : nextEntry h₁ key value = nextEntry h key value := by
    rw [nextEntry, nextEntry, hd.fresh]
  rw [hnext] at hat₂ hrewrites
  refine ⟨h₂, hruns₁.bind hruns₂, hat₂, hrewrites.bucket, ?_⟩
  exact (((hm₁.frame [bck.base]).congr (l := bck.base :: e.blocks)
    (m := [bck.base]) (by simp; tauto) (by simp)).trans hrewrites.moves)

/-- A bucket is linked in behind the last one. -/
theorem runs_append (hroom : h.Room 3) {kv : KvPair}
    (hb : BucketAt h bck cells ⟨kv, none⟩) {k v : Nat} {key value : CString}
    (hkey : TextAt h k key) (hvalue : TextAt h v value) :
    ∃ h', Runs h (do
          let pairNew ← createKvPair (some k) (some v)
          let bucketNew ← createBucket pairNew
          if bucketNew = none then pure ErrorCode.ERR_NOMEM
          else do
            setNext bck bucketNew
            pure ErrorCode.ERR_NONE) .ERR_NONE h' ∧
      (nextEntry h key value).At h' ∧
      h'.block (h.fresh + 2) =
        some (.buckets [⟨(nextEntry h key value).ptrs, none⟩]) ∧
      Rewrites h bck cells [] h' ⟨kv, some (h.fresh + 2)⟩
        ((nextEntry h key value).blocks ++ [h.fresh + 2]) := by
  obtain ⟨h₁, hruns₁, hat₁, hm₁, hfresh₁⟩ := runs_createKvPair
    (fun i hi => hroom i (by omega)) hkey hvalue
  have hroom₁ : h₁.room h₁.fresh = true := by
    rw [hm₁.room, hfresh₁]
    exact hroom 2 (by omega)
  have hruns₂ := runs_alloc hroom₁
    (.buckets [⟨(nextEntry h key value).ptrs, none⟩] : Block)
  have hm₂ := moves_alloc h₁
    (.buckets [⟨(nextEntry h key value).ptrs, none⟩] : Block)
  have hblock₂ := h₁.grow_block_self
    (some (.buckets [⟨(nextEntry h key value).ptrs, none⟩] : Block))
  have hat₂ : (nextEntry h key value).At (h₁.grow
      (some (.buckets [⟨(nextEntry h key value).ptrs, none⟩]))) :=
    hat₁.congr (fun a ha => hm₂.block_eq (hat₁.live a ha) (by simp))
  have hm := (hm₁.trans (hm₂.frame (nextEntry h key value).blocks)).congr
    (l := []) (m := (nextEntry h key value).blocks ++ [h.fresh + 2]) (by simp)
    (by simp [hfresh₁]; tauto)
  have hb₂ := (hb.moves hm₁ (by simp)).moves hm₂ (by simp)
  rw [hfresh₁] at hruns₂ hblock₂
  generalize h₁.grow (some (.buckets
    [⟨(nextEntry h key value).ptrs, none⟩])) = h₂ at *
  have hbase : bck.base ∉ (nextEntry h key value).blocks ++ [h.fresh + 2] :=
    hm.not_mem (by simp [hb.block]) (by simp)
  rw [List.mem_append] at hbase
  push Not at hbase
  refine ⟨_, hruns₁.bind (hruns₂.bind ((runs_setNext hb₂ _).bind
    (runs_pure _ _))), ?_, ?_, Rewrites.of_put hb₂ hm _⟩
  · refine hat₂.congr (fun a ha => Heap.put_block_of_ne _ ?_)
    rintro rfl
    exact hbase.1 ha
  · rw [Heap.put_block_of_ne _ (by simpa [eq_comm] using hbase.2), hblock₂]

end PpsDht.Pointer
