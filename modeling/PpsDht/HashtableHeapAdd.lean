import PpsDht.HashtableHeapRows

/-!
# Adding and getting in memory

`add_value_to_bucket` and `get_value_from_bucket` on a bucket that is laid out
in a heap.
-/

namespace PpsDht.Pointer

open CMem Memory

/-! ## Chains -/

/-- A bucket that stores pairs: the entries from it on, and the addresses of the
buckets behind it. -/
inductive Chain (h : Heap Block) : Bucket → List Entry → List Nat → Prop
  | last {e : Entry} (hat : e.At h) : Chain h ⟨e.ptrs, none⟩ [e] []
  | link {e : Entry} {n : Nat} {cell : Bucket} {es : List Entry}
      {ns : List Nat} (hat : e.At h)
      (hblock : h.block n = some (.buckets [cell]))
      (hrest : Chain h cell es ns) :
      Chain h ⟨e.ptrs, some n⟩ (e :: es) (n :: ns)

/-- The blocks of a bucket. -/
def owned (es : List Entry) (ns : List Nat) : List Nat :=
  es.flatMap Entry.blocks ++ ns

@[simp] theorem owned_nil : owned [] [] = [] := rfl

theorem owned_cons (e : Entry) (es : List Entry) (ns : List Nat) :
    owned (e :: es) ns = e.blocks ++ owned es ns := by
  simp [owned]

theorem owned_cons_cons (e : Entry) (es : List Entry) (n : Nat)
    (ns : List Nat) :
    (owned (e :: es) (n :: ns)).Perm (e.blocks ++ n :: owned es ns) := by
  rw [owned_cons]
  exact List.Perm.append_left _ (by
    rw [owned, owned]
    exact List.perm_middle)

variable {h h' : Heap Block} {cell : Bucket} {es : List Entry} {ns : List Nat}

theorem Chain.live (hchain : Chain h cell es ns) :
    ∀ a ∈ owned es ns, h.block a ≠ none := by
  induction hchain with
  | @last e hat =>
    intro a ha
    simp only [owned, List.flatMap_cons, List.flatMap_nil, List.append_nil] at ha
    exact hat.live a ha
  | @link e n cell es ns hat hblock hrest ih =>
    intro a ha
    rw [(owned_cons_cons e es n ns).mem_iff, List.mem_append,
      List.mem_cons] at ha
    rcases ha with ha | rfl | ha
    · exact hat.live a ha
    · simp [hblock]
    · exact ih a ha

theorem Chain.congr (hchain : Chain h cell es ns)
    (heq : ∀ a ∈ owned es ns, h'.block a = h.block a) :
    Chain h' cell es ns := by
  induction hchain with
  | @last e hat =>
    refine .last (hat.congr (fun a ha => heq a ?_))
    simp [owned, ha]
  | @link e n cell es ns hat hblock hrest ih =>
    simp only [(owned_cons_cons e es n ns).mem_iff, List.mem_append,
      List.mem_cons] at heq
    refine .link (hat.congr (fun a ha => heq a (Or.inl ha))) ?_
      (ih (fun a ha => heq a (Or.inr (Or.inr ha))))
    rw [heq n (Or.inr (Or.inl rfl)), hblock]

theorem Chain.moves (hchain : Chain h cell es ns) {own own' : List Nat}
    (hm : Moves h own h' own') (hapart : ∀ a ∈ owned es ns, a ∉ own) :
    Chain h' cell es ns :=
  hchain.congr (fun a ha => hm.block_eq (hchain.live a ha) (hapart a ha))

theorem Chain.entry (hchain : Chain h cell es ns) {e : Entry}
    (he : e ∈ es) : e.At h := by
  induction hchain with
  | last hat =>
    rw [List.mem_singleton.mp he]
    exact hat
  | link hat _ _ ih =>
    rcases List.mem_cons.mp he with rfl | hmem
    · exact hat
    · exact ih hmem

/-- Every bucket behind the first one stores a pair. -/
theorem Chain.length (hchain : Chain h cell es ns) :
    es.length = ns.length + 1 := by
  induction hchain with
  | last => rfl
  | link _ _ _ ih => simp [ih]

/-! ## Entries -/

/-- The entry replaces the first one of its key, or it is the last one. -/
def putEntry (new : Entry) : List Entry → List Entry
  | [] => [new]
  | e :: es => if e.key = new.key then new :: es else e :: putEntry new es

theorem putEntry_of_eq (new : Entry) {e : Entry} (es : List Entry)
    (hkey : e.key = new.key) : putEntry new (e :: es) = new :: es :=
  if_pos hkey

theorem putEntry_of_ne (new : Entry) {e : Entry} (es : List Entry)
    (hkey : e.key ≠ new.key) :
    putEntry new (e :: es) = e :: putEntry new es :=
  if_neg hkey

/-- The first entry of a key. -/
def findEntry (key : CString) (es : List Entry) : Option Entry :=
  es.find? (fun e => decide (e.key = key))

theorem findEntry_cons_of_eq {key : CString} {e : Entry} (es : List Entry)
    (hkey : e.key = key) : findEntry key (e :: es) = some e := by
  simp [findEntry, hkey]

theorem findEntry_cons_of_ne {key : CString} {e : Entry} (es : List Entry)
    (hkey : e.key ≠ key) : findEntry key (e :: es) = findEntry key es := by
  simp [findEntry, hkey]

/-- The strings at `k` and `v` are not those of the pair that an add of the key
replaces. -/
def Apart (es : List Entry) (key : CString) (k v : Nat) : Prop :=
  ∀ e, findEntry key es = some e → k ∉ e.blocks ∧ v ∉ e.blocks

/-- A bucket after an add: the chain from it on, and what the blocks are
now. -/
structure Added (h : Heap Block) (bck : BucketPtr) (cells : List Bucket)
    (es : List Entry) (ns : List Nat) (h' : Heap Block) (cell' : Bucket)
    (es' : List Entry) (ns' : List Nat) : Prop where
  chain : Chain h' cell' es' ns'
  rewrites : Rewrites h bck cells (owned es ns) h' cell' (owned es' ns')
  nodup : (bck.base :: owned es' ns').Nodup

variable {bck : BucketPtr} {cells : List Bucket}

/-- The bucket itself has been rewritten, the rest of its chain has not. -/
theorem Rewrites.frame {own own' : List Nat} {cell' : Bucket}
    (hr : Rewrites h bck cells own h' cell' own') (rest : List Nat) :
    Rewrites h bck cells (own ++ rest) h' cell' (own' ++ rest) :=
  ⟨hr.bucket, hr.moves.frame rest⟩

theorem nextEntry_nodup {base : Nat} (hbase : base < h.fresh)
    (key value : CString) (ns : List Nat)
    (hns : ns = [] ∨ ns = [h.fresh + 2]) :
    (base :: ((nextEntry h key value).blocks ++ ns)).Nodup := by
  rcases hns with rfl | rfl
  · simp [nextEntry, Entry.blocks]
    omega
  · simp [nextEntry, Entry.blocks]
    omega

section Add

variable {k v : Nat} {key value : CString}

/-- An add to a bucket whose pair has the key. -/
theorem added_replace (es : List Entry) (ns : List Nat) (hroom : h.Room 2)
    {e : Entry} {next : Option Nat}
    (hb : BucketAt h bck cells ⟨e.ptrs, next⟩) (hat : e.At h)
    (hlive : ∀ a ∈ owned es ns, h.block a ≠ none)
    (hnodup : (bck.base :: owned (e :: es) ns).Nodup)
    (hkey : TextAt h k key) (hvalue : TextAt h v value)
    (hk : k ∉ e.blocks) (hv : v ∉ e.blocks)
    (hchain : ∀ h', (nextEntry h key value).At h' →
      (∀ a ∈ owned es ns, h'.block a = h.block a) →
      Chain h' ⟨(nextEntry h key value).ptrs, next⟩
        (nextEntry h key value :: es) ns) :
    ∃ h', Runs h (do
          kvPairFree e.ptrs
          let pairNew ← createKvPair (some k) (some v)
          setKeyValue bck pairNew
          pure ErrorCode.ERR_NONE) .ERR_NONE h' ∧
      Added h bck cells (e :: es) ns h' ⟨(nextEntry h key value).ptrs, next⟩
        (nextEntry h key value :: es) ns := by
  rw [owned_cons, ← List.cons_append] at hnodup
  obtain ⟨hown, _, hapart⟩ := List.nodup_append.mp hnodup
  obtain ⟨h', hruns, hat', hrewrites⟩ :=
    runs_replace hroom hb hat hown hkey hvalue hk hv
  have hbase := Heap.lt_of_some hb.block
  refine ⟨h', hruns, hchain h' hat' ?_, ?_, ?_⟩
  · intro a ha
    exact hrewrites.moves.block_eq (hlive a ha)
      (fun hmem => hapart a hmem a ha rfl)
  · rw [owned_cons, owned_cons]
    exact hrewrites.frame _
  · rw [owned_cons, ← List.cons_append]
    refine hrewrites.moves.nodup hnodup hlive ?_
    have hnew := nextEntry_nodup hbase key value [] (Or.inl rfl)
    rwa [List.append_nil] at hnew

/-- An add to the last bucket of a chain, whose pair has another key. -/
theorem added_append (hroom : h.Room 3) {e : Entry}
    (hb : BucketAt h bck cells ⟨e.ptrs, none⟩) (hat : e.At h)
    (hnodup : (bck.base :: owned [e] []).Nodup)
    (hkey : TextAt h k key) (hvalue : TextAt h v value) :
    ∃ h', Runs h (do
          let pairNew ← createKvPair (some k) (some v)
          let bucketNew ← createBucket pairNew
          if bucketNew = none then pure ErrorCode.ERR_NOMEM
          else do
            setNext bck bucketNew
            pure ErrorCode.ERR_NONE) .ERR_NONE h' ∧
      Added h bck cells [e] [] h' ⟨e.ptrs, some (h.fresh + 2)⟩
        [e, nextEntry h key value] [h.fresh + 2] := by
  obtain ⟨h', hruns, hat', hblock, hrewrites⟩ :=
    runs_append hroom hb hkey hvalue
  have hbase := Heap.lt_of_some hb.block
  have hone : owned [e] [] = e.blocks := by simp [owned]
  have hperm : (owned [e, nextEntry h key value] [h.fresh + 2]).Perm
      (((nextEntry h key value).blocks ++ [h.fresh + 2]) ++ e.blocks) := by
    simp only [owned, List.flatMap_cons, List.flatMap_nil, List.append_nil,
      List.append_assoc]
    exact List.perm_append_comm
  rw [hone] at hnodup
  have hrest : ∀ a ∈ e.blocks, h'.block a = h.block a := by
    intro a ha
    refine hrewrites.moves.block_eq (hat.live a ha) ?_
    rw [List.mem_singleton]
    rintro rfl
    exact (List.nodup_cons.mp hnodup).1 ha
  refine ⟨h', hruns, .link (hat.congr hrest) hblock (.last hat'),
    ⟨hrewrites.bucket, ?_⟩, ?_⟩
  · refine (hrewrites.moves.frame e.blocks).congr (by simp [hone]) ?_
    intro a
    rw [List.mem_cons, hperm.mem_iff]
    simp
  · refine ((hperm.cons bck.base).nodup_iff).mpr ?_
    exact hrewrites.moves.nodup hnodup hat.live
      (nextEntry_nodup hbase key value _ (Or.inr rfl))

/-- An add behind the first bucket of a chain. -/
theorem Added.link {e : Entry} {n : Nat} {cell cell' : Bucket}
    {es' : List Entry} {ns' : List Nat}
    (hb : BucketAt h bck cells ⟨e.ptrs, some n⟩) (hat : e.At h)
    (hnodup : (bck.base :: owned (e :: es) (n :: ns)).Nodup)
    (ha : Added h ⟨n, 0⟩ [cell] es ns h' cell' es' ns') :
    Added h bck cells (e :: es) (n :: ns) h' ⟨e.ptrs, some n⟩ (e :: es')
      (n :: ns') := by
  have hperm : ∀ es ns, (bck.base :: owned (e :: es) (n :: ns)).Perm
      ((n :: owned es ns) ++ bck.base :: e.blocks) := by
    intro es ns
    refine ((owned_cons_cons e es n ns).cons bck.base).trans ?_
    rw [← List.cons_append]
    exact List.perm_append_comm
  have hlive : ∀ a ∈ bck.base :: e.blocks, h.block a ≠ none := by
    intro a ha
    rcases List.mem_cons.mp ha with rfl | hmem
    · simp [hb.block]
    · exact hat.live a hmem
  rw [(hperm es ns).nodup_iff] at hnodup
  have hapart : ∀ a ∈ bck.base :: e.blocks, a ∉ n :: owned es ns :=
    fun a hmem hown =>
      (List.nodup_append.mp hnodup).2.2 a hown a hmem rfl
  have hsame : ∀ a ∈ bck.base :: e.blocks, h'.block a = h.block a :=
    fun a hmem =>
      ha.rewrites.moves.block_eq (hlive a hmem) (hapart a hmem)
  refine ⟨.link (hat.congr (fun a hmem =>
    hsame a (List.mem_cons_of_mem _ hmem))) ?_ ha.chain, ⟨?_, ?_⟩, ?_⟩
  · simpa using ha.rewrites.bucket.block
  · have hset : cells.set bck.index ⟨e.ptrs, some n⟩ = cells := by
      obtain ⟨hlt, hget⟩ := List.getElem?_eq_some_iff.mp hb.element
      rw [← hget]
      exact List.set_getElem_self hlt
    rw [hset]
    exact ⟨(hsame _ List.mem_cons_self).trans hb.block, hb.element⟩
  · exact (ha.rewrites.moves.frame (bck.base :: e.blocks)).congr
      (fun a => (hperm es ns).mem_iff) (fun a => (hperm es' ns').mem_iff)
  · rw [(hperm es' ns').nodup_iff]
    exact ha.rewrites.moves.nodup hnodup hlive ha.nodup

/-- `add_value_to_bucket` on a bucket that stores pairs. -/
theorem runs_addValueToBucket (hroom : h.Room 2) (hkey : TextAt h k key)
    (hvalue : TextAt h v value) (hchain : Chain h cell es ns) :
    ∀ {bck : BucketPtr} {cells : List Bucket} {left : Nat},
      BucketAt h bck cells cell → (bck.base :: owned es ns).Nodup →
      Apart es key k v → es.length ≤ left →
      (findEntry key es = none → h.Room 3) →
      ∃ h' cell' ns', Runs h (addValueToBucket left bck (some k) (some v))
          .ERR_NONE h' ∧
        Added h bck cells es ns h' cell'
          (putEntry (nextEntry h key value) es) ns' := by
  induction hchain with
  | @last e hat =>
    intro bck cells left hb hnodup hapart hleft hmore
    obtain ⟨left, rfl⟩ : ∃ n, left = n + 1 :=
      ⟨left - 1, by simp at hleft; omega⟩
    have hstored := runs_loadString (textAt_mem hat.key)
    by_cases heq : e.key = key
    · obtain ⟨hk, hv⟩ := hapart e (findEntry_cons_of_eq [] heq)
      obtain ⟨h', hruns, hadded⟩ := added_replace [] [] hroom hb
        hat (by simp) hnodup hkey hvalue hk hv
        (fun h' hat' _ => .last hat')
      rw [putEntry_of_eq (nextEntry h key value) _ heq]
      refine ⟨h', _, _, ?_, hadded⟩
      rw [addValueToBucket]
      refine (runs_loadBucket hb).bind ?_
      rw [if_neg e.ptrs_ne_null]
      refine (runs_loadString hkey).bind (hstored.bind ?_)
      rw [if_pos ((strcmp_eq_zero_iff key e.key).mpr heq.symm)]
      exact hruns
    · obtain ⟨h', hruns, hadded⟩ :=
        added_append (hmore (findEntry_cons_of_ne [] heq)) hb hat hnodup hkey
          hvalue
      rw [putEntry_of_ne (nextEntry h key value) _ heq]
      refine ⟨h', _, _, ?_, hadded⟩
      rw [addValueToBucket]
      refine (runs_loadBucket hb).bind ?_
      rw [if_neg e.ptrs_ne_null]
      refine (runs_loadString hkey).bind (hstored.bind ?_)
      rw [if_neg (fun h0 => heq ((strcmp_eq_zero_iff key e.key).mp h0).symm)]
      exact hruns
  | @link e n cell es ns hat hblock hrest ih =>
    intro bck cells left hb hnodup hapart hleft hmore
    obtain ⟨left, rfl⟩ : ∃ n, left = n + 1 :=
      ⟨left - 1, by simp at hleft; omega⟩
    have hstored := runs_loadString (textAt_mem hat.key)
    by_cases heq : e.key = key
    · obtain ⟨hk, hv⟩ := hapart e (findEntry_cons_of_eq es heq)
      have hlive : ∀ a ∈ owned es (n :: ns), h.block a ≠ none := by
        intro a ha
        refine (Chain.link hat hblock hrest).live a ?_
        rw [owned_cons]
        exact List.mem_append_right _ ha
      obtain ⟨h', hruns, hadded⟩ := added_replace es (n :: ns) hroom hb hat
        hlive hnodup hkey hvalue hk hv (by
          intro h' hat' hsame
          refine .link hat' ?_ (hrest.congr (fun a ha => hsame a ?_))
          · rw [hsame n (by simp [owned]), hblock]
          · simp only [owned, List.mem_append, List.mem_cons] at ha ⊢
            tauto)
      rw [putEntry_of_eq (nextEntry h key value) _ heq]
      refine ⟨h', _, _, ?_, hadded⟩
      rw [addValueToBucket]
      refine (runs_loadBucket hb).bind ?_
      rw [if_neg e.ptrs_ne_null]
      refine (runs_loadString hkey).bind (hstored.bind ?_)
      rw [if_pos ((strcmp_eq_zero_iff key e.key).mpr heq.symm)]
      exact hruns
    · have hsub : (n :: owned es ns).Nodup := by
        have hperm := (owned_cons_cons e es n ns).nodup_iff.mp
          (List.nodup_cons.mp hnodup).2
        exact (List.nodup_append.mp hperm).2.1
      have hn : BucketAt h ⟨n, 0⟩ [cell] cell := ⟨hblock, rfl⟩
      have hrestApart : Apart es key k v := fun e' hfind =>
        hapart e' ((findEntry_cons_of_ne es heq).trans hfind)
      have hless : es.length ≤ left := by simpa using hleft
      have hrestMore : findEntry key es = none → h.Room 3 := fun hfind =>
        hmore ((findEntry_cons_of_ne es heq).trans hfind)
      obtain ⟨h', cell', ns', hruns, hadded⟩ :=
        ih hn hsub hrestApart hless hrestMore
      rw [putEntry_of_ne (nextEntry h key value) _ heq]
      refine ⟨h', _, _, ?_, hadded.link hb hat hnodup⟩
      rw [addValueToBucket]
      refine (runs_loadBucket hb).bind ?_
      rw [if_neg e.ptrs_ne_null]
      refine (runs_loadString hkey).bind (hstored.bind ?_)
      rw [if_neg (fun h0 => heq ((strcmp_eq_zero_iff key e.key).mp h0).symm)]
      exact hruns.bind (runs_pure h' _)

end Add

/-- `get_value_from_bucket` on a bucket that stores pairs. -/
theorem runs_getValueFromBucket {k : Nat} {key : CString}
    (hkey : TextAt h k key) (hchain : Chain h cell es ns) :
    ∀ {bck : BucketPtr} {cells : List Bucket} {left : Nat},
      BucketAt h bck cells cell → es.length ≤ left →
      Runs h (getValueFromBucket left bck (some k))
        ((findEntry key es).map Entry.valueAt) h := by
  induction hchain with
  | @last e hat =>
    intro bck cells left hb hleft
    obtain ⟨left, rfl⟩ : ∃ n, left = n + 1 :=
      ⟨left - 1, by simp at hleft; omega⟩
    rw [getValueFromBucket]
    refine (runs_loadBucket hb).bind ?_
    rw [if_neg (by simp [Entry.ptrs])]
    refine (runs_loadString (textAt_mem hat.key)).bind
      ((runs_loadString hkey).bind ?_)
    by_cases heq : e.key = key
    · rw [if_pos ((strcmp_eq_zero_iff e.key key).mpr heq),
        findEntry_cons_of_eq [] heq]
      exact runs_pure h _
    · rw [if_neg (fun h0 => heq ((strcmp_eq_zero_iff e.key key).mp h0)),
        findEntry_cons_of_ne [] heq]
      exact runs_pure h _
  | @link e n cell es ns hat hblock hrest ih =>
    intro bck cells left hb hleft
    obtain ⟨left, rfl⟩ : ∃ n, left = n + 1 :=
      ⟨left - 1, by simp at hleft; omega⟩
    rw [getValueFromBucket]
    refine (runs_loadBucket hb).bind ?_
    rw [if_neg (by simp [Entry.ptrs])]
    refine (runs_loadString (textAt_mem hat.key)).bind
      ((runs_loadString hkey).bind ?_)
    by_cases heq : e.key = key
    · rw [if_pos ((strcmp_eq_zero_iff e.key key).mpr heq),
        findEntry_cons_of_eq es heq]
      exact runs_pure h _
    · rw [if_neg (fun h0 => heq ((strcmp_eq_zero_iff e.key key).mp h0)),
        findEntry_cons_of_ne es heq]
      have hn : BucketAt h ⟨n, 0⟩ [cell] cell := ⟨hblock, rfl⟩
      exact ih hn (by simpa using hleft)

end PpsDht.Pointer
