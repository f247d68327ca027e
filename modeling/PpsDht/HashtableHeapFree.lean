import PpsDht.HashtableHeapContent

/-!
# Freeing the content of a table

`kv_list_free` frees all strings of a list.  The list of `get_Htable_content`
shares the strings of every pair that is not the last of its bucket with the
table, so after it the table is sound in the buckets of one pair only.

* `free_content_get`: the keys that `get_Htable_value` cannot be asked for any
  more.
* `free_content_delete`: the tables that `delete_Htable_and_content` cannot
  free any more.
-/

namespace PpsDht.Pointer

open CMem Memory

variable {h h' h'' : Heap Block} {cell : Bucket} {es : List Entry}
  {ns : List Nat} {cells : List Bucket} {row : Row} {rows : List Row}
  {base i : Nat} {bck : BucketPtr} {table : PpsDht.Htable}
  {l arr p : Nat} {copied : List Nat}

/-! ## Freeing a list -/

theorem strings_take_succ (hi : i < es.length) :
    strings (es.take (i + 1)) = strings (es.take i) ++ es[i].blocks := by
  rw [List.take_succ_eq_append_getElem hi, strings_append]
  simp [strings]

/-- The loop of `kv_list_free`. -/
theorem runs_freeEntries
    (hpairs : h.block arr = some (.pairs (es.map Entry.ptrs)))
    (hentries : ∀ e ∈ es, e.At h) (hnodup : (strings es).Nodup) :
    ∃ h', Runs h (forLoop (fun i _ => do
          let cells ← loadPairs (some arr)
          let kv ← element cells i
          kvPairFree kv) es.length 0 ()) () h' ∧
      Drops h (strings es) h' := by
  have hout := strings_apart hentries hpairs (by simp)
  obtain ⟨x, h', hruns, hd⟩ := runs_for
    (fun i (_ : Unit) => do
      let cells ← loadPairs (some arr)
      let kv ← element cells i
      kvPairFree kv)
    (fun i _ h' => Drops h (strings (es.take i)) h') es.length (x := ())
    (.refl h) (by
      intro i _ h₁ hi hd
      have hsub : ∀ a ∈ strings (es.take (i + 1)), a ∈ strings es := by
        intro a ha
        exact ((List.take_sublist (i + 1) es).flatMap Entry.blocks).subset ha
      have hnodup' : (strings (es.take (i + 1))).Nodup :=
        hnodup.sublist ((List.take_sublist (i + 1) es).flatMap Entry.blocks)
      rw [strings_take_succ hi] at hsub hnodup'
      obtain ⟨_, he, hapart⟩ := List.nodup_append.mp hnodup'
      have hat : es[i].At h₁ :=
        (hentries es[i] (List.getElem_mem hi)).congr (fun a ha =>
          hd.kept a (fun hmem => hapart a hmem a ha rfl))
      have hpairs₁ : h₁.block arr = some (.pairs (es.map Entry.ptrs)) := by
        rw [hd.kept arr (fun hmem =>
          hout (hsub arr (List.mem_append_left _ hmem))), hpairs]
      have hload : Runs h₁ (loadPairs (some arr)) (es.map Entry.ptrs) h₁ :=
        (runs_pure h₁ arr).bind ((runs_load hpairs₁).bind (runs_pure h₁ _))
      have hcell : Runs h₁ (element (es.map Entry.ptrs) i) es[i].ptrs h₁ :=
        runs_element (by simp [hi])
      obtain ⟨h₂, hruns₂, hd₂⟩ := runs_kvPairFree hat he
      refine ⟨(), h₂, hload.bind (hcell.bind hruns₂), ?_⟩
      rw [strings_take_succ hi]
      exact hd.trans hd₂)
  rw [List.take_length] at hd
  exact ⟨h', hruns, hd⟩

/-- `kv_list_free` frees the strings and the `kv_list_t`, and not the array. -/
theorem runs_kvListFree (hl : ListAt h l arr es.length (es.map Entry.ptrs))
    (hentries : ∀ e ∈ es, e.At h) (hnodup : (strings es).Nodup) :
    ∃ h', Runs h (kvListFree (some l)) () h' ∧
      Drops h (l :: strings es) h' := by
  obtain ⟨h₁, hruns₁, hd₁⟩ := runs_freeEntries hl.pairs hentries hnodup
  have hlist : Runs h (loadKvList (some l)) ⟨es.length, some arr⟩ h :=
    (runs_pure h l).bind ((runs_load hl.list).bind (runs_pure h _))
  have hl₁ : h₁.block l = some (.kvList ⟨es.length, some arr⟩) := by
    rw [hd₁.kept l (strings_apart hentries hl.list (by simp)), hl.list]
  obtain ⟨h₂, hruns₂, hd₂⟩ := runs_dispose hl₁ (.kvList ⟨0, none⟩)
  refine ⟨h₂, hlist.bind (hruns₁.bind hruns₂), (hd₁.trans hd₂).congr ?_⟩
  simp [or_comm]

/-! ## The table behind it -/

/-- A table when the strings that it shared with a list are gone. -/
structure Robbed (h : Heap Block) (base : Nat) (rows : List Row)
    (h' : Heap Block) : Prop where
  dead : ∀ a ∈ allShared rows, h'.block a = none
  kept : ∀ a ∈ tableOwned base rows, a ∉ allShared rows →
    h'.block a = h.block a
  fresh : h.fresh ≤ h'.fresh

theorem allShared_owned {a : Nat} (ha : a ∈ allShared rows) :
    a ∈ allStrings rows := by
  obtain ⟨row, hrow, ha⟩ := List.mem_flatMap.mp ha
  refine List.mem_flatMap.mpr ⟨row, hrow, ?_⟩
  exact ((List.dropLast_sublist row.entries).flatMap Entry.blocks).subset ha

/-- A block belongs to one bucket. -/
theorem TableAt.row_unique (ht : TableAt h base cells rows) {j : Nat}
    (hi : i < rows.length) (hj : j < rows.length) {a : Nat}
    (hai : a ∈ rows[i].owned) (haj : a ∈ rows[j].owned) : i = j := by
  have hpair := List.pairwise_iff_getElem.mp
    (List.nodup_flatMap.mp (List.nodup_cons.mp ht.nodup).2).2
  rcases Nat.lt_trichotomy i j with hlt | heq | hlt
  · exact absurd haj (fun h0 => hpair i j hi hj hlt hai h0)
  · exact heq
  · exact absurd hai (fun h0 => hpair j i hj hi hlt haj h0)

/-- The strings of a bucket that are shared are its own. -/
theorem TableAt.shared_of_owned (ht : TableAt h base cells rows)
    (hi : i < rows.length) {a : Nat} (ha : a ∈ rows[i].owned)
    (hshared : a ∈ allShared rows) : a ∈ shared rows[i].entries := by
  obtain ⟨row, hrow, hmem⟩ := List.mem_flatMap.mp hshared
  obtain ⟨j, hj, rfl⟩ := List.mem_iff_getElem.mp hrow
  have haj : a ∈ rows[j].owned := List.mem_append_left _
    (((List.dropLast_sublist rows[j].entries).flatMap Entry.blocks).subset hmem)
  obtain rfl := ht.row_unique hi hj ha haj
  exact hmem

theorem TableAt.allStrings_owned (hmem : i ∈ allStrings rows) :
    i ∈ tableOwned base rows := by
  rw [(tableOwned_split base rows).mem_iff]
  exact List.mem_cons_of_mem _ (List.mem_append_left _ hmem)

theorem TableAt.allShared_nodup (ht : TableAt h base cells rows) :
    (allShared rows).Nodup := by
  have hsplit := (tableOwned_split base rows).nodup_iff.mp ht.nodup
  have hstrings := (List.nodup_append.mp (List.nodup_cons.mp hsplit).2).1
  refine hstrings.sublist (List.Sublist.flatMap_right rows ?_)
  exact fun row _ => (List.dropLast_sublist row.entries).flatMap Entry.blocks

/-- The list of a table can be freed. -/
theorem Content.strings_nodup (hc : Content h rows l arr es copied h')
    (ht : TableAt h base cells rows) : (strings es).Nodup := by
  rw [hc.blocks.nodup_iff, List.nodup_append]
  have hcopied := (List.nodup_cons.mp (List.nodup_cons.mp hc.nodup).2).2
  refine ⟨ht.allShared_nodup, hcopied, ?_⟩
  rintro a ha _ hmem rfl
  have hlive := ht.live a (TableAt.allStrings_owned (allShared_owned ha))
  refine hc.moves.not_mem hlive (by simp) ?_
  exact List.mem_cons_of_mem _ (List.mem_cons_of_mem _ hmem)

/-- What freeing the list does to the table. -/
theorem Content.robbed (hc : Content h rows l arr es copied h')
    (ht : TableAt h base cells rows) (hd : Drops h' (l :: strings es) h'') :
    Robbed h base rows h'' where
  dead := by
    intro a ha
    refine hd.dead a (List.mem_cons_of_mem _ ?_)
    exact hc.blocks.symm.subset (List.mem_append_left _ ha)
  kept := by
    intro a ha hshared
    have hnew := hc.moves.not_mem (ht.live a ha) (by simp)
    simp only [List.mem_cons, not_or] at hnew
    have hgone : a ∉ l :: strings es := by
      rw [List.mem_cons, hc.blocks.mem_iff, List.mem_append]
      tauto
    rw [hd.kept a hgone, hc.moves.block_eq (ht.live a ha) (by simp)]
  fresh := by
    rw [hd.fresh]
    exact hc.moves.fresh

/-! ## Getting from the table -/

theorem failsWith_getValueFromBucket {e : Entry} {next : Option Nat}
    {k : Option Nat} (hb : BucketAt h bck cells ⟨e.ptrs, next⟩)
    (hdead : h.block e.keyAt = none) {left : Nat} (hleft : 0 < left) :
    FailsWith h (getValueFromBucket left bck k) .dead := by
  cases left with
  | zero => omega
  | succ left =>
    unfold getValueFromBucket
    refine (runs_loadBucket hb).bind_failsWith ?_
    rw [if_neg (by simp [Entry.ptrs])]
    exact (failsWith_loadString hdead).bind _

/-- A bucket of one pair, or none, keeps its strings. -/
theorem shared_eq_nil (hlength : es.length < 2) : shared es = [] := by
  match es with
  | [] => rfl
  | [_] => rfl
  | _ :: _ :: _ =>
    simp only [List.length_cons] at hlength
    omega

/-- The first pair of a longer bucket loses its key. -/
theorem Row.At.shared_key (hrow : row.At h cell)
    (hlength : 2 ≤ row.entries.length) :
    ∃ (e : Entry) (next : Option Nat), cell = ⟨e.ptrs, next⟩ ∧
      e.keyAt ∈ shared row.entries := by
  obtain ⟨es, ns⟩ := row
  rcases hrow with ⟨_, hnil⟩ | hchain
  · cases hnil
    simp at hlength
  · cases hchain with
    | last => simp at hlength
    | @link e _ _ _ _ _ _ hrest =>
      refine ⟨e, _, rfl, ?_⟩
      cases hrest <;> simp [shared, strings, Entry.blocks]

theorem Robbed.bucketAt (hr : Robbed h base rows h')
    (ht : TableAt h base cells rows) (hb : BucketAt h ⟨base, i⟩ cells cell) :
    BucketAt h' ⟨base, i⟩ cells cell :=
  ⟨(hr.kept base List.mem_cons_self (fun hmem =>
    ht.base_apart (allShared_owned hmem))).trans hb.block, hb.element⟩

/-- A bucket of one pair, or none, is as it was. -/
theorem Robbed.rowAt (hr : Robbed h base rows h')
    (ht : TableAt h base cells rows) (hi : i < rows.length)
    (hlength : rows[i].entries.length < 2) (hat : rows[i].At h cell) :
    rows[i].At h' cell := by
  refine hat.congr (fun a ha => hr.kept a ?_ ?_)
  · exact List.mem_cons_of_mem _
      (List.mem_flatMap.mpr ⟨rows[i], List.getElem_mem hi, ha⟩)
  · intro hshared
    have hmem := ht.shared_of_owned hi ha hshared
    rw [shared_eq_nil hlength] at hmem
    cases hmem

/-- `get_Htable_value` reads freed memory for the keys of the longer buckets, and
finds the value of any other key. -/
theorem Robbed.get (hr : Robbed h base rows h')
    (hrep : Represents h base rows table) {k : Nat} {key : CString}
    (hkey : TextAt h' k key) :
    (2 ≤ PpsDht.getBucketSize (table.bucketOf key) →
      FailsWith h' (getHtableValue (structOf base rows) (some k)) .dead) ∧
    (PpsDht.getBucketSize (table.bucketOf key) < 2 →
      ∃ q, Runs h' (getHtableValue (structOf base rows) (some k)) q h' ∧
        PointsTo h' q (table.toMap key)) := by
  obtain ⟨cells, ht⟩ := hrep.tableAt
  obtain ⟨row, hrow, hbucket⟩ := hrep.rowOf key
  obtain ⟨hi, rfl⟩ := List.getElem?_eq_some_iff.mp hrow
  obtain ⟨cell, hb, hat⟩ := ht.bucketAt hrow
  have hb' := hr.bucketAt ht hb
  rw [hbucket, getBucketSize_bucketOf]
  constructor
  · intro hlength
    obtain ⟨e, next, rfl, hmem⟩ := hat.shared_key hlength
    have hdead : h'.block e.keyAt = none := hr.dead _
      (List.mem_flatMap.mpr ⟨_, List.getElem_mem hi, hmem⟩)
    unfold getHtableValue
    rw [if_neg (by simp)]
    have hused : 0 < h'.fresh :=
      Nat.lt_of_le_of_lt (Nat.zero_le base) (Heap.lt_of_some hb'.block)
    exact (runs_hashFunction hkey _).bind_failsWith
      ((runs_pure h' base).bind_failsWith ((runs_used h').bind_failsWith
        (failsWith_getValueFromBucket hb' hdead hused)))
  · intro hlength
    rw [hrep.toMap key]
    exact ⟨_, (hr.rowAt ht hi hlength hat).runs_getHtableValue hrow hb'
      (Nat.lt_of_lt_of_le (ht.nodes_lt hrow) hr.fresh) hkey⟩

/-! ## Deleting the table -/

theorem shared_cons_cons (e e' : Entry) (es : List Entry) :
    shared (e :: e' :: es) = e.blocks ++ shared (e' :: es) := by
  simp [shared, strings]

/-- `delete_bucket` frees a string of the bucket again. -/
theorem failsWith_deleteBucket (hchain : Chain h cell es ns) :
    ∀ {h₁ : Heap Block} {bck : BucketPtr} {cells : List Bucket} {left : Nat},
      ns.length < left → BucketAt h₁ bck cells cell → 2 ≤ es.length →
      (owned es ns).Nodup → (∀ a ∈ shared es, h₁.block a = none) →
      (∀ a ∈ owned es ns, a ∉ shared es → h₁.block a = h.block a) →
      FailsWith h₁ (deleteBucket left bck) .dead := by
  induction hchain with
  | last =>
    intro h₁ bck cells left _ _ hlength
    simp at hlength
  | @link e n cell es ns hat hblock hrest ih =>
    intro h₁ bck cells left hleft hb _ hnodup hdead hkept
    cases left with
    | zero => omega
    | succ left =>
      rw [(owned_cons_cons e es n ns).nodup_iff] at hnodup
      simp only [(owned_cons_cons e es n ns).mem_iff, List.mem_append,
        List.mem_cons] at hkept
      obtain ⟨he, hrestNodup, hapart⟩ := List.nodup_append.mp hnodup
      obtain ⟨hn, hes⟩ := List.nodup_cons.mp hrestNodup
      have hne : es ≠ [] := by
        rintro rfl
        cases hrest
      obtain ⟨e', es, rfl⟩ := List.exists_cons_of_ne_nil hne
      rw [shared_cons_cons] at hdead hkept
      have hsub : ∀ a ∈ shared (e' :: es), a ∈ owned (e' :: es) ns :=
        fun a ha => List.mem_append_left _
          (((List.dropLast_sublist _).flatMap Entry.blocks).subset ha)
      -- the string of a later bucket is not one of this one's
      have hlater : ∀ a ∈ n :: owned (e' :: es) ns, a ∉ shared (e' :: es) →
          h₁.block a = h.block a := by
        intro a ha hshared
        refine hkept a (Or.inr (List.mem_cons.mp ha)) ?_
        rw [List.mem_append, not_or]
        exact ⟨fun hmem => hapart a hmem a ha rfl, hshared⟩
      have hn₁ : BucketAt h₁ ⟨n, 0⟩ [cell] cell := by
        refine ⟨?_, rfl⟩
        rw [hlater n List.mem_cons_self (fun hmem => hn (hsub n hmem)), hblock]
      unfold deleteBucket
      refine (runs_loadBucket hb).bind_failsWith ?_
      rw [if_neg (by simp [Entry.ptrs])]
      show FailsWith h₁ (do
        deleteBucket left ⟨n, 0⟩
        kvPairFree e.ptrs) .dead
      rw [List.length_cons] at hleft
      cases hrest with
      | last hat' =>
        cases left with
        | zero => omega
        | succ left =>
          have hat₁ : Chain h₁ ⟨e'.ptrs, none⟩ [e'] [] :=
            (Chain.last hat').congr (fun a ha =>
              hlater a (List.mem_cons_of_mem _ ha) (by simp [shared, strings]))
          have hleft : [e'].length ≤ left + 1 := by simp
          obtain ⟨h₂, hruns, hd⟩ := runs_deleteBucket hat₁ hn₁
            (by simpa [owned, strings] using hes) hleft
          refine hruns.bind_failsWith (failsWith_kvPairFree rfl (hd.none ?_))
          exact hdead _ (by simp [Entry.blocks])
      | link hat' hblock' hrest' =>
        refine FailsWith.bind (ih (by omega) hn₁ ?_ hes ?_ ?_) _
        · cases hrest' <;> simp
        · exact fun a ha => hdead a (List.mem_append_right _ ha)
        · exact fun a ha => hlater a (List.mem_cons_of_mem _ ha)

section Rows

variable {h₁ : Heap Block}

/-- The bucket `i` when the buckets before it have been deleted. -/
theorem Robbed.row_kept (hr : Robbed h base rows h')
    (ht : TableAt h base cells rows) (hi : i < rows.length)
    (hd : Drops h' (allStrings (rows.take i)) h₁) :
    ∀ a ∈ rows[i].owned, a ∉ shared rows[i].entries →
      h₁.block a = h.block a := by
  intro a ha hshared
  have hbefore : a ∉ allStrings (rows.take i) := fun hmem =>
    ht.row_apart hi ha (List.mem_cons_of_mem _ (allStrings_owned hmem))
  have hmem : a ∈ tableOwned base rows := List.mem_cons_of_mem _
    (List.mem_flatMap.mpr ⟨rows[i], List.getElem_mem hi, ha⟩)
  rw [hd.kept a hbefore,
    hr.kept a hmem (fun h0 => hshared (ht.shared_of_owned hi ha h0))]

theorem Robbed.base_kept (hr : Robbed h base rows h')
    (ht : TableAt h base cells rows) (hb : BucketAt h ⟨base, i⟩ cells cell)
    (hd : Drops h' (allStrings (rows.take i)) h₁) :
    BucketAt h₁ ⟨base, i⟩ cells cell := by
  have hb' := hr.bucketAt ht hb
  refine ⟨(hd.kept base (fun hmem => ht.base_apart ?_)).trans hb'.block,
    hb'.element⟩
  exact ((List.take_sublist i rows).flatMap _).subset hmem

theorem Robbed.nodes_lt (hr : Robbed h base rows h')
    (ht : TableAt h base cells rows) (hi : i < rows.length)
    (hd : Drops h' (allStrings (rows.take i)) h₁) :
    rows[i].nodes.length < h₁.fresh := by
  rw [hd.fresh]
  exact Nat.lt_of_lt_of_le (ht.nodes_lt (List.getElem?_eq_getElem hi)) hr.fresh

theorem Robbed.failsWith_row (hr : Robbed h base rows h')
    (ht : TableAt h base cells rows) (hi : i < rows.length)
    (hlength : 2 ≤ rows[i].entries.length)
    (hd : Drops h' (allStrings (rows.take i)) h₁) :
    FailsWith h₁ (deleteBucket h₁.fresh ⟨base, i⟩) .dead := by
  obtain ⟨cell, hb, hat⟩ := ht.bucketAt (List.getElem?_eq_getElem hi)
  have hchain : Chain h cell rows[i].entries rows[i].nodes := by
    refine hat.resolve_left ?_
    rintro ⟨_, hnil⟩
    simp [hnil] at hlength
  refine failsWith_deleteBucket hchain (hr.nodes_lt ht hi hd)
    (hr.base_kept ht hb hd) hlength (ht.row_nodup hi) ?_ (hr.row_kept ht hi hd)
  intro a ha
  exact hd.none (hr.dead a
    (List.mem_flatMap.mpr ⟨rows[i], List.getElem_mem hi, ha⟩))

theorem Robbed.runs_row (hr : Robbed h base rows h')
    (ht : TableAt h base cells rows) (hi : i < rows.length)
    (hlength : rows[i].entries.length < 2)
    (hd : Drops h' (allStrings (rows.take i)) h₁) :
    ∃ h₂, Runs h₁ (deleteBucket h₁.fresh ⟨base, i⟩) () h₂ ∧
      Drops h' (allStrings (rows.take (i + 1))) h₂ := by
  obtain ⟨cell, hb, hat⟩ := ht.bucketAt (List.getElem?_eq_getElem hi)
  have hat₁ : rows[i].At h₁ cell := by
    refine hat.congr (fun a ha => hr.row_kept ht hi hd a ha ?_)
    rw [shared_eq_nil hlength]
    simp
  obtain ⟨h₂, hruns, hd₂⟩ := hat₁.runs_delete (hr.base_kept ht hb hd)
    (List.nodup_append.mp (ht.row_nodup hi)).1 (hr.nodes_lt ht hi hd)
  refine ⟨h₂, hruns, ?_⟩
  rw [allStrings_take_succ hi]
  exact hd.trans hd₂

end Rows

theorem collisions_eq_zero_iff (hrep : Represents h base rows table) :
    collisions table = 0 ↔ ∀ row ∈ rows, row.entries.length < 2 := by
  unfold collisions
  rw [hrep.buckets, List.sum_eq_zero_iff_forall_eq_nat]
  simp only [List.map_map, List.mem_map, Function.comp_apply,
    getBucketSize_bucketOf]
  constructor
  · intro hzero row hrow
    have hrow := hzero _ ⟨row, hrow, rfl⟩
    omega
  · rintro hlt _ ⟨row, hrow, rfl⟩
    have := hlt row hrow
    omega

/-- `delete_Htable_and_content` frees freed memory when a bucket holds two
pairs. -/
theorem Robbed.failsWith_delete (hr : Robbed h base rows h')
    (hrep : Represents h base rows table)
    (hblock : h'.block p = some (.htable (structOf base rows)))
    (hcollisions : collisions table ≠ 0) :
    FailsWith h' (deleteHtableAndContent (some p)) .dead := by
  obtain ⟨cells, ht⟩ := hrep.tableAt
  rw [Ne, collisions_eq_zero_iff hrep] at hcollisions
  push Not at hcollisions
  obtain ⟨row, hrow, hlength⟩ := hcollisions
  obtain ⟨j, hj, rfl⟩ := List.mem_iff_getElem.mp hrow
  unfold deleteHtableAndContent
  refine (runs_loadHtable hblock).bind_failsWith (FailsWith.bind ?_ _)
  refine failsWith_forLoop
    (fun i (_ : Unit) h₁ => Drops h' (allStrings (rows.take i)) h₁) (j := j)
    ?_ (Nat.zero_le j) (by simpa [structOf] using hj) (.refl h') ?_
  · intro _ h₁ hd
    exact (runs_pure h₁ base).bind_failsWith ((runs_used h₁).bind_failsWith
      (hr.failsWith_row ht hj hlength hd))
  · intro i _ h₁ _ hi hd
    replace hi : i < rows.length := by simpa [structOf] using hi
    by_cases hlt : rows[i].entries.length < 2
    · obtain ⟨h₂, hruns, hd₂⟩ := hr.runs_row ht hi hlt hd
      exact Or.inr ⟨(), h₂, (runs_pure h₁ base).bind
        ((runs_used h₁).bind hruns), hd₂⟩
    · exact Or.inl ((runs_pure h₁ base).bind_failsWith
        ((runs_used h₁).bind_failsWith
          (hr.failsWith_row ht hi (by omega) hd)))

/-- Without a collision the table shares no string. -/
theorem Robbed.represents (hr : Robbed h base rows h')
    (hrep : Represents h base rows table) (hzero : collisions table = 0) :
    Represents h' base rows table := by
  obtain ⟨cells, ht⟩ := hrep.tableAt
  have hnone : allShared rows = [] := by
    refine List.flatMap_eq_nil_iff.mpr (fun row hrow => ?_)
    exact shared_eq_nil ((collisions_eq_zero_iff hrep).mp hzero row hrow)
  refine ⟨⟨cells, ht.congr (fun a ha => hr.kept a ha ?_)⟩, hrep.buckets⟩
  rw [hnone]
  simp

/-! ## A list that is freed -/

/-- `get_Htable_content`, and `kv_list_free` of its list. -/
theorem runs_content_free (hroom : h.Roomy)
    (hrep : Represents h base rows table) :
    ∃ l h₁ h₂, Runs h (getHtableContent (structOf base rows)) (some l) h₁ ∧
      Runs h₁ (kvListFree (some l)) () h₂ ∧ Robbed h base rows h₂ ∧
      ∀ a, h.block a ≠ none → a ∉ tableOwned base rows →
        h₂.block a = h.block a := by
  obtain ⟨cells, ht⟩ := hrep.tableAt
  obtain ⟨h₁, es, copied, hruns₁, hc⟩ := runs_getHtableContent hroom ht
  obtain ⟨h₂, hruns₂, hd⟩ :=
    runs_kvListFree hc.list hc.entries (hc.strings_nodup ht)
  refine ⟨_, h₁, h₂, hruns₁, hruns₂, hc.robbed ht hd, ?_⟩
  intro a hlive hown
  have hnew := hc.moves.not_mem hlive (by simp)
  simp only [List.mem_cons, not_or] at hnew
  have hshared : a ∉ allShared rows := fun hmem =>
    hown (TableAt.allStrings_owned (allShared_owned hmem))
  have hgone : a ∉ h.fresh :: strings es := by
    rw [List.mem_cons, hc.blocks.mem_iff, List.mem_append]
    tauto
  rw [hd.kept a hgone, hc.moves.block_eq hlive (by simp)]

/-- The content of a table can be listed and the list freed.  After that,
`get_Htable_value` reads freed memory for exactly the keys whose bucket holds
two pairs or more, whether they are stored or not.  It finds the value of any
other key as before, and the blocks of the program are as they were. -/
theorem free_content_get (h : Heap Block) (hroom : h.Roomy) (base : Nat)
    (rows : List Row) (table : PpsDht.Htable)
    (hrep : Represents h base rows table) :
    ∃ l h₁ h₂, Runs h (getHtableContent (structOf base rows)) (some l) h₁ ∧
      Runs h₁ (kvListFree (some l)) () h₂ ∧
      (∀ a, h.block a ≠ none → a ∉ tableOwned base rows →
        h₂.block a = h.block a) ∧
      ∀ k key, TextAt h₂ k key →
        (FailsWith h₂ (getHtableValue (structOf base rows) (some k)) .dead ↔
          2 ≤ PpsDht.getBucketSize (table.bucketOf key)) ∧
        (PpsDht.getBucketSize (table.bucketOf key) < 2 →
          ∃ q, Runs h₂ (getHtableValue (structOf base rows) (some k)) q h₂ ∧
            PointsTo h₂ q (table.toMap key)) := by
  obtain ⟨l, h₁, h₂, hruns₁, hruns₂, hr, hkept⟩ :=
    runs_content_free hroom hrep
  refine ⟨l, h₁, h₂, hruns₁, hruns₂, hkept, ?_⟩
  intro k key hkey
  obtain ⟨hfails, hfinds⟩ := hr.get hrep hkey
  refine ⟨⟨fun hf => ?_, hfails⟩, hfinds⟩
  by_contra hlt
  obtain ⟨q, hruns, _⟩ := hfinds (by omega)
  exact hruns.not_fails hf.fails

theorem free_content_get_demo : ∃ (h h₁ h₂ : Heap Block) (rows : List Row)
    (l : Nat), Runs h (getHtableContent (structOf 3 rows)) (some l) h₁ ∧
    Runs h₁ (kvListFree (some l)) () h₂ ∧ TextAt h₂ 0 (lit ['k']) ∧
    FailsWith h₂ (getHtableValue (structOf 3 rows) (some 0)) .dead := by
  obtain ⟨h, rows, table, hroom, hp, _, hsize, hkey, hown⟩ := demo_table
  obtain ⟨l, h₁, h₂, hruns₁, hruns₂, hkept, hget⟩ :=
    free_content_get h hroom 3 rows table hp.represents
  have hkey₂ : TextAt h₂ 0 (lit ['k']) := hkey.of_eq (hkept 0 hkey.live hown)
  exact ⟨h, h₁, h₂, rows, l, hruns₁, hruns₂, hkey₂,
    (hget 0 _ hkey₂).1.mpr hsize⟩

/-- After it, `delete_Htable_and_content` frees a string a second time when some
bucket holds two pairs or more, and otherwise the table is still sound. -/
theorem free_content_delete (h : Heap Block) (hroom : h.Roomy) (p base : Nat)
    (rows : List Row) (table : PpsDht.Htable)
    (hp : HtableAt h p base rows table) :
    ∃ l h₁ h₂, Runs h (getHtableContent (structOf base rows)) (some l) h₁ ∧
      Runs h₁ (kvListFree (some l)) () h₂ ∧
      (collisions table = 0 → HtableAt h₂ p base rows table ∧
        ∃ h₃, Runs h₂ (deleteHtableAndContent (some p)) () h₃) ∧
      (collisions table ≠ 0 →
        FailsWith h₂ (deleteHtableAndContent (some p)) .dead) := by
  obtain ⟨l, h₁, h₂, hruns₁, hruns₂, hr, hkept⟩ :=
    runs_content_free hroom hp.represents
  have hblock : h₂.block p = some (.htable (structOf base rows)) := by
    rw [hkept p (by simp [hp.block]) hp.apart, hp.block]
  refine ⟨l, h₁, h₂, hruns₁, hruns₂, ?_, hr.failsWith_delete hp.represents hblock⟩
  intro hzero
  have hp₂ : HtableAt h₂ p base rows table :=
    ⟨hblock, hr.represents hp.represents hzero, hp.apart⟩
  obtain ⟨h₃, hruns₃, _⟩ := runs_deleteHtableAndContent hp₂
  exact ⟨hp₂, h₃, hruns₃⟩

theorem free_content_delete_demo : ∃ (h h₁ h₂ : Heap Block) (rows : List Row)
    (l : Nat), Runs h (getHtableContent (structOf 3 rows)) (some l) h₁ ∧
    Runs h₁ (kvListFree (some l)) () h₂ ∧
    FailsWith h₂ (deleteHtableAndContent (some 2)) .dead := by
  obtain ⟨h, rows, table, hroom, hp, hcount, _⟩ := demo_table
  obtain ⟨l, h₁, h₂, hruns₁, hruns₂, _, hfails⟩ :=
    free_content_delete h hroom 2 3 rows table hp
  exact ⟨h, h₁, h₂, rows, l, hruns₁, hruns₂, hfails (by omega)⟩

end PpsDht.Pointer
