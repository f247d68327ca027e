import Mathlib.Data.List.Forall2
import PpsDht.Basic
import PpsDht.Lib.StringStores

/-!
# Concatenating values

`pps-client-cat.c`, behind `client_init`.  The values of all keys but the last
are read and joined, and the result is put under the last key.  `get` and `put`
stand for `network_get` and `network_put`: `get i key` is the answer of the
read number `i`.

A run is recorded with the indices stored to in `keys` and, for every byte
stored to `concat`, the size of its allocation at that moment.  The `realloc`
in the loop asks for the lengths of both strings, which leaves no room for the
terminator; and when both are empty it gives no memory at all, and `strcat` gets
`NULL`.

* `catMain_puts` and `catMain_failed`: what is put.
* `catRight_iff`: the stores are inside exactly when no `strcat` is reached and
  the arguments fit `keys`.
-/

namespace PpsDht

open CMem

/-- `MAX_MANDATORY_ARGUMENTS`. -/
def MAX_MANDATORY_ARGUMENTS : Nat := 300

/-- A byte stored to `concat`, and the size that is allocated for it. -/
structure ByteStore where
  write : Write
  size : Nat

/-- The stores of a string at index `i` of an allocation. -/
def bytesAt (i size : Nat) (s : CString) : List ByteStore :=
  (stringStores i s).map (fun write => { write := write, size := size })

/-- `concat`, and what was stored to it. -/
structure CatState where
  concat : CString
  stores : List ByteStore

/-- How the loop over the keys ends. -/
inductive CatEnd where
  | joined (concat : CString)
  | failed
  | crashed

/-- What a run of `pps-client-cat` does; it has no status when it crashes. -/
structure CatRun where
  keyStores : List Nat
  byteStores : List ByteStore
  puts : List (CString × CString)
  status : Option Int

/-- One pass of the loop over the keys. -/
def catBody (get : Nat → CString → Except ErrorCode CString) (st : CatState)
    (read : CString × Nat) : Loop.Step CatState (CatEnd × List ByteStore) :=
  match get read.2 read.1 with
  | .error _ => .done (.failed, st.stores)
  | .ok valueFrom =>
    let size := strlen st.concat + strlen valueFrom
    let stores := st.stores ++ bytesAt (strlen st.concat) size valueFrom
    -- `realloc(concat, 0)` frees `concat` and returns `NULL`
    if size = 0 then .done (.crashed, stores)
    else .again { concat := strcat st.concat valueFrom, stores := stores }

/-- The loop over the keys. -/
def catLoop (get : Nat → CString → Except ErrorCode CString) (st : CatState)
    (reads : List (CString × Nat)) : CatEnd × List ByteStore :=
  Loop.feed (catBody get) (fun st => (.joined st.concat, st.stores)) st reads

/-- `main` of `pps-client-cat`, on the arguments that `client_init` leaves. -/
def catMain (get : Nat → CString → Except ErrorCode CString)
    (put : CString → CString → ErrorCode) (argv : List CString) : CatRun :=
  match argv with
  | first :: second :: rest =>
    let keyStores := List.range (first :: second :: rest).length
    let outputKey := (second :: rest).getLast (List.cons_ne_nil second rest)
    match get 0 first with
    | .error _ =>
      { keyStores := keyStores, byteStores := [], puts := [],
        status := some (-1) }
    | .ok valueFrom =>
      let copied := bytesAt 0 (strlen valueFrom + 1) valueFrom
      let reads := (second :: rest).dropLast.zipIdx 1
      match catLoop get { concat := valueFrom, stores := copied } reads with
      | (.crashed, byteStores) =>
        { keyStores := keyStores, byteStores := byteStores, puts := [],
          status := none }
      | (.failed, byteStores) =>
        { keyStores := keyStores, byteStores := byteStores, puts := [],
          status := some (-1) }
      | (.joined concat, byteStores) =>
        { keyStores := keyStores, byteStores := byteStores,
          puts := [(outputKey, concat)],
          status := some (if put outputKey concat ≠ .ERR_NONE then -1 else 0) }
  | _ => { keyStores := [], byteStores := [], puts := [], status := some (-1) }

/-- The pair that is put behind the loop. -/
def CatEnd.puts (outputKey : CString) : CatEnd → List (CString × CString)
  | .joined concat => [(outputKey, concat)]
  | .failed => []
  | .crashed => []

/-- The reads of a run: every key but the last, with the number of its
read. -/
def catReads (first second : CString) (rest : List CString) :
    List (CString × Nat) :=
  (first :: second :: rest).dropLast.zipIdx

/-- The run puts what it should, inside its memory. -/
structure CatRight (get : Nat → CString → Except ErrorCode CString)
    (put : CString → CString → ErrorCode) (first second : CString)
    (rest : List CString) : Prop where
  concat : ∀ values : List CString,
    List.Forall₂ (fun read value => get read.2 read.1 = .ok value)
      (catReads first second rest) values →
    ∃ joined : CString, joined.bytes = values.flatMap CString.bytes ∧
      (catMain get put (first :: second :: rest)).puts =
        [((second :: rest).getLast (List.cons_ne_nil second rest), joined)]
  failed : (∃ read ∈ catReads first second rest,
      ∃ err, get read.2 read.1 = .error err) →
    (catMain get put (first :: second :: rest)).puts = []
  keys : ∀ i ∈ (catMain get put (first :: second :: rest)).keyStores,
    i < MAX_MANDATORY_ARGUMENTS
  bytes : ∀ store ∈ (catMain get put (first :: second :: rest)).byteStores,
    store.write.1 < store.size

/-! ## Stores -/

theorem bytesAt_inside_iff (i size : Nat) (s : CString) :
    (∀ store ∈ bytesAt i size s, store.write.1 < store.size) ↔
      i + strlen s < size := by
  rw [bytesAt, List.forall_mem_map]
  exact stringStores_inside_iff i size s

/-- `strcat` needs room for a terminator. -/
theorem bytesAt_realloc (concat valueFrom : CString) :
    ¬ ∀ store ∈ bytesAt (strlen concat) (strlen concat + strlen valueFrom)
      valueFrom, store.write.1 < store.size := by
  rw [bytesAt_inside_iff]
  exact Nat.lt_irrefl _

/-! ## The loop -/

section

variable {get : Nat → CString → Except ErrorCode CString}

theorem catBody_ok {read : CString × Nat} {valueFrom : CString}
    (h : get read.2 read.1 = .ok valueFrom) (st : CatState) :
    catBody get st read =
      if strlen st.concat + strlen valueFrom = 0 then
        .done (.crashed, st.stores ++ bytesAt (strlen st.concat)
          (strlen st.concat + strlen valueFrom) valueFrom)
      else .again
        { concat := strcat st.concat valueFrom
          stores := st.stores ++ bytesAt (strlen st.concat)
            (strlen st.concat + strlen valueFrom) valueFrom } := by
  rw [catBody, h]

theorem catBody_error {read : CString × Nat} {err : ErrorCode}
    (h : get read.2 read.1 = .error err) (st : CatState) :
    catBody get st read = .done (.failed, st.stores) := by
  rw [catBody, h]

/-- All reads succeed, behind a string that is not empty. -/
theorem catLoop_ok {reads : List (CString × Nat)} {values : List CString}
    (h : List.Forall₂ (fun read value => get read.2 read.1 = .ok value)
      reads values) :
    ∀ st : CatState, 0 < strlen st.concat →
      (catLoop get st reads).1 = .joined (strcats st.concat values) := by
  induction h with
  | nil =>
    intro st _
    rfl
  | @cons read value reads values hread _ ih =>
    intro st hpos
    have hbody := catBody_ok hread st
    rw [if_neg (by omega)] at hbody
    rw [catLoop, Loop.feed_again hbody]
    exact ih _ (by simp only; rw [strlen_strcat]; omega)

/-- A read fails, or the loop does not get to it. -/
theorem catLoop_failed (outputKey : CString) :
    ∀ (reads : List (CString × Nat)) (st : CatState),
    (∃ read ∈ reads, ∃ err, get read.2 read.1 = .error err) →
      (catLoop get st reads).1.puts outputKey = [] := by
  intro reads
  induction reads with
  | nil =>
    rintro st ⟨read, hread, _⟩
    exact absurd hread List.not_mem_nil
  | cons read reads ih =>
    rintro st ⟨read', hmem, err, herr⟩
    cases hget : get read.2 read.1 with
    | error err' =>
      rw [catLoop, Loop.feed_done (catBody_error hget st)]
      rfl
    | ok value =>
      have hbody := catBody_ok hget st
      split_ifs at hbody
      · rw [catLoop, Loop.feed_done hbody]
        rfl
      · rw [catLoop, Loop.feed_again hbody]
        refine ih _ ?_
        rcases List.mem_cons.mp hmem with rfl | hmem
        · cases hget.symm.trans herr
        · exact ⟨read', hmem, err, herr⟩

/-- The loop keeps the record of what was stored. -/
theorem catLoop_stores {reads : List (CString × Nat)} {st : CatState}
    {store : ByteStore} (h : store ∈ st.stores) :
    store ∈ (catLoop get st reads).2 := by
  have hstep : ∀ (st : CatState) (read : CString × Nat)
      (reads : List (CString × Nat)), store ∈ st.stores →
      (∃ st', catBody get st read = .again st' ∧ store ∈ st'.stores) ∨
      ∃ r, catBody get st read = .done r ∧ store ∈ r.2 := by
    intro st read _ hst
    cases hget : get read.2 read.1 with
    | error err => exact Or.inr ⟨_, catBody_error hget st, hst⟩
    | ok value =>
      have hbody := catBody_ok hget st
      split_ifs at hbody
      · exact Or.inr ⟨_, hbody, List.mem_append_left _ hst⟩
      · exact Or.inl ⟨_, hbody, List.mem_append_left _ hst⟩
  exact Loop.feed_inv (fun (st : CatState) _ => store ∈ st.stores) hstep
    (fun _ hst => hst) reads h

/-- The stores of the first `strcat` are made. -/
theorem catLoop_appended {read : CString × Nat} {value : CString}
    (hread : get read.2 read.1 = .ok value) (st : CatState)
    (reads : List (CString × Nat)) {store : ByteStore}
    (h : store ∈ bytesAt (strlen st.concat)
      (strlen st.concat + strlen value) value) :
    store ∈ (catLoop get st (read :: reads)).2 := by
  have hbody := catBody_ok hread st
  split_ifs at hbody
  · rw [catLoop, Loop.feed_done hbody]
    exact List.mem_append_right _ h
  · rw [catLoop, Loop.feed_again hbody]
    exact catLoop_stores (List.mem_append_right _ h)

/-! ## The run -/

variable (put : CString → CString → ErrorCode) (first second : CString)
  (rest : List CString)

theorem catMain_keyStores :
    (catMain get put (first :: second :: rest)).keyStores =
      List.range (rest.length + 2) := by
  rw [catMain]
  cases get 0 first with
  | error err => rfl
  | ok value =>
    simp only
    split
    · rfl
    · rfl
    · rfl

/-- The first read fails. -/
theorem catMain_error {err : ErrorCode} (h : get 0 first = .error err) :
    (catMain get put (first :: second :: rest)).puts = [] ∧
      (catMain get put (first :: second :: rest)).byteStores = [] := by
  rw [catMain, h]
  exact ⟨rfl, rfl⟩

/-- The state in front of the loop. -/
def catStart (value : CString) : CatState where
  concat := value
  stores := bytesAt 0 (strlen value + 1) value

/-- The first read succeeds, and the loop runs. -/
theorem catMain_ok {value : CString} (h : get 0 first = .ok value) :
    (catMain get put (first :: second :: rest)).puts =
        (catLoop get (catStart value)
          ((second :: rest).dropLast.zipIdx 1)).1.puts
            ((second :: rest).getLast (List.cons_ne_nil second rest)) ∧
      (catMain get put (first :: second :: rest)).byteStores =
        (catLoop get (catStart value)
          ((second :: rest).dropLast.zipIdx 1)).2 := by
  rw [catMain, h]
  simp only
  rw [← catStart]
  split
  · rename_i hloop
    rw [hloop]
    exact ⟨rfl, rfl⟩
  · rename_i hloop
    rw [hloop]
    exact ⟨rfl, rfl⟩
  · rename_i hloop
    rw [hloop]
    exact ⟨rfl, rfl⟩

/-- When all reads succeed, their values are joined and put, unless the first
two are empty. -/
theorem catMain_puts {values : List CString}
    (h : List.Forall₂ (fun read value => get read.2 read.1 = .ok value)
      (catReads first second rest) values)
    (hsome : rest = [] ∨ ∃ value ∈ values.take 2, 0 < strlen value) :
    ∃ joined : CString, joined.bytes = values.flatMap CString.bytes ∧
      (catMain get put (first :: second :: rest)).puts =
        [((second :: rest).getLast (List.cons_ne_nil second rest),
          joined)] := by
  cases rest with
  | nil =>
    obtain ⟨value, _, hfirst, ⟨⟩, rfl⟩ := List.forall₂_cons_left_iff.mp h
    refine ⟨value, (List.append_nil _).symm, ?_⟩
    rw [(catMain_ok put first second [] hfirst).1]
    rfl
  | cons third rest =>
    obtain ⟨value, _, hfirst, hvalues, rfl⟩ := List.forall₂_cons_left_iff.mp h
    obtain ⟨value', values, hsecond, hrest, rfl⟩ :=
      List.forall₂_cons_left_iff.mp hvalues
    have hpos : 0 < strlen value + strlen value' := by
      rcases hsome with hnil | ⟨v, hv, hlen⟩
      · cases hnil
      · rcases List.mem_cons.mp hv with rfl | hv
        · omega
        · rw [List.mem_singleton.mp hv] at hlen
          omega
    have hbody := catBody_ok hsecond (catStart value)
    rw [if_neg (show ¬ strlen (catStart value).concat + strlen value' = 0 from
      Nat.ne_of_gt hpos)] at hbody
    refine ⟨strcats value (value' :: values),
      bytes_strcats (value' :: values) value, ?_⟩
    rw [(catMain_ok put first second (third :: rest) hfirst).1]
    have hreads : (second :: third :: rest).dropLast.zipIdx 1 =
        (second, 1) :: (third :: rest).dropLast.zipIdx 2 := rfl
    rw [hreads, catLoop, Loop.feed_again hbody, ← catLoop,
      catLoop_ok hrest _ (by simp only; rw [strlen_strcat]; exact hpos)]
    rfl

/-- When a read fails, nothing is put. -/
theorem catMain_failed (h : ∃ read ∈ catReads first second rest,
      ∃ err, get read.2 read.1 = .error err) :
    (catMain get put (first :: second :: rest)).puts = [] := by
  obtain ⟨read, hmem, err, herr⟩ := h
  cases hfirst : get 0 first with
  | error err' => exact (catMain_error put first second rest hfirst).1
  | ok value =>
    rw [(catMain_ok put first second rest hfirst).1]
    refine catLoop_failed _ _ _ ⟨read, ?_, err, herr⟩
    rcases List.mem_cons.mp hmem with rfl | hmem
    · cases hfirst.symm.trans herr
    · exact hmem

/-- The byte stores are inside unless a `strcat` is reached. -/
theorem catMain_bytes_iff :
    (∀ store ∈ (catMain get put (first :: second :: rest)).byteStores,
      store.write.1 < store.size) ↔
      rest = [] ∨ (∃ err, get 0 first = .error err) ∨
        ∃ err, get 1 second = .error err := by
  cases hfirst : get 0 first with
  | error err =>
    rw [(catMain_error put first second rest hfirst).2]
    exact ⟨fun _ => Or.inr (Or.inl ⟨err, rfl⟩),
      fun _ store hstore => absurd hstore List.not_mem_nil⟩
  | ok value =>
    have hcopied : ∀ store ∈ bytesAt 0 (strlen value + 1) value,
        store.write.1 < store.size := by
      rw [bytesAt_inside_iff]
      omega
    rw [(catMain_ok put first second rest hfirst).2]
    cases rest with
    | nil => exact ⟨fun _ => Or.inl rfl, fun _ => hcopied⟩
    | cons third rest =>
      have hreads : (second :: third :: rest).dropLast.zipIdx 1 =
          (second, 1) :: (third :: rest).dropLast.zipIdx 2 := rfl
      rw [hreads]
      cases hsecond : get 1 second with
      | error err =>
        rw [catLoop, Loop.feed_done (catBody_error hsecond _)]
        exact ⟨fun _ => Or.inr (Or.inr ⟨err, rfl⟩), fun _ => hcopied⟩
      | ok valueFrom =>
        constructor
        · -- The terminator of the first `strcat` is one byte too far.
          intro h
          exact absurd
            (fun store hstore => h store (catLoop_appended hsecond _ _ hstore))
            (bytesAt_realloc value valueFrom)
        · rintro (hnil | ⟨err, herr⟩ | ⟨err, herr⟩)
          · cases hnil
          · cases herr
          · cases herr

end

/-- The run is right exactly when the arguments fit `keys` and no second value
is read: behind a second value the stores leave the memory, or there is none. -/
theorem catRight_iff (get : Nat → CString → Except ErrorCode CString)
    (put : CString → CString → ErrorCode) (first second : CString)
    (rest : List CString) :
    CatRight get put first second rest ↔
      rest.length + 2 ≤ MAX_MANDATORY_ARGUMENTS ∧
        (rest = [] ∨ (∃ err, get 0 first = .error err) ∨
          ∃ err, get 1 second = .error err) := by
  have hkeys : (∀ i ∈ (catMain get put
      (first :: second :: rest)).keyStores, i < MAX_MANDATORY_ARGUMENTS) ↔
        rest.length + 2 ≤ MAX_MANDATORY_ARGUMENTS := by
    rw [catMain_keyStores]
    constructor
    · intro h
      exact h (rest.length + 1) (List.mem_range.mpr (Nat.lt_succ_self _))
    · intro h i hi
      exact Nat.lt_of_lt_of_le (List.mem_range.mp hi) h
  rw [← hkeys]
  constructor
  · intro h
    exact ⟨h.keys, (catMain_bytes_iff put first second rest).mp h.bytes⟩
  · rintro ⟨hkeys, hreads⟩
    have hputs : ∀ values, List.Forall₂
        (fun read value => get read.2 read.1 = .ok value)
        (catReads first second rest) values → rest = [] := by
      intro values hvalues
      obtain ⟨value, values', hfirst, hvalues', _⟩ :=
        List.forall₂_cons_left_iff.mp hvalues
      rcases hreads with hnil | ⟨err, herr⟩ | ⟨err, herr⟩
      · exact hnil
      · cases hfirst.symm.trans herr
      · cases rest with
        | nil => rfl
        | cons third rest =>
          obtain ⟨value', _, hsecond, _⟩ :=
            List.forall₂_cons_left_iff.mp hvalues'
          cases hsecond.symm.trans herr
    exact { concat := fun values hvalues => catMain_puts put first second rest
              hvalues (Or.inl (hputs values hvalues)),
            failed := catMain_failed put first second rest,
            keys := hkeys,
            bytes := (catMain_bytes_iff put first second rest).mpr hreads }

/-- Two values are read and joined. -/
theorem catRight_twoValues :
    ¬ ∀ (get : Nat → CString → Except ErrorCode CString)
        (put : CString → CString → ErrorCode) (first second : CString)
        (rest : List CString), CatRight get put first second rest := by
  intro h
  have hright := h (fun _ key => .ok key) (fun _ _ => .ERR_NONE) (lit ['a'])
    (lit ['b']) [lit ['c']]
  have hinside := (catMain_bytes_iff _ _ _ _).mp hright.bytes
  rcases hinside with hnil | ⟨err, herr⟩ | ⟨err, herr⟩
  · cases hnil
  · cases herr
  · cases herr

end PpsDht
