import PpsDht.Hashtable
import PpsDht.Lib.Heap

/-!
# The hash table in memory

`hashtable.c` once more, with its pointers.  A string is a block of characters,
a `struct bucket` that is linked in is a block of one bucket, and the buckets of
a table are one block of many.  So `&table->buckets[i]` is an address and an
index, and a `struct bucket *` in general is a `BucketPtr`.

Every access is checked: a freed block, a `NULL` pointer and an index outside a
block are faults.  The recursive functions take the number of buckets that they
may visit; their callers pass the number of addresses in use, which a chain
without a cycle cannot exceed.

What the functions compute is the subject of the modules behind this one:
`HashtableHeapAdd` and `HashtableHeapTable` (add and get), `HashtableHeapRuns`
(runs of a program), `HashtableHeapDelete`, `HashtableHeapContent` and
`HashtableHeapFree`.
-/

namespace PpsDht.Pointer

open CMem Memory

/-! ## Blocks -/

/-- `kv_pair_t`. -/
structure KvPair where
  key : Option Nat
  value : Option Nat
  deriving DecidableEq

/-- `struct bucket`. -/
structure Bucket where
  keyValue : KvPair
  next : Option Nat
  deriving DecidableEq

/-- `Htable_t`. -/
structure Htable where
  buckets : Option Nat
  size : Nat
  deriving DecidableEq

/-- `kv_list_t`. -/
structure KvList where
  size : Nat
  list : Option Nat
  deriving DecidableEq

/-- What a block holds. -/
inductive Block where
  | chars (bytes : List UInt8)
  | buckets (cells : List Bucket)
  | pairs (cells : List KvPair)
  | htable (table : Htable)
  | kvList (list : KvList)

/-- `NULL` in both pointers, as `calloc` leaves them. -/
def KvPair.null : KvPair := ⟨none, none⟩

/-- A bucket as `calloc` leaves it. -/
def Bucket.null : Bucket := ⟨.null, none⟩

/-- `struct bucket *`. -/
structure BucketPtr where
  base : Nat
  index : Nat

/-- The characters behind a pointer. -/
def loadChars (p : Option Nat) : Prog Block (List UInt8) := do
  let a ← deref p
  match ← load a with
  | .chars bytes => pure bytes
  | _ => fail .kind

/-- The buckets behind a pointer. -/
def loadBuckets (a : Nat) : Prog Block (List Bucket) := do
  match ← load a with
  | .buckets cells => pure cells
  | _ => fail .kind

/-- The pairs behind a pointer. -/
def loadPairs (p : Option Nat) : Prog Block (List KvPair) := do
  let a ← deref p
  match ← load a with
  | .pairs cells => pure cells
  | _ => fail .kind

/-- `*table`. -/
def loadHtable (p : Option Nat) : Prog Block Htable := do
  let a ← deref p
  match ← load a with
  | .htable table => pure table
  | _ => fail .kind

/-- `*list`. -/
def loadKvList (p : Option Nat) : Prog Block KvList := do
  let a ← deref p
  match ← load a with
  | .kvList list => pure list
  | _ => fail .kind

/-- The element of an array. -/
def element {α : Type} (cells : List α) (i : Nat) : Prog Block α :=
  match cells[i]? with
  | none => fail .bounds
  | some cell => pure cell

/-- `*bck`. -/
def loadBucket (bck : BucketPtr) : Prog Block Bucket := do
  let cells ← loadBuckets bck.base
  element cells bck.index

/-- `bck->key_value = key_value;`. -/
def setKeyValue (bck : BucketPtr) (keyValue : KvPair) : Prog Block Unit := do
  let cells ← loadBuckets bck.base
  let cell ← element cells bck.index
  store bck.base
    (.buckets (cells.set bck.index { cell with keyValue := keyValue }))

/-- `bck->next = next;`. -/
def setNext (bck : BucketPtr) (next : Option Nat) : Prog Block Unit := do
  let cells ← loadBuckets bck.base
  let cell ← element cells bck.index
  store bck.base (.buckets (cells.set bck.index { cell with next := next }))

/-- `list->list[from] = kv;`. -/
def setPair (list : Option Nat) (start : Nat) (kv : KvPair) :
    Prog Block Unit := do
  let kvs ← loadKvList list
  let a ← deref kvs.list
  let cells ← loadPairs kvs.list
  let _ ← element cells start
  store a (.pairs (cells.set start kv))

/-! ## Strings -/

/-- The string behind a pointer, which `strlen` and `strcmp` read. -/
def loadString (p : Option Nat) : Prog Block CString := do
  let bytes ← loadChars p
  if 0 ∈ bytes then pure (cstr bytes) else fail .bounds

/-- `calloc(n, sizeof(char))`. -/
def callocChars (n : Nat) : Prog Block (Option Nat) :=
  alloc (.chars (List.replicate n 0))

/-- `strcpy`. -/
def strcpy (dest src : Option Nat) : Prog Block Unit := do
  let s ← loadString src
  let a ← deref dest
  let bytes ← loadChars dest
  if strlen s < bytes.length then
    store a (.chars (mem s ++ bytes.drop (strlen s + 1)))
  else fail .bounds

/-! ## Pairs and buckets -/

/-- `kv_pair_free`. -/
def kvPairFree (kv : KvPair) : Prog Block Unit := do
  free kv.key
  free kv.value

/-- `create_kv_pair`. -/
def createKvPair (key value : Option Nat) : Prog Block KvPair := do
  let keyText ← loadString key
  let keyNew ← callocChars (strlen keyText + 1)
  let valueText ← loadString value
  let valueNew ← callocChars (strlen valueText + 1)
  strcpy keyNew key
  strcpy valueNew value
  pure { key := keyNew, value := valueNew }

/-- `create_bucket`. -/
def createBucket (keyValue : KvPair) : Prog Block (Option Nat) :=
  alloc (.buckets [{ keyValue := keyValue, next := none }])

/-- `add_value_to_bucket`.  The error code of the recursive call is
dropped. -/
def addValueToBucket : Nat → BucketPtr → Option Nat → Option Nat →
    Prog Block ErrorCode
  | 0, _, _, _ => fail .endless
  | left + 1, bck, key, value => do
    let cell ← loadBucket bck
    if cell.keyValue = .null then do
      let pairNew ← createKvPair key value
      setKeyValue bck pairNew
      pure .ERR_NONE
    else do
      let text ← loadString key
      let stored ← loadString cell.keyValue.key
      if strcmp text.bytes stored.bytes = 0 then do
        kvPairFree cell.keyValue
        let pairNew ← createKvPair key value
        setKeyValue bck pairNew
        pure .ERR_NONE
      else
        match cell.next with
        | none => do
          let pairNew ← createKvPair key value
          let bucketNew ← createBucket pairNew
          if bucketNew = none then pure .ERR_NOMEM
          else do
            setNext bck bucketNew
            pure .ERR_NONE
        | some next => do
          let _ ← addValueToBucket left ⟨next, 0⟩ key value
          pure .ERR_NONE

/-- `get_value_from_bucket`. -/
def getValueFromBucket : Nat → BucketPtr → Option Nat →
    Prog Block (Option Nat)
  | 0, _, _ => fail .endless
  | left + 1, bck, key => do
    let cell ← loadBucket bck
    if cell.keyValue.key = none ∨ cell.keyValue.value = none then pure none
    else do
      let stored ← loadString cell.keyValue.key
      let text ← loadString key
      if strcmp stored.bytes text.bytes = 0 then
        pure cell.keyValue.value
      else
        match cell.next with
        | none => pure none
        | some next => getValueFromBucket left ⟨next, 0⟩ key

/-- `delete_bucket`. -/
def deleteBucket : Nat → BucketPtr → Prog Block Unit
  | 0, _ => fail .endless
  | left + 1, bck => do
    let cell ← loadBucket bck
    if cell.keyValue.key = none ∨ cell.keyValue.value = none then
      match cell.next with
      | none => pure ()
      | some next => deleteBucket left ⟨next, 0⟩
    else
      match cell.next with
      | none => kvPairFree cell.keyValue
      | some next => do
        deleteBucket left ⟨next, 0⟩
        kvPairFree cell.keyValue

/-- `get_bucket_size`. -/
def getBucketSize : Nat → BucketPtr → Prog Block Nat
  | 0, _ => fail .endless
  | left + 1, bck => do
    let cell ← loadBucket bck
    if cell.keyValue.key = none ∨ cell.keyValue.value = none then pure 0
    else
      match cell.next with
      | none => pure 1
      | some next => do
        let size ← getBucketSize left ⟨next, 0⟩
        pure (1 + size)

/-- `get_bucket_content`. -/
def getBucketContent : Nat → BucketPtr → Option Nat → Nat → Prog Block Nat
  | 0, _, _, _ => fail .endless
  | left + 1, bck, list, start => do
    let cell ← loadBucket bck
    if cell.keyValue.key = none ∨ cell.keyValue.value = none then pure 0
    else
      match cell.next with
      | none => do
        let pairNew ← createKvPair cell.keyValue.key cell.keyValue.value
        setPair list start pairNew
        pure 1
      | some next => do
        setPair list start cell.keyValue
        let count ← getBucketContent left ⟨next, 0⟩ list (start + 1)
        pure (1 + count)

/-! ## Tables -/

/-- `construct_Htable`.  The first allocation is not checked. -/
def constructHtable (size : Nat) : Prog Block (Option Nat) := do
  let htableNew ← alloc (.htable ⟨none, 0⟩)
  let buckets ← alloc (.buckets (List.replicate size .null))
  let a ← deref htableNew
  if buckets = none then pure none
  else do
    store a (.htable ⟨buckets, size⟩)
    pure htableNew

/-- `hash_function`. -/
def hashFunction (key : Option Nat) (size : Nat) : Prog Block Nat :=
  if size = 0 then pure sizeMax
  else if key = none then pure sizeMax
  else do
    let text ← loadString key
    pure (PpsDht.hashFunction (some text) size)

/-- `add_Htable_value`. -/
def addHtableValue (htable : Htable) (key value : Option Nat) :
    Prog Block ErrorCode :=
  if value = none then pure .ERR_BAD_PARAMETER
  else do
    let index ← hashFunction key htable.size
    let base ← deref htable.buckets
    let most ← used
    addValueToBucket most ⟨base, index⟩ key value

/-- `get_Htable_value`. -/
def getHtableValue (htable : Htable) (key : Option Nat) :
    Prog Block (Option Nat) :=
  if key = none then pure none
  else do
    let index ← hashFunction key htable.size
    let base ← deref htable.buckets
    let most ← used
    getValueFromBucket most ⟨base, index⟩ key

/-- `delete_Htable_and_content`. -/
def deleteHtableAndContent (p : Option Nat) : Prog Block Unit := do
  let table ← loadHtable p
  forLoop (fun i _ => do
    let base ← deref table.buckets
    let most ← used
    deleteBucket most ⟨base, i⟩) table.size 0 ()
  free table.buckets
  let a ← deref p
  store a (.htable ⟨none, 0⟩)
  free p

/-- `get_Htable_size`. -/
def getHtableSize (table : Htable) : Prog Block Nat :=
  forLoop (fun i total => do
    let base ← deref table.buckets
    let most ← used
    let size ← getBucketSize most ⟨base, i⟩
    pure (total + size)) table.size 0 0

/-- `get_Htable_content`. -/
def getHtableContent (table : Htable) : Prog Block (Option Nat) := do
  let htableSize ← getHtableSize table
  let listOfKv ← alloc (.kvList ⟨0, none⟩)
  if listOfKv = none then pure none
  else do
    let list ← alloc (.pairs (List.replicate htableSize .null))
    if list = none then pure none
    else do
      let a ← deref listOfKv
      store a (.kvList ⟨htableSize, list⟩)
      let _ ← forLoop (fun i usedUntil => do
        let base ← deref table.buckets
        let most ← used
        let count ← getBucketContent most ⟨base, i⟩ listOfKv usedUntil
        pure (usedUntil + count)) table.size 0 0
      pure listOfKv

/-- `kv_list_free`. -/
def kvListFree (p : Option Nat) : Prog Block Unit := do
  let list ← loadKvList p
  forLoop (fun i _ => do
    let cells ← loadPairs list.list
    let kv ← element cells i
    kvPairFree kv) list.size 0 ()
  let a ← deref p
  store a (.kvList ⟨0, none⟩)
  free p

end PpsDht.Pointer
