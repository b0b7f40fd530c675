import Vdev.CString
import Mathlib.Data.Nat.Log
import Mathlib.Logic.Function.Basic

/-!
The ordered hash map of libudev-compat/hashmap.c: open addressing with Robin
Hood swaps, backward shift deletion, rehashing in place, and a doubly linked
list through the buckets that keeps the insertion order. Each field of the
buckets is a function of the bucket's index here, and the indices of the swap
buckets are among them. Keys stand for the strings they point to. What is random
or may fail, a new hash key and a `realloc`, is an argument. A failed assertion,
the hash of a missing key and a loop that comes round to where it began without
an end are `none`; a shift by the width of an `unsigned` is `none` as well. Plain
hash maps and sets share this code without the list; what only serves their own
order of iteration is left out.
-/
namespace Vdev.Hashmap

open CString

def UINT_MAX : ℕ := 2 ^ 32 - 1

def IDX_PUT : ℕ := UINT_MAX - 3
def IDX_TMP : ℕ := UINT_MAX - 2
def IDX_FIRST : ℕ := UINT_MAX - 1
def IDX_NIL : ℕ := UINT_MAX

def DIB_RAW_OVERFLOW : ℕ := 0xfd
def DIB_RAW_REHASH : ℕ := 0xfe
def DIB_RAW_FREE : ℕ := 0xff
def DIB_FREE : ℕ := UINT_MAX

def INV_KEEP_FREE : ℕ := 5

/-- `sizeof(struct ordered_hashmap_entry)`: two pointers and two indices. -/
def ENTRY_SIZE : ℕ := 24

/-- `sizeof(struct direct_storage)`, the size of the packed `struct indirect_storage`. -/
def DIRECT_STORAGE_SIZE : ℕ := 39

/-- `DIRECT_BUCKETS(struct ordered_hashmap_entry)`. -/
def N_DIRECT_BUCKETS : ℕ := DIRECT_STORAGE_SIZE / (ENTRY_SIZE + 1)

/-- `struct OrderedHashmap`. -/
structure OrderedHashmap (K V HashKey : Type*) where
  hashKey : HashKey
  hasIndirect : Bool := false
  nBuckets : ℕ := N_DIRECT_BUCKETS
  nEntries : ℕ := 0
  iterateListHead : ℕ := IDX_NIL
  iterateListTail : ℕ := IDX_NIL
  keyValue : ℕ → Option (K × V) := fun _ => none
  iterateNext : ℕ → ℕ := fun _ => 0
  iteratePrevious : ℕ → ℕ := fun _ => 0
  dibs : ℕ → ℕ := fun _ => DIB_RAW_FREE

variable {K V HashKey : Type*} (hash : HashKey → K → ℕ)

section Buckets

variable (h : OrderedHashmap K V HashKey)

def bucketHash (key : K) : ℕ := hash h.hashKey key % h.nBuckets

def nextIdx (idx : ℕ) : ℕ := (idx + 1) % h.nBuckets

def prevIdx (idx : ℕ) : ℕ := (h.nBuckets + idx - 1) % h.nBuckets

def bucketDistance (idx initial : ℕ) : ℕ :=
  if initial ≤ idx then idx - initial else h.nBuckets + idx - initial

def bucketCalculateDib (idx rawDib : ℕ) : Option ℕ :=
  if rawDib = DIB_RAW_FREE then some DIB_FREE
  else if rawDib < DIB_RAW_OVERFLOW then some rawDib
  else (h.keyValue idx).map fun e => bucketDistance h idx (bucketHash hash h e.1)

def setRawDib (idx rawDib : ℕ) : OrderedHashmap K V HashKey :=
  { h with dibs := Function.update h.dibs idx rawDib }

def bucketSetDib (idx dib : ℕ) : OrderedHashmap K V HashKey :=
  setRawDib h idx (if dib ≠ DIB_FREE then min dib DIB_RAW_OVERFLOW else DIB_RAW_FREE)

/-- `memzero(bucket_at(h, idx), entry_size)`. -/
def bucketZero (idx : ℕ) : OrderedHashmap K V HashKey :=
  { h with
    keyValue := Function.update h.keyValue idx none
    iterateNext := Function.update h.iterateNext idx 0
    iteratePrevious := Function.update h.iteratePrevious idx 0 }

def bucketMarkFree (idx : ℕ) : OrderedHashmap K V HashKey :=
  bucketSetDib (bucketZero h idx) idx DIB_FREE

/-- `memcpy(e_to, e_from, entry_size)`. -/
def bucketCopy (source target : ℕ) : OrderedHashmap K V HashKey :=
  { h with
    keyValue := Function.update h.keyValue target (h.keyValue source)
    iterateNext := Function.update h.iterateNext target (h.iterateNext source)
    iteratePrevious := Function.update h.iteratePrevious target (h.iteratePrevious source) }

/-- The neighbours of a bucket that has moved are turned to it. -/
def relinkNeighbours (source target : ℕ) : OrderedHashmap K V HashKey :=
  { h with
    iteratePrevious :=
      if h.iterateNext target ≠ IDX_NIL then
        Function.update h.iteratePrevious (h.iterateNext target) target
      else h.iteratePrevious
    iterateNext :=
      if h.iteratePrevious target ≠ IDX_NIL then
        Function.update h.iterateNext (h.iteratePrevious target) target
      else h.iterateNext
    iterateListHead := if h.iterateListHead = source then target else h.iterateListHead
    iterateListTail := if h.iterateListTail = source then target else h.iterateListTail }

/-- What `bucket_move_entry` asserts, with `bucket_at_virtual` for the buckets it touches. -/
def CanMove (source target : ℕ) : Prop :=
  source ≠ target ∧ source < IDX_FIRST ∧ target < IDX_FIRST ∧
    (h.iterateNext source ≠ IDX_NIL → h.iterateNext source < IDX_FIRST) ∧
    (h.iteratePrevious source ≠ IDX_NIL → h.iteratePrevious source < IDX_FIRST)

instance (source target : ℕ) : Decidable (CanMove h source target) :=
  inferInstanceAs (Decidable (_ ∧ _ ∧ _ ∧ (_ → _) ∧ (_ → _)))

def movedEntry (source target : ℕ) : OrderedHashmap K V HashKey :=
  relinkNeighbours (bucketCopy h source target) source target

def bucketMoveEntry (source target : ℕ) : Option (OrderedHashmap K V HashKey) :=
  if CanMove h source target then some (movedEntry h source target) else none

/-- The entries of `idx` and `IDX_PUT` trade places, by way of `IDX_TMP`. -/
def bucketSwapEntry (idx : ℕ) : Option (OrderedHashmap K V HashKey) :=
  match bucketMoveEntry h idx IDX_TMP with
  | none => none
  | some h₁ =>
    match bucketMoveEntry h₁ IDX_PUT idx with
    | none => none
    | some h₂ => bucketMoveEntry h₂ IDX_TMP IDX_PUT

/-- The key and the value of a new entry in the swap bucket. -/
def fillPut (key : K) (value : V) : OrderedHashmap K V HashKey :=
  { h with keyValue := Function.update h.keyValue IDX_PUT (some (key, value)) }

end Buckets

/-- The loop of `hashmap_put_robin_hood`. The second component is whether a
displaced entry is left in the swap bucket. -/
def putRobinHoodLoop (h : OrderedHashmap K V HashKey) :
    ℕ → ℕ → ℕ → Option (OrderedHashmap K V HashKey × Bool)
  | 0, _, _ => none
  | fuel + 1, idx, distance =>
    if h.dibs idx = DIB_RAW_FREE then
      (bucketMoveEntry (bucketSetDib h idx distance) IDX_PUT idx).map fun h' => (h', false)
    else if h.dibs idx = DIB_RAW_REHASH then
      -- the distance is set between the first two moves, which do not depend on it
      (bucketSwapEntry (bucketSetDib h idx distance) idx).map fun h' => (h', true)
    else
      match bucketCalculateDib hash h idx (h.dibs idx) with
      | none => none
      | some dib =>
        if dib < distance then
          match bucketSwapEntry (bucketSetDib h idx distance) idx with
          | none => none
          | some h' => putRobinHoodLoop h' fuel (nextIdx h idx) (dib + 1)
        else putRobinHoodLoop h fuel (nextIdx h idx) (distance + 1)

def putRobinHood (h : OrderedHashmap K V HashKey) (idx : ℕ) :
    Option (OrderedHashmap K V HashKey × Bool) :=
  putRobinHoodLoop hash h h.nBuckets idx 0

section Resize

def log2uRoundUp (x : ℕ) : ℕ := if x = 1 then 0 else Nat.log2 (x - 1) + 1

/-- `new_n_buckets` for a number of entries, without its checks. -/
def bucketsFor (nEntries : ℕ) : ℕ := nEntries + nEntries / (INV_KEEP_FREE - 1)

/-- The loop that moves an entry to its new bucket, and then the entry that it
displaced, until none is displaced. The number counts the entries that were placed. -/
def rehashLoop : ℕ → OrderedHashmap K V HashKey → ℕ →
    Option (OrderedHashmap K V HashKey × ℕ)
  | 0, _, _ => none
  | fuel + 1, h, nRehashed =>
    match h.keyValue IDX_PUT with
    | none => none
    | some e =>
      match putRobinHood hash h (bucketHash hash h e.1) with
      | none => none
      | some (h', true) => rehashLoop fuel h' (nRehashed + 1)
      | some (h', false) => some (h', nRehashed + 1)

/-- What happens to the old bucket `idx` when the entries are rehashed. -/
def rehashBucket (h : OrderedHashmap K V HashKey) (idx nRehashed : ℕ) :
    Option (OrderedHashmap K V HashKey × ℕ) :=
  if h.dibs idx ≠ DIB_RAW_REHASH then some (h, nRehashed)
  else
    match h.keyValue idx with
    | none => none
    | some e =>
      if bucketHash hash h e.1 = idx then some (setRawDib h idx 0, nRehashed + 1)
      else
        match bucketMoveEntry (setRawDib h idx DIB_RAW_FREE) idx IDX_PUT with
        | none => none
        | some h' => rehashLoop hash h.nBuckets (bucketZero h' idx) nRehashed

def rehashBuckets : ℕ → ℕ → OrderedHashmap K V HashKey → ℕ →
    Option (OrderedHashmap K V HashKey × ℕ)
  | 0, _, h, nRehashed => some (h, nRehashed)
  | count + 1, idx, h, nRehashed =>
    match rehashBucket hash h idx nRehashed with
    | none => none
    | some (h', nRehashed') => rehashBuckets count (idx + 1) h' nRehashed'

/-- The storage of `resize_buckets` before the rehashing: more buckets, which are
empty, a new hash key, and all entries marked. -/
def enlarge (h : OrderedHashmap K V HashKey) (newShift : ℕ) (hashKey : HashKey) :
    OrderedHashmap K V HashKey :=
  let newNBuckets := 2 ^ newShift / (ENTRY_SIZE + 1)
  { h with
    hashKey := hashKey
    hasIndirect := true
    nBuckets := newNBuckets
    dibs := fun idx =>
      if idx < h.nBuckets then
        if h.dibs idx = DIB_RAW_FREE then DIB_RAW_FREE else DIB_RAW_REHASH
      else DIB_RAW_FREE
    keyValue := fun idx =>
      if h.nBuckets ≤ idx ∧ idx < newNBuckets then none else h.keyValue idx
    iterateNext := fun idx =>
      if h.nBuckets ≤ idx ∧ idx < newNBuckets then 0 else h.iterateNext idx
    iteratePrevious := fun idx =>
      if h.nBuckets ≤ idx ∧ idx < newNBuckets then 0 else h.iteratePrevious idx }

/-- What `resize_buckets` gets from outside: the result of `realloc` and the random hash key. -/
structure Resources (HashKey : Type*) where
  realloc : Bool
  hashKey : HashKey

/-- `resize_buckets`: the map, and whether it was resized. -/
def resizeBuckets (h : OrderedHashmap K V HashKey) (entriesAdd : ℕ) (res : Resources HashKey) :
    Option (Except Errno (OrderedHashmap K V HashKey × Bool)) :=
  let newNEntries := (h.nEntries + entriesAdd) % 2 ^ 32
  if newNEntries < entriesAdd then some (.error .enomem)
  else if ¬h.hasIndirect ∧ newNEntries ≤ N_DIRECT_BUCKETS then some (.ok (h, false))
  else
    let newNBuckets := bucketsFor newNEntries % 2 ^ 32
    if newNBuckets < newNEntries then some (.error .enomem)
    else if newNBuckets > UINT_MAX / (ENTRY_SIZE + 1) then some (.error .enomem)
    else if newNBuckets ≤ h.nBuckets then some (.ok (h, false))
    else
      let newShift :=
        log2uRoundUp (max (newNBuckets * (ENTRY_SIZE + 1)) (2 * DIRECT_STORAGE_SIZE))
      if newShift ≥ 32 then none
      else if ¬res.realloc then some (.error .enomem)
      else if ∃ idx < h.nBuckets, h.dibs idx = DIB_RAW_REHASH then none
      else
        match rehashBuckets hash h.nBuckets 0 (enlarge h newShift res.hashKey) 0 with
        | none => none
        | some (h', nRehashed) =>
          if nRehashed = h'.nEntries then some (.ok (h', true)) else none

end Resize

section Operations

/-- The links of a new entry in the swap bucket, which becomes the last one. -/
def linkNew (h : OrderedHashmap K V HashKey) : OrderedHashmap K V HashKey :=
  { h with
    iterateNext := Function.update h.iterateNext IDX_PUT IDX_NIL
    iteratePrevious := Function.update h.iteratePrevious IDX_PUT h.iterateListTail
    iterateListTail := IDX_PUT
    iterateListHead := if h.iterateListHead = IDX_NIL then IDX_PUT else h.iterateListHead }

/-- The new entry is linked behind the old tail. -/
def linkPut (h : OrderedHashmap K V HashKey) : Option (OrderedHashmap K V HashKey) :=
  if h.iterateListTail = IDX_NIL then some (linkNew h)
  else if h.iterateNext h.iterateListTail = IDX_NIL then
    some { linkNew h with
      iterateNext := Function.update (linkNew h).iterateNext h.iterateListTail IDX_PUT }
  else none

/-- `hashmap_base_put_boldly`, but for the resize. -/
def putEntry (h : OrderedHashmap K V HashKey) (idx : ℕ) : Option (OrderedHashmap K V HashKey) :=
  if idx < h.nBuckets ∧ h.nEntries < h.nBuckets then
    match linkPut h with
    | none => none
    | some h₁ =>
      match putRobinHood hash h₁ idx with
      | some (h₂, false) => some { h₂ with nEntries := h₂.nEntries + 1 }
      | _ => none
  else none

/-- `hashmap_base_put_boldly`, with `may_resize`, of a key and a value. -/
def putBoldly (h : OrderedHashmap K V HashKey) (idx : ℕ) (key : K) (value : V)
    (res : Resources HashKey) : Option (OrderedHashmap K V HashKey × Except Errno ℕ) :=
  if idx < h.nBuckets then
    match resizeBuckets hash h 1 res with
    | none => none
    | some (.error e) => some (h, .error e)
    | some (.ok (h₁, resized)) =>
      let idx' := if resized then bucketHash hash h₁ key else idx
      (putEntry hash (fillPut h₁ key value) idx').map fun h₂ => (h₂, .ok 1)
  else none

variable [DecidableEq K]

/-- The loop of `base_bucket_scan`; the inner option is `IDX_NIL`. -/
def bucketScanLoop (h : OrderedHashmap K V HashKey) (key : K) :
    ℕ → ℕ → ℕ → Option (Option ℕ)
  | 0, _, _ => none
  | fuel + 1, idx, distance =>
    if h.dibs idx = DIB_RAW_FREE then some none
    else
      match bucketCalculateDib hash h idx (h.dibs idx) with
      | none => none
      | some dib =>
        if dib < distance then some none
        else if dib = distance then
          match h.keyValue idx with
          | none => none
          | some e =>
            if e.1 = key then some (some idx)
            else bucketScanLoop h key fuel (nextIdx h idx) (distance + 1)
        else bucketScanLoop h key fuel (nextIdx h idx) (distance + 1)

def bucketScan (h : OrderedHashmap K V HashKey) (key : K) : Option (Option ℕ) :=
  if bucketHash hash h key < h.nBuckets then
    bucketScanLoop hash h key (h.nBuckets + 1) (bucketHash hash h key) 0
  else none

variable [DecidableEq V]

/-- `hashmap_put`. -/
def hashmapPut (h : OrderedHashmap K V HashKey) (key : K) (value : V) (res : Resources HashKey) :
    Option (OrderedHashmap K V HashKey × Except Errno ℕ) :=
  match bucketScan hash h key with
  | none => none
  | some (some idx) =>
    match h.keyValue idx with
    | none => none
    | some e => if e.2 = value then some (h, .ok 0) else some (h, .error .eexist)
  | some none => putBoldly hash h (bucketHash hash h key) key value res

/-- `hashmap_replace`. -/
def hashmapReplace (h : OrderedHashmap K V HashKey) (key : K) (value : V)
    (res : Resources HashKey) : Option (OrderedHashmap K V HashKey × Except Errno ℕ) :=
  match bucketScan hash h key with
  | none => none
  | some (some idx) =>
    some ({ h with keyValue := Function.update h.keyValue idx (some (key, value)) }, .ok 0)
  | some none => putBoldly hash h (bucketHash hash h key) key value res

/-- `hashmap_update`. -/
def hashmapUpdate (h : OrderedHashmap K V HashKey) (key : K) (value : V) :
    Option (OrderedHashmap K V HashKey × Except Errno ℕ) :=
  match bucketScan hash h key with
  | none => none
  | some none => some (h, .error .enoent)
  | some (some idx) =>
    match h.keyValue idx with
    | none => none
    | some e =>
      some ({ h with keyValue := Function.update h.keyValue idx (some (e.1, value)) }, .ok 0)

/-- `internal_hashmap_get`. -/
def hashmapGet (h : OrderedHashmap K V HashKey) (key : K) : Option (Option V) :=
  match bucketScan hash h key with
  | none => none
  | some none => some none
  | some (some idx) => (h.keyValue idx).map fun e => some e.2

/-- The search for the bucket to stop at, which is free or has an entry at home. -/
def findStop (h : OrderedHashmap K V HashKey) (left : ℕ) : ℕ → ℕ → Option ℕ
  | 0, _ => none
  | fuel + 1, right =>
    if h.dibs right = 0 ∨ h.dibs right = DIB_RAW_FREE then some right
    else if left = right then none
    else findStop h left fuel (nextIdx h right)

/-- The entry at `idx` leaves the list. -/
def unlink (h : OrderedHashmap K V HashKey) (idx : ℕ) : OrderedHashmap K V HashKey :=
  { h with
    iteratePrevious :=
      if h.iterateNext idx ≠ IDX_NIL then
        Function.update h.iteratePrevious (h.iterateNext idx) (h.iteratePrevious idx)
      else h.iteratePrevious
    iterateListTail :=
      if h.iterateNext idx ≠ IDX_NIL then h.iterateListTail else h.iteratePrevious idx
    iterateNext :=
      if h.iteratePrevious idx ≠ IDX_NIL then
        Function.update h.iterateNext (h.iteratePrevious idx) (h.iterateNext idx)
      else h.iterateNext
    iterateListHead :=
      if h.iteratePrevious idx ≠ IDX_NIL then h.iterateListHead else h.iterateNext idx }

/-- The buckets between `prev` and `right` move one step back, and the last one becomes free. -/
def shiftBack (right : ℕ) : ℕ → OrderedHashmap K V HashKey → ℕ →
    Option (OrderedHashmap K V HashKey)
  | 0, _, _ => none
  | fuel + 1, h, prev =>
    if nextIdx h prev = right then some (bucketMarkFree h prev)
    else
      match bucketCalculateDib hash h (nextIdx h prev) (h.dibs (nextIdx h prev)) with
      | none => none
      | some dib =>
        if dib = 0 then none
        else
          match bucketMoveEntry h (nextIdx h prev) prev with
          | none => none
          | some h₁ =>
            shiftBack right fuel (bucketSetDib h₁ prev (dib - 1)) (nextIdx h prev)

/-- `base_remove_entry`. -/
def removeEntry (h : OrderedHashmap K V HashKey) (idx : ℕ) :
    Option (OrderedHashmap K V HashKey) :=
  if h.dibs idx = DIB_RAW_FREE then none
  else
    match findStop h idx h.nBuckets (nextIdx h idx) with
    | none => none
    | some right =>
      (shiftBack hash right h.nBuckets (unlink h idx) idx).map fun h' =>
        { h' with nEntries := h'.nEntries - 1 }

/-- `internal_hashmap_remove`. -/
def hashmapRemove (h : OrderedHashmap K V HashKey) (key : K) :
    Option (OrderedHashmap K V HashKey × Option V) :=
  match bucketScan hash h key with
  | none => none
  | some none => some (h, none)
  | some (some idx) =>
    match h.keyValue idx with
    | none => none
    | some e => (removeEntry hash h idx).map fun h' => (h', some e.2)

/-- `hashmap_remove_and_put`. -/
def hashmapRemoveAndPut (h : OrderedHashmap K V HashKey) (oldKey newKey : K) (value : V) :
    Option (OrderedHashmap K V HashKey × Except Errno ℕ) :=
  match bucketScan hash h oldKey with
  | none => none
  | some none => some (h, .error .enoent)
  | some (some idx) =>
    match bucketScan hash h newKey with
    | none => none
    | some (some _) => some (h, .error .eexist)
    | some none =>
      match removeEntry hash h idx with
      | none => none
      | some h₁ =>
        (putEntry hash (fillPut h₁ newKey value) (bucketHash hash h newKey)).map
          fun h₂ => (h₂, .ok 0)

/-- The bucket of the entry with the key `oldKey`, which was at `idx` before a removal
that may have shifted it one step back. -/
def compensateShift (h : OrderedHashmap K V HashKey) (oldKey : Option K) (idx : ℕ) : Option ℕ :=
  let idx' := if (h.keyValue idx).map Prod.fst = oldKey then idx else prevIdx h idx
  if (h.keyValue idx').map Prod.fst = oldKey then some idx' else none

/-- The removal of another entry that has the new key, with the bucket of the old key
behind it. -/
def removeReplaced (h : OrderedHashmap K V HashKey) (idxOld : ℕ) :
    Option ℕ → Option (OrderedHashmap K V HashKey × ℕ)
  | none => some (h, idxOld)
  | some idxNew =>
    if idxOld = idxNew then some (h, idxOld)
    else
      match removeEntry hash h idxNew with
      | none => none
      | some h₁ =>
        (compensateShift h₁ ((h.keyValue idxOld).map Prod.fst) idxOld).map fun idx => (h₁, idx)

/-- `hashmap_remove_and_replace`. -/
def hashmapRemoveAndReplace (h : OrderedHashmap K V HashKey) (oldKey newKey : K) (value : V) :
    Option (OrderedHashmap K V HashKey × Except Errno ℕ) :=
  match bucketScan hash h oldKey with
  | none => none
  | some none => some (h, .error .enoent)
  | some (some idxOld) =>
    match bucketScan hash h newKey with
    | none => none
    | some idxNew =>
      match removeReplaced hash h idxOld idxNew with
      | none => none
      | some (h₁, idx) =>
        match removeEntry hash h₁ idx with
        | none => none
        | some h₂ =>
          (putEntry hash (fillPut h₂ newKey value) (bucketHash hash h newKey)).map
            fun h₃ => (h₃, .ok 0)

/-- `reset_direct_storage`, with the hash key that all direct storage shares. -/
def resetDirectStorage (h : OrderedHashmap K V HashKey) (sharedHashKey : HashKey) :
    OrderedHashmap K V HashKey :=
  { h with
    hashKey := sharedHashKey
    hasIndirect := false
    nBuckets := N_DIRECT_BUCKETS
    nEntries := 0
    keyValue := fun _ => none
    iterateNext := fun _ => 0
    iteratePrevious := fun _ => 0
    dibs := fun _ => DIB_RAW_FREE }

/-- `internal_hashmap_clear`. -/
def hashmapClear (h : OrderedHashmap K V HashKey) (sharedHashKey : HashKey) :
    OrderedHashmap K V HashKey :=
  { resetDirectStorage h sharedHashKey with
    iterateListHead := IDX_NIL
    iterateListTail := IDX_NIL }

/-- `internal_ordered_hashmap_new`. -/
def hashmapNew (sharedHashKey : HashKey) : OrderedHashmap K V HashKey :=
  { hashKey := sharedHashKey }

end Operations

section Iteration

/-- `Iterator`. -/
structure Iterator (K : Type*) where
  idx : ℕ := IDX_FIRST
  nextKey : Option K := none

/-- The bucket that `hashmap_iterate_in_insertion_order` returns, or `IDX_NIL`, and
the iterator behind it. -/
def iterateFrom (h : OrderedHashmap K V HashKey) (i : Iterator K) (idx : ℕ) :
    Option (ℕ × Iterator K) :=
  if h.iterateNext idx ≠ IDX_NIL then
    (h.keyValue (h.iterateNext idx)).map fun e => (idx, ⟨h.iterateNext idx, some e.1⟩)
  else some (idx, { i with idx := IDX_NIL })

variable [DecidableEq K]

def iterateInInsertionOrder (h : OrderedHashmap K V HashKey) (i : Iterator K) :
    Option (ℕ × Iterator K) :=
  if i.idx = IDX_NIL then some (IDX_NIL, { i with idx := IDX_NIL })
  else if i.idx = IDX_FIRST ∧ h.iterateListHead = IDX_NIL then
    some (IDX_NIL, { i with idx := IDX_NIL })
  else if i.idx = IDX_FIRST then iterateFrom h i h.iterateListHead
  else (compensateShift h i.nextKey i.idx).bind fun idx => iterateFrom h i idx

/-- `internal_hashmap_iterate`: the key and the value, if there is one more. -/
def hashmapIterate (h : OrderedHashmap K V HashKey) (i : Iterator K) :
    Option (Option (K × V) × Iterator K) :=
  match iterateInInsertionOrder h i with
  | none => none
  | some (idx, i') =>
    if idx = IDX_NIL then some (none, i')
    else (h.keyValue idx).map fun e => (some e, i')

end Iteration

end Vdev.Hashmap
