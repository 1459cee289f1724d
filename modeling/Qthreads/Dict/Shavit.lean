import Qthreads.Dict.Interface
import Qthreads.Dict.SplitOrder

namespace Qthreads.Dict

/-! `dictionary_shavit.c` on one task

The list is that from `B[0]`, in the order of its `next` pointers.  On one task no
compare-and-swap fails and no node that is marked stays linked. -/

/-- `HASH_KEY(op_hash(key))`. -/
def KeyOps.lkey (keys : KeyOps) (key : UInt64) : UInt64 :=
  (keys.opHash key).toInt64.toUInt64 &&& ~~~msb

/-- `qt_dictionary`; a bucket without a pointer is `UNINITIALIZED`. -/
structure Dictionary where
  list : List Entry
  B : UInt64 → Option Nat
  count : UInt64
  size : UInt64
  fresh : Nat

def maxLoad : UInt64 := 4

/-- `hard_max_buckets`, which is `NO_BUCKETS`. -/
def hardMaxBuckets : UInt64 := (1 : UInt64) <<< 20

/-- Where a search ends: `prev` belongs to the last entry that was passed, `cur` is the first
of the others. -/
structure Found where
  passed : List Entry
  rest : List Entry
  value : UInt64

/-- `qt_lf_list_find`, on the list from `*head`. -/
def qtLfListFind (keys : KeyOps) (hashedKey key : UInt64) : List Entry → Found
  | [] => ⟨[], [], 0⟩
  | cur :: next =>
    let later := qtLfListFind keys hashedKey key next
    if cur.hashedKey ≥ hashedKey then
      if cur.hashedKey = hashedKey then
        if cur.key ≠ 0 ∧ keys.opEquals cur.key key = true then
          ⟨[], cur :: next, cur.value⟩
        else
          ⟨cur :: later.passed, later.rest, later.value⟩
      else
        ⟨[], cur :: next, 0⟩
    else
      ⟨cur :: later.passed, later.rest, later.value⟩

namespace Dictionary

def create : Dictionary where
  list := [⟨0, 0, 0, 0⟩]
  B := fun bucket => if bucket = 0 then some 0 else none
  count := 0
  size := 2
  fresh := 1

def split (h : Dictionary) (bucket : UInt64) : List Entry × List Entry :=
  match h.B bucket with
  | none => (h.list, [])
  | some addr => h.list.span fun entry => entry.addr != addr

/-- The list with `passed ++ rest` from the bucket on.  With nothing passed, `prev` is the
bucket itself, and writing there is not a change of the list: no result. -/
def relink (h : Dictionary) (bucket : UInt64) (passed rest : List Entry) : Option Dictionary :=
  match passed with
  | [] => none
  | _ => some { h with list := (h.split bucket).1 ++ passed ++ rest }

def qtLfForceListInsert (keys : KeyOps) (h : Dictionary) (bucket : UInt64) (node : Entry) :
    Option Dictionary :=
  let found := qtLfListFind keys node.hashedKey node.key (h.split bucket).2
  if found.value ≠ 0 then
    h.relink bucket found.passed (node :: found.rest.tail)
  else
    h.relink bucket found.passed (node :: found.rest)

/-- `qt_lf_list_insert`: the entry that has the key already, or none and the new list. -/
def qtLfListInsert (keys : KeyOps) (h : Dictionary) (bucket : UInt64) (node : Entry) :
    Option (Option Entry × Dictionary) :=
  let found := qtLfListFind keys node.hashedKey node.key (h.split bucket).2
  if found.value ≠ 0 then
    some (found.rest.head?, h)
  else
    (h.relink bucket found.passed (node :: found.rest)).map fun after => (none, after)

def qtLfListDelete (keys : KeyOps) (h : Dictionary) (bucket hashedKey key : UInt64) :
    Option (Bool × Dictionary) :=
  let found := qtLfListFind keys hashedKey key (h.split bucket).2
  if found.value = 0 then
    some (false, h)
  else
    (h.relink bucket found.passed found.rest.tail).map fun after => (true, after)

/-- `qpool_alloc(hash_entry_pool)`: an address that no entry has. -/
def qpoolAlloc (h : Dictionary) : Nat × Dictionary := (h.fresh, { h with fresh := h.fresh + 1 })

/-- The dummy of a bucket whose parent is there.  A dummy that is in the list already leaves the
task waiting for another one to set the bucket. -/
def linkDummy (keys : KeyOps) (h : Dictionary) (bucket : UInt64) : Option Dictionary :=
  let (addr, h) := h.qpoolAlloc
  match h.qtLfListInsert keys (getParent bucket) ⟨addr, soDummykey bucket, 0, 0⟩ with
  | none => none
  | some (some _, _) => none
  | some (none, h) => some { h with B := Function.update h.B bucket (some addr) }

/-- `initialize_bucket`, with the depth its recursion may take. -/
def initializeBucket (keys : KeyOps) : Nat → Dictionary → UInt64 → Option Dictionary
  | 0, _, _ => none
  | depth + 1, h, bucket =>
    let parent := getParent bucket
    match h.B parent with
    | none => (initializeBucket keys depth h parent).bind fun h => h.linkDummy keys bucket
    | some _ => h.linkDummy keys bucket

def bucketOf (keys : KeyOps) (h : Dictionary) (key : UInt64) : Option (UInt64 × Dictionary) :=
  let bucket := keys.lkey key % h.size
  match h.B bucket with
  | none => (h.initializeBucket keys (bucket.toNat + 1) bucket).map fun after => (bucket, after)
  | some _ => some (bucket, h)

/-- The end of `qt_hash_put`: one entry more, and twice the buckets if they are too full. -/
def grow (h : Dictionary) : Dictionary :=
  let csize := h.size
  let size :=
    if h.count / csize > maxLoad then
      if 2 * csize ≤ hardMaxBuckets then 2 * csize else csize
    else csize
  { h with count := h.count + 1, size }

def put (keys : KeyOps) (h : Dictionary) (key value : UInt64) : Option (UInt64 × Dictionary) := do
  let (addr, h) := h.qpoolAlloc
  let node : Entry := ⟨addr, soRegularkey (keys.lkey key), key, value⟩
  let (bucket, h) ← h.bucketOf keys key
  let h ← h.qtLfForceListInsert keys bucket node
  return (node.value, h.grow)

def putIfAbsent (keys : KeyOps) (h : Dictionary) (key value : UInt64) :
    Option (UInt64 × Dictionary) := do
  let (addr, h) := h.qpoolAlloc
  let node : Entry := ⟨addr, soRegularkey (keys.lkey key), key, value⟩
  let (bucket, h) ← h.bucketOf keys key
  match ← h.qtLfListInsert keys bucket node with
  | (some ret, h) => return (ret.value, h)
  | (none, h) => return (node.value, h.grow)

def get (keys : KeyOps) (h : Dictionary) (key : UInt64) : Option (UInt64 × Dictionary) := do
  let (bucket, h) ← h.bucketOf keys key
  let found := qtLfListFind keys (soRegularkey (keys.lkey key)) key (h.split bucket).2
  return (found.value, h)

def remove (keys : KeyOps) (h : Dictionary) (key : UInt64) : Option (Bool × Dictionary) := do
  let (bucket, h) ← h.bucketOf keys key
  match ← h.qtLfListDelete keys bucket (soRegularkey (keys.lkey key)) key with
  | (false, h) => return (false, h)
  | (true, h) => return (true, { h with count := h.count - 1 })

def delete (keys : KeyOps) (h : Dictionary) (key : UInt64) : Option (UInt64 × Dictionary) := do
  let (val, h) ← h.get keys key
  let (ret, h) ← h.remove keys key
  return (if ret then val else 0, h)

def call (keys : KeyOps) (h : Dictionary) : Call → Option (UInt64 × Dictionary)
  | .put key value => h.put keys key value
  | .putIfAbsent key value => h.putIfAbsent keys key value
  | .get key => h.get keys key
  | .delete key => h.delete keys key

def calls (keys : KeyOps) : Dictionary → List Call → Option (List UInt64 × Dictionary)
  | h, [] => some ([], h)
  | h, first :: rest =>
    match h.call keys first with
    | none => none
    | some (answer, next) =>
      match calls keys next rest with
      | none => none
      | some (answers, last) => some (answer :: answers, last)

end Dictionary

end Qthreads.Dict
