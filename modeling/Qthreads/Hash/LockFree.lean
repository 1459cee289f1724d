import Qthreads.Dict.SplitOrder
import Qthreads.Hash.Map

namespace Qthreads.Hash.LockFree

open Qthreads.Dict (msb reverse soRegularkey soDummykey getParent)

/-! `lf_hashmap.c` on one task

The list is that from `B[0]`, in the order of its `next` pointers.  On one task no
compare-and-swap fails and no node that is marked stays linked. -/

/-- `getpagesize()`: a power of two that an `int` holds. -/
structure Page where
  bits : Nat
  least : 12 ≤ bits
  fits : bits ≤ 30

def Page.hardMaxBuckets (page : Page) : UInt64 := UInt64.ofNat (2 ^ page.bits / 8)

/-- `hash_entry`, with its address. -/
structure HashEntry where
  addr : Nat
  key : UInt64
  value : UInt64

/-- What `qt_hash_callback` passes on of an entry. -/
def HashEntry.pair (entry : HashEntry) : Option (UInt64 × UInt64) :=
  if entry.key &&& 1 = 0 then none else some (reverse (entry.key ^^^ 1), entry.value)

/-- `qt_hash_s`; a bucket without a pointer is `UNINITIALIZED`. -/
structure QtHash where
  list : List HashEntry
  B : UInt64 → Option Nat
  count : UInt64
  size : UInt64
  fresh : Nat

def maxLoad : UInt64 := 4

def hashKey (key : UInt64) : UInt64 := key &&& ~~~msb

/-- Where a search ends: `prev` belongs to the last entry that was passed, `cur` is the first
of the others. -/
structure Found where
  passed : List HashEntry
  rest : List HashEntry
  value : UInt64

/-- `qt_lf_list_find`, on the list from `*head`. -/
def qtLfListFind (key : UInt64) : List HashEntry → Found
  | [] => ⟨[], [], 0⟩
  | cur :: next =>
    if cur.key ≥ key then
      ⟨[], cur :: next, if cur.key = key then cur.value else 0⟩
    else
      let later := qtLfListFind key next
      ⟨cur :: later.passed, later.rest, later.value⟩

namespace QtHash

def create : QtHash where
  list := [⟨0, 0, 0⟩]
  B := fun bucket => if bucket = 0 then some 0 else none
  count := 0
  size := 2
  fresh := 1

def split (h : QtHash) (bucket : UInt64) : List HashEntry × List HashEntry :=
  match h.B bucket with
  | none => (h.list, [])
  | some addr => h.list.span fun entry => entry.addr != addr

/-- The list with `passed ++ rest` from the bucket on.  With nothing passed, `prev` is the
bucket itself, and writing there is not a change of the list: no result. -/
def relink (h : QtHash) (bucket : UInt64) (passed rest : List HashEntry) : Option QtHash :=
  match passed with
  | [] => none
  | _ => some { h with list := (h.split bucket).1 ++ passed ++ rest }

def qtLfListInsert (h : QtHash) (bucket : UInt64) (node : HashEntry) : Option (Bool × QtHash) :=
  let found := qtLfListFind node.key (h.split bucket).2
  if found.value ≠ 0 then
    some (false, h)
  else
    (h.relink bucket found.passed (node :: found.rest)).map fun after => (true, after)

def qtLfListDelete (h : QtHash) (bucket key : UInt64) : Option (Bool × QtHash) :=
  let found := qtLfListFind key (h.split bucket).2
  if found.value = 0 then
    some (false, h)
  else
    (h.relink bucket found.passed found.rest.tail).map fun after => (true, after)

/-- `ALLOC_HASH_ENTRY()`: an address that no entry has. -/
def allocHashEntry (h : QtHash) : Nat × QtHash := (h.fresh, { h with fresh := h.fresh + 1 })

/-- The dummy of a bucket whose parent is there.  A dummy that is in the list already leaves the
task waiting for another one to set the bucket. -/
def linkDummy (h : QtHash) (bucket : UInt64) : Option QtHash :=
  let (addr, h) := h.allocHashEntry
  match h.qtLfListInsert (getParent bucket) ⟨addr, soDummykey bucket, 0⟩ with
  | none => none
  | some (false, _) => none
  | some (true, h) => some { h with B := Function.update h.B bucket (some addr) }

/-- `initialize_bucket`, with the depth its recursion may take. -/
def initializeBucket : Nat → QtHash → UInt64 → Option QtHash
  | 0, _, _ => none
  | depth + 1, h, bucket =>
    let parent := getParent bucket
    match h.B parent with
    | none => (initializeBucket depth h parent).bind fun h => h.linkDummy bucket
    | some _ => h.linkDummy bucket

def bucketOf (h : QtHash) (lkey : UInt64) : Option (UInt64 × QtHash) :=
  let bucket := lkey % h.size
  match h.B bucket with
  | none => (initializeBucket (bucket.toNat + 1) h bucket).map fun after => (bucket, after)
  | some _ => some (bucket, h)

/-- The end of `qt_hash_put`: one entry more, and twice the buckets if they are too full. -/
def grow (page : Page) (h : QtHash) : QtHash :=
  let csize := h.size
  let size :=
    if h.count / csize > maxLoad then
      if 2 * csize ≤ page.hardMaxBuckets then 2 * csize else csize
    else csize
  { h with count := h.count + 1, size }

def qtHashPut (page : Page) (h : QtHash) (key value : UInt64) : Option (Nat × QtHash) := do
  let (addr, h) := h.allocHashEntry
  let lkey := hashKey key
  let (bucket, h) ← h.bucketOf lkey
  match ← h.qtLfListInsert bucket ⟨addr, soRegularkey lkey, value⟩ with
  | (false, h) => return (0, h)
  | (true, h) => return (1, h.grow page)

def qtHashGet (h : QtHash) (key : UInt64) : Option (UInt64 × QtHash) := do
  let lkey := hashKey key
  let (bucket, h) ← h.bucketOf lkey
  return ((qtLfListFind (soRegularkey lkey) (h.split bucket).2).value, h)

def qtHashRemove (h : QtHash) (key : UInt64) : Option (Nat × QtHash) := do
  let lkey := hashKey key
  let (bucket, h) ← h.bucketOf lkey
  match ← h.qtLfListDelete bucket (soRegularkey lkey) with
  | (false, h) => return (0, h)
  | (true, h) => return (1, { h with count := h.count - 1 })

def qtHashCount (h : QtHash) : UInt64 := h.size

/-- The pairs `qt_hash_callback` passes on, in its order. -/
def qtHashCallback (h : QtHash) : List (UInt64 × UInt64) := h.list.filterMap HashEntry.pair

end QtHash

inductive Query where
  | call (call : Call)
  | count

namespace Query

def apply (page : Page) (h : QtHash) : Query → Option (Answer × QtHash)
  | call (.put key value) => (h.qtHashPut page key value).map fun ran => (.code ran.1, ran.2)
  | call (.get key) => (h.qtHashGet key).map fun ran => (.pointer ran.1, ran.2)
  | call (.remove key) => (h.qtHashRemove key).map fun ran => (.code ran.1, ran.2)
  | count => some (.code h.qtHashCount.toNat, h)

end Query

def exec (page : Page) : QtHash → List Query → Option (List Answer × QtHash)
  | h, [] => some ([], h)
  | h, query :: rest =>
    match query.apply page h with
    | none => none
    | some (answer, next) =>
      match exec page next rest with
      | none => none
      | some (answers, last) => some (answer :: answers, last)

structure Bindings where
  pairs : List (UInt64 × UInt64)
  distinct : (pairs.map Prod.fst).Nodup

namespace Bindings

def empty : Bindings := ⟨[], List.nodup_nil⟩

def lookup (bindings : Bindings) : FiniteMap :=
  fun key => (bindings.pairs.find? fun pair => pair.1 == key).map Prod.snd

theorem lookup_none {bindings : Bindings} {key : UInt64} :
    bindings.lookup key = none ↔ key ∉ bindings.pairs.map Prod.fst := by
  rw [lookup, Option.map_eq_none_iff, List.find?_eq_none, List.mem_map]
  constructor
  · rintro never ⟨pair, member, rfl⟩
    exact never pair member (beq_self_eq_true _)
  · intro absent pair member same
    exact absent ⟨pair, member, eq_of_beq same⟩

def insert (bindings : Bindings) (key value : UInt64) (absent : bindings.lookup key = none) :
    Bindings where
  pairs := (key, value) :: bindings.pairs
  distinct := List.nodup_cons.mpr ⟨lookup_none.mp absent, bindings.distinct⟩

def erase (bindings : Bindings) (key : UInt64) : Bindings where
  pairs := bindings.pairs.filter fun pair => pair.1 != key
  distinct := bindings.distinct.sublist (List.filter_sublist.map _)

end Bindings

/-- The calls on a finite map with insert-if-absent, and how many keys it binds. -/
def Query.specified (bindings : Bindings) : Query → Answer × Bindings
  | call (.put key value) =>
    if absent : bindings.lookup key = none then (.code 1, bindings.insert key value absent)
    else (.code 0, bindings)
  | call (.get key) => (.pointer ((bindings.lookup key).getD 0), bindings)
  | call (.remove key) =>
    if bindings.lookup key = none then (.code 0, bindings) else (.code 1, bindings.erase key)
  | count => (.code bindings.pairs.length, bindings)

def specified : Bindings → List Query → List Answer
  | _, [] => []
  | bindings, query :: rest =>
    (query.specified bindings).1 :: specified (query.specified bindings).2 rest

/-- The value put is not `NULL`. -/
def Query.NonNull : Query → Prop
  | call (.put _ value) => value ≠ 0
  | _ => True

instance : (query : Query) → Decidable query.NonNull
  | .call (.put _ value) => inferInstanceAs (Decidable (value ≠ 0))
  | .call (.get _) => .isTrue trivial
  | .call (.remove _) => .isTrue trivial
  | .count => .isTrue trivial

def FiniteMapExact (page : Page) (queries : List Query) : Prop :=
  (exec page .create queries).map Prod.fst = some (specified .empty queries)

instance (page : Page) (queries : List Query) : Decidable (FiniteMapExact page queries) :=
  inferInstanceAs (Decidable (_ = _))

end Qthreads.Hash.LockFree
