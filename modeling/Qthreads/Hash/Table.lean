import Mathlib.Data.Nat.Bitwise
import Qthreads.Feb.Stripe

namespace Qthreads.Hash

open Qthreads.Feb (qtHash64)
open Function (update)

/-! An open-addressed table of cache-line buckets with tombstones.  The two keys that mark free
slots are kept out of band.  `malloc` never fails here, and a failed `assert` ends the
program. -/

/-- What `qt_hash_initialize_subsystem` and the page size fix: a bucket is a cache line of at
most 128 bytes, a page has at least 4096. -/
structure Machine where
  lineBits : Nat
  pageBits : Nat
  lineBits_le : lineBits ≤ 3
  pageBits_ge : 12 ≤ pageBits

namespace Machine

def linesize (machine : Machine) : Nat := 16 * 2 ^ machine.lineBits
def bucketsize (machine : Machine) : Nat := machine.linesize / 16
def bucketmask (machine : Machine) : Nat := machine.bucketsize - 1
def pagesize (machine : Machine) : Nat := 2 ^ machine.pageBits
def minEntries (machine : Machine) : Nat := 2 * machine.pagesize / 16

end Machine

def keyNull : UInt64 := 0
def keyDeleted : UInt64 := 1

structure Entry where
  key : UInt64
  value : UInt64

namespace Entry

def free (entry : Entry) : Bool := entry.key = keyNull ∨ entry.key = keyDeleted

/-- The test `key > KEY_DELETED` of the loops over all entries. -/
def live (entry : Entry) : Bool := keyDeleted < entry.key

end Entry

/-- `qt_hash_s`; the arrays `value` and `has_key` are read at the two out-of-band keys. -/
structure Table where
  entries : Nat → Entry
  mask : Nat
  numEntries : Nat
  population : Nat
  deletes : Nat
  growSize : Nat
  shrinkSize : Nat
  tidyUpSize : Nat
  value : UInt64 → UInt64
  hasKey : UInt64 → Bool

def outOfBand (key : UInt64) : Bool := key = keyDeleted ∨ key = keyNull

/-- The loop of `encompassing_power_of_two`. -/
def encompassing (k : Nat) : Nat → Nat → Nat
  | 0, z => z
  | fuel + 1, z => if z < k then encompassing k fuel (z <<< 1) else z

def encompassingPowerOfTwo (k : Nat) : Nat := encompassing k k 1

/-- The nearest `float` to `scaled / 2 ^ 24`, ties to even, again in units of `2 ^ -24`. -/
def nearestFloat (scaled : Nat) : Nat :=
  let drop := Nat.log2 scaled + 1 - 24
  let kept := scaled / 2 ^ drop
  let rest := scaled % 2 ^ drop
  if 2 ^ drop < 2 * rest ∨ (2 ^ drop = 2 * rest ∧ kept % 2 = 1) then (kept + 1) * 2 ^ drop
  else kept * 2 ^ drop

/-- `(entries * ratio) - 1` in `float`, converted to `size_t`.  The number of entries is a
power of two, so only the subtraction can round. -/
def trigger (ratio entries : Nat) : Nat := nearestFloat (entries * ratio - 2 ^ 24) / 2 ^ 24

/-- `(entries * 0.65f) - 1` -/
def growTrigger (entries : Nat) : Nat := trigger 10905190 entries

/-- `(entries * 0.8f) - 1` -/
def tidyTrigger (entries : Nat) : Nat := trigger 13421773 entries

/-- `entries * 0.030f` -/
def shrinkTrigger (entries : Nat) : Nat := entries * 16106127 / 2 ^ 29

namespace Machine

def roundEntries (machine : Machine) (entries : Nat) : Nat :=
  encompassingPowerOfTwo
    (if entries % machine.minEntries ≠ 0 then
      entries + (machine.minEntries - entries % machine.minEntries)
    else entries)

/-- `qt_hash_internal_create` on the zeroed structure its callers pass. -/
def internalCreate (machine : Machine) (entries : Nat) : Table :=
  let entries := machine.roundEntries entries
  { entries := fun _ => ⟨keyNull, 0⟩
    mask := Nat.ldiff (entries - 1) machine.bucketmask
    numEntries := entries
    population := 0
    deletes := 0
    growSize := growTrigger entries
    shrinkSize := if entries = machine.minEntries then 0 else shrinkTrigger entries
    tidyUpSize := tidyTrigger entries
    value := fun _ => 0
    hasKey := fun _ => false }

def create (machine : Machine) : Table := machine.internalCreate 100

/-- The slots `bucket + i` of one bucket. -/
def slots (machine : Machine) (bucket : Nat) : List Nat :=
  (List.range machine.bucketsize).map fun i => bucket + i

end Machine

namespace Table

variable (machine : Machine)

def home (table : Table) (key : UInt64) : Nat := (qtHash64 key).toNat &&& table.mask

def step (table : Table) (key : UInt64) : Nat :=
  (((qtHash64 key >>> 16) ||| (qtHash64 key <<< 16)).toNat &&& table.mask) |||
    machine.bucketsize

/-- The buckets of the `do ... while (bucket != quit)` loop. -/
def bucketsAfter (mask step quit : Nat) : Nat → Nat → List Nat
  | 0, _ => []
  | fuel + 1, bucket =>
    let next := (bucket + step) &&& mask
    next :: if next ≠ quit then bucketsAfter mask step quit fuel next else []

def laterBuckets (table : Table) (key : UInt64) : List Nat :=
  bucketsAfter table.mask (table.step machine key) (table.home key) table.numEntries
    (table.home key)

def path (table : Table) (key : UInt64) : List Nat :=
  machine.slots (table.home key) ++ (table.laterBuckets machine key).flatMap machine.slots

/-- The search of `qt_hash_internal_find`: a null key ends it, a deleted one does not. -/
def seek (entries : Nat → Entry) (key : UInt64) : List Nat → Option Nat
  | [] => none
  | slot :: rest =>
    if (entries slot).key = key then some slot
    else if (entries slot).key = keyNull then none
    else seek entries key rest

/-- `qt_hash_internal_find` on a key that is not out of band. -/
def find (table : Table) (key : UInt64) : Option Nat :=
  seek table.entries key (table.path machine key)

/-- The value `qt_hash_internal_find` points to. -/
def lookup (table : Table) (key : UInt64) : Option UInt64 :=
  if outOfBand key then
    if table.hasKey key then some (table.value key) else none
  else
    (table.find machine key).map fun slot => (table.entries slot).value

/-- `qt_hash_get_locked`, with `NULL` as 0. -/
def getLocked (table : Table) (key : UInt64) : UInt64 := (table.lookup machine key).getD 0

/-- What `qt_hash_put_locked` learns from one bucket: the slot of the key, or `f`. -/
inductive Scan where
  | hit (slot : Nat)
  | miss (f : Option Nat)

/-- The `for` loop over one bucket in `qt_hash_put_locked`. -/
def scanBucket (entries : Nat → Entry) (key : UInt64) : List Nat → Option Nat → Scan
  | [], f => .miss f
  | slot :: rest, f =>
    if (entries slot).key = key then .hit slot
    else if (entries slot).key = keyDeleted then
      scanBucket entries key rest (f.or (some slot))
    else if (entries slot).key = keyNull then .miss (f.or (some slot))
    else scanBucket entries key rest f

/-- The `do ... while (f == -1 && bucket != quit)` loop of `qt_hash_put_locked`. -/
def scanBuckets (entries : Nat → Entry) (key : UInt64) : List Nat → Scan
  | [] => .miss none
  | bucket :: rest =>
    match scanBucket entries key (machine.slots bucket) none with
    | .hit slot => .hit slot
    | .miss none => scanBuckets entries key rest
    | .miss (some f) => .miss (some f)

inductive Place where
  | collision
  | overwrite (slot : Nat)
  | insert (f : Option Nat)

def place (table : Table) (key : UInt64) : Place :=
  match scanBucket table.entries key (machine.slots (table.home key)) none with
  | .hit _ => .collision
  | .miss (some f) => .insert (some f)
  | .miss none =>
    match scanBuckets machine table.entries key (table.laterBuckets machine key) with
    | .hit slot => .overwrite slot
    | .miss f => .insert f

/-- `h->has_key[0] + h->has_key[1]` -/
def bound (table : Table) : Nat :=
  (table.hasKey keyNull).toNat + (table.hasKey keyDeleted).toNat

def write (table : Table) (slot : Nat) (entry : Entry) : Table :=
  { table with entries := update table.entries slot entry }

inductive Stop where
  | assertion
  | fuel

def putCollision : Nat := 0
def putSuccess : Nat := 1

abbrev Put := Table → UInt64 → UInt64 → Except Stop (Nat × Table)

/-- The copying loop of `brehash` over the slots that remain. -/
def copyEntries (put : Put) (table : Table) : List Nat → Nat → Table → Except Stop Table
  | [], _, copy => .ok copy
  | slot :: rest, copied, copy =>
    if (table.entries slot).live then
      match put copy (table.entries slot).key (table.entries slot).value with
      | .error stop => .error stop
      | .ok (code, copy) =>
        if code = putCollision then .error .assertion
        else if copied + 1 = table.population then .ok copy
        else copyEntries put table rest (copied + 1) copy
    else copyEntries put table rest copied copy

/-- The table `brehash` copies into, with the out-of-band keys moved over. -/
def blank (table : Table) (len : Nat) : Table :=
  { machine.internalCreate len with hasKey := table.hasKey, value := table.value }

/-- `brehash` up to its last assertion: what the copy holds. -/
def copyAll (put : Put) (table : Table) (len : Nat) : Except Stop Table :=
  if table.bound < table.population then
    copyEntries put table (List.range table.numEntries) table.bound (table.blank machine len)
  else .ok (table.blank machine len)

/-- `brehash`; every field but `shrink_size` is taken from the copy. -/
def brehash (put : Put) (table : Table) (len : Nat) : Except Stop Table :=
  match table.copyAll machine put len with
  | .error stop => .error stop
  | .ok copy =>
    if table.population = copy.population then
      .ok { copy with shrinkSize := table.shrinkSize }
    else .error .assertion

/-- The out-of-band branch of `qt_hash_put_locked`. -/
def putOutOfBand (table : Table) (key value : UInt64) : Nat × Table :=
  if table.hasKey key then (putCollision, table)
  else (putSuccess,
    { table with
      hasKey := update table.hasKey key true
      value := update table.value key value })

/-- The table size `qt_hash_put_locked` rehashes to before it takes the slot `f`, if it does. -/
def putRehash (table : Table) (f : Nat) : Option Nat :=
  if (table.entries f).key = keyNull then
    if table.growSize ≤ table.population then some (table.numEntries * 2)
    else if table.tidyUpSize < table.population + table.deletes then some table.numEntries
    else none
  else none

/-- The last lines of `qt_hash_put_locked`. -/
def occupy (table : Table) (f : Nat) (key value : UInt64) : Table :=
  { table.write f ⟨key, value⟩ with
    population := table.population + 1
    deletes := if (table.entries f).key = keyNull then table.deletes else table.deletes - 1 }

/-- `qt_hash_put_locked`; `goto restart` and the calls from `brehash` use up fuel. -/
def putLocked : Nat → Put
  | 0, _, _, _ => .error .fuel
  | fuel + 1, table, key, value =>
    if outOfBand key then .ok (table.putOutOfBand key value)
    else
      match table.place machine key with
      | .collision => .ok (putCollision, table)
      | .overwrite slot =>
        .ok (1, table.write slot { table.entries slot with value := value })
      | .insert none => .error .assertion
      | .insert (some f) =>
        match table.putRehash f with
        | none => .ok (1, table.occupy f key value)
        | some len =>
          match table.brehash machine (putLocked fuel) len with
          | .error stop => .error stop
          | .ok table => putLocked fuel table key value

/-- `p->key = KEY_DELETED; ++h->deletes; --h->population` -/
def vacate (table : Table) (slot : Nat) : Table :=
  { table.write slot { table.entries slot with key := keyDeleted } with
    deletes := table.deletes + 1
    population := table.population - 1 }

/-- The table size `qt_hash_remove_locked` rehashes to, if it does. -/
def removeRehash (table : Table) : Option Nat :=
  if table.tidyUpSize ≤ table.population + table.deletes then some table.numEntries
  else if table.population < table.shrinkSize then some (table.numEntries / 2)
  else none

def removeLocked (fuel : Nat) (table : Table) (key : UInt64) : Except Stop (Nat × Table) :=
  if outOfBand key then
    if table.hasKey key = false then .ok (0, table)
    else .ok (1,
      { table with
        hasKey := update table.hasKey key false
        value := update table.value key 0 })
  else
    match table.find machine key with
    | none => .ok (0, table)
    | some slot =>
      match (table.vacate slot).removeRehash with
      | none => .ok (1, table.vacate slot)
      | some len =>
        match (table.vacate slot).brehash machine (putLocked machine fuel) len with
        | .error stop => .error stop
        | .ok table => .ok (1, table)

def outOfBandEntries (table : Table) : List Entry :=
  (if table.hasKey keyNull then [⟨keyNull, table.value keyNull⟩] else []) ++
    (if table.hasKey keyDeleted then [⟨keyDeleted, table.value keyDeleted⟩] else [])

/-- The loop of `qt_hash_callback` and `qt_hash_destroy_deallocate`. -/
def visitEntries (table : Table) : List Nat → Nat → List Entry
  | [], _ => []
  | slot :: rest, visited =>
    if (table.entries slot).live then
      table.entries slot ::
        if visited + 1 = table.population then [] else visitEntries table rest (visited + 1)
    else visitEntries table rest visited

/-- `qt_hash_callback`: the bindings it calls the function on, in order. -/
def callback (table : Table) : List Entry :=
  table.outOfBandEntries ++
    if table.outOfBandEntries.length < table.population then
      table.visitEntries (List.range table.numEntries) table.outOfBandEntries.length
    else []

/-- `qt_hash_destroy_deallocate`: the values it calls the function on, in order. -/
def destroyDeallocate (table : Table) : Except Stop (List UInt64) :=
  if table.callback.length = table.population then .ok (table.callback.map Entry.value)
  else .error .assertion

def count (table : Table) : Nat :=
  table.population + (table.hasKey keyNull).toNat + (table.hasKey keyDeleted).toNat

end Table

inductive Call where
  | put (key value : UInt64)
  | get (key : UInt64)
  | remove (key : UInt64)

inductive Answer where
  | code (value : Nat)
  | pointer (value : UInt64)
deriving DecidableEq

namespace Call

/-- One call, with the fuel that `putLocked_fuel` shows to be enough. -/
def apply (machine : Machine) (table : Table) : Call → Except Table.Stop (Answer × Table)
  | put key value =>
    match table.putLocked machine 2 key value with
    | .error stop => .error stop
    | .ok (code, table) => .ok (.code code, table)
  | get key => .ok (.pointer (table.getLocked machine key), table)
  | remove key =>
    match table.removeLocked machine 2 key with
    | .error stop => .error stop
    | .ok (code, table) => .ok (.code code, table)

end Call

def exec (machine : Machine) : Table → List Call → Except Table.Stop (List Answer × Table)
  | table, [] => .ok ([], table)
  | table, call :: rest =>
    match call.apply machine table with
    | .error stop => .error stop
    | .ok (answer, table) =>
      match exec machine table rest with
      | .error stop => .error stop
      | .ok (answers, last) => .ok (answer :: answers, last)

end Qthreads.Hash
