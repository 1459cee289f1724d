import Qthreads.Lib.Tasks

namespace Qthreads.Rwlock

open Lib

/-! Each load, each store and each compare-and-swap is one step of a task. -/

def maxReaders : Nat := 128 - 8

def words : Nat := maxReaders / 8

/-- `struct tlrw_lock` -/
structure Lock where
  owner : UInt64
  readers : Nat → UInt8

def init : Lock := ⟨0, fun _ => 0⟩

/-- `readers[i]` for a pointer to words -/
def Lock.word (l : Lock) (i : Nat) : Nat := ∑ j ∈ Finset.range 8, (l.readers (8 * i + j)).toNat * 256 ^ j

/-- Where a task is: at the store, the load or the compare-and-swap that it makes next. -/
inductive Pc where
  | idle
  /-- `rwlock_rdlock`, at `l->readers[id] = 1` -/
  | announce
  /-- at `l->owner == 0` -/
  | check
  /-- at `l->readers[id] = 0` -/
  | retract
  /-- at `while (l->owner != 0)` -/
  | await
  /-- behind `rwlock_rdlock` -/
  | reading
  /-- `rwlock_wrlock`, at `while (l->owner != 0)` -/
  | spin
  /-- at `qthread_cas` -/
  | claim
  /-- at `readers[i] != 0` -/
  | scan (i : Nat)
  /-- behind `rwlock_wrlock` -/
  | writing

structure Callers where
  id : Nat → Nat
  reader : Nat → Bool
  inside : ∀ task, reader task = true → id task < maxReaders
  distinct : ∀ task other, reader task = true → reader other = true → id task = id other → task = other
  /-- an `int` that is not negative -/
  int : ∀ task, id task < 2 ^ 31

/-- `id + 1`, an `int` that wraps around, as a `uint64_t` -/
def token (id : Nat) : UInt64 :=
  UInt64.ofNat (if id + 1 < 2 ^ 31 then id + 1 else id + 1 + (2 ^ 64 - 2 ^ 32))

/-- Whether a step begins a call, goes on with one, or is the only one of an unlock. -/
inductive Label where
  | begins
  | goes
  | unlocks

inductive Act (callers : Callers) (task : Nat) (l : Lock) : Pc → Label → Lock → Pc → Prop where
  | rdlock : callers.reader task = true → Act callers task l .idle .begins l .announce
  | announce : Act callers task l .announce .goes
      { l with readers := Function.update l.readers (callers.id task) 1 } .check
  | enter : l.owner = 0 → Act callers task l .check .goes l .reading
  | defer : l.owner ≠ 0 → Act callers task l .check .goes l .retract
  | retract : Act callers task l .retract .goes
      { l with readers := Function.update l.readers (callers.id task) 0 } .await
  | again : l.owner = 0 → Act callers task l .await .goes l .announce
  | await : l.owner ≠ 0 → Act callers task l .await .goes l .await
  | rdunlock : Act callers task l .reading .unlocks
      { l with readers := Function.update l.readers (callers.id task) 0 } .idle
  | wrlock : Act callers task l .idle .begins l .spin
  | free : l.owner = 0 → Act callers task l .spin .goes l .claim
  | spin : l.owner ≠ 0 → Act callers task l .spin .goes l .spin
  | claim : l.owner = 0 → Act callers task l .claim .goes
      { l with owner := token (callers.id task) } (.scan 0)
  | fail : l.owner ≠ 0 → Act callers task l .claim .goes l .spin
  | next {i : Nat} : l.word i = 0 → i + 1 < words → Act callers task l (.scan i) .goes l (.scan (i + 1))
  | last {i : Nat} : l.word i = 0 → i + 1 = words → Act callers task l (.scan i) .goes l .writing
  | busy {i : Nat} : l.word i ≠ 0 → Act callers task l (.scan i) .goes l (.scan i)
  | wrunlock : Act callers task l .writing .unlocks { l with owner := 0 } .idle

def start : Config Lock Pc := ⟨init, fun _ => .idle⟩

end Qthreads.Rwlock
