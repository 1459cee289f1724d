import Qthreads.Lib.Ring
import Qthreads.Lib.Run

namespace Qthreads.Nottingham

open Lib
open Function (update)

/-! The ring of `nottingham_threadqueues.c`

One operation at a time, so that every `cmpxchg16b` on `q->top` succeeds. -/

structure Task where
  id : Nat
  /-- `thread_state` is `QTHREAD_STATE_YIELDED` -/
  yielded : Bool
  /-- `thread_state` is `QTHREAD_STATE_TERM_SHEP` -/
  termShep : Bool
  /-- `flags & QTHREAD_UNSTEALABLE` -/
  unstealable : Bool
  /-- `flags & QTHREAD_REAL_MCCOY` -/
  realMccoy : Bool
deriving DecidableEq

def Task.stealable (t : Task) : Bool := !t.yielded && !t.termShep && !t.unstealable

/-- `qt_threadqueue_entry_t` -/
structure Entry where
  value : Option Task
  index : Nat
  counter : UInt32
deriving DecidableEq

def Entry.zero : Entry := ⟨none, 0, 0⟩

/-- `struct _qt_threadqueue` -/
structure Queue where
  top : Entry
  base : Nat → Entry
  size : Nat
  bottom : Nat
  empty : Bool

/-- `(i - 1) % size` in a `uint32_t` -/
def down (size i : Nat) : Nat := (i + (2 ^ 32 - 1)) % 2 ^ 32 % size

def stealBufferLength : Nat := 128

namespace Queue

variable (q : Queue)

def new : Queue := ⟨.zero, fun _ => .zero, 1024, 0, true⟩

def finish : Queue :=
  let snapshot := q.base q.top.index
  let oldnode : Entry := ⟨snapshot.value, 0, q.top.counter - 1⟩
  if snapshot.counter > oldnode.counter then q
  else if snapshot.counter = q.top.counter then q
  else if snapshot = oldnode then
    { q with base := update q.base q.top.index { q.top with index := 0 } }
  else q

def resize : Queue :=
  { q with
    base := fun i =>
      if i < q.size - q.bottom then q.base (q.bottom + i)
      else if i < q.size then q.base (i - (q.size - q.bottom))
      else .zero
    top := { q.top with counter := q.top.counter + 1, index := q.size - 1 }
    size := if q.size > (2 ^ 32 - 1) / 2 then 2 ^ 32 - 1 else q.size * 2
    bottom := 0 }

def nextindex : Nat := (q.top.index + 1) % q.size

def place (t : Task) (nextindex : Nat) : Queue :=
  let snapshot := q.base nextindex
  { q with
    top := ⟨some t, nextindex, snapshot.counter + 1⟩
    base := update q.base nextindex
      { snapshot with value := some t, counter := snapshot.counter + 1 } }

def resizeAndEnqueue (t : Task) : Queue :=
  let finished := q.finish
  if finished.nextindex = finished.bottom then
    { finished.resize.place t q.size with empty := false }
  else { finished.place t finished.nextindex with empty := false }

def enqueue (t : Task) : Queue :=
  let finished := q.finish
  if finished.nextindex = finished.bottom then finished.resizeAndEnqueue t
  else
    { finished with
      top := ⟨some t, finished.nextindex, (finished.base finished.nextindex).counter + 1⟩
      empty := false }

/-- `qt_threadqueue_enqueue_yielded`, behind its first two cases. -/
def putBelow (t : Task) : Queue :=
  let newbot := down q.size q.bottom
  let bottom := { q.base q.bottom with
    counter := (q.base q.bottom).counter + 1, value := some t }
  let newbottom := { q.base newbot with counter := (q.base newbot).counter + 1, value := none }
  { q with
    base := update (update q.base q.bottom bottom) newbot newbottom
    bottom := newbot
    empty := false }

def enqueueYielded (t : Task) : Queue :=
  let finished := q.finish
  if finished.top.index = finished.bottom then finished.place t finished.nextindex
  else if finished.nextindex = finished.bottom then finished.resize.putBelow t
  else finished.putBelow t

/-- The pop in `qt_scheduler_get_thread`, for a worker or for `NO_WORKER`; `none` stands for the
branches that leave the queue as it is and look again. -/
def getThread (worker : Option Nat) : Option (Task × Queue) :=
  if q.top.index = q.bottom then none
  else
    match q.top.value with
    | none => none
    | some t =>
      if t.realMccoy ∧ worker ≠ some 0 then none
      else
        let finished := q.finish
        let previndex := down finished.size finished.top.index
        let belowtop := finished.base previndex
        some (t, { finished with top := ⟨belowtop.value, previndex, belowtop.counter + 1⟩ })

structure Scan where
  queue : Queue
  current : Nat
  stolen : List Task
  kept : List Task

/-- `snapshot` with its value taken out. -/
def cleared (slot : Nat) : Entry :=
  { q.base slot with value := none, counter := (q.base slot).counter + 1 }

/-- The loop in `qt_threadqueue_dequeue_steal`, with the local `bottom` as the queue's; `none` stands
for `abort()`, for a null pointer that is read, and for a loop that is not left within the given
number of rounds. -/
def scan (chunksize : Nat) : Nat → Scan → Option Scan
  | 0, _ => none
  | rounds + 1, ⟨q, current, stolen, kept⟩ =>
    if stolen.length < chunksize then
      if q.bottom = q.top.index then some ⟨{ q with empty := true }, current, stolen, kept⟩
      else if current = q.top.index then
        match q.top.value with
        | none => none
        | some candidate => some <|
            if candidate.stealable then
              ⟨{ q with
                  base := update q.base current (q.cleared current)
                  top := { q.top with value := none, counter := (q.cleared current).counter }
                  bottom := current
                  empty := true }, current, stolen ++ [candidate], kept⟩
            else ⟨{ q with empty := true }, current, stolen, kept⟩
      else
        match (q.base current).value with
        | none => none
        | some candidate =>
          let after := { q with
            base := update q.base current (q.cleared current)
            bottom := current }
          if candidate.stealable then
            scan chunksize rounds ⟨after, (current + 1) % q.size, stolen ++ [candidate], kept⟩
          else if kept.length = stealBufferLength then none
          else scan chunksize rounds ⟨after, (current + 1) % q.size, stolen, kept ++ [candidate]⟩
    else some ⟨q, current, stolen, kept⟩

/-- The loop in `qt_threadqueue_enqueue_unstealable`, over the tasks from the last to the first. -/
def putBack : List Task → Queue → Queue
  | [], q => q
  | t :: rest, q =>
    putBack rest { q with
      base := update q.base q.bottom { q.base q.bottom with value := some t }
      bottom := down q.size q.bottom }

def enqueueUnstealable (kept : List Task) : Queue :=
  if kept = [] then q
  else if q.top.index = q.bottom then
    putBack kept.reverse { q with top := { q.top with value := kept.getLast? } }
  else putBack kept.reverse q

def dequeueSteal (chunksize : Nat) : Option (List Task × Queue) :=
  if q.empty then some ([], q)
  else
    match scan chunksize q.size ⟨q.finish, (q.finish.bottom + 1) % q.size, [], []⟩ with
    | none => none
    | some ⟨after, _, stolen, kept⟩ => some (stolen, after.enqueueUnstealable kept)

end Queue

inductive Label where
  | enqueue (t : Task)
  | enqueueYielded (t : Task)
  | getThread (worker : Option Nat) (t : Task)
  | dequeueSteal (chunksize : Nat) (stolen : List Task)

namespace Queue

def Step (q : Queue) : Label → Queue → Prop
  | .enqueue t, after => after = q.enqueue t
  | .enqueueYielded t, after => after = q.enqueueYielded t
  | .getThread worker t, after => q.getThread worker = some (t, after)
  | .dequeueSteal chunksize stolen, after => q.dequeueSteal chunksize = some (stolen, after)

variable (q : Queue)

def contents : List (Option Task) :=
  if q.top.index = q.bottom then []
  else (List.range ((q.top.index + q.size - q.bottom) % q.size - 1)).map
    (fun i => (q.base (ringAt q.size q.bottom (i + 1))).value) ++ [q.top.value]

/-- An array of `2 ^ 31` slots is not doubled, and what is stolen fits the buffer. -/
def Fits : Label → Prop
  | .enqueue _ | .enqueueYielded _ => q.nextindex = q.bottom → q.size < 2 ^ 31
  | .getThread _ _ => True
  | .dequeueSteal _ stolen => stolen.length ≤ stealBufferLength

/-- Nothing is to be stolen from a queue that is marked empty while it holds a task that can be
stolen. -/
def Marked : Label → Prop
  | .dequeueSteal _ _ => q.empty = true → ∀ t, some t ∈ q.contents → t.stealable = false
  | _ => True

end Queue

namespace Deque

/-- The tasks that can be stolen, up to `chunksize` of them, and all the others. -/
def steal : Nat → List Task → List Task × List Task
  | _, [] => ([], [])
  | 0, t :: rest => ([], t :: rest)
  | chunksize + 1, t :: rest =>
    if t.stealable then
      (t :: (steal chunksize rest).1, (steal chunksize rest).2)
    else ((steal (chunksize + 1) rest).1, t :: (steal (chunksize + 1) rest).2)

/-- A sequence with two ends: new tasks come to its right end and are taken from there, yielded ones
come to its left end, and it is stolen from the left. -/
def Step (tasks : List Task) : Label → List Task → Prop
  | .enqueue t, after => after = tasks ++ [t]
  | .enqueueYielded t, after => after = t :: tasks
  | .getThread _ t, after => tasks = after ++ [t]
  | .dequeueSteal chunksize stolen, after => steal chunksize tasks = (stolen, after)

end Deque

end Qthreads.Nottingham
