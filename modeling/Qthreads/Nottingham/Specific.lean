import Qthreads.Nottingham.Exact

namespace Qthreads.Nottingham

open Lib

/-! `qt_threadqueue_dequeue_specific`

With the return location of each task, the field `ret` of a `qthread_t`. -/

namespace Queue

variable (ret : Task → Nat) (q : Queue)

/-- The `memmove` of some entries to the slots one below theirs. -/
def slideDown (base : Nat → Entry) (first count i : Nat) : Entry :=
  if first ≤ i ∧ i < first + count then base (i + 1) else base i

/-- The `memmove` of some entries to the slots one above theirs. -/
def slideUp (base : Nat → Entry) (first count i : Nat) : Entry :=
  if first < i ∧ i ≤ first + count then base (i - 1) else base i

/-- The two cases of `qt_threadqueue_dequeue_specific` for the slot that it finds. -/
def takeOut (current : Nat) : Queue :=
  if current < q.top.index then
    { q with
      base := slideDown q.base current (q.top.index - current - 1)
      top := { q.top with index := down q.size q.top.index } }
  else
    { q with
      base := slideUp q.base q.bottom (current - q.bottom)
      bottom := (q.bottom + 1) % q.size }

/-- The loop in `qt_threadqueue_dequeue_specific`; `none` stands for a null pointer that is read, and
for a loop that is not left within the given number of rounds. -/
def search (value : Nat) : Nat → Nat → Option (Option Task × Queue)
  | 0, _ => none
  | rounds + 1, current =>
    if current = q.top.index then some (none, q)
    else
      match (q.base current).value with
      | none => none
      | some t =>
        if ret t = value then some (some t, q.takeOut current)
        else search value rounds ((current + 1) % q.size)

def dequeueSpecific (value : Nat) : Option (Option Task × Queue) :=
  let finished := q.finish
  if finished.bottom = finished.top.index then some (none, finished)
  else
    match finished.top.value with
    | none => none
    | some t =>
      if ret t = value then
        let previndex := down finished.size finished.top.index
        let snapshot := finished.base previndex
        some (some t, { finished with top := ⟨snapshot.value, previndex, snapshot.counter⟩ })
      else finished.search ret value finished.size ((finished.bottom + 1) % finished.size)

end Queue

inductive Call where
  | other (label : Label)
  | dequeueSpecific (value : Nat) (t : Option Task)

namespace Queue

variable (ret : Task → Nat) (q : Queue)

def Calls (q : Queue) : Call → Queue → Prop
  | .other label, after => q.Step label after
  | .dequeueSpecific value t, after => q.dequeueSpecific ret value = some (t, after)

/-- The task that is found lies above the top in the array, or the slot below the top's has a counter
that is one behind, or the top task. -/
def Catches (value : Nat) : Prop :=
  ∀ front t back last, q.contents = (front ++ t :: (back ++ [last])).map some →
    (∀ u ∈ front, ret u ≠ value) → ret t = value → ret last ≠ value →
      ringAt q.size q.bottom (front.length + 1) < q.top.index →
        q.top.counter = (q.base (q.top.index - 1)).counter + 1 ∨
          (q.base (q.top.index - 1)).value = q.top.value

def Allowed : Call → Prop
  | .other label => q.Fits label
  | .dequeueSpecific value _ => q.Catches ret value

end Queue

namespace Deque

variable (ret : Task → Nat)

def Removes (value : Nat) (tasks : List Task) : Option Task → List Task → Prop
  | none, after => (∀ t ∈ tasks, ret t ≠ value) ∧ after = tasks
  | some t, after => ret t = value ∧ ∃ front back, tasks = front ++ t :: back ∧ after = front ++ back

def Sees (tasks : List Task) (label : Label) (after : List Task) : Prop :=
  Step tasks label after ∨ (∃ chunksize, label = .dequeueSteal chunksize []) ∧ after = tasks

def Calls (tasks : List Task) : Call → List Task → Prop
  | .other label, after => Sees tasks label after
  | .dequeueSpecific value t, after => Removes ret value tasks t after

end Deque

namespace Queue

variable (ret : Task → Nat) (q : Queue)

/-- Every later sequence of pushes, pops and steals sees exactly these tasks: it is one of the sequence
of them, pops and steals return, and a steal that does not go by a wrong mark returns the tasks that are
to be stolen. -/
def Behaves (tasks : List Task) : Prop :=
  ∀ labels last, Run (Guarded Fits Step) q labels last → ∃ left, Run Deque.Sees tasks labels left ∧
    (∀ worker front t, left = front ++ [t] → (t.realMccoy = true → worker = some 0) →
      ∃ after, last.Step (.getThread worker t) after) ∧
    (∀ chunksize, Deque.passed chunksize left ≤ stealBufferLength →
      ∃ stolen after, last.Step (.dequeueSteal chunksize stolen) after) ∧
    ∀ chunksize stolen after, last.Marked (.dequeueSteal chunksize stolen) →
      last.Step (.dequeueSteal chunksize stolen) after → (Deque.steal chunksize left).1 = stolen

/-- A task with the return location is taken out of these, if there is one, and the others are left. -/
def RemovesSpecific (value : Nat) (tasks : List Task) : Prop :=
  ∃ t after left, q.Calls ret (.dequeueSpecific value t) after ∧ Deque.Removes ret value tasks t left ∧
    after.Behaves left

end Queue

end Qthreads.Nottingham
