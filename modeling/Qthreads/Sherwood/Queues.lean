import Qthreads.Lib.Dll
import Qthreads.Lib.Run

namespace Qthreads.Sherwood

open Lib

/-! `sherwood_threadqueues.c`

Every operation holds the lock of the one queue it changes, so that operations on all queues
happen one after the other.  A pointer that is followed while it is `NULL` ends the program: no
result. -/

structure Task where
  id : Nat
  unstealable : Bool
  ret : Nat
deriving DecidableEq

def Task.isStealable (t : Task) : Bool := !t.unstealable

structure Heap extends Links Nat where
  stealable : Nat → Bool
  value : Nat → Task
  allocated : List Nat

namespace Heap

/-- `ALLOC_TQNODE`, with the stores of the value and of `stealable`. -/
def alloc (heap : Heap) (node : Nat) (t : Task) : Heap :=
  { heap with
    stealable := Function.update heap.stealable node t.isStealable
    value := Function.update heap.value node t
    allocated := node :: heap.allocated }

/-- `FREE_TQNODE` -/
def free (heap : Heap) (node : Nat) : Heap :=
  { heap with allocated := heap.allocated.erase node }

def setNext (heap : Heap) (node : Nat) (target : Option Nat) : Heap :=
  { heap with toLinks := heap.toLinks.setNext node target }

def setPrev (heap : Heap) (node : Nat) (target : Option Nat) : Heap :=
  { heap with toLinks := heap.toLinks.setPrev node target }

/-- `node->stealable`, as a number. -/
def weight (heap : Heap) (node : Nat) : Int := if heap.stealable node then 1 else 0

def fuel (heap : Heap) : Nat := heap.allocated.length + 1

end Heap

structure Queue where
  head : Option Nat
  tail : Option Nat
  qlength : Int
  qlengthStealable : Int

/-- `qt_threadqueue_private_t` -/
structure Cache extends Queue where
  onDeck : Option Nat

def Queue.new : Queue := ⟨none, none, 0, 0⟩

def Queue.counted (q : Queue) (qlength qlengthStealable : Int) : Queue :=
  { q with
    qlength := q.qlength + qlength
    qlengthStealable := q.qlengthStealable + qlengthStealable }

/-- The nodes from `first` to `last` are put behind the tail. -/
def linkAtTail (heap : Heap) (q : Queue) (first last : Nat) : Option (Heap × Queue) :=
  let heap := heap.setPrev first q.tail
  match q.head with
  | none => some (heap, { q with head := some first, tail := some last })
  | some _ => (heap.prev first).map fun before =>
    (heap.setNext before (some first), { q with tail := some last })

def linkAtHead (heap : Heap) (q : Queue) (node : Nat) : Option (Heap × Queue) :=
  let heap := (heap.setPrev node none).setNext node q.head
  match q.tail with
  | none => some (heap, { q with head := some node, tail := some node })
  | some _ => (heap.next node).map fun after =>
    (heap.setPrev after (some node), { q with head := some node })

def enqueue (heap : Heap) (q : Queue) (node : Nat) (t : Task) : Option (Heap × Queue) := do
  let heap := (heap.alloc node t).setNext node none
  let (heap, q) ← linkAtTail heap q node node
  return (heap, q.counted 1 (heap.weight node))

/-- `qt_threadqueue_enqueue_yielded` and `qt_threadqueue_private_enqueue_yielded` -/
def enqueueYielded (heap : Heap) (q : Queue) (node : Nat) (t : Task) : Option (Heap × Queue) := do
  let (heap, q) ← linkAtHead (heap.alloc node t) q node
  return (heap, q.counted 1 (heap.weight node))

def privateEnqueue (heap : Heap) (c : Cache) (node : Nat) (t : Task) : Option (Heap × Cache) :=
  let heap := ((heap.alloc node t).setNext node none).setPrev node none
  match c.onDeck with
  | none => some (heap, { c with onDeck := some node })
  | some tmp => (linkAtTail heap c.toQueue tmp tmp).map fun (heap, q) =>
    (heap, ⟨q.counted 1 (heap.weight tmp), some node⟩)

/-- The cache without `on_deck` is put behind the tail of a queue. -/
def pushCache (heap : Heap) (q : Queue) (c : Cache) : Option (Heap × Queue × Cache) :=
  if 0 < c.qlength then do
    let first ← c.head
    let last ← c.tail
    let (heap, q) ← linkAtTail heap q first last
    return (heap, q.counted c.qlength c.qlengthStealable, ⟨.new, c.onDeck⟩)
  else
    some (heap, q, c)

def enqueueCache (heap : Heap) (q : Queue) (c : Cache) : Option (Heap × Queue × Cache) := do
  let first ← c.onDeck
  let (heap, last) ←
    if c.qlength ≠ 0 then do
      let head ← c.head
      let last ← c.tail
      some ((heap.setNext first c.head).setPrev head (some first), last)
    else some (heap, first)
  let counted := c.counted 1 (heap.weight first)
  let heap := heap.setNext first c.head
  let (heap, q) ← linkAtTail heap q first last
  return (heap, q.counted counted.qlength counted.qlengthStealable, ⟨.new, none⟩)

/-- The dequeue at the tail in `qt_scheduler_get_thread`. -/
def dequeue (heap : Heap) (q : Queue) : Option Nat × Heap × Queue :=
  match q.head with
  | none => (none, heap, q)
  | some _ =>
    match q.tail with
    | none => (none, heap, q)
    | some node =>
      let tail := heap.prev node
      let less := q.counted (-1) (-heap.weight node)
      match tail with
      | none => (some node, heap, { less with head := none, tail })
      | some last => (some node, heap.setNext last none, { less with tail })

/-- `qt_scheduler_get_thread` until it has a node: the one on deck, with the rest of the cache
pushed onto the queue, or the one at the tail. -/
def getThread (heap : Heap) (q : Queue) (qc : Option Cache) :
    Option (Option Nat × Heap × Queue × Option Cache) :=
  match qc with
  | none =>
    let (node, heap, q) := dequeue heap q
    some (node, heap, q, none)
  | some c =>
    match c.onDeck with
    | none =>
      let (node, heap, q) := dequeue heap q
      some (node, heap, q, some c)
    | some node => (pushCache heap q { c with onDeck := none }).map fun (heap, q, c) =>
      (some node, heap, q, some c)

/-- The loop that counts the nodes `qt_threadqueue_enqueue_multiple` is given. -/
def lastOf (heap : Heap) : Nat → Nat → Int → Option (Nat × Int)
  | 0, _, _ => none
  | fuel + 1, last, addCnt =>
    match heap.next last with
    | none => some (last, addCnt)
    | some next => lastOf heap fuel next (addCnt + 1)

def enqueueMultiple (heap : Heap) (q : Queue) (first : Nat) : Option (Heap × Queue) := do
  let (last, addCnt) ← lastOf heap heap.fuel first 1
  let (heap, q) ← linkAtTail (heap.setNext last none) q first last
  return (heap, q.counted addCnt addCnt)

def findStealable (heap : Heap) : Nat → Option Nat → Option (Option Nat)
  | 0, _ => none
  | _ + 1, none => some none
  | fuel + 1, some node =>
    if heap.stealable node then some (some node) else findStealable heap fuel (heap.next node)

def extendRun (heap : Heap) (desiredStolen : Int) : Nat → Nat → Int → Queue →
    Option (Nat × Int × Queue)
  | 0, _, _, _ => none
  | fuel + 1, lastStolen, amtStolen, v =>
    if amtStolen < desiredStolen then
      match heap.next lastStolen with
      | none => some (lastStolen, amtStolen, v)
      | some nextToSteal =>
        if heap.stealable nextToSteal then
          extendRun heap desiredStolen fuel nextToSteal (amtStolen + 1) (v.counted (-1) (-1))
        else some (lastStolen, amtStolen, v)
    else some (lastStolen, amtStolen, v)

/-- The victim queue is patched up around a run, which is left on its own; also the node after
the run. -/
def cutRun (heap : Heap) (v : Queue) (firstStolen lastStolen : Nat) :
    Option (Option Nat × Heap × Queue) := do
  let (heap, v) ←
    if v.head = some firstStolen then some (heap, { v with head := heap.next lastStolen })
    else (heap.prev firstStolen).map fun before =>
      (heap.setNext before (heap.next lastStolen), v)
  let (heap, v) ←
    if v.tail = some lastStolen then some (heap, { v with tail := heap.prev firstStolen })
    else (heap.next lastStolen).map fun after =>
      (heap.setPrev after (heap.prev firstStolen), v)
  let node := heap.next lastStolen
  return (node, (heap.setPrev firstStolen none).setNext lastStolen none, v)

/-- A run is put behind those stolen before; `first` and `last` of the steal list. -/
def joinRun (heap : Heap) (stolen : Option (Nat × Nat)) (firstStolen lastStolen : Nat) :
    Heap × (Nat × Nat) :=
  match stolen with
  | none => (heap, firstStolen, lastStolen)
  | some (first, last) =>
    ((heap.setNext last (some firstStolen)).setPrev firstStolen (some last), first, lastStolen)

/-- The loop of `qt_threadqueue_dequeue_steal`, from a node of the victim on. -/
def stealRuns (desiredStolen : Int) : Nat → Heap → Queue → Option (Nat × Nat) → Int → Option Nat →
    Option (Option Nat × Heap × Queue)
  | 0, _, _, _, _, _ => none
  | fuel + 1, heap, v, stolen, amtStolen, node =>
    match findStealable heap heap.fuel node with
    | none => none
    | some none => some (stolen.map Prod.fst, heap, v)
    | some (some firstStolen) =>
      match extendRun heap desiredStolen heap.fuel firstStolen (amtStolen + 1)
        (v.counted (-1) (-1)) with
      | none => none
      | some (lastStolen, amtStolen, v) =>
        match cutRun heap v firstStolen lastStolen with
        | none => none
        | some (node, heap, v) =>
          let (heap, stolen) := joinRun heap stolen firstStolen lastStolen
          if 0 < v.qlengthStealable ∧ amtStolen < desiredStolen then
            stealRuns desiredStolen fuel heap v (some stolen) amtStolen node
          else some (some stolen.1, heap, v)

/-- How many nodes are wanted; `seen` is what the victim's `qlength_stealable` was when it was
read, before the victim was locked. -/
def desiredStolen (stealChunksize seen : Int) : Int :=
  let desired := if stealChunksize = 0 then seen.tdiv 2 else stealChunksize
  if desired = 0 then 1 else desired

/-- `qt_threadqueue_dequeue_steal`; `locked` is whether the victim's lock was free. -/
def dequeueSteal (heap : Heap) (v : Queue) (stealChunksize seen : Int) (locked : Bool) :
    Option (Option Nat × Heap × Queue) :=
  let desired := desiredStolen stealChunksize seen
  if locked = false then some (none, heap, v)
  else if 0 < v.qlengthStealable ∧ 0 < desired then
    stealRuns desired heap.fuel heap v none 0 v.head
  else some (none, heap, v)

/-- The search from the tail for a task with this `ret`. -/
def findTask (heap : Heap) (value : Nat) : Nat → Option Nat → Option (Option Nat)
  | 0, _ => none
  | _ + 1, none => some none
  | fuel + 1, some node =>
    if (heap.value node).ret ≠ value then findTask heap value fuel (heap.prev node)
    else some (some node)

def moveToTail (heap : Heap) (q : Queue) (node : Nat) : Option (Heap × Queue) := do
  let (heap, q) ←
    if q.head = some node then some (heap, { q with head := heap.next node })
    else (heap.prev node).map fun before => (heap.setNext before (heap.next node), q)
  let after ← heap.next node
  let heap := heap.setPrev after (heap.prev node)
  let heap := (heap.setNext node none).setPrev node q.tail
  let tail ← q.tail
  return (heap.setNext tail (some node), { q with tail := some node })

/-- `qt_threadqueue_dequeue_specific`, with the node of the task it returns. -/
def dequeueSpecific (heap : Heap) (q : Queue) (value : Nat) : Option (Option Nat × Heap × Queue) :=
  if 0 < q.qlength then
    match findTask heap value heap.fuel q.tail with
    | none => none
    | some none => some (none, heap, q)
    | some (some node) =>
      if q.tail = some node then some (some node, heap, q)
      else (moveToTail heap q node).map fun (heap, q) => (some node, heap, q)
  else some (none, heap, q)

end Qthreads.Sherwood
