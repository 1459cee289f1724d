import Qthreads.Sherwood.Account

namespace Qthreads.Sherwood

open Lib Links

def pullTail (heap : Heap) (c : Cache) (n : Nat) : Heap × Cache :=
  (heap.setPrev n none,
    ⟨{ c.counted (-1) (-heap.weight n) with
        head := if c.head = some n then none else c.head
        tail := heap.prev n }, some n⟩)

def refillDeck (heap : Heap) (c : Cache) : Heap × Cache :=
  match c.tail with
  | none => (heap, { c with onDeck := none })
  | some n => pullTail heap c n

def privateDequeue (heap : Heap) (c : Cache) : Option Nat × Heap × Cache :=
  match c.onDeck with
  | none => (none, heap, c)
  | some node => (some node, refillDeck heap c)

/-- The calls of a worker on its cache; `flush` is the start of `qt_scheduler_get_thread`. -/
inductive CacheOp where
  | privateEnqueue (t : Task) (node : Nat)
  | privateEnqueueYielded (t : Task) (node : Nat)
  | privateDequeue
  | enqueueCache
  | flush

variable {Q C H : Type} [DecidableEq Q] [DecidableEq C] [DecidableEq H]

namespace CacheOp

def apply (s : State Q C H) (q : Q) (c : C) : CacheOp → Option (Option Task × State Q C H)
  | privateEnqueue t node => (Op.privateEnqueue c t node).apply s
  | privateEnqueueYielded t node => (Op.privateEnqueueYielded c t node).apply s
  | privateDequeue =>
    let (node, heap, cache) := Sherwood.privateDequeue s.heap (s.caches c)
    match node with
    | none => some (none, s.setCache heap c cache)
    | some node => some ((s.setCache heap c cache).take node)
  | enqueueCache => (Op.enqueueCache q c).apply s
  | flush => if (s.caches c).onDeck = none then some (none, s) else (Op.getThread q (some c)).apply s

/-- `ALLOC_TQNODE` returns a node that is not in use. -/
def Fresh (s : State Q C H) : CacheOp → Prop
  | privateEnqueue _ node => node ∉ s.heap.allocated
  | privateEnqueueYielded _ node => node ∉ s.heap.allocated
  | _ => True

end CacheOp

/-- The assertion at the start of `qt_threadqueue_private_enqueue`. -/
def Queue.Shaped (q : Queue) : Prop :=
  q.head = q.tail ∧ q.qlength < 2 ∨ q.head ≠ none ∧ q.tail ≠ none ∧ 1 < q.qlength

/-- `tail == NULL || tail->next == NULL`, and `head == NULL || head->prev == NULL` -/
def Queue.Ended (heap : Heap) (q : Queue) : Prop :=
  (∀ last, q.tail = some last → heap.next last = none) ∧
    ∀ first, q.head = some first → heap.prev first = none

def CacheOp.Asserts (s : State Q C H) (q : Q) (c : C) : CacheOp → Prop
  | privateEnqueue t node =>
    let heap := ((s.heap.alloc node t).setNext node none).setPrev node none
    (s.caches c).Shaped ∧ (s.caches c).Ended heap ∧
      ∀ tmp, (s.caches c).onDeck = some tmp →
        ((s.caches c).head ≠ none → (s.caches c).tail ≠ none) ∧
          ∀ after queue, linkAtTail heap (s.caches c).toQueue tmp tmp = some (after, queue) →
            queue.Ended after
  | privateEnqueueYielded t node =>
    (s.caches c).Shaped ∧ (s.caches c).Ended ((s.heap.alloc node t).setPrev node none) ∧
      ((s.caches c).tail ≠ none → (s.caches c).head ≠ none) ∧
        ∀ after queue, enqueueYielded s.heap (s.caches c).toQueue node t = some (after, queue) →
          queue.Ended after
  | privateDequeue => True
  | enqueueCache =>
    (s.caches c).onDeck ≠ none ∧ ((s.caches c).head = none ∨ (s.caches c).qlength ≠ 0) ∧
      ∀ first, (s.caches c).onDeck = some first →
        if (s.caches c).qlength ≠ 0 then
          ∀ head last, (s.caches c).head = some head → (s.caches c).tail = some last →
            ((s.heap.setNext first head).setPrev head first).next last = none ∧
              ((s.heap.setNext first head).setPrev head first).prev first = none
        else s.heap.next first = none ∧ s.heap.prev first = none
  | flush =>
    ∀ node, (s.caches c).onDeck = some node →
      (s.caches c).Ended s.heap ∧ s.heap.next node = none ∧ s.heap.prev node = none ∧
        (0 < (s.caches c).qlength →
          ∀ first last, (s.caches c).head = some first → (s.caches c).tail = some last →
            s.heap.next last = none ∧ s.heap.prev first = none ∧
              (s.queues q).head ≠ some first ∧ (s.queues q).tail ≠ some last ∧
              ∀ after queue, linkAtTail s.heap (s.queues q) first last = some (after, queue) →
                queue.Ended after)

/-- The task on deck has no neighbours, and the others are in a list. -/
structure State.WellFormed (s : State Q C H) (c : C) : Prop where
  deck : ∀ node, (s.caches c).onDeck = some node → s.heap.next node = none ∧ s.heap.prev node = none
  list : ∃ nodes, (s.caches c).toQueue.Shows s.heap nodes ∧
    ∀ node, (s.caches c).onDeck = some node → node ∉ nodes

/-- The tail that `qt_threadqueue_private_dequeue` pulls down is alone in the list;
`qt_spawncache_flush` makes sure that there is a task on deck. -/
def CacheOp.Suits (s : State Q C H) (c : C) : CacheOp → Prop
  | privateDequeue => (s.caches c).onDeck ≠ none → (s.caches c).head = (s.caches c).tail
  | enqueueCache => (s.caches c).onDeck ≠ none
  | _ => True

/-- A cache, and the tasks that were put into it and returned from it. -/
structure Spawning (Q C H : Type) where
  state : State Q C H
  spawned : Multiset Task
  yielded : Multiset Task
  returned : Multiset Task

namespace CacheOp

def spawned : CacheOp → Multiset Task
  | privateEnqueue t _ => {t}
  | _ => 0

def yielded : CacheOp → Multiset Task
  | privateEnqueueYielded t _ => {t}
  | _ => 0

end CacheOp

namespace Spawning

def start (s : State Q C H) : Spawning Q C H := ⟨s, 0, 0, 0⟩

def Step (q : Q) (c : C) (before : Spawning Q C H) (op : CacheOp) (after : Spawning Q C H) : Prop :=
  op.Fresh before.state ∧ ∃ result state, op.apply before.state q c = some (result, state) ∧
    after = ⟨state, before.spawned + op.spawned, before.yielded + op.yielded,
      before.returned + result.toList⟩

/-- Every task that was put into the cache was returned, was moved to the ready queue or is still
in the cache, once; and one that was spawned is there only behind a task on deck. -/
structure Accounted (q : Q) (c : C) (queued : List Task) (config : Spawning Q C H) : Prop where
  all : config.spawned + config.yielded + queued = config.returned +
    (config.state.tasks (.queue q) + (config.state.tasks (.deck c) + config.state.tasks (.cache c) :
      Multiset Task))
  waiting : (config.state.caches c).onDeck = none →
    (config.state.tasks (.cache c) : Multiset Task) ≤ config.yielded

end Spawning

end Qthreads.Sherwood
