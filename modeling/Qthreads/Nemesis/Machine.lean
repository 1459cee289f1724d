import Qthreads.Lib.Atomic
import Qthreads.Tqueue.Types

namespace Qthreads.Nemesis

open Lib
open Tqueue (Node Task)
open Function (update)

/-! The NEMESIS queue of `queue.c`, step by step

Any thread enqueues, and one thread, the consumer, dequeues.  Every read and every write of a
shared word, the swap of the tail and its compare-and-swap are steps of their own. -/

/-- Where a node is: in the pool, with the thread that fills it in, in the queue before and after
the thread has stored the pointer to it, or with the consumer that has taken it off. -/
inductive Stage where
  | pool
  | fresh (thread : Nat)
  | pending (thread : Nat)
  | linked
  | held
deriving DecidableEq

/-- Where the pointer to the first node is: to be found at `head`, being moved to `shadow_head`, in
`shadow_head`, or with the consumer alone. -/
inductive Front where
  | atHead
  | moving
  | atShadow
  | cut

/-- The queue and its nodes.  The fields from `stage` on are not words the code reads: `order` are
the nodes in the order of the swaps that put them in, `swapped` and `taken` the tasks put in and
taken off so far, and `returned` those that a dequeue has returned. -/
structure Shared where
  head : Option Node
  tail : Option Node
  shadowHead : Option Node
  next : Node → Option Node
  thread : Node → Task
  stage : Node → Stage
  front : Front
  order : List Node
  swapped : List Task
  taken : List Task
  returned : List Task

inductive Op where
  | enqueue (t : Task)
  | dequeue

inductive Result where
  | enqueued
  | dequeued (t : Option Task)

inductive Pc where
  | idle
  | done (result : Result)
  -- `qthread_queue_internal_NEMESIS_enqueue`
  | eAlloc (t : Task)
  | eFill (t : Task) (node : Node)
  | eSwap (node : Node)
  | eHead (node : Node)
  | eLink (prev node : Node)
  -- `qthread_queue_internal_NEMESIS_dequeue`
  | dShadow
  | dHead
  | dAdopt
  | dClear
  | dTake
  | dNext (dequeued : Node)
  | dStep (dequeued : Node)
  | dLast (dequeued : Node)
  | dCas (dequeued : Node)
  | dSpin (dequeued : Node)
  | dSpun (dequeued : Node)
  | dUnlink (dequeued : Node)
  | dThread (dequeued : Node)
  | dFree (dequeued : Node) (retval : Task)

namespace Shared

variable (s : Shared)

def empty : Shared where
  head := none
  tail := none
  shadowHead := none
  next := fun _ => none
  thread := fun _ => ⟨0, false, 0, none⟩
  stage := fun _ => .pool
  front := .atHead
  order := []
  swapped := []
  taken := []
  returned := []

def setStage (node : Node) (stage : Stage) : Shared :=
  { s with stage := update s.stage node stage }

def fill (node : Node) (t : Task) : Shared :=
  { s with
    thread := update s.thread node t
    next := update s.next node none }

/-- `qt_internal_atomic_swap_ptr((void **)&(q->tail), node)` -/
def swap (me : Nat) (node : Node) : Shared :=
  { s with
    tail := some node
    stage := update s.stage node (.pending me)
    order := s.order ++ [node]
    swapped := s.swapped ++ [s.thread node] }

/-- `q->head = node` -/
def storeHead (node : Node) : Shared :=
  { s with
    head := some node
    stage := update s.stage node .linked }

/-- `prev->next = node` -/
def link (prev node : Node) : Shared :=
  { s with
    next := update s.next prev (some node)
    stage := update s.stage node .linked }

def adopt : Shared := { s with shadowHead := s.head, front := .moving }

def clearHead : Shared := { s with head := none, front := .atShadow }

def clearShadow : Shared := { s with shadowHead := none, front := .cut }

/-- `q->shadow_head = dequeued->next` -/
def advance (dequeued : Node) : Shared :=
  { s with
    shadowHead := s.next dequeued
    stage := update s.stage dequeued .held
    front := .atShadow
    order := s.order.tail
    taken := s.taken ++ [s.thread dequeued] }

def finish (dequeued : Node) : Shared :=
  { s with
    tail := none
    stage := update s.stage dequeued .held
    front := .atHead
    order := s.order.tail
    taken := s.taken ++ [s.thread dequeued] }

def unlink (dequeued : Node) : Shared :=
  { s with next := update s.next dequeued none }

def record : Result → Shared
  | .dequeued (some t) => { s with returned := s.returned ++ [t] }
  | .dequeued none => s
  | .enqueued => s

end Shared

def swapped (prev : Option Node) (node : Node) : Pc :=
  match prev with
  | none => .eHead node
  | some prev => .eLink prev node

inductive Act (consumer me : Nat) : Shared → Pc → Seen Op Result → Shared → Pc → Prop where
  | ret {s : Shared} {result : Result} :
      Act consumer me s (.done result) (.ret result) (s.record result) .idle
  | enqueue {s : Shared} (t : Task) :
      Act consumer me s .idle (.call (.enqueue t)) s (.eAlloc t)
  | alloc {s : Shared} {t : Task} (node : Node) : s.stage node = .pool →
      Act consumer me s (.eAlloc t) .silent (s.setStage node (.fresh me)) (.eFill t node)
  | fill {s : Shared} {t : Task} {node : Node} :
      Act consumer me s (.eFill t node) .silent (s.fill node t) (.eSwap node)
  | swap {s : Shared} {node : Node} :
      Act consumer me s (.eSwap node) .silent (s.swap me node) (swapped s.tail node)
  | storeHead {s : Shared} {node : Node} :
      Act consumer me s (.eHead node) .silent (s.storeHead node) (.done .enqueued)
  | link {s : Shared} {prev node : Node} :
      Act consumer me s (.eLink prev node) .silent (s.link prev node) (.done .enqueued)
  | dequeue {s : Shared} : me = consumer →
      Act consumer me s .idle (.call .dequeue) s .dShadow
  | noShadow {s : Shared} : s.shadowHead = none →
      Act consumer me s .dShadow .silent s .dHead
  | shadow {s : Shared} : s.shadowHead ≠ none →
      Act consumer me s .dShadow .silent s .dTake
  | noHead {s : Shared} : s.head = none →
      Act consumer me s .dHead .silent s (.done (.dequeued none))
  | head {s : Shared} : s.head ≠ none →
      Act consumer me s .dHead .silent s .dAdopt
  | adopt {s : Shared} : Act consumer me s .dAdopt .silent s.adopt .dClear
  | clear {s : Shared} : Act consumer me s .dClear .silent s.clearHead .dTake
  | take {s : Shared} {dequeued : Node} : s.shadowHead = some dequeued →
      Act consumer me s .dTake .silent s (.dNext dequeued)
  | takeNone {s : Shared} : s.shadowHead = none →
      Act consumer me s .dTake .silent s (.done (.dequeued none))
  | next {s : Shared} {dequeued : Node} : s.next dequeued ≠ none →
      Act consumer me s (.dNext dequeued) .silent s (.dStep dequeued)
  | noNext {s : Shared} {dequeued : Node} : s.next dequeued = none →
      Act consumer me s (.dNext dequeued) .silent s (.dLast dequeued)
  | step {s : Shared} {dequeued : Node} :
      Act consumer me s (.dStep dequeued) .silent (s.advance dequeued) (.dUnlink dequeued)
  | last {s : Shared} {dequeued : Node} :
      Act consumer me s (.dLast dequeued) .silent s.clearShadow (.dCas dequeued)
  | cas {s : Shared} {dequeued : Node} : s.tail = some dequeued →
      Act consumer me s (.dCas dequeued) .silent (s.finish dequeued) (.dThread dequeued)
  | casFail {s : Shared} {dequeued : Node} : s.tail ≠ some dequeued →
      Act consumer me s (.dCas dequeued) .silent s (.dSpin dequeued)
  | spin {s : Shared} {dequeued : Node} : s.next dequeued = none →
      Act consumer me s (.dSpin dequeued) .silent s (.dSpin dequeued)
  | spun {s : Shared} {dequeued : Node} : s.next dequeued ≠ none →
      Act consumer me s (.dSpin dequeued) .silent s (.dSpun dequeued)
  | stepOn {s : Shared} {dequeued : Node} :
      Act consumer me s (.dSpun dequeued) .silent (s.advance dequeued) (.dUnlink dequeued)
  | unlink {s : Shared} {dequeued : Node} :
      Act consumer me s (.dUnlink dequeued) .silent (s.unlink dequeued) (.dThread dequeued)
  | thread {s : Shared} {dequeued : Node} :
      Act consumer me s (.dThread dequeued) .silent s (.dFree dequeued (s.thread dequeued))
  | free {s : Shared} {dequeued : Node} {retval : Task} :
      Act consumer me s (.dFree dequeued retval) .silent (s.setStage dequeued .pool)
        (.done (.dequeued (some retval)))

abbrev System := Config Shared Pc

def initial : System := ⟨.empty, fun _ => .idle⟩

abbrev Step (consumer : Nat) := Config.Step (Act consumer)

/-- The behaviour of a queue in which a dequeue may also miss what is there. -/
inductive Fifo (misses : Bool) : List Task → Op → Result → List Task → Prop where
  | enqueue {q : List Task} {t : Task} : Fifo misses q (.enqueue t) .enqueued (q ++ [t])
  | dequeue {q : List Task} {t : Task} : Fifo misses (t :: q) .dequeue (.dequeued (some t)) q
  | empty : Fifo misses [] .dequeue (.dequeued none) []
  | miss {q : List Task} : misses = true → Fifo misses q .dequeue (.dequeued none) q

end Qthreads.Nemesis
