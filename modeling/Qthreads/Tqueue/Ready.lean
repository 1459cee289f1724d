import Qthreads.Tqueue.Filters
import Qthreads.Tqueue.Types

namespace Qthreads.Tqueue

open Lib

/-! `lifo_threadqueues.c`, `mutexfifo_threadqueues.c`, `mtsfifo_threadqueues.c` and
`nemesis_threadqueues.c`, whose `NEMESIS_queue` is the one of `queue.c`, with one caller at a time. -/

structure Lifo where
  nodes : Nodes
  stack : Option Node

/-- The queue of `mutexfifo_threadqueues.c` and of `mtsfifo_threadqueues.c`; the task of the first
node was dequeued. -/
structure Fifo where
  nodes : Nodes
  head : Node
  tail : Node

namespace Lifo

def enqueue (q : Lifo) (node : Node) (t : Task) : Lifo :=
  ⟨(q.nodes.alloc node t).setNext node q.stack, some node⟩

def last (next : Node → Option Node) : Nat → Node → Option Node
  | 0, _ => none
  | fuel + 1, cursor =>
    match next cursor with
    | none => some cursor
    | some following => last next fuel following

def enqueueYielded (fuel : Nat) (q : Lifo) (node : Node) (t : Task) : Option Lifo :=
  match q.stack with
  | none => some (q.enqueue node t)
  | some cursor => (last q.nodes.next fuel cursor).map fun cursor =>
    ⟨(q.nodes.alloc node t).setNext cursor (some node), q.stack⟩

def dequeue (q : Lifo) : Option Task × Lifo :=
  match q.stack with
  | none => (none, q)
  | some node => (some (q.nodes.thread node), ⟨q.nodes.free node, q.nodes.next node⟩)

end Lifo

namespace Fifo

/-- `qt_threadqueue_enqueue` of `mutexfifo_threadqueues.c` -/
def enqueue (q : Fifo) (node : Node) (t : Task) : Fifo :=
  ⟨(q.nodes.alloc node t).setNext q.tail (some node), q.head, node⟩

/-- `qt_threadqueue_dequeue` of `mutexfifo_threadqueues.c` -/
def dequeue (q : Fifo) : Option Task × Fifo :=
  match q.nodes.next q.head with
  | none => (none, q)
  | some newHead => (some (q.nodes.thread newHead), { q with head := newHead })

/-- `qt_threadqueue_enqueue` of `mtsfifo_threadqueues.c`, with the node that it has allocated. -/
def mtsEnqueue : Nat → Fifo → Node → Option Fifo
  | 0, _, _ => none
  | fuel + 1, q, node =>
    match q.nodes.next q.tail with
    | some next => mtsEnqueue fuel { q with tail := next } node
    | none => some ⟨q.nodes.setNext q.tail (some node), q.head, node⟩

/-- `qt_threadqueue_dequeue` of `mtsfifo_threadqueues.c` -/
def mtsDequeue : Nat → Fifo → Option (Option Task × Fifo)
  | 0, _ => none
  | fuel + 1, q =>
    match q.nodes.next q.head with
    | none => some (none, q)
    | some next =>
      if q.head = q.tail then mtsDequeue fuel { q with tail := next }
      else some (some (q.nodes.thread next), ⟨q.nodes.free q.head, next, q.tail⟩)

end Fifo

structure Sifting where
  nodes : Nodes
  first : Option Node
  tail : Option Node

/-- `*ptr = curs->next;` and the `FREE_TQNODE`; the tail becomes the node that `ptr` is in when the
last node goes. -/
def Sifting.unlink (w : Sifting) (ptr : Option Node) (curs : Node) : Sifting where
  nodes := (match ptr with
    | none => w.nodes
    | some node => w.nodes.setNext node (w.nodes.next curs)).free curs
  first := match ptr with
    | none => w.nodes.next curs
    | some _ => w.first
  tail := if w.nodes.next curs = none then ptr else w.tail

/-- The loop of the filters over a list; `ptr` is the pointer to the first node or that in a node.
Also the tasks that were asked about, the latest first. -/
def filterLoop (f : Filter Task) : Nat → List Task → Sifting → Option Node → Option Node →
    Option (List Task × Sifting)
  | _, asked, w, _, none => some (asked, w)
  | 0, _, _, _, some _ => none
  | fuel + 1, asked, w, ptr, some curs =>
    let t := w.nodes.thread curs
    match f asked t with
    | .ignoreAndContinue => filterLoop f fuel (t :: asked) w (some curs) (w.nodes.next curs)
    | .ignoreAndStop => some (t :: asked, w)
    | .removeAndContinue =>
      filterLoop f fuel (t :: asked) (w.unlink ptr curs) ptr (w.nodes.next curs)
    | .removeAndStop => some (t :: asked, w.unlink ptr curs)

/-- `qt_threadqueue_filter` of `lifo_threadqueues.c`, which has no tail. -/
def Lifo.filter (f : Filter Task) (fuel : Nat) (q : Lifo) : Option (List Task × Lifo) :=
  (filterLoop f fuel [] ⟨q.nodes, q.stack, none⟩ none q.stack).map fun (asked, w) =>
    (asked, ⟨w.nodes, w.first⟩)

/-- `qt_threadqueue_filter` of `mutexfifo_threadqueues.c` and of `mtsfifo_threadqueues.c` -/
def Fifo.filter (f : Filter Task) (fuel : Nat) (q : Fifo) : Option (List Task × Fifo) := do
  let (asked, w) ← filterLoop f fuel [] ⟨q.nodes, some q.head, some q.tail⟩ (some q.head)
    (q.nodes.next q.head)
  let tail ← w.tail
  return (asked, ⟨w.nodes, q.head, tail⟩)

namespace Nemesis

/-- `qt_internal_NEMESIS_dequeue_st` from `retval` on. -/
def takeSt (q : Nemesis) (retval : Node) : Nemesis :=
  match q.nodes.next retval with
  | some next => { q with nodes := q.nodes.setNext retval none, shadowHead := some next }
  | none => { q with shadowHead := none, tail := if q.tail = some retval then none else q.tail }

def dequeueSt (q : Nemesis) : Option Node × Nemesis :=
  match q.shadowHead with
  | some retval => (some retval, q.takeSt retval)
  | none =>
    match q.head with
    | none => (none, q)
    | some retval => (some retval, q.adopt.takeSt retval)

/-- Nodes from a first to a last one are put behind those of `tmp`. -/
def putBack (nodes : Nodes) (head tail : Option Node) (first last : Option Node) :
    Nodes × Option Node × Option Node :=
  match tail with
  | none => (nodes, first, last)
  | some prev => (nodes.setNext prev first, head, last)

/-- The loop of `qt_threadqueue_filter`, with the head and the tail of `tmp`. -/
def filterLoop (f : Filter Task) : Nat → List Task → Nemesis → Option Node → Option Node →
    Option (List Task × Nemesis × Option Node × Option Node)
  | 0, _, _, _, _ => none
  | fuel + 1, asked, q, head, tail =>
    match q.dequeueSt with
    | (none, q) => some (asked, q, head, tail)
    | (some curs, q) =>
      let t := q.nodes.thread curs
      let (nodes, head', tail') := putBack q.nodes head tail (some curs) (some curs)
      match f asked t with
      | .ignoreAndContinue => filterLoop f fuel (t :: asked) { q with nodes } head' tail'
      | .ignoreAndStop => some (t :: asked, { q with nodes }, head', tail')
      | .removeAndContinue =>
        filterLoop f fuel (t :: asked) { q with nodes := q.nodes.free curs } head tail
      | .removeAndStop => some (t :: asked, { q with nodes := q.nodes.free curs }, head, tail)

/-- `qt_threadqueue_filter` of `nemesis_threadqueues.c` -/
def filter (f : Filter Task) (fuel : Nat) (q : Nemesis) : Option (List Task × Nemesis) :=
  (filterLoop f fuel [] q none none).map fun (asked, q, head, tail) =>
    let (nodes, head, tail) := match q.head with
      | none => (q.nodes, head, tail)
      | some first => putBack q.nodes head tail (some first) q.tail
    (asked, { q with nodes, head, tail, shadowHead := none })

end Nemesis

inductive Kind where
  | nemesis
  | lifo
  | mutexfifo
  | mtsfifo
deriving DecidableEq

inductive Ready where
  | nemesis (q : Nemesis)
  | lifo (q : Lifo)
  | mutexfifo (q : Fifo)
  | mtsfifo (q : Fifo)

inductive Call where
  | enqueue (t : Task) (node : Node)
  | enqueueYielded (t : Task) (node : Node)
  | dequeue

namespace Ready

/-- `qt_threadqueue_new`; a queue with a first node allocates it. -/
def new (nodes : Nodes) (node : Node) (t : Task) : Kind → Ready
  | .nemesis => .nemesis ⟨nodes, none, none, 0, none⟩
  | .lifo => .lifo ⟨nodes, none⟩
  | .mutexfifo => .mutexfifo ⟨nodes.alloc node t, node, node⟩
  | .mtsfifo => .mtsfifo ⟨nodes.alloc node t, node, node⟩

def nodes : Ready → Nodes
  | nemesis q => q.nodes
  | lifo q => q.nodes
  | mutexfifo q => q.nodes
  | mtsfifo q => q.nodes

def call (fuel : Nat) : Ready → Call → Option (Option Task × Ready)
  | nemesis q, .enqueue t node => some (none, .nemesis (q.enqueue node t))
  | nemesis q, .enqueueYielded t node => some (none, .nemesis (q.enqueue node t))
  | nemesis q, .dequeue => q.dequeue.map fun (t, q) => (t, .nemesis q)
  | lifo q, .enqueue t node => some (none, .lifo (q.enqueue node t))
  | lifo q, .enqueueYielded t node => (q.enqueueYielded fuel node t).map fun q => (none, .lifo q)
  | lifo q, .dequeue => some (q.dequeue.1, .lifo q.dequeue.2)
  | mutexfifo q, .enqueue t node => some (none, .mutexfifo (q.enqueue node t))
  | mutexfifo q, .enqueueYielded t node => some (none, .mutexfifo (q.enqueue node t))
  | mutexfifo q, .dequeue => some (q.dequeue.1, .mutexfifo q.dequeue.2)
  | mtsfifo q, .enqueue t node =>
    (Fifo.mtsEnqueue fuel { q with nodes := q.nodes.alloc node t } node).map fun q => (none, .mtsfifo q)
  | mtsfifo q, .enqueueYielded t node =>
    (Fifo.mtsEnqueue fuel { q with nodes := q.nodes.alloc node t } node).map fun q => (none, .mtsfifo q)
  | mtsfifo q, .dequeue => (Fifo.mtsDequeue fuel q).map fun (t, q) => (t, .mtsfifo q)

/-- `qt_threadqueue_filter`, with the tasks that were asked about, in order. -/
def filter (f : Filter Task) (fuel : Nat) : Ready → Option (List Task × Ready)
  | nemesis q => (q.filter f fuel).map fun (asked, q) => (asked.reverse, .nemesis q)
  | lifo q => (q.filter f fuel).map fun (asked, q) => (asked.reverse, .lifo q)
  | mutexfifo q => (q.filter f fuel).map fun (asked, q) => (asked.reverse, .mutexfifo q)
  | mtsfifo q => (q.filter f fuel).map fun (asked, q) => (asked.reverse, .mtsfifo q)

/-- `ALLOC_TQNODE` returns a node that is not in use. -/
def Unused (q : Ready) : Call → Prop
  | .enqueue _ node => q.nodes.allocated node = false
  | .enqueueYielded _ node => q.nodes.allocated node = false
  | .dequeue => True

def Step (q : Ready) (label : Call × Option Task) (after : Ready) : Prop :=
  q.Unused label.1 ∧ ∃ fuel, q.call fuel label.1 = some (label.2, after)

end Ready

def Kind.serve (kind : Kind) (tasks : List Task) : Call → Option Task × List Task
  | .enqueue t _ => (none, if kind = .lifo then t :: tasks else tasks ++ [t])
  | .enqueueYielded t _ => (none, tasks ++ [t])
  | .dequeue => (tasks.head?, tasks.tail)

def Kind.Serves (kind : Kind) (tasks : List Task) (label : Call × Option Task) (after : List Task) :
    Prop :=
  kind.serve tasks label.1 = (label.2, after)

/-- Every later sequence of calls returns, with what it returns on a queue of these tasks. -/
def Ready.Behaves (kind : Kind) (q : Ready) (tasks : List Task) : Prop :=
  ∀ labels after, Run Ready.Step q labels after →
    (∃ left, Run kind.Serves tasks labels left) ∧
      ∀ call, after.Unused call → ∃ result last, after.Step (call, result) last

/-- The filter asks about the tasks in turn up to the first stop, and leaves a queue that behaves
like one of the tasks that it is to keep. -/
def Ready.Filters (kind : Kind) (q : Ready) (tasks : List Task) (f : Filter Task) : Prop :=
  ∀ fuel, tasks.length < fuel → ∃ after, q.filter f fuel = some (f.sieve.asks [] tasks, after) ∧
    after.Behaves kind (f.sieve.kept [] tasks)

end Qthreads.Tqueue
