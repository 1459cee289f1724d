import Qthreads.Lib.Chain
import Qthreads.Lib.Drain
import Qthreads.Lib.Run

namespace Qthreads.Tqueue

open Lib
open Function (update)

/-! `queue.c` -/

abbrev Node := Nat

/-- What is read of a `qthread_t`; no `target` is `NO_SHEPHERD`. -/
structure Task where
  id : Nat
  unstealable : Bool
  shepherd : Nat
  target : Option Nat

structure Launch where
  task : Task
  shepherd : Nat

def launch (t : Task) (curShep : Nat) : Launch :=
  if t.unstealable = true ∧ t.shepherd ≠ curShep then ⟨t, t.shepherd⟩ else ⟨t, curShep⟩

structure Nodes where
  next : Node → Option Node
  thread : Node → Task
  allocated : Node → Bool

namespace Nodes

variable (nodes : Nodes)

/-- `ALLOC_TQNODE`, with the two stores that follow. -/
def alloc (node : Node) (t : Task) : Nodes where
  next := update nodes.next node none
  thread := update nodes.thread node t
  allocated := update nodes.allocated node true

def setNext (node : Node) (next : Option Node) : Nodes :=
  { nodes with next := update nodes.next node next }

/-- `FREE_TQNODE` -/
def free (node : Node) : Nodes :=
  { nodes with allocated := update nodes.allocated node false }

end Nodes

structure Nosync where
  nodes : Nodes
  head : Option Node
  tail : Option Node

structure Nemesis where
  nodes : Nodes
  head : Option Node
  tail : Option Node
  length : Nat
  shadowHead : Option Node

structure Capped where
  members : Nat → Option Task
  membercount : Nat
  maxmembers : Nat
  busy : Nat

namespace Nosync

def enqueue (q : Nosync) (node : Node) (t : Task) : Nosync :=
  let nodes := q.nodes.alloc node t
  match q.tail with
  | none => ⟨nodes, some node, some node⟩
  | some tail => ⟨nodes.setNext tail (some node), q.head, some node⟩

def dequeue (q : Nosync) : Option (Option Task × Nosync) :=
  match q.head with
  | none => some (none, q)
  | some node =>
    some (some (q.nodes.thread node), ⟨q.nodes.free node, q.nodes.next node, q.tail⟩)

end Nosync

namespace Nemesis

def enqueue (q : Nemesis) (node : Node) (t : Task) : Nemesis :=
  let nodes := q.nodes.alloc node t
  match q.tail with
  | none => { q with nodes := nodes, head := some node, tail := some node }
  | some prev => { q with nodes := nodes.setNext prev (some node), tail := some node }

def adopt (q : Nemesis) : Nemesis := { q with shadowHead := q.head, head := none }

def advance (q : Nemesis) (dequeued next : Node) : Nemesis :=
  { q with nodes := (q.nodes.setNext dequeued none).free dequeued, shadowHead := some next }

def finish (q : Nemesis) (dequeued : Node) : Nemesis :=
  { q with nodes := q.nodes.free dequeued, shadowHead := none, tail := none }

/-- The second half of `qthread_queue_internal_NEMESIS_dequeue`; the spin on `next` does not end when
nobody else runs. -/
def takeOff (q : Nemesis) (dequeued : Node) : Option (Option Task × Nemesis) :=
  match q.nodes.next dequeued with
  | some next => some (some (q.nodes.thread dequeued), q.advance dequeued next)
  | none =>
    if q.tail = some dequeued then some (some (q.nodes.thread dequeued), q.finish dequeued)
    else none

def dequeue (q : Nemesis) : Option (Option Task × Nemesis) :=
  match q.shadowHead with
  | some dequeued => q.takeOff dequeued
  | none =>
    match q.head with
    | none => some (none, q)
    | some dequeued => q.adopt.takeOff dequeued

def setLength (q : Nemesis) (length : Nat) : Nemesis := { q with length := length }

end Nemesis

namespace Capped

/-- `qthread_queue_internal_capped_enqueue`; a failed assertion aborts. -/
def enqueue (q : Capped) (t : Task) : Option Capped :=
  if q.maxmembers ≤ q.membercount then some q
  else
    let offset := q.membercount
    if q.maxmembers ≤ offset then
      some { q with membercount := q.membercount + 1, members := update q.members offset (some t) }
    else none

def find (members : Nat → Option Task) : Nat → Nat → Option (Nat × Task)
  | 0, _ => none
  | count + 1, i =>
    match members i with
    | some t => some (i, t)
    | none => find members count (i + 1)

/-- `qthread_queue_internal_capped_dequeue`; it spins while another call is busy. -/
def dequeue (q : Capped) : Option (Option Task × Capped) :=
  if q.busy ≠ 0 then none
  else
    match find q.members q.membercount 0 with
    | none => some (none, q)
    | some (i, t) => some (some t, { q with members := update q.members i none })

/-- The members that `qthread_queue_release_all` launches: those below the member count as it is
after the reset. -/
def copied (members : Nat → Option Task) (count : Nat) : List Task :=
  (List.range count).filterMap members

/-- The `CAPPED` case of `qthread_queue_release_all`. -/
def releaseAll (q : Capped) : Option (List Task × Capped) :=
  if q.busy ≠ 0 then none
  else
    let membercount := if q.membercount = q.maxmembers then 0 else q.membercount
    some (copied q.members membercount,
      { q with
        members := fun i => if i < q.membercount then none else q.members i
        membercount := membercount })

end Capped

/-- `struct qthread_queue_s`, without the type that traps. -/
inductive Queue where
  | nosync (q : Nosync)
  | nemesis (q : Nemesis)
  | nemesisLength (q : Nemesis)
  | capped (q : Capped)

namespace Queue

/-- `qthread_queue_create`; the members of a capped queue are whatever `MALLOC` gives. -/
def create (nodes : Nodes) (members : Nat → Option Task) (flags length : Nat) : Queue :=
  if flags.testBit 1 then .nemesis ⟨nodes, none, none, 0, none⟩
  else if flags.testBit 2 then .nemesisLength ⟨nodes, none, none, 0, none⟩
  else if flags.testBit 3 then .capped ⟨members, 0, length, 0⟩
  else .nosync ⟨nodes, none, none⟩

def length : Queue → Nat
  | .nemesisLength q => q.length
  | .capped q => q.membercount
  | _ => 0

def enqueue (node : Node) (t : Task) : Queue → Option Queue
  | .nosync q => some (.nosync (q.enqueue node t))
  | .nemesis q => some (.nemesis (q.enqueue node t))
  | .nemesisLength q => some (.nemesisLength ((q.enqueue node t).setLength (q.length + 1)))
  | .capped q => (q.enqueue t).map .capped

/-- The `switch` of `qthread_queue_release_one`. -/
def dequeue : Queue → Option (Option Task × Queue)
  | .nosync q => q.dequeue.map fun taken => (taken.1, .nosync taken.2)
  | .nemesis q => q.dequeue.map fun taken => (taken.1, .nemesis taken.2)
  | .nemesisLength q =>
    q.dequeue.map fun taken => (taken.1, .nemesisLength (taken.2.setLength (taken.2.length - 1)))
  | .capped q => q.dequeue.map fun taken => (taken.1, .capped taken.2)

/-- The `switch` of `qthread_queue_release_all`, with the tasks it launches. -/
def dequeueAll (fuel : Nat) : Queue → Option (List Task × Queue)
  | .nosync q => (drain Nosync.dequeue fuel q).map fun taken => (taken.1, .nosync taken.2)
  | .nemesis q => (drain Nemesis.dequeue fuel q).map fun taken => (taken.1, .nemesis taken.2)
  | .nemesisLength q =>
    (takeMany Nemesis.dequeue q.length q).map fun taken =>
      (taken.1, .nemesisLength (taken.2.setLength (taken.2.length - q.length)))
  | .capped q => q.releaseAll.map fun taken => (taken.1, .capped taken.2)

end Queue

/-- The queue, with the launches so far and what they should be: the tasks that wait, and the
launches of a queue that is first in, first out. -/
structure State where
  queue : Queue
  launched : List Launch
  waiting : List Task
  expected : List Launch

inductive Label where
  | join (t : Task) (node : Node)
  | releaseOne (shep : Nat)
  | releaseAll (shep : Nat)

def Queue.Unused (node : Node) : Queue → Prop
  | .nosync q => q.nodes.allocated node = false
  | .nemesis q => q.nodes.allocated node = false
  | .nemesisLength q => q.nodes.allocated node = false
  | .capped _ => True

def Queue.Room (waiting : Nat) : Queue → Prop
  | .capped q => waiting < q.maxmembers
  | _ => True

/-- What may be called: `qthread_queue_release_one` on a queue where a task waits, and
`qthread_queue_join` where there is room. -/
def Called (s : State) : Label → Prop
  | .join _ node => s.queue.Unused node ∧ s.queue.Room s.waiting.length
  | .releaseOne _ => s.waiting ≠ []
  | .releaseAll _ => True

def start (queue : Queue) : State := ⟨queue, [], [], []⟩

inductive Step : State → Label → State → Prop where
  | join {s : State} {t : Task} {node : Node} {queue : Queue} : Called s (.join t node) →
      s.queue.enqueue node t = some queue →
      Step s (.join t node) ⟨queue, s.launched, s.waiting ++ [t], s.expected⟩
  | releaseOne {s : State} {shep : Nat} {t : Task} {queue : Queue} : Called s (.releaseOne shep) →
      s.queue.dequeue = some (some t, queue) →
      Step s (.releaseOne shep) ⟨queue, s.launched ++ [launch t (t.target.getD shep)], s.waiting.tail,
        s.expected ++ s.waiting.head?.toList.map fun t => launch t (t.target.getD shep)⟩
  | releaseAll {s : State} {shep : Nat} {ts : List Task} {queue : Queue} (fuel : Nat) :
      s.queue.dequeueAll fuel = some (ts, queue) →
      Step s (.releaseAll shep) ⟨queue, s.launched ++ ts.map (launch · shep), [],
        s.expected ++ s.waiting.map (launch · shep)⟩

end Qthreads.Tqueue
