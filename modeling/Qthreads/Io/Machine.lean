import Qthreads.Io.Calls
import Qthreads.Lib.Chain
import Qthreads.Lib.Run

namespace Qthreads.Io

open Lib
open Function (update)

/-! `io.c`

Any number of callers of `qt_blocking_subsystem_enqueue`, the proxy threads they create, and the one
that shuts the subsystem down.  `theQueue` and `io_worker_count` are only changed with the lock held,
so what is done to them in one hold of the lock is one step, except that a proxy may start to run
between its creation and the moment its creator counts it. -/

abbrev Node := Nat

/-- Where a caller of `qt_blocking_subsystem_enqueue` is. -/
inductive Caller where
  | idle
  /-- `QTHREAD_LOCK(&theQueue.lock)` with this job -/
  | enqueue (job : Node)
  /-- `pthread_create` in `qt_blocking_subsystem_spawnworker`, with the lock held -/
  | spawn
  /-- `qthread_incr(&io_worker_count, 1)`, with the lock held -/
  | count
deriving DecidableEq

/-- Where a proxy thread is, with its `item`; the number says which of all dequeues `item` is
from. -/
inductive Proxy where
  /-- `while (proxy_exit == 0)` -/
  | test
  /-- `QTHREAD_LOCK(&theQueue.lock)` in `qt_process_blocking_call` -/
  | process
  /-- in `pthread_cond_timedwait`, where the lock is not held -/
  | wait
  /-- `switch(item->op)` -/
  | make (item : Node) (number : Nat)
  /-- `qt_threadqueue_enqueue` -/
  | requeue (item : Node) (number : Nat)
  /-- `FREE_SYSCALLJOB(item)` -/
  | free (item : Node)
  /-- behind `pthread_exit` -/
  | left
deriving DecidableEq

inductive Answer where
  | timedOut
  | invalid
  /-- a signal, or nothing at all -/
  | woken
deriving DecidableEq

/-- Where `qt_blocking_subsystem_internal_stopwork` is. -/
inductive Stopwork where
  | idle
  /-- `while (io_worker_count != 0)` -/
  | spin
  /-- `QTHREAD_LOCK(&theQueue.lock)` -/
  | lock
  | done

structure Entry where
  node : Node
  job : Job

/-- `entered`, `took`, `made` and `back` are histories: the jobs that entered the queue; the node and
the proxy of each dequeue; the calls, with the number of the dequeue they were made for; the tasks put
back, with this number and the shepherd whose ready queue it was. -/
structure State where
  next : Node → Option Node
  job : Node → Job
  ret : Node → Word
  head : Option Node
  tail : Option Node
  length : Int
  lock : Option Nat
  ioWorkerCount : Int
  ioWorkerMax : Int
  proxyExit : Bool
  stopwork : Stopwork
  callers : Nat → Caller
  proxies : List Proxy
  entered : List Entry
  took : List (Node × Nat)
  made : List (Nat × Call)
  back : List (Nat × Nat × Task)

inductive Label where
  /-- A task fills in a node and its worker calls `qt_blocking_subsystem_enqueue` with it. -/
  | call (caller : Nat) (node : Node) (job : Job)
  | append (caller : Nat)
  | create (caller : Nat)
  | count (caller : Nat)
  | test (proxy : Nat)
  | process (proxy : Nat)
  | wake (proxy : Nat) (answer : Answer)
  | make (proxy : Nat) (answer : Word)
  | requeue (proxy : Nat)
  /-- `qt_mpool_free` links the node into its pool through the node's first word. -/
  | free (proxy : Nat) (link : Option Node)
  | shutdown
  | spin
  | stop

/-- `qt_internal_get_env_num`, where `setting` is the number the variable spells. -/
def getEnvNum (setting : Option Word) (dflt zerodflt : Word) : Word :=
  match setting with
  | none => dflt
  | some tmp => if tmp = 0 then zerodflt else tmp

/-- `qt_blocking_subsystem_init`, with the setting of `MAX_IO_WORKERS`; what is in the memory of the
nodes does not matter. -/
def initial (setting : Option Word) (next : Node → Option Node) (job : Node → Job)
    (ret : Node → Word) : State where
  next := next
  job := job
  ret := ret
  head := none
  tail := none
  length := 0
  lock := none
  ioWorkerCount := 0
  ioWorkerMax := (getEnvNum setting 10 1).toInt
  proxyExit := false
  stopwork := .idle
  callers := fun _ => .idle
  proxies := []
  entered := []
  took := []
  made := []
  back := []

def Proxy.item : Proxy → Option Node
  | make item _ => some item
  | requeue item _ => some item
  | free item => some item
  | _ => none

namespace State

variable (s : State)

def setCaller (caller : Nat) (here : Caller) : State :=
  { s with callers := update s.callers caller here }

def setProxy (proxy : Nat) (here : Proxy) : State :=
  { s with proxies := s.proxies.set proxy here }

def link (node : Node) : State :=
  { s with
    tail := some node
    head := match s.tail with
      | none => some node
      | some _ => s.head
    next := match s.tail with
      | none => s.next
      | some prev => update s.next prev (some node)
    length := s.length + 1
    entered := s.entered ++ [⟨node, s.job node⟩] }

/-- The list without its first node, `item`. -/
def unlink (proxy : Nat) (item : Node) : State :=
  { s with
    head := s.next item
    tail := if s.tail = some item then s.next item else s.tail
    length := s.length - 1
    took := s.took ++ [(item, proxy)] }

/-- What follows the append in `qt_blocking_subsystem_enqueue`. -/
def recruit (caller : Nat) : State :=
  if s.ioWorkerCount < s.length ∧ s.ioWorkerCount < s.ioWorkerMax then
    { s.setCaller caller .spawn with lock := some caller }
  else s.setCaller caller .idle

/-- The loop of `qt_process_blocking_call` with the lock held. -/
def process (proxy : Nat) : State :=
  match s.head with
  | none => s.setProxy proxy .wait
  | some item => (s.unlink proxy item).setProxy proxy (.make item s.took.length)

def timedOut (proxy : Nat) : State :=
  match s.head with
  | none => { s.setProxy proxy .left with ioWorkerCount := s.ioWorkerCount - 1 }
  | some _ => s.setProxy proxy .test

/-- `item->next = NULL` and the `switch`. -/
def make (item : Node) (number : Nat) (answer : Word) : State :=
  { s with
    next := update s.next item none
    ret := update s.ret item ((s.job item).result (s.ret item) answer)
    made := s.made ++ (s.job item).dispatch.map (number, ·) }

def fill (caller : Nat) (node : Node) (job : Job) : State :=
  { s.setCaller caller (.enqueue node) with
    next := update s.next node none
    job := update s.job node job }

def create (caller : Nat) : State :=
  { s.setCaller caller .count with proxies := s.proxies ++ [.test] }

/-- `qthread_incr(&io_worker_count, 1)` and `QTHREAD_UNLOCK` -/
def count (caller : Nat) : State :=
  { s.setCaller caller .idle with lock := none, ioWorkerCount := s.ioWorkerCount + 1 }

/-- `qt_threadqueue_enqueue` of the item's task. -/
def requeue (item : Node) (number : Nat) : State :=
  { s with back := s.back ++ [(number, (s.job item).thread.shepherd, (s.job item).thread)] }

def step : Label → Option State
  | .call caller node job =>
    match s.callers caller with
    | .idle => some (s.fill caller node job)
    | _ => none
  | .append caller =>
    match s.callers caller, s.lock with
    | .enqueue node, none => some ((s.link node).recruit caller)
    | _, _ => none
  | .create caller =>
    match s.callers caller with
    | .spawn => some (s.create caller)
    | _ => none
  | .count caller =>
    match s.callers caller with
    | .count => some (s.count caller)
    | _ => none
  | .test proxy =>
    match s.proxies[proxy]? with
    | some .test => some (s.setProxy proxy (if s.proxyExit then .left else .process))
    | _ => none
  | .process proxy =>
    match s.proxies[proxy]?, s.lock with
    | some .process, none => some (s.process proxy)
    | _, _ => none
  | .wake proxy answer =>
    match s.proxies[proxy]?, s.lock with
    | some .wait, none => some (if answer = .timedOut then s.timedOut proxy else s.process proxy)
    | _, _ => none
  | .make proxy answer =>
    match s.proxies[proxy]? with
    | some (.make item number) =>
      some ((s.make item number answer).setProxy proxy (.requeue item number))
    | _ => none
  | .requeue proxy =>
    match s.proxies[proxy]? with
    | some (.requeue item number) => some ((s.requeue item number).setProxy proxy (.free item))
    | _ => none
  | .free proxy link =>
    match s.proxies[proxy]? with
    | some (.free item) => some
        { s.setProxy proxy .test with next := update s.next item link }
    | _ => none
  | .shutdown =>
    match s.stopwork with
    | .idle => some { s with proxyExit := true, stopwork := .spin }
    | _ => none
  | .spin =>
    match s.stopwork with
    | .spin => some (if s.ioWorkerCount = 0 then { s with stopwork := .lock } else s)
    | _ => none
  | .stop =>
    match s.stopwork, s.lock with
    | .lock, none => some { s with stopwork := .done }
    | _, _ => none

def Step (before : State) (label : Label) (after : State) : Prop := before.step label = some after

def alive : Nat := s.proxies.countP (· ≠ .left)

def waiting : List Node := (s.entered.drop s.took.length).map Entry.node

def callsOf (number : Nat) : List Call := (s.made.filter (·.1 = number)).map (·.2)

def backOf (number : Nat) : List (Nat × Task) := (s.back.filter (·.1 = number)).map (·.2)

def Making (number : Nat) : Prop := ∃ here ∈ s.proxies, ∃ item, here = .make item number

def Requeueing (number : Nat) : Prop := ∃ here ∈ s.proxies, ∃ item, here = .requeue item number

structure Right : Prop where
  counts : s.lock = none → s.ioWorkerCount = s.alive
  ends : s.stopwork = .spin → s.lock = none → (∀ here ∈ s.proxies, here = .left) →
    s.step .spin = some { s with stopwork := .lock }
  listed : Chain s.next s.head s.waiting none
  tail : s.tail = s.waiting.getLast?
  length : s.length = s.waiting.length
  order : s.took.map Prod.fst <+: s.entered.map Entry.node
  makes : ∀ (number : Nat) (entry : Entry), s.entered[number]? = some entry →
    (number < s.took.length ∧ ¬ s.Making number → s.callsOf number = [entry.job.named]) ∧
    (s.took.length ≤ number ∨ s.Making number → s.callsOf number = [])
  backs : ∀ (number : Nat) (entry : Entry), s.entered[number]? = some entry →
    (number < s.took.length ∧ ¬ s.Making number ∧ ¬ s.Requeueing number →
      s.backOf number = [(entry.job.thread.shepherd, entry.job.thread)]) ∧
    (s.took.length ≤ number ∨ s.Making number ∨ s.Requeueing number → s.backOf number = [])
  works : ∀ (proxy number : Nat) (item : Node), s.proxies[proxy]? = some (.make item number) ∨
    s.proxies[proxy]? = some (.requeue item number) → s.took[number]? = some (item, proxy)
  serves : s.proxyExit = false → s.lock = none → s.waiting ≠ [] → 0 < s.alive

def InUse (node : Node) : Prop :=
  node ∈ s.waiting ∨ (∃ here ∈ s.proxies, here.item = some node) ∨
    ∃ caller, s.callers caller = .enqueue node

/-- A job's node is not in use when the job is made, its `op` has a case that ends with a `break`, and
no proxy makes its test of `proxy_exit` after this is set. -/
def Clear : Label → Prop
  | .call _ node job => ¬ s.InUse node ∧ job.Ended
  | .test _ => s.proxyExit = false
  | _ => True

end State

end Qthreads.Io
