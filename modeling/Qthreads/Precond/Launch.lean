import Qthreads.Feb.Steps

namespace Qthreads.Precond

open Feb (Task ThreadState qalign)
open Feb.Steps (Op Queue Gotlock)
open Function (update)

/-! The calls of `feb.c` once more, with the `addrres` nodes of the queues and of the side list of
`qthread_gotlock_fill_inner`, and with the array of preconditions of each task.  A section under
the lock of a stripe is one step: the record found in it stays in its table until its own lock is
taken (`Feb/Removal.lean`).  Words are aligned, so that every call picks the same stripe for one.
The data that is copied is left out, since a task that was not started has no address for it. -/

/-- `waiter` of an `addrres`: a task, or, in the head of the side list, its last node. -/
inductive Waiter where
  | task (t : Task)
  | node (n : Nat)

/-- `qthread_addrstat_t`; the queues are told by their first node. -/
structure Stat where
  full : Bool
  head : Queue → Option Nat
  holder : Option Task

inductive Return where
  | spawn
  | launch (head tail : Nat) (remove : Option UInt64)
deriving DecidableEq

/-- Where a task is, with the variables it still needs; `outer` is the `gotlock` function that
began and `tasks` is `*precond_tasks`. -/
inductive Pc where
  | idle
  | parked
  | alone (op : Op)
  | release (maddr : UInt64)
  | blocked (maddr : UInt64)
  | filling (outer : Gotlock) (maddr : UInt64) (tasks : Option Nat)
  | emptying (outer : Gotlock) (maddr : UInt64) (tasks : Option Nat)
  | unlocking (outer : Gotlock) (maddr : UInt64) (tasks : Option Nat)
  | launch (tasks : Nat) (remove : Option UInt64)
  | next (head tail : Nat) (remove : Option UInt64)
  | check (t : Task) (return_ : Return)
  | checking (t : Task) (this : UInt64) (return_ : Return)
  | ready (t : Task) (return_ : Return)
  | handled (head tail : Nat) (remove : Option UInt64)
  | remove (maddr : UInt64)
deriving DecidableEq

inductive Event where
  | observed (slot : Nat) (this : UInt64)
  | freed
  | ready
deriving DecidableEq

/-- `preconds` is the array of a task: its slot 0 and the words after it.  The fields from
`spawned` on are not in the code: what a task was spawned with and what happened to it, and, for
each task that runs a `gotlock` function, the tasks and the nodes it took into its side list and
those it was done with. -/
structure State where
  stat : UInt64 → Option Stat
  used : Nat → Bool
  next : Nat → Option Nat
  waiter : Nat → Waiter
  threads : Task → ThreadState
  preconds : Task → Option (Nat × List UInt64)
  pcs : Task → Pc
  spawned : Task → Option (List UInt64)
  history : Task → List Event
  drained : Task → List Task
  launched : Task → List Task
  batch : Task → List Nat
  released : Task → List Nat

def key (op : Op) : UInt64 := qalign op.addr

/-- After `qthread_precond_launch`. -/
def leave : Option UInt64 → Pc
  | some maddr => .remove maddr
  | none => .idle

def unlocked : Option Nat → Option UInt64 → Pc
  | some tasks, remove => .launch tasks remove
  | none, remove => leave remove

def Return.after : Return → Pc
  | .spawn => .idle
  | .launch head tail remove => .handled head tail remove

def fills : Gotlock → Bool
  | .fill => true
  | .empty => false

def innerOf (gotlock : Gotlock) (maddr : UInt64) (tasks : Option Nat) : Pc :=
  match gotlock with
  | .fill => .filling .fill maddr tasks
  | .empty => .emptying .empty maddr tasks

namespace Stat

def setHead (m : Stat) (queue : Queue) (node : Option Nat) : Stat :=
  { m with head := update m.head queue node }

def unused (m : Stat) : Bool :=
  (m.head .EFQ).isNone && (m.head .FEQ).isNone && (m.head .FFQ).isNone && m.full

/-- The test of `qthread_gotlock_fill_inner` does not look at FFQ. -/
def removeable (m : Stat) : Gotlock → Bool
  | .fill => (m.head .EFQ).isNone && (m.head .FEQ).isNone && m.full
  | .empty => m.unused

end Stat

namespace State

def first (s : State) (maddr : UInt64) (queue : Queue) : Option Nat :=
  (s.stat maddr).bind fun m => m.head queue

def put (s : State) (maddr : UInt64) (m : Option Stat) : State :=
  { s with stat := update s.stat maddr m }

def goto (s : State) (me : Task) (pc : Pc) : State :=
  { s with pcs := update s.pcs me pc }

def setThread (s : State) (t : Task) (state : ThreadState) : State :=
  { s with threads := update s.threads t state }

def setPreconds (s : State) (t : Task) (array : Option (Nat × List UInt64)) : State :=
  { s with preconds := update s.preconds t array }

def note (s : State) (t : Task) (event : Event) : State :=
  { s with history := update s.history t (s.history t ++ [event]) }

/-- `ALLOC_ADDRRES`, with the fields the caller sets. -/
def alloc (s : State) (x : Nat) (next : Option Nat) (waiter : Waiter) : State :=
  { s with
    used := update s.used x true
    next := update s.next x next
    waiter := update s.waiter x waiter }

/-- `FREE_ADDRRES`. -/
def free (s : State) (x : Nat) : State :=
  { s with used := update s.used x false }

def createHead (s : State) (me : Task) (head : Nat) : State :=
  { s.alloc head none (.node head) with
    batch := update s.batch me (s.batch me ++ [head]) }

def link (s : State) (head last x : Nat) : State :=
  { s with
    next := update s.next last (some x)
    waiter := update s.waiter head (.node x) }

/-- The records of the `gotlock` function that begins. -/
def begin (s : State) (me : Task) : State :=
  { s with
    drained := update s.drained me []
    launched := update s.launched me []
    batch := update s.batch me []
    released := update s.released me [] }

def collect (s : State) (me t : Task) (x : Nat) : State :=
  { s with
    drained := update s.drained me (s.drained me ++ [t])
    batch := update s.batch me (s.batch me ++ [x]) }

def release (s : State) (me : Task) (x : Nat) : State :=
  { s.free x with released := update s.released me (s.released me ++ [x]) }

def launch (s : State) (me t : Task) : State :=
  { s with launched := update s.launched me (s.launched me ++ [t]) }

def spawn (s : State) (t : Task) (words : List UInt64) : State :=
  { s with
    threads := update s.threads t .nascent
    preconds := update s.preconds t (some (words.length, words))
    spawned := update s.spawned t (some words) }

end State

inductive Step : State → Task → State → Prop where
  | spawn {s : State} {me : Task} (t : Task) (words : List UInt64) :
      s.pcs me = .idle → s.threads me = .running → s.threads t = .unborn → words ≠ [] →
      Step s me ((s.spawn t words).goto me (.check t .spawn))
  | spawnPlain {s : State} {me : Task} (t : Task) :
      s.pcs me = .idle → s.threads me = .running → s.threads t = .unborn →
      Step s me (s.setThread t .new)
  | start {s : State} {me : Task} :
      s.pcs me = .idle → s.threads me = .new →
      (s.spawned me = none ∨ Event.ready ∈ s.history me) → Step s me (s.setThread me .running)
  | resume {s : State} {me : Task} :
      s.pcs me = .parked → s.threads me = .running → Step s me (s.goto me .idle)
  -- a call up to the lock of the record
  | found {s : State} {me : Task} {m : Stat} (op : Op) :
      s.pcs me = .idle → s.threads me = .running → s.stat (key op) = some m → m.holder = none →
      Step s me ((s.put (key op) (some { m with holder := some me })).goto me (.alone op))
  | missing {s : State} {me : Task} (op : Op) :
      s.pcs me = .idle → s.threads me = .running → s.stat (key op) = none → Step s me s
  | create {s : State} {me : Task} (op : Op) :
      s.pcs me = .idle → s.threads me = .running → s.stat (key op) = none →
      op.creates = some true →
      Step s me ((s.put (key op) (some ⟨true, fun _ => none, some me⟩)).goto me (.alone op))
  | createEmpty {s : State} {me : Task} (op : Op) :
      s.pcs me = .idle → s.threads me = .running → s.stat (key op) = none →
      op.creates = some false →
      Step s me (s.put (key op) (some ⟨false, fun _ => none, none⟩))
  -- the rest of a call under the lock
  | wait {s : State} {me : Task} {op : Op} {m : Stat} {queue : Queue} {addr : UInt64} (x : Nat) :
      s.pcs me = .alone op → s.stat (key op) = some m → op.decision m.full = .wait queue addr →
      s.used x = false →
      Step s me ((((s.alloc x (m.head queue) (.task me)).put (key op)
        (some (m.setHead queue (some x)))).setThread me .febBlocked).goto me (.blocked (key op)))
  | giveUp {s : State} {me : Task} {op : Op} {m : Stat} :
      s.pcs me = .alone op → s.stat (key op) = some m →
      (op.decision m.full = .fail ∨ (∃ dest src, op.decision m.full = .copy dest src none) ∨
        ∃ queue addr, op.decision m.full = .wait queue addr) →
      Step s me (s.goto me (.release (key op)))
  | begin {s : State} {me : Task} {op : Op} {m : Stat} {gotlock : Gotlock} :
      s.pcs me = .alone op → s.stat (key op) = some m →
      (op.decision m.full = .wake gotlock ∨
        ∃ dest src, op.decision m.full = .copy dest src (some gotlock)) →
      Step s me (((s.begin me).put (key op) (some { m with full := fills gotlock })).goto
        me (innerOf gotlock (key op) none))
  | release {s : State} {me : Task} {maddr : UInt64} {m : Stat} :
      s.pcs me = .release maddr → s.stat maddr = some m →
      Step s me ((s.put maddr (some { m with holder := none })).goto me .idle)
  | park {s : State} {me : Task} {maddr : UInt64} {m : Stat} :
      s.pcs me = .blocked maddr → s.stat maddr = some m →
      Step s me ((s.put maddr (some { m with holder := none })).goto me .parked)
  -- `qthread_gotlock_fill_inner`
  | collectFirst {s : State} {me t : Task} {outer : Gotlock} {maddr : UInt64} {m : Stat} {x : Nat}
      (head : Nat) :
      s.pcs me = .filling outer maddr none → s.stat maddr = some m → m.head .FFQ = some x →
      s.waiter x = .task t → s.threads t = .nascent → s.used head = false →
      Step s me (((((s.put maddr (some (m.setHead .FFQ (s.next x)))).createHead me head).link head
        head x).collect me t x).goto me (.filling outer maddr (some head)))
  | collect {s : State} {me t : Task} {outer : Gotlock} {maddr : UInt64} {m : Stat}
      {x head last : Nat} :
      s.pcs me = .filling outer maddr (some head) → s.stat maddr = some m →
      m.head .FFQ = some x → s.waiter x = .task t → s.threads t = .nascent →
      s.waiter head = .node last →
      Step s me (((s.put maddr (some (m.setHead .FFQ (s.next x)))).link head last x).collect me t x)
  | wakeReader {s : State} {me t : Task} {outer : Gotlock} {maddr : UInt64} {m : Stat} {x : Nat}
      {tasks : Option Nat} :
      s.pcs me = .filling outer maddr tasks → s.stat maddr = some m → m.head .FFQ = some x →
      s.waiter x = .task t → s.threads t ≠ .nascent →
      Step s me (((s.put maddr (some (m.setHead .FFQ (s.next x)))).setThread t .running).free x)
  | wakeTaker {s : State} {me t : Task} {outer : Gotlock} {maddr : UInt64} {m : Stat} {x : Nat}
      {tasks : Option Nat} :
      s.pcs me = .filling outer maddr tasks → s.stat maddr = some m → m.head .FFQ = none →
      m.head .FEQ = some x → s.waiter x = .task t →
      Step s me ((((s.put maddr (some { m.setHead .FEQ (s.next x) with full := false })).setThread t
        .running).free x).goto me (.emptying outer maddr tasks))
  | filled {s : State} {me : Task} {outer : Gotlock} {maddr : UInt64} {m : Stat}
      {tasks : Option Nat} :
      s.pcs me = .filling outer maddr tasks → s.stat maddr = some m → m.head .FFQ = none →
      m.head .FEQ = none → Step s me (s.goto me (.unlocking outer maddr tasks))
  -- `qthread_gotlock_empty_inner`
  | wakeWriter {s : State} {me t : Task} {outer : Gotlock} {maddr : UInt64} {m : Stat} {x : Nat}
      {tasks : Option Nat} :
      s.pcs me = .emptying outer maddr tasks → s.stat maddr = some m → m.head .EFQ = some x →
      s.waiter x = .task t →
      Step s me ((((s.put maddr (some { m.setHead .EFQ (s.next x) with full := true })).setThread t
        .running).free x).goto me (.filling outer maddr tasks))
  | emptied {s : State} {me : Task} {outer : Gotlock} {maddr : UInt64} {m : Stat}
      {tasks : Option Nat} :
      s.pcs me = .emptying outer maddr tasks → s.stat maddr = some m → m.head .EFQ = none →
      Step s me (s.goto me (.unlocking outer maddr tasks))
  | unlock {s : State} {me : Task} {outer : Gotlock} {maddr : UInt64} {m : Stat}
      {tasks : Option Nat} :
      s.pcs me = .unlocking outer maddr tasks → s.stat maddr = some m →
      Step s me ((s.put maddr (some { m with holder := none })).goto me
        (unlocked tasks (if m.removeable outer then some maddr else none)))
  -- `qthread_precond_launch`
  | launchNone {s : State} {me : Task} {tasks : Nat} {remove : Option UInt64} :
      s.pcs me = .launch tasks remove → s.waiter tasks = .node tasks →
      Step s me ((s.release me tasks).goto me (leave remove))
  | launch {s : State} {me : Task} {tasks tail : Nat} {remove : Option UInt64} :
      s.pcs me = .launch tasks remove → s.waiter tasks = .node tail → tasks ≠ tail →
      Step s me (s.goto me (.next tasks tail remove))
  -- `precond_free` is the node that `precond_head` leaves
  | next {s : State} {me t : Task} {head tail x : Nat} {remove : Option UInt64} :
      s.pcs me = .next head tail remove → s.next head = some x → s.waiter x = .task t →
      Step s me (((s.release me head).launch me t).goto me (.check t (.launch x tail remove)))
  | handledMore {s : State} {me : Task} {head tail : Nat} {remove : Option UInt64} :
      s.pcs me = .handled head tail remove → head ≠ tail →
      Step s me (s.goto me (.next head tail remove))
  | handledLast {s : State} {me : Task} {head tail : Nat} {remove : Option UInt64} :
      s.pcs me = .handled head tail remove → head = tail →
      Step s me ((s.release me head).goto me (leave remove))
  -- `qthread_check_feb_preconds`
  | checkDone {s : State} {me t : Task} {return_ : Return} {words : List UInt64} :
      s.pcs me = .check t return_ → s.preconds t = some (0, words) →
      Step s me ((((s.setThread t .new).setPreconds t none).note t .freed).goto me
        (.ready t return_))
  | checkMissing {s : State} {me t : Task} {return_ : Return} {k : Nat} {words : List UInt64}
      {this : UInt64} :
      s.pcs me = .check t return_ → s.preconds t = some (k + 1, words) → words[k]? = some this →
      s.stat (qalign this) = none →
      Step s me ((s.setPreconds t (some (k, words))).note t (.observed (k + 1) this))
  | checkFound {s : State} {me t : Task} {return_ : Return} {k : Nat} {words : List UInt64}
      {this : UInt64} {m : Stat} :
      s.pcs me = .check t return_ → s.preconds t = some (k + 1, words) → words[k]? = some this →
      s.stat (qalign this) = some m → m.holder = none →
      Step s me ((s.put (qalign this) (some { m with holder := some me })).goto me
        (.checking t this return_))
  | checkFull {s : State} {me t : Task} {return_ : Return} {k : Nat} {words : List UInt64}
      {this : UInt64} {m : Stat} :
      s.pcs me = .checking t this return_ → s.preconds t = some (k + 1, words) →
      s.stat (qalign this) = some m → m.full = true →
      Step s me ((((s.put (qalign this) (some { m with holder := none })).setPreconds t
        (some (k, words))).note t (.observed (k + 1) this)).goto me (.check t return_))
  | checkWait {s : State} {me t : Task} {return_ : Return} {this : UInt64} {m : Stat} (x : Nat) :
      s.pcs me = .checking t this return_ → s.stat (qalign this) = some m → m.full = false →
      s.used x = false →
      Step s me ((((s.alloc x (m.head .FFQ) (.task t)).put (qalign this)
        (some { m.setHead .FFQ (some x) with holder := none })).setThread t .nascent).goto me
          return_.after)
  -- `qt_threadqueue_enqueue`
  | ready {s : State} {me t : Task} {return_ : Return} :
      s.pcs me = .ready t return_ → Step s me ((s.note t .ready).goto me return_.after)
  -- `qthread_FEB_remove`
  | removed {s : State} {me : Task} {maddr : UInt64} {m : Stat} :
      s.pcs me = .remove maddr → s.stat maddr = some m → m.holder = none → m.unused = true →
      Step s me ((s.put maddr none).goto me .idle)
  | kept {s : State} {me : Task} {maddr : UInt64} :
      s.pcs me = .remove maddr →
      (∀ m, s.stat maddr = some m → m.holder = none ∧ m.unused = false) →
      Step s me (s.goto me .idle)

end Qthreads.Precond
