import Qthreads.Feb.Ops
import Qthreads.Lib.Tasks

namespace Qthreads.Feb.Steps

open Function (update)

/-! The calls of `feb.c`, cut at their locks

Each lock of a stripe or of a record, each lookup, each section under `m->lock`, each copy of
data and each part of `qthread_FEB_remove` is a step of its own, and the steps of the tasks
interleave.  A record is known by the order of its allocation, so that a pointer to a deleted
record is never a pointer to a later one. -/

/-- An addrstat with its lock.  `doomed` names the task that took it out of its table; the
code has no such field. -/
structure Record where
  stat : Addrstat
  holder : Option Task
  doomed : Option Task

structure Shared where
  febs : UInt64 → UInt64 → Option Nat
  owner : UInt64 → Option Task
  heap : Nat → Option Record
  next : Nat
  memory : Memory
  threads : Task → ThreadState
  preconds : Task → List UInt64

namespace Shared

def setBin (s : Shared) (lockbin : UInt64) (owner : Option Task) : Shared :=
  { s with owner := update s.owner lockbin owner }

def setRecord (s : Shared) (m : Nat) (record : Option Record) : Shared :=
  { s with heap := update s.heap m record }

def setKey (s : Shared) (lockbin key : UInt64) (m : Option Nat) : Shared :=
  { s with febs := update s.febs lockbin (update (s.febs lockbin) key m) }

def setThread (s : Shared) (task : Task) (state : ThreadState) : Shared :=
  { s with threads := update s.threads task state }

def setPreconds (s : Shared) (task : Task) (preconds : List UInt64) : Shared :=
  { s with preconds := update s.preconds task preconds }

/-- `qthread_addrstat_new` and `qt_hash_put_locked`. -/
def create (s : Shared) (lockbin key : UInt64) (full : Bool) : Shared :=
  { (s.setRecord s.next (some ⟨{ addrstatNew with full := full }, none, none⟩)).setKey lockbin key
      (some s.next) with next := s.next + 1 }

def copy (s : Shared) (dest src : UInt64) : Shared :=
  if dest ≠ 0 ∧ dest ≠ src then
    { s with memory := fun a => if a - dest < 8 then s.memory (src + (a - dest)) else s.memory a }
  else s

/-- What a `gotlock` function does to memory and to the tasks it wakes. -/
def perform (s : Shared) : List Wake → Shared
  | [] => s
  | .copy dest src :: rest => (s.copy dest src).perform rest
  | .schedule task :: rest => (s.setThread task .running).perform rest
  | _ :: rest => s.perform rest

end Shared

inductive Op where
  | empty (dest : UInt64)
  | fill (dest : UInt64)
  | writeF (dest src : UInt64)
  | writeEF (dest src : UInt64)
  | writeEFNb (dest src : UInt64)
  | readFF (dest src : UInt64)
  | readFFNb (dest src : UInt64)
  | readFE (dest src : UInt64)
  | readFENb (dest src : UInt64)
  | febStatus (addr : UInt64)
deriving DecidableEq

namespace Op

def addr : Op → UInt64
  | empty dest | fill dest | writeF dest _ | writeEF dest _ | writeEFNb dest _ => dest
  | readFF _ src | readFFNb _ src | readFE _ src | readFENb _ src => src
  | febStatus addr => addr

def lookup : Op → Lookup
  | empty _ => .empty
  | fill _ => .fill
  | writeF _ _ => .writeF
  | writeEF _ _ => .writeEF
  | writeEFNb _ _ => .writeEFNb
  | readFF _ _ => .readFF
  | readFFNb _ _ => .readFFNb
  | readFE _ _ => .readFE
  | readFENb _ _ => .readFENb
  | febStatus _ => .febStatus

def creates : Op → Option Bool
  | empty _ => some false
  | writeEF _ _ | readFE _ _ | readFENb _ _ => some true
  | _ => none

def freeCopy : Op → Option (UInt64 × UInt64)
  | writeF dest src | readFF dest src | readFFNb dest src => some (dest, src)
  | _ => none

end Op

inductive Request where
  | call (op : Op)
  | check (task : Task) (this : UInt64)
  | remove (maddr : UInt64)

variable [Topology]

namespace Request

def lockbin : Request → UInt64
  | call op => op.lookup.lockbin op.addr
  | check _ this => Lookup.checkFebPreconds.lockbin this
  | remove maddr => chooseStripe2 maddr

def key : Request → UInt64
  | call op => qalign op.addr
  | check _ this => qalign this
  | remove maddr => maddr

end Request

/-- What a task still has to do when it is done with a record: `qthread_precond_launch` of
these tasks, then perhaps `qthread_FEB_remove`. -/
structure Agenda where
  launch : List Task
  remove : Option UInt64

def nothing : Agenda := ⟨[], none⟩

inductive Queue where
  | EFQ
  | FEQ
  | FFQ
deriving DecidableEq

def push (queue : Queue) (x : Addrres) (m : Addrstat) : Addrstat :=
  match queue with
  | .EFQ => { m with EFQ := x :: m.EFQ }
  | .FEQ => { m with FEQ := x :: m.FEQ }
  | .FFQ => { m with FFQ := x :: m.FFQ }

inductive Gotlock where
  | fill
  | empty
deriving DecidableEq

inductive Decision where
  | wait (queue : Queue) (addr : UInt64)
  | fail
  | copy (dest src : UInt64) (then_ : Option Gotlock)
  | wake (gotlock : Gotlock)

namespace Op

def decision (full : Bool) : Op → Decision
  | empty _ => .wake .empty
  | fill _ => .wake .fill
  | writeF dest src => .copy dest src (some .fill)
  | writeEF dest src => if full then .wait .EFQ src else .copy dest src (some .fill)
  | writeEFNb dest src => if full then .fail else .copy dest src (some .fill)
  | readFF dest src => if full then .copy dest src none else .wait .FFQ dest
  | readFFNb dest src => if full then .copy dest src none else .fail
  | readFE dest src => if full then .copy dest src (some .empty) else .wait .FEQ dest
  | readFENb dest src => if full then .copy dest src (some .empty) else .fail
  | febStatus _ => .fail

end Op

/-- Where a task is.  The comment names the locks it holds. -/
inductive Pc where
  -- none
  | idle
  | parked
  | next (agenda : Agenda)
  | enter (request : Request) (agenda : Agenda)
  | copyFree (dest src : UInt64)
  | dispose (m : Nat)
  -- the stripe
  | look (request : Request) (agenda : Agenda)
  | take (request : Request) (agenda : Agenda) (m : Nat)
  | leave (request : Request) (agenda : Agenda)
  -- the stripe and the record
  | both (request : Request) (agenda : Agenda) (m : Nat)
  | unlinked (lockbin : UInt64) (m : Nat)
  -- the record
  | gone (m : Nat)
  | alone (request : Request) (agenda : Agenda) (m : Nat)
  | copying (dest src key : UInt64) (then_ : Option Gotlock) (m : Nat)
  | waking (gotlock : Gotlock) (key : UInt64) (m : Nat)
  | release (agenda : Agenda) (m : Nat)
  | blocked (m : Nat)

/-- The section under `m->lock` of the `gotlock` functions. -/
def Gotlock.inner (gotlock : Gotlock) (nascent : Task → Bool) (maddr : UInt64) (m : Addrstat) :
    Addrstat × List Wake :=
  match gotlock with
  | .fill => gotlockFillInner nascent maddr m.depth m
  | .empty => gotlockEmptyInner nascent maddr m.depth m

/-- The test for `removeable`; that of `qthread_gotlock_fill` does not look at FFQ. -/
def Gotlock.removeable (gotlock : Gotlock) (m : Addrstat) : Bool :=
  match gotlock with
  | .fill => m.EFQ.isEmpty && m.FEQ.isEmpty && m.full
  | .empty => m.unused

def Shared.nascent (s : Shared) (task : Task) : Bool := s.threads task == .nascent

def Request.left : Request → Agenda → Pc
  | .call op, agenda =>
    match op.freeCopy with
    | some (dest, src) => .copyFree dest src
    | none => .next agenda
  | _, agenda => .next agenda

inductive Label where
  | local_
  | lockBin
  | unlockBin
  | get
  | create
  | lockRecord
  | unlockRecord
  | section_
  | copy
  | unlink (m : Nat)
  | dropRecord (m : Nat)
  | delete (m : Nat)

inductive Act (me : Task) : Shared → Pc → Label → Shared → Pc → Prop where
  | call {s : Shared} (op : Op) :
      s.threads me = .running →
      Act me s .idle .local_ s (.enter (.call op) nothing)
  | spawn {s : Shared} (task : Task) (preconds : List UInt64) :
      s.threads me = .running → s.threads task = .unborn →
      Act me s .idle .local_ (s.setPreconds task preconds) (.next ⟨[task], none⟩)
  | start {s : Shared} :
      s.threads me = .new → Act me s .idle .local_ (s.setThread me .running) .idle
  | resume {s : Shared} :
      s.threads me = .running → Act me s .parked .local_ s .idle
  -- `qthread_check_feb_preconds` found nothing left to wait for
  | launched {s : Shared} {task : Task} {rest : List Task} {remove : Option UInt64} :
      s.preconds task = [] →
      Act me s (.next ⟨task :: rest, remove⟩) .local_ (s.setThread task .new)
        (.next ⟨rest, remove⟩)
  | check {s : Shared} {task : Task} {rest : List Task} {remove : Option UInt64} {this : UInt64}
      {others : List UInt64} :
      s.preconds task = this :: others →
      Act me s (.next ⟨task :: rest, remove⟩) .local_ s
        (.enter (.check task this) ⟨task :: rest, remove⟩)
  | remove {s : Shared} {maddr : UInt64} :
      Act me s (.next ⟨[], some maddr⟩) .local_ s (.enter (.remove maddr) nothing)
  | done {s : Shared} : Act me s (.next nothing) .local_ s .idle
  | lockBin {s : Shared} {request : Request} {agenda : Agenda} :
      s.owner request.lockbin = none →
      Act me s (.enter request agenda) .lockBin (s.setBin request.lockbin (some me))
        (.look request agenda)
  | found {s : Shared} {request : Request} {agenda : Agenda} {m : Nat} :
      s.febs request.lockbin request.key = some m →
      Act me s (.look request agenda) .get s (.take request agenda m)
  | missing {s : Shared} {op : Op} {agenda : Agenda} :
      s.febs (Request.call op).lockbin (Request.call op).key = none → op.creates = none →
      Act me s (.look (.call op) agenda) .get s (.leave (.call op) agenda)
  | missingCheck {s : Shared} {task : Task} {this : UInt64} {agenda : Agenda} :
      s.febs (Request.check task this).lockbin (Request.check task this).key = none →
      Act me s (.look (.check task this) agenda) .get
        (s.setPreconds task (s.preconds task).tail) (.leave (.check task this) agenda)
  | missingRemove {s : Shared} {maddr : UInt64} {agenda : Agenda} :
      s.febs (Request.remove maddr).lockbin (Request.remove maddr).key = none →
      Act me s (.look (.remove maddr) agenda) .get s (.leave (.remove maddr) agenda)
  | outOfMemory {s : Shared} {op : Op} {agenda : Agenda} {full : Bool} :
      s.febs (Request.call op).lockbin (Request.call op).key = none →
      op.creates = some full →
      Act me s (.look (.call op) agenda) .get s (.leave (.call op) agenda)
  | create {s : Shared} {op : Op} {agenda : Agenda} :
      s.febs (Request.call op).lockbin (Request.call op).key = none → op.creates = some true →
      Act me s (.look (.call op) agenda) .create
        (s.create (Request.call op).lockbin (Request.call op).key true)
        (.take (.call op) agenda s.next)
  | createEmpty {s : Shared} {op : Op} {agenda : Agenda} :
      s.febs (Request.call op).lockbin (Request.call op).key = none → op.creates = some false →
      Act me s (.look (.call op) agenda) .create
        (s.create (Request.call op).lockbin (Request.call op).key false)
        (.leave (.call op) agenda)
  | unlockBin {s : Shared} {request : Request} {agenda : Agenda} :
      Act me s (.leave request agenda) .unlockBin (s.setBin request.lockbin none)
        (request.left agenda)
  | copyFree {s : Shared} {dest src : UInt64} :
      Act me s (.copyFree dest src) .copy (s.copy dest src) .idle
  | lockRecord {s : Shared} {request : Request} {agenda : Agenda} {m : Nat} {record : Record} :
      s.heap m = some record → record.holder = none →
      Act me s (.take request agenda m) .lockRecord
        (s.setRecord m (some { record with holder := some me })) (.both request agenda m)
  | status {s : Shared} {addr : UInt64} {agenda : Agenda} {m : Nat} {record : Record} :
      s.heap m = some record →
      Act me s (.both (.call (.febStatus addr)) agenda m) .unlockRecord
        (s.setRecord m (some { record with holder := none }))
        (.leave (.call (.febStatus addr)) agenda)
  | handOver {s : Shared} {op : Op} {agenda : Agenda} {m : Nat} :
      (∀ addr, op ≠ .febStatus addr) →
      Act me s (.both (.call op) agenda m) .unlockBin (s.setBin (Request.call op).lockbin none)
        (.alone (.call op) agenda m)
  | handOverCheck {s : Shared} {task : Task} {this : UInt64} {agenda : Agenda} {m : Nat} :
      Act me s (.both (.check task this) agenda m) .unlockBin
        (s.setBin (Request.check task this).lockbin none) (.alone (.check task this) agenda m)
  -- the first half of `qthread_FEB_remove`
  | inUse {s : Shared} {maddr : UInt64} {agenda : Agenda} {m : Nat} {record : Record} :
      s.heap m = some record → record.stat.unused = false →
      Act me s (.both (.remove maddr) agenda m) .unlockRecord
        (s.setRecord m (some { record with holder := none })) (.leave (.remove maddr) agenda)
  | unlink {s : Shared} {maddr : UInt64} {agenda : Agenda} {m : Nat} {record : Record} :
      s.heap m = some record → record.stat.unused = true →
      Act me s (.both (.remove maddr) agenda m) (.unlink m)
        ((s.setKey (Request.remove maddr).lockbin (Request.remove maddr).key none).setRecord m
          (some { record with doomed := some me }))
        (.unlinked (Request.remove maddr).lockbin m)
  | unlockUnlinked {s : Shared} {lockbin : UInt64} {m : Nat} :
      Act me s (.unlinked lockbin m) .unlockBin (s.setBin lockbin none) (.gone m)
  -- the second half
  | dropRecord {s : Shared} {m : Nat} {record : Record} :
      s.heap m = some record →
      Act me s (.gone m) (.dropRecord m) (s.setRecord m (some { record with holder := none }))
        (.dispose m)
  | delete {s : Shared} {m : Nat} :
      Act me s (.dispose m) (.delete m) (s.setRecord m none) .idle
  | wait {s : Shared} {op : Op} {agenda : Agenda} {m : Nat} {record : Record} {queue : Queue}
      {addr : UInt64} :
      s.heap m = some record → op.decision record.stat.full = .wait queue addr →
      Act me s (.alone (.call op) agenda m) .section_
        ((s.setRecord m (some { record with stat := push queue ⟨addr, me⟩ record.stat })).setThread
          me .febBlocked)
        (.blocked m)
  | noAddrres {s : Shared} {op : Op} {agenda : Agenda} {m : Nat} {record : Record} {queue : Queue}
      {addr : UInt64} :
      s.heap m = some record → op.decision record.stat.full = .wait queue addr →
      Act me s (.alone (.call op) agenda m) .section_ s (.release agenda m)
  | fail {s : Shared} {op : Op} {agenda : Agenda} {m : Nat} {record : Record} :
      s.heap m = some record → op.decision record.stat.full = .fail →
      Act me s (.alone (.call op) agenda m) .section_ s (.release agenda m)
  | wake {s : Shared} {op : Op} {agenda : Agenda} {m : Nat} {record : Record} {gotlock : Gotlock} :
      s.heap m = some record → op.decision record.stat.full = .wake gotlock →
      Act me s (.alone (.call op) agenda m) .section_ s
        (.waking gotlock (Request.call op).key m)
  | decide {s : Shared} {op : Op} {agenda : Agenda} {m : Nat} {record : Record}
      {dest src : UInt64} {then_ : Option Gotlock} :
      s.heap m = some record → op.decision record.stat.full = .copy dest src then_ →
      Act me s (.alone (.call op) agenda m) .section_ s
        (.copying dest src (Request.call op).key then_ m)
  | copyLocked {s : Shared} {dest src key : UInt64} {then_ : Option Gotlock} {m : Nat} :
      Act me s (.copying dest src key then_ m) .copy (s.copy dest src)
        (match then_ with
        | some gotlock => .waking gotlock key m
        | none => .release nothing m)
  | gotlock {s : Shared} {gotlock : Gotlock} {key : UInt64} {m : Nat} {record : Record} :
      s.heap m = some record →
      Act me s (.waking gotlock key m) .section_
        ((s.setRecord m (some { record with
          stat := (gotlock.inner s.nascent key record.stat).1 })).perform
            (gotlock.inner s.nascent key record.stat).2)
        (.release
          ⟨FebState.collected (gotlock.inner s.nascent key record.stat).2,
            if gotlock.removeable (gotlock.inner s.nascent key record.stat).1 then some key
            else none⟩ m)
  | checkFull {s : Shared} {task : Task} {this : UInt64} {agenda : Agenda} {m : Nat}
      {record : Record} :
      s.heap m = some record → record.stat.full = true →
      Act me s (.alone (.check task this) agenda m) .section_
        (s.setPreconds task (s.preconds task).tail) (.release agenda m)
  | checkWait {s : Shared} {task : Task} {this : UInt64} {agenda : Agenda} {m : Nat}
      {record : Record} :
      s.heap m = some record → record.stat.full = false →
      Act me s (.alone (.check task this) agenda m) .section_
        ((s.setRecord m (some { record with stat := push .FFQ ⟨0, task⟩ record.stat })).setThread
          task .nascent)
        (.release { agenda with launch := agenda.launch.tail } m)
  | release {s : Shared} {agenda : Agenda} {m : Nat} {record : Record} :
      s.heap m = some record →
      Act me s (.release agenda m) .unlockRecord
        (s.setRecord m (some { record with holder := none })) (.next agenda)
  -- `qthread_master` unlocks for the task that waits
  | park {s : Shared} {m : Nat} {record : Record} :
      s.heap m = some record →
      Act me s (.blocked m) .unlockRecord
        (s.setRecord m (some { record with holder := none })) .parked

abbrev Config := Lib.Config Shared Pc

abbrev Step : Config → Nat × Label → Config → Prop := Lib.Config.Step Act

structure Fresh (config : Config) : Prop where
  febs : ∀ lockbin key, config.shared.febs lockbin key = none
  owner : ∀ lockbin, config.shared.owner lockbin = none
  heap : ∀ m, config.shared.heap m = none
  tasks : ∀ task, config.tasks task = .idle

end Qthreads.Feb.Steps
