import Qthreads.Feb.Stripe
import Qthreads.Lib.Tasks
import Qthreads.Syncvar.Ops

namespace Qthreads.Syncvar.Steps

open Feb (Topology)
open Function (update)

/-! The calls of `syncvar.c`, cut at their locks

A call locks the syncvar's word (`qthread_mwaitc`), finds the record of the word in its
stripe's table, locks the record, unlocks the word, releases or joins the waiters, drops the
record's lock and perhaps removes the record.  `qt_hash_get` and `qt_hash_put` are single
steps that find the stripe's lock free; the calls that keep that lock have steps of their
own.  A record is known by the order of its allocation. -/

/-- The fields of a `syncvar_t`: who set the lock bit, the two state bits in use and the data. -/
structure SyncWord where
  lock : Option Task
  pf : Bool
  sf : Bool
  data : UInt64

/-- `BUILD_UNLOCKED_SYNCVAR`; the four high bits of the data are lost. -/
def unlocked (data : UInt64) (pf sf : Bool) : SyncWord :=
  { lock := none, pf := pf, sf := sf, data := data &&& 0xfffffffffffffff }

/-- What the holder of a record's lock is about to do to its queues, once it has unlocked the
word accordingly.  The code has no such field. -/
inductive Pending where
  | nothing
  | joinEFQ (x : Addrres UInt64)
  | joinFEQ (x : Addrres Bool)
  | joinFFQ (x : Addrres Bool)
  | fill

/-- The queues after the section under `m->lock`. -/
def Pending.apply (m : Addrstat) : Pending → Addrstat
  | .nothing => m
  | .joinEFQ x => { m with EFQ := x :: m.EFQ }
  | .joinFEQ x => { m with FEQ := x :: m.FEQ }
  | .joinFFQ x => { m with FFQ := x :: m.FFQ }
  | .fill => { m with full := true, FFQ := [], FEQ := m.FEQ.tail }

/-- An addrstat with its lock.  `pending` and `doomed`, the task that took the record out of
its table, are auxiliary. -/
structure Record where
  stat : Addrstat
  holder : Option Task
  pending : Pending
  doomed : Option Task

/-- `looking` is the record that a task's `readFF` has found but not locked yet: its local
variable `m`, made visible. -/
structure Shared where
  words : UInt64 → SyncWord
  syncvars : UInt64 → Option Nat
  owner : UInt64 → Option Task
  heap : Nat → Option Record
  next : Nat
  looking : Task → Option Nat
  woken : Task → Option Wake

/-- `QTHREAD_CHOOSE_STRIPE`; the table of a word's stripe is looked up with the word's address. -/
def chooseStripe [Topology] (addr : UInt64) : UInt64 :=
  (addr >>> 4) &&& UInt64.ofNat (Feb.lockingStripes - 1)

namespace Shared

def setWord (s : Shared) (addr : UInt64) (word : SyncWord) : Shared :=
  { s with words := update s.words addr word }

def setKey (s : Shared) (addr : UInt64) (m : Option Nat) : Shared :=
  { s with syncvars := update s.syncvars addr m }

def setBin (s : Shared) (lockbin : UInt64) (owner : Option Task) : Shared :=
  { s with owner := update s.owner lockbin owner }

def setRecord (s : Shared) (m : Nat) (record : Option Record) : Shared :=
  { s with heap := update s.heap m record }

def setLooking (s : Shared) (task : Task) (m : Option Nat) : Shared :=
  { s with looking := update s.looking task m }

/-- `qthread_addrstat_new` and `qt_hash_put`. -/
def create (s : Shared) (addr : UInt64) : Shared :=
  { (s.setRecord s.next (some ⟨addrstatNew, none, .nothing, none⟩)).setKey addr (some s.next) with
    next := s.next + 1 }

/-- `qthread_syncvar_schedule` of every task released. -/
def schedule (s : Shared) : List Wake → Shared
  | [] => s
  | wake :: rest =>
    ({ s with woken := update s.woken wake.waiter (some wake) }).schedule rest

end Shared

/-- The two `qthread_mwaitc` of the calls that wait; the others have only the last. -/
inductive Phase where
  | first
  | second
deriving DecidableEq

def Op.phase : Op → Phase
  | .readFF _ | .readFFNb _ | .readFE _ | .readFENb _ | .writeEF _ | .writeEFNb _ => .first
  | .writeF _ | .fill | .empty | .incrF _ => .second

/-- `qthread_mwaitc` gave up: a call that does not wait returns, the others try again for any
state. -/
def Op.waits : Op → Bool
  | .readFF _ | .readFE _ | .writeEF _ => true
  | _ => false

inductive Decision where
  | back
  | finish (data : UInt64) (pf sf : Bool)
  | queue
  | fill (data : UInt64)
  | empty

def Op.decision (phase : Phase) (word : SyncWord) : Op → Decision
  | .readFF _ =>
    if word.pf = false then .finish word.data false word.sf
    else if phase = .first then .back
    else .queue
  | .readFFNb _ => if word.pf = false then .finish word.data false word.sf else .back
  | .readFE _ =>
    if word.pf = false then
      if word.sf then .empty else .finish word.data true false
    else if phase = .first then .back
    else .queue
  | .readFENb _ =>
    if word.pf = false then
      if word.sf then .empty else .finish word.data true false
    else .back
  | .writeEF src =>
    if word.pf then
      if word.sf then .fill src else .finish src false false
    else if phase = .first then .back
    else .queue
  | .writeEFNb src =>
    if word.pf then
      if word.sf then .fill src else .finish src false false
    else .back
  | .writeF src => if word.pf && word.sf then .fill src else .finish src false false
  | .fill =>
    if word.pf then
      if word.sf then .fill word.data else .finish word.data false false
    else .finish word.data false word.sf
  | .empty =>
    if word.pf = false then
      if word.sf then .empty else .finish word.data true false
    else .finish word.data true word.sf
  | .incrF inc =>
    if word.pf && word.sf then .fill (word.data + inc)
    else .finish (word.data + inc) word.pf word.sf

def Op.keepsBin : Op → Bool
  | .readFE _ | .writeEF _ => true
  | _ => false

/-- The assertions about the queues before `gotlock_fill`. -/
def Op.asserts : Op → Addrstat → Option Abort
  | .incrF _ => assertReadersIncr
  | _ => assertReaders

/-- `writeEF` and `writeEF_nb` assert before they unlock the word, the others after it. -/
def Op.assertsFirst : Op → Bool
  | .writeEF _ | .writeEFNb _ => true
  | _ => false

def Op.fits : Op → Bool
  | .writeEF src | .writeEFNb src | .writeF src => src >>> 60 == 0
  | _ => true

def Op.entry (me : Task) : Op → Pending
  | .readFF dest => .joinFFQ ⟨dest, me⟩
  | .readFE _ => .joinFEQ ⟨true, me⟩
  | .writeEF src => .joinEFQ ⟨src, me⟩
  | _ => .nothing

def Op.entryPf : Op → Bool
  | .writeEF _ => false
  | _ => true

inductive Purpose where
  | queue
  | fill (data : UInt64)
  | empty
deriving DecidableEq

structure Work where
  op : Op
  addr : UInt64

inductive Pc where
  | idle
  | parked
  | spin (work : Work) (phase : Phase)
  -- the word is locked
  | got (work : Work) (phase : Phase)
  | look (work : Work) (purpose : Purpose)
  | putNew (work : Work)
  | enter (work : Work)
  | lookBin (work : Work)
  | takeBin (work : Work) (m : Nat)
  | takeFree (work : Work) (purpose : Purpose) (m : Nat)
  | bothBin (work : Work) (m : Nat)
  | holding (work : Work) (purpose : Purpose) (m : Nat)
  -- only the record is locked
  | queueing (work : Work) (m : Nat)
  | waking (work : Work) (data : UInt64) (m : Nat)
  | blocked (m : Nat)
  | release (addr : UInt64) (m : Nat) (removeable : Bool)
  -- `qthread_syncvar_remove`
  | removeEnter (addr : UInt64)
  | removeLook (addr : UInt64)
  | removeTake (addr : UInt64) (m : Nat)
  | removeBoth (addr : UInt64) (m : Nat)
  | removeLeave (addr : UInt64)
  | unlinked (lockbin : UInt64) (m : Nat)
  | gone (m : Nat)
  | dispose (m : Nat)

def Addrstat.unused (m : Addrstat) : Bool := m.FEQ.isEmpty && m.EFQ.isEmpty && m.FFQ.isEmpty

/-- The tasks that `gotlock_fill` releases: all of FFQ, then one of FEQ. -/
def fillWakes (m : Addrstat) (ret : UInt64) : List Wake :=
  m.FFQ.map (deliver ret) ++ (m.FEQ.take 1).map (deliver ret)

inductive Label where
  | local_
  | lockWord
  | unlockWord
  | get
  | put
  | lockBin
  | unlockBin
  | lockRecord
  | unlockRecord
  | section_
  | unlink
  | delete

/-- One step of a task.  A failed assertion ends the program: the step is missing. -/
inductive Act [Topology] (me : Task) : Shared → Pc → Label → Shared → Pc → Prop where
  | call {s : Shared} (op : Op) (addr : UInt64) :
      Op.fits op = true →
      Act me s .idle .local_ s (.spin ⟨op, addr⟩ (Op.phase op))
  | resume {s : Shared} {wake : Wake} :
      s.woken me = some wake →
      Act me s .parked .local_ { s with woken := update s.woken me none } .idle
  -- the optimistic load of `readFF` and `readFF_nb`
  | load {s : Shared} {work : Work} {dest : Bool} :
      work.op = .readFF dest ∨ work.op = .readFFNb dest →
      (s.words work.addr).lock = none → (s.words work.addr).pf = false →
      Act me s (.spin work .first) .local_ s .idle
  | lockWord {s : Shared} {work : Work} {phase : Phase} :
      (s.words work.addr).lock = none →
      Act me s (.spin work phase) .lockWord
        (s.setWord work.addr { s.words work.addr with lock := some me }) (.got work phase)
  | timeout {s : Shared} {work : Work} :
      Act me s (.spin work .first) .local_ s
        (if Op.waits work.op then .spin work .second else .idle)
  | back {s : Shared} {work : Work} {phase : Phase} :
      Op.decision phase (s.words work.addr) work.op = .back →
      Act me s (.got work phase) .unlockWord
        (s.setWord work.addr { s.words work.addr with lock := none }) (.spin work phase)
  | finish {s : Shared} {work : Work} {phase : Phase} {data : UInt64} {pf sf : Bool} :
      Op.decision phase (s.words work.addr) work.op = .finish data pf sf →
      Act me s (.got work phase) .unlockWord (s.setWord work.addr (unlocked data pf sf)) .idle
  | queue {s : Shared} {work : Work} {phase : Phase} :
      Op.decision phase (s.words work.addr) work.op = .queue →
      Act me s (.got work phase) .local_ s
        (if Op.keepsBin work.op then .enter work else .look work .queue)
  | fill {s : Shared} {work : Work} {phase : Phase} {data : UInt64} :
      Op.decision phase (s.words work.addr) work.op = .fill data →
      Act me s (.got work phase) .local_ s (.look work (.fill data))
  | empty {s : Shared} {work : Work} {phase : Phase} :
      Op.decision phase (s.words work.addr) work.op = .empty →
      Act me s (.got work phase) .local_ s (.look work .empty)
  -- `qt_hash_get`
  | found {s : Shared} {work : Work} {purpose : Purpose} {m : Nat} :
      s.owner (chooseStripe work.addr) = none → s.syncvars work.addr = some m →
      Act me s (.look work purpose) .get
        (if purpose = .queue then s.setLooking me (some m) else s) (.takeFree work purpose m)
  | missing {s : Shared} {work : Work} :
      s.owner (chooseStripe work.addr) = none → s.syncvars work.addr = none →
      Act me s (.look work .queue) .get s (.putNew work)
  -- `qt_hash_put`
  | putNew {s : Shared} {work : Work} :
      s.owner (chooseStripe work.addr) = none → s.syncvars work.addr = none →
      Act me s (.putNew work) .put ((s.create work.addr).setLooking me (some s.next))
        (.takeFree work .queue s.next)
  | lockBin {s : Shared} {work : Work} :
      s.owner (chooseStripe work.addr) = none →
      Act me s (.enter work) .lockBin (s.setBin (chooseStripe work.addr) (some me))
        (.lookBin work)
  | foundBin {s : Shared} {work : Work} {m : Nat} :
      s.syncvars work.addr = some m →
      Act me s (.lookBin work) .get s (.takeBin work m)
  | createBin {s : Shared} {work : Work} :
      s.syncvars work.addr = none →
      Act me s (.lookBin work) .put (s.create work.addr) (.takeBin work s.next)
  | lockRecordBin {s : Shared} {work : Work} {m : Nat} {record : Record} :
      s.heap m = some record → record.holder = none →
      Act me s (.takeBin work m) .lockRecord
        (s.setRecord m (some { record with holder := some me })) (.bothBin work m)
  | unlockBin {s : Shared} {work : Work} {m : Nat} :
      Act me s (.bothBin work m) .unlockBin (s.setBin (chooseStripe work.addr) none)
        (.holding work .queue m)
  | lockRecord {s : Shared} {work : Work} {purpose : Purpose} {m : Nat} {record : Record} :
      s.heap m = some record → record.holder = none →
      Act me s (.takeFree work purpose m) .lockRecord
        ((s.setRecord m (some { record with holder := some me })).setLooking me none)
        (.holding work purpose m)
  -- the word says that there are waiters before the task has joined them
  | unlockQueue {s : Shared} {work : Work} {m : Nat} {record : Record} :
      s.heap m = some record →
      Act me s (.holding work .queue m) .unlockWord
        ((s.setWord work.addr
          (unlocked (s.words work.addr).data (Op.entryPf work.op) true)).setRecord m
            (some { record with pending := Op.entry me work.op }))
        (.queueing work m)
  | join {s : Shared} {work : Work} {m : Nat} {record : Record} :
      s.heap m = some record →
      Act me s (.queueing work m) .section_
        (s.setRecord m (some { record with
          stat := record.pending.apply record.stat, pending := .nothing }))
        (.blocked m)
  -- the new state is computed from FEQ, of which one entry is going to leave
  | unlockFill {s : Shared} {work : Work} {data : UInt64} {m : Nat} {record : Record} :
      s.heap m = some record →
      (Op.assertsFirst work.op = true → Op.asserts work.op record.stat = none) →
      Act me s (.holding work (.fill data) m) .unlockWord
        ((s.setWord work.addr (unlocked data (!record.stat.FEQ.isEmpty)
          (!record.stat.FEQ.tail.isEmpty))).setRecord m
            (some { record with pending := .fill }))
        (.waking work data m)
  | gotlockFill {s : Shared} {work : Work} {data : UInt64} {m : Nat} {record : Record} :
      s.heap m = some record → Op.asserts work.op record.stat = none →
      Act me s (.waking work data m) .section_
        ((s.setRecord m (some { record with
          stat := record.pending.apply record.stat, pending := .nothing })).schedule
            (fillWakes record.stat data))
        (.release work.addr m (Addrstat.unused (record.pending.apply record.stat)))
  -- the writer that is released unlocks the word with its value
  | gotlockEmpty {s : Shared} {work : Work} {m : Nat} {record : Record} {x : Addrres UInt64}
      {rest : List (Addrres UInt64)} :
      s.heap m = some record → assertWriters record.stat = none → record.stat.EFQ = x :: rest →
      Act me s (.holding work .empty m) .section_
        (((s.setWord work.addr (unlocked x.addr false (!rest.isEmpty))).setRecord m
          (some { record with stat := { record.stat with full := false, EFQ := rest } })).schedule
            [{ waiter := x.waiter, stored := none }])
        (.release work.addr m (Addrstat.unused { record.stat with full := false, EFQ := rest }))
  -- `qthread_master` unlocks for the task that waits
  | park {s : Shared} {m : Nat} {record : Record} :
      s.heap m = some record →
      Act me s (.blocked m) .unlockRecord
        (s.setRecord m (some { record with holder := none })) .parked
  | release {s : Shared} {addr : UInt64} {m : Nat} {removeable : Bool} {record : Record} :
      s.heap m = some record →
      Act me s (.release addr m removeable) .unlockRecord
        (s.setRecord m (some { record with holder := none }))
        (if removeable then .removeEnter addr else .idle)
  | removeLockBin {s : Shared} {addr : UInt64} :
      s.owner (chooseStripe addr) = none →
      Act me s (.removeEnter addr) .lockBin (s.setBin (chooseStripe addr) (some me))
        (.removeLook addr)
  | removeFound {s : Shared} {addr : UInt64} {m : Nat} :
      s.syncvars addr = some m → Act me s (.removeLook addr) .get s (.removeTake addr m)
  | removeMissing {s : Shared} {addr : UInt64} :
      s.syncvars addr = none → Act me s (.removeLook addr) .get s (.removeLeave addr)
  | removeLock {s : Shared} {addr : UInt64} {m : Nat} {record : Record} :
      s.heap m = some record → record.holder = none →
      Act me s (.removeTake addr m) .lockRecord
        (s.setRecord m (some { record with holder := some me })) (.removeBoth addr m)
  | inUse {s : Shared} {addr : UInt64} {m : Nat} {record : Record} :
      s.heap m = some record → Addrstat.unused record.stat = false →
      Act me s (.removeBoth addr m) .unlockRecord
        (s.setRecord m (some { record with holder := none })) (.removeLeave addr)
  | unlink {s : Shared} {addr : UInt64} {m : Nat} {record : Record} :
      s.heap m = some record → Addrstat.unused record.stat = true →
      Act me s (.removeBoth addr m) .unlink
        ((s.setKey addr none).setRecord m (some { record with doomed := some me }))
        (.unlinked (chooseStripe addr) m)
  | removeLeave {s : Shared} {addr : UInt64} :
      Act me s (.removeLeave addr) .unlockBin (s.setBin (chooseStripe addr) none) .idle
  | unlockUnlinked {s : Shared} {lockbin : UInt64} {m : Nat} :
      Act me s (.unlinked lockbin m) .unlockBin (s.setBin lockbin none) (.gone m)
  | dropRecord {s : Shared} {m : Nat} {record : Record} :
      s.heap m = some record →
      Act me s (.gone m) .unlockRecord (s.setRecord m (some { record with holder := none }))
        (.dispose m)
  | delete {s : Shared} {m : Nat} :
      Act me s (.dispose m) .delete (s.setRecord m none) .idle

abbrev Config := Lib.Config Shared Pc

/-- No task is in a call, no lock is held, no record exists and no word claims waiters. -/
structure Fresh (config : Config) : Prop where
  words : ∀ addr, (config.shared.words addr).lock = none ∧ (config.shared.words addr).sf = false
  syncvars : ∀ addr, config.shared.syncvars addr = none
  owner : ∀ lockbin, config.shared.owner lockbin = none
  heap : ∀ m, config.shared.heap m = none
  looking : ∀ task, config.shared.looking task = none
  tasks : ∀ task, config.tasks task = .idle

end Qthreads.Syncvar.Steps
