import Qthreads.Feb.Stripe

namespace Qthreads.Feb

open Function (update)

/-! The calls of `feb.c`, one at a time

The state holds the stripes' hash tables, the bytes of memory, and what the calls read and
change of each task: its `thread_state` and the preconditions it still has to meet.  Every
call releases all its locks before it ends, so no lock appears between two calls. -/

abbrev Task := Nat

abbrev Memory := UInt64 → UInt8

/-- `qthread_addrres_t`, without the link. -/
structure Addrres where
  addr : UInt64
  waiter : Task

/-- `qthread_addrstat_t`; the queues are pushed and popped at the front. -/
structure Addrstat where
  full : Bool
  EFQ : List Addrres
  FEQ : List Addrres
  FFQ : List Addrres

def addrstatNew : Addrstat := { full := true, EFQ := [], FEQ := [], FFQ := [] }

inductive ThreadState where
  | unborn
  | nascent
  | new
  | running
  | febBlocked
  | terminated
deriving DecidableEq

/-- What the calls do to tasks and words, in the order in which they do it. -/
inductive Event where
  | enqueued (task : Task)
  | scheduled (task : Task)
  | handed (task : Task)
  | launched (task : Task)
  | setFull (key : UInt64) (full : Bool)
deriving DecidableEq

structure FebState where
  febs : UInt64 → UInt64 → Option Addrstat
  memory : Memory
  threads : Task → ThreadState
  preconds : Task → List UInt64
  log : List Event

namespace FebState

def put (s : FebState) (lockbin key : UInt64) (m : Option Addrstat) : FebState :=
  { s with febs := update s.febs lockbin (update (s.febs lockbin) key m) }

def setThread (s : FebState) (task : Task) (state : ThreadState) : FebState :=
  { s with threads := update s.threads task state }

def emit (s : FebState) (event : Event) : FebState :=
  { s with log := s.log ++ [event] }

/-- `if (dest && (dest != src)) *dest = *src;` -/
def copy (s : FebState) (dest src : UInt64) : FebState :=
  if dest ≠ 0 ∧ dest ≠ src then
    { s with memory := fun a => if a - dest < 8 then s.memory (src + (a - dest)) else s.memory a }
  else s

def nascent (s : FebState) (task : Task) : Bool := s.threads task == .nascent

def schedule (s : FebState) (task : Task) : FebState :=
  (s.setThread task .running).emit (.scheduled task)

end FebState

inductive Lookup where
  | empty
  | fill
  | writeF
  | writeEF
  | writeEFNb
  | readFF
  | readFFNb
  | readFE
  | readFENb
  | febStatus
  | checkFebPreconds

variable [Topology]

/-- The stripe each of them locks: `qthread_empty` alone takes that of the aligned address. -/
def Lookup.lockbin (by_ : Lookup) (addr : UInt64) : UInt64 :=
  match by_ with
  | .empty => chooseStripe2 (qalign addr)
  | _ => chooseStripe2 addr

inductive Wake where
  | setFull (full : Bool)
  | copy (dest src : UInt64)
  | schedule (task : Task)
  | collect (task : Task)
deriving DecidableEq

def wakeFFQ (nascent : Task → Bool) (maddr : UInt64) (x : Addrres) : List Wake :=
  [.copy x.addr maddr, if nascent x.waiter then .collect x.waiter else .schedule x.waiter]

mutual

/-- `qthread_gotlock_fill_inner` up to the unlock.  Each recursive call is paid for by a
task taken from EFQ or FEQ. -/
def gotlockFillInner (nascent : Task → Bool) (maddr : UInt64) :
    Nat → Addrstat → Addrstat × List Wake
  | 0, m => (m, [])
  | fuel + 1, m =>
    let woken := Wake.setFull true :: m.FFQ.flatMap (wakeFFQ nascent maddr)
    match m.FEQ with
    | [] => ({ m with full := true, FFQ := [] }, woken)
    | x :: rest =>
      let emptied := gotlockEmptyInner nascent maddr fuel
        { m with full := true, FFQ := [], FEQ := rest }
      (emptied.1, woken ++ [.copy x.addr maddr, .schedule x.waiter] ++ emptied.2)

/-- `qthread_gotlock_empty_inner` up to the unlock. -/
def gotlockEmptyInner (nascent : Task → Bool) (maddr : UInt64) :
    Nat → Addrstat → Addrstat × List Wake
  | 0, m => (m, [])
  | fuel + 1, m =>
    match m.EFQ with
    | [] => ({ m with full := false }, [.setFull false])
    | x :: rest =>
      let filled := gotlockFillInner nascent maddr fuel { m with full := false, EFQ := rest }
      (filled.1, [.setFull false, .copy maddr x.addr, .schedule x.waiter] ++ filled.2)

end

def Addrstat.depth (m : Addrstat) : Nat := m.EFQ.length + m.FEQ.length + 1

def Addrstat.unused (m : Addrstat) : Bool :=
  m.FEQ.isEmpty && m.EFQ.isEmpty && m.FFQ.isEmpty && m.full

namespace FebState

def perform (s : FebState) (maddr : UInt64) : List Wake → FebState
  | [] => s
  | .setFull full :: rest => (s.emit (.setFull maddr full)).perform maddr rest
  | .copy dest src :: rest => (s.copy dest src).perform maddr rest
  | .schedule task :: rest => (s.schedule task).perform maddr rest
  | .collect task :: rest => (s.emit (.handed task)).perform maddr rest

def collected : List Wake → List Task
  | [] => []
  | .collect task :: rest => task :: collected rest
  | _ :: rest => collected rest

/-- `qthread_check_feb_preconds` from the precondition that is checked next; `true` if the
task has to wait. -/
def checkFebPreconds (s : FebState) (task : Task) : List UInt64 → FebState × Bool
  | [] =>
    ({ s.setThread task .new with preconds := update s.preconds task [] }, false)
  | this :: rest =>
    let lockbin := Lookup.checkFebPreconds.lockbin this
    let key := qalign this
    match s.febs lockbin key with
    | none => s.checkFebPreconds task rest
    | some m =>
      if m.full then s.checkFebPreconds task rest
      else
        let queued := s.put lockbin key (some { m with FFQ := ⟨0, task⟩ :: m.FFQ })
        ({ (queued.setThread task .nascent).emit (.enqueued task) with
            preconds := update s.preconds task (this :: rest) }, true)

def precondLaunch (s : FebState) : List Task → FebState
  | [] => s
  | task :: rest =>
    let checked := s.checkFebPreconds task (s.preconds task)
    (if checked.2 then checked.1 else checked.1.emit (.launched task)).precondLaunch rest

def febRemove (s : FebState) (maddr : UInt64) : FebState :=
  let lockbin := chooseStripe2 maddr
  match s.febs lockbin maddr with
  | none => s
  | some m => if m.unused then s.put lockbin maddr none else s

/-- The end of both `gotlock` functions: store the record and unlock it, launch the tasks that
were collected, and remove the record if it was found removeable under the lock. -/
def release (s : FebState) (lockbin maddr : UInt64) (m : Addrstat) (woken : List Wake)
    (removeable : Bool) : FebState :=
  let launched := ((s.put lockbin maddr (some m)).perform maddr woken).precondLaunch (collected woken)
  if removeable then launched.febRemove maddr else launched

def gotlockFill (s : FebState) (lockbin maddr : UInt64) (m : Addrstat) : FebState :=
  let filled := gotlockFillInner s.nascent maddr m.depth m
  s.release lockbin maddr filled.1 filled.2
    (filled.1.EFQ.isEmpty && filled.1.FEQ.isEmpty && filled.1.full)

def gotlockEmpty (s : FebState) (lockbin maddr : UInt64) (m : Addrstat) : FebState :=
  let emptied := gotlockEmptyInner s.nascent maddr m.depth m
  s.release lockbin maddr emptied.1 emptied.2 emptied.1.unused

/-- `qthread_back_to_master` after the caller has put itself into a queue of `m`. -/
def block (s : FebState) (me : Task) (lockbin key : UInt64) (m : Addrstat) : FebState :=
  ((s.put lockbin key (some m)).setThread me .febBlocked).emit (.enqueued me)

end FebState

inductive Answer where
  | success
  | opfail
  | mallocError
  | blocked
  | status (full : Bool)
deriving DecidableEq

structure Alloc where
  addrstat : Bool
  addrres : Bool
deriving DecidableEq

def qthreadEmpty (alloc : Alloc) (dest : UInt64) (s : FebState) : FebState × Answer :=
  let lockbin := Lookup.empty.lockbin dest
  let key := qalign dest
  match s.febs lockbin key with
  | none =>
    if alloc.addrstat then
      ((s.put lockbin key (some { addrstatNew with full := false })).emit (.setFull key false),
        .success)
    else (s, .mallocError)
  | some m => (s.gotlockEmpty lockbin key m, .success)

def qthreadFill (dest : UInt64) (s : FebState) : FebState × Answer :=
  let lockbin := Lookup.fill.lockbin dest
  let key := qalign dest
  match s.febs lockbin key with
  | none => (s, .success)
  | some m => (s.gotlockFill lockbin key m, .success)

def qthreadWriteF (dest src : UInt64) (s : FebState) : FebState × Answer :=
  let lockbin := Lookup.writeF.lockbin dest
  let key := qalign dest
  match s.febs lockbin key with
  | none => (s.copy dest src, .success)
  | some m => ((s.copy dest src).gotlockFill lockbin key m, .success)

def lookupOrNew (s : FebState) (alloc : Alloc) (lockbin key : UInt64) : Option Addrstat :=
  match s.febs lockbin key with
  | none => if alloc.addrstat then some addrstatNew else none
  | some m => some m

def qthreadWriteEF (me : Task) (alloc : Alloc) (dest src : UInt64) (s : FebState) :
    FebState × Answer :=
  let lockbin := Lookup.writeEF.lockbin dest
  let key := qalign dest
  match lookupOrNew s alloc lockbin key with
  | none => (s, .mallocError)
  | some m =>
    if m.full then
      if alloc.addrres then
        (s.block me lockbin key { m with EFQ := ⟨src, me⟩ :: m.EFQ }, .blocked)
      else (s.put lockbin key (some m), .mallocError)
    else ((s.copy dest src).gotlockFill lockbin key m, .success)

def qthreadWriteEFNb (dest src : UInt64) (s : FebState) : FebState × Answer :=
  let lockbin := Lookup.writeEFNb.lockbin dest
  let key := qalign dest
  match s.febs lockbin key with
  | none => (s, .opfail)
  | some m =>
    if m.full then (s, .opfail)
    else ((s.copy dest src).gotlockFill lockbin key m, .success)

def qthreadReadFF (me : Task) (alloc : Alloc) (dest src : UInt64) (s : FebState) :
    FebState × Answer :=
  let lockbin := Lookup.readFF.lockbin src
  let key := qalign src
  match s.febs lockbin key with
  | none => (s.copy dest src, .success)
  | some m =>
    if m.full then (s.copy dest src, .success)
    else if alloc.addrres then
      (s.block me lockbin key { m with FFQ := ⟨dest, me⟩ :: m.FFQ }, .blocked)
    else (s, .mallocError)

def qthreadReadFFNb (dest src : UInt64) (s : FebState) : FebState × Answer :=
  let lockbin := Lookup.readFFNb.lockbin src
  let key := qalign src
  match s.febs lockbin key with
  | none => (s.copy dest src, .success)
  | some m => if m.full then (s.copy dest src, .success) else (s, .opfail)

def qthreadReadFE (me : Task) (alloc : Alloc) (dest src : UInt64) (s : FebState) :
    FebState × Answer :=
  let lockbin := Lookup.readFE.lockbin src
  let key := qalign src
  match lookupOrNew s alloc lockbin key with
  | none => (s, .mallocError)
  | some m =>
    if m.full then ((s.copy dest src).gotlockEmpty lockbin key m, .success)
    else if alloc.addrres then
      (s.block me lockbin key { m with FEQ := ⟨dest, me⟩ :: m.FEQ }, .blocked)
    else (s.put lockbin key (some m), .mallocError)

def qthreadReadFENb (alloc : Alloc) (dest src : UInt64) (s : FebState) : FebState × Answer :=
  let lockbin := Lookup.readFENb.lockbin src
  let key := qalign src
  match lookupOrNew s alloc lockbin key with
  | none => (s, .mallocError)
  | some m =>
    if m.full then ((s.copy dest src).gotlockEmpty lockbin key m, .success)
    else (s.put lockbin key (some m), .opfail)

def qthreadFebStatus (addr : UInt64) (s : FebState) : FebState × Answer :=
  let lockbin := Lookup.febStatus.lockbin addr
  let key := qalign addr
  match s.febs lockbin key with
  | none => (s, .status true)
  | some m => (s, .status m.full)

/-- The part of `qthread_spawn` that deals with preconditions. -/
def qthreadSpawn (task : Task) (preconds : List UInt64) (s : FebState) : FebState × Answer :=
  let checked := s.checkFebPreconds task preconds
  (if checked.2 then checked.1 else checked.1.emit (.launched task), .success)

inductive Op where
  | empty (dest : UInt64)
  | fill (dest : UInt64)
  | writeF (dest src : UInt64)
  | writeEF (dest src : UInt64)
  | writeEFNb (dest src : UInt64)
  | readFF (dest src : UInt64)
  | readFFNb (dest src : UInt64)
  | readFE (dest src : UInt64)
  | readFENb (dest src : UInt64)
  | febStatus (addr : UInt64)
  | spawn (task : Task) (preconds : List UInt64)
  | start (task : Task)
  | finish
deriving DecidableEq

structure Call where
  me : Task
  op : Op
  alloc : Alloc
deriving DecidableEq

def Call.apply (call : Call) (s : FebState) : FebState × Answer :=
  match call.op with
  | .empty dest => qthreadEmpty call.alloc dest s
  | .fill dest => qthreadFill dest s
  | .writeF dest src => qthreadWriteF dest src s
  | .writeEF dest src => qthreadWriteEF call.me call.alloc dest src s
  | .writeEFNb dest src => qthreadWriteEFNb dest src s
  | .readFF dest src => qthreadReadFF call.me call.alloc dest src s
  | .readFFNb dest src => qthreadReadFFNb dest src s
  | .readFE dest src => qthreadReadFE call.me call.alloc dest src s
  | .readFENb dest src => qthreadReadFENb call.alloc dest src s
  | .febStatus addr => qthreadFebStatus addr s
  | .spawn task preconds => qthreadSpawn task preconds s
  | .start task => (s.setThread task .running, .success)
  | .finish => (s.setThread call.me .terminated, .success)

/-- A call is made by a task that runs; a spawned task is a fresh one, and only a task that
has met its preconditions is started. -/
def Call.Enabled (call : Call) (s : FebState) : Prop :=
  match call.op with
  | .spawn task _ => s.threads call.me = .running ∧ s.threads task = .unborn
  | .start task => s.threads task = .new
  | _ => s.threads call.me = .running

def Step (s : FebState) (call : Call) (after : FebState) : Prop :=
  call.Enabled s ∧ (call.apply s).1 = after

structure Fresh (s : FebState) : Prop where
  febs : ∀ lockbin key, s.febs lockbin key = none
  threads : ∀ task, s.threads task = .unborn ∨ s.threads task = .new ∨ s.threads task = .running
  preconds : ∀ task, s.preconds task = []
  log : s.log = []

end Qthreads.Feb
