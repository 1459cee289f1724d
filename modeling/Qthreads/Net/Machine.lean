import Qthreads.Feb.Ops
import Qthreads.Net.Actions
import Qthreads.Net.Messages
import Qthreads.Spawn.Return

namespace Qthreads.Net

open Qthreads.Feb (FebState Topology)
open Qthreads.Lib

/-- What the program and the network driver fix before the first remote fork.  Every locale has
its own code addresses and number of workers, and has registered the same uids for the same
actions. -/
structure Network where
  machine : Hash.Machine
  topology : Nat → Topology
  Action : Type
  worldSize : Nat
  small : worldSize ≤ 2 ^ 31
  argcopySize : Nat → Nat
  address : Nat → Action → UInt64
  there : ∀ rank action, address rank action ≠ 0
  apart : ∀ rank, Function.Injective (address rank)
  actions : Nat → List (UInt32 × Action)
  tables : Nat → Tables
  registered : ∀ rank < worldSize, registerAll machine (.create machine)
    ((actions rank).map fun action => (action.1, address rank action.2)) = .ok (tables rank)
  agree : ∀ rank < worldSize, ∀ other < worldSize, ∀ uid,
    bound (actions rank) uid = bound (actions other) uid

inductive Helper where
  | fork
  | forkLong

abbrev Task := Spawn.Qthread Helper

/-- The words with their full/empty state, and the blocks that hold the arguments of tasks. -/
structure Locale where
  feb : FebState
  blocks : Nat → Nat → UInt8
  next : Nat

def overlay (memory : UInt64 → UInt8) (start : UInt64) (bytes : List UInt8) : UInt64 → UInt8 :=
  fun a => bytes.getD (a - start).toNat (memory a)

namespace Locale

def memory (l : Locale) : Spawn.Memory := ⟨l.feb.memory, l.blocks, l.next⟩

/-- `qthread_empty(ret)`; the pool of records is not exhausted. -/
def empty (l : Locale) (topology : Topology) (ret : UInt64) : Locale :=
  { l with feb := (Feb.qthreadEmpty ⟨true, true⟩ ret l.feb).1 }

def writeFConst (l : Locale) (topology : Topology) (dest value : UInt64) : Locale :=
  let stored :=
    { l.feb with memory := overlay l.feb.memory dest (Bytes.encode 8 value.toNat) }
  let lockbin := Feb.Lookup.writeF.lockbin dest
  let key := Feb.qalign dest
  match l.feb.febs lockbin key with
  | none => { l with feb := stored }
  | some m => { l with feb := stored.gotlockFill lockbin key m }

/-- `qthread_fork_copyargs(helper, start, len, NULL)` on a message that the driver has put at
`start`. -/
def forkCopyargs (l : Locale) (argcopySize : Nat) (helper : Helper) (start : UInt64)
    (message : List UInt8) : Locale × Task :=
  let spawned := Spawn.qthreadSpawn argcopySize
    { l.memory with user := overlay l.feb.memory start message } none
    { f := helper, arg := start, argSize := message.length, ret := 0, preconds := []
      targetShep := none, feature := 0 }
  ({ l with blocks := spawned.1.blocks, next := spawned.1.next }, spawned.2)

end Locale

inductive Received where
  | task (task : Task)
  | filled (addr value : UInt64)

/-- `fork_msg_handler`; `none` is `abort`. -/
def forkMsgHandler (argcopySize : Nat) (l : Locale) (start : UInt64) (message : List UInt8) :
    Option (Locale × Received) :=
  if forkMsgSize > message.length then none
  else
    let forked := l.forkCopyargs argcopySize .fork start message
    some (forked.1, .task forked.2)

def forkLongMsgHandler (argcopySize : Nat) (l : Locale) (start : UInt64) (message : List UInt8) :
    Option (Locale × Received) :=
  let forked := l.forkCopyargs argcopySize .forkLong start message
  some (forked.1, .task forked.2)

def returnMsgHandler (topology : Topology) (l : Locale) (message : List UInt8) : Option (Locale × Received) :=
  let addr := UInt64.ofNat (returnAddr.get message)
  let value := UInt64.ofNat (returnVal.get message)
  some (l.writeFConst topology addr value, .filled addr value)

def handle (topology : Topology) (argcopySize : Nat) (l : Locale) (tag : Nat) (start : UInt64)
    (message : List UInt8) : Option (Locale × Received) :=
  if tag = shortMsgTag then forkMsgHandler argcopySize l start message
  else if tag = longMsgTag then forkLongMsgHandler argcopySize l start message
  else if tag = returnMsgTag then returnMsgHandler topology l message
  else none

/-- The call a helper makes: the function, and the bytes it finds at `msg->args`. -/
structure Invocation where
  f : UInt64
  args : Nat → UInt8
  returnAddr : Nat
  originNode : Nat

/-- The body that both helpers have; their structures have the same offsets.  `none` is
`abort`. -/
def helperBody (machine : Hash.Machine) (tables : Tables) (memory : Spawn.Memory)
    (info : Spawn.Pointer) : Option Invocation :=
  let msg := memory.read argsOffset info
  let f := tables.uidToPtr.getLocked machine (UInt64.ofNat (uid.get msg))
  if f ≠ 0 then
    some
      { f
        args := fun i => (memory.read (argsOffset + i + 1) info).getD (argsOffset + i) 0
        returnAddr := returnAddr.get msg
        originNode := originNode.get msg }
  else none

def forkHelper := helperBody
def forkLongHelper := helperBody

def Helper.run : Helper → Hash.Machine → Tables → Spawn.Memory → Spawn.Pointer → Option Invocation
  | .fork => forkHelper
  | .forkLong => forkLongHelper

/-- The one function that `qthread_wrapper` calls for a task, if it is one. -/
def called (task : Task) : Option (Helper × Spawn.Pointer) :=
  match (Spawn.qthreadWrapper task 0).filter Spawn.Event.calls with
  | [.call f arg] => some (f, arg)
  | _ => none

def execute (machine : Hash.Machine) (tables : Tables) (memory : Spawn.Memory) (task : Task) :
    Option Invocation :=
  (called task).bind fun call => call.1.run machine tables memory call.2

/-! The field `call` of callers, packets and jobs numbers the remote forks; no step reads it, and
`calls` and `log` are written only. -/

/-- The local variables of `qthread_fork_remote` after `qthread_empty`. -/
structure Caller where
  call : Nat
  origin : Nat
  uid : UInt64
  arg : UInt64
  ret : UInt64
  rank : Nat
  argLen : Nat

structure Packet where
  call : Nat
  rank : Nat
  tag : Nat
  message : List UInt8

structure Job where
  call : Nat
  rank : Nat
  task : Task

structure Fork (Action : Type) where
  origin : Nat
  rank : Nat
  action : Action
  ret : UInt64
  argLen : Nat

inductive Event where
  | called (call origin : Nat) (ret : UInt64)
  | sent (call : Nat) (given : List UInt8)
  | received (call rank : Nat)
  | ran (call rank : Nat) (f : UInt64) (args : Nat → UInt8) (value : UInt64)
  | answered (call rank : Nat) (value : UInt64)
  | filled (call rank : Nat) (addr value : UInt64)

def Event.call : Event → Nat
  | .called call _ _ | .sent call _ | .received call _ | .ran call _ _ _ _ | .answered call _ _
  | .filled call _ _ _ => call

structure World (net : Network) where
  locales : Nat → Locale
  callers : List Caller
  inFlight : List Packet
  tasks : List Job
  calls : List (Fork net.Action)
  log : List Event

/-- The structure on the stack, or the one that `malloc` gave, before the first assignment. -/
def bufferSize (argLen : Nat) : Nat :=
  if argLen ≤ forkMsgPayload then forkMsgSize else forkLongMsgSize + argLen

def forkTag (argLen : Nat) : Nat := if argLen ≤ forkMsgPayload then shortMsgTag else longMsgTag

variable {net : Network}

/-- The check of `qthread_fork_remote`; it aborts for actions that are not registered. -/
def Network.checks (net : Network) (origin : Nat) (f : UInt64) : Prop :=
  (net.tables origin).uidToPtr.getLocked net.machine
    ((net.tables origin).ptrToUid.getLocked net.machine f) = f

/-- A step inside the library and the driver: the rest of a call, the delivery of a message, or
the execution of a task. -/
inductive Internal : World net → World net → Prop where
  | send {w : World net} {before after : List Caller} {caller : Caller} (buffer : List UInt8) :
      w.callers = before ++ caller :: after →
      buffer.length = bufferSize caller.argLen →
      Internal w
        { w with
          callers := before ++ after
          inFlight := w.inFlight ++
            [{ call := caller.call, rank := caller.rank, tag := forkTag caller.argLen
               message := forkFields buffer caller.uid caller.ret caller.origin
                ((w.locales caller.origin).memory.read caller.argLen (.user caller.arg)) }]
          log := w.log ++ [.sent caller.call
            ((w.locales caller.origin).memory.read caller.argLen (.user caller.arg))] }
  | fork {w : World net} {before after : List Packet} {packet : Packet} (start : UInt64)
      {l : Locale} {task : Task} :
      w.inFlight = before ++ packet :: after →
      handle (net.topology packet.rank) (net.argcopySize packet.rank) (w.locales packet.rank)
        packet.tag start packet.message = some (l, .task task) →
      Internal w
        { w with
          locales := Function.update w.locales packet.rank l
          inFlight := before ++ after
          tasks := w.tasks ++ [⟨packet.call, packet.rank, task⟩]
          log := w.log ++ [.received packet.call packet.rank] }
  | answer {w : World net} {before after : List Packet} {packet : Packet} (start : UInt64)
      {l : Locale} {addr value : UInt64} :
      w.inFlight = before ++ packet :: after →
      handle (net.topology packet.rank) (net.argcopySize packet.rank) (w.locales packet.rank)
        packet.tag start packet.message = some (l, .filled addr value) →
      Internal w
        { w with
          locales := Function.update w.locales packet.rank l
          inFlight := before ++ after
          log := w.log ++ [.filled packet.call packet.rank addr value] }
  | silent {w : World net} {before after : List Job} {job : Job} {run : Invocation}
      (value : UInt64) :
      w.tasks = before ++ job :: after →
      execute net.machine (net.tables job.rank) (w.locales job.rank).memory job.task = some run →
      run.returnAddr = 0 →
      Internal w
        { w with
          tasks := before ++ after
          log := w.log ++ [.ran job.call job.rank run.f run.args value] }
  | return {w : World net} {before after : List Job} {job : Job} {run : Invocation}
      (value : UInt64) (buffer : List UInt8) :
      w.tasks = before ++ job :: after →
      execute net.machine (net.tables job.rank) (w.locales job.rank).memory job.task = some run →
      run.returnAddr ≠ 0 →
      buffer.length = returnMsgSize →
      Internal w
        { w with
          tasks := before ++ after
          inFlight := w.inFlight ++
            [{ call := job.call, rank := run.originNode, tag := returnMsgTag
               message := returnMsg buffer run.returnAddr value }]
          log := w.log ++ [.ran job.call job.rank run.f run.args value,
            .answered job.call run.originNode value] }

/-- The steps of a run: the program calls `qthread_fork_remote` for a registered action, with an
argument whose message fits in the address space; it changes its own memory; or the library goes
on. -/
inductive Step : World net → World net → Prop where
  | call {w : World net} {origin rank : Nat} (action : net.Action) (arg ret : UInt64)
      (argLen : Nat) :
      origin < net.worldSize → rank < net.worldSize → forkLongMsgSize + argLen < 2 ^ 64 →
      net.checks origin (net.address origin action) →
      Step w
        { w with
          locales := if ret ≠ 0 then Function.update w.locales origin
            ((w.locales origin).empty (net.topology origin) ret) else w.locales
          callers := w.callers ++
            [{ call := w.calls.length, origin
               uid := (net.tables origin).ptrToUid.getLocked net.machine
                (net.address origin action)
               arg, ret, rank, argLen }]
          calls := w.calls ++ [⟨origin, rank, action, ret, argLen⟩]
          log := w.log ++ [.called w.calls.length origin ret] }
  | compute {w : World net} (rank : Nat) (memory : UInt64 → UInt8) :
      Step w
        { w with
          locales := Function.update w.locales rank
            { w.locales rank with feb := { (w.locales rank).feb with memory } } }
  | internal {w after : World net} : Internal w after → Step w after

structure Initial (w : World net) : Prop where
  words : ∀ rank lockbin key, (w.locales rank).feb.febs lockbin key = none
  callers : w.callers = []
  inFlight : w.inFlight = []
  tasks : w.tasks = []
  calls : w.calls = []
  log : w.log = []

inductive Reachable : World net → Prop where
  | initial {w : World net} : Initial w → Reachable w
  | step {w after : World net} : Reachable w → Step w after → Reachable after

end Qthreads.Net
