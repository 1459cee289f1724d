import Qthreads.Syncvar.Word

namespace Qthreads.Syncvar

/-! The calls of `syncvar.c`, one at a time

Each call is a function of the syncvar's word and of the `addrstat` its stripe
holds for it.  The word is unlocked when a call starts, and the lock bit, the
stripe lock and `m->lock` are all free again when it ends, so none of them
appears between two calls.  Contention is kept where it changes the path a call
takes: `Spin` says which looks at the word found it locked by somebody else. -/

abbrev Task := Nat

structure EFlags where
  cf : Bool := false
  zf : Bool := false
  of : Bool := false
  pf : Bool := false
  sf : Bool := false

/-- `qthread_addrres_t`.  A queued writer is modelled with the value behind its
`addr` (the writer sleeps until that value is stored), a queued reader with
whether its `addr` is non-NULL. -/
structure Addrres (α : Type) where
  addr : α
  waiter : Task

structure Addrstat where
  EFQ : List (Addrres UInt64)
  FEQ : List (Addrres Bool)
  FFQ : List (Addrres Bool)
  full : Bool

def addrstatNew : Addrstat := { EFQ := [], FEQ := [], FFQ := [], full := true }

structure Cell where
  word : Word
  addrstat : Option Addrstat

/-- One `qthread_syncvar_schedule`, with what was stored through the waiter's `addr`. -/
structure Wake where
  waiter : Task
  stored : Option UInt64

inductive Answer where
  | success (value : Option UInt64)
  | opfail
  | blocked

/-- The assertions of the file: `overflow` and `timeout` are the `qassert_ret`s on
the arguments and on the last `mwaitc`, the others speak about the queues. -/
inductive Abort where
  | overflow
  | timeout
  | noAddrstat
  | noWaiters
  | snuckIn

def Abort.AboutQueues : Abort → Prop
  | .overflow | .timeout => False
  | .noAddrstat | .noWaiters | .snuckIn => True

/-- Which looks at the word see it locked by another task: the optimistic load of
`readFF`, and every attempt of the first and of the second `mwaitc`. -/
structure Spin where
  load : Bool
  first : Nat → Bool
  second : Nat → Bool

def Spin.free : Spin := { load := false, first := fun _ => false, second := fun _ => false }

abbrev Result := Except Abort (Cell × Answer × List Wake)

def syncfebFull : UInt64 := 0x3

def syncfebEmpty : UInt64 := 0xc

def syncfebAny : UInt64 := 0xf

def initialTimeout : Nat := 100

def intMax : Nat := 2147483647

structure Mwaitc where
  err : EFlags
  ret : UInt64
  addr : Word

/-- `qthread_mwaitc` on an unlocked word.  An attempt that finds the word locked,
or that locks it in a state outside `statemask` and unlocks it again, costs one
unit of `timeout`. -/
def mwaitc (addr : Word) (statemask : UInt64) (busy : Nat → Bool) (timeout : Nat) : Mwaitc :=
  if !busy timeout && (statemask &&& ((1 : UInt64) <<< addr.state)) != 0 then
    { err :=
        { cf := false
          sf := (addr.state &&& 1) != 0
          pf := ((addr.state >>> 1) &&& 1) != 0
          of := ((addr.state >>> 2) &&& 1) != 0 }
      ret := addr.data
      addr := addr.locked }
  else
    match timeout with
    | 0 => { err := { cf := true }, ret := 0, addr := addr }
    | rest + 1 => mwaitc addr statemask busy rest

/-- `if (X->addr) *(uint64_t *)X->addr = ret;` and the schedule that follows. -/
def deliver (ret : UInt64) (x : Addrres Bool) : Wake :=
  { waiter := x.waiter, stored := if x.addr then some ret else none }

def syncvarRemove : Option Addrstat → Option Addrstat
  | none => none
  | some m => if m.FEQ.isEmpty && m.EFQ.isEmpty && m.FFQ.isEmpty then none else some m

/-- The end of both `gotlock` functions: drop `m->lock`, then remove the record
if the queues were found empty under the lock. -/
def release (m : Addrstat) : Option Addrstat :=
  if m.EFQ.isEmpty && m.FEQ.isEmpty && m.FFQ.isEmpty then syncvarRemove (some m) else some m

/-- `qthread_syncvar_gotlock_empty`.  Only the dequeued writer unlocks the word. -/
def syncvarGotlockEmpty (m : Addrstat) (maddr : Word) (sf : Bool) : Cell × List Wake :=
  match m.EFQ with
  | [] => ({ word := maddr, addrstat := release { m with full := false } }, [])
  | x :: rest =>
    ({ word := buildUnlockedSyncvar x.addr (stateBits false sf)
       addrstat := release { m with full := false, EFQ := rest } },
      [{ waiter := x.waiter, stored := none }])

/-- `qthread_syncvar_gotlock_fill`: all of FFQ, then one of FEQ. -/
def syncvarGotlockFill (m : Addrstat) (ret : UInt64) : Option Addrstat × List Wake :=
  match m.FEQ with
  | [] => (release { m with full := true, FFQ := [] }, m.FFQ.map (deliver ret))
  | x :: rest =>
    (release { m with full := true, FFQ := [], FEQ := rest },
      m.FFQ.map (deliver ret) ++ [deliver ret x])

/-- `assert(m->FFQ || m->FEQ); assert(m->EFQ == NULL);` -/
def assertReaders (m : Addrstat) : Option Abort :=
  if m.FFQ.isEmpty && m.FEQ.isEmpty then some .noWaiters
  else if !m.EFQ.isEmpty then some .snuckIn
  else none

/-- The two assertions of `incrF`, which name EFQ and FEQ the other way round:
`assert(m->FFQ || m->EFQ); assert(m->FEQ == NULL);` -/
def assertReadersIncr (m : Addrstat) : Option Abort :=
  if m.FFQ.isEmpty && m.EFQ.isEmpty then some .noWaiters
  else if !m.FEQ.isEmpty then some .snuckIn
  else none

/-- `assert(m->EFQ); assert(m->FFQ == NULL && m->FEQ == NULL);` -/
def assertWriters (m : Addrstat) : Option Abort :=
  if m.EFQ.isEmpty then some .noWaiters
  else if !m.FFQ.isEmpty || !m.FEQ.isEmpty then some .snuckIn
  else none

/-- The waiter path of `fill`, `writeF`, `writeEF`, `writeEF_nb` and `incrF`: the
new state is recomputed from FEQ, of which one entry is about to be dequeued. -/
def fillWaiters (asserts : Addrstat → Option Abort) (val : UInt64) (answer : Answer)
    (s : Cell) : Result :=
  match s.addrstat with
  | none => .error .noAddrstat
  | some m =>
    match asserts m with
    | some failed => .error failed
    | none =>
      let pf := !m.FEQ.isEmpty
      let sf := !m.FEQ.tail.isEmpty
      let filled := syncvarGotlockFill m val
      .ok ({ word := buildUnlockedSyncvar val (stateBits pf sf), addrstat := filled.1 },
        answer, filled.2)

/-- The waiter path of `empty`, `readFE` and `readFE_nb`: the first queued writer
fills the word again. -/
def emptyWaiters (answer : Answer) (locked : Word) (s : Cell) : Result :=
  match s.addrstat with
  | none => .error .noAddrstat
  | some m =>
    match assertWriters m with
    | some failed => .error failed
    | none =>
      let emptied := syncvarGotlockEmpty m locked (!m.EFQ.tail.isEmpty)
      .ok (emptied.1, answer, emptied.2)

def unlockWith (s : Cell) (val : UInt64) (state : UInt64) (answer : Answer) : Result :=
  .ok ({ s with word := buildUnlockedSyncvar val state }, answer, [])

def Cell.stat (s : Cell) : Addrstat := s.addrstat.getD addrstatNew

def Cell.EFQ (s : Cell) : List (Addrres UInt64) := s.stat.EFQ

def Cell.FEQ (s : Cell) : List (Addrres Bool) := s.stat.FEQ

def Cell.FFQ (s : Cell) : List (Addrres Bool) := s.stat.FFQ

/-- `if (dest) { *dest = ret; }` -/
def readAnswer (dest : Bool) (ret : UInt64) : Answer := .success (if dest then some ret else none)

def syncvarReadFF (me : Task) (dest : Bool) (spin : Spin) (s : Cell) : Result :=
  if !spin.load && s.word.lock == 0 && (s.word.state &&& 2) == 0 then
    -- the optimistic 64-bit load saw an unlocked full word
    .ok (s, readAnswer dest s.word.data, [])
  else
    let lockedFull (got : Mwaitc) : Result :=
      unlockWith s got.ret (stateBits false got.err.sf) (readAnswer dest got.ret)
    let got := mwaitc s.word syncfebFull spin.first initialTimeout
    if got.err.cf then
      let got := mwaitc s.word syncfebAny spin.second intMax
      if got.err.cf then .error .timeout
      else if !got.err.pf then lockedFull got
      else
        .ok ({ word := buildUnlockedSyncvar got.ret 3
               addrstat := some { s.stat with FFQ := ⟨dest, me⟩ :: s.stat.FFQ } },
          .blocked, [])
    else lockedFull got

def syncvarReadFFNb (dest : Bool) (spin : Spin) (s : Cell) : Result :=
  if !spin.load && s.word.lock == 0 && (s.word.state &&& 2) == 0 then
    .ok (s, readAnswer dest s.word.data, [])
  else
    let got := mwaitc s.word syncfebFull spin.first 1
    if got.err.cf then .ok (s, .opfail, [])
    else unlockWith s got.ret (stateBits false got.err.sf) (readAnswer dest got.ret)

def syncvarFill (spin : Spin) (s : Cell) : Result :=
  let got := mwaitc s.word syncfebAny spin.first intMax
  if got.err.cf then .error .timeout
  else if got.err.pf then
    if got.err.sf then fillWaiters assertReaders got.ret (.success none) s
    else unlockWith s got.ret 0 (.success none)
  else unlockWith s got.ret (stateBits false got.err.sf) (.success none)

def syncvarEmpty (spin : Spin) (s : Cell) : Result :=
  let got := mwaitc s.word syncfebAny spin.first intMax
  if got.err.cf then .error .timeout
  else if !got.err.pf then
    if got.err.sf then emptyWaiters (.success none) got.addr s
    else unlockWith s got.ret 2 (.success none)
  else unlockWith s got.ret (2 ||| stateBits false got.err.sf) (.success none)

def syncvarReadFE (me : Task) (dest : Bool) (spin : Spin) (s : Cell) : Result :=
  let locked (got : Mwaitc) : Result :=
    if got.err.sf then emptyWaiters (readAnswer dest got.ret) got.addr s
    else unlockWith s got.ret 2 (readAnswer dest got.ret)
  let got := mwaitc s.word syncfebFull spin.first initialTimeout
  if got.err.cf then
    let got := mwaitc s.word syncfebAny spin.second intMax
    if got.err.cf then .error .timeout
    else if !got.err.pf then locked got
    else
      -- `X->addr` is the local `ret`, so the value is always delivered
      .ok ({ word := buildUnlockedSyncvar got.ret 3
             addrstat := some { s.stat with FEQ := ⟨true, me⟩ :: s.stat.FEQ } },
        .blocked, [])
  else locked got

def syncvarReadFENb (dest : Bool) (spin : Spin) (s : Cell) : Result :=
  let got := mwaitc s.word syncfebFull spin.first 1
  if got.err.cf then .ok (s, .opfail, [])
  else if got.err.sf then emptyWaiters (readAnswer dest got.ret) got.addr s
  else unlockWith s got.ret 2 (readAnswer dest got.ret)

def syncvarWriteF (src : UInt64) (spin : Spin) (s : Cell) : Result :=
  if src >>> 60 != 0 then .error .overflow
  else
    let got := mwaitc s.word syncfebAny spin.first intMax
    if got.err.cf then .error .timeout
    else if got.err.pf && got.err.sf then fillWaiters assertReaders src (.success none) s
    else unlockWith s src 0 (.success none)

def syncvarWriteEF (me : Task) (src : UInt64) (spin : Spin) (s : Cell) : Result :=
  if src >>> 60 != 0 then .error .overflow
  else
    let locked (got : Mwaitc) : Result :=
      if got.err.sf then fillWaiters assertReaders src (.success none) s
      else unlockWith s src 0 (.success none)
    let got := mwaitc s.word syncfebEmpty spin.first initialTimeout
    if got.err.cf then
      let got := mwaitc s.word syncfebAny spin.second intMax
      if got.err.cf then .error .timeout
      else if got.err.pf then locked got
      else
        .ok ({ word := buildUnlockedSyncvar got.ret 1
               addrstat := some { s.stat with EFQ := ⟨src, me⟩ :: s.stat.EFQ } },
          .blocked, [])
    else locked got

def syncvarWriteEFNb (src : UInt64) (spin : Spin) (s : Cell) : Result :=
  if src >>> 60 != 0 then .error .overflow
  else
    let got := mwaitc s.word syncfebEmpty spin.first 1
    if got.err.cf then .ok (s, .opfail, [])
    else if got.err.sf then fillWaiters assertReaders src (.success none) s
    else unlockWith s src 0 (.success none)

def syncvarIncrF (inc : UInt64) (spin : Spin) (s : Cell) : Result :=
  let got := mwaitc s.word syncfebAny spin.first intMax
  if got.err.cf then .error .timeout
  else
    let newv := s.word.data + inc
    if got.err.pf && got.err.sf then fillWaiters assertReadersIncr newv (.success (some newv)) s
    else unlockWith s newv (stateBits got.err.pf got.err.sf) (.success (some newv))

inductive Op where
  | readFF (dest : Bool)
  | readFFNb (dest : Bool)
  | readFE (dest : Bool)
  | readFENb (dest : Bool)
  | writeEF (src : UInt64)
  | writeEFNb (src : UInt64)
  | writeF (src : UInt64)
  | fill
  | empty
  | incrF (inc : UInt64)

structure Call where
  me : Task
  op : Op
  spin : Spin

def Call.apply (call : Call) : Cell → Result :=
  match call.op with
  | .readFF dest => syncvarReadFF call.me dest call.spin
  | .readFFNb dest => syncvarReadFFNb dest call.spin
  | .readFE dest => syncvarReadFE call.me dest call.spin
  | .readFENb dest => syncvarReadFENb dest call.spin
  | .writeEF src => syncvarWriteEF call.me src call.spin
  | .writeEFNb src => syncvarWriteEFNb src call.spin
  | .writeF src => syncvarWriteF src call.spin
  | .fill => syncvarFill call.spin
  | .empty => syncvarEmpty call.spin
  | .incrF inc => syncvarIncrF inc call.spin

def Step (before : Cell) (call : Call) (after : Cell) : Prop :=
  ∃ answer woken, call.apply before = .ok (after, answer, woken)

end Qthreads.Syncvar
