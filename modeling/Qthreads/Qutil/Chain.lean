import Qthreads.Loop.Reduce

namespace Qthreads.Qutil

open Lib
open Function (update)

/-! `OUTER_LOOP` spawns a task for each chunk but the last, which the caller reduces; each task waits
for the one before it and frees that one's record. -/

def mtLoopChunk : Nat := 10000

inductive Macro where
  | sum
  | mult
  | max
  | min

/-- `_opmacro_(ret, value)`; the sums and products of a signed type wrap around. -/
def Macro.op {α : Type} [Add α] [Mul α] [LT α] [DecidableLT α] : Macro → α → α → α
  | .sum, ret, value => ret + value
  | .mult, ret, value => ret * value
  | .max, ret, value => if ret < value then value else ret
  | .min, ret, value => if ret > value then value else ret

/-- `qutil_uint_sum`, `qutil_uint_mult`, `qutil_uint_max` and `qutil_uint_min` -/
def qutilUint (operator : Macro) (array : Nat → UInt64) (length : Nat) (checkfeb : Bool) :
    Loop.Reduction UInt64 :=
  ⟨operator.op, array, length, checkfeb⟩

/-- `qutil_int_sum`, `qutil_int_mult`, `qutil_int_max` and `qutil_int_min` -/
def qutilInt (operator : Macro) (array : Nat → Int64) (length : Nat) (checkfeb : Bool) :
    Loop.Reduction Int64 :=
  ⟨operator.op, array, length, checkfeb⟩

inductive Pc where
  /-- at `ret = array[start]` -/
  | start
  /-- at `i < stop` -/
  | fold (i : Nat)
  /-- at `qthread_syncvar_readFF` -/
  | await
  /-- at `_opmacro_(ret, *addlast)` -/
  | add
  /-- at `FREE` -/
  | free
  /-- at `qthread_syncvar_fill`, the caller at `return` -/
  | fill
  | done
deriving DecidableEq

/-- The records of the chunks, each with how often its result was consumed and it was freed. -/
structure Chain (α : Type) where
  /-- the records that the caller has made; it is behind them in `pcs` and `rets` -/
  spawned : Nat
  pcs : Nat → Pc
  /-- `ret` of a record, and `myret` -/
  rets : Nat → α
  /-- `ret_sentinel` is full -/
  full : Nat → Bool
  reads : Nat → Nat
  frees : Nat → Nat
  /-- a record was used behind its `FREE` -/
  broken : Bool
  feb : Nat → Bool

variable {α : Type}

namespace Chain

variable (call : Loop.Reduction α) (s : Chain α)

/-- What the array and the bits of its elements are before the call; `blank` is in the words. -/
def begin_ (blank : Nat → α) (feb : Nat → Bool) : Chain α where
  spawned := 0
  pcs := fun _ => .start
  rets := blank
  full := fun _ => false
  reads := fun _ => 0
  frees := fun _ => 0
  broken := false
  feb := feb

def Running (worker : Nat) : Prop :=
  worker < s.spawned ∨ worker = s.spawned ∧ ¬ s.spawned * mtLoopChunk + mtLoopChunk < call.length

def stop (worker : Nat) : Nat :=
  if worker < s.spawned then worker * mtLoopChunk + mtLoopChunk else call.length

def Readable (i : Nat) : Prop := call.checkfeb = true → s.feb i = true

def move (worker : Nat) (pc : Pc) : Chain α := { s with pcs := update s.pcs worker pc }

def setRet (worker : Nat) (value : α) : Chain α :=
  { s with rets := update s.rets worker value }

def use (record : Nat) : Chain α := { s with broken := s.broken || decide (s.frees record ≠ 0) }

def useOwn (worker : Nat) : Chain α := if worker < s.spawned then s.use worker else s

end Chain

/-- A step of the caller's loop, of the task of a chunk (or of the caller behind its loop), or of
somebody who fills an element. -/
inductive ChainMove where
  | spawn
  | worker (worker : Nat)
  | element (i : Nat)

inductive ChainStep (call : Loop.Reduction α) (s : Chain α) : ChainMove → Chain α → Prop where
  | spawn : s.spawned * mtLoopChunk + mtLoopChunk < call.length →
      ChainStep call s .spawn
        { s with spawned := s.spawned + 1, full := update s.full s.spawned false }
  | start {worker : Nat} : s.Running call worker → s.pcs worker = .start →
      s.Readable call (worker * mtLoopChunk) →
      ChainStep call s (.worker worker)
        (((s.useOwn worker).setRet worker (call.array (worker * mtLoopChunk))).move worker
          (.fold (worker * mtLoopChunk + 1)))
  | next {worker i : Nat} : s.pcs worker = .fold i → i < s.stop call worker →
      s.Readable call i →
      ChainStep call s (.worker worker)
        (((s.useOwn worker).setRet worker (call.op (s.rets worker) (call.array i))).move worker
          (.fold (i + 1)))
  | folded {worker i : Nat} : s.pcs worker = .fold i → ¬ i < s.stop call worker →
      ChainStep call s (.worker worker)
        ((s.useOwn worker).move worker (if worker = 0 then .fill else .await))
  | readFF {worker : Nat} : s.pcs worker = .await → s.full (worker - 1) = true →
      ChainStep call s (.worker worker)
        (((s.useOwn worker).use (worker - 1)).move worker .add)
  | add {worker : Nat} : s.pcs worker = .add →
      ChainStep call s (.worker worker)
        { (((s.useOwn worker).use (worker - 1)).setRet worker
            (call.op (s.rets worker) (s.rets (worker - 1)))).move worker .free with
          reads := update s.reads (worker - 1) (s.reads (worker - 1) + 1) }
  | free {worker : Nat} : s.pcs worker = .free →
      ChainStep call s (.worker worker)
        { (s.useOwn worker).move worker .fill with
          frees := update s.frees (worker - 1) (s.frees (worker - 1) + 1) }
  | fill {worker : Nat} : s.pcs worker = .fill →
      ChainStep call s (.worker worker)
        { (s.useOwn worker).move worker .done with
          full := if worker < s.spawned then update s.full worker true else s.full }
  | element {i : Nat} :
      ChainStep call s (.element i) { s with feb := update s.feb i true }

def Chain.Returned (call : Loop.Reduction α) (s : Chain α) : Prop :=
  ¬ s.spawned * mtLoopChunk + mtLoopChunk < call.length ∧ s.pcs s.spawned = .done

/-- In every run no record is used behind its free, freed before its result was consumed, or more
than once; a call that has returned has the result of a single thread and has consumed and freed
every record once; and a call that has not can go on until it has. -/
def Chains (call : Loop.Reduction α) : Prop :=
  ∀ blank feb moves s, Run (ChainStep call) (Chain.begin_ blank feb) moves s →
    (s.broken = false ∧ ∀ k, s.frees k ≤ s.reads k ∧ s.reads k ≤ 1) ∧
    (s.Returned call →
      s.rets s.spawned = call.serial ∧ ∀ k < s.spawned, s.reads k = 1 ∧ s.frees k = 1) ∧
    ∃ more last, Run (ChainStep call) s more last ∧ last.Returned call

end Qthreads.Qutil
