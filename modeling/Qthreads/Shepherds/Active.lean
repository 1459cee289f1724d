import Qthreads.Lib.Run
import Qthreads.Shepherds.Topology

namespace Qthreads.Shepherds

open Lib

structure Qlib where
  nshepherds : Nat
  nworkerspershep : Nat
  nshepherdsActive : UInt64
  nworkersActive : UInt64
  /-- `shepherds[shep].active` -/
  shepherdActive : Nat → Bool
  /-- `shepherds[shep].workers[worker].active` -/
  workerActive : Nat × Nat → Bool

/-- The flag that `qthread_initialize` gives a worker. -/
def startsActive (top : Topology) (i j : Nat) : Bool :=
  if i = 0 ∧ j = 0 then true
  else if i < top.nshepherds.toNat ∧ j < top.nworkerspershep.toNat then
    !decide (intProduct j.toUInt16 top.nshepherds + i.toUInt64 + 1 > top.hwPar)
  else false

/-- The values that `qthread_initialize` gives them; `none` stands for `assert(hw_par > 0)`. -/
def qthreadInitialize (top : Topology) : Option Qlib :=
  if 0 < top.hwPar then some {
    nshepherds := top.nshepherds.toNat
    nworkerspershep := top.nworkerspershep.toNat
    nshepherdsActive := top.nshepherds.toUInt64
    nworkersActive := top.hwPar
    shepherdActive := fun i => decide (i < top.nshepherds.toNat)
    workerActive := fun place => startsActive top place.1 place.2 }
  else none

inductive Code where
  | success
  | notAllowed

namespace Qlib

variable (q : Qlib)

/-- `qthread_disable_shepherd`; here and below, `none` stands for an assertion that fails. -/
def disableShepherd (shep : Nat) : Option (Code × Qlib) :=
  if shep < q.nshepherds then
    if shep = 0 then some (.notAllowed, q)
    else some (.success, { q with
      nshepherdsActive := q.nshepherdsActive - 1
      shepherdActive := casFlag q.shepherdActive shep true false })
  else none

def enableShepherd (shep : Nat) : Option Qlib :=
  if shep < q.nshepherds then some { q with
    nshepherdsActive := q.nshepherdsActive + 1
    shepherdActive := casFlag q.shepherdActive shep false true }
  else none

def disableWorker (w : Nat) : Option (Code × Qlib) :=
  let shep := w % q.nshepherds
  let worker := w / q.nshepherds
  if shep < q.nshepherds ∧ worker < q.nworkerspershep then
    if worker = 0 ∧ shep = 0 then some (.notAllowed, q)
    else
      let after := { q with
        workerActive := casFlag q.workerActive (shep, worker) true false
        nworkersActive := q.nworkersActive - 1 }
      if worker = 0 then (after.disableShepherd shep).map fun (_, after) => (.success, after)
      else some (.success, after)
  else none

def enableWorker (w : Nat) : Option Qlib :=
  let shep := w % q.nshepherds
  let worker := w / q.nshepherds
  if shep < q.nshepherds then
    (if worker = 0 then q.enableShepherd shep else some q).map fun q =>
      if worker < q.nworkerspershep then { q with
        nworkersActive := q.nworkersActive + 1
        workerActive := casFlag q.workerActive (shep, worker) false true }
      else q
  else none

end Qlib

inductive Label where
  | disableShepherd (shep : Nat) (code : Code)
  | enableShepherd (shep : Nat)
  | disableWorker (w : Nat) (code : Code)
  | enableWorker (w : Nat)

namespace Qlib

def Step (q : Qlib) : Label → Qlib → Prop
  | .disableShepherd shep code, after => q.disableShepherd shep = some (code, after)
  | .enableShepherd shep, after => q.enableShepherd shep = some after
  | .disableWorker w code, after => q.disableWorker w = some (code, after)
  | .enableWorker w, after => q.enableWorker w = some after

variable (q : Qlib)

def Rejects : Label → Prop
  | .disableShepherd _ code | .disableWorker _ code => code ≠ .success
  | .enableShepherd _ => False
  | .enableWorker w => q.nworkerspershep ≤ w / q.nshepherds

def Flips : Label → Prop
  | .disableShepherd shep _ => shep ≠ 0 → q.shepherdActive shep = true
  | .enableShepherd shep => q.shepherdActive shep = false
  | .disableWorker w _ => w ≠ 0 → q.workerActive (w % q.nshepherds, w / q.nshepherds) = true ∧
      (w / q.nshepherds = 0 → q.shepherdActive (w % q.nshepherds) = true)
  | .enableWorker w => w / q.nshepherds < q.nworkerspershep →
      q.workerActive (w % q.nshepherds, w / q.nshepherds) = false ∧
      (w / q.nshepherds = 0 → q.shepherdActive (w % q.nshepherds) = false)

def shepherds : Finset Nat := Finset.range q.nshepherds

def workers : Finset (Nat × Nat) := Finset.range q.nshepherds ×ˢ Finset.range q.nworkerspershep

/-- The counts are those of the flags that are set, there is a shepherd and a worker, and a call that is
rejected changes nothing. -/
structure Right : Prop where
  shepherds : q.nshepherdsActive.toNat = raised q.shepherds q.shepherdActive
  workers : q.nworkersActive.toNat = raised q.workers q.workerActive
  shepherd : 1 ≤ q.nshepherdsActive
  worker : 1 ≤ q.nworkersActive
  rejected : ∀ label after, q.Step label after → q.Rejects label → after = q

end Qlib

end Qthreads.Shepherds
