import Qthreads.Sincs.Grids

namespace Qthreads.Sincs.Indicator

open Qthreads.Lib

/-! The non-zero indicator of `snzi.c`

Expects and submits of several tasks; each load, compare-and-swap and increment is one step.  The
values are left out. -/

open Selectable (Machine snziHalf snziOne)

/-- The words, with how many submits are still covered by the first count and by the expects that
have returned. -/
structure Shared where
  counts : Nat → Nat
  remaining : Nat
  ready : Bool
  covered : Nat

/-- `qt_sinc_init`, which finds `garbage` in the counts. -/
def Shared.create (machine : Machine) (garbage : Nat → Nat) (expect : Nat) : Shared where
  counts := if 0 < expect then Selectable.Snzi.spread machine expect garbage else garbage
  remaining := if 0 < expect then Selectable.Snzi.spreadRemaining machine expect else 0
  ready := decide (expect = 0)
  covered := expect

namespace Shared

variable (s : Shared)

def store (shep count : Nat) : Shared := { s with counts := Function.update s.counts shep count }

/-- `qthread_incr(&snzi->remaining, 1)` -/
def arrive : Shared := { s with remaining := (s.remaining + 1) % countRange }

/-- `qthread_incr(&snzi->remaining, undoArr)` -/
def undo (arrivals : Nat) : Shared :=
  { s with remaining := (s.remaining + countRange - arrivals) % countRange }

/-- `qthread_incr(&snzi->remaining, -1)` -/
def leave : Shared := s.undo 1

def fill : Shared := { s with ready := true }

def cover (count : Nat) : Shared := { s with covered := s.covered + count }

def spend : Shared := { s with covered := s.covered - 1 }

end Shared

/-- Where a task is: at the load, the compare-and-swap or the increment that it makes next. -/
inductive Pc where
  | idle
  /-- `qt_sinc_expect`, at `c = *C`, with `-undoArr` -/
  | expect (shep count arrivals : Nat)
  /-- at `qthread_cas(C, c, c + count)` -/
  | add (shep count arrivals c : Nat)
  /-- at `qthread_cas(C, 0, SNZI_HALF)` -/
  | half (shep count arrivals : Nat)
  /-- at `qthread_incr(&snzi->remaining, 1)`; `own` tells that `succ` is set -/
  | arrive (shep count arrivals : Nat) (own : Bool)
  /-- at `qthread_cas(C, SNZI_HALF, count + 1)` -/
  | complete (shep count arrivals : Nat) (own : Bool)
  /-- at `qthread_incr(&snzi->remaining, undoArr)` -/
  | undo (count arrivals : Nat)
  /-- `qt_sinc_submit`, at `x = snzi->counts[shep_id].c` -/
  | submit (shep : Nat)
  /-- at `snzi->counts[shep_id].c == 0` -/
  | seek (shep x : Nat)
  /-- at `qthread_cas(&snzi->counts[shep_id].c, x, y)` -/
  | depart (shep x : Nat)
  /-- at `x = snzi->remaining` -/
  | check
  /-- at `qthread_incr(&snzi->remaining, -1)` -/
  | leave
  /-- `qt_sinc_internal_collate` -/
  | collate
  /-- behind a failed assertion -/
  | failed
deriving DecidableEq

/-- Behind the loop of `qt_sinc_expect`. -/
def finish (s : Shared) (count arrivals : Nat) : Shared × Pc :=
  if arrivals = 0 then (s.cover count, .idle) else (s, .undo count arrivals)

inductive Act (machine : Machine) (callers me : Nat) (s : Shared) :
    Pc → Unit → Shared → Pc → Prop where
  | expect (shep count : Nat) : me < callers → shep < machine.sheps → 0 < count →
      count < countRange → Act machine callers me s .idle () s (.expect shep count 0)
  | read {shep count arrivals : Nat} :
      Act machine callers me s (.expect shep count arrivals) () s
        (if snziOne ≤ s.counts shep then .add shep count arrivals (s.counts shep)
          else if s.counts shep = 0 then .half shep count arrivals
          else .arrive shep count arrivals false)
  | add {shep count arrivals c : Nat} : s.counts shep = c →
      Act machine callers me s (.add shep count arrivals c) ()
        (finish (s.store shep ((c + count) % countRange)) count arrivals).1
        (finish (s.store shep ((c + count) % countRange)) count arrivals).2
  | addFails {shep count arrivals c : Nat} : s.counts shep ≠ c →
      Act machine callers me s (.add shep count arrivals c) () s (.expect shep count arrivals)
  | half {shep count arrivals : Nat} : s.counts shep = 0 →
      Act machine callers me s (.half shep count arrivals) () (s.store shep snziHalf)
        (.arrive shep count arrivals true)
  | halfFails {shep count arrivals : Nat} : s.counts shep ≠ 0 →
      Act machine callers me s (.half shep count arrivals) () s (.expect shep count arrivals)
  | arrive {shep count arrivals : Nat} {own : Bool} :
      Act machine callers me s (.arrive shep count arrivals own) () s.arrive
        (.complete shep count arrivals own)
  | complete {shep count arrivals : Nat} {own : Bool} : s.counts shep = snziHalf →
      Act machine callers me s (.complete shep count arrivals own) ()
        (finish (s.store shep ((count + 1) % countRange)) count arrivals).1
        (finish (s.store shep ((count + 1) % countRange)) count arrivals).2
  | completeFails {shep count arrivals : Nat} {own : Bool} : s.counts shep ≠ snziHalf →
      Act machine callers me s (.complete shep count arrivals own) () s
        (if own then .undo count (arrivals + 1) else .expect shep count (arrivals + 1))
  | undo {count arrivals : Nat} :
      Act machine callers me s (.undo count arrivals) () ((s.undo arrivals).cover count) .idle
  | submit (shep : Nat) : me < callers → shep < machine.sheps → 0 < s.covered →
      Act machine callers me s .idle () s.spend (.submit shep)
  | load {shep : Nat} :
      Act machine callers me s (.submit shep) () s (.seek shep (s.counts shep))
  | next {shep x : Nat} : s.counts shep = 0 →
      Act machine callers me s (.seek shep x) () s
        (.seek (if shep + 1 < machine.sheps then shep + 1 else 0) x)
  | found {shep x : Nat} : s.counts shep ≠ 0 →
      Act machine callers me s (.seek shep x) () s
        (if snziOne ≤ x then .depart shep x else .submit shep)
  | depart {shep x : Nat} : s.counts shep = x →
      Act machine callers me s (.depart shep x) ()
        (s.store shep (if x = snziOne then 0 else x - 1)) (if x = snziOne then .check else .idle)
  | departFails {shep x : Nat} : s.counts shep ≠ x →
      Act machine callers me s (.depart shep x) () s (.submit shep)
  | check : 1 ≤ s.remaining → Act machine callers me s .check () s .leave
  | checkFails : s.remaining = 0 → Act machine callers me s .check () s .failed
  | leave : Act machine callers me s .leave () s.leave
      (if s.remaining = 1 then .collate else .idle)
  | collate : Act machine callers me s .collate () s.fill .idle

abbrev Config := Lib.Config Shared Pc

abbrev Step (machine : Machine) (callers : Nat) : Config → Nat × Unit → Config → Prop :=
  Lib.Config.Step (Act machine callers)

def start (machine : Machine) (garbage : Nat → Nat) (expect : Nat) : Config :=
  ⟨.create machine garbage expect, fun _ => .idle⟩

/-- An expect completes only a half that it has set, none arrives when nothing remains, and no
number wraps around. -/
def Meets (config : Config) (label : Nat × Unit) : Prop :=
  match config.tasks label.1 with
  | .add shep count _ _ => config.shared.counts shep + count < countRange
  | .arrive _ _ _ _ => config.shared.remaining ≠ 0 ∧ config.shared.remaining + 1 < countRange
  | .complete shep count arrivals own =>
    if config.shared.counts shep = snziHalf then own = true ∧ count + 1 < countRange
    else arrivals + 1 < 2 ^ 31
  | _ => True

end Qthreads.Sincs.Indicator
