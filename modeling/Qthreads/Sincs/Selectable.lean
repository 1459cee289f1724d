import Qthreads.Lib.Shares
import Qthreads.Sincs.Donecount

namespace Qthreads.Sincs.Selectable

open Qthreads.Lib
open Function (update)

/-! `donecount.c`, `donecount_cas.c`, `original.c` and `snzi.c` have one interface.  A call runs
alone here, so what it has read has not changed when it writes; `none` is a failed assertion or a
call that does not return. -/

/-- The shepherds and their workers, and for each shepherd its list of the others. -/
structure Machine where
  sheps : Nat
  wps : Nat
  someSheps : 0 < sheps
  someWorkers : 0 < wps
  sorted : Nat → List Nat
  others : ∀ shep < sheps, (sorted shep).Perm ((List.range sheps).erase shep)

def single : Machine where
  sheps := 1
  wps := 1
  someSheps := Nat.one_pos
  someWorkers := Nat.one_pos
  sorted := fun _ => []
  others := by decide

abbrev Worker := Nat × Nat

def Machine.workers (machine : Machine) : List Worker :=
  (List.range machine.sheps).flatMap fun shep =>
    (List.range machine.wps).map fun worker => (shep, worker)

abbrev Value (size : Nat) := Fin size → UInt8

structure Operation (size : Nat) where
  op : Value size → Value size → Value size
  initial : Value size

/-- What `malloc` leaves in the result, and in the counts that are not cleared. -/
structure Scrap (size : Nat) where
  result : Value size
  counts : Nat → Nat

inductive Call (size : Nat) where
  | reset (willSpawn : Nat)
  | expect (worker : Worker) (count : Nat)
  | submit (worker : Worker) (value : Option (Value size))

variable {size : Nat} (machine : Machine) (operation : Operation size)

/-! All four keep one value for each worker and collate them in the same order. -/

structure Reduction (size : Nat) where
  values : Worker → Value size
  result : Value size

namespace Reduction

def create (scrap : Scrap size) : Reduction size := ⟨fun _ => operation.initial, scrap.result⟩

def clear (rdata : Reduction size) : Reduction size :=
  { rdata with values := fun _ => operation.initial }

def submit (rdata : Reduction size) (worker : Worker) : Option (Value size) → Option (Reduction size)
  | none => some rdata
  | some value =>
    if size = 0 then none
    else some { rdata with
      values := update rdata.values worker
        (operation.op (rdata.values worker) value) }

def collate (rdata : Reduction size) : Reduction size :=
  { rdata with
    result := machine.workers.foldl
      (fun result worker => operation.op result (rdata.values worker)) operation.initial }

end Reduction

structure Counted (size : Nat) where
  sinc : Sinc
  rdata : Reduction size

namespace Counted

def create (scrap : Scrap size) (expect : Nat) : Counted size :=
  ⟨.init expect, .create operation scrap⟩

/-- The collation and `qthread_fill`. -/
def collate (s : Counted size) : Counted size :=
  ⟨s.sinc.fill, s.rdata.collate machine operation⟩

def wait (s : Counted size) : Option (Value size) :=
  if s.sinc.ready then some s.rdata.result else none

end Counted

namespace Donecount

/-- `qt_sinc_reset`; the line that would fill `ready` is commented out. -/
def reset (s : Counted size) (willSpawn : Nat) : Option (Counted size) :=
  let sinc := s.sinc.setCounter willSpawn
  some ⟨if sinc.counter ≠ 0 then sinc.empty else sinc, s.rdata.clear operation⟩

def expect (s : Counted size) (count : Nat) : Option (Counted size) :=
  let sinc :=
    if count ≠ 0 then
      if s.sinc.counter = 0 then (s.sinc.add count).empty else s.sinc.add count
    else s.sinc
  if 0 < sinc.counter then some { s with sinc } else none

def submit (s : Counted size) (worker : Worker) (value : Option (Value size)) :
    Option (Counted size) :=
  match s.rdata.submit operation worker value with
  | none => none
  | some rdata =>
    let next : Counted size := ⟨s.sinc.decrement, rdata⟩
    if 0 < s.sinc.counter then
      some (if s.sinc.counter = 1 then next.collate machine operation else next)
    else none

def apply (s : Counted size) : Call size → Option (Counted size)
  | .reset willSpawn => reset operation s willSpawn
  | .expect _ count => expect s count
  | .submit worker value => submit machine operation s worker value

end Donecount

namespace DonecountCas

def reset (s : Counted size) (willSpawn : Nat) : Option (Counted size) :=
  let sinc := s.sinc.setCounter willSpawn
  some ⟨if sinc.counter ≠ 0 then sinc.empty else sinc.fill, s.rdata.clear operation⟩

/-- `qt_sinc_expect`, which empties `ready` of an idle sinc for any count. -/
def expect (s : Counted size) (count : Nat) : Option (Counted size) :=
  some { s with
    sinc := if s.sinc.counter = 0 then (s.sinc.add count).empty else s.sinc.add count }

def submit (s : Counted size) (worker : Worker) (value : Option (Value size)) :
    Option (Counted size) :=
  match s.rdata.submit operation worker value with
  | none => none
  | some rdata =>
    let next : Counted size := ⟨s.sinc.decrement, rdata⟩
    some (if s.sinc.counter = 1 then next.collate machine operation else next)

def apply (s : Counted size) : Call size → Option (Counted size)
  | .reset willSpawn => reset operation s willSpawn
  | .expect _ count => expect s count
  | .submit worker value => submit machine operation s worker value

end DonecountCas

/-- A number as a `saligned_t` holds it. -/
def saligned (count : Int) : Int := count.bmod (2 ^ 64)

structure Original (size : Nat) where
  counts : Worker → Int
  remaining : Nat
  ready : Bool
  rdata : Reduction size

namespace Original

/-- The counts of `will_spawn`, spread over the workers. -/
def spread (willSpawn : Nat) (counts : Worker → Int) : Worker → Int :=
  distribute (fun count => saligned count) (willSpawn / machine.workers.length)
    (willSpawn % machine.workers.length) machine.workers counts

def spreadRemaining (willSpawn : Nat) : Nat :=
  if 0 < willSpawn / machine.workers.length then machine.workers.length
  else willSpawn % machine.workers.length

def create (scrap : Scrap size) (willSpawn : Nat) : Original size :=
  if 0 < willSpawn then
    { counts := spread machine willSpawn fun _ => 0
      remaining := spreadRemaining machine willSpawn
      ready := false
      rdata := .create operation scrap }
  else
    { counts := fun _ => 0
      remaining := 0
      ready := true
      rdata := .create operation scrap }

/-- `qt_sinc_reset`, which empties `ready` for any number. -/
def reset (s : Original size) (willSpawn : Nat) : Option (Original size) :=
  some
    { counts := spread machine willSpawn s.counts
      remaining := spreadRemaining machine willSpawn
      ready := false
      rdata := s.rdata.clear operation }

def expect (s : Original size) (worker : Worker) (count : Nat) : Option (Original size) :=
  if 0 < count then
    let counts := update s.counts worker (saligned (s.counts worker + count))
    if s.counts worker = 0 then
      some { s with counts, ready := false, remaining := (s.remaining + 1) % countRange }
    else some { s with counts }
  else some s

def collate (s : Original size) : Original size :=
  { s with ready := true, rdata := s.rdata.collate machine operation }

/-- The counts a submit looks at, in order: those of its shepherd from its own on, then those of
the other shepherds. -/
def candidates (worker : Worker) : List Worker :=
  ((List.range machine.wps).map fun delta => (worker.1, (worker.2 + delta) % machine.wps)) ++
    (machine.sorted worker.1).flatMap fun shep =>
      (List.range machine.wps).map fun other => (shep, other)

/-- The loops of `qt_sinc_submit`. -/
def submitAmong (s : Original size) : List Worker → Option (Original size)
  | [] => some s
  | slot :: rest =>
    if 0 < s.counts slot then
      let taken :=
        { s with counts := update s.counts slot (saligned (s.counts slot - 1)) }
      if s.counts slot = 1 then
        if 0 < s.remaining then
          let left := { taken with remaining := s.remaining - 1 }
          some (if s.remaining = 1 then left.collate machine operation else left)
        else none
      else some taken
    else submitAmong s rest

def submit (s : Original size) (worker : Worker) (value : Option (Value size)) :
    Option (Original size) :=
  match s.rdata.submit operation worker value with
  | none => none
  | some rdata => submitAmong machine operation { s with rdata } (candidates machine worker)

def apply (s : Original size) : Call size → Option (Original size)
  | .reset willSpawn => reset machine operation s willSpawn
  | .expect worker count => expect s worker count
  | .submit worker value => submit machine operation s worker value

def wait (s : Original size) : Option (Value size) := if s.ready then some s.rdata.result else none

end Original

def snziHalf : Nat := 1
def snziOne : Nat := 2

def snziAssign (count : Nat) : Nat := if count = 0 then 0 else (count + 1) % countRange

structure Snzi (size : Nat) where
  counts : Nat → Nat
  remaining : Nat
  ready : Bool
  rdata : Reduction size

namespace Snzi

def spread (expect : Nat) (counts : Nat → Nat) : Nat → Nat :=
  distribute snziAssign (expect / machine.sheps) (expect % machine.sheps)
    (List.range machine.sheps) counts

def spreadRemaining (expect : Nat) : Nat :=
  if 0 < expect / machine.sheps then machine.sheps else expect % machine.sheps

/-- `qt_sinc_init`; with nothing to expect the counts stay as they were allocated. -/
def create (scrap : Scrap size) (expect : Nat) : Snzi size :=
  if 0 < expect then
    { counts := spread machine expect scrap.counts
      remaining := spreadRemaining machine expect
      ready := false
      rdata := .create operation scrap }
  else
    { counts := scrap.counts
      remaining := 0
      ready := true
      rdata := .create operation scrap }

def reset (s : Snzi size) (willSpawn : Nat) : Option (Snzi size) :=
  some
    { counts := spread machine willSpawn s.counts
      remaining := spreadRemaining machine willSpawn
      ready := decide (willSpawn = 0)
      rdata := s.rdata.clear operation }

/-- `qt_sinc_expect`, whose first pass always succeeds here; it does not touch `ready`. -/
def expect (s : Snzi size) (shep : Nat) (count : Nat) : Option (Snzi size) :=
  if 0 < count then
    if snziOne ≤ s.counts shep then
      some { s with counts := update s.counts shep ((s.counts shep + count) % countRange) }
    else
      some { s with
        counts := update s.counts shep ((count + 1) % countRange)
        remaining := (s.remaining + 1) % countRange }
  else some s

def collate (s : Snzi size) : Snzi size :=
  { s with ready := true, rdata := s.rdata.collate machine operation }

/-- `while (snzi->counts[shep_id].c == 0)` -/
def seek (counts : Nat → Nat) : Nat → Nat → Option Nat
  | 0, _ => none
  | fuel + 1, shep =>
    if counts shep = 0 then
      seek counts fuel (if shep + 1 < machine.sheps then shep + 1 else 0)
    else some shep

/-- The outer loop of `qt_sinc_submit`. -/
def depart (s : Snzi size) : Nat → Nat → Option (Snzi size)
  | 0, _ => none
  | fuel + 1, shep =>
    let x := s.counts shep
    match seek machine s.counts (machine.sheps + 1) shep with
    | none => none
    | some shep =>
      if x < snziOne then depart s fuel shep
      else
        let y := if x = snziOne then 0 else x - 1
        if s.counts shep = x then
          let taken := { s with counts := update s.counts shep y }
          if x = snziOne then
            let left := { taken with
              remaining := if s.remaining = 0 then countRange - 1 else s.remaining - 1 }
            some (if s.remaining = 1 then left.collate machine operation else left)
          else some taken
        else depart s fuel shep

/-- `qt_sinc_submit`; two passes are enough when the counts do not change. -/
def submit (s : Snzi size) (worker : Worker) (value : Option (Value size)) : Option (Snzi size) :=
  match s.rdata.submit operation worker value with
  | none => none
  | some rdata => depart machine operation { s with rdata } 2 worker.1

def apply (s : Snzi size) : Call size → Option (Snzi size)
  | .reset willSpawn => reset machine operation s willSpawn
  | .expect worker count => expect s worker.1 count
  | .submit worker value => submit machine operation s worker value

def wait (s : Snzi size) : Option (Value size) := if s.ready then some s.rdata.result else none

end Snzi

end Qthreads.Sincs.Selectable
