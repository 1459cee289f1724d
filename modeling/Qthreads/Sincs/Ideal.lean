import Qthreads.Sincs.Selectable

namespace Qthreads.Sincs.Selectable

open Qthreads.Lib

variable {size : Nat} {machine : Machine} {operation : Operation size}

structure Ideal (size : Nat) where
  outstanding : Nat
  rdata : Reduction size

namespace Reduction

def put (operation : Operation size) (rdata : Reduction size) (worker : Worker) :
    Option (Value size) → Reduction size
  | none => rdata
  | some value =>
    { rdata with
      values := Function.update rdata.values worker
        (operation.op (rdata.values worker) value) }

theorem submit_eq (rdata : Reduction size) (worker : Worker) {value : Option (Value size)}
    (fits : size = 0 → value = none) :
    rdata.submit operation worker value = some (rdata.put operation worker value) := by
  cases value with
  | none => rfl
  | some value =>
    have nonzero : size ≠ 0 := fun zero => nomatch fits zero
    rw [submit, if_neg nonzero, put]

structure Matches (outstanding : Nat) (rdata other : Reduction size) : Prop where
  values : other.values = rdata.values
  result : outstanding = 0 → other.result = rdata.result

variable {rdata other : Reduction size} {outstanding : Nat}

theorem Matches.clear {next : Nat} (nonzero : next ≠ 0) :
    Matches next (rdata.clear operation) (other.clear operation) :=
  ⟨rfl, fun zero => absurd zero nonzero⟩

theorem Matches.put (operation : Operation size) (matched : Matches outstanding rdata other) {next : Nat} (nonzero : next ≠ 0)
    (worker : Worker) (value : Option (Value size)) :
    Matches next (rdata.put operation worker value) (other.put operation worker value) := by
  refine ⟨?_, fun zero => absurd zero nonzero⟩
  cases value with
  | none => exact matched.values
  | some value => simp only [Reduction.put, matched.values]

theorem Matches.collate (matched : Matches outstanding rdata other) (next : Nat) :
    Matches next (rdata.collate machine operation) (other.collate machine operation) := by
  refine ⟨matched.values, fun _ => ?_⟩
  simp only [Reduction.collate, matched.values]

end Reduction

namespace Ideal

def create (operation : Operation size) (scrap : Scrap size) (count : Nat) : Ideal size :=
  ⟨count, .create operation scrap⟩

def submit (machine : Machine) (operation : Operation size) (ideal : Ideal size) (worker : Worker)
    (value : Option (Value size)) : Ideal size :=
  let rdata := ideal.rdata.put operation worker value
  ⟨ideal.outstanding - 1, if ideal.outstanding = 1 then rdata.collate machine operation else rdata⟩

def apply (machine : Machine) (operation : Operation size) (ideal : Ideal size) :
    Call size → Ideal size
  | .reset willSpawn => ⟨willSpawn, ideal.rdata.clear operation⟩
  | .expect _ count => { ideal with outstanding := ideal.outstanding + count }
  | .submit worker value => ideal.submit machine operation worker value

end Ideal

/-- The call comes from a worker, there are fewer than `2 ^ 63` submits to come, and a submit is
one of them; it has a value only if the sinc has. -/
def Call.Allowed (machine : Machine) (outstanding : Nat) : Call size → Prop
  | .reset willSpawn => willSpawn < 2 ^ 63
  | .expect worker count => worker ∈ machine.workers ∧ outstanding + count < 2 ^ 63
  | .submit worker value => worker ∈ machine.workers ∧ 0 < outstanding ∧ (size = 0 → value = none)

def Call.Meets (outstanding : Nat) : Call size → Prop
  | .reset willSpawn => willSpawn ≠ 0
  | .expect _ _ => 0 < outstanding
  | .submit _ _ => True

def Call.outstanding (before : Nat) : Call size → Nat
  | .reset willSpawn => willSpawn
  | .expect _ count => before + count
  | .submit _ _ => before - 1

theorem Ideal.apply_outstanding (ideal : Ideal size) (call : Call size) :
    (ideal.apply machine operation call).outstanding = call.outstanding ideal.outstanding := by
  cases call <;> rfl

structure Counted.Shows (ideal : Ideal size) (s : Counted size) : Prop where
  counter : s.sinc.counter = ideal.outstanding
  ready : s.sinc.ready = decide (ideal.outstanding = 0)
  rdata : Reduction.Matches ideal.outstanding ideal.rdata s.rdata

namespace Counted

variable {ideal : Ideal size} {s : Counted size}

theorem Shows.wait (shows : Shows ideal s) :
    s.wait = if ideal.outstanding = 0 then some ideal.rdata.result else none := by
  rw [Counted.wait, shows.ready]
  by_cases zero : ideal.outstanding = 0
  · rw [if_pos (decide_eq_true zero), if_pos zero, shows.rdata.result zero]
  · rw [if_neg (fun same => zero (of_decide_eq_true same)), if_neg zero]

theorem Shows.decrement (shows : Shows ideal s) (positive : 0 < ideal.outstanding)
    {worker : Worker} {value : Option (Value size)} :
    Shows (ideal.submit machine operation worker value)
      (if s.sinc.counter = 1 then
        collate machine operation ⟨s.sinc.decrement, s.rdata.put operation worker value⟩
      else ⟨s.sinc.decrement, s.rdata.put operation worker value⟩) := by
  have counter : s.sinc.decrement.counter = ideal.outstanding - 1 := by
    rw [Sinc.decrement_counter (by rw [shows.counter]; exact positive), shows.counter]
  have put := shows.rdata.put operation (Nat.ne_of_gt positive) worker value
  rw [shows.counter, Ideal.submit]
  by_cases last : ideal.outstanding = 1
  · rw [if_pos last, if_pos last]
    refine ⟨counter, ?_, put.collate _⟩
    rw [last]
    rfl
  · rw [if_neg last, if_neg last]
    refine ⟨counter, ?_, put.values, fun isZero => ?_⟩
    · have busy : ¬ ideal.outstanding - 1 = 0 := by omega
      have still : s.sinc.decrement.ready = s.sinc.ready := rfl
      rw [still, shows.ready, decide_eq_false busy, decide_eq_false (by omega)]
    · have zero : ideal.outstanding - 1 = 0 := isZero
      omega

theorem Shows.add (shows : Shows ideal s) (positive : 0 < ideal.outstanding) {count : Nat}
    (small : ideal.outstanding + count < 2 ^ 63) :
    Shows { ideal with outstanding := ideal.outstanding + count }
      { s with sinc := s.sinc.add count } := by
  have counter := shows.counter
  constructor
  · have fits : s.sinc.counter + count < countRange := by
      rw [countRange]
      omega
    exact (Sinc.add_counter fits).trans (by rw [counter])
  · have still : (s.sinc.add count).ready = s.sinc.ready := rfl
    rw [still, shows.ready, decide_eq_false (by omega), decide_eq_false]
    have more : ¬ ideal.outstanding + count = 0 := by omega
    exact more
  · refine ⟨shows.rdata.values, fun isZero => ?_⟩
    have zero : ideal.outstanding + count = 0 := isZero
    omega

theorem Shows.setCounter (ideal : Ideal size) (s : Counted size) {count : Nat} (nonzero : count ≠ 0) :
    Shows ⟨count, ideal.rdata.clear operation⟩
      ⟨(s.sinc.setCounter count).empty, s.rdata.clear operation⟩ :=
  ⟨rfl, (decide_eq_false nonzero).symm, Reduction.Matches.clear nonzero⟩

end Counted

theorem Donecount.shows {ideal : Ideal size} {s : Counted size} (shows : Counted.Shows ideal s)
    {call : Call size} (allowed : call.Allowed machine ideal.outstanding)
    (meets : call.Meets ideal.outstanding) :
    ∃ after, apply machine operation s call = some after ∧
      Counted.Shows (ideal.apply machine operation call) after := by
  have counter := shows.counter
  cases call with
  | reset willSpawn =>
    have nonzero : (s.sinc.setCounter willSpawn).counter ≠ 0 := meets
    refine ⟨_, ?_, Counted.Shows.setCounter ideal s meets⟩
    rw [apply, reset, if_pos nonzero]
  | expect worker count =>
    have positive : 0 < ideal.outstanding := meets
    have busy : ¬ s.sinc.counter = 0 := by omega
    refine ⟨_, ?_, shows.add meets allowed.2⟩
    rw [apply, expect, if_neg busy]
    by_cases zero : count = 0
    · have same : s.sinc.add count = s.sinc := by
        rw [Sinc.add, zero, Nat.add_zero, Nat.mod_eq_of_lt (by
          have small := allowed.2
          rw [countRange]
          omega)]
      simp only [zero, ne_eq, not_true_eq_false, if_false]
      rw [if_pos (by omega), ← zero, same]
    · have small : s.sinc.counter + count < countRange := by
        have small := allowed.2
        rw [countRange]
        omega
      simp only [if_pos zero]
      rw [if_pos (by rw [Sinc.add_counter small]; omega)]
  | submit worker value =>
    obtain ⟨-, positive, fits⟩ := allowed
    refine ⟨_, ?_, shows.decrement positive⟩
    rw [apply, submit, Reduction.submit_eq _ _ fits]
    simp only
    rw [if_pos (by omega)]

theorem DonecountCas.shows {ideal : Ideal size} {s : Counted size} (shows : Counted.Shows ideal s)
    {call : Call size} (allowed : call.Allowed machine ideal.outstanding)
    (meets : call.Meets ideal.outstanding) :
    ∃ after, apply machine operation s call = some after ∧
      Counted.Shows (ideal.apply machine operation call) after := by
  have counter := shows.counter
  cases call with
  | reset willSpawn =>
    have nonzero : (s.sinc.setCounter willSpawn).counter ≠ 0 := meets
    refine ⟨_, ?_, Counted.Shows.setCounter ideal s meets⟩
    rw [apply, reset, if_pos nonzero]
  | expect worker count =>
    have positive : 0 < ideal.outstanding := meets
    have busy : ¬ s.sinc.counter = 0 := by omega
    refine ⟨_, ?_, shows.add meets allowed.2⟩
    rw [apply, expect, if_neg busy]
  | submit worker value =>
    obtain ⟨-, positive, fits⟩ := allowed
    refine ⟨_, ?_, shows.decrement positive⟩
    rw [apply, submit, Reduction.submit_eq _ _ fits]

end Qthreads.Sincs.Selectable
