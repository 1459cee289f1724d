import Qthreads.Lib.Tasks

namespace Qthreads.Sincs

open Lib
open Function (update)

/-! `sincs/donecount.c`

The counter and the full/empty bit of `ready`; the values that are collated when a sinc has some
do not bear on either. -/

structure Sinc where
  counter : Nat
  ready : Bool
deriving DecidableEq

/-- The numbers that a `qt_sinc_count_t` holds. -/
def countRange : Nat := 2 ^ 64

namespace Sinc

def init (expect : Nat) : Sinc := ⟨expect, decide (expect = 0)⟩

/-- `qthread_incr(&sinc->counter, count)` -/
def add (sinc : Sinc) (count : Nat) : Sinc :=
  { sinc with counter := (sinc.counter + count) % countRange }

/-- `qthread_incr(&sinc->counter, -1)` -/
def decrement (sinc : Sinc) : Sinc :=
  { sinc with counter := if sinc.counter = 0 then countRange - 1 else sinc.counter - 1 }

def setCounter (sinc : Sinc) (count : Nat) : Sinc := { sinc with counter := count }

def empty (sinc : Sinc) : Sinc := { sinc with ready := false }

def fill (sinc : Sinc) : Sinc := { sinc with ready := true }

theorem decrement_counter {sinc : Sinc} (positive : 0 < sinc.counter) :
    sinc.decrement.counter = sinc.counter - 1 :=
  if_neg (by omega)

theorem add_counter {sinc : Sinc} {count : Nat} (small : sinc.counter + count < countRange) :
    (sinc.add count).counter = sinc.counter + count :=
  Nat.mod_eq_of_lt small

end Sinc

/-- The sinc, with how many submits are still covered by its first count and the expects that have
returned, whether one has, and for each task whether the counter has been 0 since its wait began. -/
structure Shared where
  sinc : Sinc
  credit : Nat
  expected : Bool
  sawZero : Nat → Bool

namespace Shared

variable (s : Shared)

def create (count : Nat) : Shared := ⟨.init count, count, false, fun _ => false⟩

def set (sinc : Sinc) : Shared := { s with sinc := sinc }

def cover (count : Nat) : Shared :=
  { s with credit := s.credit + count, expected := s.expected || decide (count ≠ 0) }

def spend : Shared := { s with credit := s.credit - 1 }

def beginWait (me : Nat) : Shared := { s with sawZero := update s.sawZero me false }

def observe : Shared :=
  { s with sawZero := fun task => s.sawZero task || decide (s.sinc.counter = 0) }

end Shared

inductive Pc where
  | idle
  | expectAdd (count : Nat)
  | expectEmpty (count : Nat)
  | expectCheck (count : Nat)
  | submitAdd
  | submitFill
  | waiting (late : Bool)
  | waited (late : Bool)
  | failed

/-- One step of a task; `late` tells whether a wait began after an expect had returned. -/
inductive Act (workers : Nat) (me : Nat) : Shared → Pc → Unit → Shared → Pc → Prop where
  | expect {s : Shared} (count : Nat) : me < workers → count < countRange →
      Act workers me s .idle () s (if count ≠ 0 then .expectAdd count else .expectCheck count)
  | expectAdd {s : Shared} {count : Nat} :
      Act workers me s (.expectAdd count) () (s.set (s.sinc.add count))
        (if s.sinc.counter = 0 then .expectEmpty count else .expectCheck count)
  | expectEmpty {s : Shared} {count : Nat} :
      Act workers me s (.expectEmpty count) () (s.set s.sinc.empty) (.expectCheck count)
  | expectReturn {s : Shared} {count : Nat} : 0 < s.sinc.counter →
      Act workers me s (.expectCheck count) () (s.cover count) .idle
  | expectFail {s : Shared} {count : Nat} : s.sinc.counter = 0 →
      Act workers me s (.expectCheck count) () s .failed
  | submit {s : Shared} : me < workers → 0 < s.credit → Act workers me s .idle () s.spend .submitAdd
  | submitAdd {s : Shared} : 0 < s.sinc.counter →
      Act workers me s .submitAdd () (s.set s.sinc.decrement)
        (if s.sinc.counter = 1 then .submitFill else .idle)
  | submitFail {s : Shared} : s.sinc.counter = 0 →
      Act workers me s .submitAdd () (s.set s.sinc.decrement) .failed
  | submitFill {s : Shared} : Act workers me s .submitFill () (s.set s.sinc.fill) .idle
  | wait {s : Shared} : me < workers →
      Act workers me s .idle () (s.beginWait me) (.waiting s.expected)
  | readFF {s : Shared} {late : Bool} : s.sinc.ready = true →
      Act workers me s (.waiting late) () s (.waited late)
  | waitReturn {s : Shared} {late : Bool} : Act workers me s (.waited late) () s .idle

def Observed (workers : Nat) (me : Nat) (s : Shared) (pc : Pc) (label : Unit) (after : Shared)
    (next : Pc) : Prop :=
  ∃ raw, Act workers me s pc label raw next ∧ after = raw.observe

abbrev Config := Lib.Config Shared Pc

abbrev Step (workers : Nat) : Config → Nat × Unit → Config → Prop :=
  Lib.Config.Step (Observed workers)

def start (count : Nat) : Config := ⟨(Shared.create count).observe, fun _ => .idle⟩

def units : Pc → Nat
  | .expectEmpty count => count
  | .expectCheck count => count
  | .submitAdd => 1
  | _ => 0

def emptying : Pc → Nat
  | .expectEmpty _ => 1
  | _ => 0

def filling : Pc → Nat
  | .submitFill => 1
  | _ => 0

def total (workers : Nat) (weight : Pc → Nat) (config : Config) : Nat :=
  ∑ i ∈ Finset.range workers, weight (config.tasks i)

/-- `ready` is not emptied while another task is about to fill it, it is not read while another is
about to empty it, and the counter does not wrap around. -/
def Separate (workers : Nat) (config : Config) (label : Nat × Unit) : Prop :=
  match config.tasks label.1 with
  | .expectAdd count => config.shared.sinc.counter + count < countRange
  | .expectEmpty _ => ∀ i < workers, config.tasks i ≠ .submitFill
  | .waiting _ => ∀ i < workers, ∀ count, config.tasks i ≠ .expectEmpty count
  | _ => True

variable {workers me : Nat} {config : Config} {s : Shared} {mine : Pc}

theorem total_update (among : me < workers) (weight : Pc → Nat) :
    total workers weight ⟨s, update config.tasks me mine⟩ + weight (config.tasks me) =
      total workers weight config + weight mine :=
  Config.sum_update among config.tasks mine weight

theorem weight_le_total (config : Config) (among : me < workers) (weight : Pc → Nat) :
    weight (config.tasks me) ≤ total workers weight config :=
  Finset.single_le_sum (f := fun i => weight (config.tasks i)) (fun _ _ => Nat.zero_le _)
    (Finset.mem_range.mpr among)

theorem total_eq_zero {weight : Pc → Nat} (zeros : ∀ i < workers, weight (config.tasks i) = 0) :
    total workers weight config = 0 :=
  Finset.sum_eq_zero fun i member => zeros i (Finset.mem_range.mp member)

structure Balanced (workers : Nat) (config : Config) : Prop where
  counter : config.shared.sinc.counter = config.shared.credit + total workers units config
  small : config.shared.sinc.counter < countRange
  lifted : ∀ i < workers, ∀ count, config.tasks i = .expectAdd count ∨
    config.tasks i = .expectEmpty count → count ≠ 0
  oneEmpties : total workers emptying config ≤ 1
  oneFills : total workers filling config ≤ 1
  lowered : total workers emptying config = 0 → total workers filling config = 1 →
    config.shared.sinc.counter = 0
  ready : config.shared.sinc.ready = true ↔ total workers filling config = 0 ∧
    (total workers emptying config = 1 ∨ config.shared.sinc.counter = 0)
  waited : ∀ i late, config.tasks i = .waited late → config.shared.sawZero i = true
  others : ∀ i, workers ≤ i → config.tasks i = .idle

theorem Balanced.emptying_le (balanced : Balanced workers config) (among : me < workers)
    (apart : emptying (config.tasks me) = 0) :
    total workers emptying config + units (config.tasks me) ≤ total workers units config := by
  have member := Finset.mem_range.mpr among
  have first := Finset.add_sum_erase _ (fun i => emptying (config.tasks i)) member
  have second := Finset.add_sum_erase _ (fun i => units (config.tasks i)) member
  have each : ∑ i ∈ (Finset.range workers).erase me, emptying (config.tasks i) ≤
      ∑ i ∈ (Finset.range workers).erase me, units (config.tasks i) := by
    apply Finset.sum_le_sum
    intro i inside
    have small := Finset.mem_range.mp (Finset.mem_of_mem_erase inside)
    cases here : config.tasks i with
    | expectEmpty count =>
      have positive := balanced.lifted i small count (.inr here)
      simp only [emptying, units]
      omega
    | _ => simp [emptying]
  simp only [apart] at first
  unfold total
  omega

theorem Balanced.among {label : Unit} {after : Shared} (balanced : Balanced workers config)
    (act : Act workers me config.shared (config.tasks me) label after mine) : me < workers := by
  by_contra outside
  rw [balanced.others me (by omega)] at act
  cases act with
  | expect count among => exact outside among
  | submit among => exact outside among
  | wait among => exact outside among

structure Counts (s : Shared) (held empties fills : Nat) : Prop where
  counter : s.sinc.counter = s.credit + held
  small : s.sinc.counter < countRange
  oneEmpties : empties ≤ 1
  oneFills : fills ≤ 1
  lowered : empties = 0 → fills = 1 → s.sinc.counter = 0
  ready : s.sinc.ready = true ↔ fills = 0 ∧ (empties = 1 ∨ s.sinc.counter = 0)

theorem Balanced.counts (balanced : Balanced workers config) :
    Counts config.shared (total workers units config) (total workers emptying config)
      (total workers filling config) :=
  ⟨balanced.counter, balanced.small, balanced.oneEmpties, balanced.oneFills, balanced.lowered,
    balanced.ready⟩

variable {raw : Shared}

theorem Balanced.move {pc : Pc} (balanced : Balanced workers config)
    (among : me < workers) (here : config.tasks me = pc)
    (lifted : ∀ count, mine = .expectAdd count ∨ mine = .expectEmpty count → count ≠ 0)
    (waited : ∀ late, mine = .waited late → raw.sinc.counter = 0)
    (saw : ∀ i, i ≠ me → config.shared.sawZero i = true → raw.sawZero i = true)
    (counts : ∀ held empties fills, held + units pc = total workers units config + units mine →
      empties + emptying pc = total workers emptying config + emptying mine →
      fills + filling pc = total workers filling config + filling mine →
      Counts raw held empties fills) :
    Balanced workers ⟨raw.observe, update config.tasks me mine⟩ := by
  have after := counts _ _ _ (here ▸ total_update (s := raw.observe) among units)
    (here ▸ total_update (s := raw.observe) among emptying)
    (here ▸ total_update (s := raw.observe) among filling)
  refine ⟨after.counter, after.small, ?_, after.oneEmpties, after.oneFills, after.lowered,
    after.ready, ?_, ?_⟩
  · intro i small count
    by_cases same : i = me
    · subst same
      simpa using lifted count
    · simpa [same] using balanced.lifted i small count
  · intro i late
    by_cases same : i = me
    · subst same
      intro isWaited
      have zero := waited late (by simpa using isWaited)
      simp [Shared.observe, zero]
    · intro isWaited
      have before := balanced.waited i late (by simpa [same] using isWaited)
      simp [Shared.observe, saw i same before]
  · intro i large
    have differs : i ≠ me := by omega
    simpa [differs] using balanced.others i large

theorem Balanced.keep {pc : Pc} (balanced : Balanced workers config)
    (among : me < workers) (here : config.tasks me = pc)
    (lifted : ∀ count, mine = .expectAdd count ∨ mine = .expectEmpty count → count ≠ 0)
    (waited : ∀ late, mine = .waited late → raw.sinc.counter = 0)
    (saw : ∀ i, i ≠ me → config.shared.sawZero i = true → raw.sawZero i = true)
    (sinc : raw.sinc = config.shared.sinc) (credit : raw.credit + units mine = config.shared.credit + units pc)
    (empties : emptying pc = emptying mine) (fills : filling pc = filling mine) :
    Balanced workers ⟨raw.observe, update config.tasks me mine⟩ := by
  refine balanced.move among here lifted waited saw ?_
  intro held empty fill unitsEq emptyEq fillEq
  obtain rfl : empty = total workers emptying config := by omega
  obtain rfl : fill = total workers filling config := by omega
  have counter := balanced.counter
  refine ⟨?_, ?_, balanced.oneEmpties, balanced.oneFills, ?_, ?_⟩
  · rw [sinc]
    omega
  · rw [sinc]
    exact balanced.small
  · rw [sinc]
    exact balanced.lowered
  · rw [sinc]
    exact balanced.ready

variable {count : Nat}

section

variable (balanced : Balanced workers config) (among : me < workers)
include balanced among

theorem Balanced.expectAdd (here : config.tasks me = .expectAdd count)
    (small : config.shared.sinc.counter + count < countRange) :
    Balanced workers ⟨(config.shared.set (config.shared.sinc.add count)).observe,
      update config.tasks me
        (if config.shared.sinc.counter = 0 then .expectEmpty count else .expectCheck count)⟩ := by
  have positive := balanced.lifted me among count (.inl here)
  have sum := Sinc.add_counter small
  obtain ⟨counter, -, oneEmpties, oneFills, lowered, ready⟩ := balanced.counts
  have le := balanced.emptying_le among (by rw [here]; rfl)
  split
  case isTrue zero =>
    refine balanced.move among here ?_ (by simp) (fun _ _ saw => saw) ?_
    · intro other same
      simp only [reduceCtorEq, Pc.expectEmpty.injEq, false_or] at same
      omega
    · intro held empties fills unitsEq emptyEq fillEq
      simp only [units, emptying, filling] at unitsEq emptyEq fillEq
      have isZero : total workers emptying config = 0 := by omega
      refine ⟨?_, ?_, by omega, by omega, by omega, ?_⟩
      · simp only [Shared.set, sum]
        omega
      · simp only [Shared.set, sum]
        omega
      · simp only [Shared.set, Sinc.add, ready]
        omega
  case isFalse nonzero =>
    refine balanced.move among here (by simp) (by simp) (fun _ _ saw => saw) ?_
    intro held empties fills unitsEq emptyEq fillEq
    simp only [units, emptying, filling] at unitsEq emptyEq fillEq
    have same : (config.shared.set (config.shared.sinc.add count)).sinc.counter =
        config.shared.sinc.counter + count := sum
    refine ⟨?_, ?_, by omega, by omega, by omega, ?_⟩
    · simp only [Shared.set, sum]
      omega
    · simp only [Shared.set, sum]
      omega
    · rw [same]
      simp only [Shared.set, Sinc.add, ready]
      omega

theorem Balanced.expectEmpty (here : config.tasks me = .expectEmpty count)
    (apart : ∀ i < workers, config.tasks i ≠ .submitFill) :
    Balanced workers ⟨(config.shared.set config.shared.sinc.empty).observe,
      update config.tasks me (.expectCheck count)⟩ := by
  have positive := balanced.lifted me among count (.inr here)
  have held := weight_le_total config among units
  have alone := weight_le_total config among emptying
  have still : total workers filling config = 0 := by
    apply total_eq_zero
    intro i small
    cases there : config.tasks i with
    | submitFill => exact absurd there (apart i small)
    | _ => rfl
  simp only [here, units, emptying] at held alone
  obtain ⟨counter, small, oneEmpties, -, -, -⟩ := balanced.counts
  refine balanced.move among here (by simp) (by simp) (fun _ _ saw => saw) ?_
  intro heldAfter empties fills unitsEq emptyEq fillEq
  simp only [units, emptying, filling] at unitsEq emptyEq fillEq
  refine ⟨?_, small, by omega, by omega, by omega, ?_⟩
  · simp only [Shared.set, Sinc.empty]
    omega
  · simp only [Shared.set, Sinc.empty, Bool.false_eq_true, false_iff]
    omega

theorem Balanced.submitAdd
    (here : config.tasks me = .submitAdd) (positive : 0 < config.shared.sinc.counter) :
    Balanced workers ⟨(config.shared.set config.shared.sinc.decrement).observe,
      update config.tasks me
        (if config.shared.sinc.counter = 1 then .submitFill else .idle)⟩ := by
  have le := balanced.emptying_le among (by rw [here]; rfl)
  obtain ⟨counter, small, oneEmpties, oneFills, lowered, ready⟩ := balanced.counts
  have less : (config.shared.set config.shared.sinc.decrement).sinc.counter =
      config.shared.sinc.counter - 1 := Sinc.decrement_counter positive
  have bit : (config.shared.set config.shared.sinc.decrement).sinc.ready =
      config.shared.sinc.ready := by simp only [Shared.set, Sinc.decrement]
  simp only [here, units] at le
  split
  case isTrue one =>
    refine balanced.move among here (by simp) (by simp) (fun _ _ saw => saw) ?_
    intro held empties fills unitsEq emptyEq fillEq
    simp only [units, emptying, filling] at unitsEq emptyEq fillEq
    refine ⟨?_, by omega, by omega, by omega, by omega, ?_⟩
    · simp only [Shared.set] at less ⊢
      omega
    · rw [bit, ready]
      omega
  case isFalse more =>
    refine balanced.move among here (by simp) (by simp) (fun _ _ saw => saw) ?_
    intro held empties fills unitsEq emptyEq fillEq
    simp only [units, emptying, filling] at unitsEq emptyEq fillEq
    refine ⟨?_, by omega, by omega, by omega, by omega, ?_⟩
    · simp only [Shared.set] at less ⊢
      omega
    · rw [bit, ready]
      omega

theorem Balanced.submitFill (here : config.tasks me = .submitFill) :
    Balanced workers ⟨(config.shared.set config.shared.sinc.fill).observe,
      update config.tasks me .idle⟩ := by
  have alone := weight_le_total config among filling
  simp only [here, filling] at alone
  obtain ⟨counter, small, oneEmpties, oneFills, lowered, ready⟩ := balanced.counts
  refine balanced.move among here (by simp) (by simp) (fun _ _ saw => saw) ?_
  intro held empties fills unitsEq emptyEq fillEq
  simp only [units, emptying, filling] at unitsEq emptyEq fillEq
  refine ⟨?_, small, by omega, by omega, by omega, ?_⟩
  · simp only [Shared.set, Sinc.fill]
    omega
  · simp only [Shared.set, Sinc.fill, true_iff]
    omega

end

theorem Balanced.step {label : Unit} (balanced : Balanced workers config)
    (apart : Separate workers config (me, ()))
    (act : Act workers me config.shared (config.tasks me) label raw mine) :
    Balanced workers ⟨raw.observe, update config.tasks me mine⟩ := by
  have among := balanced.among act
  have units_le := weight_le_total config among units
  have counter := balanced.counter
  generalize here : config.tasks me = pc at act units_le
  simp only [Separate, here] at apart
  cases act with
  | expect count _ small =>
    by_cases zero : count = 0
    · simp only [zero, ne_eq, not_true_eq_false, if_false]
      exact balanced.keep among here (by simp) (by simp) (fun _ _ saw => saw) rfl rfl rfl rfl
    · simp only [zero, ne_eq, not_false_eq_true, if_true]
      refine balanced.keep among here ?_ (by simp) (fun _ _ saw => saw) rfl rfl rfl rfl
      intro other same
      simp only [Pc.expectAdd.injEq, reduceCtorEq, or_false] at same
      omega
  | expectAdd => exact balanced.expectAdd among here apart
  | expectEmpty => exact balanced.expectEmpty among here apart
  | expectReturn => exact balanced.keep among here (by simp) (by simp) (fun _ _ saw => saw) rfl rfl rfl rfl
  | @expectFail count zero =>
    simp only [units] at units_le
    obtain rfl : count = 0 := by omega
    exact balanced.keep among here (by simp) (by simp) (fun _ _ saw => saw) rfl rfl rfl rfl
  | submit _ credit =>
    refine balanced.keep among here (by simp) (by simp) (fun _ _ saw => saw) rfl ?_ rfl rfl
    show config.shared.credit - 1 + 1 = config.shared.credit + 0
    omega
  | submitAdd positive => exact balanced.submitAdd among here positive
  | submitFail zero =>
    simp only [units] at units_le
    omega
  | submitFill => exact balanced.submitFill among here
  | wait =>
    refine balanced.keep among here (by simp) (by simp) ?_ rfl rfl rfl rfl
    intro i differs saw
    simpa [Shared.beginWait, differs] using saw
  | readFF full =>
    refine balanced.keep among here (by simp) ?_ (fun _ _ saw => saw) rfl rfl rfl rfl
    intro _ _
    have isZero : total workers emptying config = 0 := by
      apply total_eq_zero
      intro i small
      cases there : config.tasks i with
      | expectEmpty count => exact absurd there (apart i small count)
      | _ => rfl
    have zero := (balanced.ready.mp full).2
    omega
  | waitReturn => exact balanced.keep among here (by simp) (by simp) (fun _ _ saw => saw) rfl rfl rfl rfl

def Quiet (config : Config) (workers : Nat) : Prop :=
  ∀ i < workers, config.tasks i = .idle ∨ ∃ late, config.tasks i = .waiting late ∨
    config.tasks i = .waited late

/-- `ready` tells of the counter, and no wait that began after an expect returns before the
counter has been 0. -/
structure Matches (workers : Nat) (config : Config) : Prop where
  quiet : Quiet config workers →
    (config.shared.sinc.ready = true ↔ config.shared.sinc.counter = 0)
  waited : ∀ i, config.tasks i = .waited true → config.shared.sawZero i = true

theorem Balanced.matches (balanced : Balanced workers config) : Matches workers config := by
  refine ⟨fun quiet => ?_, fun i here => balanced.waited i true here⟩
  have empties : total workers emptying config = 0 := by
    apply total_eq_zero
    intro i small
    rcases quiet i small with here | ⟨late, here | here⟩ <;> simp [here, emptying]
  have fills : total workers filling config = 0 := by
    apply total_eq_zero
    intro i small
    rcases quiet i small with here | ⟨late, here | here⟩ <;> simp [here, filling]
  have ready := balanced.ready
  rw [ready]
  omega

theorem start_balanced (small : count < countRange) : Balanced workers (start count) := by
  have zeros (weight : Pc → Nat) (zero : weight .idle = 0) :
      total workers weight (start count) = 0 := total_eq_zero fun _ _ => zero
  refine ⟨?_, small, by simp [start], ?_, ?_, ?_, ?_, by simp [start], by simp [start]⟩
  · rw [zeros units rfl]
    rfl
  · rw [zeros emptying rfl]
    simp
  · rw [zeros filling rfl]
    simp
  · rw [zeros filling rfl]
    simp
  · rw [zeros filling rfl]
    rw [zeros emptying rfl]
    simp [start, Shared.create, Shared.observe, Sinc.init]

theorem sinc_ready_matches {count : Nat} (small : count < countRange) {labels : List (Nat × Unit)}
    {last : Config} (run : Run (Guarded (Separate workers) (Step workers)) (start count) labels last) :
    Matches workers last := by
  have balanced : Balanced workers last := by
    refine run.preserves (fun before label after held taken => ?_) (start_balanced small)
    obtain ⟨apart, taken⟩ := taken
    cases taken with
    | move acted =>
      obtain ⟨raw, act, rfl⟩ := acted
      exact held.step apart act
  exact balanced.matches

theorem sinc_ready_matches_one : ∃ labels last,
    Run (Guarded (Separate 1) (Step 1)) (start 0) labels last ∧ last.tasks 0 = .waited true ∧
      Matches 1 last := by
  have round : ∃ labels last, Run (Guarded (Separate 1) (Step 1)) (start 0) labels last ∧
      last.tasks 0 = .waited true := by
    have only {holds : Nat → Prop} (zero : holds 0) : ∀ i < 1, holds i := by
      intro i small
      obtain rfl : i = 0 := by omega
      exact zero
    exact Config.exists_guarded_move 0 rfl ⟨_, .expect 1 (by decide) (by decide), rfl⟩ trivial <|
    Config.exists_guarded_move 0 rfl ⟨_, .expectAdd, rfl⟩ (show 0 + 1 < countRange by decide) <|
    Config.exists_guarded_move 0 rfl ⟨_, .expectEmpty, rfl⟩ (only nofun) <|
    Config.exists_guarded_move 0 rfl ⟨_, .expectReturn (by decide), rfl⟩ trivial <|
    Config.exists_guarded_move 0 rfl ⟨_, .submit (by decide) (by decide), rfl⟩ trivial <|
    Config.exists_guarded_move 0 rfl ⟨_, .submitAdd (by decide), rfl⟩ trivial <|
    Config.exists_guarded_move 0 rfl ⟨_, .submitFill, rfl⟩ trivial <|
    Config.exists_guarded_move 0 rfl ⟨_, .wait (by decide), rfl⟩ trivial <|
    Config.exists_guarded_move 0 rfl ⟨_, .readFF rfl, rfl⟩ (only nofun) ⟨[], _, .nil _, rfl⟩
  obtain ⟨labels, last, run, here⟩ := round
  exact ⟨labels, last, run, here, sinc_ready_matches (by decide) run⟩

/-- A fill that comes after the next expect has emptied, and a wait that comes before. -/
theorem sinc_ready_differs :
    (∃ labels last, Run (Step 2) (start 1) labels last ∧ Quiet last 2 ∧
      last.shared.sinc.ready = true ∧ last.shared.sinc.counter = 1) ∧
    (∃ labels last, Run (Step 2) (start 0) labels last ∧ last.tasks 1 = .waited true ∧
      last.shared.sawZero 1 = false) := by
  have both {holds : Nat → Prop} (zero : holds 0) (one : holds 1) : ∀ i < 2, holds i := by
    intro i small
    obtain rfl | rfl : i = 0 ∨ i = 1 := by omega
    · exact zero
    · exact one
  constructor
  · exact Config.exists_move 0 rfl ⟨_, .submit (by decide) (by decide), rfl⟩ <|
      Config.exists_move 0 rfl ⟨_, .submitAdd (by decide), rfl⟩ <|
      Config.exists_move 1 rfl ⟨_, .expect 1 (by decide) (by decide), rfl⟩ <|
      Config.exists_move 1 rfl ⟨_, .expectAdd, rfl⟩ <|
      Config.exists_move 1 rfl ⟨_, .expectEmpty, rfl⟩ <|
      Config.exists_move 1 rfl ⟨_, .expectReturn (by decide), rfl⟩ <|
      Config.exists_move 0 rfl ⟨_, .submitFill, rfl⟩
        ⟨[], _, .nil _, both (.inl rfl) (.inl rfl), rfl, rfl⟩
  · exact Config.exists_move 0 rfl ⟨_, .expect 1 (by decide) (by decide), rfl⟩ <|
      Config.exists_move 0 rfl ⟨_, .expectAdd, rfl⟩ <|
      Config.exists_move 1 rfl ⟨_, .expect 1 (by decide) (by decide), rfl⟩ <|
      Config.exists_move 1 rfl ⟨_, .expectAdd, rfl⟩ <|
      Config.exists_move 1 rfl ⟨_, .expectReturn (by decide), rfl⟩ <|
      Config.exists_move 1 rfl ⟨_, .wait (by decide), rfl⟩ <|
      Config.exists_move 1 rfl ⟨_, .readFF rfl, rfl⟩ ⟨[], _, .nil _, rfl, rfl⟩

end Qthreads.Sincs
