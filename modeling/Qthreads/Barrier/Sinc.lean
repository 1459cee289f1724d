import Qthreads.Sincs.Donecount

namespace Qthreads.Barrier.Sinc

open Lib
open Function (update update_of_ne update_self)

/-! `barrier/sinc.c` -/

inductive Which where
  | sinc1
  | sinc2
  | sinc3
deriving DecidableEq

namespace Which

def number : Which → Nat
  | .sinc1 => 0
  | .sinc2 => 1
  | .sinc3 => 2

def resets : Which → Which
  | .sinc1 => .sinc3
  | .sinc2 => .sinc1
  | .sinc3 => .sinc2

end Which

structure State where
  count : Nat
  sinc : Which → Sincs.Sinc

namespace State

variable (b : State)

def create (size : Nat) : State := ⟨size, fun _ => .init size⟩

def set (which : Which) (sinc : Sincs.Sinc) : State :=
  { b with sinc := update b.sinc which sinc }

end State

/-- `qt_sinc_reset`, as a whole. -/
def resetSinc (sinc : Sincs.Sinc) (willSpawn : Nat) : Sincs.Sinc :=
  if willSpawn ≠ 0 then (sinc.setCounter willSpawn).empty else sinc.setCounter willSpawn

/-- `int diff = new_size - barrier->count`, as the `size_t` that `qt_sinc_reset` is given. -/
def resizeDiff (newSize count : Nat) : Nat :=
  (((BitVec.ofNat 64 newSize - BitVec.ofNat 64 count).setWidth 32).signExtend 64).toNat

def State.resize (b : State) (newSize : Nat) : State :=
  ⟨newSize, fun which => resetSinc (b.sinc which) (resizeDiff newSize b.count)⟩

inductive Stage where
  | submitAdd
  | submitFill
  | wait
  | resetSet
  | resetCheck
  | resetEmpty
deriving DecidableEq

inductive Pc where
  | outside
  | inside (which : Which) (stage : Stage)
deriving DecidableEq

structure Task where
  pc : Pc
  started : Nat
  returned : Nat

namespace Task

def move (task : Task) (which : Which) (stage : Stage) : Task :=
  { task with pc := .inside which stage }

def goOn (task : Task) : Which → Task
  | .sinc1 => task.move .sinc2 .submitAdd
  | .sinc2 => task.move .sinc3 .submitAdd
  | .sinc3 => ⟨.outside, task.started, task.returned + 1⟩

end Task

inductive Act (me : Nat) : State → Task → Unit → State → Task → Prop where
  | call {b : State} {task : Task} : me < b.count → task.pc = .outside →
      Act me b task () b ⟨.inside .sinc1 .submitAdd, task.started + 1, task.returned⟩
  | submitAdd {b : State} {task : Task} {which : Which} : task.pc = .inside which .submitAdd →
      Act me b task () (b.set which (b.sinc which).decrement)
        (task.move which (if (b.sinc which).counter = 1 then .submitFill else .wait))
  | submitFill {b : State} {task : Task} {which : Which} : task.pc = .inside which .submitFill →
      Act me b task () (b.set which (b.sinc which).fill) (task.move which .wait)
  | wait {b : State} {task : Task} {which : Which} : task.pc = .inside which .wait →
      (b.sinc which).ready = true → Act me b task () b (task.move which .resetSet)
  | resetSet {b : State} {task : Task} {which : Which} : task.pc = .inside which .resetSet →
      Act me b task () (b.set which.resets ((b.sinc which.resets).setCounter b.count))
        (task.move which .resetCheck)
  | resetCheck {b : State} {task : Task} {which : Which} : task.pc = .inside which .resetCheck →
      (b.sinc which.resets).counter ≠ 0 → Act me b task () b (task.move which .resetEmpty)
  | resetSkip {b : State} {task : Task} {which : Which} : task.pc = .inside which .resetCheck →
      (b.sinc which.resets).counter = 0 → Act me b task () b (task.goOn which)
  | resetEmpty {b : State} {task : Task} {which : Which} : task.pc = .inside which .resetEmpty →
      Act me b task () (b.set which.resets (b.sinc which.resets).empty) (task.goOn which)

abbrev Config := Lib.Config State Task

def fresh : Task := ⟨.outside, 0, 0⟩

def start (size : Nat) : Config := ⟨.create size, fun _ => fresh⟩

inductive Label where
  | enter (task : Nat)
  | resize (newSize : Nat)

/-- A task takes a step, or the barrier is resized while no task is inside; the calls are then
counted anew. -/
inductive Step : Config → Label → Config → Prop where
  | enter {before after : Config} {task : Nat} : Config.Step Act before (task, ()) after →
      Step before (.enter task) after
  | resize {before : Config} (newSize : Nat) : 0 < newSize →
      (∀ i, (before.tasks i).pc = .outside) →
      Step before (.resize newSize) ⟨before.shared.resize newSize, fun _ => fresh⟩

def Whole (config : Config) : Label → Prop
  | .enter _ => True
  | .resize newSize => resizeDiff newSize config.shared.count = newSize

/-! The uses of the sincs, counted over all rounds, follow one another; a task is at most one use
behind the one that is being submitted to. -/

def Which.at (epoch : Nat) : Which :=
  if epoch % 3 = 0 then .sinc1 else if epoch % 3 = 1 then .sinc2 else .sinc3

def Task.epoch (task : Task) : Nat :=
  match task.pc with
  | .outside => 3 * task.returned
  | .inside which _ => 3 * task.returned + which.number

def Stage.Fits (current : Nat) (epoch : Nat) : Stage → Prop
  | .submitAdd => epoch = current
  | .submitFill => epoch = current
  | .wait => epoch = current ∨ epoch + 1 = current
  | .resetSet => epoch + 1 = current
  | .resetCheck => epoch + 1 = current
  | .resetEmpty => epoch + 1 = current

def Task.Fits (current : Nat) (task : Task) : Prop :=
  match task.pc with
  | .outside => task.epoch = current ∧ task.started = task.returned
  | .inside _ stage => stage.Fits current task.epoch ∧ task.started = task.returned + 1

def submitted (current : Nat) (task : Task) : Nat :=
  match task.pc with
  | .inside _ .submitFill => if task.epoch = current then 1 else 0
  | .inside _ .wait => if task.epoch = current then 1 else 0
  | _ => 0

def filling (task : Task) : Nat :=
  match task.pc with
  | .inside _ .submitFill => 1
  | _ => 0

def total (weight : Task → Nat) (config : Config) : Nat :=
  ∑ i ∈ Finset.range config.shared.count, weight (config.tasks i)

structure InEpoch (config : Config) (current : Nat) : Prop where
  positive : 0 < config.shared.count
  tasks : ∀ i < config.shared.count, (config.tasks i).Fits current
  others : ∀ i, config.shared.count ≤ i → config.tasks i = fresh
  counter : (config.shared.sinc (.at current)).counter + total (submitted current) config =
    config.shared.count
  unready : (config.shared.sinc (.at current)).ready = false
  fills : total filling config = if (config.shared.sinc (.at current)).counter = 0 then 1 else 0
  before : 0 < current → config.shared.sinc (.at (current + 2)) = ⟨0, true⟩
  entered : ∀ i < config.shared.count, (config.tasks i).epoch = current →
    config.shared.sinc (.at (current + 1)) = ⟨config.shared.count, false⟩
  resetting : ∀ i < config.shared.count, ∀ which,
    (config.tasks i).pc = .inside which .resetCheck ∨ (config.tasks i).pc = .inside which .resetEmpty →
    (config.shared.sinc (.at (current + 1))).counter = config.shared.count

theorem Which.at_number (which : Which) (rounds : Nat) :
    Which.at (3 * rounds + which.number) = which := by
  cases which with
  | sinc1 => simp [Which.at, Which.number]
  | sinc2 => simp [Which.at, Which.number, Nat.add_mod]
  | sinc3 => simp [Which.at, Which.number, Nat.add_mod]

theorem Which.at_eq {a b : Nat} : Which.at a = Which.at b ↔ a % 3 = b % 3 := by
  simp only [Which.at]
  split <;> split <;> (try split) <;> (try split) <;> simp only [reduceCtorEq, false_iff, true_iff] <;>
    omega

theorem Which.resets_at (epoch : Nat) : (Which.at epoch).resets = Which.at (epoch + 2) := by
  simp only [Which.at]
  split
  · rw [if_neg (by omega), if_neg (by omega)]
    rfl
  · split
    · rw [if_pos (by omega)]
      rfl
    · rw [if_neg (by omega), if_pos (by omega)]
      rfl

variable {which : Which} {task : Task} {stage : Stage}

theorem Task.at_epoch (here : task.pc = .inside which stage) : Which.at task.epoch = which := by
  simp only [Task.epoch, here]
  exact Which.at_number which task.returned

variable {config : Config} {b : State} {me current : Nat} {mine : Task}

variable {sinc : Sincs.Sinc}

@[simp] theorem State.set_self : (b.set which sinc).sinc which = sinc :=
  update_self ..

theorem State.set_other {which other : Which} (differs : other ≠ which) :
    (b.set which sinc).sinc other = b.sinc other :=
  update_of_ne differs ..

theorem InEpoch.move (inEpoch : InEpoch config current) (among : me < config.shared.count)
    (count : b.count = config.shared.count) (fits : mine.Fits current)
    (counter : (b.sinc (.at current)).counter + submitted current mine =
      (config.shared.sinc (.at current)).counter + submitted current (config.tasks me))
    (unready : (b.sinc (.at current)).ready = false)
    (fills : ∀ filled, filled + filling (config.tasks me) = total filling config + filling mine →
      filled = if (b.sinc (.at current)).counter = 0 then 1 else 0)
    (before : 0 < current → b.sinc (.at (current + 2)) = ⟨0, true⟩)
    (keeps : config.shared.sinc (.at (current + 1)) = ⟨config.shared.count, false⟩ →
      b.sinc (.at (current + 1)) = ⟨config.shared.count, false⟩)
    (keepsCounter : (config.shared.sinc (.at (current + 1))).counter = config.shared.count →
      (b.sinc (.at (current + 1))).counter = config.shared.count)
    (entered : mine.epoch = current → b.sinc (.at (current + 1)) = ⟨config.shared.count, false⟩)
    (resetting : ∀ which, mine.pc = .inside which .resetCheck ∨ mine.pc = .inside which .resetEmpty →
      (b.sinc (.at (current + 1))).counter = config.shared.count) :
    InEpoch ⟨b, update config.tasks me mine⟩ current := by
  have sums (weight : Task → Nat) : total weight ⟨b, update config.tasks me mine⟩ +
      weight (config.tasks me) = total weight config + weight mine := by
    simp only [total, count]
    exact Config.sum_update among config.tasks mine weight
  refine ⟨?_, ?_, ?_, ?_, unready, fills _ (sums filling), before, ?_, ?_⟩
  · simpa [count] using inEpoch.positive
  · intro i small
    by_cases same : i = me
    · subst same
      simpa using fits
    · simpa [same] using inEpoch.tasks i (count ▸ small)
  · intro i large
    have differs : i ≠ me := by
      rintro rfl
      exact absurd among (by simpa [count] using large)
    simpa [differs] using inEpoch.others i (count ▸ large)
  · have sum := sums (submitted current)
    have old := inEpoch.counter
    show (b.sinc (.at current)).counter + _ = b.count
    omega
  · intro i small here
    show b.sinc (.at (current + 1)) = ⟨b.count, false⟩
    rw [count]
    by_cases same : i = me
    · subst same
      exact entered (by simpa using here)
    · exact keeps (inEpoch.entered i (count ▸ small) (by simpa [same] using here))
  · intro i small which here
    show (b.sinc (.at (current + 1))).counter = b.count
    rw [count]
    by_cases same : i = me
    · subst same
      exact resetting which (by simpa using here)
    · exact keepsCounter (inEpoch.resetting i (count ▸ small) which (by simpa [same] using here))

theorem InEpoch.among {label : Unit} (inEpoch : InEpoch config current)
    (act : Act me config.shared (config.tasks me) label b mine) : me < config.shared.count := by
  by_contra outside
  rw [inEpoch.others me (by omega)] at act
  cases act with
  | call among => exact outside among
  | _ => contradiction

theorem submitted_le_one (current : Nat) (task : Task) : submitted current task ≤ 1 := by
  unfold submitted
  split
  · split <;> simp
  · split <;> simp
  · simp

theorem InEpoch.submitted_lt (inEpoch : InEpoch config current) (among : me < config.shared.count)
    (unsubmitted : submitted current (config.tasks me) = 0) :
    0 < (config.shared.sinc (.at current)).counter := by
  have member := Finset.mem_range.mpr among
  have split := Finset.add_sum_erase _ (fun i => submitted current (config.tasks i)) member
  have most := Finset.sum_le_card_nsmul ((Finset.range config.shared.count).erase me)
    (fun i => submitted current (config.tasks i)) 1 fun i _ => submitted_le_one current _
  rw [Finset.card_erase_of_mem member, Finset.card_range] at most
  have counter := inEpoch.counter
  simp only [unsubmitted] at split
  simp only [total] at counter
  simp only [Nat.nsmul_eq_mul, Nat.mul_one] at most
  omega

theorem InEpoch.all_submitted (inEpoch : InEpoch config current)
    (zero : (config.shared.sinc (.at current)).counter = 0) :
    ∀ i < config.shared.count, submitted current (config.tasks i) = 1 := by
  intro i small
  have le := submitted_le_one current (config.tasks i)
  by_contra other
  have positive := inEpoch.submitted_lt small (by omega)
  omega

theorem submitted_stage (one : submitted current task = 1) :
    task.epoch = current ∧ ∃ which, task.pc = .inside which .submitFill ∨ task.pc = .inside which .wait := by
  unfold submitted at one
  split at one
  case h_1 which here =>
      split at one
      · exact ⟨‹_›, which, .inl here⟩
      · cases one
  case h_2 which here =>
      split at one
      · exact ⟨‹_›, which, .inr here⟩
      · cases one
  · cases one

theorem Task.move_epoch {stage next : Stage}
    (here : task.pc = .inside which stage) : (task.move which next).epoch = task.epoch := by
  simp [Task.epoch, Task.move, here]

section

variable (inEpoch : InEpoch config current) (among : me < config.shared.count)
include inEpoch among

theorem InEpoch.call (here : (config.tasks me).pc = .outside) :
    InEpoch ⟨config.shared, update config.tasks me
      ⟨.inside .sinc1 .submitAdd, (config.tasks me).started + 1, (config.tasks me).returned⟩⟩ current := by
  have fits := inEpoch.tasks me among
  simp only [Task.Fits, here, Task.epoch] at fits
  have next := inEpoch.entered me among (by simpa [Task.epoch, here] using fits.1)
  refine inEpoch.move among rfl ?_ ?_ inEpoch.unready ?_ inEpoch.before id id (fun _ => next) (by simp)
  · simp [Task.Fits, Stage.Fits, Task.epoch, Which.number, fits]
  · simp [submitted, here]
  · intro filled eq
    rw [← inEpoch.fills]
    simp only [filling, here] at eq
    omega

theorem InEpoch.moveCurrent {stage next : Stage}
    (here : (config.tasks me).pc = .inside which stage) (epoch : (config.tasks me).epoch = current)
    (fits : next.Fits current current) (plain : next ≠ .resetCheck ∧ next ≠ .resetEmpty)
    (counter : sinc.counter + submitted current ((config.tasks me).move which next) =
      (config.shared.sinc which).counter + submitted current (config.tasks me))
    (unready : sinc.ready = false)
    (fills : ∀ filled, filled + filling (config.tasks me) = total filling config +
      filling ((config.tasks me).move which next) → filled = if sinc.counter = 0 then 1 else 0) :
    InEpoch ⟨config.shared.set which sinc,
      update config.tasks me ((config.tasks me).move which next)⟩ current := by
  have calls : (config.tasks me).started = (config.tasks me).returned + 1 := by
    have fits := inEpoch.tasks me among
    simp only [Task.Fits, here] at fits
    exact fits.2
  have here' : which = Which.at current := by
    rw [← epoch, Task.at_epoch here]
  have later : Which.at (current + 1) ≠ which := by
    rw [here', ne_eq, Which.at_eq]
    omega
  have earlier : Which.at (current + 2) ≠ which := by
    rw [here', ne_eq, Which.at_eq]
    omega
  have same : ((config.tasks me).move which next).epoch = current :=
    (Task.move_epoch here).trans epoch
  refine inEpoch.move among rfl ?_ ?_ ?_ ?_ ?_ ?_ ?_ ?_ ?_
  · simp only [Task.Fits, Task.move] at same ⊢
    exact ⟨by rw [same]; exact fits, calls⟩
  · rw [← here', State.set_self]
    exact counter
  · rw [← here', State.set_self]
    exact unready
  · rw [← here', State.set_self]
    exact fills
  · intro positive
    rw [State.set_other earlier]
    exact inEpoch.before positive
  · rw [State.set_other later]
    exact id
  · rw [State.set_other later]
    exact id
  · intro _
    rw [State.set_other later]
    exact inEpoch.entered me among epoch
  · intro other is
    simp [Task.move, plain] at is

theorem InEpoch.submitAdd (here : (config.tasks me).pc = .inside which .submitAdd) :
    InEpoch ⟨config.shared.set which (config.shared.sinc which).decrement,
      update config.tasks me ((config.tasks me).move which
        (if (config.shared.sinc which).counter = 1 then .submitFill else .wait))⟩ current := by
  have fits := inEpoch.tasks me among
  simp only [Task.Fits, here, Stage.Fits] at fits
  have epoch := fits.1
  have here' : Which.at current = which := by
    rw [← epoch, Task.at_epoch here]
  have positive := inEpoch.submitted_lt among (by simp [submitted, here])
  have fills := inEpoch.fills
  rw [here'] at positive fills
  rw [if_neg (by omega)] at fills
  have less := Sincs.Sinc.decrement_counter positive
  have unready : (config.shared.sinc which).decrement.ready = false := here' ▸ inEpoch.unready
  have zero : submitted current (config.tasks me) = 0 := by simp [submitted, here]
  have still : filling (config.tasks me) = 0 := by simp [filling, here]
  have one (next : Stage) (among : next = .submitFill ∨ next = .wait) :
      submitted current ((config.tasks me).move which next) = 1 := by
    have same : ((config.tasks me).move which next).epoch = current :=
      (Task.move_epoch here).trans epoch
    rcases among with rfl | rfl
    · exact if_pos same
    · exact if_pos same
  by_cases final : (config.shared.sinc which).counter = 1
  · simp only [final, if_true]
    refine inEpoch.moveCurrent among here epoch rfl (by simp) ?_ unready ?_
    · rw [one _ (.inl rfl), zero]
      omega
    · intro filled eq
      rw [still, fills] at eq
      rw [if_pos (by omega)]
      simpa [filling, Task.move] using eq
  · simp only [final, if_false]
    refine inEpoch.moveCurrent among here epoch (.inl rfl) (by simp) ?_ unready ?_
    · rw [one _ (.inr rfl), zero]
      omega
    · intro filled eq
      rw [still, fills] at eq
      rw [if_neg (by omega)]
      simpa [filling, Task.move] using eq

theorem InEpoch.submitFill (here : (config.tasks me).pc = .inside which .submitFill) :
    InEpoch ⟨config.shared.set which (config.shared.sinc which).fill,
      update config.tasks me ((config.tasks me).move which .wait)⟩ (current + 1) := by
  have zero : (config.shared.sinc (.at current)).counter = 0 := by
    have fills := inEpoch.fills
    have mine : filling (config.tasks me) ≤ total filling config :=
      Finset.single_le_sum (f := fun i => filling (config.tasks i)) (fun _ _ => Nat.zero_le _)
        (Finset.mem_range.mpr among)
    by_contra other
    rw [if_neg other] at fills
    simp [filling, here, fills] at mine
  have alone : ∀ i < config.shared.count, i ≠ me → filling (config.tasks i) = 0 := by
    intro i small differs
    have member := Finset.mem_range.mpr among
    have split := Finset.add_sum_erase _ (fun i => filling (config.tasks i)) member
    have inside : i ∈ (Finset.range config.shared.count).erase me := by simp [differs, small]
    have le : filling (config.tasks i) ≤
        ∑ j ∈ (Finset.range config.shared.count).erase me, filling (config.tasks j) :=
      Finset.single_le_sum (f := fun i => filling (config.tasks i)) (fun _ _ => Nat.zero_le _) inside
    have fills := inEpoch.fills
    rw [if_pos zero] at fills
    have one : filling (config.tasks me) = 1 := by simp [filling, here]
    simp only [one] at split
    simp only [total] at fills
    omega
  have waits : ∀ i < config.shared.count, ∃ other,
      (update config.tasks me ((config.tasks me).move which .wait) i).pc = .inside other .wait ∧
      (update config.tasks me ((config.tasks me).move which .wait) i).epoch = current ∧
      (update config.tasks me ((config.tasks me).move which .wait) i).started =
        (update config.tasks me ((config.tasks me).move which .wait) i).returned + 1 := by
    intro i small
    obtain ⟨epoch, other, there⟩ := submitted_stage (inEpoch.all_submitted zero i small)
    have fits := inEpoch.tasks i small
    by_cases same : i = me
    · subst same
      simp only [Task.Fits, here] at fits
      simp only [update_self]
      exact ⟨which, rfl, (Task.move_epoch here).trans epoch, fits.2⟩
    · have still := alone i small same
      simp only [update_of_ne same]
      rcases there with there | there
      · simp [filling, there] at still
      · simp only [Task.Fits, there] at fits
        exact ⟨other, there, epoch, fits.2⟩
  have epoch := (submitted_stage (inEpoch.all_submitted zero me among)).1
  have here' : which = Which.at current := by
    rw [← epoch, Task.at_epoch here]
  have later : Which.at (current + 1) ≠ which := by
    rw [here', ne_eq, Which.at_eq]
    omega
  have next := inEpoch.entered me among epoch
  have nobody (weight : Task → Nat)
      (zeros : ∀ task other, task.pc = .inside other .wait → task.epoch = current → weight task = 0) :
      total weight ⟨config.shared.set which (config.shared.sinc which).fill,
        update config.tasks me ((config.tasks me).move which .wait)⟩ = 0 := by
    apply Finset.sum_eq_zero
    intro i member
    obtain ⟨other, pc, epoch, -⟩ := waits i (Finset.mem_range.mp member)
    exact zeros _ other pc epoch
  refine ⟨inEpoch.positive, ?_, ?_, ?_, ?_, ?_, ?_, ?_, ?_⟩
  · intro i small
    obtain ⟨other, pc, epoch, calls⟩ := waits i small
    simp only [Task.Fits, pc, Stage.Fits]
    exact ⟨.inr (by rw [epoch]), calls⟩
  · intro i large
    have differs : i ≠ me := by
      rintro rfl
      exact absurd among (Nat.not_lt.mpr large)
    simpa [differs] using inEpoch.others i large
  · rw [nobody (submitted (current + 1)) fun task other pc epoch => by simp [submitted, pc, epoch],
      State.set_other later, next]
    rfl
  · rw [State.set_other later, next]
  · have positive := inEpoch.positive
    rw [nobody filling fun task other pc epoch => by simp [filling, pc], State.set_other later, next,
      if_neg (by simp; omega)]
  · intro _
    have again : Which.at (current + 1 + 2) = which := by
      rw [here', Which.at_eq]
      omega
    rw [again, State.set_self]
    simp only [Sincs.Sinc.fill, here', zero]
  · intro i small epochNow
    obtain ⟨other, pc, epoch, -⟩ := waits i small
    have same := epochNow.symm.trans epoch
    omega
  · intro i small other is
    obtain ⟨_, pc, -, -⟩ := waits i small
    rcases is with is | is <;> rw [pc] at is <;> cases is

theorem InEpoch.passed (here : (config.tasks me).pc = .inside which stage)
    (late : stage = .resetSet ∨ stage = .resetCheck ∨ stage = .resetEmpty) :
    (config.tasks me).epoch + 1 = current ∧ which.resets = Which.at (current + 1) ∧
      (config.tasks me).started = (config.tasks me).returned + 1 := by
  have fits := inEpoch.tasks me among
  simp only [Task.Fits, here] at fits
  have epoch : (config.tasks me).epoch + 1 = current := by
    rcases late with rfl | rfl | rfl <;> exact fits.1
  refine ⟨epoch, ?_, fits.2⟩
  rw [← Task.at_epoch here, Which.resets_at, Which.at_eq]
  omega

theorem InEpoch.moveNext {stage next : Stage} (here : (config.tasks me).pc = .inside which stage)
    (passed : (config.tasks me).epoch + 1 = current) (plain : stage ≠ .submitFill)
    (fits : next.Fits current (config.tasks me).epoch) (unfilled : next ≠ .submitFill)
    (count : b.count = config.shared.count)
    (same : b.sinc (.at current) = config.shared.sinc (.at current))
    (before : b.sinc (.at (current + 2)) = config.shared.sinc (.at (current + 2)))
    (keeps : config.shared.sinc (.at (current + 1)) = ⟨config.shared.count, false⟩ →
      b.sinc (.at (current + 1)) = ⟨config.shared.count, false⟩)
    (keepsCounter : (config.shared.sinc (.at (current + 1))).counter = config.shared.count →
      (b.sinc (.at (current + 1))).counter = config.shared.count)
    (resetting : next = .resetCheck ∨ next = .resetEmpty →
      (b.sinc (.at (current + 1))).counter = config.shared.count) :
    InEpoch ⟨b, update config.tasks me ((config.tasks me).move which next)⟩ current := by
  have calls : (config.tasks me).started = (config.tasks me).returned + 1 := by
    have fits := inEpoch.tasks me among
    simp only [Task.Fits, here] at fits
    exact fits.2
  have epoch : ((config.tasks me).move which next).epoch = (config.tasks me).epoch :=
    Task.move_epoch here
  have zeros (task : Task) (old : task.epoch + 1 = current) : submitted current task = 0 := by
    have differs : task.epoch ≠ current := by omega
    unfold submitted
    split <;> simp [differs]
  refine inEpoch.move among count ?_ ?_ ?_ ?_ ?_ keeps keepsCounter ?_ ?_
  · simp only [Task.Fits, Task.move] at epoch ⊢
    exact ⟨by rw [epoch]; exact fits, calls⟩
  · rw [zeros _ passed, zeros _ (epoch ▸ passed), same]
  · rw [same]
    exact inEpoch.unready
  · intro filled eq
    have first : filling (config.tasks me) = 0 := by
      unfold filling
      split
      case h_1 is =>
        rw [here] at is
        cases is
        exact absurd rfl plain
      · rfl
    have second : filling ((config.tasks me).move which next) = 0 := by
      unfold filling
      split
      case h_1 is =>
        cases is
        exact absurd rfl unfilled
      · rfl
    rw [same, ← inEpoch.fills]
    omega
  · rw [before]
    exact inEpoch.before
  · intro is
    omega
  · intro other is
    apply resetting
    rcases is with is | is
    · cases is
      exact .inl rfl
    · cases is
      exact .inr rfl

theorem InEpoch.wait (here : (config.tasks me).pc = .inside which .wait)
    (ready : (config.shared.sinc which).ready = true) :
    InEpoch ⟨config.shared, update config.tasks me ((config.tasks me).move which .resetSet)⟩
      current := by
  have fits := inEpoch.tasks me among
  simp only [Task.Fits, here, Stage.Fits] at fits
  have passed : (config.tasks me).epoch + 1 = current := by
    rcases fits.1 with now | passed
    · have same : Which.at current = which := now ▸ Task.at_epoch here
      have unready := inEpoch.unready
      rw [same, ready] at unready
      cases unready
    · exact passed
  exact inEpoch.moveNext among here passed (by simp) passed (by simp) rfl rfl rfl id id (by simp)

theorem InEpoch.resetSet (here : (config.tasks me).pc = .inside which .resetSet) :
    InEpoch ⟨config.shared.set which.resets
        ((config.shared.sinc which.resets).setCounter config.shared.count),
      update config.tasks me ((config.tasks me).move which .resetCheck)⟩ current := by
  obtain ⟨passed, target, -⟩ := inEpoch.passed among here (.inl rfl)
  have now : Which.at current ≠ Which.at (current + 1) := by
    rw [ne_eq, Which.at_eq]
    omega
  have before : Which.at (current + 2) ≠ Which.at (current + 1) := by
    rw [ne_eq, Which.at_eq]
    omega
  rw [target]
  refine inEpoch.moveNext among here passed (by simp) passed (by simp) rfl (State.set_other now)
    (State.set_other before) ?_ ?_ ?_
  · intro whole
    rw [State.set_self, whole]
    rfl
  · intro _
    rw [State.set_self]
    rfl
  · intro _
    rw [State.set_self]
    rfl

theorem InEpoch.resetCheck (here : (config.tasks me).pc = .inside which .resetCheck) :
    InEpoch ⟨config.shared, update config.tasks me ((config.tasks me).move which .resetEmpty)⟩
      current := by
  obtain ⟨passed, -⟩ := inEpoch.passed among here (.inr (.inl rfl))
  exact inEpoch.moveNext among here passed (by simp) passed (by simp) rfl rfl rfl id id
    fun _ => inEpoch.resetting me among which (.inl here)

end

theorem Task.goOn_fits (here : task.pc = .inside which stage) (passed : task.epoch + 1 = current)
    (calls : task.started = task.returned + 1) :
    (task.goOn which).Fits current ∧ submitted current (task.goOn which) = 0 ∧
      filling (task.goOn which) = 0 ∧
      ∀ other, (task.goOn which).pc ≠ .inside other .resetCheck ∧
        (task.goOn which).pc ≠ .inside other .resetEmpty := by
  simp only [Task.epoch, here] at passed
  cases which with
  | sinc1 => simpa [goOn, move, Task.Fits, Stage.Fits, Task.epoch, submitted, filling, Which.number, calls]
      using passed
  | sinc2 => simpa [goOn, move, Task.Fits, Stage.Fits, Task.epoch, submitted, filling, Which.number, calls]
      using passed
  | sinc3 =>
    simp only [Which.number] at passed
    simp only [goOn, Task.Fits, Task.epoch, submitted, filling]
    exact ⟨⟨by omega, calls⟩, trivial, trivial, by simp⟩

theorem InEpoch.resetEmpty (inEpoch : InEpoch config current)
    (among : me < config.shared.count) (here : (config.tasks me).pc = .inside which .resetEmpty) :
    InEpoch ⟨config.shared.set which.resets (config.shared.sinc which.resets).empty,
      update config.tasks me ((config.tasks me).goOn which)⟩ current := by
  obtain ⟨passed, target, calls⟩ := inEpoch.passed among here (.inr (.inr rfl))
  have counter := inEpoch.resetting me among which (.inr here)
  have now : Which.at current ≠ Which.at (current + 1) := by
    rw [ne_eq, Which.at_eq]
    omega
  have before : Which.at (current + 2) ≠ Which.at (current + 1) := by
    rw [ne_eq, Which.at_eq]
    omega
  obtain ⟨fits, unsubmitted, unfilled, unreset⟩ := Task.goOn_fits here passed calls
  have whole : (config.shared.sinc (.at (current + 1))).empty = ⟨config.shared.count, false⟩ := by
    simp only [Sincs.Sinc.empty, counter]
  rw [target]
  refine inEpoch.move among rfl fits ?_ ?_ ?_ ?_ ?_ ?_ ?_ ?_
  · rw [unsubmitted, State.set_other now]
    simp [submitted, here]
  · rw [State.set_other now]
    exact inEpoch.unready
  · intro filled eq
    rw [State.set_other now, ← inEpoch.fills]
    rw [unfilled] at eq
    simpa [filling, here] using eq
  · rw [State.set_other before]
    exact inEpoch.before
  · intro _
    rw [State.set_self, whole]
  · intro _
    rw [State.set_self, whole]
  · intro _
    rw [State.set_self, whole]
  · intro other is
    rcases is with is | is
    · exact absurd is (unreset other).1
    · exact absurd is (unreset other).2

theorem InEpoch.act {label : Unit} (inEpoch : InEpoch config current)
    (act : Act me config.shared (config.tasks me) label b mine) :
    ∃ current, InEpoch ⟨b, update config.tasks me mine⟩ current := by
  have among := inEpoch.among act
  cases act with
  | call _ here => exact ⟨current, inEpoch.call among here⟩
  | submitAdd here => exact ⟨current, inEpoch.submitAdd among here⟩
  | submitFill here => exact ⟨current + 1, inEpoch.submitFill among here⟩
  | wait here ready => exact ⟨current, inEpoch.wait among here ready⟩
  | resetSet here => exact ⟨current, inEpoch.resetSet among here⟩
  | resetCheck here => exact ⟨current, inEpoch.resetCheck among here⟩
  | resetSkip here zero =>
    have counter := inEpoch.resetting me among _ (.inl here)
    have positive := inEpoch.positive
    obtain ⟨-, target, -⟩ := inEpoch.passed among here (.inr (.inl rfl))
    rw [target] at zero
    omega
  | resetEmpty here => exact ⟨current, inEpoch.resetEmpty among here⟩

theorem start_inEpoch {size : Nat} (positive : 0 < size) : InEpoch (start size) 0 := by
  have zeros (weight : Task → Nat) (zero : weight fresh = 0) : total weight (start size) = 0 :=
    Finset.sum_eq_zero fun _ _ => zero
  have sinc (which : Which) : (start size).shared.sinc which = ⟨size, false⟩ := by
    have nonzero : size ≠ 0 := by omega
    simp [start, State.create, Sincs.Sinc.init, nonzero]
  refine ⟨positive, ?_, fun _ _ => rfl, ?_, ?_, ?_, by simp, ?_, ?_⟩
  · intro i _
    exact ⟨rfl, rfl⟩
  · rw [sinc, zeros (submitted 0) rfl]
    rfl
  · rw [sinc]
  · rw [sinc, zeros filling rfl, if_neg (by simp; omega)]
  · intro i _ _
    exact sinc _
  · intro i _ which is
    rw [sinc]
    rfl

theorem resize_eq_start {newSize : Nat} (positive : 0 < newSize)
    (whole : resizeDiff newSize b.count = newSize) : b.resize newSize = .create newSize := by
  have nonzero : newSize ≠ 0 := by omega
  simp only [State.resize, State.create, whole, resetSinc, Sincs.Sinc.init, Sincs.Sinc.setCounter,
    Sincs.Sinc.empty, ne_eq, nonzero, not_false_eq_true, if_true, decide_false]

def Runs (config : Config) : Prop := ∃ current, InEpoch config current

theorem Runs.step {after : Config} {label : Label} (runs : Runs config) (whole : Whole config label)
    (taken : Step config label after) : Runs after := by
  obtain ⟨current, inEpoch⟩ := runs
  cases taken with
  | enter moved =>
    cases moved with
    | move act => exact inEpoch.act act
  | resize newSize positive outside =>
    refine ⟨0, ?_⟩
    rw [resize_eq_start positive whole]
    exact start_inEpoch positive

structure Safe (config : Config) : Prop where
  together : ∀ i < config.shared.count, ∀ j < config.shared.count,
    (config.tasks i).returned ≤ (config.tasks j).started
  submits : ∀ i which, (config.tasks i).pc = .inside which .submitAdd →
    0 < (config.shared.sinc which).counter
  resets : ∀ i j which stage other, (config.tasks i).pc = .inside which stage →
    stage = .resetSet ∨ stage = .resetCheck ∨ stage = .resetEmpty →
    (config.tasks j).pc = .inside which.resets other →
    other ≠ .submitAdd ∧ other ≠ .submitFill ∧ other ≠ .wait

theorem InEpoch.inside {i : Nat} (inEpoch : InEpoch config current)
    (here : (config.tasks i).pc = .inside which stage) : i < config.shared.count := by
  by_contra outside
  rw [inEpoch.others i (by omega)] at here
  cases here

theorem Task.Fits.calls (fits : task.Fits current) :
    3 * task.returned ≤ current ∧ current ≤ 3 * task.started := by
  simp only [Task.Fits] at fits
  split at fits
  case h_1 here =>
    simp only [Task.epoch, here] at fits
    omega
  case h_2 which stage here =>
    simp only [Task.epoch, here] at fits
    have most : which.number ≤ 2 := by cases which <;> simp [Which.number]
    cases stage <;> simp only [Stage.Fits] at fits <;> omega

theorem InEpoch.safe (inEpoch : InEpoch config current) : Safe config := by
  refine ⟨?_, ?_, ?_⟩
  · intro i first j second
    have early := (inEpoch.tasks i first).calls
    have late := (inEpoch.tasks j second).calls
    omega
  · intro i which here
    have among := inEpoch.inside here
    have fits := inEpoch.tasks i among
    simp only [Task.Fits, here, Stage.Fits] at fits
    have same : Which.at current = which := fits.1 ▸ Task.at_epoch here
    rw [← same]
    exact inEpoch.submitted_lt among (by simp [submitted, here])
  · intro i j which stage other here late there
    obtain ⟨-, target, -⟩ := inEpoch.passed (inEpoch.inside here) here late
    have fits := inEpoch.tasks j (inEpoch.inside there)
    have epoch := Task.at_epoch there
    simp only [Task.Fits, there] at fits
    rw [target, Which.at_eq] at epoch
    refine ⟨?_, ?_, ?_⟩
    · rintro rfl
      simp only [Stage.Fits] at fits
      omega
    · rintro rfl
      simp only [Stage.Fits] at fits
      omega
    · rintro rfl
      simp only [Stage.Fits] at fits
      omega

def Renews (config : Config) : Prop :=
  ∀ newSize after, Guarded Whole Step config (.resize newSize) after → after = start newSize

theorem sinc_barrier_safe {size : Nat} (positive : 0 < size) {labels : List Label} {last : Config}
    (run : Run (Guarded Whole Step) (start size) labels last) : Safe last ∧ Renews last := by
  have runs : Runs last :=
    run.preserves (fun _ _ _ runs taken => runs.step taken.1 taken.2) ⟨0, start_inEpoch positive⟩
  obtain ⟨current, inEpoch⟩ := runs
  refine ⟨inEpoch.safe, ?_⟩
  rintro newSize after ⟨whole, taken⟩
  cases taken with
  | resize _ positive =>
    rw [resize_eq_start positive whole]
    rfl

/-- A barrier for 2^32 tasks is made one for a single task, which enters it. -/
theorem sinc_barrier_safe_resized : ∃ last,
    Run (Guarded Whole Step) (start 4294967296) [.resize 1, .enter 0, .enter 0] last ∧
      last.shared.count = 1 ∧ (last.tasks 0).pc = .inside .sinc1 .submitFill ∧ Safe last ∧
      Renews last := by
  obtain ⟨last, run, count, here⟩ : ∃ last,
      Run (Guarded Whole Step) (start 4294967296) [.resize 1, .enter 0, .enter 0] last ∧
        last.shared.count = 1 ∧ (last.tasks 0).pc = .inside .sinc1 .submitFill := by
    refine ⟨_, .cons ⟨show resizeDiff 1 4294967296 = 1 by decide, .resize 1 (by decide) fun _ => rfl⟩ <|
      .cons ⟨trivial, .enter (.of_eq rfl (.call (by decide) rfl))⟩ <|
      .cons ⟨trivial, .enter (.of_eq rfl (.submitAdd rfl))⟩ <| .nil _, rfl, ?_⟩
    decide
  exact ⟨last, run, count, here, sinc_barrier_safe (by decide) run⟩

/-- A barrier for one task is made one for two: the second submit comes when the counter is 0. -/
theorem sinc_barrier_resize_unsafe : ∃ last,
    Run Step (start 1) [.resize 2, .enter 0, .enter 0, .enter 1] last ∧
      (last.tasks 1).pc = .inside .sinc1 .submitAdd ∧ (last.shared.sinc .sinc1).counter = 0 ∧
      ¬ Safe last := by
  obtain ⟨last, run, here, zero⟩ : ∃ last,
      Run Step (start 1) [.resize 2, .enter 0, .enter 0, .enter 1] last ∧
        (last.tasks 1).pc = .inside .sinc1 .submitAdd ∧ (last.shared.sinc .sinc1).counter = 0 := by
    refine ⟨_, .cons (.resize 2 (by decide) fun _ => rfl) <|
      .cons (.enter (.of_eq rfl (.call (by decide) rfl))) <|
      .cons (.enter (.of_eq rfl (.submitAdd rfl))) <|
      .cons (.enter (.of_eq rfl (.call (by decide) rfl))) <| .nil _, ?_, ?_⟩
    · decide
    · decide
  refine ⟨last, run, here, zero, fun safe => ?_⟩
  have positive := safe.submits 1 .sinc1 here
  omega

end Qthreads.Barrier.Sinc
