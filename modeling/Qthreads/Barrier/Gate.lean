import Qthreads.Lib.Tasks

namespace Qthreads.Barrier.Gate

open Lib
open Function (update)

/-! `barrier/feb.c` -/

structure Gates where
  blockers : Nat
  inGate : Bool
  outGate : Bool

def Gates.create : Gates := ⟨0, true, false⟩

inductive Pc where
  | outside
  | atInGate
  | increment
  | failed
  | closeIn
  | openOut
  | atOutGate
  | decrement
  | closeOut
  | openIn

/-- A task, with the numbers of calls it has started and returned from. -/
structure Task where
  pc : Pc
  started : Nat
  returned : Nat

namespace Task

def move (task : Task) (pc : Pc) : Task := { task with pc := pc }

def call (task : Task) : Task := ⟨.atInGate, task.started + 1, task.returned⟩

def giveBack (task : Task) : Task := ⟨.outside, task.started, task.returned + 1⟩

end Task

/-- One step of `qt_barrier_enter`, for a barrier made for `maxBlockers` tasks. -/
inductive Act (maxBlockers : Nat) (me : Nat) : Gates → Task → Unit → Gates → Task → Prop where
  | call {b : Gates} {task : Task} : me < maxBlockers → task.pc = .outside →
      Act maxBlockers me b task () b task.call
  | passIn {b : Gates} {task : Task} : task.pc = .atInGate → b.inGate = true →
      Act maxBlockers me b task () b (task.move .increment)
  | assertion {b : Gates} {task : Task} : task.pc = .increment → maxBlockers < b.blockers + 1 →
      Act maxBlockers me b task () { b with blockers := b.blockers + 1 } (task.move .failed)
  | last {b : Gates} {task : Task} : task.pc = .increment → b.blockers + 1 = maxBlockers →
      Act maxBlockers me b task () { b with blockers := b.blockers + 1 } (task.move .closeIn)
  | wait {b : Gates} {task : Task} : task.pc = .increment → b.blockers + 1 < maxBlockers →
      Act maxBlockers me b task () { b with blockers := b.blockers + 1 } (task.move .atOutGate)
  | closeIn {b : Gates} {task : Task} : task.pc = .closeIn →
      Act maxBlockers me b task () { b with inGate := false } (task.move .openOut)
  | openOut {b : Gates} {task : Task} : task.pc = .openOut →
      Act maxBlockers me b task () { b with outGate := true } (task.move .decrement)
  | passOut {b : Gates} {task : Task} : task.pc = .atOutGate → b.outGate = true →
      Act maxBlockers me b task () b (task.move .decrement)
  | leave {b : Gates} {task : Task} : task.pc = .decrement → b.blockers - 1 ≠ 0 →
      Act maxBlockers me b task () { b with blockers := b.blockers - 1 } task.giveBack
  | leaveLast {b : Gates} {task : Task} : task.pc = .decrement → b.blockers - 1 = 0 →
      Act maxBlockers me b task () { b with blockers := b.blockers - 1 } (task.move .closeOut)
  | closeOut {b : Gates} {task : Task} : task.pc = .closeOut →
      Act maxBlockers me b task () { b with outGate := false } (task.move .openIn)
  | openIn {b : Gates} {task : Task} : task.pc = .openIn →
      Act maxBlockers me b task () { b with inGate := true } task.giveBack

abbrev Config := Lib.Config Gates Task

abbrev Step (maxBlockers : Nat) : Config → Nat × Unit → Config → Prop :=
  Lib.Config.Step (Act maxBlockers)

def start : Config := ⟨.create, fun _ => ⟨.outside, 0, 0⟩⟩

inductive Phase where
  | filling
  | closingIn (last : Nat)
  | openingOut (last : Nat)
  | draining
  | closingOut (last : Nat)
  | openingIn (last : Nat)

def Phase.inGate : Phase → Bool
  | .filling => true
  | .closingIn _ => true
  | _ => false

def Phase.outGate : Phase → Bool
  | .draining => true
  | .closingOut _ => true
  | _ => false

def Phase.Fits (round : Nat) (me : Nat) (task : Task) : Phase → Prop
  | .filling => task = ⟨.outside, round, round⟩ ∨ task = ⟨.atInGate, round + 1, round⟩ ∨
      task = ⟨.increment, round + 1, round⟩ ∨ task = ⟨.atOutGate, round + 1, round⟩
  | .closingIn last =>
    task = if me = last then ⟨.closeIn, round + 1, round⟩ else ⟨.atOutGate, round + 1, round⟩
  | .openingOut last =>
    task = if me = last then ⟨.openOut, round + 1, round⟩ else ⟨.atOutGate, round + 1, round⟩
  | .draining => task = ⟨.atOutGate, round + 1, round⟩ ∨ task = ⟨.decrement, round + 1, round⟩ ∨
      task = ⟨.outside, round + 1, round + 1⟩ ∨ task = ⟨.atInGate, round + 2, round + 1⟩
  | .closingOut last =>
    if me = last then task = ⟨.closeOut, round + 1, round⟩
    else task = ⟨.outside, round + 1, round + 1⟩ ∨ task = ⟨.atInGate, round + 2, round + 1⟩
  | .openingIn last =>
    if me = last then task = ⟨.openIn, round + 1, round⟩
    else task = ⟨.outside, round + 1, round + 1⟩ ∨ task = ⟨.atInGate, round + 2, round + 1⟩

def counted (task : Task) : Nat :=
  match task.pc with
  | .closeIn => 1
  | .openOut => 1
  | .atOutGate => 1
  | .decrement => 1
  | _ => 0

def Phase.Counts (maxBlockers blockers : Nat) : Phase → Prop
  | .filling => blockers < maxBlockers
  | .draining => 0 < blockers
  | .closingIn last | .openingOut last | .closingOut last | .openingIn last => last < maxBlockers

structure InRound (maxBlockers : Nat) (config : Config) (round : Nat) (phase : Phase) : Prop where
  inGate : config.shared.inGate = phase.inGate
  outGate : config.shared.outGate = phase.outGate
  tasks : ∀ i < maxBlockers, phase.Fits round i (config.tasks i)
  blockers : config.shared.blockers = ∑ i ∈ Finset.range maxBlockers, counted (config.tasks i)
  counts : phase.Counts maxBlockers config.shared.blockers
  others : ∀ i, maxBlockers ≤ i → config.tasks i = ⟨.outside, 0, 0⟩

variable {maxBlockers round me : Nat} {config : Config} {phase : Phase} {b : Gates} {mine : Task}

section

variable (inRound : InRound maxBlockers config round phase)
include inRound

theorem InRound.move {roundAfter : Nat} {phaseAfter : Phase}
    (among : me < maxBlockers) (inGate : b.inGate = phaseAfter.inGate)
    (outGate : b.outGate = phaseAfter.outGate) (fits : phaseAfter.Fits roundAfter me mine)
    (rest : ∀ i < maxBlockers, i ≠ me → phaseAfter.Fits roundAfter i (config.tasks i))
    (count : b.blockers + counted (config.tasks me) = config.shared.blockers + counted mine)
    (counts : phaseAfter.Counts maxBlockers b.blockers) :
    InRound maxBlockers ⟨b, update config.tasks me mine⟩ roundAfter phaseAfter := by
  refine ⟨inGate, outGate, ?_, ?_, counts, ?_⟩
  · intro i small
    by_cases same : i = me
    · subst same
      simpa using fits
    · simpa [same] using rest i small same
  · have sum := Config.sum_update among config.tasks mine counted
    rw [inRound.blockers] at count
    show b.blockers = ∑ i ∈ Finset.range maxBlockers, counted (update config.tasks me mine i)
    omega
  · intro i large
    have differs : i ≠ me := by omega
    simpa [differs] using inRound.others i large

theorem InRound.all_counted (among : me < maxBlockers) (uncounted : counted (config.tasks me) = 0)
    (nearly : config.shared.blockers + 1 = maxBlockers) :
    ∀ i < maxBlockers, i ≠ me → counted (config.tasks i) = 1 := by
  have bound : ∀ task, counted task ≤ 1 := by
    intro task
    unfold counted
    split <;> simp
  intro i small differs
  by_contra other
  have zero : counted (config.tasks i) = 0 := by
    have := bound (config.tasks i)
    omega
  have members : i ∈ Finset.range maxBlockers ∧ me ∈ (Finset.range maxBlockers).erase i := by
    simp [small, among, differs.symm]
  have first := Finset.add_sum_erase _ (fun i => counted (config.tasks i)) members.1
  have second := Finset.add_sum_erase _ (fun i => counted (config.tasks i)) members.2
  have few : ∑ j ∈ ((Finset.range maxBlockers).erase i).erase me, counted (config.tasks j) ≤
      maxBlockers - 1 - 1 := by
    have le := Finset.sum_le_card_nsmul (((Finset.range maxBlockers).erase i).erase me)
      (fun i => counted (config.tasks i)) 1 fun j _ => bound (config.tasks j)
    rw [Finset.card_erase_of_mem members.2, Finset.card_erase_of_mem members.1] at le
    simpa using le
  have total := inRound.blockers
  simp only [uncounted, zero] at first second
  omega

theorem InRound.none_counted (among : me < maxBlockers) (mine : counted (config.tasks me) = 1)
    (one : config.shared.blockers - 1 = 0) :
    ∀ i < maxBlockers, i ≠ me → counted (config.tasks i) = 0 := by
  intro i small differs
  have members : me ∈ Finset.range maxBlockers ∧ i ∈ (Finset.range maxBlockers).erase me := by
    simp [small, among, differs]
  have first := Finset.add_sum_erase _ (fun i => counted (config.tasks i)) members.1
  have second := Finset.add_sum_erase _ (fun i => counted (config.tasks i)) members.2
  have total := inRound.blockers
  simp only [mine] at first
  omega

theorem InRound.among {label : Unit}
    (act : Act maxBlockers me config.shared (config.tasks me) label b mine) : me < maxBlockers := by
  by_contra outside
  have idle := inRound.others me (by omega)
  rw [idle] at act
  cases act with
  | call among => exact outside among
  | _ => contradiction

end

variable {label : Unit}

theorem step_filling (inRound : InRound maxBlockers config round .filling)
    (act : Act maxBlockers me config.shared (config.tasks me) label b mine) :
    ∃ phase, InRound maxBlockers ⟨b, update config.tasks me mine⟩ round phase := by
  have among := inRound.among act
  have rest : ∀ i < maxBlockers, i ≠ me → Phase.filling.Fits round i (config.tasks i) :=
    fun i small _ => inRound.tasks i small
  have counts : config.shared.blockers < maxBlockers := inRound.counts
  rcases inRound.tasks me among with here | here | here | here
  · rw [here] at act
    cases act with
    | call =>
      exact ⟨.filling, inRound.move among inRound.inGate inRound.outGate (.inr (.inl rfl)) rest
        (by rw [here]; rfl) counts⟩
    | _ => contradiction
  · rw [here] at act
    cases act with
    | passIn =>
      exact ⟨.filling, inRound.move among inRound.inGate inRound.outGate (.inr (.inr (.inl rfl)))
        rest (by rw [here]; rfl) counts⟩
    | _ => contradiction
  · rw [here] at act
    cases act with
    | assertion _ beyond => omega
    | last _ full =>
      refine ⟨.closingIn me, inRound.move among inRound.inGate inRound.outGate (by simp [Phase.Fits, Task.move])
        ?_ (by rw [here]; rfl) among⟩
      intro i small differs
      have one := inRound.all_counted among (by rw [here]; rfl) full i small differs
      rcases inRound.tasks i small with there | there | there | there
      · simp [there, counted] at one
      · simp [there, counted] at one
      · simp [there, counted] at one
      · simp [Phase.Fits, differs, there]
    | wait _ few =>
      exact ⟨.filling, inRound.move among inRound.inGate inRound.outGate (.inr (.inr (.inr rfl)))
        rest (by rw [here]; rfl) few⟩
    | _ => contradiction
  · rw [here] at act
    cases act with
    | passOut _ isOpen =>
      rw [inRound.outGate] at isOpen
      cases isOpen
    | _ => contradiction

variable {last : Nat}

theorem step_closingIn (inRound : InRound maxBlockers config round (.closingIn last))
    (act : Act maxBlockers me config.shared (config.tasks me) label b mine) :
    ∃ phase, InRound maxBlockers ⟨b, update config.tasks me mine⟩ round phase := by
  have among := inRound.among act
  have here := inRound.tasks me among
  simp only [Phase.Fits] at here
  split at here
  case isTrue same =>
    subst same
    rw [here] at act
    cases act with
    | closeIn =>
      refine ⟨.openingOut me, inRound.move among rfl inRound.outGate (by simp [Phase.Fits, Task.move])
        ?_ (by rw [here]; rfl) among⟩
      intro i small differs
      have there := inRound.tasks i small
      simpa [Phase.Fits, differs] using there
    | _ => contradiction
  case isFalse differs =>
    rw [here] at act
    cases act with
    | passOut _ isOpen =>
      rw [inRound.outGate] at isOpen
      cases isOpen
    | _ => contradiction

theorem step_openingOut (inRound : InRound maxBlockers config round (.openingOut last))
    (act : Act maxBlockers me config.shared (config.tasks me) label b mine) :
    ∃ phase, InRound maxBlockers ⟨b, update config.tasks me mine⟩ round phase := by
  have among := inRound.among act
  have here := inRound.tasks me among
  simp only [Phase.Fits] at here
  split at here
  case isTrue same =>
    subst same
    have counted_me : counted (config.tasks me) = 1 := by rw [here]; rfl
    rw [here] at act
    cases act with
    | openOut =>
      refine ⟨.draining, inRound.move among inRound.inGate rfl (.inr (.inl rfl)) ?_
        (by rw [here]; rfl) ?_⟩
      · intro i small differs
        have there := inRound.tasks i small
        simp only [Phase.Fits, differs, if_false] at there
        exact .inl there
      · have member := Finset.mem_range.mpr among
        have total := Finset.add_sum_erase _ (fun i => counted (config.tasks i)) member
        have blockers := inRound.blockers
        simp only [counted_me] at total
        show 0 < config.shared.blockers
        omega
    | _ => contradiction
  case isFalse differs =>
    rw [here] at act
    cases act with
    | passOut _ isOpen =>
      rw [inRound.outGate] at isOpen
      cases isOpen
    | _ => contradiction

theorem step_draining (inRound : InRound maxBlockers config round .draining)
    (act : Act maxBlockers me config.shared (config.tasks me) label b mine) :
    ∃ phase, InRound maxBlockers ⟨b, update config.tasks me mine⟩ round phase := by
  have among := inRound.among act
  have rest : ∀ i < maxBlockers, i ≠ me → Phase.draining.Fits round i (config.tasks i) :=
    fun i small _ => inRound.tasks i small
  have counts : 0 < config.shared.blockers := inRound.counts
  rcases inRound.tasks me among with here | here | here | here
  · rw [here] at act
    cases act with
    | passOut =>
      exact ⟨.draining, inRound.move among inRound.inGate inRound.outGate (.inr (.inl rfl)) rest
        (by rw [here]; rfl) counts⟩
    | _ => contradiction
  · have one : counted (config.tasks me) = 1 := by rw [here]; rfl
    rw [here] at act
    cases act with
    | leave _ others =>
      refine ⟨.draining, inRound.move among inRound.inGate inRound.outGate (.inr (.inr (.inl rfl)))
        rest ?_ (Nat.pos_of_ne_zero others)⟩
      rw [one]
      show config.shared.blockers - 1 + 1 = config.shared.blockers + 0
      omega
    | leaveLast _ alone =>
      refine ⟨.closingOut me, inRound.move among inRound.inGate inRound.outGate
        (by simp [Phase.Fits, Task.move]) ?_ ?_ among⟩
      · intro i small differs
        have zero := inRound.none_counted among one alone i small differs
        simp only [Phase.Fits, differs, if_false]
        rcases inRound.tasks i small with there | there | there | there
        · simp [there, counted] at zero
        · simp [there, counted] at zero
        · exact .inl there
        · exact .inr there
      · rw [one]
        show config.shared.blockers - 1 + 1 = config.shared.blockers + 0
        omega
    | _ => contradiction
  · rw [here] at act
    cases act with
    | call =>
      exact ⟨.draining, inRound.move among inRound.inGate inRound.outGate (.inr (.inr (.inr rfl)))
        rest (by rw [here]; rfl) counts⟩
    | _ => contradiction
  · rw [here] at act
    cases act with
    | passIn _ isOpen =>
      rw [inRound.inGate] at isOpen
      cases isOpen
    | _ => contradiction

theorem step_closingOut (inRound : InRound maxBlockers config round (.closingOut last))
    (act : Act maxBlockers me config.shared (config.tasks me) label b mine) :
    ∃ phase, InRound maxBlockers ⟨b, update config.tasks me mine⟩ round phase := by
  have among := inRound.among act
  have here := inRound.tasks me among
  have rest : ∀ i < maxBlockers, i ≠ me → (Phase.closingOut last).Fits round i (config.tasks i) :=
    fun i small _ => inRound.tasks i small
  simp only [Phase.Fits] at here
  split at here
  case isTrue same =>
    subst same
    rw [here] at act
    cases act with
    | closeOut =>
      refine ⟨.openingIn me, inRound.move among inRound.inGate rfl (by simp [Phase.Fits, Task.move])
        ?_ (by rw [here]; rfl) among⟩
      intro i small differs
      have there := inRound.tasks i small
      simpa [Phase.Fits, differs] using there
    | _ => contradiction
  case isFalse differs =>
    rcases here with here | here
    · rw [here] at act
      cases act with
      | call =>
        exact ⟨.closingOut last, inRound.move among inRound.inGate inRound.outGate
          (by simp [Phase.Fits, differs, Task.call]) rest (by rw [here]; rfl) inRound.counts⟩
      | _ => contradiction
    · rw [here] at act
      cases act with
      | passIn _ isOpen =>
        rw [inRound.inGate] at isOpen
        cases isOpen
      | _ => contradiction

theorem step_openingIn (inRound : InRound maxBlockers config round (.openingIn last))
    (act : Act maxBlockers me config.shared (config.tasks me) label b mine) :
    ∃ round phase, InRound maxBlockers ⟨b, update config.tasks me mine⟩ round phase := by
  have among := inRound.among act
  have here := inRound.tasks me among
  have rest : ∀ i < maxBlockers, i ≠ me → (Phase.openingIn last).Fits round i (config.tasks i) :=
    fun i small _ => inRound.tasks i small
  simp only [Phase.Fits] at here
  split at here
  case isTrue same =>
    subst same
    have zero : config.shared.blockers = 0 := by
      rw [inRound.blockers]
      apply Finset.sum_eq_zero
      intro i member
      have there := inRound.tasks i (Finset.mem_range.mp member)
      simp only [Phase.Fits] at there
      split at there
      · rw [there]
        rfl
      · rcases there with there | there <;> simp [there, counted]
    rw [here] at act
    cases act with
    | openIn =>
      refine ⟨round + 1, .filling, inRound.move among rfl inRound.outGate (.inl rfl) ?_
        (by rw [here]; rfl) ?_⟩
      · intro i small differs
        have there := inRound.tasks i small
        simp only [Phase.Fits, differs, if_false] at there
        rcases there with there | there
        · exact .inl there
        · exact .inr (.inl there)
      · show config.shared.blockers < maxBlockers
        omega
    | _ => contradiction
  case isFalse differs =>
    rcases here with here | here
    · rw [here] at act
      cases act with
      | call =>
        exact ⟨round, .openingIn last, inRound.move among inRound.inGate inRound.outGate
          (by simp [Phase.Fits, differs, Task.call]) rest (by rw [here]; rfl) inRound.counts⟩
      | _ => contradiction
    · rw [here] at act
      cases act with
      | passIn _ isOpen =>
        rw [inRound.inGate] at isOpen
        cases isOpen
      | _ => contradiction

def Rounds (maxBlockers : Nat) (config : Config) : Prop :=
  ∃ round phase, InRound maxBlockers config round phase

theorem Rounds.step {after : Config} {label : Nat × Unit} (rounds : Rounds maxBlockers config)
    (taken : Step maxBlockers config label after) : Rounds maxBlockers after := by
  obtain ⟨round, phase, inRound⟩ := rounds
  cases taken with
  | move act =>
    cases phase with
    | filling => exact ⟨round, step_filling inRound act⟩
    | closingIn last => exact ⟨round, step_closingIn inRound act⟩
    | openingOut last => exact ⟨round, step_openingOut inRound act⟩
    | draining => exact ⟨round, step_draining inRound act⟩
    | closingOut last => exact ⟨round, step_closingOut inRound act⟩
    | openingIn last => exact step_openingIn inRound act

theorem start_rounds (positive : 0 < maxBlockers) : Rounds maxBlockers start :=
  ⟨0, .filling, rfl, rfl, fun _ _ => .inl rfl, by simp [start, counted, Gates.create], positive,
    fun _ _ => rfl⟩

structure Safe (maxBlockers : Nat) (config : Config) : Prop where
  together : ∀ i < maxBlockers, ∀ j < maxBlockers,
    (config.tasks i).returned ≤ (config.tasks j).started
  asserted : ∀ i, (config.tasks i).pc ≠ .failed
  gates : ¬ (config.shared.inGate = true ∧ config.shared.outGate = true)
  idle : (∀ i < maxBlockers, (config.tasks i).pc = .outside) → config.shared = .create

theorem Phase.Fits.calls (fits : phase.Fits round me mine) :
    mine.returned ≤ round + 1 ∧ round ≤ mine.started ∧
      (mine.returned = round + 1 → phase ≠ .filling) ∧ (mine.started = round → phase = .filling) ∧
      mine.pc ≠ .failed := by
  cases phase with
  | filling => rcases fits with rfl | rfl | rfl | rfl <;> simp
  | closingIn last => simp only [Phase.Fits] at fits; split at fits <;> subst fits <;> simp
  | openingOut last => simp only [Phase.Fits] at fits; split at fits <;> subst fits <;> simp
  | draining => rcases fits with rfl | rfl | rfl | rfl <;> simp
  | closingOut last =>
    simp only [Phase.Fits] at fits
    split at fits
    · subst fits
      simp
    · rcases fits with rfl | rfl <;> simp
  | openingIn last =>
    simp only [Phase.Fits] at fits
    split at fits
    · subst fits
      simp
    · rcases fits with rfl | rfl <;> simp

section

variable (inRound : InRound maxBlockers config round phase)
include inRound

theorem InRound.together {i j : Nat} (first : i < maxBlockers) (second : j < maxBlockers) :
    (config.tasks i).returned ≤ (config.tasks j).started := by
  obtain ⟨most, _, late, _⟩ := (inRound.tasks i first).calls
  obtain ⟨_, least, _, early, _⟩ := (inRound.tasks j second).calls
  by_contra before
  have done : (config.tasks i).returned = round + 1 := by omega
  have waits : (config.tasks j).started = round := by omega
  exact late done (early waits)

theorem InRound.gates : ¬ (config.shared.inGate = true ∧ config.shared.outGate = true) := by
  rw [inRound.inGate, inRound.outGate]
  cases phase <;> simp [Phase.inGate, Phase.outGate]

theorem InRound.idle
    (outside : ∀ i < maxBlockers, (config.tasks i).pc = .outside) : config.shared = .create := by
  have zero : config.shared.blockers = 0 := by
    rw [inRound.blockers]
    apply Finset.sum_eq_zero
    intro i member
    simp [counted, outside i (Finset.mem_range.mp member)]
  have counts := inRound.counts
  have filling : phase = .filling := by
    cases phase with
    | filling => rfl
    | draining => simp [Phase.Counts, zero] at counts
    | closingIn last =>
      have fits := inRound.tasks last counts
      have idle := outside last counts
      simp [Phase.Fits] at fits
      simp [fits] at idle
    | openingOut last =>
      have fits := inRound.tasks last counts
      have idle := outside last counts
      simp [Phase.Fits] at fits
      simp [fits] at idle
    | closingOut last =>
      have fits := inRound.tasks last counts
      have idle := outside last counts
      simp [Phase.Fits] at fits
      simp [fits] at idle
    | openingIn last =>
      have fits := inRound.tasks last counts
      have idle := outside last counts
      simp [Phase.Fits] at fits
      simp [fits] at idle
  subst filling
  have inGate := inRound.inGate
  have outGate := inRound.outGate
  cases gates : config.shared with
  | mk blockers isIn isOut =>
    simp only [gates, Phase.inGate, Phase.outGate] at zero inGate outGate
    simp [Gates.create, zero, inGate, outGate]

end

theorem barrier_enter_safe (positive : 0 < maxBlockers) {labels : List (Nat × Unit)} {last : Config}
    (run : Run (Step maxBlockers) start labels last) : Safe maxBlockers last := by
  have rounds : Rounds maxBlockers last :=
    run.preserves (fun _ _ _ rounds taken => rounds.step taken) (start_rounds positive)
  obtain ⟨round, phase, inRound⟩ := rounds
  refine ⟨fun i first j second => inRound.together first second, ?_, inRound.gates, inRound.idle⟩
  intro i
  by_cases among : i < maxBlockers
  · exact (inRound.tasks i among).calls.2.2.2.2
  · rw [inRound.others i (by omega)]
    simp

theorem barrier_enter_safe_two : ∃ labels last, Run (Step 2) start labels last ∧
    (last.tasks 0).returned = 1 ∧ (last.tasks 1).returned = 1 ∧ Safe 2 last := by
  have round : ∃ labels last, Run (Step 2) start labels last ∧
      (last.tasks 0).returned = 1 ∧ (last.tasks 1).returned = 1 :=
    Config.exists_move 0 rfl (.call (by decide) rfl) <| Config.exists_move 0 rfl (.passIn rfl rfl) <|
    Config.exists_move 0 rfl (.wait rfl (by decide)) <| Config.exists_move 1 rfl (.call (by decide) rfl) <|
    Config.exists_move 1 rfl (.passIn rfl rfl) <| Config.exists_move 1 rfl (.last rfl rfl) <|
    Config.exists_move 1 rfl (.closeIn rfl) <| Config.exists_move 1 rfl (.openOut rfl) <|
    Config.exists_move 1 rfl (.leave rfl (by decide)) <| Config.exists_move 0 rfl (.passOut rfl rfl) <|
    Config.exists_move 0 rfl (.leaveLast rfl rfl) <| Config.exists_move 0 rfl (.closeOut rfl) <|
    Config.exists_move 0 rfl (.openIn rfl) ⟨[], _, .nil _, rfl, rfl⟩
  obtain ⟨labels, last, run, zero, one⟩ := round
  exact ⟨labels, last, run, zero, one, barrier_enter_safe (by decide) run⟩

end Qthreads.Barrier.Gate
