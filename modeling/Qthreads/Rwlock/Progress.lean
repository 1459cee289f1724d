import Qthreads.Rwlock.Exclusion

namespace Qthreads.Rwlock

open Lib
open Function (update update_of_ne update_self)

variable {callers : Callers} {config : Config Lock Pc} {task : Nat}

def Goes (callers : Callers) : Config Lock Pc → Nat × Label → Config Lock Pc → Prop :=
  Guarded (fun _ move => move.2 = .goes) (Config.Step (Act callers))

theorem exists_goes {shared : Lock} {current mine : Pc} {wanted : Config Lock Pc → Prop}
    (here : config.tasks task = current) (acted : Act callers task config.shared current .goes shared mine)
    (rest : ∃ moves last, Run (Goes callers) ⟨shared, update config.tasks task mine⟩ moves last ∧
      wanted last) :
    ∃ moves last, Run (Goes callers) config moves last ∧ wanted last :=
  Config.exists_guarded_move task here acted rfl rest

def Lock.set (l : Lock) : Nat := {k ∈ Finset.range maxReaders | l.readers k ≠ 0}.card

theorem set_clear {l : Lock} {k : Nat} (inside : k < maxReaders) (set : l.readers k ≠ 0) :
    Lock.set { l with readers := update l.readers k 0 } < l.set := by
  refine Finset.card_lt_card ?_
  rw [Finset.ssubset_iff_of_subset]
  · refine ⟨k, Finset.mem_filter.mpr ⟨Finset.mem_range.mpr inside, set⟩, fun member => ?_⟩
    exact (Finset.mem_filter.mp member).2 (update_self ..)
  · intro j member
    obtain ⟨below, nonzero⟩ := Finset.mem_filter.mp member
    refine Finset.mem_filter.mpr ⟨below, fun zero => nonzero ?_⟩
    by_cases same : j = k
    · simp only [same, update_self]
    · simp only [update_of_ne same, zero]

variable {writer i : Nat}

theorem exists_cleared (inv : Inv callers config.shared config.tasks)
    (at_ : config.tasks writer = .scan i) (free : ∀ other, config.tasks other ≠ .reading) :
    ∃ moves last, Run (Goes callers) config moves last ∧ Inv callers last.shared last.tasks ∧
      last.tasks writer = .scan i ∧ ∀ k, last.shared.readers k = 0 := by
  induction count : config.shared.set using Nat.strong_induction_on generalizing config with
  | _ count ih =>
    by_cases clear : ∀ k, config.shared.readers k = 0
    · exact ⟨[], config, .nil _, inv, at_, clear⟩
    · obtain ⟨k, set⟩ := not_forall.mp clear
      obtain ⟨task, announced, id⟩ := inv.byte k set
      have owned : config.shared.owner ≠ 0 := (inv.own writer).claims (by rw [at_]; rfl)
      have reader : callers.reader task = true := by
        refine (inv.own task).reads ?_
        cases pc : config.tasks task <;> rw [pc] at announced <;> first | rfl | cases announced
      have away : writer ≠ task := by
        rintro rfl
        rw [at_] at announced
        cases announced
      -- From the store that clears the byte on, fewer bytes are set.
      have store (before : Config Lock Pc) (same : before.shared = config.shared)
          (inv : Inv callers before.shared before.tasks) (writes : before.tasks writer = .scan i)
          (free : ∀ other, before.tasks other ≠ .reading) (here : before.tasks task = .retract) :
          ∃ moves last, Run (Goes callers) before moves last ∧ Inv callers last.shared last.tasks ∧
            last.tasks writer = .scan i ∧ ∀ k, last.shared.readers k = 0 := by
        have acted := @Act.retract callers task before.shared
        refine exists_goes here acted ?_
        refine ih _ ?_ ((inv.keeps here acted).inv inv) ?_ ?_ rfl
        · rw [← count, ← same]
          refine set_clear (callers.inside task reader) ?_
          rw [id, same]
          exact set
        · simpa only [update_of_ne away] using writes
        · intro other
          by_cases mine : other = task
          · simp only [mine, update_self]
            nofun
          · simpa only [update_of_ne mine] using free other
      cases pc : config.tasks task with
      | check =>
        have acted := @Act.defer callers task _ owned
        refine exists_goes pc acted ?_
        refine store ⟨config.shared, _⟩ rfl ((inv.keeps pc acted).inv inv) ?_ ?_ ?_
        · simpa only [update_of_ne away] using at_
        · intro other
          by_cases mine : other = task
          · simp only [mine, update_self]
            nofun
          · simpa only [update_of_ne mine] using free other
        · simp only [update_self]
      | retract => exact store config rfl inv at_ free pc
      | reading => exact absurd pc (free task)
      | idle | announce | await | spin | claim | scan _ | writing =>
        rw [pc] at announced
        cases announced

theorem exists_swept (inside : i < words) (at_ : config.tasks writer = .scan i)
    (clear : ∀ k, config.shared.readers k = 0) :
    ∃ moves last, Run (Goes callers) config moves last ∧ last.tasks writer = .writing := by
  have zero (j : Nat) : config.shared.word j = 0 := word_eq_zero_iff.mpr fun _ _ => clear _
  obtain ⟨left, total⟩ := Nat.exists_eq_add_of_lt inside
  induction left generalizing config i with
  | zero =>
    refine exists_goes at_ (.last (zero i) total.symm) ?_
    exact ⟨[], _, .nil _, by simp only [update_self]⟩
  | succ left ih =>
    have further : i + 1 < words := by omega
    refine exists_goes at_ (.next (zero i) further) ?_
    exact ih further (update_self ..) clear zero (by omega)

def Held (config : Config Lock Pc) : Prop :=
  ∃ task, config.tasks task = .reading ∨ config.tasks task = .writing

theorem exists_held_of_scan (inv : Inv callers config.shared config.tasks)
    (at_ : config.tasks writer = .scan i) (free : ∀ other, config.tasks other ≠ .reading) :
    ∃ moves last, Run (Goes callers) config moves last ∧ Held last := by
  obtain ⟨moves, middle, run, inv, there, clear⟩ := exists_cleared inv at_ free
  obtain ⟨more, last, rest, writing⟩ := exists_swept ((inv.own writer).words i there) there clear
  exact ⟨moves ++ more, last, run.append rest, writer, .inr writing⟩

theorem exists_held (inv : Inv callers config.shared config.tasks) (free : ¬ Held config)
    (busy : config.tasks task ≠ .idle) :
    ∃ moves last, Run (Goes callers) config moves last ∧ Held last := by
  have unread (other : Nat) : config.tasks other ≠ .reading := fun reading => free ⟨other, .inl reading⟩
  have unwritten (other : Nat) : config.tasks other ≠ .writing := fun writing => free ⟨other, .inr writing⟩
  by_cases owned : config.shared.owner = 0
  · have announce (before : Config Lock Pc) (free : before.shared.owner = 0)
        (at_ : before.tasks task = .announce) :
        ∃ moves last, Run (Goes callers) before moves last ∧ Held last := by
      refine exists_goes at_ .announce ?_
      refine exists_goes (update_self ..) (.enter free) ?_
      exact ⟨[], _, .nil _, task, .inl (update_self ..)⟩
    have await (before : Config Lock Pc) (free : before.shared.owner = 0)
        (at_ : before.tasks task = .await) :
        ∃ moves last, Run (Goes callers) before moves last ∧ Held last := by
      refine exists_goes at_ (.again free) ?_
      exact announce _ free (update_self ..)
    have claim (before : Config Lock Pc) (inv : Inv callers before.shared before.tasks)
        (free : before.shared.owner = 0) (unread : ∀ other, before.tasks other ≠ .reading)
        (at_ : before.tasks task = .claim) :
        ∃ moves last, Run (Goes callers) before moves last ∧ Held last := by
      have acted := @Act.claim callers task _ free
      refine exists_goes at_ acted ?_
      refine exists_held_of_scan ((inv.keeps at_ acted).inv inv)
        (update_self ..) fun other => ?_
      by_cases mine : other = task
      · simp only [mine, update_self]
        nofun
      · simpa only [update_of_ne mine] using unread other
    cases pc : config.tasks task with
    | idle => exact absurd pc busy
    | announce => exact announce config owned pc
    | check =>
      refine exists_goes pc (.enter owned) ?_
      exact ⟨[], _, .nil _, task, .inl (update_self ..)⟩
    | retract =>
      refine exists_goes pc .retract ?_
      exact await _ owned (update_self ..)
    | await => exact await config owned pc
    | reading => exact absurd pc (unread task)
    | spin =>
      have acted := @Act.free callers task _ owned
      refine exists_goes pc acted ?_
      refine claim _ ((inv.keeps pc acted).inv inv) owned (fun other => ?_) (update_self ..)
      by_cases mine : other = task
      · simp only [mine, update_self]
        nofun
      · simpa only [update_of_ne mine] using unread other
    | claim => exact claim config inv owned unread pc
    | scan i =>
      have claims := (inv.own task).claims
      rw [pc] at claims
      exact absurd owned (claims rfl)
    | writing => exact absurd pc (unwritten task)
  · obtain ⟨writer, claims⟩ := inv.owner owned
    cases pc : config.tasks writer with
    | scan i => exact exists_held_of_scan inv pc unread
    | writing => exact absurd pc (unwritten writer)
    | idle | announce | check | retract | await | reading | spin | claim =>
      rw [pc] at claims
      cases claims

/-- In every reachable state, a writer that has the lock has it alone, and where nobody has it while a
call is in progress, the calls in progress can go on until somebody has. -/
theorem writers_alone_and_never_stuck {callers : Callers} {moves : List (Nat × Label)}
    {last : Config Lock Pc} (run : Run (Config.Step (Act callers)) start moves last) :
    (∀ writer, last.tasks writer = .writing → ∀ other, other ≠ writer →
      last.tasks other ≠ .writing ∧ last.tasks other ≠ .reading) ∧
    (¬ Held last → ∀ task, last.tasks task ≠ .idle →
      ∃ more later, Run (Goes callers) last more later ∧ Held later) := by
  have inv : Inv callers last.shared last.tasks :=
    @Run.preserves _ _ _ _ _ _ (fun config => Inv callers config.shared config.tasks)
      (fun _ _ _ inv taken => inv.step taken) run start_inv
  refine ⟨fun writer writing other differ => ?_, fun free task busy => exists_held inv free busy⟩
  have apart := inv.apart writer other differ.symm
  rw [writing] at apart
  refine ⟨fun theirs => ?_, fun theirs => ?_⟩
  · rw [theirs] at apart
    exact absurd (apart.alone rfl) nofun
  · -- The writer has passed all words, and a reader's id is less than their bytes.
    have least := apart.passed rfl theirs
    have own := inv.own other
    rw [theirs] at own
    have inside := callers.inside other (own.reads rfl)
    simp only [Pc.passed, words, maxReaders] at least inside
    omega

def twoCallers : Callers where
  id task := if task = 0 then 3 else 5
  reader task := task = 0
  inside task reader := by
    rw [decide_eq_true_iff] at reader
    rw [if_pos reader]
    decide
  distinct task other mine theirs _ :=
    (of_decide_eq_true mine).trans (of_decide_eq_true theirs).symm
  int task := by
    split <;> decide

theorem writers_alone_and_never_stuck_reader_inside :
    ∃ last, last.tasks 0 = .reading ∧ last.tasks 1 = .spin ∧
      ((∀ writer, last.tasks writer = .writing → ∀ other, other ≠ writer →
        last.tasks other ≠ .writing ∧ last.tasks other ≠ .reading) ∧
      (¬ Held last → ∀ task, last.tasks task ≠ .idle →
        ∃ more later, Run (Goes twoCallers) last more later ∧ Held later)) := by
  refine ⟨_, ?_, ?_, @writers_alone_and_never_stuck twoCallers
    [(0, .begins), (0, .goes), (0, .goes), (1, .begins)] _ <| .cons (.of_eq rfl (.rdlock rfl)) <|
    .cons (.of_eq rfl .announce) <| .cons (.of_eq rfl (.enter rfl)) <|
    .cons (.of_eq rfl .wrlock) <| .nil _⟩
  · rfl
  · rfl

end Qthreads.Rwlock
