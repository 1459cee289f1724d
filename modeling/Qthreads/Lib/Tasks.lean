import Mathlib.Algebra.BigOperators.Ring.Finset
import Mathlib.Algebra.Order.BigOperators.Group.Finset
import Qthreads.Lib.Run

namespace Qthreads.Lib

open Function (update update_of_ne update_self update_idem)

/-! Interleavings of tasks that share a state.

Each task has a local state of its own; a step of the system is a step of one task, which
may read and change the shared state and its own local state and nothing else. -/

structure Config (Shared Local : Type*) where
  shared : Shared
  tasks : Nat → Local

namespace Config

variable {Shared Local Label : Type*}

/-- The step relation of a whole system, from the steps `act` of a single task. -/
inductive Step (act : Nat → Shared → Local → Label → Shared → Local → Prop) :
    Config Shared Local → Nat × Label → Config Shared Local → Prop where
  | move {config : Config Shared Local} {task : Nat} {label : Label} {shared : Shared}
      {mine : Local} :
      act task config.shared (config.tasks task) label shared mine →
      Step act config (task, label) ⟨shared, update config.tasks task mine⟩

variable {config : Config Shared Local} {current mine : Local} {shared : Shared} {label : Label}

theorem Step.of_eq {act : Nat → Shared → Local → Label → Shared → Local → Prop} {task : Nat}
    (here : config.tasks task = current)
    (acted : act task config.shared current label shared mine) :
    Step act config (task, label) ⟨shared, update config.tasks task mine⟩ := by
  subst here
  exact .move acted

variable {wanted : Config Shared Local → Prop}

theorem exists_move {act : Nat → Shared → Local → Label → Shared → Local → Prop} (task : Nat)
    (here : config.tasks task = current)
    (acted : act task config.shared current label shared mine)
    (rest : ∃ labels last,
      Run (Step act) ⟨shared, update config.tasks task mine⟩ labels last ∧ wanted last) :
    ∃ labels last, Run (Step act) config labels last ∧ wanted last := by
  obtain ⟨labels, last, run, there⟩ := rest
  exact ⟨_, last, .cons (.of_eq here acted) run, there⟩

theorem exists_guarded_move {act : Nat → Shared → Local → Label → Shared → Local → Prop}
    {allowed : Config Shared Local → Nat × Label → Prop} (task : Nat)
    (here : config.tasks task = current)
    (acted : act task config.shared current label shared mine) (met : allowed config (task, label))
    (rest : ∃ labels last,
      Run (Guarded allowed (Step act)) ⟨shared, update config.tasks task mine⟩ labels last ∧
        wanted last) :
    ∃ labels last, Run (Guarded allowed (Step act)) config labels last ∧ wanted last := by
  obtain ⟨labels, last, run, there⟩ := rest
  exact ⟨_, last, .cons ⟨met, .of_eq here acted⟩ run, there⟩

def Alone (act : Nat → Shared → Local → Label → Shared → Local → Prop) (task : Nat) :
    Shared × Local → Label → Shared × Local → Prop :=
  fun before label after => act task before.1 before.2 label after.1 after.2

theorem run_alone {act : Nat → Shared → Local → Label → Shared → Local → Prop} {task : Nat}
    {first last : Shared × Local} {labels : List Label} (run : Run (Alone act task) first labels last)
    (tasks : Nat → Local) :
    Run (Step act) ⟨first.1, update tasks task first.2⟩
      (labels.map fun label => (task, label)) ⟨last.1, update tasks task last.2⟩ := by
  induction run with
  | nil => exact .nil _
  | @cons before middle after label labels taken _ ih =>
    have here : update tasks task before.2 task = before.2 := update_self ..
    have moved : Step act ⟨before.1, update tasks task before.2⟩ (task, label)
        ⟨middle.1, update (update tasks task before.2) task middle.2⟩ :=
      .of_eq here taken
    rw [update_idem] at moved
    exact .cons moved ih

def Guard (allowed : Shared → Local → Prop)
    (act : Nat → Shared → Local → Label → Shared → Local → Prop) :
    Nat → Shared → Local → Label → Shared → Local → Prop :=
  fun task before mine label after next =>
    allowed before mine ∧ act task before mine label after next

structure Holds (good : Shared → Prop) (own : Nat → Shared → Local → Prop)
    (config : Config Shared Local) : Prop where
  shared : good config.shared
  tasks : ∀ task, own task config.shared (config.tasks task)

variable {act : Nat → Shared → Local → Label → Shared → Local → Prop}
  {good : Shared → Prop} {own : Nat → Shared → Local → Prop}

structure Respects (act : Nat → Shared → Local → Label → Shared → Local → Prop)
    (good : Shared → Prop) (own : Nat → Shared → Local → Prop) : Prop where
  keeps : ∀ {task : Nat} {before after : Shared} {mine next : Local} {label : Label},
    good before → own task before mine → act task before mine label after next →
    good after ∧ own task after next
  stable : ∀ {task other : Nat} {before after : Shared} {mine next theirs : Local} {label : Label},
    other ≠ task → good before → own task before mine → own other before theirs →
    act task before mine label after next → own other after theirs

theorem Holds.step (respects : Respects act good own) {before after : Config Shared Local}
    {label : Nat × Label} (holds : Holds good own before) (taken : Step act before label after) :
    Holds good own after := by
  cases taken with
  | @move task label shared mine acted =>
    obtain ⟨kept, mineKept⟩ := respects.keeps holds.shared (holds.tasks task) acted
    refine ⟨kept, ?_⟩
    intro other
    by_cases same : other = task
    · subst same
      simpa using mineKept
    · simp only [update_of_ne same]
      exact respects.stable same holds.shared (holds.tasks task) (holds.tasks other) acted

theorem Holds.run (respects : Respects act good own) {first last : Config Shared Local}
    {labels : List (Nat × Label)} (run : Run (Step act) first labels last)
    (start : Holds good own first) : Holds good own last :=
  run.preserves (fun _ _ _ holds taken => holds.step respects taken) start

variable {count task : Nat}

theorem sum_update (among : task < count) (tasks : Nat → Local) (mine : Local)
    (weight : Local → Nat) :
    (∑ i ∈ Finset.range count, weight (update tasks task mine i)) + weight (tasks task) =
      (∑ i ∈ Finset.range count, weight (tasks i)) + weight mine := by
  have member : task ∈ Finset.range count := Finset.mem_range.mpr among
  have others : ∑ i ∈ (Finset.range count).erase task, weight (update tasks task mine i) =
      ∑ i ∈ (Finset.range count).erase task, weight (tasks i) := by
    apply Finset.sum_congr rfl
    intro i inside
    rw [update_of_ne (Finset.ne_of_mem_erase inside)]
  rw [← Finset.add_sum_erase _ _ member, ← Finset.add_sum_erase _ (fun i => weight (tasks i)) member,
    others, update_self]
  omega

def weigh (count : Nat) (weight : Local → Nat) (config : Config Shared Local) : Nat :=
  ∑ i ∈ Finset.range count, weight (config.tasks i)

theorem weigh_update (among : task < count) (config : Config Shared Local)
    (shared : Shared) (mine : Local) (weight : Local → Nat) :
    weigh count weight ⟨shared, update config.tasks task mine⟩ + weight (config.tasks task) =
      weigh count weight config + weight mine :=
  sum_update among config.tasks mine weight

theorem weight_le_weigh (among : task < count) (config : Config Shared Local)
    (weight : Local → Nat) : weight (config.tasks task) ≤ weigh count weight config :=
  Finset.single_le_sum (f := fun i => weight (config.tasks i)) (fun _ _ => Nat.zero_le _)
    (Finset.mem_range.mpr among)

theorem weigh_eq_zero {count : Nat} {weight : Local → Nat}
    (zeros : ∀ i < count, weight (config.tasks i) = 0) : weigh count weight config = 0 :=
  Finset.sum_eq_zero fun i member => zeros i (Finset.mem_range.mp member)

end Config

end Qthreads.Lib
