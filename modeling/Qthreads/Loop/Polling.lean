import Mathlib.Algebra.GroupWithZero.Nat
import Mathlib.Algebra.BigOperators.Group.List.Basic
import Mathlib.Data.Finset.SDiff
import Qthreads.Lib.Run

namespace Qthreads.Loop.Polling

open Qthreads.Lib

/-! The getter is taken as what it is for: it hands out each iteration once and answers 0 when none is
left. -/

/-- A `qqloop_wrapper`, with the number of its worker, or a call of `qt_loop_queue_addworker`; at the
access to the loop structure that comes next. -/
inductive Task where
  /-- at `get_iters` -/
  | ask (shep : Nat)
  /-- in `func` -/
  | func (shep : Nat) (chunk : Finset Nat)
  /-- at `qthread_shep_ok` -/
  | check (shep : Nat)
  /-- at `qthread_incr(&(stat->activesheps), -1)` -/
  | leave (shep : Nat)
  /-- at `qthread_incr(dc, 1)` -/
  | finish (shep : Nat)
  | left (shep : Nat)
  | finished (shep : Nat)
  /-- at `loop->stat.donecount == 0` -/
  | added (shep : Nat)
  /-- at `qthread_fork_to` -/
  | fork (shep : Nat)
  /-- at `qthread_incr(&(loop->stat.activesheps), -1)` -/
  | drop
  | dropped

/-- Where `qt_loop_queue_run` is. -/
inductive Phase where
  | before
  | forking (i : Nat)
  | poll
  /-- `*dc` has been read, and is compared with `*as` next -/
  | haveDone (dc : Nat)
  /-- `*as` has been read first -/
  | haveActive (as : Int)
  | completed

/-- `qqloop_handle_t` with the tasks that have it, and the call of `qt_loop_queue_run`. -/
structure Handle where
  phase : Phase
  activesheps : Int
  donecount : Nat
  /-- the iterations that have not been handed out -/
  pool : Finset Nat
  executed : Finset Nat
  tasks : List Task

inductive Move where
  | run
  | task
  | add

def create (iterations : Finset Nat) : Handle := ⟨.before, 0, 0, iterations, ∅, []⟩

/-- What a task does to the loop structure, and what it does next; the worker with the number `steady`
never sees its shepherd disabled. -/
inductive TaskStep (steady : Nat) (s : Handle) : Task → Handle → Task → Prop where
  | get {shep : Nat} {chunk : Finset Nat} : chunk ⊆ s.pool → chunk.Nonempty →
      TaskStep steady s (.ask shep) { s with pool := s.pool \ chunk } (.func shep chunk)
  | none {shep : Nat} : s.pool = ∅ → TaskStep steady s (.ask shep) s (.finish shep)
  | func {shep : Nat} {chunk : Finset Nat} :
      TaskStep steady s (.func shep chunk) { s with executed := s.executed ∪ chunk } (.check shep)
  | ok {shep : Nat} : TaskStep steady s (.check shep) s (.ask shep)
  | disabled {shep : Nat} : shep ≠ steady → TaskStep steady s (.check shep) s (.leave shep)
  | leave {shep : Nat} : TaskStep steady s (.leave shep) { s with activesheps := s.activesheps - 1 }
      (.left shep)
  | finish {shep : Nat} : TaskStep steady s (.finish shep) { s with donecount := s.donecount + 1 }
      (.finished shep)
  | join {shep : Nat} : s.donecount = 0 → TaskStep steady s (.added shep) s (.fork shep)
  | late {shep : Nat} : s.donecount ≠ 0 → TaskStep steady s (.added shep) s .drop
  | fork {shep : Nat} : TaskStep steady s (.fork shep) s (.ask shep)
  | drop : TaskStep steady s .drop { s with activesheps := s.activesheps - 1 } .dropped

inductive Step (maxwkrs steady : Nat) (s : Handle) : Move → Handle → Prop where
  | store : s.phase = .before →
      Step maxwkrs steady s .run { s with phase := .forking 0, activesheps := maxwkrs }
  | fork {i : Nat} : s.phase = .forking i → i < maxwkrs →
      Step maxwkrs steady s .run { s with phase := .forking (i + 1), tasks := s.tasks ++ [.ask i] }
  | forked : s.phase = .forking maxwkrs → Step maxwkrs steady s .run { s with phase := .poll }
  | readDone : s.phase = .poll → Step maxwkrs steady s .run { s with phase := .haveDone s.donecount }
  | readActive : s.phase = .poll →
      Step maxwkrs steady s .run { s with phase := .haveActive s.activesheps }
  | compareDone {dc : Nat} : s.phase = .haveDone dc →
      Step maxwkrs steady s .run { s with phase := if (dc : Int) < s.activesheps then .poll else .completed }
  | compareActive {as : Int} : s.phase = .haveActive as →
      Step maxwkrs steady s .run { s with phase := if (s.donecount : Int) < as then .poll else .completed }
  | add {shep : Nat} : s.phase ≠ .completed → Step maxwkrs steady s .add
      { s with activesheps := s.activesheps + 1, tasks := s.tasks ++ [.added shep] }
  | task {front back : List Task} {before after : Task} {next : Handle} :
      s.tasks = front ++ before :: back → TaskStep steady s before next after →
      Step maxwkrs steady s .task { next with tasks := front ++ after :: back }

/-- A worker is added only once `qt_loop_queue_run` has set `activesheps`, and not between the reads of
`*as` and of `*dc` where they come in this order. -/
def Joins (s : Handle) : Move → Prop
  | .add => s.phase ≠ .before ∧ ∀ as, s.phase ≠ .haveActive as
  | _ => True

def Task.completed : Task → Prop
  | .left _ | .finished _ | .dropped => True
  | _ => False

def Task.active : Task → Nat
  | .left _ | .dropped => 0
  | _ => 1

def Task.done : Task → Nat
  | .finished _ => 1
  | _ => 0

def Task.chunk : Task → Finset Nat
  | .func _ chunk => chunk
  | _ => ∅

def Task.number : Task → Option Nat
  | .ask shep | .func shep _ | .check shep | .leave shep | .finish shep | .left shep | .finished shep =>
    some shep
  | _ => none

def Task.empty : Task → Prop
  | .finish _ | .finished _ => True
  | _ => False

def Task.away : Task → Prop
  | .leave _ | .left _ => True
  | _ => False

def total (weight : Task → Nat) (tasks : List Task) : Nat := (tasks.map weight).sum

theorem total_split (weight : Task → Nat) (front back : List Task) (task : Task) :
    total weight (front ++ task :: back) = total weight (front ++ back) + weight task := by
  simp only [total, List.map_append, List.map_cons, List.sum_append, List.sum_cons]
  omega

theorem total_snoc (weight : Task → Nat) (tasks : List Task) (task : Task) :
    total weight (tasks ++ [task]) = total weight tasks + weight task := by
  simp [total]

theorem Task.done_le (task : Task) : task.done ≤ task.active := by
  cases task <;> exact Nat.le_of_ble_eq_true rfl

theorem total_done_le (tasks : List Task) : total Task.done tasks ≤ total Task.active tasks := by
  induction tasks with
  | nil => exact Nat.le_refl 0
  | cons task rest ih =>
    have here := task.done_le
    simp only [total, List.map_cons, List.sum_cons] at ih ⊢
    omega

theorem over_of_total {tasks : List Task} (all : total Task.active tasks ≤ total Task.done tasks) :
    ∀ task ∈ tasks, task.completed := by
  induction tasks with
  | nil => nofun
  | cons first rest ih =>
    have here := first.done_le
    have later := total_done_le rest
    simp only [total, List.map_cons, List.sum_cons] at all later
    intro task member
    rcases List.mem_cons.mp member with rfl | behind
    · have same : task.active ≤ task.done := by omega
      cases task <;> trivial
    · refine ih ?_ task behind
      simp only [total]
      omega

def Phase.todo (maxwkrs : Nat) : Phase → Nat
  | .forking i => maxwkrs - i
  | _ => 0

def Phase.forked (maxwkrs : Nat) : Phase → Nat
  | .before => 0
  | .forking i => i
  | _ => maxwkrs

structure Inv (iterations : Finset Nat) (maxwkrs steady : Nat) (s : Handle) : Prop where
  before : s.phase = .before → s.tasks = []
  active : s.activesheps = s.phase.todo maxwkrs + total Task.active s.tasks
  done : s.donecount = total Task.done s.tasks
  covered : ∀ k ∈ iterations, k ∈ s.pool ∨ k ∈ s.executed ∨ ∃ task ∈ s.tasks, k ∈ task.chunk
  empty : ∀ task ∈ s.tasks, task.empty → s.pool = ∅
  away : ∀ task ∈ s.tasks, task.away → task.number ≠ some steady
  forked : s.phase.forked maxwkrs ≤ maxwkrs
  steady : steady < s.phase.forked maxwkrs → ∃ task ∈ s.tasks, task.number = some steady
  haveDone : ∀ dc, s.phase = .haveDone dc → dc ≤ s.donecount
  haveActive : ∀ as, s.phase = .haveActive as → s.activesheps ≤ as
  completed : s.phase = .completed → s.activesheps ≤ s.donecount

variable {iterations : Finset Nat} {maxwkrs steady : Nat} {s after : Handle} {move : Move}

theorem create_inv : Inv iterations maxwkrs steady (create iterations) where
  before _ := rfl
  active := rfl
  done := rfl
  covered _ member := .inl member
  empty := nofun
  away := nofun
  forked := Nat.zero_le _
  steady := nofun
  haveDone := nofun
  haveActive := nofun
  completed := nofun

structure Keeps (steady : Nat) (s : Handle) (task : Task) (next : Handle) (mine : Task) : Prop where
  phase : next.phase = s.phase
  active : next.activesheps + task.active = s.activesheps + mine.active
  done : next.donecount + task.done = s.donecount + mine.done
  pool : next.pool ⊆ s.pool
  covered : ∀ k, k ∈ s.pool ∨ k ∈ s.executed ∨ k ∈ task.chunk →
    k ∈ next.pool ∨ k ∈ next.executed ∨ k ∈ mine.chunk
  executed : s.executed ⊆ next.executed
  empty : mine.empty → next.pool = ∅
  away : mine.away → mine.number ≠ some steady
  number : task.number = none ∨ mine.number = task.number
  less : next.activesheps ≤ s.activesheps
  more : s.donecount ≤ next.donecount
  running : ¬ task.completed

variable {next : Handle}

theorem TaskStep.keeps {task mine : Task} (step : TaskStep steady s task next mine)
    (empty : task.empty → s.pool = ∅) (away : task.away → task.number ≠ some steady) :
    Keeps steady s task next mine := by
  cases step with
  | @get shep chunk inside nonempty =>
    refine ⟨rfl, rfl, rfl, Finset.sdiff_subset, fun k held => ?_, fun _ => id, nofun, nofun, .inr rfl,
      Int.le_refl _, Nat.le_refl _, id⟩
    rcases held with pool | executed | nothing
    · by_cases taken : k ∈ chunk
      · exact .inr (.inr taken)
      · exact .inl (Finset.mem_sdiff.mpr ⟨pool, taken⟩)
    · exact .inr (.inl executed)
    · exact absurd nothing (Finset.notMem_empty k)
  | none vacant =>
    exact ⟨rfl, rfl, rfl, fun _ => id, fun _ => id, fun _ => id, fun _ => vacant, nofun, .inr rfl,
      Int.le_refl _, Nat.le_refl _, id⟩
  | func =>
    refine ⟨rfl, rfl, rfl, fun _ => id, fun k held => ?_, Finset.subset_union_left, nofun, nofun,
      .inr rfl, Int.le_refl _, Nat.le_refl _, id⟩
    rcases held with pool | executed | chunk
    · exact .inl pool
    · exact .inr (.inl (Finset.mem_union_left _ executed))
    · exact .inr (.inl (Finset.mem_union_right _ chunk))
  | ok =>
    exact ⟨rfl, rfl, rfl, fun _ => id, fun _ => id, fun _ => id, nofun, nofun, .inr rfl,
      Int.le_refl _, Nat.le_refl _, id⟩
  | disabled other =>
    exact ⟨rfl, rfl, rfl, fun _ => id, fun _ => id, fun _ => id, nofun,
      fun _ same => other (Option.some.inj same), .inr rfl, Int.le_refl _, Nat.le_refl _, id⟩
  | leave =>
    refine ⟨rfl, ?_, rfl, fun _ => id, fun _ => id, fun _ => id, nofun, fun _ => away trivial,
      .inr rfl, ?_, Nat.le_refl _, id⟩
    · simp only [Task.active]
      omega
    · simp only
      omega
  | finish =>
    exact ⟨rfl, rfl, rfl, fun _ => id, fun _ => id, fun _ => id, fun _ => empty trivial, nofun,
      .inr rfl, Int.le_refl _, Nat.le_succ _, id⟩
  | join _ =>
    exact ⟨rfl, rfl, rfl, fun _ => id, fun _ => id, fun _ => id, nofun, nofun, .inl rfl,
      Int.le_refl _, Nat.le_refl _, id⟩
  | late _ =>
    exact ⟨rfl, rfl, rfl, fun _ => id, fun _ => id, fun _ => id, nofun, nofun, .inl rfl,
      Int.le_refl _, Nat.le_refl _, id⟩
  | fork =>
    exact ⟨rfl, rfl, rfl, fun _ => id, fun _ => id, fun _ => id, nofun, nofun, .inl rfl,
      Int.le_refl _, Nat.le_refl _, id⟩
  | drop =>
    refine ⟨rfl, ?_, rfl, fun _ => id, fun _ => id, fun _ => id, nofun, nofun, .inl rfl, ?_,
      Nat.le_refl _, id⟩
    · simp only [Task.active]
      omega
    · simp only
      omega

namespace Inv

variable (inv : Inv iterations maxwkrs steady s)

include inv

theorem all_over (left : s.phase = .completed) : ∀ task ∈ s.tasks, task.completed := by
  have counts := inv.completed left
  rw [inv.active, inv.done, left] at counts
  simp only [Phase.todo] at counts
  exact over_of_total (by omega)

theorem done_le : s.donecount ≤ s.activesheps := by
  have counts := total_done_le s.tasks
  rw [inv.active, inv.done]
  omega

theorem task {front back : List Task} {before mine : Task} {next : Handle}
    (tasks : s.tasks = front ++ before :: back) (step : TaskStep steady s before next mine) :
    Inv iterations maxwkrs steady { next with tasks := front ++ mine :: back } := by
  have here : before ∈ s.tasks := by
    rw [tasks]
    exact List.mem_append_right _ List.mem_cons_self
  have keeps := step.keeps (inv.empty before here) (inv.away before here)
  have others (other : Task) (member : other ∈ front ++ mine :: back) : other = mine ∨ other ∈ s.tasks := by
    rw [tasks]
    rcases List.mem_append.mp member with left | right
    · exact .inr (List.mem_append_left _ left)
    · rcases List.mem_cons.mp right with same | behind
      · exact .inl same
      · exact .inr (List.mem_append_right _ (List.mem_cons_of_mem _ behind))
  have still (other : Task) (member : other ∈ s.tasks) : other = before ∨ other ∈ front ++ mine :: back := by
    rw [tasks] at member
    rcases List.mem_append.mp member with left | right
    · exact .inr (List.mem_append_left _ left)
    · rcases List.mem_cons.mp right with same | behind
      · exact .inl same
      · exact .inr (List.mem_append_right _ (List.mem_cons_of_mem _ behind))
  have active := inv.active
  have done := inv.done
  rw [tasks, total_split] at active done
  have changed := keeps.active
  have counted := keeps.done
  refine ⟨fun early => ?_, ?_, ?_, fun k member => ?_, fun other member nothing => ?_,
    fun other member gone => ?_, ?_, fun late => ?_, fun dc read => ?_, fun as read => ?_, fun left => ?_⟩
  · rw [inv.before (keeps.phase ▸ early)] at here
    cases here
  · rw [keeps.phase, total_split]
    simp only
    omega
  · rw [total_split]
    simp only
    omega
  · rcases inv.covered k member with pool | executed | ⟨other, there, inside⟩
    · rcases keeps.covered k (.inl pool) with pool | executed | chunk
      · exact .inl pool
      · exact .inr (.inl executed)
      · exact .inr (.inr ⟨mine, List.mem_append_right _ List.mem_cons_self, chunk⟩)
    · exact .inr (.inl (keeps.executed executed))
    · rcases still other there with rfl | kept
      · rcases keeps.covered k (.inr (.inr inside)) with pool | executed | chunk
        · exact .inl pool
        · exact .inr (.inl executed)
        · exact .inr (.inr ⟨mine, List.mem_append_right _ List.mem_cons_self, chunk⟩)
      · exact .inr (.inr ⟨other, kept, inside⟩)
  · rcases others other member with rfl | old
    · exact keeps.empty nothing
    · have all := keeps.pool
      rw [inv.empty other old nothing] at all
      exact Finset.subset_empty.mp all
  · rcases others other member with rfl | old
    · exact keeps.away gone
    · exact inv.away other old gone
  · rw [keeps.phase]
    exact inv.forked
  · rw [keeps.phase] at late
    obtain ⟨other, there, number⟩ := inv.steady late
    rcases still other there with rfl | kept
    · rcases keeps.number with absent | same
      · rw [absent] at number
        cases number
      · exact ⟨mine, List.mem_append_right _ List.mem_cons_self, same.trans number⟩
    · exact ⟨other, kept, number⟩
  · exact Nat.le_trans (inv.haveDone dc (keeps.phase ▸ read)) keeps.more
  · exact Int.le_trans keeps.less (inv.haveActive as (keeps.phase ▸ read))
  · exact absurd (inv.all_over (keeps.phase ▸ left) before here) keeps.running

theorem snoc {task : Task} {phase : Phase} {activesheps : Int} (entered : phase ≠ .before)
    (active : activesheps = phase.todo maxwkrs + (total Task.active s.tasks + task.active))
    (done : task.done = 0) (busy : ¬ task.empty) (there : ¬ task.away)
    (forked : phase.forked maxwkrs ≤ maxwkrs)
    (steady_ : steady < phase.forked maxwkrs → steady < s.phase.forked maxwkrs ∨ task.number = some steady)
    (haveDone : ∀ dc, phase = .haveDone dc → dc ≤ s.donecount)
    (haveActive : ∀ as, phase ≠ .haveActive as) (inside : phase ≠ .completed) :
    Inv iterations maxwkrs steady { s with phase, activesheps, tasks := s.tasks ++ [task] } := by
  have others (other : Task) (member : other ∈ s.tasks ++ [task]) : other ∈ s.tasks ∨ other = task := by
    rcases List.mem_append.mp member with old | new
    · exact .inl old
    · exact .inr (List.mem_singleton.mp new)
  refine ⟨fun early => absurd early entered, ?_, ?_, fun k member => ?_, fun other member nothing => ?_,
    fun other member gone => ?_, forked, fun late => ?_, haveDone,
    fun as read => absurd read (haveActive as), fun left => absurd left inside⟩
  · rw [total_snoc]
    simp only
    omega
  · rw [total_snoc, done]
    exact inv.done
  · rcases inv.covered k member with pool | executed | ⟨other, old, within⟩
    · exact .inl pool
    · exact .inr (.inl executed)
    · exact .inr (.inr ⟨other, List.mem_append_left _ old, within⟩)
  · rcases others other member with old | rfl
    · exact inv.empty other old nothing
    · exact absurd nothing busy
  · rcases others other member with old | rfl
    · exact inv.away other old gone
    · exact absurd gone there
  · rcases steady_ late with early | here
    · obtain ⟨other, old, number⟩ := inv.steady early
      exact ⟨other, List.mem_append_left _ old, number⟩
    · exact ⟨task, List.mem_append_right _ (List.mem_singleton.mpr rfl), here⟩

theorem goes {phase : Phase} (entered : phase ≠ .before)
    (todo : phase.todo maxwkrs = s.phase.todo maxwkrs)
    (forked : phase.forked maxwkrs = s.phase.forked maxwkrs)
    (haveDone : ∀ dc, phase = .haveDone dc → dc ≤ s.donecount)
    (haveActive : ∀ as, phase = .haveActive as → s.activesheps ≤ as)
    (completed : phase = .completed → s.activesheps ≤ s.donecount) :
    Inv iterations maxwkrs steady { s with phase } := by
  refine ⟨fun early => absurd early entered, ?_, inv.done, inv.covered, inv.empty, inv.away, ?_, ?_,
    haveDone, haveActive, completed⟩
  · rw [todo]
    exact inv.active
  · rw [forked]
    exact inv.forked
  · rw [forked]
    exact inv.steady

theorem step (joins : Joins s move) (step : Step maxwkrs steady s move after) :
    Inv iterations maxwkrs steady after := by
  cases step with
  | store early =>
    have empty := inv.before early
    refine ⟨nofun, ?_, inv.done, inv.covered, inv.empty, inv.away, Nat.zero_le _, nofun, nofun, nofun,
      nofun⟩
    rw [empty]
    simp [Phase.todo, total]
  | @fork i forking less =>
    have active := inv.active
    rw [forking] at active
    refine inv.snoc nofun ?_ rfl id id less (fun late => ?_) nofun nofun nofun
    · simp only [Phase.todo, Task.active] at active ⊢
      omega
    · rw [forking]
      simp only [Phase.forked, Task.number, Option.some.injEq] at late ⊢
      omega
  | forked forking =>
    refine inv.goes nofun ?_ ?_ nofun nofun nofun
    · rw [forking]
      exact (Nat.sub_self maxwkrs).symm
    · rw [forking]
      rfl
  | readDone poll =>
    refine inv.goes nofun (by rw [poll]; rfl) (by rw [poll]; rfl) (fun dc read => ?_) nofun nofun
    cases read
    exact Nat.le_refl _
  | readActive poll =>
    refine inv.goes nofun (by rw [poll]; rfl) (by rw [poll]; rfl) nofun (fun as read => ?_) nofun
    cases read
    exact Int.le_refl _
  | @compareDone dc read =>
    have most := inv.haveDone dc read
    by_cases less : (dc : Int) < s.activesheps
    · rw [if_pos less]
      exact inv.goes nofun (by rw [read]; rfl) (by rw [read]; rfl) nofun nofun nofun
    · rw [if_neg less]
      refine inv.goes nofun (by rw [read]; rfl) (by rw [read]; rfl) nofun nofun fun _ => ?_
      omega
  | @compareActive as read =>
    have most := inv.haveActive as read
    by_cases less : (s.donecount : Int) < as
    · rw [if_pos less]
      exact inv.goes nofun (by rw [read]; rfl) (by rw [read]; rfl) nofun nofun nofun
    · rw [if_neg less]
      refine inv.goes nofun (by rw [read]; rfl) (by rw [read]; rfl) nofun nofun fun _ => ?_
      omega
  | add inside =>
    obtain ⟨entered, unread⟩ := joins
    have active := inv.active
    refine inv.snoc entered ?_ rfl id id inv.forked .inl inv.haveDone unread inside
    simp only [Task.active]
    omega
  | task tasks taken => exact inv.task tasks taken

theorem all_executed (less : steady < maxwkrs) (left : s.phase = .completed) : iterations ⊆ s.executed := by
  have completed := inv.all_over left
  obtain ⟨worker, there, number⟩ := inv.steady (by rw [left]; exact less)
  -- The steady worker is over without having left, so it has found the pool empty.
  have empty : s.pool = ∅ := by
    refine inv.empty worker there ?_
    have ended := completed worker there
    have stayed := inv.away worker there
    cases worker <;> first | trivial | exact absurd number (stayed trivial)
  intro k member
  rcases inv.covered k member with pool | executed | ⟨task, running, inside⟩
  · rw [empty] at pool
    exact absurd pool (Finset.notMem_empty k)
  · exact executed
  · have ended := completed task running
    cases task <;> first | exact absurd inside (Finset.notMem_empty k) | exact ended.elim

end Inv

/-- Where workers join while `qt_loop_queue_run` counts on them, `donecount` is at most `activesheps`, and
once the polling loop has been left all iterations have been executed and no task will touch the loop
structure any more. -/
theorem waits_for_all_iterations {iterations : Finset Nat} {maxwkrs steady : Nat} {moves : List Move}
    {last : Handle} (less : steady < maxwkrs)
    (run : Run (Guarded Joins (Step maxwkrs steady)) (create iterations) moves last) :
    last.donecount ≤ last.activesheps ∧
      (last.phase = .completed → iterations ⊆ last.executed ∧ ∀ task ∈ last.tasks, task.completed) := by
  have inv : Inv iterations maxwkrs steady last :=
    run.preserves (fun _ _ _ inv taken => inv.step taken.1 taken.2) create_inv
  exact ⟨inv.done_le, fun left => ⟨inv.all_executed less left, inv.all_over left⟩⟩

theorem Step.first {task mine : Task} {back : List Task} (tasks : s.tasks = task :: back)
    (taken : TaskStep steady s task next mine) :
    Step maxwkrs steady s .task { next with tasks := mine :: back } :=
  @Step.task maxwkrs steady s [] back task mine next tasks taken

theorem Step.second {other task mine : Task} {back : List Task} (tasks : s.tasks = other :: task :: back)
    (taken : TaskStep steady s task next mine) :
    Step maxwkrs steady s .task { next with tasks := other :: mine :: back } :=
  @Step.task maxwkrs steady s [other] back task mine next tasks taken

theorem Step.third {other another task mine : Task} (tasks : s.tasks = [other, another, task])
    (taken : TaskStep steady s task next mine) :
    Step maxwkrs steady s .task { next with tasks := [other, another, mine] } :=
  @Step.task maxwkrs steady s [other, another] [] task mine next tasks taken

theorem waits_for_all_iterations_joined : ∃ last : Handle, last.phase = .completed ∧
    last.tasks = [.finished 0, .left 1, .finished 2] ∧ last.donecount ≤ last.activesheps ∧
      (last.phase = .completed →
        ({0, 1} : Finset Nat) ⊆ last.executed ∧ ∀ task ∈ last.tasks, task.completed) := by
  have run : Run (Guarded Joins (Step 2 0)) (create {0, 1})
      [.run, .run, .run, .run, .task, .add, .task, .task, .task, .task, .task, .task, .task, .task,
        .run, .run, .task, .task, .task, .task, .run, .run] _ :=
    .cons ⟨trivial, .store rfl⟩ <| .cons ⟨trivial, .fork rfl (by decide)⟩ <|
    .cons ⟨trivial, .fork rfl (by decide)⟩ <| .cons ⟨trivial, .forked rfl⟩ <|
    .cons ⟨trivial, .second rfl (@TaskStep.get _ _ _ {1} (by decide) (by decide))⟩ <|
    .cons ⟨⟨nofun, fun _ => nofun⟩, @Step.add _ _ _ 2 nofun⟩ <|
    .cons ⟨trivial, .third rfl (.join rfl)⟩ <| .cons ⟨trivial, .third rfl .fork⟩ <|
    .cons ⟨trivial, .first rfl (@TaskStep.get _ _ _ {0} (by decide) (by decide))⟩ <|
    .cons ⟨trivial, .third rfl (.none (by decide))⟩ <| .cons ⟨trivial, .third rfl .finish⟩ <|
    .cons ⟨trivial, .second rfl .func⟩ <| .cons ⟨trivial, .second rfl (.disabled (by decide))⟩ <|
    .cons ⟨trivial, .second rfl .leave⟩ <| .cons ⟨trivial, .readActive rfl⟩ <|
    .cons ⟨trivial, .compareActive rfl⟩ <| .cons ⟨trivial, .first rfl .func⟩ <|
    .cons ⟨trivial, .first rfl .ok⟩ <| .cons ⟨trivial, .first rfl (.none (by decide))⟩ <|
    .cons ⟨trivial, .first rfl .finish⟩ <| .cons ⟨trivial, .readDone rfl⟩ <|
    .cons ⟨trivial, .compareDone rfl⟩ <| .nil _
  exact ⟨_, rfl, rfl, waits_for_all_iterations Nat.two_pos run⟩

/-- A worker that is added before `qt_loop_queue_run` is not counted, and the loop is left while it runs
the only iteration. -/
theorem leaves_added_worker_behind : ∃ moves last, Run (Step 1 0) (create {0}) moves last ∧
    last.phase = .completed ∧ last.executed = ∅ ∧ .func 1 {0} ∈ last.tasks := by
  refine ⟨[.add, .task, .task, .task, .run, .run, .run, .task, .task, .run, .run], _,
    .cons (@Step.add _ _ _ 1 nofun) <|
    .cons (.first rfl (.join rfl)) <| .cons (.first rfl .fork) <|
    .cons (.first rfl (.get (Finset.Subset.refl _) ⟨0, Finset.mem_singleton_self 0⟩)) <|
    .cons (.store rfl) <| .cons (.fork rfl (by decide)) <| .cons (.forked rfl) <|
    .cons (.second rfl (.none (Finset.sdiff_self _))) <| .cons (.second rfl .finish) <|
    .cons (.readDone rfl) <| .cons (.compareDone rfl) <| .nil _, ?_, ?_, ?_⟩
  · rfl
  · rfl
  · exact List.mem_cons_self

end Qthreads.Loop.Polling
