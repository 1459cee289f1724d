import Mathlib.Tactic.DeriveFintype
import Mathlib.Data.Fintype.Sum
import Qthreads.Lib.Bag
import Qthreads.Sherwood.Account

namespace Qthreads.Sherwood

open Lib
open Function (update update_of_ne)

/-! `qt_threadqueue_dequeue_specific` returns a task that it leaves in the queue, as the tail.  That
is the one way to have a task twice. -/

deriving instance Fintype for Place

variable {Q C H : Type} [Fintype Q] [Fintype C] [Fintype H]

def Config.Conserved (config : Config Q C H) : Prop :=
  inAll config.state.tasks + config.returned = config.given

instance (config : Config Q C H) : Decidable config.Conserved :=
  inferInstanceAs (Decidable (inAll config.state.tasks + config.returned = config.given))

namespace Config

def Excess (config : Config Q C H) (more : Multiset Task) : Prop :=
  inAll config.state.tasks + config.returned = config.given + more

theorem initial_excess (heap : Heap) : (initial heap : Config Q C H).Excess 0 := by
  have nothing : inAll (initial heap : Config Q C H).state.tasks = 0 := by
    exact inAll_eq_zero_iff.mpr (initial_tasks heap)
  rw [Excess, nothing]
  rfl

end Config

variable [DecidableEq Q] [DecidableEq C] [DecidableEq H]

theorem inAll_emptied (tasks : Place Q C H → List Task) (place : Place Q C H) :
    inAll (update tasks place []) + (tasks place : Multiset Task) = inAll tasks :=
  inAll_loss (zero_add _).symm

theorem inAll_pushed (tasks : Place Q C H → List Task) (q : Q) (c : C) (moved : List Task) :
    inAll (update (update (update tasks (.cache c) []) (.deck c) [])
        (.queue q) (tasks (.queue q) ++ moved)) +
      ((tasks (.deck c) : Multiset Task) + (tasks (.cache c) : Multiset Task)) =
        inAll tasks + (moved : Multiset Task) := by
  have noDeck : Place.queue q ≠ (Place.deck c : Place Q C H) := nofun
  have noCache : Place.queue q ≠ (Place.cache c : Place Q C H) := nofun
  have apart : Place.deck c ≠ (Place.cache c : Place Q C H) := nofun
  have cache := inAll_emptied tasks (.cache c)
  have deck := inAll_emptied (update tasks (.cache c) []) (.deck c)
  rw [update_of_ne apart] at deck
  have queue : inAll (update (update (update tasks (.cache c) [])
      (.deck c) []) (.queue q) (tasks (.queue q) ++ moved)) =
        inAll (update (update tasks (.cache c) []) (.deck c) []) +
          (moved : Multiset Task) := by
    refine inAll_gain ?_
    rw [update_of_ne noDeck, update_of_ne noCache, Multiset.coe_add]
  rw [queue, ← cache, ← deck]
  abel

theorem Op.Acts.inAll_eq {before after : Place Q C H → List Task} {op : Op Q C H}
    {result : Option Task} (acts : op.Acts before result after) :
    inAll after + (result.toList : Multiset Task) = inAll before + op.given + op.again result := by
  have snoc : ∀ (list : List Task) (t : Task),
      (↑(list ++ [t]) : Multiset Task) = (list : Multiset Task) + {t} := fun list t => by
    rw [← Multiset.coe_singleton, Multiset.coe_add]
  have cons : ∀ (list : List Task) (t : Task),
      (↑(t :: list) : Multiset Task) = (list : Multiset Task) + {t} := fun list t => by
    rw [← Multiset.cons_coe, ← Multiset.singleton_add, add_comm]
  cases op with
  | enqueue q new node =>
    obtain ⟨rfl, rfl⟩ := acts
    rw [inAll_gain (snoc _ new)]
    rfl
  | enqueueYielded q new node =>
    obtain ⟨rfl, rfl⟩ := acts
    rw [inAll_gain (cons _ new)]
    rfl
  | privateEnqueue c new node =>
    obtain ⟨rfl, rfl⟩ := acts
    have apart : Place.deck c ≠ (Place.cache c : Place Q C H) := nofun
    have cache : inAll (update before (.cache c) (before (.cache c) ++ before (.deck c))) =
        inAll before + (before (.deck c) : Multiset Task) :=
      inAll_gain (Multiset.coe_add _ _).symm
    have deck := inAll_update (update before (.cache c)
      (before (.cache c) ++ before (.deck c))) (.deck c) [new]
    rw [update_of_ne apart, cache, add_right_comm] at deck
    rw [add_right_cancel deck]
    rfl
  | privateEnqueueYielded c new node =>
    obtain ⟨rfl, rfl⟩ := acts
    rw [inAll_gain (cons _ new)]
    rfl
  | enqueueCache q c =>
    obtain ⟨rfl, rfl⟩ := acts
    have pushed := inAll_pushed before q c (before (.deck c) ++ before (.cache c))
    rw [← Multiset.coe_add] at pushed
    rw [add_right_cancel pushed]
    simp [Op.given, Op.again]
  | getThread q qc =>
    rcases acts with ⟨c, t, -, deck, rfl, rfl⟩ | ⟨-, ⟨-, rfl, rfl⟩ | ⟨rest, t, whole, rfl, rfl⟩⟩
    · have pushed := inAll_pushed before q c (before (.cache c))
      rw [← add_assoc, deck] at pushed
      exact (add_right_cancel pushed).trans (by simp [Op.given, Op.again])
    · simp [Op.given, Op.again]
    · have loss : inAll (update before (.queue q) rest) + {t} = inAll before :=
        inAll_loss (by rw [whole, snoc])
      exact loss.trans (by simp [Op.given, Op.again])
  | dequeueSteal thief v stealChunksize seen locked =>
    obtain ⟨rfl, nothing, rfl⟩ := acts
    have apart : Place.stolen thief ≠ (Place.queue v : Place Q C H) := nofun
    have perm := pick_perm Task.isStealable (stealAmount stealChunksize seen locked)
      (before (.queue v))
    generalize pick Task.isStealable (stealAmount stealChunksize seen locked)
      (before (.queue v)) = picked at *
    obtain ⟨stay, go⟩ := picked
    have left : inAll (update before (.queue v) stay) + (go : Multiset Task) =
        inAll before := inAll_loss (by rw [Multiset.coe_add]; exact Multiset.coe_eq_coe.mpr perm.symm)
    have taken : inAll (update (update before (.queue v) stay) (.stolen thief) go) =
        inAll (update before (.queue v) stay) + (go : Multiset Task) := by
      refine inAll_gain ?_
      rw [update_of_ne apart, nothing, Multiset.coe_nil, zero_add]
    rw [taken, left]
    simp [Op.given, Op.again]
  | enqueueMultiple thief q =>
    obtain ⟨rfl, t, rest, held, rfl⟩ := acts
    have apart : Place.queue q ≠ (Place.stolen thief : Place Q C H) := nofun
    have left : inAll (update before (.stolen thief) [t]) + (rest : Multiset Task) =
        inAll before := inAll_loss (by rw [held, Multiset.coe_add]; rfl)
    have joined : inAll (update (update before (.stolen thief) [t]) (.queue q)
        (before (.queue q) ++ rest)) =
          inAll (update before (.stolen thief) [t]) + (rest : Multiset Task) := by
      refine inAll_gain ?_
      rw [update_of_ne apart, Multiset.coe_add]
    rw [joined, left]
    simp [Op.given, Op.again]
  | takeStolen thief =>
    obtain ⟨t, held, rfl, rfl⟩ := acts
    have loss := inAll_emptied before (.stolen thief)
    rw [held] at loss
    exact loss.trans (by simp [Op.given, Op.again])
  | dequeueSpecific q value =>
    rcases acts with ⟨rfl, rfl, -⟩ | ⟨front, t, back, whole, -, -, rfl, rfl⟩
    · simp [Op.given, Op.again]
    · have perm : (front ++ back ++ [t]).Perm (front ++ [t] ++ back) := by
        rw [List.append_assoc, List.append_assoc]
        exact List.perm_append_comm.append_left front
      have moved : inAll (update before (.queue q) (front ++ back ++ [t])) =
          inAll before + 0 := by
        refine inAll_gain ?_
        rw [add_zero, whole]
        exact Multiset.coe_eq_coe.mpr perm
      rw [moved]
      simp [Op.given, Op.again]

namespace Config

theorem Excess.step {before after : Config Q C H} {op : Op Q C H} {more : Multiset Task}
    (excess : before.Excess more) (sound : before.Sound) (step : Step before op after) :
    ∃ extra, after.Excess (more + extra) ∧ (extra = 0 ↔ before.Clear op) := by
  obtain ⟨result, -, acts, given, returned, -⟩ := sound.step step
  refine ⟨op.again result, ?_, acts.again_eq_zero_iff⟩
  have change := acts.inAll_eq
  rw [Excess, given, returned, add_left_comm, change]
  rw [Excess] at excess
  calc before.returned + (inAll before.state.tasks + op.given + op.again result)
      = inAll before.state.tasks + before.returned + op.given + op.again result := by abel
    _ = before.given + more + op.given + op.again result := by rw [excess]
    _ = before.given + op.given + (more + op.again result) := by abel

theorem Excess.run {first last : Config Q C H} {ops : List (Op Q C H)} {more : Multiset Task}
    (run : Run Step first ops last) (excess : first.Excess more) (sound : first.Sound) :
    ∃ extra, last.Excess (more + extra) ∧ last.Sound ∧
      (extra = 0 ↔ Run (Guarded Clear Step) first ops last) := by
  induction run generalizing more with
  | nil config =>
    refine ⟨0, ?_, sound, fun _ => .nil config, fun _ => rfl⟩
    rw [add_zero]
    exact excess
  | cons step rest ih =>
    obtain ⟨now, after, clear⟩ := excess.step sound step
    obtain ⟨-, -, -, -, -, kept⟩ := sound.step step
    obtain ⟨later, ended, whole, guarded⟩ := ih after kept
    refine ⟨now + later, ?_, whole, ?_, ?_⟩
    · rw [← add_assoc]
      exact ended
    · intro nothing
      obtain ⟨zero, noneLater⟩ := add_eq_zero.mp nothing
      exact .cons ⟨clear.mp zero, step⟩ (guarded.mp noneLater)
    · intro taken
      cases taken with
      | cons clean others =>
        have same := step.deterministic clean.2
        subst same
        rw [clear.mpr clean.1, guarded.mpr others]
        rfl

end Config

/-- In every run the queues are well formed, count their nodes, return from every call, and keep
what is not to be stolen.  No task is lost or doubled just if no `qt_threadqueue_dequeue_specific`
of the run finds the task it looks for. -/
theorem conserved_iff_clear {heap : Heap} {ops : List (Op Q C H)} {last : Config Q C H}
    (run : Run Config.Step (.initial heap) ops last) :
    last.ReadyQueues ∧
      (last.Conserved ↔ Run (Guarded Config.Clear Config.Step) (.initial heap) ops last) := by
  obtain ⟨extra, excess, sound, guarded⟩ :=
    (Config.initial_excess heap).run run (Config.initial_sound heap)
  refine ⟨sound.readyQueues, Iff.trans ?_ guarded⟩
  rw [zero_add, Config.Excess] at excess
  rw [Config.Conserved, excess]
  exact add_eq_left

def blank : Heap := ⟨⟨fun _ => none, fun _ => none⟩, fun _ => false, fun _ => ⟨0, false, 0⟩, []⟩

/-- Of three tasks a thief takes two, around the one it may not take, puts one of them into the
other queue and runs the other. -/
def theft : List (Op Bool Unit Unit) :=
  [.enqueue true ⟨1, false, 101⟩ 0, .enqueue true ⟨2, true, 102⟩ 1, .enqueue true ⟨3, false, 103⟩ 2,
    .dequeueSpecific true 104, .dequeueSteal () true 2 3 true, .enqueueMultiple () false,
    .takeStolen (), .getThread true none]

theorem conserved_after_theft : ∃ last : Config Bool Unit Unit,
    Run Config.Step (.initial blank) theft last ∧ last.ReadyQueues ∧ last.Conserved := by
  have clean : ∃ last, Run (Guarded Config.Clear Config.Step) (.initial blank) theft last :=
    ⟨_, .cons ⟨trivial, List.not_mem_nil, _, _, rfl, rfl⟩ <|
      .cons ⟨trivial, by decide, _, _, rfl, rfl⟩ <|
      .cons ⟨trivial, by decide, _, _, rfl, rfl⟩ <|
      .cons ⟨by decide, trivial, _, _, rfl, rfl⟩ <|
      .cons ⟨trivial, rfl, _, _, rfl, rfl⟩ <|
      .cons ⟨trivial, by decide, _, _, rfl, rfl⟩ <|
      .cons ⟨trivial, ⟨_, rfl, rfl⟩, _, _, rfl, rfl⟩ <|
      .cons ⟨trivial, trivial, _, _, rfl, rfl⟩ <| .nil _⟩
  obtain ⟨last, guarded⟩ := clean
  have run := guarded.mono fun _ _ _ step => step.2
  obtain ⟨ready, conserved⟩ := conserved_iff_clear run
  exact ⟨last, run, ready, conserved.mpr guarded⟩

/-- A task that is found is returned and stays in the queue. -/
theorem found_is_kept : ∃ last : Config Unit Unit Unit,
    Run Config.Step (.initial blank) [.enqueue () ⟨1, false, 101⟩ 0, .dequeueSpecific () 101] last ∧
      ¬ last.Conserved := by
  refine ⟨_, .cons ⟨List.not_mem_nil, _, _, rfl, rfl⟩ <|
    .cons ⟨trivial, _, _, rfl, rfl⟩ <| .nil _, ?_⟩
  decide

end Qthreads.Sherwood
