import Qthreads.Sherwood.Simulate

namespace Qthreads.Sherwood

open Lib
open Function (update_of_ne update_self)

variable {Q C H : Type}

theorem Holds.tasks_eq {s : State Q C H} {lists : Lists Q C H} (holds : Holds s lists) :
    s.tasks = deques s.heap lists := by
  funext place
  rw [State.tasks, holds.nodes_eq, deques]

theorem Holds.booty {s : State Q C H} {lists : Lists Q C H} (holds : Holds s lists) (thief : H) :
    ∀ t ∈ s.tasks (.stolen thief), t.isStealable = true := by
  intro t member
  rw [holds.tasks_eq] at member
  obtain ⟨node, inside, rfl⟩ := List.mem_map.mp member
  rw [← holds.owned.marked _ node inside]
  exact holds.fields.booty thief node inside

def unstealable (tasks : Multiset Task) : Multiset Task := tasks.filter (·.isStealable = false)

/-- The queues, the tasks that were given to them and returned by them, and for each queue the
tasks that came to it and were taken from it. -/
structure Config (Q C H : Type) where
  state : State Q C H
  given : Multiset Task
  returned : Multiset Task
  came : Q → Multiset Task
  gone : Q → Multiset Task

namespace Config

def initial (heap : Heap) : Config Q C H where
  state := ⟨{ heap with allocated := [] }, fun _ => .new, fun _ => ⟨.new, none⟩, fun _ => none⟩
  given := 0
  returned := 0
  came _ := 0
  gone _ := 0

theorem initial_holds (heap : Heap) : Holds (initial heap : Config Q C H).state fun _ => [] := by
  refine ⟨⟨fun _ => trivial, fun _ => List.nodup_nil, ?_, ?_, ?_⟩, ?_, ?_, ?_, ?_, ?_⟩
  · intro place other node member
    exact absurd member List.not_mem_nil
  · intro place node member
    exact absurd member List.not_mem_nil
  · intro place node member
    exact absurd member List.not_mem_nil
  · intro q
    exact ⟨rfl, rfl, rfl, rfl⟩
  · intro c
    exact ⟨rfl, rfl, rfl, rfl⟩
  · intro c
    rfl
  · intro thief
    rfl
  · intro thief node member
    exact absurd member List.not_mem_nil

theorem initial_tasks (heap : Heap) (place : Place Q C H) :
    (initial heap : Config Q C H).state.tasks place = [] := by
  rw [(initial_holds heap).tasks_eq, deques, List.map_nil]

structure Sound (config : Config Q C H) : Prop where
  holds : ∃ lists, Holds config.state lists
  stays : ∀ q, unstealable (config.state.tasks (.queue q)) + unstealable (config.gone q) =
    unstealable (config.came q)

theorem initial_sound (heap : Heap) : (initial heap : Config Q C H).Sound := by
  refine ⟨⟨_, initial_holds heap⟩, ?_⟩
  intro q
  rw [initial_tasks]
  rfl

end Config

variable [DecidableEq Q] [DecidableEq C] [DecidableEq H]

namespace Op

def given : Op Q C H → Multiset Task
  | enqueue _ t _ => {t}
  | enqueueYielded _ t _ => {t}
  | privateEnqueue _ t _ => {t}
  | privateEnqueueYielded _ t _ => {t}
  | _ => 0

def OnDeck (tasks : Place Q C H → List Task) (qc : Option C) : Prop :=
  ∃ c, qc = some c ∧ tasks (.deck c) ≠ []

instance (tasks : Place Q C H → List Task) : (qc : Option C) → Decidable (OnDeck tasks qc)
  | none => .isFalse nofun
  | some c => decidable_of_iff (tasks (.deck c) ≠ [])
      ⟨fun deck => ⟨c, rfl, deck⟩, fun ⟨_, same, deck⟩ => by cases same; exact deck⟩

def came (tasks : Place Q C H → List Task) (op : Op Q C H) (q : Q) : Multiset Task :=
  match op with
  | enqueue r t _ => if r = q then {t} else 0
  | enqueueYielded r t _ => if r = q then {t} else 0
  | enqueueCache r c => if r = q then ↑(tasks (.deck c) ++ tasks (.cache c)) else 0
  | getThread r (some c) => if r = q ∧ OnDeck tasks (some c) then ↑(tasks (.cache c)) else 0
  | _ => 0

def gone (tasks : Place Q C H → List Task) (op : Op Q C H) (result : Option Task) (q : Q) :
    Multiset Task :=
  match op with
  | getThread r qc => if r = q ∧ ¬ OnDeck tasks qc then ↑result.toList else 0
  | _ => 0

end Op

namespace Config

def Step (before : Config Q C H) (op : Op Q C H) (after : Config Q C H) : Prop :=
  op.Legal before.state ∧ ∃ result state, op.apply before.state = some (result, state) ∧
    after =
      { state
        given := before.given + op.given
        returned := before.returned + result.toList
        came := fun q => before.came q + op.came before.state.tasks q
        gone := fun q => before.gone q + op.gone before.state.tasks result q }

def Clear (before : Config Q C H) : Op Q C H → Prop
  | .dequeueSpecific q value => ∀ t ∈ before.state.tasks (.queue q), t.ret ≠ value
  | _ => True

instance decidableClear (before : Config Q C H) : (op : Op Q C H) → Decidable (before.Clear op)
  | .enqueue _ _ _ | .enqueueYielded _ _ _ | .privateEnqueue _ _ _ | .privateEnqueueYielded _ _ _
  | .enqueueCache _ _ | .getThread _ _ | .dequeueSteal _ _ _ _ _ | .enqueueMultiple _ _
  | .takeStolen _ => inferInstanceAs (Decidable True)
  | .dequeueSpecific q value =>
    inferInstanceAs (Decidable (∀ t ∈ before.state.tasks (.queue q), t.ret ≠ value))

end Config

theorem unstealable_add (tasks others : Multiset Task) :
    unstealable (tasks + others) = unstealable tasks + unstealable others :=
  Multiset.filter_add _ _ _

theorem unstealable_eq_zero {tasks : Multiset Task} (all : ∀ t ∈ tasks, t.isStealable = true) :
    unstealable tasks = 0 := by
  refine Multiset.filter_eq_nil.mpr ?_
  intro t member marked
  rw [all t member] at marked
  exact Bool.noConfusion marked

theorem Op.Acts.unstealable_eq {before after : Place Q C H → List Task} {op : Op Q C H}
    {result : Option Task} (acts : op.Acts before result after)
    (booty : ∀ thief, ∀ t ∈ before (.stolen thief), t.isStealable = true) (q : Q) :
    unstealable (after (.queue q)) + unstealable (op.gone before result q) =
      unstealable (before (.queue q)) + unstealable (op.came before q) := by
  have other : ∀ {r : Q}, r ≠ q → Place.queue q ≠ (Place.queue r : Place Q C H) :=
    fun away equal => away (Place.queue.inj equal).symm
  have noCache : ∀ c, Place.queue q ≠ (Place.cache c : Place Q C H) := fun _ => nofun
  have noDeck : ∀ c, Place.queue q ≠ (Place.deck c : Place Q C H) := fun _ => nofun
  have noThief : ∀ thief, Place.queue q ≠ (Place.stolen thief : Place Q C H) := fun _ => nofun
  cases op with
  | enqueue r new node =>
    obtain ⟨rfl, rfl⟩ := acts
    by_cases same : r = q
    · subst same
      rw [update_self, Op.came, if_pos rfl, ← Multiset.coe_add, unstealable_add]
      exact add_zero _
    · rw [update_of_ne (other same), Op.came, if_neg same]
      rfl
  | enqueueYielded r new node =>
    obtain ⟨rfl, rfl⟩ := acts
    by_cases same : r = q
    · subst same
      rw [update_self, Op.came, if_pos rfl, ← Multiset.cons_coe,
        ← Multiset.singleton_add, unstealable_add, add_comm (unstealable {new})]
      exact add_zero _
    · rw [update_of_ne (other same), Op.came, if_neg same]
      rfl
  | privateEnqueue c new node =>
    obtain ⟨rfl, rfl⟩ := acts
    rw [update_of_ne (noDeck c), update_of_ne (noCache c)]
    rfl
  | privateEnqueueYielded c new node =>
    obtain ⟨rfl, rfl⟩ := acts
    rw [update_of_ne (noCache c)]
    rfl
  | enqueueCache r c =>
    obtain ⟨rfl, rfl⟩ := acts
    by_cases same : r = q
    · subst same
      rw [update_self, Op.came, if_pos rfl, ← Multiset.coe_add, unstealable_add]
      exact add_zero _
    · rw [update_of_ne (other same), update_of_ne (noDeck c),
        update_of_ne (noCache c), Op.came, if_neg same]
      rfl
  | getThread r qc =>
    rcases acts with ⟨c, t, rfl, deck, rfl, rfl⟩ | ⟨nothing, took⟩
    · have onDeck : OnDeck before (some c) := ⟨c, rfl, by rw [deck]; exact List.cons_ne_nil _ _⟩
      rw [Op.gone, if_neg fun both => both.2 onDeck]
      by_cases same : r = q
      · subst same
        rw [update_self, Op.came, if_pos ⟨rfl, onDeck⟩, ← Multiset.coe_add,
          unstealable_add]
        exact add_zero _
      · rw [update_of_ne (other same), update_of_ne (noDeck c),
          update_of_ne (noCache c), Op.came, if_neg fun both => same both.1]
    · have offDeck : ¬ OnDeck before qc := by
        rintro ⟨c, rfl, deck⟩
        exact deck (nothing c rfl)
      have noneCame : (getThread r qc : Op Q C H).came before q = 0 := by
        cases qc with
        | none => rfl
        | some c => exact if_neg fun both => offDeck both.2
      rw [noneCame]
      rcases took with ⟨-, rfl, rfl⟩ | ⟨rest, t, whole, rfl, rfl⟩
      · rw [Op.gone, Option.toList_none, Multiset.coe_nil, ite_self]
      · by_cases same : r = q
        · subst same
          rw [update_self, Op.gone, if_pos ⟨rfl, offDeck⟩, whole, ← unstealable_add,
            Multiset.coe_add]
          exact (add_zero _).symm
        · rw [update_of_ne (other same), Op.gone, if_neg fun both => same both.1]
  | dequeueSteal thief v stealChunksize seen locked =>
    obtain ⟨rfl, nothing, rfl⟩ := acts
    rw [update_of_ne (noThief thief)]
    by_cases same : v = q
    · subst same
      have perm := pick_perm Task.isStealable (stealAmount stealChunksize seen locked)
        (before (.queue v))
      have went : unstealable (pick Task.isStealable (stealAmount stealChunksize seen locked)
          (before (.queue v))).2 = 0 := unstealable_eq_zero (pick_wanted _ _ _)
      have whole := congrArg unstealable (Multiset.coe_eq_coe.mpr perm)
      rw [← Multiset.coe_add, unstealable_add, went, add_zero] at whole
      rw [update_self, whole]
      rfl
    · rw [update_of_ne (other same)]
      rfl
  | enqueueMultiple thief r =>
    obtain ⟨rfl, t, rest, held, rfl⟩ := acts
    by_cases same : r = q
    · subst same
      have went : unstealable (rest : Multiset Task) = 0 := by
        refine unstealable_eq_zero ?_
        intro other member
        refine booty thief other ?_
        rw [held]
        exact List.mem_cons_of_mem _ member
      rw [update_self, ← Multiset.coe_add, unstealable_add, went, add_zero]
      rfl
    · rw [update_of_ne (other same), update_of_ne (noThief thief)]
      rfl
  | takeStolen thief =>
    obtain ⟨t, held, rfl, rfl⟩ := acts
    rw [update_of_ne (noThief thief)]
    rfl
  | dequeueSpecific r value =>
    rcases acts with ⟨rfl, rfl, -⟩ | ⟨front, t, back, whole, -, -, rfl, rfl⟩
    · rfl
    · by_cases same : r = q
      · subst same
        have perm : (front ++ back ++ [t]).Perm (front ++ [t] ++ back) := by
          rw [List.append_assoc, List.append_assoc]
          exact List.perm_append_comm.append_left front
        rw [update_self, Multiset.coe_eq_coe.mpr perm, whole]
        rfl
      · rw [update_of_ne (other same)]
        rfl

def Op.again (op : Op Q C H) (result : Option Task) : Multiset Task :=
  match op with
  | dequeueSpecific _ _ => ↑result.toList
  | _ => 0

theorem Op.Acts.again_eq_zero_iff {before : Config Q C H} {op : Op Q C H} {result : Option Task}
    {after : Place Q C H → List Task} (acts : op.Acts before.state.tasks result after) :
    op.again result = 0 ↔ before.Clear op := by
  cases op with
  | dequeueSpecific q value =>
    rcases acts with ⟨rfl, -, absent⟩ | ⟨front, t, back, whole, found, -, rfl, -⟩
    · exact ⟨fun _ => absent, fun _ => rfl⟩
    · constructor
      · intro nothing
        exact absurd nothing (Multiset.singleton_ne_zero t)
      · intro absent
        refine absurd found (absent t ?_)
        rw [whole]
        exact List.mem_append_left _ (List.mem_append_right _ (List.mem_singleton.mpr rfl))
  | _ => exact ⟨fun _ => trivial, fun _ => rfl⟩

namespace Config

structure ReadyQueues (config : Config Q C H) : Prop where
  wellFormed : ∀ q, (config.state.queues q).Shows config.state.heap (config.state.nodes (.queue q))
  stays : ∀ q, unstealable (config.state.tasks (.queue q)) + unstealable (config.gone q) =
    unstealable (config.came q)
  returns : ∀ op : Op Q C H, op.Legal config.state → (op.apply config.state).isSome

theorem Sound.readyQueues {config : Config Q C H} (sound : config.Sound) : config.ReadyQueues := by
  obtain ⟨lists, holds⟩ := sound.holds
  refine ⟨?_, sound.stays, ?_⟩
  · intro q
    rw [holds.nodes_eq]
    exact holds.queue q
  · intro op legal
    obtain ⟨result, after, lists', applied, -, -⟩ := holds.refines op legal
    rw [applied]
    rfl

theorem Sound.step {before after : Config Q C H} {op : Op Q C H} (sound : before.Sound)
    (step : Step before op after) :
    ∃ result, op.apply before.state = some (result, after.state) ∧
      op.Acts before.state.tasks result after.state.tasks ∧
      after.given = before.given + op.given ∧ after.returned = before.returned + result.toList ∧
      after.Sound := by
  obtain ⟨lists, holds⟩ := sound.holds
  obtain ⟨legal, result, state, applied, rfl⟩ := step
  obtain ⟨result', state', lists', applied', holds', acts⟩ := holds.refines op legal
  rw [applied] at applied'
  cases applied'
  rw [← holds.tasks_eq, ← holds'.tasks_eq] at acts
  refine ⟨result, applied, acts, rfl, rfl, ⟨lists', holds'⟩, ?_⟩
  intro q
  have change := acts.unstealable_eq holds.booty q
  have old := sound.stays q
  simp only [unstealable_add]
  rw [← old, add_left_comm, change, ← add_assoc, add_comm (unstealable (before.gone q))]

theorem Step.deterministic {before after other : Config Q C H} {op : Op Q C H}
    (step : Step before op after) (again : Step before op other) : other = after := by
  obtain ⟨-, result, state, applied, rfl⟩ := step
  obtain ⟨-, result', state', applied', rfl⟩ := again
  rw [applied] at applied'
  cases applied'
  rfl

end Config

end Qthreads.Sherwood
