import Qthreads.Nemesis.Exact

namespace Qthreads.Nemesis

open Lib
open Tqueue (Node Task)
open Function (update update_of_ne update_self update_eq_self)

variable {s after : Shared} {consumer me t : Nat} {n : Node} {pc next : Pc} {seen : Seen Op Result}

def Pc.caller (s : Shared) : Pc → Caller Op Result
  | idle => .idle
  | done result => .done result
  | eAlloc task => .called (.enqueue task)
  | eFill task _ => .called (.enqueue task)
  | eSwap node => .called (.enqueue (s.thread node))
  | eHead _ => .done .enqueued
  | eLink _ _ => .done .enqueued
  | dUnlink dequeued => .done (.dequeued (some (s.thread dequeued)))
  | dThread dequeued => .done (.dequeued (some (s.thread dequeued)))
  | dFree _ retval => .done (.dequeued (some retval))
  | _ => .called .dequeue

def Shared.contents (s : Shared) : List Task := s.order.map s.thread

def abstraction (config : System) : Config (List Task) (Caller Op Result) :=
  ⟨config.shared.contents, fun t => (config.tasks t).caller config.shared⟩

theorem caller_stable (own : Own consumer t s pc) (steady : Steady t s after)
    (undisturbed : t = consumer → Undisturbed s after) : pc.caller after = pc.caller s := by
  cases pc with
  | eSwap node =>
    have same := steady.thread node ((own.fresh node).mpr rfl)
    simp only [Pc.caller, same]
  | dUnlink n =>
    have mine := own.dequeuing rfl
    have same := (undisturbed mine).thread n ((own.held mine n).mpr rfl)
    simp only [Pc.caller, same]
  | dThread n =>
    have mine := own.dequeuing rfl
    have same := (undisturbed mine).thread n ((own.held mine n).mpr rfl)
    simp only [Pc.caller, same]
  | _ => rfl

theorem contents_of_first (first : s.order.head? = some n) :
    s.contents = s.thread n :: s.order.tail.map s.thread := by
  obtain ⟨rest, list⟩ : ∃ rest, s.order = n :: rest := List.head?_eq_some_iff.mp first
  rw [Shared.contents, list, List.map_cons, List.tail_cons]

theorem effect (good : Good s) (own : Own consumer me s pc)
    (acted : Act consumer me s pc seen after next) :
    (seen = .silent ∧ after.contents = s.contents ∧ next.caller after = pc.caller s) ∨
      Atomic (Fifo true) me s.contents (pc.caller s) seen after.contents (next.caller after) := by
  cases acted with
  | @ret result =>
    refine .inr ?_
    have same : (s.record result).contents = s.contents := by
      cases result with
      | enqueued => rfl
      | dequeued task => cases task <;> rfl
    rw [same]
    exact .ret
  | enqueue task => exact .inr (Atomic.call (Op.enqueue task))
  | alloc node free => exact .inl ⟨rfl, rfl, rfl⟩
  | @fill task node =>
    have mine : s.stage node = .fresh me := (own.fresh node).mpr rfl
    have absent : node ∉ s.order := by
      intro inside
      have queued := (good.member node).mp inside
      rw [mine] at queued
      exact queued
    refine .inl ⟨rfl, ?_, ?_⟩
    · apply List.map_congr_left
      intro m inside
      exact update_of_mem absent inside
    · simp only [Pc.caller, Shared.fill, update_self]
  | @swap node =>
    refine .inr ?_
    have put : (s.swap me node).contents = s.contents ++ [s.thread node] := by
      simp only [Shared.contents, Shared.swap, List.map_append, List.map_cons, List.map_nil]
    have there : (swapped s.tail node).caller (s.swap me node) = .done .enqueued := by
      cases s.tail <;> rfl
    rw [put, there]
    exact .effect .enqueue
  | storeHead => exact .inl ⟨rfl, rfl, rfl⟩
  | link => exact .inl ⟨rfl, rfl, rfl⟩
  | dequeue mine => exact .inr (Atomic.call Op.dequeue)
  | noHead missing => exact .inr (.effect (.miss rfl))
  | takeNone missing => exact .inr (.effect (.miss rfl))
  | step =>
    obtain ⟨_, first, _⟩ := own.consumes (own.dequeuing rfl)
    rw [contents_of_first first]
    exact .inr (.effect .dequeue)
  | cas tail =>
    obtain ⟨_, first⟩ := own.consumes (own.dequeuing rfl)
    rw [contents_of_first first]
    exact .inr (.effect .dequeue)
  | stepOn =>
    obtain ⟨_, first, _⟩ := own.consumes (own.dequeuing rfl)
    rw [contents_of_first first]
    exact .inr (.effect .dequeue)
  | _ => exact .inl ⟨rfl, rfl, rfl⟩

variable {config : System}

theorem abstraction_move (holds : Invariant consumer config)
    (acted : Act consumer me config.shared (config.tasks me) seen after next) :
    abstraction ⟨after, update config.tasks me next⟩ =
      ⟨after.contents, update (abstraction config).tasks me (next.caller after)⟩ := by
  have moved := moved holds.shared (holds.tasks me) acted
  refine congrArg (Config.mk after.contents) (funext fun t => ?_)
  by_cases same : t = me
  · subst same
    simp only [update_self]
  · simp only [update_of_ne same]
    refine caller_stable (holds.tasks t) (moved.steady t same) ?_
    rintro rfl
    exact moved.undisturbed (Ne.symm same)

theorem simulate {before later : System} {label : Nat × Seen Op Result}
    (holds : Invariant consumer before) (taken : Step consumer before label later) :
    ∃ labels last, Run (Config.Step (Atomic (Fifo true))) (abstraction before) labels last ∧
      visible labels = visible [label] ∧ last = abstraction later := by
  cases taken with
  | @move me seen after next acted =>
    rw [abstraction_move holds acted]
    rcases effect holds.shared (holds.tasks me) acted with ⟨rfl, contents, caller⟩ | step
    · refine ⟨[], _, .nil _, rfl, ?_⟩
      rw [contents, caller]
      exact congrArg (Config.mk _) (update_eq_self me (abstraction before).tasks).symm
    · exact ⟨[(me, seen)], _, .cons (.move step) (.nil _), rfl, rfl⟩

theorem linearizable_run {labels : List (Nat × Seen Op Result)} {last : System}
    (run : Run (Step consumer) initial labels last) : Linearizable (Fifo true) [] (visible labels) := by
  refine linearizable_of_simulation (fun config abstract =>
    Invariant consumer config ∧ abstract = abstraction config) ?_ ⟨invariant_initial, rfl⟩ run
  rintro before label after abstract ⟨holds, rfl⟩ taken
  obtain ⟨seen, next, run, same, rfl⟩ := simulate holds taken
  exact ⟨seen, _, run, same, holds.step respects taken, rfl⟩

theorem linked_or_pending (holds : Invariant consumer config) (inside : n ∈ config.shared.order) :
    config.shared.stage n = .linked ∨ ∃ t, (config.tasks t).pending = some n := by
  have queued := (holds.shared.member n).mp inside
  cases stage : config.shared.stage n with
  | linked => exact .inl rfl
  | pending t => exact .inr ⟨t, ((holds.tasks t).pending n).mp stage⟩
  | pool | fresh | held =>
    rw [stage] at queued
    exact queued.elim

theorem swapped_eq_returned (holds : Invariant consumer config) (empty : config.shared.order = [])
    (nothing : (config.tasks consumer).inHand config.shared = []) :
    config.shared.returned = config.shared.swapped := by
  rw [holds.shared.fifo, empty, (holds.tasks consumer).taken rfl, nothing]
  simp

theorem missed (holds : Invariant consumer config) (here : config.tasks consumer = pc)
    (acted : Act consumer consumer config.shared pc seen after (.done (.dequeued none))) :
    config.shared.returned = config.shared.swapped ∨ ∃ t, (config.tasks t).pending ≠ none := by
  have consumes := (holds.tasks consumer).consumes rfl
  have fronted := holds.shared.fronted
  unfold Fronted at fronted
  rw [here] at consumes
  generalize target : Pc.done (.dequeued none) = next at acted
  cases acted with
  | noHead absent =>
    have front : config.shared.front = .atHead := consumes
    rw [front] at fronted
    cases list : config.shared.order with
    | nil => exact .inl (swapped_eq_returned holds list (here ▸ rfl))
    | cons n rest =>
      have first : config.shared.order.head? = some n := by rw [list, List.head?_cons]
      have head := fronted.2.2 n first
      rw [absent] at head
      rcases linked_or_pending holds (List.mem_of_mem_head? first) with linked | ⟨t, pending⟩
      · rw [if_pos linked] at head
        cases head
      · exact .inr ⟨t, by simp [pending]⟩
  | takeNone absent =>
    have front : config.shared.front = .atShadow := consumes
    rw [front] at fronted
    obtain ⟨m, _, _, shadow⟩ := fronted
    rw [absent] at shadow
    cases shadow
  | swap =>
    cases tail : config.shared.tail with
    | none =>
      rw [tail] at target
      cases target
    | some prev =>
      rw [tail] at target
      cases target
  | _ => cases target

def Pc.rank : Pc → Nat
  | dShadow => 14
  | dHead => 13
  | dAdopt => 12
  | dClear => 11
  | dTake => 10
  | dNext _ => 9
  | dStep _ => 8
  | dLast _ => 8
  | dCas _ => 7
  | dSpin _ => 6
  | dSpun _ => 5
  | dUnlink _ => 4
  | dThread _ => 3
  | dFree _ _ => 2
  | done _ => 1
  | _ => 0

/-- The consumer spins only while a thread has swapped the tail and not stored the pointer to its
node. -/
theorem spins (holds : Invariant consumer config)
    (here : config.tasks consumer = .dSpin n) (absent : config.shared.next n = none) :
    ∃ t, (config.tasks t).pending ≠ .none := by
  have consumes := (holds.tasks consumer).consumes rfl
  rw [here] at consumes
  obtain ⟨_, first, notLast⟩ := consumes
  obtain ⟨rest, list⟩ : ∃ rest, config.shared.order = n :: rest := List.head?_eq_some_iff.mp first
  cases behind : rest with
  | nil =>
    refine absurd ?_ notLast
    rw [holds.shared.tail, list, behind, List.getLast?_singleton]
  | cons m rest' =>
    have adjacent : Adjacent config.shared.order n m := by
      rw [list, behind]
      exact .inl ⟨rfl, rfl⟩
    have link := holds.shared.links n m adjacent
    rcases linked_or_pending holds adjacent.right_mem with linked | ⟨t, pending⟩
    · rw [if_pos linked, absent] at link
      cases link
    · exact ⟨t, by simp [pending]⟩

theorem dequeue_descends (holds : Invariant consumer config)
    (finished : ∀ t, (config.tasks t).pending = none) (here : config.tasks consumer = pc)
    (dequeues : pc.dequeues = true) (acted : Act consumer consumer config.shared pc seen after next) :
    next.rank < pc.rank := by
  cases acted with
  | spin absent =>
    obtain ⟨t, pending⟩ := spins holds here absent
    exact absurd (finished t) pending
  | enqueue | alloc | fill | swap | storeHead | link | dequeue => cases dequeues
  | _ => simp only [Pc.rank]; omega

theorem dequeue_moves (dequeues : pc.dequeues = true) :
    ∃ seen after next, Act consumer consumer s pc seen after next := by
  cases pc with
  | done result => exact ⟨_, _, _, .ret⟩
  | idle | eAlloc | eFill | eSwap | eHead | eLink => cases dequeues
  | dShadow =>
    cases shadow : s.shadowHead with
    | none => exact ⟨_, _, _, .noShadow shadow⟩
    | some m => exact ⟨_, _, _, .shadow (by simp [shadow])⟩
  | dHead =>
    cases head : s.head with
    | none => exact ⟨_, _, _, .noHead head⟩
    | some m => exact ⟨_, _, _, .head (by simp [head])⟩
  | dAdopt => exact ⟨_, _, _, .adopt⟩
  | dClear => exact ⟨_, _, _, .clear⟩
  | dTake =>
    cases shadow : s.shadowHead with
    | none => exact ⟨_, _, _, .takeNone shadow⟩
    | some m => exact ⟨_, _, _, .take shadow⟩
  | dNext n =>
    cases link : s.next n with
    | none => exact ⟨_, _, _, .noNext link⟩
    | some m => exact ⟨_, _, _, .next (by simp [link])⟩
  | dStep n => exact ⟨_, _, _, .step⟩
  | dLast n => exact ⟨_, _, _, .last⟩
  | dCas n =>
    by_cases tail : s.tail = some n
    · exact ⟨_, _, _, .cas tail⟩
    · exact ⟨_, _, _, .casFail tail⟩
  | dSpin n =>
    cases link : s.next n with
    | none => exact ⟨_, _, _, .spin link⟩
    | some m => exact ⟨_, _, _, .spun (by simp [link])⟩
  | dSpun n => exact ⟨_, _, _, .stepOn⟩
  | dUnlink n => exact ⟨_, _, _, .unlink⟩
  | dThread n => exact ⟨_, _, _, .thread⟩
  | dFree n retval => exact ⟨_, _, _, .free⟩

/-- The thread is about to write the `next` field of the node. -/
def Pc.writesNext (n : Node) : Pc → Prop
  | eFill _ node => node = n
  | eLink prev _ => prev = n
  | dUnlink dequeued => dequeued = n
  | _ => False

def Freed (consumer : Nat) (config : System) (n : Node) : Prop :=
  config.shared.stage n = .pool ∨ ∃ retval, config.tasks consumer = .dFree n retval

theorem unwritten_of_freed (holds : Invariant consumer config) (freed : Freed consumer config n) :
    config.shared.tail ≠ some n ∧ ∀ t, ¬ (config.tasks t).writesNext n := by
  have gone : config.shared.stage n = .pool ∨ config.shared.stage n = .held := by
    refine freed.imp id ?_
    rintro ⟨retval, there⟩
    refine ((holds.tasks consumer).held rfl n).mpr ?_
    rw [there]
    rfl
  have absent : n ∉ config.shared.order := by
    intro inside
    have queued := (holds.shared.member n).mp inside
    rcases gone with free | held
    · rw [free] at queued
      exact queued
    · rw [held] at queued
      exact queued
  refine ⟨?_, ?_⟩
  · intro last
    exact absent (List.mem_of_getLast? (holds.shared.tail.symm.trans last))
  · intro t writes
    have own := holds.tasks t
    cases here : config.tasks t with
    | eFill task node =>
      rw [here] at writes own
      cases writes
      have mine := (own.fresh n).mpr rfl
      rcases gone with free | held <;> simp_all
    | eLink prev node =>
      rw [here] at writes own
      cases writes
      exact absent (Adjacent.left_mem own.place)
    | dUnlink dequeued =>
      rw [here] at writes own
      cases writes
      have mine := own.dequeuing rfl
      subst mine
      have held := (own.held rfl n).mpr rfl
      rcases freed with free | ⟨retval, there⟩
      · rw [held] at free
        cases free
      · rw [here] at there
        cases there
    | _ =>
      rw [here] at writes
      exact writes

theorem nemesis_fifo {labels : List (Nat × Seen Op Result)} {last : System}
    (run : Run (Step consumer) initial labels last) :
    Linearizable (Fifo true) [] (visible labels) ∧
      last.shared.returned <+: last.shared.swapped ∧
      (∀ seen after, Act consumer consumer last.shared (last.tasks consumer) seen after
          (.done (.dequeued none)) →
        last.shared.returned = last.shared.swapped ∨ ∃ t, (last.tasks t).pending ≠ none) ∧
      ((∀ t, (last.tasks t).pending = none) → (last.tasks consumer).dequeues = true →
        (∃ seen after next,
          Act consumer consumer last.shared (last.tasks consumer) seen after next) ∧
        ∀ seen after next, Act consumer consumer last.shared (last.tasks consumer) seen after next →
          next.rank < (last.tasks consumer).rank) ∧
      ∀ n, Freed consumer last n → last.shared.tail ≠ some n ∧ ∀ t, ¬ (last.tasks t).writesNext n := by
  have holds := invariant_run run
  refine ⟨linearizable_run run, ?_, ?_, ?_, ?_⟩
  · rw [holds.shared.fifo, (holds.tasks consumer).taken rfl, List.append_assoc]
    exact List.prefix_append _ _
  · intro seen after acted
    exact missed holds rfl acted
  · intro finished dequeues
    exact ⟨dequeue_moves dequeues, fun _ _ _ => dequeue_descends holds finished rfl dequeues⟩
  · intro n freed
    exact unwritten_of_freed holds freed

def Enqueues : Caller Op Result → Prop
  | .called .dequeue => False
  | .done (.dequeued _) => False
  | _ => True

structure OnlyEnqueued (config : Config (List Task) (Caller Op Result)) : Prop where
  enqueues : ∀ t, Enqueues (config.tasks t)
  there : ∀ t, config.tasks t = .done .enqueued → config.shared ≠ []

structure OneDequeues (t : Nat) (config : Config (List Task) (Caller Op Result)) : Prop where
  others : ∀ other, other ≠ t → Enqueues (config.tasks other)
  there : config.tasks t = .called .dequeue ∧ config.shared ≠ [] ∨
    ∃ task, config.tasks t = .done (.dequeued (some task))

variable {before later : Config (List Task) (Caller Op Result)}

theorem OnlyEnqueued.silent (only : OnlyEnqueued before)
    (taken : Config.Step (Atomic (Fifo false)) before (me, .silent) later) :
    OnlyEnqueued later ∧ (before.shared ≠ [] → later.shared ≠ []) := by
  obtain ⟨contents, tasks⟩ := before
  cases taken with
  | @move _ _ shared mine acted =>
    change Atomic (Fifo false) me contents (tasks me) .silent shared mine at acted
    generalize here : tasks me = caller at acted
    have enqueues : Enqueues (tasks me) := only.enqueues me
    rw [here] at enqueues
    cases acted with
    | effect behaviour =>
      cases behaviour with
      | @enqueue _ task =>
        have nonempty : contents ++ [task] ≠ [] := by simp
        refine ⟨⟨?_, fun _ _ => nonempty⟩, fun _ => nonempty⟩
        intro t
        by_cases same : t = me
        · subst same
          simp only [update_self, Enqueues]
        · simpa only [update_of_ne same] using only.enqueues t
      | dequeue => exact enqueues.elim
      | empty => exact enqueues.elim
      | miss => exact enqueues.elim

theorem OneDequeues.silent (one : OneDequeues t before)
    (taken : Config.Step (Atomic (Fifo false)) before (me, .silent) later) : OneDequeues t later := by
  obtain ⟨contents, tasks⟩ := before
  cases taken with
  | @move _ _ shared mine acted =>
    change Atomic (Fifo false) me contents (tasks me) .silent shared mine at acted
    generalize here : tasks me = caller at acted
    have others : ∀ other, other ≠ t → Enqueues (tasks other) := one.others
    have there : tasks t = .called .dequeue ∧ contents ≠ [] ∨
      ∃ task, tasks t = .done (.dequeued (some task)) := one.there
    cases acted with
    | effect behaviour =>
      by_cases mover : me = t
      · subst mover
        have nothingElse : ∀ next other, other ≠ me →
            Enqueues (update tasks me next other) := by
          intro next other apart
          simpa only [update_of_ne apart] using others other apart
        rw [here] at there
        cases behaviour with
        | dequeue => exact ⟨nothingElse _, .inr ⟨_, update_self ..⟩⟩
        | enqueue => simp at there
        | empty => simp at there
        | miss wrong => cases wrong
      · have enqueues := others me mover
        rw [here] at enqueues
        cases behaviour with
        | enqueue =>
          refine ⟨?_, ?_⟩
          · intro other apart
            by_cases same : other = me
            · subst same
              simp only [update_self, Enqueues]
            · simpa only [update_of_ne same] using others other apart
          · simp only [update_of_ne (Ne.symm mover)]
            exact there.imp (fun called => ⟨called.1, by simp⟩) id
        | dequeue => exact enqueues.elim
        | empty => exact enqueues.elim
        | miss => exact enqueues.elim

def firstTask : Task := ⟨1, false, 0, none⟩

def secondTask : Task := ⟨2, false, 0, none⟩

/-- The second enqueue is over when the dequeue begins, and the dequeue returns `NULL`. -/
def overtaken : List (Nat × Seen Op Result) :=
  [(1, .call (.enqueue firstTask)), (2, .call (.enqueue secondTask)), (2, .ret .enqueued),
    (0, .call .dequeue), (0, .ret (.dequeued none))]

theorem OnlyEnqueued.call {task : Task} (only : OnlyEnqueued before)
    (taken : Config.Step (Atomic (Fifo false)) before (me, .call (.enqueue task)) later) :
    OnlyEnqueued later := by
  obtain ⟨contents, tasks⟩ := before
  cases taken with
  | @move _ _ shared mine acted =>
    change Atomic (Fifo false) me contents (tasks me) _ shared mine at acted
    generalize here : tasks me = caller at acted
    cases acted with
    | call op =>
      refine ⟨?_, ?_⟩
      · intro t
        by_cases same : t = me
        · subst same
          simp only [update_self, Enqueues]
        · simpa only [update_of_ne same] using only.enqueues t
      · intro t done
        by_cases same : t = me
        · subst same
          simp only [update_self] at done
          cases done
        · simp only [update_of_ne same] at done
          exact only.there t done

theorem OnlyEnqueued.ret (only : OnlyEnqueued before)
    (taken : Config.Step (Atomic (Fifo false)) before (me, .ret .enqueued) later) :
    OnlyEnqueued later ∧ later.shared ≠ [] := by
  obtain ⟨contents, tasks⟩ := before
  cases taken with
  | @move _ _ shared mine acted =>
    change Atomic (Fifo false) me contents (tasks me) _ shared mine at acted
    generalize here : tasks me = caller at acted
    cases acted with
    | ret =>
      have nonempty : contents ≠ [] := only.there me here
      refine ⟨⟨?_, fun _ _ => nonempty⟩, nonempty⟩
      intro t
      by_cases same : t = me
      · subst same
        simp only [update_self, Enqueues]
      · simpa only [update_of_ne same] using only.enqueues t

theorem OnlyEnqueued.dequeue (only : OnlyEnqueued before) (nonempty : before.shared ≠ [])
    (taken : Config.Step (Atomic (Fifo false)) before (me, .call .dequeue) later) :
    OneDequeues me later := by
  obtain ⟨contents, tasks⟩ := before
  cases taken with
  | @move _ _ shared mine acted =>
    change Atomic (Fifo false) me contents (tasks me) _ shared mine at acted
    generalize here : tasks me = caller at acted
    cases acted with
    | call op =>
      refine ⟨?_, .inl ⟨update_self .., nonempty⟩⟩
      intro t apart
      simpa only [update_of_ne apart] using only.enqueues t

theorem OneDequeues.not_none (one : OneDequeues me before) :
    ¬ Config.Step (Atomic (Fifo false)) before (me, .ret (.dequeued none)) later := by
  intro taken
  have there := one.there
  obtain ⟨contents, tasks⟩ := before
  cases taken with
  | @move _ _ shared mine acted =>
    change Atomic (Fifo false) me contents (tasks me) _ shared mine at acted
    generalize here : tasks me = caller at acted
    cases acted with
    | ret => simp [here] at there

theorem overtaken_not_linearizable : ¬ Linearizable (Fifo false) [] overtaken := by
  rintro ⟨labels, last, run, same⟩
  have start : OnlyEnqueued ⟨[], fun _ => .idle⟩ := ⟨fun _ => trivial, fun _ idle => nomatch idle⟩
  have keep : ∀ before task after, OnlyEnqueued before →
      Config.Step (Atomic (Fifo false)) before (task, .silent) after → OnlyEnqueued after :=
    fun _ _ _ only taken => (only.silent taken).1
  obtain ⟨_, _, _, only, called, run, same⟩ := peel_visible keep run same start
  obtain ⟨_, _, _, only, called, run, same⟩ := peel_visible keep run same (only.call called)
  obtain ⟨_, _, _, only, returned, run, same⟩ := peel_visible keep run same (only.call called)
  have keepSome : ∀ before task after, OnlyEnqueued before ∧ before.shared ≠ [] →
      Config.Step (Atomic (Fifo false)) before (task, .silent) after →
      OnlyEnqueued after ∧ after.shared ≠ [] :=
    fun _ _ _ both taken => (both.1.silent taken).imp id fun kept => kept both.2
  obtain ⟨_, _, _, both, called, run, same⟩ := peel_visible keepSome run same (only.ret returned)
  obtain ⟨_, _, _, one, returned, _, _⟩ := peel_visible (fun _ _ _ one taken => one.silent taken) run
    same (both.1.dequeue both.2 called)
  exact one.not_none returned

theorem overtaken_run : ∃ labels last, Run (Step 0) initial labels last ∧
    visible labels = overtaken := by
  have run : ∃ last, Run (Step 0) initial
      [(1, .call (.enqueue firstTask)), (1, .silent), (1, .silent), (1, .silent),
        (2, .call (.enqueue secondTask)), (2, .silent), (2, .silent), (2, .silent), (2, .silent),
        (2, .ret .enqueued), (0, .call .dequeue), (0, .silent), (0, .silent),
        (0, .ret (.dequeued none))] last :=
    ⟨_, .cons (.move (.enqueue firstTask)) <| .cons (.of_eq rfl (.alloc 0 rfl)) <|
      .cons (.of_eq rfl .fill) <| .cons (.of_eq rfl .swap) <|
      .cons (.of_eq rfl (.enqueue secondTask)) <| .cons (.of_eq rfl (.alloc 1 rfl)) <|
      .cons (.of_eq rfl .fill) <| .cons (.of_eq rfl .swap) <| .cons (.of_eq rfl .link) <|
      .cons (.of_eq rfl .ret) <| .cons (.of_eq rfl (.dequeue rfl)) <|
      .cons (.of_eq rfl (.noShadow rfl)) <| .cons (.of_eq rfl (.noHead rfl)) <|
      .cons (.of_eq rfl .ret) <| .nil _⟩
  obtain ⟨last, run⟩ := run
  exact ⟨_, last, run, rfl⟩

theorem nemesis_not_linearizable : ∃ labels last, Run (Step 0) initial labels last ∧
    ¬ Linearizable (Fifo false) [] (visible labels) := by
  obtain ⟨labels, last, run, same⟩ := overtaken_run
  exact ⟨labels, last, run, same ▸ overtaken_not_linearizable⟩

theorem nemesis_fifo_overtaken : ∃ labels last, Run (Step 0) initial labels last ∧
    visible labels = overtaken ∧ Linearizable (Fifo true) [] overtaken ∧
      last.shared.returned <+: last.shared.swapped := by
  obtain ⟨labels, last, run, same⟩ := overtaken_run
  obtain ⟨linearizable, fifo, _⟩ := nemesis_fifo run
  exact ⟨labels, last, run, same, same ▸ linearizable, fifo⟩

end Qthreads.Nemesis
