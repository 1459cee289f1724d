import Qthreads.Precond.Drained
import Qthreads.Precond.Kept

namespace Qthreads.Precond

open Feb (Task ThreadState qalign)
open Feb.Steps (Op Queue Gotlock)
open Lib
open Function (update update_of_ne update_self)

variable {s after : State} {queue : UInt64 → Queue → List Nat} {side : Task → List Nat}
  {spot : Nat → Spot} {place : Task → Place} {me t : Task} {maddr : UInt64} {q : Queue} {x : Nat}
  {words : List UInt64} {m : Stat}

def WaitsAt (s : State) (queue : UInt64 → Queue → List Nat) (side : Task → List Nat) (t : Task)
    (x : Nat) : Prop :=
  s.waiter x = .task t ∧ ((∃ maddr, x ∈ queue maddr .FFQ) ∨ ∃ me, x ∈ side me)

structure Told (s : State) (queue : UInt64 → Queue → List Nat) (side : Task → List Nat) (t : Task)
    (words : List UInt64) : Prop where
  inOrder : s.history t <+: schedule words
  enqueuedOnce : (s.history t).count .ready ≤ 1
  freedOnce : (s.history t).count .freed ≤ 1
  array : s.preconds t = none ↔ Event.freed ∈ s.history t
  notBefore : Event.ready ∈ s.history t → s.history t = schedule words
  runs : s.threads t = .running ∨ s.threads t = .febBlocked → s.history t = schedule words
  waits : Event.ready ∉ s.history t →
    (∃ x, WaitsAt s queue side t x) ∨ ∃ me, (s.pcs me).checks = some t
  nowhereElse : ∀ me, (s.pcs me).checks = some t →
    (∀ x, ¬ WaitsAt s queue side t x) ∧ ∀ other, (s.pcs other).checks = some t → other = me

/-- A check that lets a task pass one of its words found the word full. -/
def ObservesFull (s : State) : Prop :=
  ∀ me after t slot this, Step s me after →
    after.history t = s.history t ++ [.observed slot this] →
      s.stat (qalign this) = none ∨ ∃ m, s.stat (qalign this) = some m ∧ m.full = true

/-- A task that has no side list any more has launched the tasks it took into it, in order, and
freed its nodes. -/
structure Launched (s : State) (me : Task) : Prop where
  tasks : s.launched me = s.drained me
  nodes : s.released me = s.batch me
  once : (s.batch me).Nodup

theorem remaining_count (words : List UInt64) (k : Nat) :
    (remaining words k).count .ready = 1 ∧ (remaining words k).count .freed = 1 := by
  induction k with
  | zero => exact ⟨rfl, rfl⟩
  | succ k ih => simp [remaining, ih]

section

variable (kept : Kept s queue side spot place)
include kept

theorem Kept.stands (waits : WaitsAt s queue side t x) : place t = .node x := by
  obtain ⟨same, lists⟩ := waits
  have listed : (spot x).Listed := by
    rcases lists with ⟨maddr, member⟩ | ⟨me, member⟩
    · rw [(kept.lists.queues.member maddr .FFQ x).mp member]
      trivial
    · rw [(kept.lists.sides.member me x).mp member]
      trivial
  exact kept.waiting.stands listed same

theorem Kept.waits (nascent : s.threads t = .nascent) :
    (∃ x, WaitsAt s queue side t x) ∨ ∃ me, (s.pcs me).checks = some t := by
  cases stands : place t with
  | free => exact absurd nascent (kept.waiting.away t stands).1
  | worker me => exact .inr ⟨me, (kept.waiting.checked t me).mp stands⟩
  | node x =>
    refine .inl ⟨x, (kept.waiting.listed t x stands).2, ?_⟩
    rcases kept.waiting.atNode t x stands with ⟨-, inside⟩ | ⟨blocked, -⟩
    · cases spots : spot x with
      | queue maddr q =>
        rw [spots] at inside
        cases inside
        exact .inl ⟨maddr, (kept.lists.queues.member maddr .FFQ x).mpr spots⟩
      | side me => exact .inr ⟨me, (kept.lists.sides.member me x).mpr spots⟩
      | free =>
        rw [spots] at inside
        exact inside.elim
      | head me =>
        rw [spots] at inside
        exact inside.elim
    · rw [nascent] at blocked
      cases blocked

theorem Kept.told (known : s.spawned t = some words) : Told s queue side t words := by
  obtain ⟨todo, whole, stage⟩ := kept.stages.staged t words known
  have ready : (s.history t).count .ready + todo.count .ready = 1 := by
    rw [← List.count_append, whole]
    exact (remaining_count words _).1
  have freed : (s.history t).count .freed + todo.count .freed = 1 := by
    rw [← List.count_append, whole]
    exact (remaining_count words _).2
  have enqueued : Event.ready ∈ s.history t → todo = [] := by
    intro member
    have positive := List.count_pos_iff.mpr member
    cases stage with
    | observes k =>
      rw [(remaining_count words k).1] at ready
      omega
    | found =>
      rw [List.count_singleton_self] at ready
      omega
    | done => rfl
  refine ⟨⟨todo, whole⟩, by omega, by omega, ?_, ?_, ?_, ?_, ?_⟩
  · cases stage with
    | observes k array =>
      rw [(remaining_count words k).2] at freed
      have nothing : Event.freed ∉ s.history t := by
        rw [← List.count_pos_iff]
        omega
      rw [array]
      exact iff_of_false (Option.some_ne_none _) nothing
    | found array =>
      refine iff_of_true array ?_
      rw [← List.count_pos_iff]
      simp at freed
      omega
    | done array =>
      refine iff_of_true array ?_
      rw [← List.count_pos_iff]
      simp at freed
      omega
  · intro member
    rw [enqueued member, List.append_nil] at whole
    exact whole
  · intro awake
    cases stage with
    | observes k _ _ nascent =>
      rw [nascent] at awake
      rcases awake with awake | awake <;> cases awake
    | found _ _ _ finds =>
      obtain ⟨me, finds⟩ := finds
      have state := kept.waiting.atWorker t me
        ((kept.waiting.checked t me).mpr (finds_checks finds))
      rw [if_pos finds] at state
      rw [state] at awake
      rcases awake with awake | awake <;> cases awake
    | done =>
      rw [List.append_nil] at whole
      exact whole
  · intro absent
    cases stage with
    | observes k _ _ nascent => exact kept.waits nascent
    | found _ _ _ finds =>
      obtain ⟨me, finds⟩ := finds
      exact .inr ⟨me, finds_checks finds⟩
    | done =>
      simp at ready
      exact absurd (List.count_pos_iff.mp (by omega)) absent
  · intro me checks
    refine ⟨fun x waits => ?_, (kept.checked checks).2.2⟩
    have stands := kept.stands waits
    rw [(kept.waiting.checked t me).mpr checks] at stands
    cases stands

theorem Kept.launched (noHead : (s.pcs me).head = none) : Launched s me := by
  have batch := kept.batches me
  have empty : side me = [] := by
    have linked := kept.lists.sides.linked me
    rw [Linked, noHead] at linked
    exact linked
  have tasks := batch.tasks
  have nodes := batch.nodes
  rw [empty, List.map_nil, List.append_nil] at tasks
  rw [noHead, empty] at nodes
  refine ⟨?_, by simpa using nodes, batch.once⟩
  exact (List.map_injective_iff.mpr (fun _ _ => Waiter.task.inj) tasks).symm

end

theorem history_step (step : Step s me after) (t : Task) : after.history t = s.history t ∨
    after.history t = s.history t ++ [.freed] ∨ after.history t = s.history t ++ [.ready] ∨
    ∃ slot this, after.history t = s.history t ++ [.observed slot this] ∧
      (s.stat (qalign this) = none ∨ ∃ m, s.stat (qalign this) = some m ∧ m.full = true) := by
  have noted : ∀ (other : Task) (event : Event),
      update s.history other (s.history other ++ [event]) t = s.history t ∨
        update s.history other (s.history other ++ [event]) t = s.history t ++ [event] := by
    intro other event
    by_cases same : t = other
    · subst same
      exact .inr (update_self ..)
    · exact .inl (update_of_ne same ..)
  cases step with
  | @checkDone t' _ _ _ _ =>
    rcases noted t' .freed with same | grown
    · exact .inl same
    · exact .inr (.inl grown)
  | @ready t' _ _ =>
    rcases noted t' .ready with same | grown
    · exact .inl same
    · exact .inr (.inr (.inl grown))
  | @checkMissing t' _ k _ this _ _ _ missing =>
    rcases noted t' (.observed (k + 1) this) with same | grown
    · exact .inl same
    · exact .inr (.inr (.inr ⟨_, _, grown, .inl missing⟩))
  | @checkFull t' _ k _ this m _ _ known full =>
    rcases noted t' (.observed (k + 1) this) with same | grown
    · exact .inl same
    · exact .inr (.inr (.inr ⟨_, _, grown, .inr ⟨m, known, full⟩⟩))
  | _ => exact .inl rfl

theorem observesFull (s : State) : ObservesFull s := by
  intro me after t slot this step grown
  rcases history_step step t with same | same | same | ⟨slot', this', same, full⟩
  · rw [same] at grown
    simp at grown
  · rw [same] at grown
    simp at grown
  · rw [same] at grown
    simp at grown
  · rw [same] at grown
    simp only [List.append_cancel_left_eq, List.cons.injEq, Event.observed.injEq, and_true] at grown
    rw [← grown.2]
    exact full

theorem Linked.last {next : Nat → Option Nat} {waiter : Nat → Waiter} {pc : Pc} {rest : List Nat}
    {head : Nat} (linked : Linked next waiter pc rest) (heads : pc.head = some head)
    (tails : pc.tail waiter = lastOf waiter head) : ∃ last, waiter head = .node last := by
  rw [Linked, heads, tails] at linked
  have ends := linked.2
  cases found : waiter head with
  | node last => exact ⟨last, rfl⟩
  | task t => simp [lastOf, found, List.getLast?_cons] at ends

/-- What a task reads on its way is there: the nodes of its side list and the array of the task it
checks. -/
structure Follows (s : State) : Prop where
  nodes : ∀ me head, (s.pcs me).head = some head → s.used head = true
  launch : ∀ me tasks remove, s.pcs me = .launch tasks remove → ∃ tail, s.waiter tasks = .node tail
  next : ∀ me head tail remove, s.pcs me = .next head tail remove →
    ∃ x t, s.next head = some x ∧ s.used x = true ∧ s.waiter x = .task t
  array : ∀ me t, (s.pcs me).checks = some t → (s.pcs me).finds = none →
    ∃ k words, s.preconds t = some (k, words) ∧ k ≤ words.length

theorem Kept.follows (kept : Kept s queue side spot place) : Follows s where
  nodes := by
    intro me head headed
    rw [kept.lists.used, (kept.lists.sides.headed me head).mp headed]
    exact Spot.noConfusion
  launch := by
    intro me tasks remove here
    have linked := kept.lists.sides.linked me
    rw [here] at linked
    exact linked.last rfl rfl
  next := by
    intro me head tail remove here
    have linked := kept.lists.sides.linked me
    have ahead := kept.ahead me
    rw [here] at linked ahead
    obtain ⟨chain, ends⟩ := linked
    cases shape : side me with
    | nil =>
      rw [shape] at ends
      exact absurd (Option.some.inj ends).symm ahead
    | cons x rest =>
      rw [shape, List.isChain_cons_cons] at chain
      have sideSpot : spot x = .side me := by
        rw [← kept.lists.sides.member, shape]
        exact List.mem_cons_self
      obtain ⟨t, waits, -⟩ := kept.waiting.attached x (by rw [sideSpot]; trivial)
      refine ⟨x, t, chain.1, ?_, waits⟩
      rw [kept.lists.used, sideSpot]
      exact Spot.noConfusion
  array := by
    intro me t checks unfound
    obtain ⟨words, k, -, array, bound, -⟩ := kept.stages.array kept.waiting checks unfound
    exact ⟨k, words, array, bound⟩

section

variable (kept : Kept s queue side spot place)
include kept

theorem Kept.firstWaiter (front : s.first maddr q = some x) :
    ∃ t, s.waiter x = .task t ∧ place t = .node x ∧ x ∈ queue maddr q := by
  have chain := kept.lists.queues.chain maddr q
  have member : x ∈ queue maddr q := by
    rw [chain.head] at front
    exact List.mem_of_head? front
  have listed : (spot x).Listed := by
    rw [(kept.lists.queues.member maddr q x).mp member]
    trivial
  obtain ⟨t, waits, stands⟩ := kept.waiting.attached x listed
  exact ⟨t, waits, stands, member⟩

theorem Kept.nascent (known : s.spawned t = some words) (quiet : ∀ me, (s.pcs me).finds = none) :
    s.history t = schedule words ∨ s.threads t = .nascent := by
  obtain ⟨todo, whole, stage⟩ := kept.stages.staged t words known
  cases stage with
  | observes _ _ _ nascent => exact .inr nascent
  | found _ _ _ finds =>
    obtain ⟨me, finds⟩ := finds
    rw [quiet me] at finds
    cases finds
  | done =>
    rw [List.append_nil] at whole
    exact .inl whole

end

/-- A task that was not started waits in FFQ at the word it awaits, which is empty or whose
holder is about to take it out. -/
theorem Kept.home (kept : Kept s queue side spot place) (locked : Locked s)
    (member : x ∈ queue maddr .FFQ) (waits : s.waiter x = .task t) (nascent : s.threads t = .nascent) :
    Awaits s t maddr ∧ ∃ m, s.stat maddr = some m ∧
      (m.full = false ∨ ∃ me, m.holder = some me ∧ (s.pcs me).fills = some maddr) := by
  refine ⟨kept.atHome x maddr t ((kept.lists.queues.member maddr .FFQ x).mp member) waits nascent, ?_⟩
  have head := (kept.lists.queues.chain maddr .FFQ).head
  obtain ⟨y, front⟩ : ∃ y, s.first maddr .FFQ = some y := by
    cases shape : queue maddr .FFQ with
    | nil =>
      rw [shape] at member
      cases member
    | cons y rest =>
      rw [head, shape]
      exact ⟨y, rfl⟩
  obtain ⟨m, known, front⟩ := Option.bind_eq_some_iff.mp front
  refine ⟨m, known, ?_⟩
  cases full : m.full with
  | false => exact .inl rfl
  | true =>
    rcases locked.drained maddr m known full with ⟨empty, -⟩ | filled
    · rw [empty] at front
      cases front
    · exact .inr filled

section

variable (kept : Kept s queue side spot place) (locked : Locked s) (spare : s.used x = false)
include kept locked spare

theorem Kept.holderSteps (locks : (s.pcs me).locks = some maddr) : ∃ after, Step s me after := by
  obtain ⟨m, known, -⟩ := locked.holds me maddr locks
  cases here : s.pcs me with
  | alone op =>
    rw [here] at locks
    cases locks
    cases decides : op.decision m.full with
    | wait queue addr => exact ⟨_, .wait x here known decides spare⟩
    | fail => exact ⟨_, .giveUp here known (.inl decides)⟩
    | wake gotlock => exact ⟨_, .begin here known (.inl decides)⟩
    | copy dest src then_ =>
      cases then_ with
      | none => exact ⟨_, .giveUp here known (.inr (.inl ⟨_, _, decides⟩))⟩
      | some gotlock => exact ⟨_, .begin here known (.inr ⟨_, _, decides⟩)⟩
  | release _ =>
    rw [here] at locks
    cases locks
    exact ⟨_, .release here known⟩
  | blocked _ =>
    rw [here] at locks
    cases locks
    exact ⟨_, .park here known⟩
  | filling outer _ tasks =>
    have linked := kept.lists.sides.linked me
    rw [here] at locks linked
    cases locks
    cases front : m.head .FFQ with
    | some y =>
      obtain ⟨t, waits, -⟩ := kept.firstWaiter ((first_known known .FFQ).trans front)
      by_cases nascent : s.threads t = .nascent
      · cases tasks with
        | none => exact ⟨_, .collectFirst x here known front waits nascent spare⟩
        | some head =>
          obtain ⟨last, tail⟩ := linked.last rfl rfl
          exact ⟨_, .collect here known front waits nascent tail⟩
      · exact ⟨_, .wakeReader here known front waits nascent⟩
    | none =>
      cases taker : m.head .FEQ with
      | some y =>
        obtain ⟨t, waits, -⟩ := kept.firstWaiter ((first_known known .FEQ).trans taker)
        exact ⟨_, .wakeTaker here known front taker waits⟩
      | none => exact ⟨_, .filled here known front taker⟩
  | emptying outer _ tasks =>
    rw [here] at locks
    cases locks
    cases front : m.head .EFQ with
    | some y =>
      obtain ⟨t, waits, -⟩ := kept.firstWaiter ((first_known known .EFQ).trans front)
      exact ⟨_, .wakeWriter here known front waits⟩
    | none => exact ⟨_, .emptied here known front⟩
  | unlocking _ _ _ =>
    rw [here] at locks
    cases locks
    exact ⟨_, .unlock here known⟩
  | checking t this return_ =>
    obtain ⟨k, words, array, -⟩ := kept.stages.word me t this return_ here
    rw [here] at locks
    cases locks
    cases full : m.full with
    | true => exact ⟨_, .checkFull here array known full⟩
    | false => exact ⟨_, .checkWait x here known full spare⟩
  | _ =>
    rw [here] at locks
    cases locks

/-- While a call is under way, some call can go on. -/
theorem Kept.progress (busy : s.pcs me ≠ .idle) (awake : s.pcs me ≠ .parked) :
    ∃ other after, Step s other after ∧ s.pcs other ≠ .idle ∧ s.pcs other ≠ .parked := by
  have mine : (∃ after, Step s me after) →
      ∃ other after, Step s other after ∧ s.pcs other ≠ .idle ∧ s.pcs other ≠ .parked := by
    rintro ⟨after, step⟩
    exact ⟨me, after, step, busy, awake⟩
  have holder : ∀ {maddr m other}, s.stat maddr = some m → m.holder = some other →
      ∃ other after, Step s other after ∧ s.pcs other ≠ .idle ∧ s.pcs other ≠ .parked := by
    intro maddr m other known holder
    have locks := locked.held maddr m other known holder
    obtain ⟨after, step⟩ := kept.holderSteps locked spare locks
    refine ⟨other, after, step, ?_, ?_⟩
    · intro idle
      rw [idle] at locks
      cases locks
    · intro parked
      rw [parked] at locks
      cases locks
  cases here : s.pcs me with
  | idle => exact absurd here busy
  | parked => exact absurd here awake
  | launch tasks remove =>
    obtain ⟨tail, last⟩ := kept.follows.launch me tasks remove here
    by_cases same : tasks = tail
    · subst same
      exact mine ⟨_, .launchNone here last⟩
    · exact mine ⟨_, .launch here last same⟩
  | next head tail remove =>
    obtain ⟨y, t, behind, -, waits⟩ := kept.follows.next me head tail remove here
    exact mine ⟨_, .next here behind waits⟩
  | handled head tail remove =>
    by_cases same : head = tail
    · exact mine ⟨_, .handledLast here same⟩
    · exact mine ⟨_, .handledMore here same⟩
  | ready t return_ => exact mine ⟨_, .ready here⟩
  | check t return_ =>
    obtain ⟨k, words, array, bound⟩ :=
      kept.follows.array me t (by rw [here]; rfl) (by rw [here]; rfl)
    cases k with
    | zero => exact mine ⟨_, .checkDone here array⟩
    | succ k =>
      have word := List.getElem?_eq_getElem (show k < words.length from bound)
      cases known : s.stat (qalign words[k]) with
      | none => exact mine ⟨_, .checkMissing here array word known⟩
      | some m =>
        cases held : m.holder with
        | none => exact mine ⟨_, .checkFound here array word known held⟩
        | some other => exact holder known held
  | remove maddr =>
    cases known : s.stat maddr with
    | none => exact mine ⟨_, .kept here (by rw [known]; rintro m ⟨⟩)⟩
    | some m =>
      cases held : m.holder with
      | some other => exact holder known held
      | none =>
        cases unused : m.unused with
        | true => exact mine ⟨_, .removed here known held unused⟩
        | false => exact mine ⟨_, .kept here (by rw [known]; rintro m ⟨⟩; exact ⟨held, unused⟩)⟩
  | alone op =>
    exact mine (kept.holderSteps locked spare (by rw [here]; rfl))
  | _ => exact mine (kept.holderSteps locked spare (by rw [here]; rfl))

end

/-- No call can go on; another one may begin, or one whose task was woken return. -/
def Settled (s : State) : Prop :=
  ∀ me after, Step s me after → s.pcs me = .idle ∨ s.pcs me = .parked

/-- The task was enqueued once, and its array freed once. -/
def StartedOnce (s : State) (t : Task) (words : List UInt64) : Prop :=
  s.history t = schedule words ∧ (s.history t).count .ready = 1 ∧ (s.history t).count .freed = 1

/-- The task waits at the word it awaits, which is empty. -/
def WaitsEmpty (s : State) (queue : UInt64 → Queue → List Nat) (t : Task) : Prop :=
  ∃ x maddr m, s.waiter x = .task t ∧ x ∈ queue maddr .FFQ ∧ Awaits s t maddr ∧
    s.stat maddr = some m ∧ m.full = false

theorem Kept.settled (kept : Kept s queue side spot place) (locked : Locked s)
    (spare : s.used x = false) (settled : Settled s) (known : s.spawned t = some words) :
    StartedOnce s t words ∨ WaitsEmpty s queue t := by
  have quiet : ∀ me, s.pcs me = .idle ∨ s.pcs me = .parked := by
    intro me
    by_contra busy
    rw [not_or] at busy
    obtain ⟨other, after, step, notIdle, notParked⟩ := kept.progress locked spare busy.1 busy.2
    rcases settled other after step with idle | parked
    · exact notIdle idle
    · exact notParked parked
  have still : ∀ me, (s.pcs me).finds = none ∧ (s.pcs me).checks = none ∧ (s.pcs me).head = none ∧
      (s.pcs me).fills = none := by
    intro me
    rcases quiet me with here | here <;> rw [here] <;> exact ⟨rfl, rfl, rfl, rfl⟩
  rcases kept.nascent known fun me => (still me).1 with whole | nascent
  · refine .inl ⟨whole, ?_⟩
    rw [whole]
    exact remaining_count words _
  · refine .inr ?_
    rcases kept.waits nascent with ⟨y, waits, ⟨maddr, member⟩ | ⟨me, member⟩⟩ | ⟨me, checks⟩
    · obtain ⟨awaits, m, known, empty | ⟨me, -, fills⟩⟩ := kept.home locked member waits nascent
      · exact ⟨y, maddr, m, waits, member, awaits, known, empty⟩
      · rw [(still me).2.2.2] at fills
        cases fills
    · have linked := kept.lists.sides.linked me
      rw [Linked, (still me).2.2.1] at linked
      have linked : side me = [] := linked
      rw [linked] at member
      cases member
    · rw [(still me).2.1] at checks
      cases checks

theorem Start.locked (start : Start s) : Locked s where
  holds := by
    intro me maddr locks
    rw [start.pcs me] at locks
    cases locks
  held := by
    intro maddr m me known
    rw [start.stat maddr] at known
    cases known
  drained := by
    intro maddr m known
    rw [start.stat maddr] at known
    cases known

theorem used_run {start : State} {tasks : List Task} (run : Run Step start tasks s) (bound : Nat)
    (below : ∀ y, start.used y = true → y < bound) :
    ∃ bound, ∀ y, s.used y = true → y < bound := by
  induction run generalizing bound with
  | nil => exact ⟨bound, below⟩
  | cons step _ ih =>
    obtain ⟨x, others⟩ := used_step step
    refine ih (max bound (x + 1)) fun y is => ?_
    by_cases same : y = x
    · omega
    · have less := below y (others y same is)
      omega

theorem unused_run {start : State} {tasks : List Task} (fresh : Start start)
    (run : Run Step start tasks s) : ∃ x, s.used x = false := by
  obtain ⟨bound, below⟩ := used_run run 0 fun y is => by
    rw [fresh.used y] at is
    cases is
  refine ⟨bound, ?_⟩
  by_contra is
  exact absurd (below bound (by simpa using is)) (lt_irrefl bound)

/-- In every run a task that is spawned with preconditions waits in at most one list, is checked
word by word from the last to the first, each found full, has its array freed once and is then
enqueued once; and whoever fills a word launches the tasks it took from FFQ, each once, and frees
the nodes of its side list, each once.  A task waits in the FFQ of the word it awaits, which is
empty or being drained; while a call is under way some call can go on; and once none is, each
task was enqueued once or awaits an empty word. -/
theorem precond_exact {start s : State} {tasks : List Task} (fresh : Start start)
    (run : Run Step start tasks s) :
    (∃ queue side spot, Lists s queue side spot ∧
      (∀ t x y, WaitsAt s queue side t x → WaitsAt s queue side t y → x = y) ∧
      (∀ t words, s.spawned t = some words → Told s queue side t words) ∧
      (∀ maddr x t, x ∈ queue maddr .FFQ → s.waiter x = .task t → s.threads t = .nascent →
        Awaits s t maddr ∧ ∃ m, s.stat maddr = some m ∧
          (m.full = false ∨ ∃ me, m.holder = some me ∧ (s.pcs me).fills = some maddr)) ∧
      (Settled s → ∀ t words, s.spawned t = some words →
        StartedOnce s t words ∨ WaitsEmpty s queue t)) ∧
    ObservesFull s ∧ Follows s ∧ (∀ me, (s.pcs me).head = none → Launched s me) ∧
    (∀ maddr m, s.stat maddr = some m → Drained s maddr m) ∧
    ∀ me, s.pcs me ≠ .idle → s.pcs me ≠ .parked →
      ∃ other after, Step s other after ∧ s.pcs other ≠ .idle ∧ s.pcs other ≠ .parked := by
  obtain ⟨queue, side, spot, place, kept⟩ := sound_run fresh run
  have locked : Locked s :=
    run.preserves (fun _ _ _ locked step => locked_step locked step) fresh.locked
  obtain ⟨y, spare⟩ := unused_run fresh run
  refine ⟨⟨queue, side, spot, kept.lists, ?_, fun t words known => kept.told known,
      fun maddr x t member waits nascent => kept.home locked member waits nascent,
      fun settled t words known => kept.settled locked spare settled known⟩,
    observesFull s, kept.follows, fun me noHead => kept.launched noHead, locked.drained,
    fun me busy awake => kept.progress locked spare busy awake⟩
  intro t x y first second
  have one := kept.stands first
  rw [kept.stands second] at one
  exact (Place.node.inj one).symm

theorem pcs_run {start : State} {tasks : List Task} (run : Run Step start tasks s)
    (away : t ∉ tasks) : s.pcs t = start.pcs t := by
  induction run with
  | nil => rfl
  | cons step _ ih =>
    rw [List.mem_cons, not_or] at away
    rw [ih away.2]
    cases step with
    | missing | spawnPlain | start | createEmpty | collect | wakeReader | checkMissing => rfl
    | _ => exact update_of_ne away.1 ..

def oneTask : State where
  stat := fun _ => none
  used := fun _ => false
  next := fun _ => none
  waiter := fun _ => .task 0
  threads := fun t => if t = 0 then .running else .unborn
  preconds := fun _ => none
  pcs := fun _ => .idle
  spawned := fun _ => none
  history := fun _ => []
  drained := fun _ => []
  launched := fun _ => []
  batch := fun _ => []
  released := fun _ => []

theorem oneTask_start : Start oneTask where
  stat := fun _ => rfl
  used := fun _ => rfl
  threads := by
    intro t
    simp only [oneTask]
    split
    · exact .inr rfl
    · exact .inl rfl
  pcs := fun _ => rfl
  spawned := fun _ => rfl
  history := fun _ => rfl
  batches := fun _ => ⟨rfl, rfl, rfl, rfl⟩

/-- The task empties a word, spawns another one that waits for it and for a full one, and fills
the word; then no call is left and the other one was enqueued. -/
theorem precond_exact_fill :
    Start oneTask ∧ ∃ tasks s, Run Step oneTask tasks s ∧ s.spawned 1 = some [8, 16] ∧
      s.history 1 = [.observed 2 16, .observed 1 8, .freed, .ready] ∧ s.released 0 = [1, 0] ∧
      (∀ me, (s.pcs me).head = none → Launched s me) ∧
      ∃ queue, StartedOnce s 1 [8, 16] ∨ WaitsEmpty s queue 1 := by
  have run : ∃ s, Run Step oneTask (List.replicate 18 0) s ∧ s.spawned 1 = some [8, 16] ∧
      s.history 1 = [.observed 2 16, .observed 1 8, .freed, .ready] ∧ s.released 0 = [1, 0] ∧
      s.pcs 0 = .idle :=
    ⟨_,
      .cons (.createEmpty (.empty 8) rfl rfl rfl rfl) <|
      .cons (.spawn 1 [8, 16] rfl rfl rfl (by decide)) <|
      .cons (.checkMissing rfl rfl rfl rfl) <|
      .cons (.checkFound rfl rfl rfl rfl rfl) <|
      .cons (.checkWait 0 rfl rfl rfl rfl) <|
      .cons (.found (.fill 8) rfl rfl rfl rfl) <|
      .cons (.begin rfl rfl (.inl rfl)) <|
      .cons (.collectFirst 1 rfl rfl rfl rfl rfl rfl) <|
      .cons (.filled rfl rfl rfl rfl) <|
      .cons (.unlock rfl rfl) <|
      .cons (.launch rfl rfl (by decide)) <|
      .cons (.next rfl rfl rfl) <|
      .cons (.checkFound rfl rfl rfl rfl rfl) <|
      .cons (.checkFull rfl rfl rfl rfl) <|
      .cons (.checkDone rfl rfl) <|
      .cons (.ready rfl) <|
      .cons (.handledLast rfl rfl) <|
      .cons (.removed rfl rfl rfl rfl) <|
      .nil _, rfl, rfl, rfl, rfl⟩
  obtain ⟨s, run, spawned, history, released, idle⟩ := run
  obtain ⟨⟨queue, _, _, _, _, _, _, settled⟩, _, _, launched, _, _⟩ :=
    precond_exact oneTask_start run
  refine ⟨oneTask_start, _, s, run, spawned, history, released, launched, queue,
    settled (fun me _ _ => .inl ?_) 1 [8, 16] spawned⟩
  by_cases mine : me = 0
  · rw [mine, idle]
  · exact pcs_run run fun member => mine (List.eq_of_mem_replicate member)

end Qthreads.Precond
