import Qthreads.Precond.Stages

namespace Qthreads.Precond

open Feb (Task ThreadState qalign)
open Feb.Steps (Op Queue Gotlock)
open Lib
open Function (update update_of_ne update_self update_eq_self update_apply)

def Pc.Ahead : Pc → Prop
  | .next head tail _ => head ≠ tail
  | _ => True

structure Kept (s : State) (queue : UInt64 → Queue → List Nat) (side : Task → List Nat)
    (spot : Nat → Spot) (place : Task → Place) : Prop where
  lists : Lists s queue side spot
  waiting : Waiting s.waiter s.threads s.pcs place spot
  stages : Stages s
  batches : ∀ me, Batch (s.released me) (s.batch me) (s.drained me) (s.launched me) s.waiter
    (s.pcs me) (side me)
  ahead : ∀ me, (s.pcs me).Ahead
  atHome : AtHome s spot

def Sound (s : State) : Prop := ∃ queue side spot place, Kept s queue side spot place

variable {s after : State} {queue : UInt64 → Queue → List Nat} {side : Task → List Nat}
  {spot moved : Nat → Spot} {place : Task → Place} {me t : Task} {pc : Pc} {maddr : UInt64}
  {q : Queue} {x head : Nat} {m new : Stat}

section

variable (stats : after.stat = update s.stat maddr (some new))
include stats

theorem first_put
    (known : s.stat maddr = some m) (heads : new.head = m.head) : after.first = s.first := by
  funext other q
  by_cases same : other = maddr
  · subst same
    simp [State.first, stats, known, heads]
  · simp [State.first, stats, same]

theorem first_setHead {value : Option Nat}
    (known : s.stat maddr = some m) (heads : new.head = update m.head q value) :
    after.first = set s.first maddr q value := by
  funext other r
  by_cases same : other = maddr
  · subst same
    by_cases queues : r = q
    · subst queues
      rw [set_self]
      simp [State.first, stats, heads]
    · rw [set_other _ _ (fun both => queues both.2)]
      simp [State.first, stats, known, heads, queues]
  · rw [set_other _ _ (fun both => same both.1)]
    simp [State.first, stats, same]

theorem first_create
    (missing : s.stat maddr = none) (heads : new.head = fun _ => none) : after.first = s.first := by
  funext other q
  by_cases same : other = maddr
  · subst same
    simp [State.first, stats, missing, heads]
  · simp [State.first, stats, same]

end

theorem first_remove (stats : after.stat = update s.stat maddr none)
    (known : s.stat maddr = some m) (unused : m.unused = true) : after.first = s.first := by
  simp only [Stat.unused, Bool.and_eq_true, Option.isNone_iff_eq_none] at unused
  funext other q
  by_cases same : other = maddr
  · subst same
    simp only [State.first, stats, known, update_self, Option.bind_none, Option.bind_some]
    cases q <;> simp [unused]
  · simp [State.first, stats, same]

theorem first_known (known : s.stat maddr = some m) (q : Queue) : s.first maddr q = m.head q := by
  simp [State.first, known]

theorem Kept.stillAhead (kept : Kept s queue side spot place)
    (moves : after.pcs = update s.pcs me pc) (ahead : pc.Ahead) (other : Task) :
    (after.pcs other).Ahead := by
  rw [moves]
  by_cases mine : other = me
  · subst mine
    rw [update_self]
    exact ahead
  · rw [update_of_ne mine]
    exact kept.ahead other

theorem Kept.stillAtHome (kept : Kept s queue side spot place)
    (queued : ∀ y at_, moved y = .queue at_ .FFQ → spot y = .queue at_ .FFQ)
    (waiter : ∀ y at_, spot y = .queue at_ .FFQ → after.waiter y = s.waiter y)
    (same : ∀ other y, place other = .node y → after.preconds other = s.preconds other ∧
      (after.threads other = .nascent → s.threads other = .nascent)) : AtHome after moved := by
  intro y at_ other inside waits nascent
  have before := queued y at_ inside
  rw [waiter y at_ before] at waits
  have stands := kept.waiting.stands (by rw [before]; trivial) waits
  obtain ⟨preconds, threads⟩ := same other y stands
  exact (kept.atHome y at_ other before waits (threads nascent)).congr preconds

theorem queue_of_update {value : Spot} {y : Nat} (apart : ∀ at_, value ≠ .queue at_ .FFQ)
    (here : update spot x value y = .queue maddr .FFQ) : spot y = .queue maddr .FFQ := by
  rw [update_apply] at here
  split at here
  · exact absurd here (apart maddr)
  · exact here

def SameBatches (s after : State) : Prop :=
  after.released = s.released ∧ after.batch = s.batch ∧ after.drained = s.drained ∧
    after.launched = s.launched

def SameStages (s after : State) : Prop :=
  after.spawned = s.spawned ∧ after.history = s.history ∧ after.preconds = s.preconds

section

variable (kept : Kept s queue side spot place)
include kept

theorem Kept.sameBatches (batches : SameBatches s after)
    (moves : after.pcs = update s.pcs me pc)
    (waiter : ∀ x other, x ∈ side other → after.waiter x = s.waiter x)
    (heads : pc.head = (s.pcs me).head) (collecting : pc.Collecting → (s.pcs me).Collecting)
    (other : Task) : Batch (after.released other) (after.batch other) (after.drained other)
      (after.launched other) after.waiter (after.pcs other) (side other) := by
  obtain ⟨released, batch, drained, launched⟩ := batches
  rw [released, batch, drained, launched, moves]
  by_cases mine : other = me
  · subst mine
    rw [update_self]
    exact (kept.batches other).congr (fun x member => waiter x other member) heads collecting
  · rw [update_of_ne mine]
    exact (kept.batches other).congr (fun x member => waiter x other member) rfl id

section

variable (moves : after.pcs = update s.pcs me pc)
include moves

theorem Kept.stages_moved (told : SameStages s after) (finds : pc.finds = (s.pcs me).finds)
    (nascent : ∀ other, after.threads other = .nascent ↔ s.threads other = .nascent)
    (unborn : ∀ other, after.threads other = .unborn → s.threads other = .unborn)
    (word : ∀ t this return_, pc = .checking t this return_ →
      ∃ k words, s.preconds t = some (k + 1, words) ∧ words[k]? = some this) : Stages after := by
  refine kept.stages.frame told.1 told.2.1 told.2.2 nascent unborn (fun t => ?_) ?_
  · rw [moves]
    exact found_update finds t
  · intro other t this return_ there
    rw [moves] at there
    by_cases mine : other = me
    · subst mine
      rw [update_self] at there
      exact .inr (word t this return_ there)
    · rw [update_of_ne mine] at there
      exact .inl there

theorem Kept.stages_move (threads : after.threads = s.threads)
    (told : SameStages s after) (finds : pc.finds = (s.pcs me).finds)
    (word : ∀ t this return_, pc = .checking t this return_ →
      ∃ k words, s.preconds t = some (k + 1, words) ∧ words[k]? = some this) : Stages after :=
  kept.stages_moved moves told finds (fun t => by rw [threads])
    (fun t waits => by rwa [threads] at waits) word

theorem Kept.quiet (next : after.next = s.next)
    (waiter : after.waiter = s.waiter) (used : after.used = s.used) (first : after.first = s.first)
    (threads : after.threads = s.threads) (told : SameStages s after)
    (batches : SameBatches s after)
    (heads : pc.head = (s.pcs me).head) (tails : pc.tail s.waiter = (s.pcs me).tail s.waiter)
    (checks : pc.checks = (s.pcs me).checks) (finds : pc.finds = (s.pcs me).finds)
    (active : pc.Active → s.threads me = .running)
    (collecting : pc.Collecting → (s.pcs me).Collecting)
    (word : ∀ t this return_, pc = .checking t this return_ →
      ∃ k words, s.preconds t = some (k + 1, words) ∧ words[k]? = some this)
    (ahead : pc.Ahead) : Kept after queue side spot place where
  lists := kept.lists.quiet moves heads tails next waiter used first
  waiting := by
    rw [waiter, threads, moves]
    exact kept.waiting.move checks finds active
  stages := kept.stages_move moves threads told finds word
  batches := kept.sameBatches batches moves (fun _ _ _ => by rw [waiter]) heads collecting
  ahead := kept.stillAhead moves ahead
  atHome := kept.stillAtHome (fun _ _ here => here) (fun _ _ _ => by rw [waiter])
    fun _ _ _ => ⟨by rw [told.2.2], fun is => threads ▸ is⟩

end

theorem Kept.running (here : s.pcs me = pc) (active : pc.Active) : s.threads me = .running :=
  kept.waiting.active me (here ▸ active)

end

theorem Kept.blocked (kept : Kept s queue side spot place) (waits : s.waiter x = .task t)
    (known : spot x = .queue maddr q) (out : q ≠ .FFQ ∨ s.threads t ≠ .nascent) :
    s.threads t = .febBlocked := by
  have stands := kept.waiting.stands (by rw [known]; trivial) waits
  rcases kept.waiting.atNode t x stands with ⟨nascent, inside⟩ | ⟨blocked, -⟩
  · rw [known] at inside
    rcases out with other | awake
    · exact absurd inside other
    · exact absurd nascent awake
  · exact blocked

theorem Kept.wake (kept : Kept s queue side spot place)
    (moves : after.pcs = update s.pcs me pc) (here : s.first maddr q = some x)
    (waits : s.waiter x = .task t) (out : q ≠ .FFQ ∨ s.threads t ≠ .nascent)
    (next : after.next = s.next) (waiter : after.waiter = s.waiter)
    (used : after.used = update s.used x false)
    (first : after.first = set s.first maddr q (s.next x))
    (threads : after.threads = update s.threads t .running)
    (told : SameStages s after) (batches : SameBatches s after)
    (heads : pc.head = (s.pcs me).head) (tails : pc.tail s.waiter = (s.pcs me).tail s.waiter)
    (checks : pc.checks = (s.pcs me).checks) (finds : pc.finds = (s.pcs me).finds)
    (active : (s.pcs me).Active) (collecting : pc.Collecting → (s.pcs me).Collecting)
    (word : ∀ t this return_, pc ≠ .checking t this return_) (ahead : pc.Ahead) :
    Sound after := by
  obtain ⟨known, lists⟩ := kept.lists.popFree moves heads tails here next waiter used first
  have blocked := kept.blocked waits known out
  have waiting := kept.waiting.wake waits (by rw [known]; trivial)
  refine ⟨_, side, _, update place t .free, lists, ?_, ?_, ?_,
    kept.stillAhead moves ahead, ?_⟩
  · rw [waiter, threads, moves]
    refine waiting.move checks finds fun _ => ?_
    exact waiting.active me active
  · refine kept.stages_moved moves told finds ?_ ?_
      fun t this return_ is => absurd is (word t this return_)
    · intro other
      rw [threads, update_apply]
      split
      · next same => simp [same, blocked]
      · rfl
    · intro other waits
      rw [threads, update_apply] at waits
      split at waits
      · cases waits
      · exact waits
  · exact kept.sameBatches batches moves (fun _ _ _ => by rw [waiter]) heads collecting
  · refine kept.stillAtHome (fun _ _ => queue_of_update fun _ => Spot.noConfusion)
      (fun _ _ _ => by rw [waiter]) fun other _ _ => ⟨by rw [told.2.2], fun is => ?_⟩
    rw [threads, update_apply] at is
    split at is
    · cases is
    · exact is

theorem Kept.push {state : ThreadState} (kept : Kept s queue side spot place)
    (moves : after.pcs = update s.pcs me pc) (unused : s.used x = false)
    (next : after.next = update s.next x (s.first maddr q))
    (waiter : after.waiter = update s.waiter x (.task t))
    (used : after.used = update s.used x true)
    (first : after.first = set s.first maddr q (some x))
    (threads : after.threads = update s.threads t state)
    (told : SameStages s after) (batches : SameBatches s after)
    (heads : pc.head = (s.pcs me).head) (tails : pc.tail s.waiter = (s.pcs me).tail s.waiter)
    (was : ∀ y, place t ≠ .node y)
    (now : state = .nascent ∧ q = .FFQ ∨ state = .febBlocked)
    (nascent : state = .nascent ↔ s.threads t = .nascent)
    (checks : ∀ worker, (update s.pcs me pc worker).checks =
      if (s.pcs worker).checks = some t then none else (s.pcs worker).checks)
    (finds : pc.finds = (s.pcs me).finds)
    (active : ∀ other, (update s.pcs me pc other).Active →
      update s.threads t state other = .running)
    (collecting : ¬ pc.Collecting) (word : ∀ t this return_, pc ≠ .checking t this return_)
    (ahead : pc.Ahead) (awaits : state = .nascent → Awaits s t maddr) : Sound after := by
  have free := kept.lists.free_of_unused unused
  refine ⟨_, side, _, update place t (.node x),
    kept.lists.push moves heads tails unused next waiter used first, ?_, ?_, ?_,
    kept.stillAhead moves ahead, ?_⟩
  · rw [waiter, threads, moves]
    refine kept.waiting.queue ?_ was ?_ trivial checks ?_ active
    · rw [free]
      exact id
    · rcases now with ⟨waits, rfl⟩ | blocks
      · exact .inl ⟨waits, rfl⟩
      · exact .inr ⟨blocks, trivial⟩
    · intro other worker _
      by_cases mine : worker = me
      · subst mine
        rw [update_self, finds]
      · rw [update_of_ne mine]
  · refine kept.stages_moved moves told finds ?_ ?_
      fun t this return_ is => absurd is (word t this return_)
    · intro other
      rw [threads, update_apply]
      split
      · next same =>
          rw [same]
          exact nascent
      · rfl
    · intro other waits
      rw [threads, update_apply] at waits
      split at waits
      · rcases now with ⟨is, -⟩ | is <;> rw [is] at waits <;> cases waits
      · exact waits
  · refine kept.sameBatches batches moves (fun y other member => ?_) heads
      (fun here => absurd here collecting)
    rw [waiter]
    refine update_of_ne ?_ ..
    rintro rfl
    rw [kept.lists.sides.member, free] at member
    cases member
  · have others : AtHome after spot := by
      refine kept.stillAtHome (fun _ _ here => here) ?_ ?_
      · intro y at_ queued
        rw [waiter]
        refine update_of_ne ?_ ..
        rintro rfl
        rw [free] at queued
        cases queued
      · intro other y stands
        refine ⟨by rw [told.2.2], fun is => ?_⟩
        rw [threads, update_of_ne] at is
        · exact is
        · rintro rfl
          exact was y stands
    intro y at_ other inside waits is
    by_cases same : y = x
    · subst same
      rw [update_self] at inside
      cases inside
      rw [waiter, update_self] at waits
      cases waits
      rw [threads, update_self] at is
      exact (awaits is).congr (by rw [told.2.2])
    · rw [update_of_ne same] at inside
      exact others y at_ other inside waits is

theorem Kept.batches_mine (kept : Kept s queue side spot place) {mine : List Nat}
    (others : ∀ other, other ≠ me → after.released other = s.released other ∧
      after.batch other = s.batch other ∧ after.drained other = s.drained other ∧
      after.launched other = s.launched other ∧ after.pcs other = s.pcs other)
    (waiter : ∀ x other, other ≠ me → x ∈ side other → after.waiter x = s.waiter x)
    (batch : Batch (after.released me) (after.batch me) (after.drained me) (after.launched me)
      after.waiter (after.pcs me) mine) (other : Task) :
    Batch (after.released other) (after.batch other) (after.drained other) (after.launched other)
      after.waiter (after.pcs other) (update side me mine other) := by
  by_cases same : other = me
  · subst same
    rw [update_self]
    exact batch
  · obtain ⟨released, batch, drained, launched, pcs⟩ := others other same
    rw [update_of_ne same, released, batch, drained, launched, pcs]
    exact (kept.batches other).congr (fun x member => waiter x other same member) rfl id

variable {outer : Gotlock}

theorem Kept.createHead (kept : Kept s queue side spot place)
    (here : s.pcs me = .filling outer maddr none) (unused : s.used head = false) :
    Kept ((s.createHead me head).goto me (.filling outer maddr (some head))) queue
      (update side me []) (update spot head (.head me)) place := by
  have free := kept.lists.free_of_unused unused
  have noHead : (s.pcs me).head = none := by rw [here]; rfl
  have tails : Pc.tail (update s.waiter head (.node head))
      (.filling outer maddr (some head)) = some head := by
    simp [Pc.tail, lastOf]
  obtain ⟨empty, lists⟩ : side me = [] ∧
      Lists ((s.createHead me head).goto me (.filling outer maddr (some head))) queue
        (update side me []) (update spot head (.head me)) :=
    kept.lists.createHead rfl noHead rfl tails unused rfl rfl rfl rfl
  refine ⟨lists, ?_, kept.stages_move rfl rfl ⟨rfl, rfl, rfl⟩ (by rw [here]; rfl)
    (by rintro _ _ _ ⟨⟩), ?_,
    kept.stillAhead rfl trivial,
    kept.stillAtHome (fun _ _ => queue_of_update fun _ => Spot.noConfusion) ?_ fun _ _ _ => ⟨rfl, id⟩⟩
  · have waiting : Waiting (update s.waiter head (.node head)) s.threads s.pcs place
        (update spot head (.head me)) :=
      kept.waiting.unlisted (by rw [free]; exact id) id fun _ differs =>
        update_of_ne differs ..
    exact waiting.move (by rw [here]; rfl) (by rw [here]; rfl) (fun _ => kept.running here trivial)
  · have old := kept.batches me
    obtain ⟨released, launched⟩ := old.collecting (by rw [here]; trivial)
    have nodes := old.nodes
    have tasks := old.tasks
    rw [released, noHead, empty] at nodes
    rw [launched, empty] at tasks
    refine kept.batches_mine ?_ ?_ ?_
    · intro other differs
      exact ⟨rfl, update_of_ne differs .., rfl, rfl, update_of_ne differs ..⟩
    · intro y other _ member
      refine update_of_ne ?_ ..
      rintro rfl
      rw [kept.lists.sides.member, free] at member
      cases member
    · simp only [State.goto, State.createHead, State.alloc, update_self, ← nodes, released]
      exact ⟨rfl, List.nodup_singleton head, by rw [tasks, launched]; rfl,
        fun _ => ⟨rfl, launched⟩⟩
  · intro y at_ queued
    refine update_of_ne ?_ ..
    rintro rfl
    rw [free] at queued
    cases queued

theorem Kept.collect {last : Nat} (kept : Kept s queue side spot place)
    (here : s.pcs me = .filling outer maddr (some head)) (tail : s.waiter head = .node last)
    (front : s.first maddr .FFQ = some x) (waits : s.waiter x = .task t)
    (nascent : s.threads t = .nascent) (pcs : after.pcs = s.pcs)
    (next : after.next = update s.next last (some x))
    (waiter : after.waiter = update s.waiter head (.node x)) (used : after.used = s.used)
    (first : after.first = set s.first maddr .FFQ (s.next x)) (threads : after.threads = s.threads)
    (told : SameStages s after) (released : after.released = s.released)
    (launched : after.launched = s.launched)
    (drained : after.drained = update s.drained me (s.drained me ++ [t]))
    (batch : after.batch = update s.batch me (s.batch me ++ [x])) : Sound after := by
  have moves : after.pcs = update s.pcs me (s.pcs me) := by
    rw [pcs, update_eq_self]
  have heads : (s.pcs me).head = some head := by rw [here]; rfl
  have headSpot := (kept.lists.sides.headed me head).mp heads
  obtain ⟨known, lists⟩ := kept.lists.collect moves heads (by simp [here, Pc.tail, lastOf, tail])
    heads (by simp [here, Pc.tail, lastOf, waiter]) front next waiter used first
  have stands := kept.waiting.stands (by rw [known]; trivial) waits
  refine ⟨_, _, _, place, lists, ?_, ?_, ?_, fun other => by rw [pcs]; exact kept.ahead other,
    kept.stillAtHome (fun _ _ => queue_of_update fun _ => Spot.noConfusion) ?_
      fun _ _ _ => ⟨by rw [told.2.2], fun is => threads ▸ is⟩⟩
  · have unlisted : Waiting after.waiter s.threads s.pcs place
        (update spot head (.head me)) :=
      kept.waiting.unlisted (by rw [headSpot]; exact id) id fun y differs => by
        rw [waiter, update_of_ne differs]
    rw [← headSpot, update_eq_self] at unlisted
    rw [threads, pcs]
    exact unlisted.relist stands nascent trivial trivial
  · refine kept.stages_move moves threads told rfl ?_
    rw [here]
    rintro _ _ _ ⟨⟩
  · have old := kept.batches me
    obtain ⟨noneReleased, noneLaunched⟩ := old.collecting (by rw [here]; trivial)
    have nodes := old.nodes
    have tasks := old.tasks
    have absent : x ∉ s.batch me := by
      rw [← nodes, noneReleased, heads]
      intro member
      have member : x ∈ head :: side me := member
      rcases List.mem_cons.mp member with rfl | inside
      · rw [headSpot] at known
        cases known
      · rw [kept.lists.sides.member, known] at inside
        cases inside
    have sideWaiters : ∀ y other, y ∈ side other → after.waiter y = s.waiter y := by
      intro y other member
      rw [waiter]
      refine update_of_ne ?_ ..
      rintro rfl
      rw [kept.lists.sides.member, headSpot] at member
      cases member
    have apart : x ≠ head := by
      rintro rfl
      rw [headSpot] at known
      cases known
    refine kept.batches_mine ?_ (fun y other _ => sideWaiters y other) ?_
    · intro other differs
      rw [released, launched, drained, batch, pcs, update_of_ne differs,
        update_of_ne differs]
      exact ⟨rfl, rfl, rfl, rfl, rfl⟩
    · rw [released, launched, drained, batch, pcs, update_self, update_self]
      refine ⟨?_, ?_, ?_, fun _ => ⟨noneReleased, noneLaunched⟩⟩
      · rw [← nodes]
        simp
      · rw [List.nodup_append]
        refine ⟨old.once, List.nodup_singleton x, ?_⟩
        rintro a inside b atEnd rfl
        rw [List.mem_singleton] at atEnd
        exact absent (atEnd ▸ inside)
      · have mine : (side me).map after.waiter = (side me).map s.waiter :=
          List.map_congr_left fun y member => sideWaiters y me member
        rw [List.map_append, tasks, List.map_append, mine, List.append_assoc]
        simp [waiter, update_of_ne apart, waits]
  · intro y at_ queued
    rw [waiter]
    refine update_of_ne ?_ ..
    rintro rfl
    rw [headSpot] at queued
    cases queued

theorem Kept.drop {remove : Option UInt64} (kept : Kept s queue side spot place)
    (heads : (s.pcs me).head = some head) (ends : (s.pcs me).tail s.waiter = some head)
    (checks : (s.pcs me).checks = none) (finds : (s.pcs me).finds = none)
    (running : s.threads me = .running) :
    Sound ((s.release me head).goto me (leave remove)) := by
  have left : (leave remove).head = none ∧ (leave remove).checks = none ∧
      (leave remove).finds = none ∧ ¬ (leave remove).Collecting ∧ (leave remove).Ahead ∧
      ∀ t this return_, leave remove ≠ .checking t this return_ := by
    cases remove with
    | none => exact ⟨rfl, rfl, rfl, id, trivial, nofun⟩
    | some maddr => exact ⟨rfl, rfl, rfl, id, trivial, nofun⟩
  obtain ⟨noHead, noChecks, noFinds, notCollecting, ahead, notChecking⟩ := left
  obtain ⟨empty, headSpot, lists⟩ : side me = [] ∧ spot head = .head me ∧
      Lists ((s.release me head).goto me (leave remove)) queue (update side me [])
        (update spot head .free) :=
    kept.lists.dropHead rfl heads ends noHead rfl rfl rfl rfl
  refine ⟨queue, _, _, place, lists, ?_,
    kept.stages_move rfl rfl ⟨rfl, rfl, rfl⟩ (by rw [noFinds, finds])
      fun t this back is => absurd is (notChecking t this back), ?_,
    kept.stillAhead rfl ahead,
    kept.stillAtHome (fun _ _ => queue_of_update fun _ => Spot.noConfusion) (fun _ _ _ => rfl)
      fun _ _ _ => ⟨rfl, id⟩⟩
  · have waiting : Waiting s.waiter s.threads s.pcs place (update spot head .free) :=
      kept.waiting.unlisted (by rw [headSpot]; exact id) id fun _ _ => rfl
    exact waiting.move (by rw [noChecks, checks]) (by rw [noFinds, finds]) (fun _ => running)
  · have old := kept.batches me
    have nodes := old.nodes
    rw [heads, empty] at nodes
    refine kept.batches_mine ?_ (fun _ _ _ _ => rfl) ?_
    · intro other differs
      exact ⟨update_of_ne differs .., rfl, rfl, rfl, update_of_ne differs ..⟩
    · simp only [State.goto, State.release, State.free, update_self]
      refine ⟨?_, old.once, ?_, fun here => absurd here notCollecting⟩
      · rw [noHead, ← nodes]
        simp
      · rw [old.tasks, empty]

theorem Kept.next {tail : Nat} {remove : Option UInt64} (kept : Kept s queue side spot place)
    (here : s.pcs me = .next head tail remove) (behind : s.next head = some x)
    (waits : s.waiter x = .task t) :
    Sound (((s.release me head).launch me t).goto me (.check t (.launch x tail remove))) := by
  have heads : (s.pcs me).head = some head := by rw [here]; rfl
  have running := kept.running here trivial
  have more : (s.pcs me).tail s.waiter ≠ some head := by
    have ahead := kept.ahead me
    rw [here] at ahead ⊢
    intro same
    exact ahead (Option.some.inj same).symm
  obtain ⟨rest, shape, headSpot, sideSpot, lists⟩ : ∃ rest, side me = x :: rest ∧
      spot head = .head me ∧ spot x = .side me ∧
      Lists (((s.release me head).launch me t).goto me (.check t (.launch x tail remove))) queue
        (update side me rest)
        (update (update spot head .free) x (.head me)) :=
    kept.lists.advance rfl heads behind more rfl (by rw [here]; rfl) rfl rfl rfl rfl
  have stands := kept.waiting.stands (by rw [sideSpot]; trivial) waits
  have nascent : s.threads t = .nascent := by
    rcases kept.waiting.atNode t x stands with ⟨nascent, -⟩ | ⟨-, queued⟩
    · exact nascent
    · rw [sideSpot] at queued
      exact queued.elim
  have differs : t ≠ me := by
    rintro rfl
    rw [running] at nascent
    cases nascent
  have inactive : ¬ (s.pcs t).Active := by
    intro busy
    rw [kept.waiting.active t busy] at nascent
    cases nascent
  refine ⟨queue, _, _, update place t (.worker me), lists, ?_,
    kept.stages_move rfl rfl ⟨rfl, rfl, rfl⟩ (by rw [here]; rfl) nofun, ?_,
    kept.stillAhead rfl trivial,
    kept.stillAtHome (fun _ _ here => ?_) (fun _ _ _ => rfl) fun _ _ _ => ⟨rfl, id⟩⟩
  · have waiting : Waiting s.waiter (update s.threads t .nascent)
        (update s.pcs me (.check t (.launch x tail remove)))
        (update place t (.worker me))
        (update (update spot head .free) x (.head me)) := by
      refine kept.waiting.take (.inr ⟨x, stands, ?_⟩) (by rw [here]; rfl) rfl rfl
        (by rw [here]; rfl) ?_ ?_ running inactive differs
      · rw [update_self]
        exact id
      · intro y listed
        by_cases same : y = x
        · subst same
          rw [update_self] at listed
          exact listed.elim
        · rw [update_of_ne same] at listed ⊢
          by_cases first : y = head
          · subst first
            rw [update_self] at listed
            exact listed.elim
          · rw [update_of_ne first]
      · intro y listed elsewhere
        rw [update_of_ne, update_of_ne]
        · rintro rfl
          rw [headSpot] at listed
          exact listed
        · rintro rfl
          exact elsewhere stands
    rw [← nascent, update_eq_self] at waiting
    exact waiting
  · have old := kept.batches me
    have nodes := old.nodes
    have tasks := old.tasks
    rw [heads, shape] at nodes
    rw [shape] at tasks
    refine kept.batches_mine ?_ (fun _ _ _ _ => rfl) ?_
    · intro other apart
      exact ⟨update_of_ne apart .., rfl, rfl, update_of_ne apart ..,
        update_of_ne apart ..⟩
    · simp only [State.goto, State.launch, State.release, State.free, update_self]
      refine ⟨?_, old.once, ?_, nofun⟩
      · rw [← nodes]
        simp [Pc.head, Return.head]
      · rw [tasks]
        simp [waits]
  · exact queue_of_update (fun _ => Spot.noConfusion)
      (queue_of_update (fun _ => Spot.noConfusion) here)

theorem Kept.checked (kept : Kept s queue side spot place) (checks : (s.pcs me).checks = some t) :
    t ≠ me ∧ ¬ (s.pcs t).Active ∧ ∀ other, (s.pcs other).checks = some t → other = me := by
  have stands := (kept.waiting.checked t me).mpr checks
  have state := kept.waiting.atWorker t me stands
  have asleep : s.threads t ≠ .running := by
    rw [state]
    split <;> exact ThreadState.noConfusion
  have inactive : ¬ (s.pcs t).Active := fun busy => asleep (kept.waiting.active t busy)
  refine ⟨?_, inactive, ?_⟩
  · rintro rfl
    refine inactive ?_
    cases pc : s.pcs t with
    | check _ _ | checking _ _ _ | ready _ _ => trivial
    | _ =>
      rw [pc] at checks
      cases checks
  · intro other there
    have same := (kept.waiting.checked t other).mpr there
    rw [stands] at same
    exact (Place.worker.inj same).symm

variable {return_ : Return} {this : UInt64}

theorem checks_of_checking
    (here : s.pcs me = .checking t this return_) : (s.pcs me).checks = some t := by
  rw [here]
  rfl

variable {words : List UInt64}

theorem Kept.observe {k : Nat}
    (kept : Kept s queue side spot place) (checks : (s.pcs me).checks = some t)
    (unfound : (s.pcs me).finds = none) (array : s.preconds t = some (k + 1, words))
    (word : words[k]? = some this)
    (moves : after.pcs = update s.pcs me (.check t return_))
    (heads : (s.pcs me).head = return_.head) (tails : (s.pcs me).tail s.waiter = return_.tail)
    (next : after.next = s.next) (waiter : after.waiter = s.waiter) (used : after.used = s.used)
    (first : after.first = s.first) (threads : after.threads = s.threads)
    (spawned : after.spawned = s.spawned)
    (preconds : after.preconds = update s.preconds t (some (k, words)))
    (history : after.history =
      update s.history t (s.history t ++ [.observed (k + 1) this]))
    (batches : SameBatches s after) (running : s.threads me = .running) : Sound after := by
  obtain ⟨-, -, only⟩ := kept.checked checks
  obtain ⟨known, count, spawnedWords, stored, bound, whole, nascent⟩ :=
    kept.stages.array kept.waiting checks unfound
  rw [array] at stored
  cases stored
  have finds : (Pc.check t return_).finds = (s.pcs me).finds := by rw [unfound]; rfl
  refine ⟨queue, side, spot, place,
    kept.lists.quiet moves heads.symm tails.symm next waiter used first, ?_, ?_,
    kept.sameBatches batches moves (fun _ _ _ => by rw [waiter]) heads.symm nofun,
    kept.stillAhead moves trivial,
    kept.stillAtHome (fun _ _ here => here) (fun _ _ _ => by rw [waiter]) ?_⟩
  · rw [waiter, threads, moves]
    exact kept.waiting.move (by rw [checks]; rfl) finds (fun _ => running)
  · refine kept.stages.change t (fun _ _ => by rw [spawned]) ?_ ?_ (fun _ _ => by rw [threads]) ?_
      (by rw [spawned]; exact spawnedWords) ?_ (by rw [threads, nascent]; exact ThreadState.noConfusion)
      ?_
    · intro other differs
      rw [history, update_of_ne differs]
    · intro other differs
      rw [preconds, update_of_ne differs]
    · intro other _
      rw [moves]
      exact found_update finds other
    · refine ⟨remaining words k, ?_, ?_⟩
      · rw [history, update_self, ← whole, List.append_assoc]
        simp [remaining, List.getD_eq_getElem?_getD, word]
      · rw [preconds, update_self, threads]
        exact .observes k rfl (by omega) nascent
    · refine checking_elsewhere moves (by rintro _ _ _ ⟨⟩) ?_
      exact fun worker _ _ there => only worker (checks_of_checking there)
  · intro other y stands
    refine ⟨?_, fun is => threads ▸ is⟩
    rw [preconds, update_of_ne]
    rintro rfl
    rw [(kept.waiting.checked other me).mpr checks] at stands
    cases stands

theorem Kept.checkDone (kept : Kept s queue side spot place) (here : s.pcs me = .check t return_)
    (array : s.preconds t = some (0, words)) :
    Sound ((((s.setThread t .new).setPreconds t none).note t .freed).goto me
      (.ready t return_)) := by
  have checks : (s.pcs me).checks = some t := by rw [here]; rfl
  have unfound : (s.pcs me).finds = none := by rw [here]; rfl
  obtain ⟨differs, inactive, only⟩ := kept.checked checks
  obtain ⟨known, count, spawnedWords, stored, bound, whole, nascent⟩ :=
    kept.stages.array kept.waiting checks unfound
  rw [array] at stored
  cases stored
  have stands := (kept.waiting.checked t me).mpr checks
  refine ⟨queue, side, spot, update place t (.worker me),
    kept.lists.quiet rfl (by rw [here]; rfl) (by rw [here]; rfl) rfl rfl rfl rfl, ?_, ?_,
    kept.sameBatches ⟨rfl, rfl, rfl, rfl⟩ rfl (fun _ _ _ => rfl) (by rw [here]; rfl) nofun,
    kept.stillAhead rfl trivial,
    kept.stillAtHome (fun _ _ here => here) (fun _ _ _ => rfl) ?_⟩
  · exact kept.waiting.settle checks (.inl ⟨rfl, rfl, by simp [Pc.finds]⟩)
      (kept.running here trivial) inactive differs
  · refine kept.stages.change t (fun _ _ => rfl) (fun _ apart => update_of_ne apart ..)
      (fun _ apart => update_of_ne apart ..)
      (fun _ apart => update_of_ne apart ..) ?_ spawnedWords ?_ ?_ ?_
    · refine fun other => found_elsewhere (s := s) ?_ ?_
      · rw [unfound]
        rintro _ ⟨⟩
      · rintro _ ⟨⟩
        rfl
    · refine ⟨[.ready], ?_, ?_⟩
      · simp only [State.goto, State.note, State.setPreconds, State.setThread, update_self]
        rw [← whole, List.append_assoc]
        rfl
      · simp only [State.goto, State.note, State.setPreconds, State.setThread, update_self]
        refine .found rfl ThreadState.noConfusion ThreadState.noConfusion ⟨me, ?_⟩
        rw [update_self]
        rfl
    · simp [State.goto, State.note, State.setPreconds, State.setThread]
    · refine checking_elsewhere rfl (by rintro _ _ _ ⟨⟩) ?_
      exact fun worker _ _ there => only worker (checks_of_checking there)
  · intro other y at_
    have apart : other ≠ t := by
      rintro rfl
      rw [stands] at at_
      cases at_
    exact ⟨update_of_ne apart .., fun is => (update_of_ne apart ..).symm.trans is⟩

theorem after_fields (return_ : Return) (waiter : Nat → Waiter) :
    return_.after.head = return_.head ∧ return_.after.tail waiter = return_.tail ∧
      return_.after.checks = none ∧ return_.after.finds = none ∧ ¬ return_.after.Collecting ∧
      return_.after.Ahead ∧ ∀ t this back, return_.after ≠ .checking t this back := by
  cases return_ with
  | spawn => exact ⟨rfl, rfl, rfl, rfl, id, trivial, nofun⟩
  | launch head tail remove => exact ⟨rfl, rfl, rfl, rfl, id, trivial, nofun⟩

theorem Kept.ready (kept : Kept s queue side spot place) (here : s.pcs me = .ready t return_) :
    Sound ((s.note t .ready).goto me return_.after) := by
  have checks : (s.pcs me).checks = some t := by rw [here]; rfl
  have found : (s.pcs me).finds = some t := by rw [here]; rfl
  obtain ⟨differs, inactive, only⟩ := kept.checked checks
  obtain ⟨heads, tails, noChecks, noFinds, notCollecting, ahead, notChecking⟩ :=
    after_fields return_ s.waiter
  have state := kept.waiting.atWorker t me ((kept.waiting.checked t me).mpr checks)
  rw [if_pos found] at state
  refine ⟨queue, side, spot, update place t .free,
    kept.lists.quiet rfl (by rw [here, heads]; rfl) (by rw [here, tails]; rfl) rfl rfl rfl rfl, ?_, ?_,
    kept.sameBatches ⟨rfl, rfl, rfl, rfl⟩ rfl (fun _ _ _ => rfl) (by rw [here, heads]; rfl)
      (fun collects => absurd collects notCollecting),
    kept.stillAhead rfl ahead,
    kept.stillAtHome (fun _ _ here => here) (fun _ _ _ => rfl) fun _ _ _ => ⟨rfl, id⟩⟩
  · have waiting : Waiting s.waiter (update s.threads t .new)
        (update s.pcs me return_.after) (update place t .free) spot :=
      kept.waiting.settle checks (.inr ⟨rfl, noChecks, ThreadState.noConfusion,
        ThreadState.noConfusion⟩) (kept.running here trivial) inactive differs
    rw [← state, update_eq_self] at waiting
    exact waiting
  · have lost : ∀ worker, (update s.pcs me return_.after worker).finds ≠ some t := by
      intro worker finds
      by_cases mine : worker = me
      · subst mine
        rw [update_self, noFinds] at finds
        cases finds
      · rw [update_of_ne mine] at finds
        exact mine (only worker (finds_checks finds))
    cases known : s.spawned t with
    | none => exact absurd known (kept.stages.finds t ⟨me, found⟩)
    | some words =>
      obtain ⟨todo, whole, stage⟩ := kept.stages.staged t words known
      refine kept.stages.change t (fun _ _ => rfl) (fun _ apart => update_of_ne apart ..)
        (fun _ _ => rfl) (fun _ _ => rfl) ?_ known ⟨[], ?_, ?_⟩ ?_ ?_
      · refine fun other => found_elsewhere (s := s) ?_ ?_
        · rw [found]
          rintro _ ⟨⟩
          rfl
        · rw [noFinds]
          rintro _ ⟨⟩
      · cases stage with
        | observes k _ _ nascent =>
          rw [state] at nascent
          cases nascent
        | done _ _ _ lost => exact absurd ⟨me, found⟩ lost
        | found _ _ _ _ =>
          simp only [State.goto, State.note, update_self, List.append_nil]
          exact whole
      · cases stage with
        | observes k _ _ nascent =>
          rw [state] at nascent
          cases nascent
        | done _ _ _ lost => exact absurd ⟨me, found⟩ lost
        | found array waits born _ => exact .done array waits born fun ⟨w, finds⟩ => lost w finds
      · change s.threads t ≠ .unborn
        rw [state]
        exact ThreadState.noConfusion
      · refine checking_elsewhere rfl notChecking ?_
        exact fun worker _ _ there => only worker (checks_of_checking there)

section

variable (kept : Kept s queue side spot place)
include kept

theorem Kept.unborn_free (unborn : s.threads t = .unborn) : place t = .free := by
  cases stands : place t with
  | free => rfl
  | node x =>
    rcases kept.waiting.atNode t x stands with ⟨nascent, -⟩ | ⟨blocked, -⟩
    · rw [unborn] at nascent
      cases nascent
    · rw [unborn] at blocked
      cases blocked
  | worker me =>
    have state := kept.waiting.atWorker t me stands
    rw [unborn] at state
    split at state <;> cases state

theorem Kept.spawn (here : s.pcs me = .idle) (running : s.threads me = .running)
    (unborn : s.threads t = .unborn) : Sound ((s.spawn t words).goto me (.check t .spawn)) := by
  have free := kept.unborn_free unborn
  have differs : t ≠ me := by
    rintro rfl
    rw [running] at unborn
    cases unborn
  have inactive : ¬ (s.pcs t).Active := by
    intro busy
    rw [kept.waiting.active t busy] at unborn
    cases unborn
  have fresh := kept.stages.unborn t unborn
  refine ⟨queue, side, spot, update place t (.worker me),
    kept.lists.quiet rfl (by rw [here]; rfl) (by rw [here]; rfl) rfl rfl rfl rfl, ?_, ?_,
    kept.sameBatches ⟨rfl, rfl, rfl, rfl⟩ rfl (fun _ _ _ => rfl) (by rw [here]; rfl) nofun,
    kept.stillAhead rfl trivial,
    kept.stillAtHome (fun _ _ here => here) (fun _ _ _ => rfl) ?_⟩
  · exact kept.waiting.take (.inl free) (by rw [here]; rfl) rfl rfl (by rw [here]; rfl)
      (fun _ _ => rfl) (fun _ _ _ => rfl) running inactive differs
  · refine kept.stages.change t (fun _ apart => update_of_ne apart ..) (fun _ _ => rfl)
      (fun _ apart => update_of_ne apart ..)
      (fun _ apart => update_of_ne apart ..)
      (fun other _ => found_update (s := s) (by rw [here]; rfl) other) (update_self ..)
      ⟨remaining words words.length, ?_, ?_⟩ ?_ ?_
    · change s.history t ++ _ = _
      rw [kept.stages.plain t fresh]
      rfl
    · simp only [State.goto, State.spawn, update_self]
      exact .observes words.length rfl (Nat.le_refl _) rfl
    · simp [State.goto, State.spawn]
    · refine checking_elsewhere rfl (by rintro _ _ _ ⟨⟩) ?_
      intro worker this back there
      have stands := (kept.waiting.checked t worker).mpr (checks_of_checking there)
      rw [free] at stands
      cases stands
  · intro other y stands
    have apart : other ≠ t := by
      rintro rfl
      rw [free] at stands
      cases stands
    exact ⟨update_of_ne apart .., fun is => (update_of_ne apart ..).symm.trans is⟩

theorem Kept.setThread {state : ThreadState}
    (free : place t = .free) (fine : state ≠ .nascent ∧ state ≠ .febBlocked ∧ state ≠ .unborn)
    (inactive : ¬ (s.pcs t).Active ∨ state = .running) : Sound (s.setThread t state) := by
  have awake := (kept.waiting.away t free).1
  refine ⟨queue, side, spot, place, ⟨kept.lists.queues, kept.lists.sides, kept.lists.used⟩,
    kept.waiting.setThread free ⟨fine.1, fine.2.1⟩ inactive, ?_, kept.batches, kept.ahead,
    kept.stillAtHome (fun _ _ here => here) (fun _ _ _ => rfl) fun other _ _ => ⟨rfl, fun is => ?_⟩⟩
  refine kept.stages.frame rfl rfl rfl ?_ ?_ (fun _ => Iff.rfl) (fun _ _ _ _ there => .inl there)
  · intro other
    simp only [State.setThread, update_apply]
    split
    · next same =>
        subst same
        exact iff_of_false fine.1 awake
    · rfl
  · intro other waits
    simp only [State.setThread, update_apply] at waits
    split at waits
    · exact absurd waits fine.2.2
    · exact waits
  · simp only [State.setThread, update_apply] at is
    split at is
    · exact absurd is fine.1
    · exact is

theorem Kept.start_free (new : s.threads t = .new)
    (enqueued : s.spawned t = none ∨ Event.ready ∈ s.history t) : place t = .free := by
  cases stands : place t with
  | free => rfl
  | node x =>
    rcases kept.waiting.atNode t x stands with ⟨nascent, -⟩ | ⟨blocked, -⟩
    · rw [new] at nascent
      cases nascent
    · rw [new] at blocked
      cases blocked
  | worker me =>
    have state := kept.waiting.atWorker t me stands
    have found : (s.pcs me).finds = some t := by
      by_contra lost
      rw [if_neg lost, new] at state
      cases state
    have spawned := kept.stages.finds t ⟨me, found⟩
    have enqueued := enqueued.resolve_left spawned
    cases known : s.spawned t with
    | none => exact absurd known spawned
    | some words =>
      obtain ⟨todo, whole, stage⟩ := kept.stages.staged t words known
      cases stage with
      | observes k _ _ nascent =>
        rw [new] at nascent
        cases nascent
      | done _ _ _ lost => exact absurd ⟨me, found⟩ lost
      | found _ _ _ _ => exact absurd enqueued (ready_last whole)

end

theorem innerOf_fields (gotlock : Gotlock) (maddr : UInt64) (waiter : Nat → Waiter) :
    (innerOf gotlock maddr none).head = none ∧ (innerOf gotlock maddr none).tail waiter = none ∧
      (innerOf gotlock maddr none).checks = none ∧ (innerOf gotlock maddr none).finds = none ∧
      (innerOf gotlock maddr none).Ahead ∧
      ∀ t this back, innerOf gotlock maddr none ≠ .checking t this back := by
  cases gotlock with
  | fill => exact ⟨rfl, rfl, rfl, rfl, trivial, nofun⟩
  | empty => exact ⟨rfl, rfl, rfl, rfl, trivial, nofun⟩

section

variable (kept : Kept s queue side spot place)
include kept

theorem Kept.begin {gotlock : Gotlock} {op : Op}
    (here : s.pcs me = .alone op) (known : s.stat maddr = some m) :
    Sound (((s.begin me).put maddr (some { m with full := fills gotlock })).goto me
      (innerOf gotlock maddr none)) := by
  obtain ⟨heads, tails, checks, finds, ahead, notChecking⟩ := innerOf_fields gotlock maddr s.waiter
  have empty : side me = [] := by
    have linked := kept.lists.sides.linked me
    rw [here] at linked
    exact linked
  refine ⟨queue, update side me [], spot, place, ?_, ?_, ?_, ?_, kept.stillAhead rfl ahead,
    kept.stillAtHome (fun _ _ here => here) (fun _ _ _ => rfl) fun _ _ _ => ⟨rfl, id⟩⟩
  · rw [← empty, update_eq_self]
    exact kept.lists.quiet rfl (by rw [heads, here]; rfl) (by rw [tails, here]; rfl) rfl rfl rfl
      (first_put rfl known rfl)
  · exact kept.waiting.move (by rw [checks, here]; rfl) (by rw [finds, here]; rfl)
      (fun _ => kept.running here trivial)
  · exact kept.stages_move rfl rfl ⟨rfl, rfl, rfl⟩ (by rw [finds, here]; rfl)
      fun t this back is => absurd is (notChecking t this back)
  · refine kept.batches_mine ?_ (fun _ _ _ _ => rfl) ?_
    · intro other differs
      exact ⟨update_of_ne differs .., update_of_ne differs ..,
        update_of_ne differs .., update_of_ne differs ..,
        update_of_ne differs ..⟩
    · simp only [State.goto, State.put, State.begin, update_self]
      exact ⟨by rw [heads]; rfl, List.nodup_nil, rfl, fun _ => ⟨rfl, rfl⟩⟩

theorem Kept.wait {op : Op} {addr : UInt64}
    (here : s.pcs me = .alone op) (known : s.stat maddr = some m) (unused : s.used x = false) :
    Sound ((((s.alloc x (m.head q) (.task me)).put maddr
      (some (m.setHead q (some x)))).setThread me .febBlocked).goto me (.blocked addr)) := by
  have running := kept.running here trivial
  have unchecked : ∀ worker, (s.pcs worker).checks ≠ some me := by
    intro worker checks
    have state := kept.waiting.atWorker me worker ((kept.waiting.checked me worker).mpr checks)
    rw [running] at state
    split at state <;> cases state
  refine kept.push rfl unused ?_ rfl rfl (first_setHead rfl known rfl) rfl ⟨rfl, rfl, rfl⟩
    ⟨rfl, rfl, rfl, rfl⟩ (by rw [here]; rfl) (by rw [here]; rfl) ?_ (.inr rfl) ?_ ?_
    (by rw [here]; rfl) ?_ id nofun trivial ThreadState.noConfusion
  · rw [first_known known]
    rfl
  · intro y stands
    rcases kept.waiting.atNode me y stands with ⟨nascent, -⟩ | ⟨blocked, -⟩
    · rw [running] at nascent
      cases nascent
    · rw [running] at blocked
      cases blocked
  · rw [running]
    exact iff_of_false ThreadState.noConfusion ThreadState.noConfusion
  · intro worker
    rw [if_neg (unchecked worker)]
    by_cases mine : worker = me
    · subst mine
      rw [update_self, here]
      rfl
    · rw [update_of_ne mine]
  · intro other busy
    by_cases mine : other = me
    · subst mine
      rw [update_self] at busy
      exact busy.elim
    · rw [update_of_ne mine] at busy ⊢
      exact kept.waiting.active other busy

theorem Kept.checkWait (here : s.pcs me = .checking t this return_)
    (known : s.stat (qalign this) = some m) (unused : s.used x = false) :
    Sound ((((s.alloc x (m.head .FFQ) (.task t)).put (qalign this)
      (some { m.setHead .FFQ (some x) with holder := none })).setThread t .nascent).goto me
        return_.after) := by
  have checks := checks_of_checking here
  have running := kept.running here trivial
  obtain ⟨differs, inactive, only⟩ := kept.checked checks
  obtain ⟨heads, tails, noChecks, noFinds, notCollecting, ahead, notChecking⟩ :=
    after_fields return_ s.waiter
  obtain ⟨-, -, -, -, -, -, nascent⟩ := kept.stages.array kept.waiting checks (by rw [here]; rfl)
  have awaits : Awaits s t (qalign this) := by
    obtain ⟨k, words, array, word⟩ := kept.stages.word me t this return_ here
    exact ⟨k, words, this, array, word, rfl⟩
  refine kept.push rfl unused ?_ rfl rfl (first_setHead rfl known rfl) rfl ⟨rfl, rfl, rfl⟩
    ⟨rfl, rfl, rfl, rfl⟩ (by rw [here, heads]; rfl) (by rw [here, tails]; rfl) ?_ (.inl ⟨rfl, rfl⟩)
    (iff_of_true rfl nascent) ?_ (by rw [here, noFinds]; rfl) ?_ notCollecting notChecking ahead
    fun _ => awaits
  · rw [first_known known]
    rfl
  · intro y stands
    rw [(kept.waiting.checked t me).mpr checks] at stands
    cases stands
  · intro worker
    by_cases mine : worker = me
    · subst mine
      rw [update_self, if_pos checks, noChecks]
    · rw [update_of_ne mine, if_neg (fun there => mine (only worker there))]
  · intro other busy
    by_cases same : other = t
    · subst same
      rw [update_of_ne differs] at busy
      exact absurd busy inactive
    · rw [update_of_ne same]
      by_cases mine : other = me
      · subst mine
        exact running
      · rw [update_of_ne mine] at busy
        exact kept.waiting.active other busy

theorem Kept.goOn (moves : after.pcs = update s.pcs me pc) (next : after.next = s.next)
    (waiter : after.waiter = s.waiter) (used : after.used = s.used) (first : after.first = s.first)
    (threads : after.threads = s.threads) (told : SameStages s after)
    (batches : SameBatches s after)
    (same : pc.head = (s.pcs me).head ∧ pc.tail s.waiter = (s.pcs me).tail s.waiter ∧
      pc.checks = (s.pcs me).checks ∧ pc.finds = (s.pcs me).finds)
    (active : pc.Active → s.threads me = .running)
    (collecting : pc.Collecting → (s.pcs me).Collecting)
    (word : ∀ t this return_, pc ≠ .checking t this return_) (ahead : pc.Ahead) : Sound after :=
  ⟨queue, side, spot, place, kept.quiet moves next waiter used first threads told batches same.1
    same.2.1 same.2.2.1 same.2.2.2 active collecting
    (fun t this return_ here => absurd here (word t this return_)) ahead⟩

theorem Kept.unlock {tasks : Option Nat}
    (here : s.pcs me = .unlocking outer maddr tasks) (known : s.stat maddr = some m) :
    Sound ((s.put maddr (some { m with holder := none })).goto me
      (unlocked tasks (if m.removeable outer then some maddr else none))) := by
  have running := kept.running here trivial
  cases tasks with
  | some tasks =>
    refine kept.goOn rfl rfl rfl rfl (first_put rfl known rfl) rfl ⟨rfl, rfl, rfl⟩
      ⟨rfl, rfl, rfl, rfl⟩ ?_ (fun _ => running) (fun _ => by rw [here]; trivial) nofun trivial
    rw [here]
    exact ⟨rfl, rfl, rfl, rfl⟩
  | none =>
    cases m.removeable outer with
    | true =>
      refine kept.goOn rfl rfl rfl rfl (first_put rfl known rfl) rfl ⟨rfl, rfl, rfl⟩
        ⟨rfl, rfl, rfl, rfl⟩ ?_ (fun _ => running) nofun nofun trivial
      rw [here]
      exact ⟨rfl, rfl, rfl, rfl⟩
    | false =>
      refine kept.goOn rfl rfl rfl rfl (first_put rfl known rfl) rfl ⟨rfl, rfl, rfl⟩
        ⟨rfl, rfl, rfl, rfl⟩ ?_ nofun nofun nofun trivial
      rw [here]
      exact ⟨rfl, rfl, rfl, rfl⟩

theorem Kept.collectFirst
    (here : s.pcs me = .filling outer maddr none) (known : s.stat maddr = some m)
    (front : m.head .FFQ = some x) (waits : s.waiter x = .task t)
    (nascent : s.threads t = .nascent) (unused : s.used head = false) :
    Sound (((((s.put maddr (some (m.setHead .FFQ (s.next x)))).createHead me head).link head
      head x).collect me t x).goto me (.filling outer maddr (some head))) := by
  have headed := kept.createHead here unused
  have apart : x ≠ head := by
    rintro rfl
    have free := kept.lists.free_of_unused unused
    have queued := (kept.lists.queues.pop .free s.next ((first_known known .FFQ).trans front)
      (fun _ _ => Spot.noConfusion) (fun _ _ _ _ _ => rfl)).1
    rw [free] at queued
    cases queued
  have behind : ((s.createHead me head).goto me (.filling outer maddr (some head))).next x =
      s.next x := update_of_ne apart ..
  refine headed.collect (update_self ..) (update_self ..)
    ((first_known known .FFQ).trans front) ?_ nascent rfl rfl rfl rfl ?_ rfl ⟨rfl, rfl, rfl⟩ rfl rfl
    rfl rfl
  · exact (update_of_ne apart ..).trans waits
  · rw [behind]
    exact first_setHead rfl known rfl

end

theorem sound_step (sound : Sound s) (step : Step s me after) : Sound after := by
  obtain ⟨queue, side, spot, place, kept⟩ := sound
  cases step with
  | spawn t words here running unborn _ => exact kept.spawn here running unborn
  | spawnPlain t here running unborn =>
    refine kept.setThread (kept.unborn_free unborn) ⟨by rintro ⟨⟩, by rintro ⟨⟩, by rintro ⟨⟩⟩
      (.inl fun busy => ?_)
    rw [kept.waiting.active t busy] at unborn
    cases unborn
  | start here new enqueued =>
    exact kept.setThread (kept.start_free new enqueued) ⟨by rintro ⟨⟩, by rintro ⟨⟩, by rintro ⟨⟩⟩
      (.inr rfl)
  | resume here running =>
    exact kept.goOn rfl rfl rfl rfl rfl rfl ⟨rfl, rfl, rfl⟩ ⟨rfl, rfl, rfl, rfl⟩
      (by rw [here]; exact ⟨rfl, rfl, rfl, rfl⟩) (by rintro ⟨⟩) (by rintro ⟨⟩)
        (by rintro _ _ _ ⟨⟩) trivial
  | found op here running known _ =>
    exact kept.goOn rfl rfl rfl rfl (first_put rfl known rfl) rfl ⟨rfl, rfl, rfl⟩
      ⟨rfl, rfl, rfl, rfl⟩ (by rw [here]; exact ⟨rfl, rfl, rfl, rfl⟩) (fun _ => running)
        (by rintro ⟨⟩) (by rintro _ _ _ ⟨⟩)
      trivial
  | missing => exact ⟨queue, side, spot, place, kept⟩
  | create op here running missing _ =>
    exact kept.goOn rfl rfl rfl rfl (first_create rfl missing rfl) rfl ⟨rfl, rfl, rfl⟩
      ⟨rfl, rfl, rfl, rfl⟩ (by rw [here]; exact ⟨rfl, rfl, rfl, rfl⟩) (fun _ => running)
        (by rintro ⟨⟩) (by rintro _ _ _ ⟨⟩)
      trivial
  | createEmpty op here running missing _ =>
    have moves : s.pcs = update s.pcs me .idle := by
      rw [← here, update_eq_self]
    exact kept.goOn moves rfl rfl rfl (first_create rfl missing rfl) rfl ⟨rfl, rfl, rfl⟩
      ⟨rfl, rfl, rfl, rfl⟩ (by rw [here]; exact ⟨rfl, rfl, rfl, rfl⟩) (by rintro ⟨⟩)
        (by rintro ⟨⟩) (by rintro _ _ _ ⟨⟩) trivial
  | wait x here known _ unused => exact kept.wait here known unused
  | giveUp here known _ =>
    exact kept.goOn rfl rfl rfl rfl rfl rfl ⟨rfl, rfl, rfl⟩ ⟨rfl, rfl, rfl, rfl⟩
      (by rw [here]; exact ⟨rfl, rfl, rfl, rfl⟩) (fun _ => kept.running here trivial)
        (by rintro ⟨⟩) (by rintro _ _ _ ⟨⟩)
      trivial
  | begin here known _ => exact kept.begin here known
  | release here known =>
    exact kept.goOn rfl rfl rfl rfl (first_put rfl known rfl) rfl ⟨rfl, rfl, rfl⟩
      ⟨rfl, rfl, rfl, rfl⟩ (by rw [here]; exact ⟨rfl, rfl, rfl, rfl⟩) (by rintro ⟨⟩)
        (by rintro ⟨⟩) (by rintro _ _ _ ⟨⟩) trivial
  | park here known =>
    exact kept.goOn rfl rfl rfl rfl (first_put rfl known rfl) rfl ⟨rfl, rfl, rfl⟩
      ⟨rfl, rfl, rfl, rfl⟩ (by rw [here]; exact ⟨rfl, rfl, rfl, rfl⟩) (by rintro ⟨⟩)
        (by rintro ⟨⟩) (by rintro _ _ _ ⟨⟩) trivial
  | collectFirst head here known front waits nascent unused =>
    exact kept.collectFirst here known front waits nascent unused
  | collect here known front waits nascent tail =>
    exact kept.collect here tail ((first_known known _).trans front) waits nascent rfl rfl rfl rfl
      (first_setHead rfl known rfl) rfl ⟨rfl, rfl, rfl⟩ rfl rfl rfl rfl
  | wakeReader here known front waits awake =>
    refine kept.wake ?_ ((first_known known _).trans front) waits (.inr awake) rfl rfl rfl
      (first_setHead rfl known rfl) rfl ⟨rfl, rfl, rfl⟩ ⟨rfl, rfl, rfl, rfl⟩ rfl rfl rfl rfl
      (by rw [here]; trivial) id (by rw [here]; rintro _ _ _ ⟨⟩) (by rw [here]; trivial)
    exact (update_eq_self _ _).symm
  | wakeTaker here known _ front waits =>
    exact kept.wake rfl ((first_known known _).trans front) waits
      (.inl (by rintro ⟨⟩)) rfl rfl rfl
      (first_setHead rfl known rfl) rfl ⟨rfl, rfl, rfl⟩ ⟨rfl, rfl, rfl, rfl⟩ (by rw [here]; rfl)
      (by rw [here]; rfl) (by rw [here]; rfl) (by rw [here]; rfl) (by rw [here]; trivial)
      (fun _ => by rw [here]; trivial) (by rintro _ _ _ ⟨⟩) trivial
  | filled here known _ _ =>
    exact kept.goOn rfl rfl rfl rfl rfl rfl ⟨rfl, rfl, rfl⟩ ⟨rfl, rfl, rfl, rfl⟩
      (by rw [here]; exact ⟨rfl, rfl, rfl, rfl⟩) (fun _ => kept.running here trivial)
      (fun _ => by rw [here]; trivial) (by rintro _ _ _ ⟨⟩) trivial
  | wakeWriter here known front waits =>
    exact kept.wake rfl ((first_known known _).trans front) waits
      (.inl (by rintro ⟨⟩)) rfl rfl rfl
      (first_setHead rfl known rfl) rfl ⟨rfl, rfl, rfl⟩ ⟨rfl, rfl, rfl, rfl⟩ (by rw [here]; rfl)
      (by rw [here]; rfl) (by rw [here]; rfl) (by rw [here]; rfl) (by rw [here]; trivial)
      (fun _ => by rw [here]; trivial) (by rintro _ _ _ ⟨⟩) trivial
  | emptied here known _ =>
    exact kept.goOn rfl rfl rfl rfl rfl rfl ⟨rfl, rfl, rfl⟩ ⟨rfl, rfl, rfl, rfl⟩
      (by rw [here]; exact ⟨rfl, rfl, rfl, rfl⟩) (fun _ => kept.running here trivial)
      (fun _ => by rw [here]; trivial) (by rintro _ _ _ ⟨⟩) trivial
  | unlock here known => exact kept.unlock here known
  | launchNone here tail =>
    exact kept.drop (by rw [here]; rfl) (by simp [here, Pc.tail, lastOf, tail]) (by rw [here]; rfl)
      (by rw [here]; rfl) (kept.running here trivial)
  | launch here tail differs =>
    refine kept.goOn rfl rfl rfl rfl rfl rfl ⟨rfl, rfl, rfl⟩ ⟨rfl, rfl, rfl, rfl⟩
      ?_ (fun _ => kept.running here trivial) (by rintro ⟨⟩) (by rintro _ _ _ ⟨⟩) differs
    rw [here]
    exact ⟨rfl, by simp [Pc.tail, lastOf, tail], rfl, rfl⟩
  | next here behind waits => exact kept.next here behind waits
  | handledMore here differs =>
    exact kept.goOn rfl rfl rfl rfl rfl rfl ⟨rfl, rfl, rfl⟩ ⟨rfl, rfl, rfl, rfl⟩
      (by rw [here]; exact ⟨rfl, rfl, rfl, rfl⟩) (fun _ => kept.running here trivial)
        (by rintro ⟨⟩) (by rintro _ _ _ ⟨⟩)
      differs
  | handledLast here ends =>
    exact kept.drop (by rw [here]; rfl) (by rw [here, ends]; rfl) (by rw [here]; rfl)
      (by rw [here]; rfl) (kept.running here trivial)
  | checkDone here array => exact kept.checkDone here array
  | @checkMissing t return_ k words this here array word _ =>
    have moves : s.pcs = update s.pcs me (.check t return_) := by
      rw [← here, update_eq_self]
    exact kept.observe (by rw [here]; rfl) (by rw [here]; rfl) array word moves (by rw [here]; rfl)
      (by rw [here]; rfl) rfl rfl rfl rfl rfl rfl rfl rfl ⟨rfl, rfl, rfl, rfl⟩
      (kept.running here trivial)
  | checkFound here array word known _ =>
    refine ⟨queue, side, spot, place, kept.quiet rfl rfl rfl rfl (first_put rfl known rfl) rfl
      ⟨rfl, rfl, rfl⟩ ⟨rfl, rfl, rfl, rfl⟩ (by rw [here]; rfl) (by rw [here]; rfl)
      (by rw [here]; rfl) (by rw [here]; rfl) (fun _ => kept.running here trivial)
        (by rintro ⟨⟩) ?_ trivial⟩
    rintro t this return_ ⟨⟩
    exact ⟨_, _, array, word⟩
  | checkFull here array known _ =>
    obtain ⟨k, words, stored, word⟩ := kept.stages.word _ _ _ _ here
    rw [array] at stored
    cases stored
    exact kept.observe (by rw [here]; rfl) (by rw [here]; rfl) array word rfl (by rw [here]; rfl)
      (by rw [here]; rfl) rfl rfl rfl (first_put rfl known rfl) rfl rfl rfl rfl
      ⟨rfl, rfl, rfl, rfl⟩ (kept.running here trivial)
  | checkWait x here known _ unused => exact kept.checkWait here known unused
  | ready here => exact kept.ready here
  | removed here known _ unused =>
    exact kept.goOn rfl rfl rfl rfl (first_remove rfl known unused) rfl ⟨rfl, rfl, rfl⟩
      ⟨rfl, rfl, rfl, rfl⟩ (by rw [here]; exact ⟨rfl, rfl, rfl, rfl⟩) (by rintro ⟨⟩)
        (by rintro ⟨⟩) (by rintro _ _ _ ⟨⟩) trivial
  | kept here _ =>
    exact kept.goOn rfl rfl rfl rfl rfl rfl ⟨rfl, rfl, rfl⟩ ⟨rfl, rfl, rfl, rfl⟩
      (by rw [here]; exact ⟨rfl, rfl, rfl, rfl⟩) (by rintro ⟨⟩) (by rintro ⟨⟩)
        (by rintro _ _ _ ⟨⟩) trivial

structure Start (s : State) : Prop where
  stat : ∀ maddr, s.stat maddr = none
  used : ∀ x, s.used x = false
  threads : ∀ t, s.threads t = .unborn ∨ s.threads t = .running
  pcs : ∀ t, s.pcs t = .idle
  spawned : ∀ t, s.spawned t = none
  history : ∀ t, s.history t = []
  batches : ∀ t, s.drained t = [] ∧ s.launched t = [] ∧ s.batch t = [] ∧ s.released t = []

theorem Start.sound (start : Start s) : Sound s := by
  have first : ∀ maddr q, s.first maddr q = none := by
    intro maddr q
    simp [State.first, start.stat maddr]
  refine ⟨fun _ _ => [], fun _ => [], fun _ => .free, fun _ => .free, ⟨⟨?_, by simp, by simp⟩,
    ⟨?_, ?_, by simp, by simp⟩, by simp [start.used]⟩, ⟨by rintro _ ⟨⟩,
      by rintro _ _ ⟨⟩, ?_, by rintro _ _ ⟨⟩, by rintro _ _ ⟨⟩, ?_, ?_⟩,
    ⟨?_, ?_, fun t _ => start.spawned t, fun t _ => start.history t, ?_, ?_⟩, ?_, ?_, by rintro _ _ _ ⟨⟩⟩
  · intro maddr q
    exact first maddr q
  · intro me
    simp [Linked, start.pcs me, Pc.head]
  · intro me x
    simp [start.pcs me, Pc.head]
  · intro t me
    simp [start.pcs me, Pc.checks]
  · intro t _
    rcases start.threads t with unborn | running
    · rw [unborn]
      exact ⟨by rintro ⟨⟩, by rintro ⟨⟩⟩
    · rw [running]
      exact ⟨by rintro ⟨⟩, by rintro ⟨⟩⟩
  · intro t busy
    rw [start.pcs t] at busy
    exact busy.elim
  · intro t words known
    rw [start.spawned t] at known
    cases known
  · intro t nascent
    rcases start.threads t with unborn | running
    · rw [unborn] at nascent
      cases nascent
    · rw [running] at nascent
      cases nascent
  · rintro t ⟨me, finds⟩
    rw [start.pcs me] at finds
    cases finds
  · intro me t this return_ here
    rw [start.pcs me] at here
    cases here
  · intro me
    obtain ⟨drained, launched, batch, released⟩ := start.batches me
    rw [drained, launched, batch, released, start.pcs me]
    exact ⟨rfl, List.nodup_nil, rfl, by rintro ⟨⟩⟩
  · intro me
    rw [start.pcs me]
    trivial

theorem sound_run {tasks : List Task} {start : State} (fresh : Start start)
    (run : Run Step start tasks s) : Sound s :=
  run.preserves (fun _ _ _ sound step => sound_step sound step) fresh.sound

end Qthreads.Precond
