import Qthreads.Precond.Lists

namespace Qthreads.Precond

open Feb (Task ThreadState)
open Feb.Steps (Queue)
open Function (update update_of_ne update_self update_eq_self)

inductive Place where
  | free
  | node (x : Nat)
  | worker (me : Task)

def Spot.Listed : Spot → Prop
  | .queue _ _ => True
  | .side _ => True
  | _ => False

def Spot.Nascent : Spot → Prop
  | .queue _ q => q = .FFQ
  | .side _ => True
  | _ => False

def Spot.Queued : Spot → Prop
  | .queue _ _ => True
  | _ => False

def Pc.checks : Pc → Option Task
  | .check t _ | .checking t _ _ | .ready t _ => some t
  | _ => none

def Pc.finds : Pc → Option Task
  | .ready t _ => some t
  | _ => none

def Pc.Active : Pc → Prop
  | .idle => False
  | .parked => False
  | .blocked _ => False
  | _ => True

structure Waiting (waiter : Nat → Waiter) (threads : Task → ThreadState) (pcs : Task → Pc)
    (place : Task → Place) (spot : Nat → Spot) : Prop where
  attached : ∀ x, (spot x).Listed → ∃ t, waiter x = .task t ∧ place t = .node x
  listed : ∀ t x, place t = .node x → (spot x).Listed ∧ waiter x = .task t
  checked : ∀ t me, place t = .worker me ↔ (pcs me).checks = some t
  atNode : ∀ t x, place t = .node x → threads t = .nascent ∧ (spot x).Nascent ∨
    threads t = .febBlocked ∧ (spot x).Queued
  atWorker : ∀ t me, place t = .worker me →
    threads t = if (pcs me).finds = some t then .new else .nascent
  away : ∀ t, place t = .free → threads t ≠ .nascent ∧ threads t ≠ .febBlocked
  active : ∀ t, (pcs t).Active → threads t = .running

variable {waiter : Nat → Waiter} {threads : Task → ThreadState} {pcs : Task → Pc}
  {place : Task → Place} {spot moved : Nat → Spot} {me t : Task} {pc : Pc} {x head : Nat}

theorem Waiting.stands (waiting : Waiting waiter threads pcs place spot)
    (listed : (spot x).Listed) (waits : waiter x = .task t) : place t = .node x := by
  obtain ⟨owner, same, stands⟩ := waiting.attached x listed
  rw [waits] at same
  cases same
  exact stands

theorem Waiting.move (waiting : Waiting waiter threads pcs place spot)
    (checks : pc.checks = (pcs me).checks) (finds : pc.finds = (pcs me).finds)
    (active : pc.Active → threads me = .running) :
    Waiting waiter threads (update pcs me pc) place spot := by
  have same : ∀ other, (update pcs me pc other).checks = (pcs other).checks ∧
      (update pcs me pc other).finds = (pcs other).finds := by
    intro other
    by_cases mine : other = me
    · subst mine
      rw [update_self]
      exact ⟨checks, finds⟩
    · rw [update_of_ne mine]
      exact ⟨rfl, rfl⟩
  refine ⟨waiting.attached, waiting.listed, ?_, waiting.atNode, ?_, waiting.away, ?_⟩
  · intro t other
    rw [(same other).1]
    exact waiting.checked t other
  · intro t other here
    rw [(same other).2]
    exact waiting.atWorker t other here
  · intro t
    by_cases mine : t = me
    · subst mine
      rw [update_self]
      exact active
    · rw [update_of_ne mine]
      exact waiting.active t

variable {waiterAfter : Nat → Waiter}

theorem Waiting.frame (waiting : Waiting waiter threads pcs place spot)
    (cells : ∀ x, (spot x).Listed → waiterAfter x = waiter x)
    (spots : ∀ x, (moved x).Listed ↔ (spot x).Listed)
    (nascents : ∀ t x, place t = .node x → threads t = .nascent → (moved x).Nascent)
    (queued : ∀ t x, place t = .node x → threads t = .febBlocked → (moved x).Queued) :
    Waiting waiterAfter threads pcs place moved where
  attached := by
    intro x here
    have before := (spots x).mp here
    rw [cells x before]
    exact waiting.attached x before
  listed := by
    intro t x here
    obtain ⟨listed, waits⟩ := waiting.listed t x here
    rw [cells x listed]
    exact ⟨(spots x).mpr listed, waits⟩
  checked := waiting.checked
  atNode := by
    intro t x here
    rcases waiting.atNode t x here with ⟨nascent, -⟩ | ⟨blocked, -⟩
    · exact .inl ⟨nascent, nascents t x here nascent⟩
    · exact .inr ⟨blocked, queued t x here blocked⟩
  atWorker := waiting.atWorker
  away := waiting.away
  active := waiting.active

variable {value : Spot}

section

variable (waiting : Waiting waiter threads pcs place spot)
include waiting

theorem Waiting.unlisted (before : ¬ (spot x).Listed)
    (now : ¬ value.Listed) (cells : ∀ y, y ≠ x → waiterAfter y = waiter y) :
    Waiting waiterAfter threads pcs place (update spot x value) := by
  have apart : ∀ t y, place t = .node y → y ≠ x := by
    rintro t y stands rfl
    exact before (waiting.listed t y stands).1
  refine waiting.frame ?_ ?_ ?_ ?_
  · intro y listed
    refine cells y ?_
    rintro rfl
    exact before listed
  · intro y
    by_cases same : y = x
    · subst same
      rw [update_self]
      exact iff_of_false now before
    · rw [update_of_ne same]
  · intro t y stands nascent
    rw [update_of_ne (apart t y stands)]
    rcases waiting.atNode t y stands with ⟨-, inside⟩ | ⟨blocked, -⟩
    · exact inside
    · rw [nascent] at blocked
      cases blocked
  · intro t y stands blocked
    rw [update_of_ne (apart t y stands)]
    rcases waiting.atNode t y stands with ⟨nascent, -⟩ | ⟨-, inside⟩
    · rw [blocked] at nascent
      cases nascent
    · exact inside

theorem Waiting.relist
    (stands : place t = .node x) (nascent : threads t = .nascent) (listed : value.Listed)
    (now : value.Nascent) : Waiting waiter threads pcs place (update spot x value) := by
  have only : ∀ other, place other = .node x → other = t := by
    intro other there
    have waits := (waiting.listed other x there).2
    rw [(waiting.listed t x stands).2] at waits
    exact (Waiter.task.inj waits).symm
  refine waiting.frame (fun _ _ => rfl) ?_ ?_ ?_
  · intro y
    by_cases same : y = x
    · subst same
      rw [update_self]
      exact iff_of_true listed (waiting.listed t y stands).1
    · rw [update_of_ne same]
  · intro other y there waits
    by_cases same : y = x
    · subst same
      rw [update_self]
      exact now
    · rw [update_of_ne same]
      rcases waiting.atNode other y there with ⟨-, inside⟩ | ⟨blocked, -⟩
      · exact inside
      · rw [waits] at blocked
        cases blocked
  · intro other y there blocked
    by_cases same : y = x
    · subst same
      rw [only other there, nascent] at blocked
      cases blocked
    · rw [update_of_ne same]
      rcases waiting.atNode other y there with ⟨waits, -⟩ | ⟨-, inside⟩
      · rw [blocked] at waits
        cases waits
      · exact inside

theorem Waiting.change {pcsAfter : Task → Pc} (t : Task) (now : Place) (state : ThreadState)
    (kept : ∀ other y, other ≠ t → place other = .node y →
      moved y = spot y ∧ waiterAfter y = waiter y)
    (nodes : ∀ y, (moved y).Listed → (∃ other, other ≠ t ∧ place other = .node y) ∨ now = .node y)
    (mine : ∀ y, now = .node y → (moved y).Listed ∧ waiterAfter y = .task t ∧
      (state = .nascent ∧ (moved y).Nascent ∨ state = .febBlocked ∧ (moved y).Queued))
    (checks : ∀ other worker, other ≠ t →
      ((pcsAfter worker).checks = some other ↔ (pcs worker).checks = some other))
    (checksMine : ∀ worker, now = .worker worker ↔ (pcsAfter worker).checks = some t)
    (finds : ∀ other worker, other ≠ t →
      ((pcsAfter worker).finds = some other ↔ (pcs worker).finds = some other))
    (findsMine : ∀ worker, now = .worker worker →
      state = if (pcsAfter worker).finds = some t then .new else .nascent)
    (away : now = .free → state ≠ .nascent ∧ state ≠ .febBlocked)
    (active : ∀ other, (pcsAfter other).Active → update threads t state other = .running) :
    Waiting waiterAfter (update threads t state) pcsAfter (update place t now)
      moved where
  attached := by
    intro y here
    rcases nodes y here with ⟨other, differs, stands⟩ | stands
    · refine ⟨other, ?_, ?_⟩
      · rw [(kept other y differs stands).2]
        exact (waiting.listed other y stands).2
      · rw [update_of_ne differs]
        exact stands
    · refine ⟨t, (mine y stands).2.1, ?_⟩
      rw [update_self]
      exact stands
  listed := by
    intro other y stands
    by_cases same : other = t
    · subst same
      rw [update_self] at stands
      exact ⟨(mine y stands).1, (mine y stands).2.1⟩
    · rw [update_of_ne same] at stands
      obtain ⟨spots, cells⟩ := kept other y same stands
      rw [spots, cells]
      exact waiting.listed other y stands
  checked := by
    intro other worker
    by_cases same : other = t
    · subst same
      rw [update_self]
      exact checksMine worker
    · rw [update_of_ne same, waiting.checked]
      exact (checks other worker same).symm
  atNode := by
    intro other y stands
    by_cases same : other = t
    · subst same
      rw [update_self] at stands
      rw [update_self]
      exact (mine y stands).2.2
    · rw [update_of_ne same] at stands
      rw [update_of_ne same, (kept other y same stands).1]
      exact waiting.atNode other y stands
  atWorker := by
    intro other worker stands
    by_cases same : other = t
    · subst same
      rw [update_self] at stands
      rw [update_self]
      exact findsMine worker stands
    · rw [update_of_ne same] at stands
      rw [update_of_ne same]
      simp only [finds other worker same]
      exact waiting.atWorker other worker stands
  away := by
    intro other stands
    by_cases same : other = t
    · subst same
      rw [update_self] at stands
      rw [update_self]
      exact away stands
    · rw [update_of_ne same] at stands
      rw [update_of_ne same]
      exact waiting.away other stands
  active := active

end

variable {state : ThreadState}

section

variable (waiting : Waiting waiter threads pcs place spot)
include waiting

theorem active_update
    (inactive : ¬ (pcs t).Active ∨ state = .running) (other : Task) (busy : (pcs other).Active) :
    update threads t state other = .running := by
  by_cases same : other = t
  · subst same
    rw [update_self]
    exact inactive.resolve_left (not_not_intro busy)
  · rw [update_of_ne same]
    exact waiting.active other busy

theorem Waiting.wake (here : waiter x = .task t) (queued : (spot x).Listed) :
    Waiting waiter (update threads t .running) pcs (update place t .free)
      (update spot x .free) := by
  obtain ⟨owner, waits, stands⟩ := waiting.attached x queued
  rw [here] at waits
  cases waits
  refine waiting.change t .free .running ?_ ?_ nofun (fun _ _ _ => Iff.rfl) ?_
    (fun _ _ _ => Iff.rfl) nofun (by simp) (active_update waiting (.inr rfl))
  · intro other y differs there
    refine ⟨update_of_ne ?_ .., rfl⟩
    rintro rfl
    have waits := (waiting.listed other y there).2
    rw [here] at waits
    cases waits
    exact differs rfl
  · intro y inside
    by_cases same : y = x
    · subst same
      simp [Spot.Listed] at inside
    · rw [update_of_ne same] at inside
      obtain ⟨other, waits, there⟩ := waiting.attached y inside
      refine .inl ⟨other, ?_, there⟩
      rintro rfl
      rw [stands] at there
      cases there
      exact same rfl
  · intro worker
    rw [← waiting.checked, stands]
    simp

theorem Waiting.queue {pcsAfter : Task → Pc} (unused : ¬ (spot x).Listed)
    (was : ∀ y, place t ≠ .node y)
    (now : state = .nascent ∧ value.Nascent ∨ state = .febBlocked ∧ value.Queued)
    (listed : value.Listed)
    (checks : ∀ worker, (pcsAfter worker).checks =
      if (pcs worker).checks = some t then none else (pcs worker).checks)
    (finds : ∀ other worker, other ≠ t →
      ((pcsAfter worker).finds = some other ↔ (pcs worker).finds = some other))
    (active : ∀ other, (pcsAfter other).Active → update threads t state other = .running) :
    Waiting (update waiter x (.task t)) (update threads t state) pcsAfter
      (update place t (.node x)) (update spot x value) := by
  have apart : ∀ other y, place other = .node y → y ≠ x := by
    rintro other y there rfl
    exact unused (waiting.listed other y there).1
  refine waiting.change t (.node x) state ?_ ?_ ?_ ?_ ?_ finds nofun nofun active
  · intro other y differs there
    have away := apart other y there
    exact ⟨update_of_ne away .., update_of_ne away ..⟩
  · intro y inside
    by_cases same : y = x
    · exact .inr (same ▸ rfl)
    · rw [update_of_ne same] at inside
      obtain ⟨other, waits, there⟩ := waiting.attached y inside
      refine .inl ⟨other, ?_, there⟩
      rintro rfl
      exact was y there
  · intro y here
    cases here
    rw [update_self, update_self]
    exact ⟨listed, rfl, now⟩
  · intro other worker differs
    rw [checks worker]
    grind
  · intro worker
    rw [checks worker]
    grind

theorem Waiting.setThread (was : place t = .free) (state_ : state ≠ .nascent ∧ state ≠ .febBlocked)
    (inactive : ¬ (pcs t).Active ∨ state = .running) :
    Waiting waiter (update threads t state) pcs place spot := by
  suffices changed : Waiting waiter (update threads t state) pcs
      (update place t (place t)) spot by
    rwa [update_eq_self] at changed
  rw [was]
  refine waiting.change t .free state (fun _ _ _ _ => ⟨rfl, rfl⟩) ?_ nofun (fun _ _ _ => Iff.rfl) ?_
    (fun _ _ _ => Iff.rfl) nofun (fun _ => state_) (active_update waiting inactive)
  · intro y inside
    obtain ⟨other, waits, there⟩ := waiting.attached y inside
    refine .inl ⟨other, ?_, there⟩
    rintro rfl
    rw [was] at there
    cases there
  · intro worker
    rw [← waiting.checked, was]

theorem Waiting.take (was : place t = .free ∨ ∃ x, place t = .node x ∧ ¬ (moved x).Listed)
    (idle : (pcs me).checks = none) (checks : pc.checks = some t) (finds : pc.finds = none)
    (noFinds : (pcs me).finds = none)
    (spots : ∀ y, (moved y).Listed → moved y = spot y)
    (kept : ∀ y, (spot y).Listed → place t ≠ .node y → moved y = spot y)
    (running : threads me = .running) (inactive : ¬ (pcs t).Active) (differs : t ≠ me) :
    Waiting waiter (update threads t .nascent) (update pcs me pc)
      (update place t (.worker me)) moved := by
  refine waiting.change t (.worker me) .nascent ?_ ?_ nofun ?_ ?_ ?_ ?_ nofun ?_
  · intro other y apart there
    obtain ⟨listed, waits⟩ := waiting.listed other y there
    refine ⟨kept y listed ?_, rfl⟩
    intro here
    rw [(waiting.listed t y here).2] at waits
    cases waits
    exact apart rfl
  · intro y inside
    have same := spots y inside
    rw [same] at inside
    obtain ⟨other, waits, there⟩ := waiting.attached y inside
    refine .inl ⟨other, ?_, there⟩
    rintro rfl
    rcases was with free | ⟨x, node, gone⟩
    · rw [free] at there
      cases there
    · rw [node] at there
      cases there
      rw [same] at gone
      exact gone inside
  · intro other worker apart
    by_cases mine : worker = me
    · subst mine
      rw [update_self, checks, idle]
      grind
    · rw [update_of_ne mine]
  · intro worker
    by_cases mine : worker = me
    · subst mine
      rw [update_self, checks]
      simp
    · rw [update_of_ne mine, ← waiting.checked]
      rcases was with free | ⟨x, node, gone⟩
      · rw [free]
        grind
      · rw [node]
        grind
  · intro other worker apart
    by_cases mine : worker = me
    · subst mine
      rw [update_self, finds, noFinds]
    · rw [update_of_ne mine]
  · intro worker here
    cases here
    rw [update_self, finds]
    simp
  · intro other busy
    by_cases same : other = t
    · subst same
      rw [update_of_ne differs] at busy
      exact absurd busy inactive
    · rw [update_of_ne same]
      by_cases mine : other = me
      · subst mine
        exact running
      · rw [update_of_ne mine] at busy
        exact waiting.active other busy

end

theorem finds_checks (found : pc.finds = some t) : pc.checks = some t := by
  cases pc with
  | ready task return_ =>
    cases found
    rfl
  | _ => cases found

theorem Waiting.settle {now : Place}
    (waiting : Waiting waiter threads pcs place spot) (was : (pcs me).checks = some t)
    (stays : now = .worker me ∧ pc.checks = some t ∧
        state = (if pc.finds = some t then .new else .nascent) ∨
      now = .free ∧ pc.checks = none ∧ state ≠ .nascent ∧ state ≠ .febBlocked)
    (running : threads me = .running) (inactive : ¬ (pcs t).Active) (differs : t ≠ me) :
    Waiting waiter (update threads t state) (update pcs me pc)
      (update place t now) spot := by
  have stands := (waiting.checked t me).mpr was
  have only : ∀ other, other ≠ t → pc.checks ≠ some other := by
    intro other apart here
    rcases stays with ⟨-, checks, -⟩ | ⟨-, checks, -⟩ <;> rw [checks] at here <;> cases here
    exact apart rfl
  have onlyBefore : ∀ other, other ≠ t → (pcs me).checks ≠ some other := by
    intro other apart here
    rw [was] at here
    cases here
    exact apart rfl
  refine waiting.change t now state (fun _ _ _ _ => ⟨rfl, rfl⟩) ?_ ?_ ?_ ?_ ?_ ?_ ?_ ?_
  · intro y inside
    obtain ⟨other, waits, there⟩ := waiting.attached y inside
    refine .inl ⟨other, ?_, there⟩
    rintro rfl
    rw [stands] at there
    cases there
  · intro y here
    rcases stays with ⟨same, -⟩ | ⟨same, -⟩ <;> rw [same] at here <;> cases here
  · intro other worker apart
    by_cases mine : worker = me
    · subst mine
      rw [update_self]
      exact iff_of_false (only other apart) (onlyBefore other apart)
    · rw [update_of_ne mine]
  · intro worker
    by_cases mine : worker = me
    · subst mine
      rw [update_self]
      rcases stays with ⟨same, checks, -⟩ | ⟨same, checks, -⟩ <;> rw [same, checks] <;> simp
    · rw [update_of_ne mine, ← waiting.checked, stands]
      rcases stays with ⟨same, -⟩ | ⟨same, -⟩
      · rw [same]
      · rw [same]
        simp [Ne.symm mine]
  · intro other worker apart
    by_cases mine : worker = me
    · subst mine
      rw [update_self]
      exact iff_of_false (fun found => only other apart (finds_checks found))
        (fun found => onlyBefore other apart (finds_checks found))
    · rw [update_of_ne mine]
  · intro worker here
    rcases stays with ⟨same, -, states⟩ | ⟨same, -⟩
    · rw [same] at here
      cases here
      rw [update_self]
      exact states
    · rw [same] at here
      cases here
  · intro here
    rcases stays with ⟨same, -⟩ | ⟨-, -, states⟩
    · rw [same] at here
      cases here
    · exact states
  · intro other busy
    by_cases same : other = t
    · subst same
      rw [update_of_ne differs] at busy
      exact absurd busy inactive
    · rw [update_of_ne same]
      by_cases mine : other = me
      · subst mine
        exact running
      · rw [update_of_ne mine] at busy
        exact waiting.active other busy

end Qthreads.Precond
