import Qthreads.Precond.Waiting

namespace Qthreads.Precond

open Feb (Task ThreadState qalign)
open Feb.Steps (Queue)

variable {s after : State} {me t : Task} {pc : Pc} {words : List UInt64}

/-- What is still to happen when the first `k` words are still to be observed. -/
def remaining (words : List UInt64) : Nat → List Event
  | 0 => [.freed, .ready]
  | k + 1 => .observed (k + 1) (words.getD k 0) :: remaining words k

/-- All of it: the words from the last one to the first, then the array, then the ready queue. -/
def schedule (words : List UInt64) : List Event := remaining words words.length

inductive Todo (preconds : Option (Nat × List UInt64)) (state : ThreadState) (found : Prop)
    (words : List UInt64) : List Event → Prop where
  | observes (k : Nat) : preconds = some (k, words) → k ≤ words.length → state = .nascent →
      Todo preconds state found words (remaining words k)
  | found : preconds = none → state ≠ .nascent → state ≠ .unborn → found →
      Todo preconds state found words [.ready]
  | done : preconds = none → state ≠ .nascent → state ≠ .unborn → ¬ found →
      Todo preconds state found words []

theorem ready_last {k : Nat} {front : List Event} (whole : front ++ [.ready] = remaining words k) :
    .ready ∉ front := by
  induction k generalizing front with
  | zero =>
    cases front with
    | nil => exact List.not_mem_nil
    | cons event rest =>
      obtain ⟨rfl, later⟩ := List.cons.inj whole
      cases rest with
      | nil => simp
      | cons second others =>
        have length := congrArg List.length later
        simp at length
  | succ k ih =>
    cases front with
    | nil => exact List.not_mem_nil
    | cons event rest =>
      obtain ⟨rfl, later⟩ := List.cons.inj whole
      simp [ih later]

def Found (pcs : Task → Pc) (t : Task) : Prop := ∃ me, (pcs me).finds = some t

structure Stages (s : State) : Prop where
  staged : ∀ t words, s.spawned t = some words → ∃ todo, s.history t ++ todo = schedule words ∧
    Todo (s.preconds t) (s.threads t) (Found s.pcs t) words todo
  born : ∀ t, s.threads t = .nascent → s.spawned t ≠ none
  unborn : ∀ t, s.threads t = .unborn → s.spawned t = none
  plain : ∀ t, s.spawned t = none → s.history t = []
  finds : ∀ t, Found s.pcs t → s.spawned t ≠ none
  word : ∀ me t this return_, s.pcs me = .checking t this return_ →
    ∃ k words, s.preconds t = some (k + 1, words) ∧ words[k]? = some this

theorem found_update (finds : pc.finds = (s.pcs me).finds) (t : Task) :
    Found (Function.update s.pcs me pc) t ↔ Found s.pcs t := by
  refine exists_congr fun other => ?_
  by_cases mine : other = me
  · subst mine
    rw [Function.update_self, finds]
  · rw [Function.update_of_ne mine]

/-- A task that only ever deals with `t` finds nobody else. -/
theorem found_elsewhere {other : Task} (before : ∀ found, (s.pcs me).finds = some found → found = t)
    (now : ∀ found, pc.finds = some found → found = t) (apart : other ≠ t) :
    Found (Function.update s.pcs me pc) other ↔ Found s.pcs other := by
  refine exists_congr fun worker => ?_
  by_cases mine : worker = me
  · subst mine
    rw [Function.update_self]
    exact iff_of_false (fun finds => apart (now other finds)) fun finds => apart (before other finds)
  · rw [Function.update_of_ne mine]

theorem checking_elsewhere (moves : after.pcs = Function.update s.pcs me pc)
    (notChecking : ∀ other this return_, pc ≠ .checking other this return_)
    (only : ∀ worker this return_, s.pcs worker = .checking t this return_ → worker = me)
    (worker other : Task) (this : UInt64) (return_ : Return)
    (there : after.pcs worker = .checking other this return_) :
    other ≠ t ∧ s.pcs worker = .checking other this return_ := by
  rw [moves] at there
  by_cases mine : worker = me
  · subst mine
    rw [Function.update_self] at there
    exact absurd there (notChecking other this return_)
  · rw [Function.update_of_ne mine] at there
    refine ⟨?_, there⟩
    rintro rfl
    exact mine (only worker this return_ there)

theorem Stages.frame (stages : Stages s) (spawned : after.spawned = s.spawned)
    (history : after.history = s.history) (preconds : after.preconds = s.preconds)
    (nascent : ∀ t, after.threads t = .nascent ↔ s.threads t = .nascent)
    (unborn : ∀ t, after.threads t = .unborn → s.threads t = .unborn)
    (found : ∀ t, Found after.pcs t ↔ Found s.pcs t)
    (word : ∀ me t this return_, after.pcs me = .checking t this return_ →
      s.pcs me = .checking t this return_ ∨
        ∃ k words, s.preconds t = some (k + 1, words) ∧ words[k]? = some this) :
    Stages after where
  staged := by
    intro t words known
    rw [spawned] at known
    obtain ⟨todo, whole, stage⟩ := stages.staged t words known
    refine ⟨todo, by rw [history]; exact whole, ?_⟩
    rw [preconds]
    cases stage with
    | observes k array bound waits => exact .observes k array bound ((nascent t).mpr waits)
    | found array waits born finds =>
      exact .found array (fun is => waits ((nascent t).mp is))
        (fun is => born (unborn t is)) ((found t).mpr finds)
    | done array waits born finds =>
      exact .done array (fun is => waits ((nascent t).mp is))
        (fun is => born (unborn t is)) (fun is => finds ((found t).mp is))
  born := by
    intro t waits
    rw [spawned]
    exact stages.born t ((nascent t).mp waits)
  unborn := by
    intro t waits
    rw [spawned]
    exact stages.unborn t (unborn t waits)
  plain := by
    intro t absent
    rw [spawned] at absent
    rw [history]
    exact stages.plain t absent
  finds := by
    intro t finds
    rw [spawned]
    exact stages.finds t ((found t).mp finds)
  word := by
    intro me t this return_ here
    rw [preconds]
    rcases word me t this return_ here with before | known
    · exact stages.word me t this return_ before
    · exact known

theorem Stages.change (stages : Stages s) (t : Task) (spawned : ∀ other, other ≠ t →
      after.spawned other = s.spawned other)
    (history : ∀ other, other ≠ t → after.history other = s.history other)
    (preconds : ∀ other, other ≠ t → after.preconds other = s.preconds other)
    (threads : ∀ other, other ≠ t → after.threads other = s.threads other)
    (found : ∀ other, other ≠ t → (Found after.pcs other ↔ Found s.pcs other))
    (known : after.spawned t = some words)
    (stage : ∃ todo, after.history t ++ todo = schedule words ∧
      Todo (after.preconds t) (after.threads t) (Found after.pcs t) words todo)
    (born : after.threads t ≠ .unborn)
    (word : ∀ me other this return_, after.pcs me = .checking other this return_ →
      other ≠ t ∧ s.pcs me = .checking other this return_) : Stages after where
  staged := by
    intro other otherWords there
    by_cases same : other = t
    · subst same
      rw [known] at there
      cases there
      exact stage
    · rw [spawned other same] at there
      rw [history other same, preconds other same, threads other same]
      simp only [found other same]
      exact stages.staged other otherWords there
  born := by
    intro other waits
    by_cases same : other = t
    · subst same
      rw [known]
      exact Option.some_ne_none _
    · rw [threads other same] at waits
      rw [spawned other same]
      exact stages.born other waits
  unborn := by
    intro other waits
    by_cases same : other = t
    · subst same
      exact absurd waits born
    · rw [threads other same] at waits
      rw [spawned other same]
      exact stages.unborn other waits
  plain := by
    intro other absent
    by_cases same : other = t
    · subst same
      rw [known] at absent
      cases absent
    · rw [spawned other same] at absent
      rw [history other same]
      exact stages.plain other absent
  finds := by
    intro other finds
    by_cases same : other = t
    · subst same
      rw [known]
      exact Option.some_ne_none _
    · rw [spawned other same]
      exact stages.finds other ((found other same).mp finds)
  word := by
    intro me other this return_ here
    obtain ⟨differs, before⟩ := word me other this return_ here
    rw [preconds other differs]
    exact stages.word me other this return_ before

theorem Stages.array {me : Task} {place : Task → Place} {spot : Nat → Spot} (stages : Stages s)
    (waiting : Waiting s.waiter s.threads s.pcs place spot) (checks : (s.pcs me).checks = some t)
    (unfound : (s.pcs me).finds = none) :
    ∃ words k, s.spawned t = some words ∧ s.preconds t = some (k, words) ∧ k ≤ words.length ∧
      s.history t ++ remaining words k = schedule words ∧ s.threads t = .nascent := by
  have nascent := waiting.atWorker t me ((waiting.checked t me).mpr checks)
  rw [unfound, if_neg (by simp)] at nascent
  cases known : s.spawned t with
  | none => exact absurd known (stages.born t nascent)
  | some words =>
    obtain ⟨todo, whole, stage⟩ := stages.staged t words known
    cases stage with
    | observes k array bound _ => exact ⟨words, k, rfl, array, bound, whole, nascent⟩
    | found _ waits => exact absurd nascent waits
    | done _ waits => exact absurd nascent waits

/-- The next word that is to be observed for the task lies at `maddr`. -/
def Awaits (s : State) (t : Task) (maddr : UInt64) : Prop :=
  ∃ k words this, s.preconds t = some (k + 1, words) ∧ words[k]? = some this ∧ qalign this = maddr

theorem Awaits.congr {maddr : UInt64} (awaits : Awaits s t maddr)
    (same : after.preconds t = s.preconds t) : Awaits after t maddr := by
  obtain ⟨k, words, this, array, word⟩ := awaits
  exact ⟨k, words, this, same.trans array, word⟩

def AtHome (s : State) (spot : Nat → Spot) : Prop :=
  ∀ x maddr t, spot x = .queue maddr .FFQ → s.waiter x = .task t → s.threads t = .nascent →
    Awaits s t maddr

def Pc.Collecting : Pc → Prop
  | .filling _ _ _ => True
  | .emptying _ _ _ => True
  | .unlocking _ _ _ => True
  | .launch _ _ => True
  | _ => False

structure Batch (released batch : List Nat) (drained launched : List Task)
    (waiter : Nat → Waiter) (pc : Pc) (side : List Nat) : Prop where
  nodes : released ++ (pc.head.toList ++ side) = batch
  once : batch.Nodup
  tasks : drained.map Waiter.task = launched.map Waiter.task ++ side.map waiter
  collecting : pc.Collecting → released = [] ∧ launched = []

theorem Batch.congr {released batch : List Nat} {drained launched : List Task}
    {waiter waiterAfter : Nat → Waiter} {pc pcAfter : Pc} {side : List Nat}
    (batch_ : Batch released batch drained launched waiter pc side)
    (same : ∀ x ∈ side, waiterAfter x = waiter x) (heads : pcAfter.head = pc.head)
    (collecting : pcAfter.Collecting → pc.Collecting) :
    Batch released batch drained launched waiterAfter pcAfter side where
  nodes := by
    rw [heads]
    exact batch_.nodes
  once := batch_.once
  tasks := by
    rw [batch_.tasks, List.map_congr_left same]
  collecting := fun here => batch_.collecting (collecting here)

end Qthreads.Precond
