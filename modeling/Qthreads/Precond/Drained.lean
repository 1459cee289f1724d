import Qthreads.Lib.Run
import Qthreads.Precond.Launch

namespace Qthreads.Precond

open Feb (Task qalign)
open Feb.Steps (Op Queue Gotlock)
open Lib
open Function (update update_of_ne update_self update_eq_self update_apply)

def Pc.locks : Pc → Option UInt64
  | .alone op => some (key op)
  | .release maddr | .blocked maddr => some maddr
  | .filling _ maddr _ | .emptying _ maddr _ | .unlocking _ maddr _ => some maddr
  | .checking _ this _ => some (qalign this)
  | _ => none

/-- The word the task fills. -/
def Pc.fills : Pc → Option UInt64
  | .filling _ maddr _ => some maddr
  | _ => none

/-- A full word has nobody in FFQ and FEQ, unless its holder is about to take them out. -/
def Drained (s : State) (maddr : UInt64) (m : Stat) : Prop :=
  m.full = true → m.head .FFQ = none ∧ m.head .FEQ = none ∨
    ∃ me, m.holder = some me ∧ (s.pcs me).fills = some maddr

/-- The records know who locked them, and full words are drained. -/
structure Locked (s : State) : Prop where
  holds : ∀ me maddr, (s.pcs me).locks = some maddr →
    ∃ m, s.stat maddr = some m ∧ m.holder = some me
  held : ∀ maddr m me, s.stat maddr = some m → m.holder = some me →
    (s.pcs me).locks = some maddr
  drained : ∀ maddr m, s.stat maddr = some m → Drained s maddr m

variable {s after : State} {me t : Task} {pc : Pc} {maddr : UInt64} {m new : Stat}
  {value : Option Stat} {q : Queue}

theorem locks_of_fills (fills : pc.fills = some maddr) : pc.locks = some maddr := by
  cases pc with
  | filling => exact fills
  | _ => cases fills

namespace Locked

variable (locked : Locked s)
include locked

theorem mine (locks : (s.pcs me).locks = some maddr) (known : s.stat maddr = some m) :
    m.holder = some me := by
  obtain ⟨found, same, holder⟩ := locked.holds me maddr locks
  rw [known] at same
  cases same
  exact holder

theorem settled (known : s.stat maddr = some m)
    (idle : ∀ me, m.holder = some me → (s.pcs me).fills = none) (full : m.full = true) :
    m.head .FFQ = none ∧ m.head .FEQ = none := by
  rcases locked.drained maddr m known full with empty | ⟨me, holder, fills⟩
  · exact empty
  · rw [idle me holder] at fills
    cases fills

theorem free (known : s.stat maddr = some m) (unlocked : m.holder = none) (full : m.full = true) :
    m.head .FFQ = none ∧ m.head .FEQ = none :=
  locked.settled known (fun me holder => by rw [unlocked] at holder; cases holder) full

theorem own (locks : (s.pcs me).locks = some maddr) (known : s.stat maddr = some m)
    (idle : (s.pcs me).fills = none) (full : m.full = true) :
    m.head .FFQ = none ∧ m.head .FEQ = none := by
  refine locked.settled known (fun other holder => ?_) full
  rw [locked.mine locks known] at holder
  cases holder
  exact idle

theorem quiet (stat : after.stat = s.stat) (moves : after.pcs = update s.pcs me pc)
    (locks : pc.locks = (s.pcs me).locks) (fills : pc.fills = (s.pcs me).fills) : Locked after := by
  have same : ∀ other, (after.pcs other).locks = (s.pcs other).locks ∧
      (after.pcs other).fills = (s.pcs other).fills := by
    intro other
    rw [moves]
    by_cases mine : other = me
    · subst mine
      rw [update_self]
      exact ⟨locks, fills⟩
    · rw [update_of_ne mine]
      exact ⟨rfl, rfl⟩
  refine ⟨fun other maddr here => ?_, fun maddr m other known holder => ?_,
    fun maddr m known full => ?_⟩
  · rw [(same other).1] at here
    rw [stat]
    exact locked.holds other maddr here
  · rw [stat] at known
    rw [(same other).1]
    exact locked.held maddr m other known holder
  · rw [stat] at known
    rcases locked.drained maddr m known full with empty | ⟨filler, holder, fills⟩
    · exact .inl empty
    · exact .inr ⟨filler, holder, by rw [(same filler).2]; exact fills⟩

theorem change (stat : after.stat = update s.stat maddr value)
    (moves : after.pcs = update s.pcs me pc)
    (alone : ∀ m other, s.stat maddr = some m → m.holder = some other → other = me)
    (before : ∀ other, (s.pcs me).locks = some other → other = maddr)
    (now : pc.locks = some maddr ∧ value.bind Stat.holder = some me ∨
      pc.locks = none ∧ value.bind Stat.holder = none)
    (drains : ∀ m, value = some m → m.full = true →
      m.head .FFQ = none ∧ m.head .FEQ = none ∨ m.holder = some me ∧ pc.fills = some maddr) :
    Locked after := by
  refine ⟨fun other at_ here => ?_, fun at_ m other known holder => ?_, fun at_ m known full => ?_⟩
  · rw [moves] at here
    rw [stat]
    by_cases mine : other = me
    · subst mine
      rw [update_self] at here
      rcases now with ⟨locks, holder⟩ | ⟨locks, -⟩
      · rw [locks] at here
        cases here
        rw [update_self]
        exact Option.bind_eq_some_iff.mp holder
      · rw [locks] at here
        cases here
    · rw [update_of_ne mine] at here
      obtain ⟨m, known, holder⟩ := locked.holds other at_ here
      refine ⟨m, ?_, holder⟩
      rw [update_of_ne, known]
      rintro rfl
      exact mine (alone m other known holder)
  · rw [stat] at known
    rw [moves]
    by_cases same : at_ = maddr
    · subst same
      rw [update_self] at known
      rw [known] at now
      rcases now with ⟨locks, taken⟩ | ⟨-, taken⟩
      · cases holder.symm.trans taken
        rw [update_self]
        exact locks
      · cases holder.symm.trans taken
    · rw [update_of_ne same] at known
      have locks := locked.held at_ m other known holder
      rw [update_of_ne]
      · exact locks
      · rintro rfl
        exact same (before at_ locks)
  · rw [stat] at known
    by_cases same : at_ = maddr
    · subst same
      rw [update_self] at known
      rcases drains m known full with empty | ⟨holder, fills⟩
      · exact .inl empty
      · refine .inr ⟨me, holder, ?_⟩
        rw [moves, update_self]
        exact fills
    · rw [update_of_ne same] at known
      rcases locked.drained at_ m known full with empty | ⟨filler, holder, fills⟩
      · exact .inl empty
      · refine .inr ⟨filler, holder, ?_⟩
        rw [moves, update_of_ne]
        · exact fills
        · rintro rfl
          exact same (before at_ (locks_of_fills fills))

theorem reach (stat : after.stat = update s.stat maddr value)
    (moves : after.pcs = update s.pcs me pc) (before : (s.pcs me).locks = none)
    (unlocked : ∀ m, s.stat maddr = some m → m.holder = none)
    (now : pc.locks = some maddr ∧ value.bind Stat.holder = some me ∨
      pc.locks = none ∧ value.bind Stat.holder = none)
    (drains : ∀ m, value = some m → m.full = true → m.head .FFQ = none ∧ m.head .FEQ = none) :
    Locked after := by
  refine locked.change stat moves ?_ ?_ now fun m same full => .inl (drains m same full)
  · intro m other known holder
    rw [unlocked m known] at holder
    cases holder
  · intro other locks
    rw [before] at locks
    cases locks

theorem work (stat : after.stat = update s.stat maddr (some new))
    (moves : after.pcs = update s.pcs me pc) (before : (s.pcs me).locks = some maddr)
    (now : pc.locks = some maddr ∧ new.holder = some me ∨ pc.locks = none ∧ new.holder = none)
    (drains : new.full = true →
      new.head .FFQ = none ∧ new.head .FEQ = none ∨ new.holder = some me ∧ pc.fills = some maddr) :
    Locked after := by
  refine locked.change stat moves ?_ ?_ now ?_
  · intro m other known holder
    rw [locked.mine before known] at holder
    exact (Option.some.inj holder).symm
  · intro other locks
    rw [before] at locks
    exact (Option.some.inj locks).symm
  · rintro _ ⟨⟩
    exact drains

theorem take (known : s.stat maddr = some m) (unlocked : m.holder = none)
    (stat : after.stat = update s.stat maddr (some { m with holder := some me }))
    (moves : after.pcs = update s.pcs me pc) (before : (s.pcs me).locks = none)
    (locks : pc.locks = some maddr) : Locked after := by
  have drained := locked.free known unlocked
  refine locked.reach stat moves before ?_ (.inl ⟨locks, rfl⟩) ?_
  · intro other same
    rw [known] at same
    cases same
    exact unlocked
  · rintro _ ⟨⟩ full
    exact drained full

theorem drop (known : s.stat maddr = some m) (before : (s.pcs me).locks = some maddr)
    (idle : (s.pcs me).fills = none)
    (stat : after.stat = update s.stat maddr (some { m with holder := none }))
    (moves : after.pcs = update s.pcs me pc) (locks : pc.locks = none) : Locked after := by
  have drained := locked.own before known idle
  exact locked.work stat moves before (.inr ⟨locks, rfl⟩) fun full => .inl (drained full)

/-- A task that fills the word may still have waiters to take out. -/
theorem fill (known : s.stat maddr = some m) (before : (s.pcs me).locks = some maddr)
    (stat : after.stat = update s.stat maddr (some new)) (moves : after.pcs = update s.pcs me pc)
    (holder : new.holder = m.holder) (fills : pc.fills = some maddr) : Locked after := by
  have mine : new.holder = some me := holder.trans (locked.mine before known)
  exact locked.work stat moves before (.inl ⟨locks_of_fills fills, mine⟩)
    fun _ => .inr ⟨mine, fills⟩

end Locked

theorem leave_locks (remove : Option UInt64) : (leave remove).locks = none := by
  cases remove <;> rfl

theorem leave_fills (remove : Option UInt64) : (leave remove).fills = none := by
  cases remove <;> rfl

theorem unlocked_locks (tasks : Option Nat) (remove : Option UInt64) :
    (unlocked tasks remove).locks = none := by
  cases tasks with
  | none => exact leave_locks remove
  | some tasks => rfl

theorem after_locks (return_ : Return) : return_.after.locks = none := by
  cases return_ <;> rfl

theorem after_fills (return_ : Return) : return_.after.fills = none := by
  cases return_ <;> rfl

theorem innerOf_locks (gotlock : Gotlock) (maddr : UInt64) (tasks : Option Nat) :
    (innerOf gotlock maddr tasks).locks = some maddr := by
  cases gotlock <;> rfl

theorem waits_empty {op : Op} {addr : UInt64} {full : Bool}
    (decides : op.decision full = .wait q addr) (waiting : q ≠ .EFQ) : full = false := by
  cases op <;> cases full <;> simp [Op.decision] at decides ⊢
  all_goals exact waiting decides.1.symm

theorem locked_step (locked : Locked s) (step : Step s me after) : Locked after := by
  cases step with
  | spawn t words here =>
    exact locked.quiet rfl rfl (by rw [here]; rfl) (by rw [here]; rfl)
  | spawnPlain => exact locked.quiet rfl (update_eq_self me s.pcs).symm rfl rfl
  | start => exact locked.quiet rfl (update_eq_self me s.pcs).symm rfl rfl
  | resume here => exact locked.quiet rfl rfl (by rw [here]; rfl) (by rw [here]; rfl)
  | found op here _ known unlocked =>
    exact locked.take known unlocked rfl rfl (by rw [here]; rfl) rfl
  | missing => exact locked
  | create op here _ missing =>
    refine locked.reach rfl rfl (by rw [here]; rfl) ?_ (.inl ⟨rfl, rfl⟩) ?_
    · intro m same
      rw [missing] at same
      cases same
    · rintro _ ⟨⟩ -
      exact ⟨rfl, rfl⟩
  | createEmpty op here _ missing =>
    have moves : s.pcs = update s.pcs me .idle := by
      rw [← here, update_eq_self]
    refine locked.reach rfl moves (by rw [here]; rfl) ?_ (.inr ⟨rfl, rfl⟩) ?_
    · intro m same
      rw [missing] at same
      cases same
    · rintro _ ⟨⟩ ⟨⟩
  | @wait op m queue addr x here known decides unused =>
    have locks : (s.pcs me).locks = some (key op) := by rw [here]; rfl
    have holder := locked.mine locks known
    refine locked.work rfl rfl locks (.inl ⟨rfl, holder⟩) fun full => .inl ?_
    have full : m.full = true := full
    have writer : queue = .EFQ := by
      by_contra other
      rw [waits_empty decides other] at full
      cases full
    subst writer
    have drained := locked.own locks known (by rw [here]; rfl) full
    exact drained
  | giveUp here known => exact locked.quiet rfl rfl (by rw [here]; rfl) (by rw [here]; rfl)
  | @begin op m gotlock here known =>
    have locks : (s.pcs me).locks = some (key op) := by rw [here]; rfl
    have holder := locked.mine locks known
    refine locked.work rfl rfl locks (.inl ⟨innerOf_locks .., holder⟩) fun full => .inr ⟨holder, ?_⟩
    cases gotlock with
    | fill => rfl
    | empty => cases full
  | release here known | park here known =>
    exact locked.drop known (congrArg Pc.locks here) (by rw [here]; rfl) rfl rfl rfl
  | collectFirst head here known =>
    exact locked.fill known (congrArg Pc.locks here) rfl rfl rfl rfl
  | collect here known | wakeReader here known =>
    exact locked.fill known (congrArg Pc.locks here) rfl (update_eq_self me s.pcs).symm rfl
      (by rw [here]; rfl)
  | wakeTaker here known =>
    have locks := congrArg Pc.locks here
    have holder := locked.mine locks known
    exact locked.work rfl rfl locks (.inl ⟨rfl, holder⟩) (by rintro ⟨⟩)
  | @filled outer maddr m tasks here known noReader noTaker =>
    have locks := congrArg Pc.locks here
    have same : s.stat = update s.stat maddr (some m) := by
      rw [← known, update_eq_self]
    exact locked.work same rfl locks (.inl ⟨rfl, locked.mine locks known⟩)
      fun _ => .inl ⟨noReader, noTaker⟩
  | wakeWriter here known => exact locked.fill known (congrArg Pc.locks here) rfl rfl rfl rfl
  | emptied here => exact locked.quiet rfl rfl (by rw [here]; rfl) (by rw [here]; rfl)
  | unlock here known =>
    exact locked.drop known (congrArg Pc.locks here) (by rw [here]; rfl) rfl rfl
      (unlocked_locks ..)
  | launchNone here =>
    exact locked.quiet rfl rfl (by rw [here, leave_locks]; rfl) (by rw [here, leave_fills]; rfl)
  | launch here => exact locked.quiet rfl rfl (by rw [here]; rfl) (by rw [here]; rfl)
  | next here => exact locked.quiet rfl rfl (by rw [here]; rfl) (by rw [here]; rfl)
  | handledMore here => exact locked.quiet rfl rfl (by rw [here]; rfl) (by rw [here]; rfl)
  | handledLast here =>
    exact locked.quiet rfl rfl (by rw [here, leave_locks]; rfl) (by rw [here, leave_fills]; rfl)
  | checkDone here => exact locked.quiet rfl rfl (by rw [here]; rfl) (by rw [here]; rfl)
  | checkMissing => exact locked.quiet rfl (update_eq_self me s.pcs).symm rfl rfl
  | checkFound here _ _ known unlocked =>
    exact locked.take known unlocked rfl rfl (by rw [here]; rfl) rfl
  | checkFull here _ known =>
    exact locked.drop known (congrArg Pc.locks here) (by rw [here]; rfl) rfl rfl rfl
  | checkWait x here known empty =>
    have locks := congrArg Pc.locks here
    refine locked.work rfl rfl locks (.inr ⟨after_locks _, rfl⟩) fun full => ?_
    rw [Stat.setHead, empty] at full
    cases full
  | ready here =>
    exact locked.quiet rfl rfl (by rw [here, after_locks]; rfl) (by rw [here, after_fills]; rfl)
  | removed here known unlocked =>
    refine locked.reach rfl rfl (by rw [here]; rfl) ?_ (.inr ⟨rfl, rfl⟩) (by rintro _ ⟨⟩)
    intro m same
    rw [known] at same
    cases same
    exact unlocked
  | kept here => exact locked.quiet rfl rfl (by rw [here]; rfl) (by rw [here]; rfl)

theorem used_step (step : Step s me after) : ∃ x, ∀ y, y ≠ x → after.used y = true → s.used y = true := by
  have allocated : ∀ (x : Nat) (used : Nat → Bool) (y : Nat), y ≠ x →
      update used x true y = true → used y = true := by
    intro x used y differs is
    rwa [update_of_ne differs] at is
  have freed : ∀ (x y : Nat), update s.used x false y = true → s.used y = true := by
    intro x y is
    rw [update_apply] at is
    split at is
    · cases is
    · exact is
  cases step with
  | wait x => exact ⟨x, allocated x s.used⟩
  | collectFirst head => exact ⟨head, allocated head s.used⟩
  | checkWait x => exact ⟨x, allocated x s.used⟩
  | @wakeReader _ _ _ _ x | @wakeTaker _ _ _ _ x | @wakeWriter _ _ _ _ x =>
    exact ⟨x, fun y _ is => freed x y is⟩
  | @launchNone x | @next _ x | @handledLast x => exact ⟨x, fun y _ is => freed x y is⟩
  | _ => exact ⟨0, fun _ _ is => is⟩

end Qthreads.Precond
