import Qthreads.Feb.Queues
import Qthreads.Feb.Steps

namespace Qthreads.Feb.Steps

open Qthreads.Lib
open Function (update update_of_ne update_self)

/-! Every task finds its record and takes its lock while it holds the stripe's lock, so the task
that takes a record out of the table under both locks is the last one to know it. -/

inductive Effect (me : Task) (before after : Shared) : Prop where
  | quiet (febs : after.febs = before.febs) (owner : after.owner = before.owner)
      (heap : after.heap = before.heap) (next : after.next = before.next)
  | bin {lockbin : UInt64} {owner : Option Task}
      (free : before.owner lockbin = none ∨ before.owner lockbin = some me)
      (febs : after.febs = before.febs)
      (changed : after.owner = update before.owner lockbin owner)
      (heap : after.heap = before.heap) (next : after.next = before.next)
  | lock {lockbin key : UInt64} {m : Nat} {record : Record}
      (linked : before.febs lockbin key = some m) (alive : before.heap m = some record)
      (free : record.holder = none)
      (febs : after.febs = before.febs) (owner : after.owner = before.owner)
      (changed : after.heap = update before.heap m
        (some { record with holder := some me }))
      (next : after.next = before.next)
  | held {m : Nat} {record changedTo : Record} (alive : before.heap m = some record)
      (mine : record.holder = some me)
      (febs : after.febs = before.febs) (owner : after.owner = before.owner)
      (changed : after.heap = update before.heap m (some changedTo))
      (next : after.next = before.next) (doomed : changedTo.doomed = record.doomed)
  | link {lockbin key : UInt64} {stat : Addrstat} (mine : before.owner lockbin = some me)
      (missing : before.febs lockbin key = none)
      (febs : after.febs = update before.febs lockbin
        (update (before.febs lockbin) key (some before.next)))
      (owner : after.owner = before.owner)
      (changed : after.heap = update before.heap before.next (some ⟨stat, none, none⟩))
      (next : after.next = before.next + 1)
  | unlink {lockbin key : UInt64} {m : Nat} {record : Record}
      (mine : before.owner lockbin = some me) (linked : before.febs lockbin key = some m)
      (alive : before.heap m = some record) (holding : record.holder = some me)
      (febs : after.febs = update before.febs lockbin
        (update (before.febs lockbin) key none))
      (owner : after.owner = before.owner)
      (changed : after.heap = update before.heap m
        (some { record with doomed := some me }))
      (next : after.next = before.next)
  | delete {m : Nat} {record : Record} (alive : before.heap m = some record)
      (mine : record.doomed = some me) (free : record.holder = none)
      (febs : after.febs = before.febs) (owner : after.owner = before.owner)
      (changed : after.heap = update before.heap m none)
      (next : after.next = before.next)

structure Good (s : Shared) : Prop where
  linked : ∀ {lockbin key m}, s.febs lockbin key = some m →
    ∃ record, s.heap m = some record ∧ record.doomed = none
  single : ∀ {lockbin key lockbin' key' m}, s.febs lockbin key = some m →
    s.febs lockbin' key' = some m → lockbin' = lockbin ∧ key' = key
  allocated : ∀ {m record}, s.heap m = some record → m < s.next

def Holding (me : Task) (s : Shared) (m : Nat) : Prop :=
  ∃ record, s.heap m = some record ∧ record.holder = some me

variable {m : Nat} {s : Shared}

theorem Holding.holder {me : Task} {record : Record}
    (holding : Holding me s m) (alive : s.heap m = some record) : record.holder = some me := by
  obtain ⟨held, there, mine⟩ := holding
  rw [alive, Option.some.injEq] at there
  rw [there]
  exact mine

def Doomed (me : Task) (s : Shared) (m : Nat) (holder : Option Task) : Prop :=
  ∃ record, s.heap m = some record ∧ record.holder = holder ∧ record.doomed = some me ∧
    record.stat.unused = true

def Own [Topology] (me : Task) (s : Shared) : Pc → Prop
  | .idle | .parked | .next _ | .enter _ _ | .copyFree _ _ => True
  | .look request _ | .leave request _ => s.owner request.lockbin = some me
  | .take request _ m =>
    s.owner request.lockbin = some me ∧ s.febs request.lockbin request.key = some m
  | .both request _ m =>
    s.owner request.lockbin = some me ∧ s.febs request.lockbin request.key = some m ∧
      Holding me s m
  | .unlinked lockbin m => s.owner lockbin = some me ∧ Doomed me s m (some me)
  | .gone m => Doomed me s m (some me)
  | .dispose m => Doomed me s m none
  | .alone _ _ m | .copying _ _ _ _ m | .waking _ _ m | .release _ m | .blocked m =>
    Holding me s m

section Frames

variable {me other : Task} {before after : Shared}

section

variable (effect : Effect me before after)
include effect

theorem Effect.owner_stable (apart : other ≠ me)
    {lockbin : UInt64} (owned : before.owner lockbin = some other) :
    after.owner lockbin = some other := by
  cases effect with
  | quiet _ owner => rw [owner, owned]
  | @bin changedBin owner free _ changed =>
    have differs : lockbin ≠ changedBin := by
      intro same
      rw [same] at owned
      rcases free with absent | mine
      · rw [absent] at owned
        cases owned
      · rw [mine, Option.some.injEq] at owned
        exact apart owned.symm
    rw [changed, update_of_ne differs, owned]
  | lock _ _ _ _ owner => rw [owner, owned]
  | held _ _ _ owner => rw [owner, owned]
  | link _ _ _ owner => rw [owner, owned]
  | unlink _ _ _ _ _ owner => rw [owner, owned]
  | delete _ _ _ _ owner => rw [owner, owned]

theorem Effect.febs_stable (apart : other ≠ me)
    {lockbin key : UInt64} (owned : before.owner lockbin = some other) :
    after.febs lockbin key = before.febs lockbin key := by
  have elsewhere : ∀ bin, before.owner bin = some me → lockbin ≠ bin := by
    intro bin mine same
    rw [same, mine, Option.some.injEq] at owned
    exact apart owned.symm
  cases effect with
  | quiet febs => rw [febs]
  | bin _ febs => rw [febs]
  | lock _ _ _ febs => rw [febs]
  | held _ _ febs => rw [febs]
  | link mine _ febs => rw [febs, update_of_ne (elsewhere _ mine)]
  | unlink mine _ _ _ febs => rw [febs, update_of_ne (elsewhere _ mine)]
  | delete _ _ _ febs => rw [febs]

section

variable (good : Good before) (apart : other ≠ me)
include good apart

theorem Effect.heap_stable {m : Nat} {record : Record} (alive : before.heap m = some record)
    (theirs : record.holder = some other ∨ record.holder = none ∧ record.doomed = some other) :
    after.heap m = some record := by
  have notMine : record.holder ≠ some me := by
    intro mine
    rcases theirs with held | ⟨free, -⟩
    · rw [held, Option.some.injEq] at mine
      exact apart mine
    · rw [free] at mine
      cases mine
  cases effect with
  | quiet _ _ heap => rw [heap, alive]
  | bin _ _ _ heap => rw [heap, alive]
  | @lock lockbin key locked found linked here free _ _ changed =>
    have differs : m ≠ locked := by
      intro same
      rw [same, here, Option.some.injEq] at alive
      subst alive
      obtain ⟨record, there, undoomed⟩ := good.linked linked
      rw [here, Option.some.injEq] at there
      subst there
      rcases theirs with held | ⟨-, doomed⟩
      · rw [free] at held
        cases held
      · rw [undoomed] at doomed
        cases doomed
    rw [changed, update_of_ne differs, alive]
  | @held locked found _ here mine _ _ changed =>
    have differs : m ≠ locked := by
      intro same
      rw [same, here, Option.some.injEq] at alive
      subst alive
      exact notMine mine
    rw [changed, update_of_ne differs, alive]
  | link _ _ _ _ changed =>
    have differs : m ≠ before.next := Nat.ne_of_lt (good.allocated alive)
    rw [changed, update_of_ne differs, alive]
  | @unlink _ _ locked found _ _ here mine _ _ changed =>
    have differs : m ≠ locked := by
      intro same
      rw [same, here, Option.some.injEq] at alive
      subst alive
      exact notMine mine
    rw [changed, update_of_ne differs, alive]
  | @delete locked found here mine free _ _ changed =>
    have differs : m ≠ locked := by
      intro same
      rw [same, here, Option.some.injEq] at alive
      subst alive
      rcases theirs with held | ⟨-, doomed⟩
      · rw [free] at held
        cases held
      · rw [mine, Option.some.injEq] at doomed
        exact apart doomed.symm
    rw [changed, update_of_ne differs, alive]

theorem Effect.holding_stable {m : Nat} (holding : Holding other before m) :
    Holding other after m := by
  obtain ⟨record, alive, mine⟩ := holding
  exact ⟨record, effect.heap_stable good apart alive (.inl mine), mine⟩

theorem Effect.doomed_stable {m : Nat} {holder : Option Task}
    (whose : holder = some other ∨ holder = none) (doomed : Doomed other before m holder) :
    Doomed other after m holder := by
  obtain ⟨record, alive, held, mine, unused⟩ := doomed
  refine ⟨record, effect.heap_stable good apart alive ?_, held, mine, unused⟩
  rcases whose with whose | whose
  · exact .inl (held.trans whose)
  · exact .inr ⟨held.trans whose, mine⟩

theorem Effect.own_stable [Topology] {pc : Pc} (own : Own other before pc) : Own other after pc := by
  cases pc with
  | idle => trivial
  | parked => trivial
  | next agenda => trivial
  | enter request agenda => trivial
  | copyFree dest src => trivial
  | look request agenda => exact effect.owner_stable apart own
  | leave request agenda => exact effect.owner_stable apart own
  | take request agenda m =>
    exact ⟨effect.owner_stable apart own.1, (effect.febs_stable apart own.1).trans own.2⟩
  | both request agenda m =>
    exact ⟨effect.owner_stable apart own.1, (effect.febs_stable apart own.1).trans own.2.1,
      effect.holding_stable good apart own.2.2⟩
  | unlinked lockbin m =>
    exact ⟨effect.owner_stable apart own.1, effect.doomed_stable good apart (.inl rfl) own.2⟩
  | gone m => exact effect.doomed_stable good apart (.inl rfl) own
  | dispose m => exact effect.doomed_stable good apart (.inr rfl) own
  | alone request agenda m => exact effect.holding_stable good apart own
  | copying dest src key then_ m => exact effect.holding_stable good apart own
  | waking gotlock key m => exact effect.holding_stable good apart own
  | release agenda m => exact effect.holding_stable good apart own
  | blocked m => exact effect.holding_stable good apart own

end

end

end Frames

theorem update_key (febs : UInt64 → UInt64 → Option Nat) (lockbin key : UInt64) (m : Option Nat) :
    ∀ lockbin' key',
      (lockbin' = lockbin ∧ key' = key ∧
        update febs lockbin (update (febs lockbin) key m) lockbin' key' = m) ∨
      (¬ (lockbin' = lockbin ∧ key' = key) ∧
        update febs lockbin (update (febs lockbin) key m) lockbin' key' =
          febs lockbin' key') := by
  intro lockbin' key'
  by_cases sameBin : lockbin' = lockbin
  · by_cases sameKey : key' = key
    · left
      rw [sameBin, sameKey, update_self, update_self]
      exact ⟨rfl, rfl, rfl⟩
    · right
      rw [sameBin, update_self, update_of_ne sameKey]
      exact ⟨fun same => sameKey same.2, rfl⟩
  · right
    rw [update_of_ne sameBin]
    exact ⟨fun same => sameBin same.1, rfl⟩

variable {record changedTo : Record}

theorem Good.changed {before after : Shared} (good : Good before)
    (alive : before.heap m = some record)
    (febs : after.febs = before.febs)
    (heap : after.heap = update before.heap m (some changedTo))
    (next : after.next = before.next) (doomed : changedTo.doomed = record.doomed) :
    Good after := by
  constructor
  · intro lockbin key found linked
    rw [febs] at linked
    obtain ⟨old, there, undoomed⟩ := good.linked linked
    by_cases here : found = m
    · rw [here, alive, Option.some.injEq] at there
      subst there
      exact ⟨changedTo, by rw [heap, here, update_self], doomed.trans undoomed⟩
    · exact ⟨old, by rw [heap, update_of_ne here, there], undoomed⟩
  · intro lockbin key lockbin' key' found first second
    rw [febs] at first second
    exact good.single first second
  · intro found old there
    rw [next]
    by_cases here : found = m
    · rw [here]
      exact good.allocated alive
    · rw [heap, update_of_ne here] at there
      exact good.allocated there

variable {lockbin key : UInt64}

theorem Good.link {before after : Shared} (good : Good before) {stat : Addrstat}
    (febs : after.febs = update before.febs lockbin
      (update (before.febs lockbin) key (some before.next)))
    (heap : after.heap = update before.heap before.next (some ⟨stat, none, none⟩))
    (next : after.next = before.next + 1) : Good after := by
  have old : ∀ {lockbin key m}, before.febs lockbin key = some m → m < before.next := by
    intro lockbin key m linked
    obtain ⟨record, there, -⟩ := good.linked linked
    exact good.allocated there
  have entries := update_key before.febs lockbin key (some before.next)
  rw [← febs] at entries
  constructor
  · intro lockbin' key' found linked
    rcases entries lockbin' key' with ⟨-, -, new⟩ | ⟨-, same⟩
    · rw [new, Option.some.injEq] at linked
      exact ⟨⟨stat, none, none⟩, by rw [heap, ← linked, update_self], rfl⟩
    · rw [same] at linked
      obtain ⟨record, there, undoomed⟩ := good.linked linked
      have differs : found ≠ before.next := Nat.ne_of_lt (old linked)
      exact ⟨record, by rw [heap, update_of_ne differs, there], undoomed⟩
  · intro first firstKey second secondKey found left right
    rcases entries first firstKey with ⟨firstBin, firstSame, new⟩ | ⟨-, same⟩
    · rw [new, Option.some.injEq] at left
      rcases entries second secondKey with ⟨secondBin, secondSame, -⟩ | ⟨-, other⟩
      · exact ⟨secondBin.trans firstBin.symm, secondSame.trans firstSame.symm⟩
      · rw [other] at right
        exact absurd (old right) (by omega)
    · rw [same] at left
      rcases entries second secondKey with ⟨-, -, new⟩ | ⟨-, other⟩
      · rw [new, Option.some.injEq] at right
        exact absurd (old left) (by omega)
      · rw [other] at right
        exact good.single left right
  · intro found record there
    rw [next]
    by_cases here : found = before.next
    · omega
    · rw [heap, update_of_ne here] at there
      have less := good.allocated there
      omega

theorem Good.unlink {before after : Shared} (good : Good before)
    (linked : before.febs lockbin key = some m)
    (alive : before.heap m = some record)
    (febs : after.febs = update before.febs lockbin
      (update (before.febs lockbin) key none))
    (heap : after.heap = update before.heap m (some changedTo))
    (next : after.next = before.next) : Good after := by
  have entries := update_key before.febs lockbin key none
  rw [← febs] at entries
  have kept : ∀ {lockbin' key' found}, after.febs lockbin' key' = some found →
      before.febs lockbin' key' = some found ∧ found ≠ m := by
    intro lockbin' key' found there
    rcases entries lockbin' key' with ⟨-, -, new⟩ | ⟨differs, same⟩
    · rw [new] at there
      cases there
    · rw [same] at there
      refine ⟨there, ?_⟩
      intro equal
      rw [equal] at there
      exact differs (good.single linked there)
  constructor
  · intro lockbin' key' found there
    obtain ⟨was, differs⟩ := kept there
    obtain ⟨old, here, undoomed⟩ := good.linked was
    exact ⟨old, by rw [heap, update_of_ne differs, here], undoomed⟩
  · intro first firstKey second secondKey found left right
    exact good.single (kept left).1 (kept right).1
  · intro found old there
    rw [next]
    by_cases here : found = m
    · rw [here]
      exact good.allocated alive
    · rw [heap, update_of_ne here] at there
      exact good.allocated there

theorem Good.delete {before after : Shared} (good : Good before) {me : Task}
    {record : Record} (alive : before.heap m = some record) (mine : record.doomed = some me)
    (febs : after.febs = before.febs) (heap : after.heap = update before.heap m none)
    (next : after.next = before.next) : Good after := by
  constructor
  · intro lockbin key found linked
    rw [febs] at linked
    obtain ⟨old, there, undoomed⟩ := good.linked linked
    have differs : found ≠ m := by
      intro same
      rw [same, alive, Option.some.injEq] at there
      subst there
      rw [mine] at undoomed
      cases undoomed
    exact ⟨old, by rw [heap, update_of_ne differs, there], undoomed⟩
  · intro lockbin key lockbin' key' found first second
    rw [febs] at first second
    exact good.single first second
  · intro found old there
    rw [next]
    by_cases here : found = m
    · rw [here]
      exact good.allocated alive
    · rw [heap, update_of_ne here] at there
      exact good.allocated there

theorem Good.congr {before after : Shared} (good : Good before)
    (febs : after.febs = before.febs) (heap : after.heap = before.heap)
    (next : after.next = before.next) : Good after := by
  constructor
  · intro lockbin key m linked
    rw [febs] at linked
    rw [heap]
    exact good.linked linked
  · intro lockbin key lockbin' key' m first second
    rw [febs] at first second
    exact good.single first second
  · intro m record alive
    rw [heap] at alive
    rw [next]
    exact good.allocated alive

theorem Effect.good {me : Task} {before after : Shared} (effect : Effect me before after)
    (good : Good before) : Good after := by
  cases effect with
  | quiet febs _ heap next => exact good.congr febs heap next
  | bin _ febs _ heap next => exact good.congr febs heap next
  | lock _ alive _ febs _ changed next => exact good.changed alive febs changed next rfl
  | held alive _ febs _ changed next doomed => exact good.changed alive febs changed next doomed
  | link _ _ febs _ changed next => exact good.link febs changed next
  | unlink _ linked alive _ febs _ changed next => exact good.unlink linked alive febs changed next
  | delete alive mine _ febs _ changed next => exact good.delete alive mine febs changed next

theorem copy_quiet (me : Task) (s : Shared) (dest src : UInt64) : Effect me s (s.copy dest src) := by
  rw [Shared.copy]
  split
  · exact .quiet rfl rfl rfl rfl
  · exact .quiet rfl rfl rfl rfl

theorem perform_frame (s : Shared) (woken : List Wake) :
    (s.perform woken).febs = s.febs ∧ (s.perform woken).owner = s.owner ∧
      (s.perform woken).heap = s.heap ∧ (s.perform woken).next = s.next := by
  induction woken generalizing s with
  | nil => exact ⟨rfl, rfl, rfl, rfl⟩
  | cons wake rest ih =>
    cases wake with
    | setFull full => exact ih s
    | copy dest src =>
      rw [Shared.perform]
      have frame := ih (s.copy dest src)
      rw [Shared.copy] at frame ⊢
      split at frame
      · rename_i moved
        rw [if_pos moved]
        exact frame
      · rename_i stays
        rw [if_neg stays]
        exact frame
    | schedule task => exact ih (s.setThread task .running)
    | collect task => exact ih s

theorem act_effect [Topology] {me : Task} {before after : Shared} {pc pc' : Pc} {label : Label}
    (own : Own me before pc) (acted : Act me before pc label after pc') :
    Effect me before after ∧ Own me after pc' := by
  cases acted with
  | call op running => exact ⟨.quiet rfl rfl rfl rfl, trivial⟩
  | spawn task preconds running unborn => exact ⟨.quiet rfl rfl rfl rfl, trivial⟩
  | start new => exact ⟨.quiet rfl rfl rfl rfl, trivial⟩
  | resume running => exact ⟨.quiet rfl rfl rfl rfl, trivial⟩
  | launched vacant => exact ⟨.quiet rfl rfl rfl rfl, trivial⟩
  | check present => exact ⟨.quiet rfl rfl rfl rfl, trivial⟩
  | remove => exact ⟨.quiet rfl rfl rfl rfl, trivial⟩
  | done => exact ⟨.quiet rfl rfl rfl rfl, trivial⟩
  | lockBin free => exact ⟨.bin (.inl free) rfl rfl rfl rfl, update_self ..⟩
  | found linked => exact ⟨.quiet rfl rfl rfl rfl, own, linked⟩
  | missing absent creates => exact ⟨.quiet rfl rfl rfl rfl, own⟩
  | missingCheck absent => exact ⟨.quiet rfl rfl rfl rfl, own⟩
  | missingRemove absent => exact ⟨.quiet rfl rfl rfl rfl, own⟩
  | outOfMemory absent creates => exact ⟨.quiet rfl rfl rfl rfl, own⟩
  | create absent creates =>
    refine ⟨.link own absent rfl rfl rfl rfl, own, ?_⟩
    exact (congrFun (update_self ..) _).trans (update_self ..)
  | createEmpty absent creates => exact ⟨.link own absent rfl rfl rfl rfl, own⟩
  | @unlockBin request agenda =>
    refine ⟨.bin (.inr own) rfl rfl rfl rfl, ?_⟩
    cases request with
    | call op =>
      rw [Request.left]
      cases op.freeCopy with
      | none => trivial
      | some args => trivial
    | check task this => trivial
    | remove maddr => trivial
  | copyFree => exact ⟨copy_quiet .., trivial⟩
  | lockRecord alive free =>
    refine ⟨.lock own.2 alive free rfl rfl rfl rfl, own.1, own.2, ?_⟩
    exact ⟨_, update_self .., rfl⟩
  | status alive =>
    exact ⟨.held alive (own.2.2.holder alive) rfl rfl rfl rfl rfl, own.1⟩
  | handOver other => exact ⟨.bin (.inr own.1) rfl rfl rfl rfl, own.2.2⟩
  | handOverCheck => exact ⟨.bin (.inr own.1) rfl rfl rfl rfl, own.2.2⟩
  | inUse alive used =>
    exact ⟨.held alive (own.2.2.holder alive) rfl rfl rfl rfl rfl, own.1⟩
  | unlink alive unused =>
    obtain ⟨owned, linked, holding⟩ := own
    have mine := holding.holder alive
    refine ⟨.unlink owned linked alive mine rfl rfl rfl rfl, owned, ?_⟩
    exact ⟨_, update_self .., mine, rfl, unused⟩
  | unlockUnlinked => exact ⟨.bin (.inr own.1) rfl rfl rfl rfl, own.2⟩
  | dropRecord alive =>
    obtain ⟨record, there, mine, doomed, unused⟩ := own
    rw [alive, Option.some.injEq] at there
    subst there
    exact ⟨.held alive mine rfl rfl rfl rfl rfl, _, update_self .., rfl, doomed, unused⟩
  | delete =>
    obtain ⟨record, alive, free, doomed, -⟩ := own
    exact ⟨.delete alive doomed free rfl rfl rfl rfl, trivial⟩
  | wait alive decided =>
    have mine := Holding.holder own alive
    exact ⟨.held alive mine rfl rfl rfl rfl rfl, _, update_self .., mine⟩
  | noAddrres alive decided => exact ⟨.quiet rfl rfl rfl rfl, own⟩
  | fail alive decided => exact ⟨.quiet rfl rfl rfl rfl, own⟩
  | wake alive decided => exact ⟨.quiet rfl rfl rfl rfl, own⟩
  | decide alive decided => exact ⟨.quiet rfl rfl rfl rfl, own⟩
  | @copyLocked dest src key then_ m =>
    have quiet := copy_quiet me before dest src
    have held : Holding me (before.copy dest src) m := by
      obtain ⟨record, there, mine⟩ := own
      refine ⟨record, ?_, mine⟩
      rw [Shared.copy]
      split
      · exact there
      · exact there
    refine ⟨quiet, ?_⟩
    cases then_ with
    | none => exact held
    | some gotlock => exact held
  | @gotlock gotlock key m record alive =>
    have mine := Holding.holder own alive
    obtain ⟨febs, owner, heap, next⟩ := perform_frame
      (before.setRecord m (some { record with
        stat := (gotlock.inner before.nascent key record.stat).1 }))
      (gotlock.inner before.nascent key record.stat).2
    refine ⟨.held alive mine febs owner heap next rfl, ?_⟩
    exact ⟨_, (congrFun heap m).trans (update_self ..), mine⟩
  | checkFull alive full => exact ⟨.quiet rfl rfl rfl rfl, own⟩
  | checkWait alive empty =>
    have mine := Holding.holder own alive
    exact ⟨.held alive mine rfl rfl rfl rfl rfl, _, update_self .., mine⟩
  | release alive =>
    exact ⟨.held alive (Holding.holder own alive) rfl rfl rfl rfl rfl, trivial⟩
  | park alive =>
    exact ⟨.held alive (Holding.holder own alive) rfl rfl rfl rfl rfl, trivial⟩

theorem act_respects [Topology] : Config.Respects Act Good Own where
  keeps := by
    intro task before after mine next label good own acted
    obtain ⟨effect, kept⟩ := act_effect own acted
    exact ⟨effect.good good, kept⟩
  stable := by
    intro task other before after mine next theirs label apart good own ownOther acted
    exact (act_effect own acted).1.own_stable good apart ownOther

namespace Pc

def locks : Pc → Option Nat
  | both _ _ m | unlinked _ m | gone m | alone _ _ m | copying _ _ _ _ m | waking _ _ m
  | release _ m | blocked m => some m
  | _ => none

def wants : Pc → Option Nat
  | take _ _ m => some m
  | _ => none

def uses : Pc → Option Nat
  | take _ _ m | dispose m => some m
  | pc => pc.locks

/-- The task is in `qthread_FEB_remove`. -/
def removing : Pc → Bool
  | enter (.remove _) _ | look (.remove _) _ | take (.remove _) _ _ | both (.remove _) _ _
  | leave (.remove _) _ | unlinked _ _ | gone _ | dispose _ => true
  | _ => false

end Pc

def Shared.view (s : Shared) (lockbin key : UInt64) : Addrstat :=
  match (s.febs lockbin key).bind s.heap with
  | none => addrstatNew
  | some record => record.stat

structure RemovalSafe [Topology] (config : Config) : Prop where
  deleted : ∀ task m after, Step config (task, .delete m) after →
    ∃ record, config.shared.heap m = some record ∧ record.stat.full = true ∧
      record.stat.EFQ = [] ∧ record.stat.FEQ = [] ∧ record.stat.FFQ = [] ∧
      record.holder = none ∧
      ∀ other, (config.tasks other).locks ≠ some m ∧ (config.tasks other).wants ≠ some m
  alive : ∀ task m, (config.tasks task).uses = some m →
    ∃ record, config.shared.heap m = some record
  unchanged : ∀ task label after, (config.tasks task).removing = true →
    Step config (task, label) after →
    ∀ lockbin key, after.shared.view lockbin key = config.shared.view lockbin key

theorem holding_of_locks [Topology] {me : Task} {pc : Pc} (own : Own me s pc)
    (locked : pc.locks = some m) : Holding me s m := by
  cases pc with
  | both request agenda held =>
    cases locked
    exact own.2.2
  | unlinked lockbin held =>
    cases locked
    obtain ⟨record, alive, mine, -⟩ := own.2
    exact ⟨record, alive, mine⟩
  | gone held =>
    cases locked
    obtain ⟨record, alive, mine, -⟩ := own
    exact ⟨record, alive, mine⟩
  | alone request agenda held =>
    cases locked
    exact own
  | copying dest src key then_ held =>
    cases locked
    exact own
  | waking gotlock key held =>
    cases locked
    exact own
  | release agenda held =>
    cases locked
    exact own
  | blocked held =>
    cases locked
    exact own
  | _ => cases locked

theorem linked_of_wants [Topology] {me : Task} {pc : Pc} (own : Own me s pc)
    (wanted : pc.wants = some m) : ∃ lockbin key, s.febs lockbin key = some m := by
  cases pc with
  | take request agenda found =>
    cases wanted
    exact ⟨_, _, own.2⟩
  | _ => cases wanted

theorem alive_of_uses [Topology] {me : Task} {pc : Pc} (good : Good s)
    (own : Own me s pc) (used : pc.uses = some m) : ∃ record, s.heap m = some record := by
  have locked : pc.locks = some m → ∃ record, s.heap m = some record := by
    intro locked
    obtain ⟨record, alive, -⟩ := holding_of_locks own locked
    exact ⟨record, alive⟩
  cases pc with
  | take request agenda found =>
    cases used
    obtain ⟨record, alive, -⟩ := good.linked own.2
    exact ⟨record, alive⟩
  | dispose found =>
    cases used
    obtain ⟨record, alive, -⟩ := own
    exact ⟨record, alive⟩
  | _ => exact locked used

theorem view_setRecord
    (alive : s.heap m = some record) (stat : changedTo.stat = record.stat) (lockbin key : UInt64) :
    (s.setRecord m (some changedTo)).view lockbin key = s.view lockbin key := by
  rw [Shared.view, Shared.view]
  simp only [Shared.setRecord]
  cases found : s.febs lockbin key with
  | none => rfl
  | some there =>
    rw [Option.bind_some, Option.bind_some]
    by_cases same : there = m
    · rw [same, update_self, alive]
      exact stat
    · rw [update_of_ne same]

theorem view_unlink
    (good : Good s) (linked : s.febs lockbin key = some m) (alive : s.heap m = some record)
    (unused : record.stat.unused = true) (lockbin' key' : UInt64) :
    ((s.setKey lockbin key none).setRecord m (some changedTo)).view lockbin' key' =
      s.view lockbin' key' := by
  have entries := update_key s.febs lockbin key none lockbin' key'
  rw [Shared.view, Shared.view]
  simp only [Shared.setRecord, Shared.setKey]
  rcases entries with ⟨sameBin, sameKey, removed⟩ | ⟨differs, same⟩
  · rw [removed, sameBin, sameKey, linked, Option.bind_some, alive]
    exact (unused_eq_new unused).symm
  · rw [same]
    cases found : s.febs lockbin' key' with
    | none => rfl
    | some there =>
      have apart : there ≠ m := by
        intro equal
        rw [equal] at found
        exact differs (good.single linked found)
      rw [Option.bind_some, Option.bind_some, update_of_ne apart]

theorem view_delete (good : Good s) {me : Task} {record : Record}
    (alive : s.heap m = some record) (doomed : record.doomed = some me) (lockbin key : UInt64) :
    (s.setRecord m none).view lockbin key = s.view lockbin key := by
  rw [Shared.view, Shared.view]
  simp only [Shared.setRecord]
  cases found : s.febs lockbin key with
  | none => rfl
  | some there =>
    obtain ⟨linked, here, undoomed⟩ := good.linked found
    have apart : there ≠ m := by
      intro same
      rw [same, alive, Option.some.injEq] at here
      subst here
      rw [doomed] at undoomed
      cases undoomed
    rw [Option.bind_some, Option.bind_some, update_of_ne apart]

theorem view_removing [Topology] {me : Task} {before after : Shared} {pc pc' : Pc} {label : Label}
    (good : Good before) (own : Own me before pc) (removing : pc.removing = true)
    (acted : Act me before pc label after pc') (lockbin key : UInt64) :
    after.view lockbin key = before.view lockbin key := by
  cases acted with
  | lockRecord alive free =>
    refine view_setRecord alive ?_ lockbin key
    rfl
  | inUse alive used =>
    refine view_setRecord alive ?_ lockbin key
    rfl
  | dropRecord alive =>
    refine view_setRecord alive ?_ lockbin key
    rfl
  | status alive => cases removing
  | unlink alive unused => exact view_unlink good own.2.1 alive unused lockbin key
  | delete =>
    obtain ⟨record, alive, -, doomed, -⟩ := own
    exact view_delete good alive doomed lockbin key
  | lockBin free => rfl
  | found linked => rfl
  | missingRemove absent => rfl
  | unlockBin => rfl
  | unlockUnlinked => rfl
  | _ => cases removing

theorem holds_removalSafe [Topology] {config : Config} (holds : Config.Holds Good Own config) :
    RemovalSafe config := by
  constructor
  · intro task m after taken
    have own := holds.tasks task
    cases taken with
    | move acted =>
      generalize config.tasks task = pc at acted own
      cases acted with
      | delete =>
        obtain ⟨record, alive, free, doomed, unused⟩ := own
        have new := unused_eq_new unused
        refine ⟨record, alive, by rw [new]; rfl, by rw [new]; rfl, by rw [new]; rfl,
          by rw [new]; rfl, free, ?_⟩
        intro other
        constructor
        · intro locked
          have held := (holding_of_locks (holds.tasks other) locked).holder alive
          rw [free] at held
          cases held
        · intro wanted
          obtain ⟨lockbin, key, linked⟩ := linked_of_wants (holds.tasks other) wanted
          obtain ⟨there, here, undoomed⟩ := holds.shared.linked linked
          rw [alive, Option.some.injEq] at here
          subst here
          rw [doomed] at undoomed
          cases undoomed
  · intro task m used
    exact alive_of_uses holds.shared (holds.tasks task) used
  · intro task label after removing taken
    have own := holds.tasks task
    cases taken with
    | move acted => exact view_removing holds.shared own removing acted

theorem Fresh.holds [Topology] {config : Config} (fresh : Fresh config) :
    Config.Holds Good Own config := by
  constructor
  · constructor
    · intro lockbin key m linked
      rw [fresh.febs] at linked
      cases linked
    · intro lockbin key lockbin' key' m linked
      rw [fresh.febs] at linked
      cases linked
    · intro m record alive
      rw [fresh.heap] at alive
      cases alive
  · intro task
    rw [fresh.tasks]
    trivial

/-- Whatever the interleaving, a record is deleted only once it is full, has no waiters and no
task knows it, no task uses a deleted record, and `qthread_FEB_remove` changes no word. -/
theorem run_removalSafe [Topology] {first last : Config} {labels : List (Nat × Label)}
    (fresh : Fresh first) (run : Run Step first labels last) : RemovalSafe last :=
  holds_removalSafe (fresh.holds.run act_respects run)

def oneTask : Config where
  shared :=
    { febs := fun _ _ => none
      owner := fun _ => none
      heap := fun _ => none
      next := 0
      memory := fun _ => 0
      threads := fun _ => .running
      preconds := fun _ => [] }
  tasks := fun _ => .idle

theorem oneTask_fresh : Fresh oneTask := ⟨fun _ _ => rfl, fun _ => rfl, fun _ => rfl, fun _ => rfl⟩

theorem oneTask_disposes [Topology] : ∃ labels last, Run Step oneTask labels last ∧
    last.tasks 0 = .dispose 0 := by
  have key : qalign 8 = 8 := by decide +kernel
  refine Config.exists_move 0 rfl (.call (.empty 8) rfl) ?_
  refine Config.exists_move 0 rfl (.lockBin rfl) ?_
  refine Config.exists_move 0 rfl (.createEmpty rfl rfl) ?_
  refine Config.exists_move 0 rfl .unlockBin ?_
  refine Config.exists_move 0 rfl .done ?_
  refine Config.exists_move 0 rfl (.call (.fill 8) rfl) ?_
  refine Config.exists_move 0 rfl (.lockBin ?_) ?_
  · simp only [Request.lockbin, Op.lookup, Op.addr, Lookup.lockbin, key]
    exact update_self ..
  refine Config.exists_move 0 rfl (.found (m := 0) ?_) ?_
  · simp only [Request.lockbin, Request.key, Op.lookup, Op.addr, Lookup.lockbin, key]
    exact (congrFun (update_self ..) _).trans (update_self ..)
  refine Config.exists_move 0 rfl (.lockRecord rfl rfl) ?_
  refine Config.exists_move 0 rfl (.handOver nofun) ?_
  refine Config.exists_move 0 rfl (.wake rfl rfl) ?_
  refine Config.exists_move 0 rfl (.gotlock rfl) ?_
  refine Config.exists_move 0 rfl (.release rfl) ?_
  refine Config.exists_move 0 rfl .remove ?_
  refine Config.exists_move 0 rfl (.lockBin ?_) ?_
  · simp only [Request.lockbin, Op.lookup, Op.addr, Lookup.lockbin, key]
    exact update_self ..
  refine Config.exists_move 0 rfl (.found (m := 0) ?_) ?_
  · simp only [Request.lockbin, Request.key, Op.lookup, Op.addr, Lookup.lockbin, key]
    exact (congrFun (update_self ..) _).trans (update_self ..)
  refine Config.exists_move 0 rfl (.lockRecord rfl rfl) ?_
  refine Config.exists_move 0 rfl (.unlink rfl rfl) ?_
  refine Config.exists_move 0 rfl .unlockUnlinked ?_
  refine Config.exists_move 0 rfl (.dropRecord rfl) ?_
  exact ⟨[], _, .nil _, rfl⟩

theorem run_removalSafe_fill :
    ∃ last, last.tasks 0 = .dispose 0 ∧ @RemovalSafe twoWorkers last := by
  obtain ⟨labels, last, run, there⟩ := @oneTask_disposes twoWorkers
  exact ⟨last, there, @run_removalSafe twoWorkers _ _ _ oneTask_fresh run⟩

end Qthreads.Feb.Steps
