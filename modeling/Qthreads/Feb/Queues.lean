import Qthreads.Lib.Run
import Qthreads.Feb.Ops

namespace Qthreads.Feb

open Qthreads.Lib

namespace FebState

variable (s : FebState)

theorem put_febs (lockbin key : UInt64) (m : Option Addrstat) (bin k : UInt64) :
    (s.put lockbin key m).febs bin k = if bin = lockbin ∧ k = key then m else s.febs bin k := by
  by_cases sameBin : bin = lockbin
  · subst sameBin
    by_cases sameKey : k = key
    · subst sameKey
      simp [put]
    · simp [put, sameKey]
  · simp [put, sameBin]

theorem put_self (lockbin key : UInt64) (m : Option Addrstat) :
    (s.put lockbin key m).febs lockbin key = m := by
  rw [put_febs, if_pos ⟨rfl, rfl⟩]

theorem put_put (lockbin key : UInt64) (m n : Option Addrstat) :
    (s.put lockbin key m).put lockbin key n = s.put lockbin key n := by
  simp [put]

@[simp] theorem put_log (lockbin key : UInt64) (m : Option Addrstat) :
    (s.put lockbin key m).log = s.log := rfl

@[simp] theorem emit_febs (event : Event) : (s.emit event).febs = s.febs := rfl

@[simp] theorem copy_febs (dest src : UInt64) : (s.copy dest src).febs = s.febs := by
  unfold copy
  split <;> rfl

@[simp] theorem copy_threads (dest src : UInt64) : (s.copy dest src).threads = s.threads := by
  unfold copy
  split <;> rfl

@[simp] theorem copy_preconds (dest src : UInt64) : (s.copy dest src).preconds = s.preconds := by
  unfold copy
  split <;> rfl

@[simp] theorem copy_log (dest src : UInt64) : (s.copy dest src).log = s.log := by
  unfold copy
  split <;> rfl

end FebState

def Wake.event (maddr : UInt64) : Wake → Option Event
  | .setFull full => some (.setFull maddr full)
  | .copy _ _ => none
  | .schedule task => some (.scheduled task)
  | .collect task => some (.handed task)

section Perform

variable (s : FebState) (maddr : UInt64) (woken : List Wake)

@[simp] theorem perform_febs : (s.perform maddr woken).febs = s.febs := by
  induction woken generalizing s with
  | nil => rfl
  | cons wake rest ih =>
    cases wake with
    | setFull full => exact ih (s.emit (.setFull maddr full))
    | copy dest src => exact (ih (s.copy dest src)).trans (s.copy_febs dest src)
    | schedule task => exact ih (s.schedule task)
    | collect task => exact ih (s.emit (.handed task))

@[simp] theorem perform_preconds : (s.perform maddr woken).preconds = s.preconds := by
  induction woken generalizing s with
  | nil => rfl
  | cons wake rest ih =>
    cases wake with
    | setFull full => exact ih (s.emit (.setFull maddr full))
    | copy dest src => exact (ih (s.copy dest src)).trans (s.copy_preconds dest src)
    | schedule task => exact ih (s.schedule task)
    | collect task => exact ih (s.emit (.handed task))

theorem perform_threads (task : Task) :
    (s.perform maddr woken).threads task =
      if Wake.schedule task ∈ woken then .running else s.threads task := by
  induction woken generalizing s with
  | nil => rfl
  | cons wake rest ih =>
    cases wake with
    | setFull full => simp [FebState.perform, ih, FebState.emit]
    | copy dest src => simp [FebState.perform, ih]
    | collect other => simp [FebState.perform, ih, FebState.emit]
    | schedule other =>
      simp only [FebState.perform, ih, FebState.schedule, FebState.emit, FebState.setThread,
        List.mem_cons, Wake.schedule.injEq]
      by_cases same : task = other
      · subst same
        simp
      · simp [same]

theorem perform_log :
    (s.perform maddr woken).log = s.log ++ woken.filterMap (Wake.event maddr) := by
  induction woken generalizing s with
  | nil => simp [FebState.perform]
  | cons wake rest ih => cases wake <;> simp [FebState.perform, ih, FebState.emit,
      FebState.schedule, FebState.setThread, Wake.event, List.filterMap_cons]

end Perform

def Addrstat.Ordered (m : Addrstat) : Prop :=
  (m.full = true → m.FEQ = [] ∧ m.FFQ = []) ∧ (m.full = false → m.EFQ = [])

def waits (task : Task) (queue : List Addrres) : Nat :=
  queue.countP fun x => x.waiter = task

def Addrstat.waits (m : Addrstat) (task : Task) : Nat :=
  Feb.waits task m.EFQ + Feb.waits task m.FEQ + Feb.waits task m.FFQ

@[simp] theorem waits_nil (task : Task) : waits task [] = 0 := rfl

theorem waits_cons (task : Task) (x : Addrres) (rest : List Addrres) :
    waits task (x :: rest) = waits task rest + if x.waiter = task then 1 else 0 := by
  simp [waits, List.countP_cons]

theorem waits_flatMap_wakeFFQ (nascent : Task → Bool) (maddr : UInt64) (task : Task)
    (queue : List Addrres) :
    waits task queue = (queue.flatMap (wakeFFQ nascent maddr)).count (.schedule task) +
      (queue.flatMap (wakeFFQ nascent maddr)).count (.collect task) := by
  induction queue with
  | nil => rfl
  | cons x rest ih =>
    rw [waits_cons, ih, List.flatMap_cons, List.count_append, List.count_append]
    by_cases same : x.waiter = task
    · subst same
      cases young : nascent x.waiter <;> simp [wakeFFQ, young] <;> omega
    · cases young : nascent x.waiter <;> simp [wakeFFQ, young, same]

/-- What a `gotlock` function does to an ordered record: it leaves an ordered record with the
word's last bit, every task it takes from a queue is scheduled or collected once, and a
collected task is a nascent one. -/
structure Woken (nascent : Task → Bool) (m after : Addrstat) (woken : List Wake) : Prop where
  ordered : after.Ordered
  each : ∀ task, m.waits task =
    after.waits task + woken.count (.schedule task) + woken.count (.collect task)
  young : ∀ task, .collect task ∈ woken → nascent task = true
  bit : ∃ front back, woken = front ++ .setFull after.full :: back ∧
    ∀ full, Wake.setFull full ∉ back

theorem collect_mem_flatMap {nascent : Task → Bool} {maddr : UInt64} {queue : List Addrres}
    {task : Task} (member : Wake.collect task ∈ queue.flatMap (wakeFFQ nascent maddr)) :
    nascent task = true := by
  obtain ⟨x, _, inside⟩ := List.mem_flatMap.mp member
  cases young : nascent x.waiter with
  | false => simp [wakeFFQ, young] at inside
  | true =>
    simp only [wakeFFQ, young, if_true, List.mem_cons, reduceCtorEq, Wake.collect.injEq,
      List.not_mem_nil, or_false, false_or] at inside
    rw [inside]
    exact young

section

variable (nascent : Task → Bool) (maddr : UInt64)
include nascent maddr

theorem setFull_not_mem_flatMap (queue : List Addrres)
    (full : Bool) : Wake.setFull full ∉ queue.flatMap (wakeFFQ nascent maddr) := by
  intro member
  obtain ⟨x, _, inside⟩ := List.mem_flatMap.mp member
  cases young : nascent x.waiter <;> simp [wakeFFQ, young] at inside

theorem gotlockFillInner_readers (x : Addrres) (rest copiers : List Addrres) :
    gotlockFillInner nascent maddr (Addrstat.mk false [] (x :: rest) copiers).depth
        ⟨false, [], x :: rest, copiers⟩ =
      (⟨false, [], rest, []⟩, .setFull true :: copiers.flatMap (wakeFFQ nascent maddr) ++
        [.copy x.addr maddr, .schedule x.waiter] ++ [.setFull false]) := by
  simp only [Addrstat.depth, List.length_nil, List.length_cons, Nat.zero_add, gotlockFillInner,
    gotlockEmptyInner]

theorem gotlockEmptyInner_writers (x : Addrres) (rest : List Addrres) :
    gotlockEmptyInner nascent maddr (Addrstat.mk true (x :: rest) [] []).depth
        ⟨true, x :: rest, [], []⟩ =
      (⟨true, rest, [], []⟩,
        [.setFull false, .copy maddr x.addr, .schedule x.waiter] ++ [.setFull true]) := by
  simp only [Addrstat.depth, List.length_nil, List.length_cons, Nat.add_zero, gotlockFillInner,
    gotlockEmptyInner, List.flatMap_nil]

end

variable {m : Addrstat}

theorem gotlockFillInner_woken (nascent : Task → Bool) (maddr : UInt64) (ordered : m.Ordered) :
    Woken nascent m (gotlockFillInner nascent maddr m.depth m).1
      (gotlockFillInner nascent maddr m.depth m).2 := by
  obtain ⟨full, writers, readers, copiers⟩ := m
  obtain ⟨whenFull, whenEmpty⟩ := ordered
  simp only at whenFull whenEmpty
  cases full with
  | true =>
    obtain ⟨rfl, rfl⟩ := whenFull rfl
    refine ⟨⟨fun _ => ⟨rfl, rfl⟩, nofun⟩, ?_, ?_, ⟨[], [], rfl, by simp⟩⟩
    · intro task
      simp [Addrstat.depth, gotlockFillInner, Addrstat.waits]
    · intro task member
      simp [Addrstat.depth, gotlockFillInner] at member
  | false =>
    obtain rfl := whenEmpty rfl
    cases readers with
    | nil =>
      refine ⟨⟨fun _ => ⟨rfl, rfl⟩, fun _ => rfl⟩, ?_, ?_, ⟨[], _, rfl, ?_⟩⟩
      · intro task
        simp [Addrstat.depth, gotlockFillInner, Addrstat.waits,
          waits_flatMap_wakeFFQ nascent maddr task copiers]
      · intro task member
        simp only [Addrstat.depth, gotlockFillInner, List.mem_cons, reduceCtorEq,
          false_or] at member
        exact collect_mem_flatMap member
      · exact setFull_not_mem_flatMap nascent maddr copiers
    | cons x rest =>
      rw [gotlockFillInner_readers]
      refine ⟨⟨nofun, fun _ => rfl⟩, ?_, ?_, ?_⟩
      · intro task
        have copied := waits_flatMap_wakeFFQ nascent maddr task copiers
        by_cases same : x.waiter = task <;>
          simp [Addrstat.waits, waits_cons, same] <;> omega
      · intro task member
        simp only [List.mem_append, List.mem_cons, reduceCtorEq, false_or, List.not_mem_nil,
          or_false] at member
        exact collect_mem_flatMap member
      · exact ⟨_, [], rfl, by simp⟩

theorem gotlockEmptyInner_woken (nascent : Task → Bool) (maddr : UInt64) (ordered : m.Ordered) :
    Woken nascent m (gotlockEmptyInner nascent maddr m.depth m).1
      (gotlockEmptyInner nascent maddr m.depth m).2 := by
  obtain ⟨full, writers, readers, copiers⟩ := m
  obtain ⟨whenFull, whenEmpty⟩ := ordered
  simp only at whenFull whenEmpty
  cases writers with
  | nil =>
    refine ⟨⟨nofun, fun _ => rfl⟩, ?_, ?_, ⟨[], [], rfl, by simp⟩⟩
    · intro task
      simp [Addrstat.depth, gotlockEmptyInner, Addrstat.waits]
    · intro task member
      simp [Addrstat.depth, gotlockEmptyInner] at member
  | cons x rest =>
    cases full with
    | false => cases whenEmpty rfl
    | true =>
      obtain ⟨rfl, rfl⟩ := whenFull rfl
      rw [gotlockEmptyInner_writers]
      refine ⟨⟨fun _ => ⟨rfl, rfl⟩, nofun⟩, ?_, ?_, ?_⟩
      · intro task
        by_cases same : x.waiter = task <;> simp [Addrstat.waits, waits_cons, same]
      · intro task member
        simp at member
      · exact ⟨_, [], rfl, by simp⟩

theorem unused_eq_new (unused : m.unused = true) : m = addrstatNew := by
  obtain ⟨full, writers, readers, copiers⟩ := m
  simp only [Addrstat.unused, Bool.and_eq_true, List.isEmpty_iff] at unused
  obtain ⟨⟨⟨rfl, rfl⟩, rfl⟩, rfl⟩ := unused
  rfl

end Qthreads.Feb
