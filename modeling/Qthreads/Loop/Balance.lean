import Mathlib.Algebra.GroupWithZero.Nat
import Mathlib.Algebra.BigOperators.Group.List.Basic
import Qthreads.Lib.Run

namespace Qthreads.Loop

open Qthreads.Lib
open Function (update update_of_ne update_self)

/-! `qt_loop_balance_inner` cuts `[start, stop)` into one range per worker and spawns
`qloop_wrapper` on the first of them; each wrapper spawns more wrappers, deciding
from its own id and from the level its parent wrote into the shared array.  The
spawned tasks run in any order, so the tree is a step relation on the set of tasks
that are still running. -/

structure QloopWrapperArgs where
  startat : Nat
  stopat : Nat
  id : Nat
  level : Nat
  spawnthreads : Nat
deriving DecidableEq

/-- The iterations one wrapper hands to `func`. -/
def QloopWrapperArgs.iterations (arg : QloopWrapperArgs) : List Nat :=
  List.range' arg.startat (arg.stopat - arg.startat)

/-- The worker count is a `qthread_worker_id_t` and the result a
`qthread_shepherd_id_t`, both `unsigned short`. -/
def maxworkers (start stop : Nat) (workers : UInt16) : Nat :=
  (if stop - start > workers.toNat then workers.toNat else stop - start) % 2 ^ 16

/-- The loop that fills `qwa[i]` for the last `todo` values of `i`. -/
def fillQwa (each threads : Nat) : Nat → Nat → Nat → Nat → List QloopWrapperArgs
  | 0, _, _, _ => []
  | todo + 1, i, iterend, extra =>
    let stopat := if 0 < extra then iterend + each + 1 else iterend + each
    { startat := iterend, stopat, id := i, level := 0, spawnthreads := threads } ::
      fillQwa each threads todo (i + 1) stopat (extra - 1)

theorem fillQwa_length {each threads todo i iterend extra : Nat} :
    (fillQwa each threads todo i iterend extra).length = todo := by
  induction todo generalizing i iterend extra with
  | zero => rfl
  | succ todo ih => simp [fillQwa, ih]

/-- The array `qt_loop_balance_inner` builds, or `none` where computing `each` divides
by zero. -/
def qtLoopBalanceInner (start stop : Nat) (workers : UInt16) : Option (List QloopWrapperArgs) :=
  let threads := maxworkers start stop workers
  if threads = 0 then none
  else
    let each := (stop - start) / threads
    let extra := (stop - start) - each * threads
    some (fillQwa each threads threads 0 start extra)

/-- A `qloop_wrapper` task: launched but not yet started, or in its spawn loop with the
next level to use. -/
inductive Wrapper where
  | launched (myId : Nat)
  | spawning (myId level : Nat)

def Wrapper.myId : Wrapper → Nat
  | .launched myId | .spawning myId _ => myId

structure Tree where
  level : Nat → Nat
  tasks : List Wrapper
  launched : List Nat
  applied : List Nat

inductive TreeStep (qwa : List QloopWrapperArgs) : Tree → Nat → Tree → Prop where
  | enter {tree : Tree} {front back : List Wrapper} {myId : Nat} :
      tree.tasks = front ++ .launched myId :: back →
      TreeStep qwa tree myId
        { tree with tasks := front ++ .spawning myId (tree.level myId) :: back }
  | spawn {tree : Tree} {front back : List Wrapper} {myId level : Nat} {arg : QloopWrapperArgs} :
      tree.tasks = front ++ .spawning myId level :: back → qwa[myId]? = some arg →
      myId + 2 ^ level ≤ arg.spawnthreads - 1 →
      TreeStep qwa tree myId
        { tree with
          level := update tree.level (myId + 2 ^ level) (level + 1)
          tasks := front ++ .spawning myId (level + 1) :: (back ++ [.launched (myId + 2 ^ level)])
          launched := tree.launched ++ [myId + 2 ^ level] }
  | finish {tree : Tree} {front back : List Wrapper} {myId level : Nat} {arg : QloopWrapperArgs} :
      tree.tasks = front ++ .spawning myId level :: back → qwa[myId]? = some arg →
      ¬ myId + 2 ^ level ≤ arg.spawnthreads - 1 →
      TreeStep qwa tree myId
        { tree with tasks := front ++ back, applied := tree.applied ++ [myId] }

/-- The spawn of `qloop_wrapper` on `qwa[0]`, with the levels as `qwa` holds them. -/
def Tree.start (qwa : List QloopWrapperArgs) : Tree where
  level := fun i => (qwa[i]?.map QloopWrapperArgs.level).getD 0
  tasks := [.launched 0]
  launched := [0]
  applied := []

/-- The indices `func` has been applied to. -/
def Tree.covered (qwa : List QloopWrapperArgs) (tree : Tree) : List Nat :=
  tree.applied.flatMap fun i => (qwa[i]?.map QloopWrapperArgs.iterations).getD []

section Split

variable {each threads todo i iterend extra : Nat}

theorem fillQwa_iterations (enough : extra ≤ todo) :
    (fillQwa each threads todo i iterend extra).flatMap QloopWrapperArgs.iterations =
      List.range' iterend (todo * each + extra) := by
  induction todo generalizing i iterend extra with
  | zero =>
    have isZero : extra = 0 := by omega
    simp [fillQwa, isZero]
  | succ todo ih =>
    simp only [fillQwa, List.flatMap_cons, QloopWrapperArgs.iterations]
    rw [ih (by omega)]
    by_cases more : 0 < extra
    · simp only [more, if_true]
      have size : iterend + each + 1 - iterend = each + 1 := by omega
      have total : (todo + 1) * each + extra = each + 1 + (todo * each + (extra - 1)) := by
        rw [Nat.succ_mul]
        omega
      rw [size, total]
      exact List.range'_append_1
    · have isZero : extra = 0 := by omega
      subst isZero
      simp only [Nat.lt_irrefl, if_false]
      have size : iterend + each - iterend = each := by omega
      have total : (todo + 1) * each + 0 = each + (todo * each + (0 - 1)) := by
        rw [Nat.succ_mul]
        omega
      rw [size, total]
      exact List.range'_append_1

theorem fillQwa_size {arg : QloopWrapperArgs}
    (member : arg ∈ fillQwa each threads todo i iterend extra) :
    arg.spawnthreads = threads ∧ arg.level = 0 ∧
      (arg.stopat = arg.startat + each ∨ arg.stopat = arg.startat + each + 1) := by
  induction todo generalizing i iterend extra with
  | zero => simp [fillQwa] at member
  | succ todo ih =>
    simp only [fillQwa, List.mem_cons] at member
    rcases member with rfl | member
    · refine ⟨rfl, rfl, ?_⟩
      by_cases more : 0 < extra <;> simp [more]
    · exact ih member

/-- The ranges follow each other from `first` to `last`. -/
def Laid : Nat → List QloopWrapperArgs → Nat → Prop
  | first, [], last => first = last
  | first, arg :: rest, last =>
    arg.startat = first ∧ arg.startat ≤ arg.stopat ∧ Laid arg.stopat rest last

theorem fillQwa_laid (i iterend : Nat) (enough : extra ≤ todo) :
    Laid iterend (fillQwa each threads todo i iterend extra) (iterend + (todo * each + extra)) := by
  induction todo generalizing i iterend extra with
  | zero =>
    have isZero : extra = 0 := by omega
    simp [fillQwa, Laid, isZero]
  | succ todo ih =>
    have total : (todo + 1) * each = todo * each + each := Nat.succ_mul todo each
    simp only [fillQwa, Laid, true_and]
    by_cases more : 0 < extra
    · simp only [more, if_true]
      refine ⟨by omega, ?_⟩
      convert ih (i + 1) (iterend + each + 1) (by omega : extra - 1 ≤ todo) using 1
      omega
    · simp only [more, if_false]
      refine ⟨by omega, ?_⟩
      convert ih (i + 1) (iterend + each) (by omega : extra - 1 ≤ todo) using 1
      omega

theorem fillQwa_id {k : Nat} {arg : QloopWrapperArgs}
    (found : (fillQwa each threads todo i iterend extra)[k]? = some arg) : arg.id = i + k := by
  induction todo generalizing i iterend extra k with
  | zero => simp [fillQwa] at found
  | succ todo ih =>
    cases k with
    | zero =>
      simp only [fillQwa, List.getElem?_cons_zero, Option.some.injEq] at found
      rw [← found]
      rfl
    | succ k =>
      simp only [fillQwa, List.getElem?_cons_succ] at found
      rw [ih found]
      omega

end Split

def descendants (threads myId level : Nat) : List Nat :=
  if myId + 2 ^ level < threads then
    (myId + 2 ^ level) ::
      (descendants threads (myId + 2 ^ level) (level + 1) ++ descendants threads myId (level + 1))
  else []
termination_by threads - (myId + 2 ^ level)
decreasing_by
  all_goals
    have positive : 0 < 2 ^ level := Nat.two_pow_pos level
    omega

theorem descendants_count {threads myId level : Nat} (own : myId < 2 ^ level) (j : Nat) :
    (descendants threads myId level).count j =
      if j < threads ∧ j % 2 ^ level = myId ∧ j ≠ myId then 1 else 0 := by
  induction myId, level using descendants.induct threads with
  | case1 myId level below childIH restIH =>
    have positive : 0 < 2 ^ level := Nat.two_pow_pos level
    have double : 2 ^ (level + 1) = 2 ^ level * 2 := Nat.pow_succ 2 level
    rw [descendants, if_pos below, List.count_cons, List.count_append,
      childIH (by omega), restIH (by omega), double]
    have split : j % (2 ^ level * 2) = j % 2 ^ level + 2 ^ level * (j / 2 ^ level % 2) :=
      Nat.mod_mul
    have low : j % 2 ^ level < 2 ^ level := Nat.mod_lt j positive
    rw [split]
    generalize 2 ^ level = p at *
    rcases Nat.mod_two_eq_zero_or_one (j / p) with even | odd
    · have other : myId + p ≠ j := by
        rintro rfl
        rw [Nat.add_div_right _ positive, Nat.div_eq_of_lt own] at even
        omega
      have high : j % p ≠ myId + p := by omega
      simp [even, other, high]
    · have later : j ≠ myId := by
        rintro rfl
        rw [Nat.div_eq_of_lt own] at odd
        omega
      by_cases here : j = myId + p
      · subst here
        have low : (myId + p) % p = myId := by rw [Nat.add_mod_right, Nat.mod_eq_of_lt own]
        simp [odd, low, below]
        omega
      · have other : myId + p ≠ j := fun equal => here equal.symm
        have high : j % p + p ≠ myId := by omega
        simp [odd, here, other, later, high]
  | case2 myId level above =>
    rw [descendants, if_neg above]
    have positive : 0 < 2 ^ level := Nat.two_pow_pos level
    have whole : 2 ^ level * (j / 2 ^ level) + j % 2 ^ level = j := Nat.div_add_mod j _
    have no : ¬ (j < threads ∧ j % 2 ^ level = myId ∧ j ≠ myId) := by
      rintro ⟨small, low, other⟩
      have later : j / 2 ^ level ≠ 0 := by
        intro zero
        rw [zero] at whole
        omega
      have least := Nat.mul_le_mul_left (2 ^ level) (Nat.pos_of_ne_zero later)
      omega
    simp [no]

theorem descendants_root {threads : Nat} (positive : 0 < threads) :
    List.Perm (0 :: descendants threads 0 0) (List.range threads) := by
  rw [List.perm_iff_count]
  intro j
  rw [List.count_cons, descendants_count Nat.one_pos, List.nodup_range.count]
  by_cases first : j = 0
  · subst first
    simp [positive]
  · have other : (0 : Nat) ≠ j := fun equal => first equal.symm
    simp [first, other, Nat.mod_one]

def Wrapper.next (level : Nat → Nat) : Wrapper → Nat
  | .launched myId => level myId
  | .spawning _ next => next

def Wrapper.future (threads : Nat) (level : Nat → Nat) (task : Wrapper) : List Nat :=
  descendants threads task.myId (task.next level)

def Tree.pending (threads : Nat) (tree : Tree) (j : Nat) : Nat :=
  (tree.tasks.map fun task => (task.future threads tree.level).count j).sum

structure TreeInv (threads : Nat) (tree : Tree) : Prop where
  owned : ∀ task ∈ tree.tasks, task.myId < 2 ^ task.next tree.level
  once : ∀ j, tree.launched.count j + tree.pending threads j = if j < threads then 1 else 0
  running : List.Perm tree.launched (tree.applied ++ tree.tasks.map Wrapper.myId)

variable {threads : Nat} {tree after : Tree} {qwa : List QloopWrapperArgs} {myId : Nat}

variable {task : Wrapper}

theorem TreeInv.myId_lt (inv : TreeInv threads tree)
    (member : task ∈ tree.tasks) : task.myId < threads := by
  have launched : task.myId ∈ tree.launched :=
    inv.running.mem_iff.mpr (List.mem_append_right _ (List.mem_map_of_mem member))
  have counted := inv.once task.myId
  have positive : 0 < tree.launched.count task.myId := List.count_pos_iff.mpr launched
  by_contra above
  rw [if_neg above] at counted
  omega

theorem next_update {level : Nat → Nat} {new value : Nat}
    (other : task.myId ≠ new) : task.next (update level new value) = task.next level := by
  cases task with
  | launched id => exact update_of_ne other _ _
  | spawning id next => rfl

theorem TreeInv.start (positive : 0 < threads) (zero : (Tree.start qwa).level 0 = 0) :
    TreeInv threads (Tree.start qwa) := by
  refine ⟨?_, ?_, List.Perm.refl _⟩
  · intro task member
    have only : task = .launched 0 := by simpa [Tree.start] using member
    subst only
    exact Nat.two_pow_pos _
  · intro j
    have pending : (Tree.start qwa).pending threads j = (descendants threads 0 0).count j := by
      have level : (qwa[0]?.map QloopWrapperArgs.level).getD 0 = 0 := zero
      simp [Tree.pending, Tree.start, Wrapper.future, Wrapper.next, Wrapper.myId, level]
    have all := (List.perm_iff_count.mp (descendants_root positive)) j
    rw [List.nodup_range.count, List.count_cons] at all
    rw [pending, Tree.start, List.count_singleton]
    simp only [List.mem_range] at all
    omega

def others (front back : List Wrapper) (threads : Nat) (level : Nat → Nat) (j : Nat) : Nat :=
  ((front ++ back).map fun task => (task.future threads level).count j).sum

variable {front back : List Wrapper}

theorem pending_split {tree : Tree} (tasks : tree.tasks = front ++ task :: back) (j : Nat) :
    tree.pending threads j =
      others front back threads tree.level j + (task.future threads tree.level).count j := by
  simp only [Tree.pending, others, tasks, List.map_append, List.map_cons, List.sum_append,
    List.sum_cons]
  omega

theorem descendants_spawn {level : Nat} (below : myId + 2 ^ level < threads) :
    descendants threads myId level = (myId + 2 ^ level) ::
      (descendants threads (myId + 2 ^ level) (level + 1) ++
        descendants threads myId (level + 1)) := by
  rw [descendants, if_pos below]

theorem TreeInv.fresh (inv : TreeInv threads tree) {level : Nat}
    (tasks : tree.tasks = front ++ .spawning myId level :: back)
    (below : myId + 2 ^ level < threads) (member : task ∈ tree.tasks) :
    task.myId ≠ myId + 2 ^ level := by
  intro equal
  have once := inv.once (myId + 2 ^ level)
  have launched : myId + 2 ^ level ∈ tree.launched :=
    inv.running.mem_iff.mpr (List.mem_append_right _ (equal ▸ List.mem_map_of_mem member))
  have counted : 0 < tree.launched.count (myId + 2 ^ level) := List.count_pos_iff.mpr launched
  rw [pending_split tasks, if_pos below] at once
  simp only [Wrapper.future, Wrapper.next, Wrapper.myId, descendants_spawn below,
    List.count_cons_self] at once
  omega

theorem TreeInv.future_update (inv : TreeInv threads tree)
    {level value : Nat} (tasks : tree.tasks = front ++ .spawning myId level :: back)
    (below : myId + 2 ^ level < threads) (member : task ∈ front ++ back) :
    task.future threads (update tree.level (myId + 2 ^ level) value) =
      task.future threads tree.level := by
  have old : task ∈ tree.tasks := by
    rcases List.mem_append.mp member with other | other <;> simp [tasks, other]
  rw [Wrapper.future, Wrapper.future, next_update (inv.fresh tasks below old)]

theorem TreeInv.step (inv : TreeInv threads tree)
    (spawnthreads : ∀ (i : Nat) (arg : QloopWrapperArgs), qwa[i]? = some arg →
      arg.spawnthreads = threads)
    (taken : TreeStep qwa tree myId after) : TreeInv threads after := by
  cases taken with
  | @enter front back myId tasks =>
    refine ⟨?_, ?_, ?_⟩
    · intro task member
      simp only [List.mem_append, List.mem_cons] at member
      rcases member with other | rfl | other
      · exact inv.owned task (by simp [tasks, other])
      · exact inv.owned (.launched myId) (by simp [tasks])
      · exact inv.owned task (by simp [tasks, other])
    · intro j
      have once := inv.once j
      rw [pending_split tasks] at once
      rw [pending_split rfl]
      exact once
    · simpa [tasks, Wrapper.myId] using inv.running
  | @spawn front back myId level arg tasks found room =>
    have positive : 0 < 2 ^ level := Nat.two_pow_pos level
    have own : myId < 2 ^ level := inv.owned (.spawning myId level) (by simp [tasks])
    have below : myId + 2 ^ level < threads := by
      rw [spawnthreads myId arg found] at room
      omega
    refine ⟨?_, ?_, ?_⟩
    · intro task member
      simp only [List.mem_append, List.mem_cons, List.not_mem_nil, or_false] at member
      have keep : task ∈ front ∨ task ∈ back → task.myId <
          2 ^ task.next (update tree.level (myId + 2 ^ level) (level + 1)) := by
        intro other
        have old : task ∈ tree.tasks := by
          rcases other with other | other <;> simp [tasks, other]
        rw [next_update (inv.fresh tasks below old)]
        exact inv.owned task old
      rcases member with other | rfl | other | rfl
      · exact keep (.inl other)
      · change myId < 2 ^ (level + 1)
        omega
      · exact keep (.inr other)
      · simp only [Wrapper.myId, Wrapper.next, update_self]
        omega
    · intro j
      have once := inv.once j
      rw [pending_split tasks] at once
      rw [pending_split rfl]
      have same : others front (back ++ [.launched (myId + 2 ^ level)]) threads
          (update tree.level (myId + 2 ^ level) (level + 1)) j =
          others front back threads tree.level j +
            (descendants threads (myId + 2 ^ level) (level + 1)).count j := by
        have kept : (front ++ back).map (fun task => (task.future threads
            (update tree.level (myId + 2 ^ level) (level + 1))).count j) =
            (front ++ back).map (fun task => (task.future threads tree.level).count j) := by
          apply List.map_congr_left
          intro task member
          rw [inv.future_update tasks below member]
        simp only [others]
        rw [← List.append_assoc, List.map_append, List.sum_append, kept]
        simp [Wrapper.future, Wrapper.next, Wrapper.myId]
      rw [same]
      simp only [Wrapper.future, Wrapper.next, Wrapper.myId, descendants_spawn below,
        List.count_cons, List.count_append, List.count_nil] at once ⊢
      omega
    · have moved := inv.running.append_right [myId + 2 ^ level]
      simpa [tasks, Wrapper.myId] using moved
  | @finish front back myId level arg tasks found full =>
    have above : ¬ myId + 2 ^ level < threads := by
      rw [spawnthreads myId arg found] at full
      omega
    have empty : descendants threads myId level = [] := by rw [descendants, if_neg above]
    refine ⟨?_, ?_, ?_⟩
    · intro task member
      exact inv.owned task (by
        rcases List.mem_append.mp member with other | other <;> simp [tasks, other])
    · intro j
      have once := inv.once j
      rw [pending_split tasks] at once
      simp only [Wrapper.future, Wrapper.next, Wrapper.myId, empty, List.count_nil] at once
      exact once
    · have running := inv.running
      rw [tasks] at running
      refine running.trans ?_
      simp only [List.map_append, List.map_cons, Wrapper.myId, List.append_assoc]
      exact List.Perm.append_left _ (List.perm_middle.trans (by simp))

def Wrapper.work (threads : Nat) (level : Nat → Nat) (task : Wrapper) : Nat :=
  3 * (task.future threads level).length +
    match task with
    | .launched _ => 2
    | .spawning _ _ => 1

def Tree.work (threads : Nat) (tree : Tree) : Nat :=
  (tree.tasks.map (Wrapper.work threads tree.level)).sum

theorem TreeInv.work_step (inv : TreeInv threads tree)
    (spawnthreads : ∀ (i : Nat) (arg : QloopWrapperArgs), qwa[i]? = some arg →
      arg.spawnthreads = threads)
    (taken : TreeStep qwa tree myId after) :
    after.work threads + 1 = tree.work threads := by
  cases taken with
  | @enter front back myId tasks =>
    simp only [Tree.work, tasks, List.map_append, List.map_cons, List.sum_append, List.sum_cons,
      Wrapper.work, Wrapper.future, Wrapper.next, Wrapper.myId]
    omega
  | @spawn front back myId level arg tasks found room =>
    have below : myId + 2 ^ level < threads := by
      have positive : 0 < 2 ^ level := Nat.two_pow_pos level
      rw [spawnthreads myId arg found] at room
      omega
    have kept : ∀ part : List Wrapper, (∀ task ∈ part, task ∈ front ++ back) →
        part.map (Wrapper.work threads
          (update tree.level (myId + 2 ^ level) (level + 1))) =
        part.map (Wrapper.work threads tree.level) := by
      intro part inside
      apply List.map_congr_left
      intro task member
      unfold Wrapper.work
      rw [inv.future_update tasks below (inside task member)]
    have keptFront := kept front (by simp +contextual)
    have keptBack := kept back (by simp +contextual)
    simp only [Tree.work, tasks, List.map_append, List.map_cons, List.map_nil, List.sum_append,
      List.sum_cons, List.sum_nil, keptFront, keptBack]
    simp only [Wrapper.work, Wrapper.future, Wrapper.next, Wrapper.myId, update_self,
      descendants_spawn below, List.length_cons, List.length_append]
    omega
  | @finish front back myId level arg tasks found full =>
    have above : ¬ myId + 2 ^ level < threads := by
      rw [spawnthreads myId arg found] at full
      omega
    have empty : descendants threads myId level = [] := by rw [descendants, if_neg above]
    simp only [Tree.work, tasks, List.map_append, List.map_cons, List.sum_append, List.sum_cons]
    simp only [Wrapper.work, Wrapper.future, Wrapper.next, Wrapper.myId, empty, List.length_nil]
    omega

theorem Tree.progress (running : tree.tasks ≠ [])
    (args : ∀ task ∈ tree.tasks, ∃ arg, qwa[task.myId]? = some arg) :
    ∃ myId after, TreeStep qwa tree myId after := by
  cases tasks : tree.tasks with
  | nil => exact absurd tasks running
  | cons task rest =>
    have whole : tree.tasks = [] ++ task :: rest := tasks
    cases task with
    | launched myId => exact ⟨myId, _, .enter whole⟩
    | spawning myId level =>
      obtain ⟨arg, found⟩ := args (.spawning myId level) (by simp [tasks])
      by_cases room : myId + 2 ^ level ≤ arg.spawnthreads - 1
      · exact ⟨myId, _, .spawn whole found room⟩
      · exact ⟨myId, _, .finish whole found room⟩

theorem TreeInv.complete (inv : TreeInv threads tree) (done : tree.tasks = []) :
    List.Perm tree.launched (List.range threads) ∧ List.Perm tree.applied (List.range threads) := by
  have launched : List.Perm tree.launched (List.range threads) := by
    rw [List.perm_iff_count]
    intro j
    have once := inv.once j
    rw [Tree.pending, done] at once
    simp only [List.map_nil, List.sum_nil, Nat.add_zero] at once
    rw [once, List.nodup_range.count]
    simp only [List.mem_range]
  refine ⟨launched, ?_⟩
  have running := inv.running
  rw [done] at running
  simp only [List.map_nil, List.append_nil] at running
  exact running.symm.trans launched

theorem range_covers (length : qwa.length = threads) :
    (List.range threads).flatMap (fun i => (qwa[i]?.map QloopWrapperArgs.iterations).getD []) =
      qwa.flatMap QloopWrapperArgs.iterations := by
  have pointwise : (List.range threads).map
      (fun i => (qwa[i]?.map QloopWrapperArgs.iterations).getD []) =
      qwa.map QloopWrapperArgs.iterations := by
    apply List.ext_getElem
    · simp [length]
    · intro i inRange inArray
      have bound : i < qwa.length := by simpa using inArray
      simp [List.getElem?_eq_getElem bound]
  rw [List.flatMap_def, List.flatMap_def, pointwise]

/-- What the loop promises of its split and of its spawn tree: the ranges follow each
other from `start` to `stop` and differ in size by at most one; no id is ever launched
twice; the tree always makes progress and stops within `3 * threads` steps; and when it
has stopped every id was launched and every index handed to `func` exactly once. -/
structure BalanceExact (start stop : Nat) (workers : UInt16) (qwa : List QloopWrapperArgs) :
    Prop where
  built : qtLoopBalanceInner start stop workers = some qwa
  length : qwa.length = maxworkers start stop workers
  laid : Laid start qwa stop
  covers : qwa.flatMap QloopWrapperArgs.iterations = List.range' start (stop - start)
  ids : ∀ (i : Nat) (arg : QloopWrapperArgs), qwa[i]? = some arg → arg.id = i
  even : ∀ a ∈ qwa, ∀ b ∈ qwa, a.stopat - a.startat ≤ b.stopat - b.startat + 1
  tree : ∀ (moves : List Nat) (tree : Tree), Run (TreeStep qwa) (Tree.start qwa) moves tree →
    (∀ j, tree.launched.count j ≤ 1) ∧ moves.length ≤ 3 * maxworkers start stop workers ∧
    (tree.tasks ≠ [] → ∃ myId after, TreeStep qwa tree myId after) ∧
    (tree.tasks = [] →
      List.Perm tree.launched (List.range (maxworkers start stop workers)) ∧
      List.Perm (tree.covered qwa) (List.range' start (stop - start)))

theorem Tree.run_work (spawnthreads : ∀ (i : Nat) (arg : QloopWrapperArgs), qwa[i]? = some arg →
      arg.spawnthreads = threads) {moves : List Nat}
    (run : Run (TreeStep qwa) tree moves after) (inv : TreeInv threads tree) :
    TreeInv threads after ∧ after.work threads + moves.length = tree.work threads := by
  induction run with
  | nil => exact ⟨inv, rfl⟩
  | cons taken _ ih =>
    obtain ⟨final, spent⟩ := ih (inv.step spawnthreads taken)
    have unit := inv.work_step spawnthreads taken
    refine ⟨final, ?_⟩
    rw [List.length_cons]
    omega

theorem maxworkers_positive {start stop : Nat} {workers : UInt16} (nonzero : workers ≠ 0)
    (nonempty : start < stop) : 0 < maxworkers start stop workers := by
  have notZero : workers.toNat ≠ 0 := fun zero => nonzero (UInt16.toNat.inj zero)
  have small : workers.toNat < 2 ^ 16 := workers.toNat_lt
  unfold maxworkers
  split <;> omega

theorem balanceExact_of_lt {start stop : Nat} {workers : UInt16} (nonzero : workers ≠ 0)
    (nonempty : start < stop) : ∃ qwa, BalanceExact start stop workers qwa := by
  have positive := maxworkers_positive nonzero nonempty
  generalize count : maxworkers start stop workers = threads at positive
  have divided : threads * ((stop - start) / threads) + (stop - start) % threads = stop - start :=
    Nat.div_add_mod _ _
  have rest : stop - start - (stop - start) / threads * threads = (stop - start) % threads := by
    rw [Nat.mul_comm]
    omega
  have fewer : (stop - start) % threads < threads := Nat.mod_lt _ positive
  let qwa := fillQwa ((stop - start) / threads) threads threads 0 start ((stop - start) % threads)
  have spawnthreads : ∀ (i : Nat) (arg : QloopWrapperArgs), qwa[i]? = some arg →
      arg.spawnthreads = threads :=
    fun i arg found => (fillQwa_size (List.mem_of_getElem? found)).1
  have length : qwa.length = threads := fillQwa_length
  have covers : qwa.flatMap QloopWrapperArgs.iterations = List.range' start (stop - start) := by
    rw [fillQwa_iterations (Nat.le_of_lt fewer), divided]
  refine ⟨qwa, ⟨?_, length.trans count.symm, ?_, covers, ?_, ?_, ?_⟩⟩
  · simp only [qtLoopBalanceInner, count, Nat.pos_iff_ne_zero.mp positive, if_false, rest]
    rfl
  · have laid : Laid start qwa
        (start + (threads * ((stop - start) / threads) + (stop - start) % threads)) :=
      fillQwa_laid 0 start (Nat.le_of_lt fewer)
    rw [divided, Nat.add_sub_cancel' (Nat.le_of_lt nonempty)] at laid
    exact laid
  · intro i arg found
    rw [fillQwa_id found, Nat.zero_add]
  · intro a aIn b bIn
    obtain ⟨_, _, aSize⟩ := fillQwa_size aIn
    obtain ⟨_, _, bSize⟩ := fillQwa_size bIn
    omega
  · intro moves tree run
    rw [count]
    have zero : (Tree.start qwa).level 0 = 0 := by
      cases found : qwa[0]? with
      | none => simp [Tree.start, found]
      | some arg => simp [Tree.start, found, (fillQwa_size (List.mem_of_getElem? found)).2.1]
    obtain ⟨inv, spent⟩ := Tree.run_work spawnthreads run (TreeInv.start positive zero)
    refine ⟨?_, ?_, ?_, ?_⟩
    · intro j
      have once := inv.once j
      split at once <;> omega
    · have whole := (descendants_root positive).length_eq
      have level : (qwa[0]?.map QloopWrapperArgs.level).getD 0 = 0 := zero
      simp only [Tree.work, Tree.start, Wrapper.work, Wrapper.future, Wrapper.next, Wrapper.myId,
        level, List.map_cons, List.map_nil, List.sum_cons, List.sum_nil] at spent
      rw [List.length_cons, List.length_range] at whole
      omega
    · intro running
      refine Tree.progress running ?_
      intro task member
      have bound : task.myId < qwa.length := length.symm ▸ inv.myId_lt member
      exact ⟨qwa[task.myId], List.getElem?_eq_getElem bound⟩
    · intro done
      obtain ⟨launched, applied⟩ := inv.complete done
      refine ⟨launched, ?_⟩
      have covered := applied.flatMap_right
        (fun i => (qwa[i]?.map QloopWrapperArgs.iterations).getD [])
      rw [range_covers length, covers] at covered
      exact covered

/-- The loop keeps its promise exactly when it has an iteration to run: with
`start = stop` the worker count is 0 and computing `each` divides by it. -/
theorem balanceExact_iff {start stop : Nat} {workers : UInt16} (ordered : start ≤ stop)
    (nonzero : workers ≠ 0) :
    (∃ qwa, BalanceExact start stop workers qwa) ↔ start < stop := by
  constructor
  · rintro ⟨qwa, promise⟩
    by_contra empty
    have same : stop = start := by omega
    have built := promise.built
    have zero : maxworkers start stop workers = 0 := by simp [maxworkers, same]
    simp [qtLoopBalanceInner, zero] at built
  · exact balanceExact_of_lt nonzero

theorem balanceExact_iff_three_workers :
    (∃ qwa, BalanceExact 10 20 3 qwa) ↔ 10 < 20 :=
  balanceExact_iff (by decide) (by decide)

theorem empty_loop_divides_by_zero : ¬ ∃ qwa, BalanceExact 5 5 4 qwa := by
  rintro ⟨qwa, promise⟩
  have trapped : qtLoopBalanceInner 5 5 4 = none := by decide
  rw [promise.built] at trapped
  cases trapped

end Qthreads.Loop
