import Qthreads.Loop.Balance

namespace Qthreads.Loop

open Qthreads.Lib
open Function (update update_of_ne update_self)

/-! `qloopaccum_wrapper` spawns the same tree as `qloop_wrapper`; its tasks reduce their ranges, and the
results are accumulated in the order of the ranges. -/

/-- `_op_`; the sums and products of a signed type wrap around. -/
inductive Category where
  | sum
  | prod
  | max
  | min

def Category.op {α : Type} [Add α] [Mul α] [LT α] [DecidableLT α] : Category → α → α → α
  | .sum, a, b => a + b
  | .prod, a, b => a * b
  | .max, a, b => if a > b then a else b
  | .min, a, b => if a < b then a else b

/-- A call of a function that `PARALLEL_FUNC` defines. -/
structure Reduction (α : Type) where
  op : α → α → α
  array : Nat → α
  length : Nat
  checkfeb : Bool

/-- `qt_uint_sum`, `qt_uint_prod`, `qt_uint_max` and `qt_uint_min` -/
def qtUint (category : Category) (array : Nat → UInt64) (length : Nat) (checkfeb : Bool) :
    Reduction UInt64 :=
  ⟨category.op, array, length, checkfeb⟩

/-- `qt_int_sum`, `qt_int_prod`, `qt_int_max` and `qt_int_min` -/
def qtInt (category : Category) (array : Nat → Int64) (length : Nat) (checkfeb : Bool) :
    Reduction Int64 :=
  ⟨category.op, array, length, checkfeb⟩

variable {α : Type}

namespace Reduction

variable (call : Reduction α)

/-- `_worker` and `_febworker` -/
def worker (startat stopat : Nat) : α :=
  (List.range' (startat + 1) (stopat - (startat + 1))).foldl (fun acc i => call.op acc (call.array i))
    (call.array startat)

def reads (arg : QloopWrapperArgs) : List Nat :=
  arg.startat :: List.range' (arg.startat + 1) (arg.stopat - (arg.startat + 1))

/-- The ranges that `qt_loopaccum_balance_inner` makes, one for each worker. -/
def qwa (workers : UInt16) : List QloopWrapperArgs :=
  let each := call.length / workers.toNat
  fillQwa each workers.toNat workers.toNat 0 0 (call.length - each * workers.toNat)

def serial : α := call.worker 0 call.length

end Reduction

/-- `qt_loopaccum_balance_inner` from the spawn of the first wrapper on. -/
structure Accum (α : Type) where
  tree : Tree
  /-- `*qwa[i].ret`, for 0 the word at `out` -/
  rets : Nat → Option α
  /-- the syncvars in `sync.syncvar` that are full -/
  full : Nat → Bool
  waited : Nat
  feb : Nat → Bool
  read : List Nat

/-- `*a = _op_(*a, *b)` -/
def acc (op : α → α → α) : Option α → Option α → Option α
  | some a, some b => some (op a b)
  | _, _ => none

/-- A step of a wrapper, of the loop behind the spawn, or of somebody who fills an element. -/
inductive Move where
  | wrapper (myId : Nat)
  | readFF
  | fill (i : Nat)

inductive AccumStep (call : Reduction α) (qwa : List QloopWrapperArgs) (s : Accum α) :
    Move → Accum α → Prop where
  | enter {myId : Nat} {tree : Tree} : TreeStep qwa s.tree myId tree → tree.applied = s.tree.applied →
      tree.launched = s.tree.launched → AccumStep call qwa s (.wrapper myId) { s with tree }
  | spawn {myId newId : Nat} {tree : Tree} : TreeStep qwa s.tree myId tree →
      tree.applied = s.tree.applied → tree.launched = s.tree.launched ++ [newId] →
      AccumStep call qwa s (.wrapper myId) { s with tree, full := update s.full newId false }
  | finish {myId : Nat} {tree : Tree} {arg : QloopWrapperArgs} : TreeStep qwa s.tree myId tree →
      tree.applied = s.tree.applied ++ [myId] → tree.launched = s.tree.launched →
      qwa[myId]? = some arg →
      (call.checkfeb = true → ∀ i ∈ Reduction.reads arg, s.feb i = true) →
      AccumStep call qwa s (.wrapper myId) { s with
        tree
        rets := update s.rets myId (some (call.worker arg.startat arg.stopat))
        full := update s.full myId true
        read := s.read ++ Reduction.reads arg }
  | readFF : s.waited < qwa.length → s.full s.waited = true →
      AccumStep call qwa s .readFF { s with
        waited := s.waited + 1
        rets := if 0 < s.waited then
            update s.rets 0 (acc call.op (s.rets 0) (s.rets s.waited))
          else s.rets }
  | fill {i : Nat} : AccumStep call qwa s (.fill i) { s with feb := update s.feb i true }

/-- The spawn of the first wrapper, with whatever the array's full-empty bits are. -/
def Accum.start (qwa : List QloopWrapperArgs) (feb : Nat → Bool) : Accum α where
  tree := Tree.start qwa
  rets := fun _ => none
  full := fun _ => false
  waited := 0
  feb := feb
  read := []

/-- No run reads an element that is not in the array, a run that is done has returned what a single
thread returns, and a run that is not done can go on until it is. -/
def Reduces (call : Reduction α) (workers : UInt16) : Prop :=
  ∀ feb moves s, Run (AccumStep call (call.qwa workers)) (Accum.start (call.qwa workers) feb) moves s →
    (∀ i ∈ s.read, i < call.length) ∧
    (s.waited = workers.toNat → s.rets 0 = some call.serial) ∧
    ∃ more last, Run (AccumStep call (call.qwa workers)) s more last ∧ last.waited = workers.toNat

section Ranges

variable {call : Reduction α} {low middle high : Nat}

theorem worker_append [Std.Associative call.op] (before : low < middle) (behind : middle < high) :
    call.worker low high = call.op (call.worker low middle) (call.worker middle high) := by
  have parts : List.range' (low + 1) (high - (low + 1)) =
      List.range' (low + 1) (middle - (low + 1)) ++
        middle :: List.range' (middle + 1) (high - (middle + 1)) := by
    have joined := @List.range'_append_1 (low + 1) (middle - (low + 1)) (high - middle)
    rw [show low + 1 + (middle - (low + 1)) = middle by omega,
      show middle - (low + 1) + (high - middle) = high - (low + 1) by omega,
      show high - middle = high - (middle + 1) + 1 by omega, List.range'_succ] at joined
    exact joined.symm
  have mapped (front : α) (list : List Nat) :
      list.foldl (fun acc i => call.op acc (call.array i)) front = (list.map call.array).foldl call.op front :=
    List.foldl_map.symm
  rw [Reduction.worker, parts, List.foldl_append, List.foldl_cons, mapped _ (List.range' (middle + 1) _),
    List.foldl_assoc, ← mapped]
  rfl

variable {qwa : List QloopWrapperArgs} {x y : QloopWrapperArgs} {i : Nat}

section

variable (laid : Laid low qwa high)
include laid

theorem Laid.first (found : qwa[0]? = some x) : x.startat = low := by
  cases qwa with
  | nil => cases found
  | cons arg rest =>
    cases found
    exact laid.1

theorem Laid.next (found : qwa[i]? = some x)
    (behind : qwa[i + 1]? = some y) : y.startat = x.stopat := by
  induction qwa generalizing low i with
  | nil => cases found
  | cons arg rest ih =>
    cases i with
    | zero =>
      cases found
      exact laid.2.2.first behind
    | succ i => exact ih laid.2.2 found behind

theorem Laid.last (found : qwa[i]? = some x) (end_ : i + 1 = qwa.length) : x.stopat = high := by
  induction qwa generalizing low i with
  | nil => cases found
  | cons arg rest ih =>
    cases i with
    | zero =>
      cases found
      have empty : rest = [] := List.length_eq_zero_iff.mp (Nat.succ.inj end_).symm
      subst empty
      exact laid.2.2
    | succ i => exact ih laid.2.2 found (Nat.succ.inj end_)

theorem Laid.le : low ≤ high := by
  induction qwa generalizing low with
  | nil => exact Nat.le_of_eq laid
  | cons arg rest ih =>
    have later := ih laid.2.2
    have here := laid.1
    have order := laid.2.1
    omega

theorem Laid.stopat_le (found : qwa[i]? = some x) : x.stopat ≤ high := by
  induction qwa generalizing low i with
  | nil => cases found
  | cons arg rest ih =>
    cases i with
    | zero =>
      cases found
      exact laid.2.2.le
    | succ i => exact ih laid.2.2 found

end

end Ranges

structure Split (call : Reduction α) (workers : UInt16) (qwa : List QloopWrapperArgs) : Prop where
  positive : 0 < workers.toNat
  length : qwa.length = workers.toNat
  laid : Laid 0 qwa call.length
  spawnthreads : ∀ (i : Nat) (arg : QloopWrapperArgs), qwa[i]? = some arg →
    arg.spawnthreads = workers.toNat
  level : ∀ arg ∈ qwa, arg.level = 0

theorem Reduction.split (call : Reduction α) {workers : UInt16} (nonzero : workers ≠ 0) :
    Split call workers (call.qwa workers) := by
  have positive : 0 < workers.toNat := by
    refine Nat.pos_of_ne_zero fun zero => nonzero ?_
    exact UInt16.toNat_inj.mp zero
  have parts := Nat.div_add_mod call.length workers.toNat
  have rest := Nat.mod_lt call.length positive
  have extra : call.length - call.length / workers.toNat * workers.toNat =
      call.length % workers.toNat := by
    rw [Nat.mul_comm]
    omega
  refine ⟨positive, fillQwa_length, ?_, fun i arg found => ?_, fun arg member => ?_⟩
  · have laid : Laid 0 (call.qwa workers) (0 + (workers.toNat * (call.length / workers.toNat) +
        (call.length - call.length / workers.toNat * workers.toNat))) :=
      fillQwa_laid 0 0 (by omega)
    rwa [Nat.zero_add, extra, parts] at laid
  · exact (fillQwa_size (List.mem_of_getElem? found)).1
  · exact (fillQwa_size member).2.1

structure AccumInv (call : Reduction α) (workers : UInt16) (qwa : List QloopWrapperArgs) (s : Accum α) :
    Prop where
  tree : TreeInv workers.toNat s.tree
  full : ∀ i, s.full i = true ↔ i ∈ s.tree.applied
  rets : ∀ i arg, qwa[i]? = some arg → i ∈ s.tree.applied → 0 < i ∨ s.waited = 0 →
    s.rets i = some (call.worker arg.startat arg.stopat)
  out : (∀ arg ∈ qwa, arg.startat < arg.stopat) → ∀ arg, 0 < s.waited →
    qwa[s.waited - 1]? = some arg → s.rets 0 = some (call.worker 0 arg.stopat)
  known : ∀ i < s.waited, i ∈ s.tree.applied
  waited : s.waited ≤ workers.toNat
  read : ∀ i ∈ s.read, ∃ id ∈ s.tree.applied, ∃ arg, qwa[id]? = some arg ∧ i ∈ Reduction.reads arg
  all : ∀ id ∈ s.tree.applied, ∀ arg, qwa[id]? = some arg → ∀ i ∈ Reduction.reads arg, i ∈ s.read

variable {call : Reduction α} {workers : UInt16} {qwa : List QloopWrapperArgs} {s after : Accum α}

theorem AccumInv.start (split : Split call workers qwa) (feb : Nat → Bool) :
    AccumInv call workers qwa (Accum.start qwa feb) where
  tree := by
    refine TreeInv.start split.positive ?_
    cases found : qwa[0]? with
    | none => simp [Tree.start, found]
    | some arg => simp [Tree.start, found, split.level arg (List.mem_of_getElem? found)]
  full i := by
    simp [Accum.start, Tree.start]
  rets := nofun
  out := nofun
  known := nofun
  waited := Nat.zero_le _
  read := nofun
  all := nofun

theorem AccumInv.step [Std.Associative call.op] {move : Move} (split : Split call workers qwa)
    (inv : AccumInv call workers qwa s) (step : AccumStep call qwa s move after) :
    AccumInv call workers qwa after := by
  cases step with
  | @enter myId tree taken applied launched =>
    refine ⟨inv.tree.step split.spawnthreads taken, ?_, ?_, inv.out, ?_, inv.waited, ?_, ?_⟩
    all_goals simp only [applied]
    · exact inv.full
    · exact inv.rets
    · exact inv.known
    · exact inv.read
    · exact inv.all
  | @spawn myId newId tree taken applied launched =>
    have tree := inv.tree.step split.spawnthreads taken
    refine ⟨tree, ?_, ?_, inv.out, ?_, inv.waited, ?_, ?_⟩
    all_goals simp only [applied]
    · -- The new task has not run, for no task is launched twice.
      have fresh : newId ∉ s.tree.applied := by
        intro old
        have member : newId ∈ s.tree.launched :=
          inv.tree.running.mem_iff.mpr (List.mem_append_left _ old)
        have once := tree.once newId
        have twice := List.count_pos_iff.mpr member
        rw [launched, List.count_append, List.count_singleton_self] at once
        split at once <;> omega
      intro i
      by_cases same : i = newId
      · rw [same, update_self]
        exact ⟨nofun, fun old => absurd old fresh⟩
      · rw [update_of_ne same]
        exact inv.full i
    · exact inv.rets
    · exact inv.known
    · exact inv.read
    · exact inv.all
  | @finish myId tree arg taken applied launched found ready =>
    have fresh : myId ∉ s.tree.applied := by
      intro old
      have running := (inv.tree.step split.spawnthreads taken).running
      have once := (inv.tree.step split.spawnthreads taken).once myId
      have twice : 2 ≤ tree.launched.count myId := by
        rw [running.count_eq, applied, List.count_append, List.count_append,
          List.count_singleton_self]
        have pos := List.count_pos_iff.mpr old
        omega
      split at once <;> omega
    refine ⟨inv.tree.step split.spawnthreads taken, ?_, ?_, ?_, ?_, inv.waited, ?_, ?_⟩
    · intro i
      simp only [applied, List.mem_append, List.mem_singleton]
      by_cases same : i = myId
      · rw [same, update_self]
        exact ⟨fun _ => .inr rfl, fun _ => rfl⟩
      · rw [update_of_ne same, inv.full i]
        exact ⟨.inl, fun either => either.resolve_right same⟩
    · intro i other here member early
      simp only [applied, List.mem_append, List.mem_singleton] at member
      by_cases same : i = myId
      · subst same
        rw [found] at here
        cases here
        simp only [update_self]
      · simp only [update_of_ne same]
        exact inv.rets i other here (member.resolve_right same) early
    · intro proper other positive here
      have first : myId ≠ 0 := by
        rintro rfl
        exact fresh (inv.known 0 positive)
      simp only [update_of_ne first.symm]
      exact inv.out proper other positive here
    · intro i less
      simp only [applied]
      exact List.mem_append_left _ (inv.known i less)
    · intro i member
      rcases List.mem_append.mp member with old | new
      · obtain ⟨id, ran, other, here, inside⟩ := inv.read i old
        exact ⟨id, applied ▸ List.mem_append_left _ ran, other, here, inside⟩
      · exact ⟨myId, applied ▸ List.mem_append_right _ (List.mem_singleton.mpr rfl), arg, found, new⟩
    · intro id ran other here i inside
      simp only [applied, List.mem_append, List.mem_singleton] at ran
      rcases ran with old | rfl
      · exact List.mem_append_left _ (inv.all id old other here i inside)
      · rw [found] at here
        cases here
        exact List.mem_append_right _ inside
  | readFF less ready =>
    have ran := (inv.full s.waited).mp ready
    have inside : s.waited < qwa.length := less
    refine ⟨inv.tree, inv.full, ?_, ?_, ?_, split.length ▸ less, inv.read, inv.all⟩
    · intro i arg found member early
      have later : i ≠ 0 := by
        rcases early with positive | zero
        · exact Nat.ne_of_gt positive
        · exact absurd zero (Nat.succ_ne_zero _)
      simp only
      split
      · rw [update_of_ne later]
        exact inv.rets i arg found member (.inl (Nat.pos_of_ne_zero later))
      · exact inv.rets i arg found member (.inl (Nat.pos_of_ne_zero later))
    · intro proper arg _ found
      rw [Nat.add_sub_cancel] at found
      have mine := inv.rets s.waited arg found ran
      have nonempty := proper arg (List.mem_of_getElem? found)
      rcases Nat.eq_zero_or_pos s.waited with first | positive
      · rw [first] at found
        have begins := split.laid.first found
        rw [if_neg (Nat.not_lt.mpr (Nat.le_of_eq first))]
        have value := mine (.inr first)
        rw [first, begins] at value
        exact value
      · have before : s.waited - 1 < qwa.length := by omega
        have earlier := inv.out proper _ positive (List.getElem?_eq_getElem before)
        have joins := split.laid.next (List.getElem?_eq_getElem before)
          (show qwa[s.waited - 1 + 1]? = some arg by rwa [Nat.sub_add_cancel positive])
        have front : 0 < qwa[s.waited - 1].stopat :=
          Nat.lt_of_le_of_lt (Nat.zero_le _) (proper _ (List.getElem_mem before))
        simp only [if_pos positive, update_self]
        rw [earlier, mine (.inl positive), acc, joins, ← worker_append front (joins ▸ nonempty)]
    · intro i less
      rcases Nat.lt_succ_iff_lt_or_eq.mp less with old | rfl
      · exact inv.known i old
      · exact ran
  | fill =>
    exact ⟨inv.tree, inv.full, inv.rets, inv.out, inv.known, inv.waited, inv.read, inv.all⟩

theorem exists_filled (list : List Nat) (s : Accum α) : ∃ moves after,
    Run (AccumStep call qwa) s moves after ∧ after.tree = s.tree ∧ after.waited = s.waited ∧
      (∀ i, s.feb i = true → after.feb i = true) ∧ ∀ i ∈ list, after.feb i = true := by
  induction list generalizing s with
  | nil => exact ⟨[], s, .nil s, rfl, rfl, fun _ full => full, nofun⟩
  | cons first rest ih =>
    obtain ⟨moves, after, run, tree, waited, kept, full⟩ :=
      ih { s with feb := update s.feb first true }
    refine ⟨_, after, .cons .fill run, tree, waited, fun i old => kept i ?_, fun i member => ?_⟩
    · by_cases same : i = first
      · simp only [same, update_self]
      · simp only [update_of_ne same, old]
    · rcases List.mem_cons.mp member with rfl | later
      · exact kept i (update_self ..)
      · exact full i later

theorem exists_tree {myId : Nat} {tree : Tree} (taken : TreeStep qwa s.tree myId tree) :
    ∃ moves after, Run (AccumStep call qwa) s moves after ∧ after.tree = tree ∧
      after.waited = s.waited := by
  cases taken with
  | enter tasks => exact ⟨_, _, .cons (.enter (.enter tasks) rfl rfl) (.nil _), rfl, rfl⟩
  | spawn tasks found more =>
    exact ⟨_, _, .cons (.spawn (.spawn tasks found more) rfl rfl) (.nil _), rfl, rfl⟩
  | @finish front back myId level arg tasks found nothing =>
    obtain ⟨moves, ⟨tree, rets, full, waited, feb, read⟩, run, rfl, rfl, -, filled⟩ :=
      exists_filled (Reduction.reads arg) s
    have taken := TreeStep.finish tasks found nothing
    have finished := @AccumStep.finish _ call qwa ⟨s.tree, rets, full, s.waited, feb, read⟩ _ _ _ taken
      rfl rfl found fun _ => filled
    have whole := run.snoc finished
    exact ⟨_, _, whole, rfl, rfl⟩

theorem AccumInv.exists_done [Std.Associative call.op] (split : Split call workers qwa)
    (inv : AccumInv call workers qwa s) :
    ∃ moves last, Run (AccumStep call qwa) s moves last ∧ last.waited = workers.toNat := by
  induction total : s.tree.work workers.toNat + (workers.toNat - s.waited)
    using Nat.strongRecOn generalizing s with
  | _ left ih =>
    have onward (moves : List Move) (after : Accum α) (run : Run (AccumStep call qwa) s moves after)
        (fewer : after.tree.work workers.toNat + (workers.toNat - after.waited) < left) :
        ∃ moves last, Run (AccumStep call qwa) s moves last ∧ last.waited = workers.toNat := by
      have next : AccumInv call workers qwa after :=
        run.preserves (fun _ _ _ inv step => inv.step split step) inv
      obtain ⟨more, last, rest, done⟩ := ih _ fewer next rfl
      exact ⟨moves ++ more, last, run.append rest, done⟩
    by_cases running : s.tree.tasks = []
    · by_cases done : s.waited = workers.toNat
      · exact ⟨[], s, .nil s, done⟩
      · have less : s.waited < workers.toNat := Nat.lt_of_le_of_ne inv.waited done
        have ran : s.waited ∈ s.tree.applied := by
          rw [(inv.tree.complete running).2.mem_iff, List.mem_range]
          exact less
        have step := @AccumStep.readFF _ call qwa s (split.length ▸ less) ((inv.full _).mpr ran)
        refine onward _ _ (.cons step (.nil _)) ?_
        simp only
        omega
    · obtain ⟨myId, tree, taken⟩ := Tree.progress running fun task member =>
        have less : task.myId < qwa.length := split.length ▸ inv.tree.myId_lt member
        ⟨_, List.getElem?_eq_getElem less⟩
      have worked := inv.tree.work_step split.spawnthreads taken
      obtain ⟨moves, after, run, same, waited⟩ := exists_tree taken
      refine onward moves after run ?_
      rw [same, waited]
      omega

theorem fillQwa_startat {each threads todo i iterend extra k : Nat} {arg : QloopWrapperArgs}
    (found : (fillQwa each threads todo i iterend extra)[k]? = some arg) :
    arg.startat = iterend + (each * k + min k extra) := by
  induction todo generalizing i iterend extra k with
  | zero => cases found
  | succ todo ih =>
    rw [fillQwa] at found
    cases k with
    | zero =>
      cases found
      simp
    | succ k =>
      have next := ih found
      rw [next, Nat.mul_succ]
      split <;> omega

theorem Reduction.reads_bounds {arg : QloopWrapperArgs} {i : Nat} (less : arg.startat < arg.stopat)
    (member : i ∈ Reduction.reads arg) : i < arg.stopat := by
  rcases List.mem_cons.mp member with rfl | later
  · exact less
  · rw [List.mem_range'_1] at later
    omega

theorem reduces_iff (call : Reduction α) [Std.Associative call.op] (nonzero : workers ≠ 0)
    (nonempty : 1 ≤ call.length) : Reduces call workers ↔ workers.toNat ≤ call.length := by
  have split := call.split nonzero
  have positive := split.positive
  have last : workers.toNat - 1 < (call.qwa workers).length := by
    rw [split.length]
    omega
  have found := List.getElem?_eq_getElem last
  have held {feb : Nat → Bool} {moves : List Move} {s : Accum α}
      (run : Run (AccumStep call (call.qwa workers)) (Accum.start (call.qwa workers) feb) moves s) :
      AccumInv call workers (call.qwa workers) s :=
    run.preserves (fun _ _ _ inv step => inv.step split step) (.start split feb)
  constructor
  · intro right
    by_contra fewer
    -- The last worker reads the element behind the array.
    obtain ⟨-, -, moves, s, run, done⟩ := right (fun _ => true) [] _ (.nil _)
    have inv := held run
    have ran := inv.known (workers.toNat - 1) (by omega)
    have read := inv.all _ ran _ found _ (List.mem_cons_self)
    have inside := (right (fun _ => true) moves s run).1 _ read
    have startat := fillQwa_startat found
    have each : call.length / workers.toNat = 0 := Nat.div_eq_of_lt (Nat.lt_of_not_le fewer)
    rw [each, Nat.zero_mul, Nat.zero_mul, Nat.zero_add, Nat.zero_add] at startat
    omega
  · intro enough feb moves s run
    have inv := held run
    have each : 0 < call.length / workers.toNat := Nat.div_pos enough positive
    have ranges (arg : QloopWrapperArgs) (member : arg ∈ call.qwa workers) : arg.startat < arg.stopat := by
      have size := (fillQwa_size member).2.2
      omega
    refine ⟨fun i member => ?_, fun done => ?_, inv.exists_done split⟩
    · obtain ⟨id, -, arg, here, inside⟩ := inv.read i member
      have bound := Reduction.reads_bounds (ranges arg (List.mem_of_getElem? here)) inside
      exact Nat.lt_of_lt_of_le bound (split.laid.stopat_le here)
    · have value := inv.out ranges _ (done ▸ positive) (by rw [done]; exact found)
      rw [split.laid.last found (by rw [split.length]; omega)] at value
      exact value

instance (category : Category) : Std.Associative (category.op : UInt64 → UInt64 → UInt64) where
  assoc a b c := by
    cases category with
    | sum => exact UInt64.add_assoc a b c
    | prod => exact UInt64.mul_assoc a b c
    | max =>
      simp only [Category.op, gt_iff_lt, UInt64.lt_iff_toNat_lt]
      split_ifs <;> first | rfl | omega
    | min =>
      simp only [Category.op, UInt64.lt_iff_toNat_lt]
      split_ifs <;> first | rfl | omega

instance (category : Category) : Std.Associative (category.op : Int64 → Int64 → Int64) where
  assoc a b c := by
    cases category with
    | sum => exact Int64.add_assoc a b c
    | prod => exact Int64.mul_assoc a b c
    | max =>
      simp only [Category.op, gt_iff_lt, Int64.lt_iff_toInt_lt]
      split_ifs <;> first | rfl | omega
    | min =>
      simp only [Category.op, Int64.lt_iff_toInt_lt]
      split_ifs <;> first | rfl | omega

/-- Each of the reductions over integers is right exactly when there is an element for each worker. -/
theorem reductions_iff_enough (category : Category) (unsigned : Nat → UInt64) (signed : Nat → Int64)
    (checkfeb : Bool) {length : Nat} {workers : UInt16} (nonempty : 1 ≤ length) (nonzero : workers ≠ 0) :
    (Reduces (qtUint category unsigned length checkfeb) workers ↔ workers.toNat ≤ length) ∧
      (Reduces (qtInt category signed length checkfeb) workers ↔ workers.toNat ≤ length) := by
  have first : Std.Associative (qtUint category unsigned length checkfeb).op :=
    inferInstanceAs (Std.Associative (category.op : UInt64 → UInt64 → UInt64))
  have second : Std.Associative (qtInt category signed length checkfeb).op :=
    inferInstanceAs (Std.Associative (category.op : Int64 → Int64 → Int64))
  exact ⟨reduces_iff _ nonzero nonempty, reduces_iff _ nonzero nonempty⟩

theorem reductions_iff_enough_two_of_three :
    (Reduces (qtUint .sum (fun i => i.toUInt64) 3 false) 2 ↔ 2 ≤ 3) ∧
      (Reduces (qtInt .sum (fun i => i.toInt64) 3 false) 2 ↔ 2 ≤ 3) :=
  reductions_iff_enough .sum (fun i => i.toUInt64) (fun i => i.toInt64) false (by decide) (by decide)

/-- With one element and two workers, the second worker reads behind the array. -/
theorem reads_behind_array : ¬ Reduces (qtUint .sum (fun i => i.toUInt64) 1 false) 2 := by
  intro right
  have sum : Std.Associative (qtUint .sum (fun i => i.toUInt64) 1 false).op :=
    inferInstanceAs (Std.Associative (Category.sum.op : UInt64 → UInt64 → UInt64))
  have enough : 2 ≤ 1 :=
    (reduces_iff (qtUint .sum (fun i => i.toUInt64) 1 false) (by decide) (Nat.le_refl 1)).mp right
  exact absurd enough (by decide)

end Qthreads.Loop
