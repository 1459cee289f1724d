import Qthreads.Shepherds.Active

namespace Qthreads.Shepherds

open Lib

namespace Qlib

variable {q after : Qlib} {label : Label}

structure Kept (q : Qlib) : Prop where
  shepherds : 0 < q.nshepherds
  workers : 0 < q.nworkerspershep
  few : q.nshepherds * q.nworkerspershep < 2 ^ 64
  shepherd : q.shepherdActive 0 = true
  worker : q.workerActive (0, 0) = true

structure Counted (q : Qlib) : Prop where
  shepherds : q.nshepherdsActive.toNat = raised q.shepherds q.shepherdActive
  workers : q.nworkersActive.toNat = raised q.workers q.workerActive

theorem mem_shepherds {shep : Nat} : shep ∈ q.shepherds ↔ shep < q.nshepherds := Finset.mem_range

theorem mem_workers {shep worker : Nat} :
    (shep, worker) ∈ q.workers ↔ shep < q.nshepherds ∧ worker < q.nworkerspershep := by
  rw [workers, Finset.mem_product, Finset.mem_range, Finset.mem_range]

theorem card_workers : q.workers.card = q.nshepherds * q.nworkerspershep := by
  rw [workers, Finset.card_product, Finset.card_range, Finset.card_range]

def withoutShepherd (q : Qlib) (shep : Nat) : Qlib :=
  { q with
    nshepherdsActive := q.nshepherdsActive - 1
    shepherdActive := casFlag q.shepherdActive shep true false }

def withShepherd (q : Qlib) (shep : Nat) : Qlib :=
  { q with
    nshepherdsActive := q.nshepherdsActive + 1
    shepherdActive := casFlag q.shepherdActive shep false true }

def withoutWorker (q : Qlib) (place : Nat × Nat) : Qlib :=
  { q with
    workerActive := casFlag q.workerActive place true false
    nworkersActive := q.nworkersActive - 1 }

def withWorker (q : Qlib) (place : Nat × Nat) : Qlib :=
  { q with
    nworkersActive := q.nworkersActive + 1
    workerActive := casFlag q.workerActive place false true }

theorem disableShepherd_cases {shep : Nat} {code : Code}
    (called : q.disableShepherd shep = some (code, after)) :
    shep = 0 ∧ code = .notAllowed ∧ after = q ∨
      shep ≠ 0 ∧ shep < q.nshepherds ∧ code = .success ∧ after = q.withoutShepherd shep := by
  rw [disableShepherd] at called
  split at called
  next inside =>
    split at called
    next first =>
      cases called
      exact .inl ⟨first, rfl, rfl⟩
    next other =>
      cases called
      exact .inr ⟨other, inside, rfl, rfl⟩
  next => cases called

theorem enableShepherd_cases {shep : Nat} (called : q.enableShepherd shep = some after) :
    shep < q.nshepherds ∧ after = q.withShepherd shep := by
  rw [enableShepherd] at called
  split at called
  next inside =>
    cases called
    exact ⟨inside, rfl⟩
  next => cases called

theorem disableWorker_cases {w : Nat} {code : Code} (called : q.disableWorker w = some (code, after)) :
    w = 0 ∧ code = .notAllowed ∧ after = q ∨
    w ≠ 0 ∧ code = .success ∧ (w % q.nshepherds, w / q.nshepherds) ∈ q.workers ∧
      (w / q.nshepherds = 0 ∧ w % q.nshepherds ≠ 0 ∧
          after = (q.withoutWorker (w % q.nshepherds, w / q.nshepherds)).withoutShepherd
            (w % q.nshepherds) ∨
        w / q.nshepherds ≠ 0 ∧ after = q.withoutWorker (w % q.nshepherds, w / q.nshepherds)) := by
  have parts := Nat.div_add_mod w q.nshepherds
  simp only [disableWorker] at called
  split at called
  next inside =>
    split at called
    next first =>
      cases called
      rw [first.1, first.2] at parts
      exact .inl ⟨parts.symm, rfl, rfl⟩
    next other =>
      have away : w ≠ 0 := by
        rintro rfl
        exact other ⟨Nat.zero_div _, Nat.zero_mod _⟩
      split at called
      next row =>
        obtain ⟨⟨code, after⟩, nested, made⟩ := Option.map_eq_some_iff.mp called
        cases made
        have column : w % q.nshepherds ≠ 0 := fun zero => other ⟨row, zero⟩
        rcases disableShepherd_cases nested with ⟨zero, -, -⟩ | ⟨-, -, -, same⟩
        · exact absurd zero column
        · exact .inr ⟨away, rfl, mem_workers.mpr inside, .inl ⟨row, column, same⟩⟩
      next row =>
        cases called
        exact .inr ⟨away, rfl, mem_workers.mpr inside, .inr ⟨row, rfl⟩⟩
  next => cases called

theorem enableWorker_cases {w : Nat} (kept : q.Kept) (called : q.enableWorker w = some after) :
    q.nworkerspershep ≤ w / q.nshepherds ∧ after = q ∨
    (w % q.nshepherds, w / q.nshepherds) ∈ q.workers ∧
      (w / q.nshepherds = 0 ∧ after = (q.withShepherd (w % q.nshepherds)).withWorker
            (w % q.nshepherds, w / q.nshepherds) ∨
        w / q.nshepherds ≠ 0 ∧ after = q.withWorker (w % q.nshepherds, w / q.nshepherds)) := by
  have column : w % q.nshepherds < q.nshepherds := Nat.mod_lt w kept.shepherds
  simp only [enableWorker, if_pos column] at called
  obtain ⟨middle, nested, made⟩ := Option.map_eq_some_iff.mp called
  have workers : middle.nworkerspershep = q.nworkerspershep := by
    split at nested
    · obtain ⟨-, rfl⟩ := enableShepherd_cases nested
      rfl
    · cases nested
      rfl
  rw [workers] at made
  by_cases inside : w / q.nshepherds < q.nworkerspershep
  · refine .inr ⟨mem_workers.mpr ⟨column, inside⟩, ?_⟩
    rw [if_pos inside] at made
    split at nested
    next row =>
      obtain ⟨-, rfl⟩ := enableShepherd_cases nested
      exact .inl ⟨row, made.symm⟩
    next row =>
      cases nested
      exact .inr ⟨row, made.symm⟩
  · have row : w / q.nshepherds ≠ 0 := by
      have positive := kept.workers
      omega
    rw [if_neg row] at nested
    rw [if_neg inside] at made
    cases nested
    exact .inl ⟨Nat.le_of_not_lt inside, made.symm⟩

theorem casFlag_true {α : Type} [DecidableEq α] {flags : α → Bool} {place other : α}
    (high : flags place = true) : casFlag flags other false true place = true := by
  rw [casFlag]
  split
  · by_cases same : place = other
    · rw [same, Function.update_self]
    · rw [Function.update_of_ne same, high]
  · exact high

theorem casFlag_other {α : Type} [DecidableEq α] {flags : α → Bool} {place other : α}
    (oldval newval : Bool) (differs : place ≠ other) :
    casFlag flags other oldval newval place = flags place := by
  rw [casFlag]
  split
  · exact Function.update_of_ne differs _ _
  · rfl

namespace Kept

variable (kept : q.Kept)

include kept

theorem withShepherd (shep : Nat) : (q.withShepherd shep).Kept :=
  ⟨kept.shepherds, kept.workers, kept.few, casFlag_true kept.shepherd, kept.worker⟩

theorem withWorker (place : Nat × Nat) : (q.withWorker place).Kept :=
  ⟨kept.shepherds, kept.workers, kept.few, kept.shepherd, casFlag_true kept.worker⟩

theorem withoutShepherd {shep : Nat} (other : shep ≠ 0) : (q.withoutShepherd shep).Kept :=
  ⟨kept.shepherds, kept.workers, kept.few, (casFlag_other _ _ other.symm).trans kept.shepherd,
    kept.worker⟩

theorem withoutWorker {place : Nat × Nat} (other : place ≠ (0, 0)) : (q.withoutWorker place).Kept :=
  ⟨kept.shepherds, kept.workers, kept.few, kept.shepherd,
    (casFlag_other _ _ other.symm).trans kept.worker⟩

theorem step (step : q.Step label after) : after.Kept := by
  cases label with
  | disableShepherd shep code =>
    rcases disableShepherd_cases step with ⟨-, -, rfl⟩ | ⟨other, -, -, rfl⟩
    · exact kept
    · exact kept.withoutShepherd other
  | enableShepherd shep =>
    obtain ⟨-, rfl⟩ := enableShepherd_cases step
    exact kept.withShepherd shep
  | disableWorker w code =>
    rcases disableWorker_cases step with ⟨-, -, rfl⟩ | ⟨-, -, -, ⟨-, column, rfl⟩ | ⟨row, rfl⟩⟩
    · exact kept
    · exact (kept.withoutWorker fun same => column (congrArg Prod.fst same)).withoutShepherd column
    · exact kept.withoutWorker fun same => row (congrArg Prod.snd same)
  | enableWorker w =>
    rcases enableWorker_cases kept step with ⟨-, rfl⟩ | ⟨-, ⟨-, rfl⟩ | ⟨-, rfl⟩⟩
    · exact kept
    · exact (kept.withShepherd _).withWorker _
    · exact kept.withWorker _

theorem rejected (step : q.Step label after) (rejects : q.Rejects label) : after = q := by
  cases label with
  | disableShepherd shep code =>
    rcases disableShepherd_cases step with ⟨-, -, same⟩ | ⟨-, -, done, -⟩
    · exact same
    · exact absurd done rejects
  | enableShepherd shep => exact rejects.elim
  | disableWorker w code =>
    rcases disableWorker_cases step with ⟨-, -, same⟩ | ⟨-, done, -⟩
    · exact same
    · exact absurd done rejects
  | enableWorker w =>
    rcases enableWorker_cases kept step with ⟨-, same⟩ | ⟨inside, -⟩
    · exact same
    · exact absurd (mem_workers.mp inside).2 (Nat.not_lt.mpr rejects)

theorem right_iff : q.Right ↔ q.Counted := by
  constructor
  · exact fun right => ⟨right.shepherds, right.workers⟩
  · intro counted
    refine ⟨counted.shepherds, counted.workers, ?_, ?_, fun _ _ => kept.rejected⟩
    · rw [UInt64.le_iff_toNat_le, counted.shepherds]
      exact raised_pos (mem_shepherds.mpr kept.shepherds) kept.shepherd
    · rw [UInt64.le_iff_toNat_le, counted.workers]
      exact raised_pos (mem_workers.mpr ⟨kept.shepherds, kept.workers⟩) kept.worker

theorem few_shepherds : q.shepherds.card < 2 ^ 64 := by
  rw [Qlib.shepherds, Finset.card_range]
  exact Nat.lt_of_le_of_lt (Nat.le_mul_of_pos_right _ kept.workers) kept.few

theorem few_workers : q.workers.card < 2 ^ 64 := by
  rw [card_workers]
  exact kept.few

end Kept

theorem Counted.step_iff (counted : q.Counted) (kept : q.Kept) (step : q.Step label after) :
    after.Counted ↔ q.Flips label := by
  cases label with
  | disableShepherd shep code =>
    rcases disableShepherd_cases step with ⟨first, -, rfl⟩ | ⟨other, inside, -, rfl⟩
    · exact ⟨fun _ away => absurd first away, fun _ => counted⟩
    · have lowered := count_lower_iff (mem_shepherds.mpr inside) counted.shepherds
      constructor
      · exact fun matched _ => lowered.mp matched.shepherds
      · exact fun flips => ⟨lowered.mpr (flips other), counted.workers⟩
  | enableShepherd shep =>
    obtain ⟨inside, rfl⟩ := enableShepherd_cases step
    have lifted := count_raise_iff (mem_shepherds.mpr inside) kept.few_shepherds counted.shepherds
    constructor
    · exact fun matched => lifted.mp matched.shepherds
    · exact fun flips => ⟨lifted.mpr flips, counted.workers⟩
  | disableWorker w code =>
    rcases disableWorker_cases step with
      ⟨first, -, rfl⟩ | ⟨away, -, inside, ⟨row, -, rfl⟩ | ⟨row, rfl⟩⟩
    · exact ⟨fun _ away => absurd first away, fun _ => counted⟩
    · have place := mem_shepherds.mpr (mem_workers.mp inside).1
      have worker := count_lower_iff inside counted.workers
      have shepherd := count_lower_iff place counted.shepherds
      constructor
      · exact fun matched _ =>
          ⟨worker.mp matched.workers, fun _ => shepherd.mp matched.shepherds⟩
      · exact fun flips => ⟨shepherd.mpr ((flips away).2 row), worker.mpr (flips away).1⟩
    · have worker := count_lower_iff inside counted.workers
      constructor
      · exact fun matched _ => ⟨worker.mp matched.workers, fun first => absurd first row⟩
      · exact fun flips => ⟨counted.shepherds, worker.mpr (flips away).1⟩
  | enableWorker w =>
    rcases enableWorker_cases kept step with
      ⟨outside, rfl⟩ | ⟨inside, ⟨row, rfl⟩ | ⟨row, rfl⟩⟩
    · exact ⟨fun _ less => absurd less (Nat.not_lt.mpr outside), fun _ => counted⟩
    · have place := mem_shepherds.mpr (mem_workers.mp inside).1
      have worker := count_raise_iff inside kept.few_workers counted.workers
      have shepherd := count_raise_iff place kept.few_shepherds counted.shepherds
      constructor
      · exact fun matched _ =>
          ⟨worker.mp matched.workers, fun _ => shepherd.mp matched.shepherds⟩
      · exact fun flips =>
          have free := flips (mem_workers.mp inside).2
          ⟨shepherd.mpr (free.2 row), worker.mpr free.1⟩
    · have worker := count_raise_iff inside kept.few_workers counted.workers
      constructor
      · exact fun matched _ => ⟨worker.mp matched.workers, fun first => absurd first row⟩
      · exact fun flips =>
          ⟨counted.shepherds, worker.mpr (flips (mem_workers.mp inside).2).1⟩

theorem right_first {labels : List Label} {last : Qlib}
    (run : Run (Guarded (fun q _ => q.Right) Step) q labels last) (right : last.Right) : q.Right := by
  cases run with
  | nil => exact right
  | cons taken _ => exact taken.1

theorem Counted.run_iff {labels : List Label} {last : Qlib} (counted : q.Counted) (kept : q.Kept) :
    Run (Guarded (fun q _ => q.Right) Step) q labels last ∧ last.Right ↔
      Run (Guarded Flips Step) q labels last := by
  constructor
  · rintro ⟨run, right⟩
    induction run with
    | nil => exact .nil _
    | cons taken rest ih =>
      have next := kept.step taken.2
      have matched := next.right_iff.mp (right_first rest right)
      exact .cons ⟨(counted.step_iff kept taken.2).mp matched, taken.2⟩ (ih matched next right)
  · intro run
    induction run with
    | nil => exact ⟨.nil _, kept.right_iff.mpr counted⟩
    | cons taken _ ih =>
      have matched := (counted.step_iff kept taken.2).mpr taken.1
      obtain ⟨run, right⟩ := ih matched (kept.step taken.2)
      exact ⟨.cons ⟨kept.right_iff.mpr counted, taken.2⟩ run, right⟩

end Qlib

variable {top : Topology}

theorem number_toNat {i j : Nat} (column : i < top.nshepherds.toNat)
    (row : j < top.nworkerspershep.toNat)
    (numbers : top.nshepherds.toNat * (top.nworkerspershep.toNat - 1) < 2 ^ 31) :
    (intProduct j.toUInt16 top.nshepherds + i.toUInt64 + 1).toNat = j * top.nshepherds.toNat + i + 1 := by
  have columns := top.nshepherds.toNat_lt
  have rows := top.nworkerspershep.toNat_lt
  have here : j.toUInt16.toNat = j := UInt16.toNat_ofNat_of_lt' (Nat.lt_trans row rows)
  have there : i.toUInt64.toNat = i :=
    UInt64.toNat_ofNat_of_lt' (Nat.lt_trans (Nat.lt_trans column columns) (by decide))
  have product : j * top.nshepherds.toNat < 2 ^ 31 := by
    rw [Nat.mul_comm]
    exact Nat.lt_of_le_of_lt (Nat.mul_le_mul_left _ (Nat.le_sub_one_of_lt row)) numbers
  have first : (intProduct j.toUInt16 top.nshepherds).toNat = j * top.nshepherds.toNat := by
    rw [intProduct_small (by rwa [here]), here]
  rw [UInt64.toNat_add, UInt64.toNat_add, first, there, show UInt64.toNat 1 = 1 from rfl]
  omega

theorem startsActive_iff {i j : Nat} (column : i < top.nshepherds.toNat)
    (row : j < top.nworkerspershep.toNat) (positive : 0 < top.hwPar.toNat)
    (numbers : top.nshepherds.toNat * (top.nworkerspershep.toNat - 1) < 2 ^ 31) :
    startsActive top i j = true ↔ j * top.nshepherds.toNat + i < top.hwPar.toNat := by
  have number := number_toNat column row numbers
  rw [startsActive]
  by_cases origin : i = 0 ∧ j = 0
  · rw [if_pos origin, origin.1, origin.2, Nat.zero_mul]
    exact ⟨fun _ => positive, fun _ => rfl⟩
  · rw [if_neg origin, if_pos ⟨column, row⟩, Bool.not_eq_true', decide_eq_false_iff_not,
      UInt64.not_lt, UInt64.le_iff_toNat_le, number]
    exact Nat.lt_iff_add_one_le.symm

theorem qthreadInitialize_counted {q : Qlib} (begun : qthreadInitialize top = some q)
    (places : top.hwPar.toNat ≤ top.nshepherds.toNat * top.nworkerspershep.toNat)
    (numbers : top.nshepherds.toNat * (top.nworkerspershep.toNat - 1) < 2 ^ 31) :
    q.Counted ∧ q.Kept := by
  rw [qthreadInitialize] at begun
  split at begun
  next pos =>
    cases begun
    have positive : 0 < top.hwPar.toNat := UInt64.lt_iff_toNat_lt.mp pos
    have both : 0 < top.nshepherds.toNat * top.nworkerspershep.toNat := Nat.lt_of_lt_of_le positive places
    have shepherds : 0 < top.nshepherds.toNat := Nat.pos_of_mul_pos_right both
    have workers : 0 < top.nworkerspershep.toNat := Nat.pos_of_mul_pos_left both
    refine ⟨⟨?_, ?_⟩, ⟨shepherds, workers, ?_, decide_eq_true shepherds, rfl⟩⟩
    · refine (UInt16.toNat_toUInt64 _).trans (Eq.symm ?_)
      refine Eq.trans (raised_all ?_) (Finset.card_range _)
      exact fun i inside => decide_eq_true (Finset.mem_range.mp inside)
    · refine Eq.trans (card_numbered places).symm ?_
      refine congrArg Finset.card (Finset.filter_congr fun place inside => ?_)
      have column := Finset.mem_range.mp (Finset.mem_product.mp inside).1
      have row := Finset.mem_range.mp (Finset.mem_product.mp inside).2
      exact (startsActive_iff column row positive numbers).symm
    · exact Nat.lt_of_lt_of_le (product_lt top.nshepherds top.nworkerspershep)
        (Nat.pow_le_pow_right (by decide) (by decide))
  next => cases begun

/-- From the library's start on, the counts are right all through a run exactly when every call flips the
flags it counts. -/
theorem active_counts_iff {env : Environment} {singleWorker : Bool} {top : Topology}
    {affinityInit : UInt16 × UInt16 × UInt64 → UInt16 × UInt16 × UInt64} {q last : Qlib}
    {labels : List Label}
    (answers : ∀ asked, 1 ≤ (affinityInit asked).1 ∧ 1 ≤ (affinityInit asked).2.1)
    (found : topologyInit env singleWorker affinityInit = some top) (fits : top.Fits)
    (begun : qthreadInitialize top = some q) :
    Run (Guarded (fun q _ => q.Right) Qlib.Step) q labels last ∧ last.Right ↔
      Run (Guarded Qlib.Flips Qlib.Step) q labels last := by
  have places := topologyInit_places answers found fits
  obtain ⟨counted, kept⟩ := qthreadInitialize_counted begun places fits.numbers
  exact counted.run_iff kept

def unasked : Environment := ⟨.unset, .unset, .unset⟩

def twoByTwo (asked : UInt16 × UInt16 × UInt64) : UInt16 × UInt16 × UInt64 := (2, 2, asked.2.2)

theorem active_counts_iff_there_and_back : ∃ q last, qthreadInitialize ⟨2, 2, 4⟩ = some q ∧
    Run (Guarded (fun q _ => q.Right) Qlib.Step) q [.disableShepherd 1 .success, .enableShepherd 1]
      last ∧ last.Right := by
  refine ⟨_, _, rfl, (@active_counts_iff unasked false ⟨2, 2, 4⟩ twoByTwo _ _ _ ?_ rfl ?_ rfl).mpr
    (.cons ⟨fun _ => rfl, rfl⟩ (.cons ⟨rfl, rfl⟩ (.nil _)))⟩
  · exact fun _ => ⟨Nat.le_succ 1, Nat.le_succ 1⟩
  · exact ⟨by decide, by decide⟩

/-- A shepherd that is disabled twice is counted twice. -/
theorem disabled_twice : ∃ q last, topologyInit unasked false twoByTwo = some ⟨2, 2, 4⟩ ∧
    qthreadInitialize ⟨2, 2, 4⟩ = some q ∧
    Run Qlib.Step q [.disableShepherd 1 .success, .disableShepherd 1 .success] last ∧
    last.nshepherdsActive.toNat ≠ raised last.shepherds last.shepherdActive := by
  refine ⟨_, _, rfl, rfl, .cons rfl (.cons rfl (.nil _)), ?_⟩
  decide

end Qthreads.Shepherds
