import Qthreads.Sincs.Ideal

namespace Qthreads.Sincs.Selectable

open Qthreads.Lib
open Function (update update_of_ne update_self)

variable {size : Nat} {machine : Machine} {operation : Operation size} {ideal : Ideal size}
  {rdata : Reduction size}

theorem Machine.mem_workers {slot : Worker} :
    slot ∈ machine.workers ↔ slot.1 < machine.sheps ∧ slot.2 < machine.wps := by
  obtain ⟨shep, worker⟩ := slot
  rw [workers, List.mem_flatMap]
  constructor
  · intro ⟨other, shepListed, workerListed⟩
    obtain ⟨index, indexListed, same⟩ := List.mem_map.mp workerListed
    cases same
    exact ⟨List.mem_range.mp shepListed, List.mem_range.mp indexListed⟩
  · intro ⟨shepSmall, workerSmall⟩
    exact ⟨shep, List.mem_range.mpr shepSmall,
      List.mem_map.mpr ⟨worker, List.mem_range.mpr workerSmall, rfl⟩⟩

theorem Machine.workers_nodup : machine.workers.Nodup := by
  refine List.nodup_flatMap.mpr ⟨fun shep _ => ?_, ?_⟩
  · exact List.nodup_range.map fun first second same => (Prod.mk.inj same).2
  · refine List.nodup_range.imp fun {first second} differ => ?_
    intro slot inFirst inSecond
    obtain ⟨_, -, rfl⟩ := List.mem_map.mp inFirst
    obtain ⟨_, -, same⟩ := List.mem_map.mp inSecond
    exact differ (Prod.mk.inj same).1.symm

theorem Machine.workers_length_pos : 0 < machine.workers.length :=
  List.length_pos_of_mem
    (mem_workers.mpr (⟨machine.someSheps, machine.someWorkers⟩ : (0, 0).1 < _ ∧ (0, 0).2 < _))

namespace Original

theorem saligned_small {count : Nat} (small : count < 2 ^ 63) : saligned count = count :=
  Int.bmod_eq_of_le (by omega) (by omega)

structure Holds (machine : Machine) (outstanding : Nat) (shares : Worker → Nat)
    (s : Original size) : Prop where
  counts : ∀ slot ∈ machine.workers, s.counts slot = shares slot
  sum : Lib.total machine.workers shares = outstanding
  remaining : s.remaining = busy machine.workers shares

structure Shows (machine : Machine) (ideal : Ideal size) (s : Original size) : Prop where
  holds : ∃ shares, Holds machine ideal.outstanding shares s
  ready : s.ready = decide (ideal.outstanding = 0)
  rdata : Reduction.Matches ideal.outstanding ideal.rdata s.rdata

variable {s : Original size} {shares : Worker → Nat} {outstanding : Nat}

theorem Shows.wait (shows : Shows machine ideal s) :
    s.wait = if ideal.outstanding = 0 then some ideal.rdata.result else none := by
  rw [Original.wait, shows.ready]
  by_cases zero : ideal.outstanding = 0
  · rw [if_pos (decide_eq_true zero), if_pos zero, shows.rdata.result zero]
  · rw [if_neg (fun same => zero (of_decide_eq_true same)), if_neg zero]

theorem spread_holds {willSpawn : Nat} (small : willSpawn < 2 ^ 63) (counts : Worker → Int)
    (ready : Bool) (rdata : Reduction size) :
    ∃ shares, Holds machine willSpawn shares
      { counts := spread machine willSpawn counts
        remaining := spreadRemaining machine willSpawn
        ready
        rdata } := by
  obtain ⟨shares, stored, sum, many⟩ :=
    distribute_even (fun count => saligned count) willSpawn counts machine.workers_nodup
      machine.workers_length_pos
  refine ⟨shares, fun slot listed => (stored slot listed).trans ?_, sum, many.symm⟩
  have share := share_le_total shares listed
  exact saligned_small (by omega)

theorem create_shows {willSpawn : Nat} (small : willSpawn < 2 ^ 63) {scrap : Scrap size}
    (matched : Reduction.Matches willSpawn rdata (.create operation scrap)) :
    Shows machine ⟨willSpawn, rdata⟩ (create machine operation scrap willSpawn) := by
  rw [create]
  by_cases positive : 0 < willSpawn
  · rw [if_pos positive]
    exact ⟨spread_holds small _ _ _, (decide_eq_false (Nat.ne_of_gt positive)).symm, matched⟩
  · have zero : willSpawn = 0 := by omega
    rw [if_neg positive, zero]
    rw [zero] at matched
    refine ⟨⟨fun _ => 0, fun _ _ => rfl, ?_, ?_⟩, rfl, matched⟩
    · exact total_eq_zero_iff.mpr fun _ _ => rfl
    · exact (busy_eq_zero_iff.mpr (total_eq_zero_iff.mpr fun _ _ => rfl)).symm

theorem candidates_workers {worker : Worker} (inside : worker ∈ machine.workers) {slot : Worker} :
    slot ∈ candidates machine worker ↔ slot ∈ machine.workers := by
  obtain ⟨shepSmall, workerSmall⟩ := Machine.mem_workers.mp inside
  have perm := machine.others worker.1 shepSmall
  have others : ∀ shep, shep ∈ machine.sorted worker.1 ↔ shep < machine.sheps ∧ shep ≠ worker.1 := by
    intro shep
    rw [perm.mem_iff, List.nodup_range.mem_erase_iff, List.mem_range, And.comm]
  rw [candidates, List.mem_append, List.mem_flatMap, List.mem_map, Machine.mem_workers]
  constructor
  · rintro (⟨delta, -, rfl⟩ | ⟨shep, listed, inShep⟩)
    · exact ⟨shepSmall, Nat.mod_lt _ machine.someWorkers⟩
    · obtain ⟨other, otherSmall, rfl⟩ := List.mem_map.mp inShep
      exact ⟨((others shep).mp listed).1, List.mem_range.mp otherSmall⟩
  · intro ⟨slotShep, slotWorker⟩
    by_cases same : slot.1 = worker.1
    · refine .inl ⟨(slot.2 + machine.wps - worker.2) % machine.wps,
        List.mem_range.mpr (Nat.mod_lt _ machine.someWorkers), ?_⟩
      have back : worker.2 + (slot.2 + machine.wps - worker.2) = slot.2 + machine.wps := by omega
      rw [Nat.add_mod_mod, back, Nat.add_mod_right, Nat.mod_eq_of_lt slotWorker, ← same]
    · exact .inr ⟨slot.1, (others _).mpr ⟨slotShep, same⟩,
        List.mem_map.mpr ⟨slot.2, List.mem_range.mpr slotWorker, rfl⟩⟩

theorem Holds.taken (holds : Holds machine outstanding shares s) (small : outstanding < 2 ^ 63)
    {slot : Worker} (listed : slot ∈ machine.workers) (positive : 0 < shares slot) :
    ∃ after : Worker → Nat,
      (∀ other ∈ machine.workers,
        update s.counts slot (saligned (s.counts slot - 1)) other = after other) ∧
      Lib.total machine.workers after = outstanding - 1 ∧
      (busy machine.workers after + if shares slot = 1 then 1 else 0) = s.remaining := by
  have less := total_loss machine.workers_nodup listed positive
  rw [holds.sum] at less
  refine ⟨update shares slot (shares slot - 1), ?_, by omega, ?_⟩
  · intro other otherListed
    have share := share_le_total shares listed
    have whole := holds.sum
    by_cases same : other = slot
    · have less : (shares slot : Int) - 1 = (shares slot - 1 : Nat) := by omega
      rw [same, update_self, update_self, holds.counts slot listed, less]
      exact saligned_small (by omega)
    · rw [update_of_ne same, update_of_ne same, holds.counts other otherListed]
  · rw [busy_loss machine.workers_nodup listed positive, holds.remaining]

theorem Holds.submitAmong (holds : Holds machine outstanding shares s)
    (small : outstanding < 2 ^ 63) (waiting : s.ready = false)
    (matched : Reduction.Matches outstanding rdata s.rdata) (slots : List Worker)
    (inside : ∀ slot ∈ slots, slot ∈ machine.workers) (occurs : ∃ slot ∈ slots, shares slot ≠ 0) :
    ∃ after, submitAmong machine operation s slots = some after ∧
      Shows machine
        ⟨outstanding - 1, if outstanding = 1 then rdata.collate machine operation else rdata⟩
        after := by
  induction slots with
  | nil =>
    obtain ⟨slot, listed, -⟩ := occurs
    cases listed
  | cons slot rest ih =>
    have listed := inside slot (List.mem_cons_self ..)
    have count := holds.counts slot listed
    rw [Original.submitAmong]
    by_cases isZero : shares slot = 0
    · rw [if_neg (by omega)]
      refine ih (fun other later => inside other (List.mem_cons_of_mem _ later)) ?_
      obtain ⟨other, otherListed, busy⟩ := occurs
      refine ⟨other, (List.mem_cons.mp otherListed).resolve_left ?_, busy⟩
      exact fun same => busy (same ▸ isZero)
    · have positive : 0 < shares slot := Nat.pos_of_ne_zero isZero
      obtain ⟨after, taken, less, fewer⟩ := holds.taken small listed positive
      have last := total_eq_one_iff machine.workers_nodup listed positive
      rw [holds.sum, ← holds.remaining] at last
      have share := share_le_total shares listed
      rw [holds.sum] at share
      rw [if_pos (by omega)]
      by_cases one : shares slot = 1
      · rw [if_pos one] at fewer
        have left : s.remaining - 1 = busy machine.workers after := by omega
        simp only
        rw [if_pos (by omega), if_pos (by omega)]
        refine ⟨_, rfl, ?_⟩
        by_cases single : outstanding = 1
        · rw [if_pos single, if_pos (last.mp single).2, single]
          rw [single] at less
          exact ⟨⟨after, taken, less, left⟩, rfl, matched.collate _⟩
        · have more : s.remaining ≠ 1 := fun alone => single (last.mpr ⟨one, alone⟩)
          have still : outstanding - 1 ≠ 0 := by omega
          rw [if_neg single, if_neg more]
          exact ⟨⟨after, taken, less, left⟩, waiting.trans (decide_eq_false still).symm,
            matched.values, fun zero => absurd zero still⟩
      · rw [if_neg one] at fewer
        have more : outstanding ≠ 1 := by omega
        have still : outstanding - 1 ≠ 0 := by omega
        simp only
        rw [if_neg (by omega), if_neg more]
        exact ⟨_, rfl, ⟨after, taken, less, fewer.symm⟩,
          waiting.trans (decide_eq_false still).symm, matched.values,
          fun zero => absurd zero still⟩

theorem Holds.expect (holds : Holds machine outstanding shares s) {worker : Worker}
    (listed : worker ∈ machine.workers) {count : Nat} (positive : 0 < count)
    (small : outstanding + count < 2 ^ 63) (ready : Bool) :
    ∃ after, Holds machine (outstanding + count) after
      { s with
        counts := update s.counts worker (saligned (s.counts worker + count))
        ready
        remaining :=
          if s.counts worker = 0 then (s.remaining + 1) % countRange else s.remaining } := by
  have share := share_le_total shares listed
  have gain := total_gain shares machine.workers_nodup listed count
  have more := busy_gain shares machine.workers_nodup listed positive
  have few := @busy_le_total _ machine.workers shares
  have own := holds.counts worker listed
  rw [holds.sum] at gain share few
  refine ⟨_, fun other otherListed => ?_, gain, ?_⟩
  · by_cases same : other = worker
    · have grown : (shares worker : Int) + count = (shares worker + count : Nat) := by omega
      simp only [same, update_self]
      rw [own, grown]
      exact saligned_small (by omega)
    · simp only [update_of_ne same]
      exact holds.counts other otherListed
  · simp only
    rw [more, holds.remaining, own]
    by_cases zero : shares worker = 0
    · rw [if_pos zero, if_pos (by omega), Nat.mod_eq_of_lt]
      rw [countRange]
      omega
    · rw [if_neg zero, if_neg (by omega), Nat.add_zero]

theorem shows (shows : Shows machine ideal s) {call : Call size}
    (small : ideal.outstanding < 2 ^ 63) (allowed : call.Allowed machine ideal.outstanding)
    (meets : call.Meets ideal.outstanding) :
    ∃ after, apply machine operation s call = some after ∧
      Shows machine (ideal.apply machine operation call) after := by
  obtain ⟨shares, holds⟩ := shows.holds
  cases call with
  | reset willSpawn =>
    refine ⟨_, rfl, spread_holds allowed _ _ _, ?_, Reduction.Matches.clear meets⟩
    exact (decide_eq_false meets).symm
  | expect worker count =>
    obtain ⟨listed, few⟩ := allowed
    have positive : 0 < ideal.outstanding := meets
    have still : ¬ ideal.outstanding + count = 0 := by omega
    have waiting : s.ready = false := shows.ready.trans (decide_eq_false (by omega))
    rw [apply, expect]
    by_cases pos : 0 < count
    · have grown := holds.expect listed pos few false
      rw [if_pos pos]
      by_cases isZero : s.counts worker = 0
      · rw [if_pos isZero] at grown
        simp only
        rw [if_pos isZero]
        exact ⟨_, rfl, grown, (decide_eq_false still).symm, shows.rdata.values,
          fun zero => absurd zero still⟩
      · rw [if_neg isZero, ← waiting] at grown
        simp only
        rw [if_neg isZero]
        exact ⟨_, rfl, grown, waiting.trans (decide_eq_false still).symm, shows.rdata.values,
          fun zero => absurd zero still⟩
    · have isZero : count = 0 := by omega
      rw [if_neg pos, isZero]
      exact ⟨s, rfl, shows⟩
  | submit worker value =>
    obtain ⟨listed, positive, fits⟩ := allowed
    rw [apply, submit, Reduction.submit_eq _ _ fits]
    have put := shows.rdata.put operation (Nat.ne_of_gt positive) worker value
    have waiting : s.ready = false := shows.ready.trans (decide_eq_false (by omega))
    have same : Holds machine ideal.outstanding shares
        { s with rdata := s.rdata.put operation worker value } :=
      ⟨holds.counts, holds.sum, holds.remaining⟩
    obtain ⟨slot, slotListed, busy⟩ := exists_share (by rw [holds.sum]; exact positive)
    refine same.submitAmong small waiting put _ ?_ ⟨slot, ?_, busy⟩
    · exact fun other => (candidates_workers listed).mp
    · exact (candidates_workers listed).mpr slotListed

end Original

namespace Snzi

structure Holds (machine : Machine) (outstanding : Nat) (shares : Nat → Nat)
    (s : Snzi size) : Prop where
  counts : ∀ shep ∈ List.range machine.sheps, s.counts shep = snziAssign (shares shep)
  sum : Lib.total (List.range machine.sheps) shares = outstanding
  remaining : s.remaining = busy (List.range machine.sheps) shares

structure Shows (machine : Machine) (ideal : Ideal size) (s : Snzi size) : Prop where
  holds : 0 < ideal.outstanding → ∃ shares, Holds machine ideal.outstanding shares s
  ready : s.ready = decide (ideal.outstanding = 0)
  rdata : Reduction.Matches ideal.outstanding ideal.rdata s.rdata

variable {s : Snzi size} {shares : Nat → Nat} {outstanding : Nat}

theorem Shows.wait (shows : Shows machine ideal s) :
    s.wait = if ideal.outstanding = 0 then some ideal.rdata.result else none := by
  rw [Snzi.wait, shows.ready]
  by_cases zero : ideal.outstanding = 0
  · rw [if_pos (decide_eq_true zero), if_pos zero, shows.rdata.result zero]
  · rw [if_neg (fun same => zero (of_decide_eq_true same)), if_neg zero]

variable {count : Nat}

theorem snziAssign_pos (positive : 0 < count) (small : count < 2 ^ 63) :
    snziAssign count = count + 1 := by
  rw [snziAssign, if_neg (Nat.ne_of_gt positive), Nat.mod_eq_of_lt]
  rw [countRange]
  omega

theorem snziAssign_zero_iff (small : count < 2 ^ 63) : snziAssign count = 0 ↔ count = 0 := by
  by_cases isZero : count = 0
  · rw [isZero]
    exact ⟨fun _ => rfl, fun _ => rfl⟩
  · rw [snziAssign_pos (Nat.pos_of_ne_zero isZero) small]
    exact ⟨nofun, fun zero => absurd zero isZero⟩

theorem spread_spec (machine : Machine) (expect : Nat) (counts : Nat → Nat) :
    ∃ shares : Nat → Nat,
      (∀ shep ∈ List.range machine.sheps,
        spread machine expect counts shep = snziAssign (shares shep)) ∧
      Lib.total (List.range machine.sheps) shares = expect ∧
      spreadRemaining machine expect = busy (List.range machine.sheps) shares := by
  have positive : 0 < (List.range machine.sheps).length := by
    rw [List.length_range]
    exact machine.someSheps
  obtain ⟨shares, stored, sum, many⟩ :=
    distribute_even snziAssign expect counts List.nodup_range positive
  rw [List.length_range] at stored many
  exact ⟨shares, stored, sum, many.symm⟩

theorem spread_holds {expect : Nat} (counts : Nat → Nat) (ready : Bool) (rdata : Reduction size) :
    ∃ shares, Holds machine expect shares
      { counts := spread machine expect counts
        remaining := spreadRemaining machine expect
        ready
        rdata } := by
  obtain ⟨shares, stored, sum, many⟩ := spread_spec machine expect counts
  exact ⟨shares, stored, sum, many⟩

theorem create_shows {expect : Nat} {scrap : Scrap size}
    (matched : Reduction.Matches expect rdata (.create operation scrap)) :
    Shows machine ⟨expect, rdata⟩ (create machine operation scrap expect) := by
  rw [create]
  by_cases positive : 0 < expect
  · rw [if_pos positive]
    exact ⟨fun _ => spread_holds _ _ _, (decide_eq_false (Nat.ne_of_gt positive)).symm, matched⟩
  · have zero : expect = 0 := by omega
    rw [if_neg positive, zero]
    rw [zero] at matched
    exact ⟨nofun, rfl, matched⟩

variable {shep : Nat}

theorem seek_finds {counts : Nat → Nat} {goal : Nat} (goalSmall : goal < machine.sheps)
    (busy : counts goal ≠ 0) (fuel : Nat) (small : shep < machine.sheps)
    (enough : (if shep ≤ goal then goal - shep else goal + machine.sheps - shep) < fuel) :
    ∃ found < machine.sheps, counts found ≠ 0 ∧ seek machine counts fuel shep = some found := by
  induction fuel generalizing shep with
  | zero => exact absurd enough (Nat.not_lt_zero _)
  | succ fuel ih =>
    rw [seek]
    by_cases isZero : counts shep = 0
    · have differs : shep ≠ goal := fun same => busy (same ▸ isZero)
      rw [if_pos isZero]
      refine ih ?_ ?_
      · have positive := machine.someSheps
        split <;> omega
      · split_ifs at enough ⊢ <;> omega
    · rw [if_neg isZero]
      exact ⟨shep, small, isZero, rfl⟩

theorem seek_stays {counts : Nat → Nat} (busy : counts shep ≠ 0) (fuel : Nat) :
    seek machine counts (fuel + 1) shep = some shep := by
  rw [seek, if_neg busy]

section

variable (holds : Holds machine outstanding shares s)
include holds

theorem Holds.taken (small : outstanding < 2 ^ 63)
    (listed : shep ∈ List.range machine.sheps) (positive : 0 < shares shep) :
    ∃ after : Nat → Nat,
      (∀ other ∈ List.range machine.sheps,
        update s.counts shep
          (if s.counts shep = snziOne then 0 else s.counts shep - 1) other =
            snziAssign (after other)) ∧
      Lib.total (List.range machine.sheps) after = outstanding - 1 ∧
      (busy (List.range machine.sheps) after + if shares shep = 1 then 1 else 0) =
        s.remaining := by
  have less := total_loss List.nodup_range listed positive
  have share := share_le_total shares listed
  have own := holds.counts shep listed
  rw [holds.sum] at less share
  rw [snziAssign_pos positive (by omega)] at own
  refine ⟨update shares shep (shares shep - 1), ?_, by omega, ?_⟩
  · intro other otherListed
    by_cases same : other = shep
    · rw [same, update_self, update_self, own, snziOne]
      by_cases one : shares shep = 1
      · rw [if_pos (by omega), one]
        rfl
      · rw [if_neg (by omega), snziAssign_pos (by omega) (by omega)]
        omega
    · rw [update_of_ne same, update_of_ne same, holds.counts other otherListed]
  · rw [busy_loss List.nodup_range listed positive, holds.remaining]

theorem Holds.departFrom (small : outstanding < 2 ^ 63) (waiting : s.ready = false)
    (matched : Reduction.Matches outstanding rdata s.rdata)
    (listed : shep ∈ List.range machine.sheps) (positive : 0 < shares shep) (fuel : Nat) :
    ∃ after, depart machine operation s (fuel + 1) shep = some after ∧
      Shows machine
        ⟨outstanding - 1, if outstanding = 1 then rdata.collate machine operation else rdata⟩
        after := by
  obtain ⟨after, taken, less, fewer⟩ := holds.taken small listed positive
  have last := total_eq_one_iff List.nodup_range listed positive
  rw [holds.sum, ← holds.remaining] at last
  have share := share_le_total shares listed
  have own := holds.counts shep listed
  rw [holds.sum] at share
  rw [snziAssign_pos positive (by omega)] at own
  rw [depart, seek_stays (by omega)]
  simp only
  rw [if_neg (by rw [snziOne]; omega), if_true]
  by_cases one : shares shep = 1
  · have two : s.counts shep = snziOne := by rw [own, one, snziOne]
    rw [if_pos one] at fewer
    have nonzero : s.remaining ≠ 0 := by omega
    have left : s.remaining - 1 = busy (List.range machine.sheps) after := by omega
    rw [if_pos two] at taken
    simp only [two, if_true, if_neg nonzero]
    refine ⟨_, rfl, ?_⟩
    by_cases single : outstanding = 1
    · rw [if_pos single, if_pos (last.mp single).2, single]
      rw [single] at less
      exact ⟨fun _ => ⟨after, taken, less, left⟩, rfl, matched.collate _⟩
    · have more : s.remaining ≠ 1 := fun alone => single (last.mpr ⟨one, alone⟩)
      have still : outstanding - 1 ≠ 0 := by omega
      rw [if_neg single, if_neg more]
      exact ⟨fun _ => ⟨after, taken, less, left⟩, waiting.trans (decide_eq_false still).symm,
        matched.values, fun zero => absurd zero still⟩
  · have more : s.counts shep ≠ snziOne := by
      rw [own, snziOne]
      omega
    have several : outstanding ≠ 1 := by omega
    have still : outstanding - 1 ≠ 0 := by omega
    rw [if_neg one] at fewer
    rw [if_neg more] at taken
    rw [if_neg several, if_neg more, if_neg more]
    exact ⟨_, rfl, fun _ => ⟨after, taken, less, fewer.symm⟩,
      waiting.trans (decide_eq_false still).symm, matched.values, fun zero => absurd zero still⟩

theorem Holds.depart (positive : 0 < outstanding)
    (small : outstanding < 2 ^ 63) (waiting : s.ready = false)
    (matched : Reduction.Matches outstanding rdata s.rdata)
    (shepSmall : shep < machine.sheps) :
    ∃ after, depart machine operation s 2 shep = some after ∧
      Shows machine
        ⟨outstanding - 1, if outstanding = 1 then rdata.collate machine operation else rdata⟩
        after := by
  have busyAt : ∀ other ∈ List.range machine.sheps, s.counts other ≠ 0 → 0 < shares other := by
    intro other listed busy
    have share := share_le_total shares listed
    rw [holds.sum] at share
    rw [holds.counts other listed, Ne, snziAssign_zero_iff (by omega)] at busy
    exact Nat.pos_of_ne_zero busy
  by_cases idle : s.counts shep = 0
  · obtain ⟨goal, goalListed, goalBusy⟩ := exists_share (by rw [holds.sum]; exact positive)
    have goalShare := share_le_total shares goalListed
    rw [holds.sum] at goalShare
    have goalCount : s.counts goal ≠ 0 := by
      rw [holds.counts goal goalListed, Ne, snziAssign_zero_iff (by omega)]
      exact goalBusy
    have goalSmall := List.mem_range.mp goalListed
    obtain ⟨found, foundSmall, foundBusy, sought⟩ :=
      seek_finds goalSmall goalCount (machine.sheps + 1) shepSmall (by split <;> omega)
    have foundListed := List.mem_range.mpr foundSmall
    rw [Snzi.depart, sought]
    simp only
    rw [if_pos (by rw [idle, snziOne]; omega)]
    exact holds.departFrom small waiting matched foundListed (busyAt found foundListed foundBusy) 0
  · have listed := List.mem_range.mpr shepSmall
    exact holds.departFrom small waiting matched listed (busyAt shep listed idle) 1

end

theorem Holds.expect (holds : Holds machine outstanding shares s)
    (listed : shep ∈ List.range machine.sheps) (positive : 0 < count)
    (small : outstanding + count < 2 ^ 63) :
    ∃ after, expect s shep count = some after ∧ after.ready = s.ready ∧
      after.rdata = s.rdata ∧ ∃ grown, Holds machine (outstanding + count) grown after := by
  have share := share_le_total shares listed
  have gain := total_gain shares List.nodup_range listed count
  have more := busy_gain shares List.nodup_range listed positive
  have few := @busy_le_total _ (List.range machine.sheps) shares
  have own := holds.counts shep listed
  have fits : count + 1 < countRange ∧ outstanding + count + 1 < countRange := by
    rw [countRange]
    omega
  rw [holds.sum] at gain share few
  have counted : ∀ stored, stored = shares shep + count + 1 →
      ∀ other ∈ List.range machine.sheps,
        update s.counts shep stored other =
          snziAssign (update shares shep (shares shep + count) other) := by
    intro stored value other otherListed
    by_cases same : other = shep
    · rw [same, update_self, update_self,
        snziAssign_pos (by omega) (by omega), value]
    · rw [update_of_ne same, update_of_ne same]
      exact holds.counts other otherListed
  rw [Snzi.expect, if_pos positive]
  by_cases zero : shares shep = 0
  · have idle : s.counts shep = 0 := by rw [own, zero, snziAssign, if_pos rfl]
    have waiting : ¬ snziOne ≤ s.counts shep := by
      rw [idle, snziOne]
      omega
    rw [if_neg waiting, Nat.mod_eq_of_lt fits.1]
    refine ⟨_, rfl, rfl, rfl, _, counted _ (by omega), gain, ?_⟩
    rw [more, if_pos zero, ← holds.remaining, Nat.mod_eq_of_lt (by rw [holds.remaining]; omega)]
  · rw [snziAssign_pos (by omega) (by omega)] at own
    have busy : snziOne ≤ s.counts shep := by
      rw [own, snziOne]
      omega
    rw [if_pos busy, Nat.mod_eq_of_lt (by omega)]
    refine ⟨_, rfl, rfl, rfl, _, counted _ (by omega), gain, ?_⟩
    rw [more, if_neg zero, ← holds.remaining, Nat.add_zero]

theorem shows (shows : Shows machine ideal s) {call : Call size}
    (small : ideal.outstanding < 2 ^ 63) (allowed : call.Allowed machine ideal.outstanding)
    (meets : call.Meets ideal.outstanding) :
    ∃ after, apply machine operation s call = some after ∧
      Shows machine (ideal.apply machine operation call) after := by
  cases call with
  | reset willSpawn =>
    exact ⟨_, rfl, fun _ => spread_holds _ _ _, rfl, Reduction.Matches.clear meets⟩
  | expect worker count =>
    obtain ⟨listed, few⟩ := allowed
    have positive : 0 < ideal.outstanding := meets
    obtain ⟨shares, holds⟩ := shows.holds positive
    have shepListed := List.mem_range.mpr (Machine.mem_workers.mp listed).1
    by_cases pos : 0 < count
    · obtain ⟨after, run, ready, rdata, grown⟩ := holds.expect shepListed pos few
      have still : ¬ ideal.outstanding + count = 0 := by omega
      refine ⟨after, run, fun _ => grown, ?_, ?_⟩
      · rw [ready, shows.ready, decide_eq_false (by omega)]
        exact (decide_eq_false still).symm
      · rw [rdata]
        exact ⟨shows.rdata.values, fun zero => absurd zero still⟩
    · have isZero : count = 0 := by omega
      rw [apply, expect, if_neg pos, isZero]
      exact ⟨s, rfl, shows⟩
  | submit worker value =>
    obtain ⟨listed, positive, fits⟩ := allowed
    obtain ⟨shares, holds⟩ := shows.holds positive
    rw [apply, submit, Reduction.submit_eq _ _ fits]
    have put := shows.rdata.put operation (Nat.ne_of_gt positive) worker value
    have waiting : s.ready = false := shows.ready.trans (decide_eq_false (by omega))
    have same : Holds machine ideal.outstanding shares
        { s with rdata := s.rdata.put operation worker value } :=
      ⟨holds.counts, holds.sum, holds.remaining⟩
    exact same.depart positive small waiting put (Machine.mem_workers.mp listed).1

end Snzi

end Qthreads.Sincs.Selectable
