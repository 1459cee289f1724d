import Qthreads.Loop.Balance
import Qthreads.Loop.Queue

namespace Qthreads.Loop

open Qthreads.Lib
open Function (update update_of_ne update_self update_eq_self update_idem)

def Fits (value : Int) : Prop := -2 ^ 63 ≤ value ∧ value < 2 ^ 63

theorem saligned_of_fits {value : Int} (fits : Fits value) : saligned value = value := by
  obtain ⟨low, high⟩ := fits
  simp only [saligned, Int.bmod_def]
  omega

theorem saligned_fits (value : Int) : Fits (saligned value) := by
  simp only [saligned, Int.bmod_def, Fits]
  omega

/-- A loop whose bounds, chunk size and increment survive the conversion to `saligned_t`. -/
structure LoopArgs.Representable (loop : LoopArgs) : Prop where
  ordered : loop.startat ≤ loop.stopat
  bounds : loop.start ≤ loop.stop
  chunk : loop.type = .chunk → 1 ≤ loop.chunk
  phase : loop.type = .factored → loop.startat < loop.stopat → loop.stopat.toNat < 2 ^ 63
  step : loop.type = .timed → 1 ≤ loop.step

/-- The distance between a signed bound and the `size_t` it stands for. -/
def LoopArgs.offset (loop : LoopArgs) : Int := loop.startat.toNat - loop.start

variable {loop : LoopArgs}

theorem LoopArgs.Representable.offset (ok : loop.Representable) :
    (loop.offset = 0 ∧ 0 ≤ loop.start ∨ loop.offset = 2 ^ 64 ∧ loop.stop < 0) ∧
      (loop.stopat.toNat : Int) = loop.stop + loop.offset := by
  have ordered : loop.startat.toNat ≤ loop.stopat.toNat := ok.ordered
  have bounds := ok.bounds
  have startBound := loop.startat.toNat_lt
  have stopBound := loop.stopat.toNat_lt
  simp only [LoopArgs.offset, LoopArgs.start, LoopArgs.stop, saligned, Int.bmod_def] at *
  omega

theorem LoopArgs.start_fits (loop : LoopArgs) : Fits loop.start := saligned_fits _

theorem LoopArgs.stop_fits (loop : LoopArgs) : Fits loop.stop := saligned_fits _

theorem LoopArgs.Representable.length (ok : loop.Representable) :
    loop.stop - loop.start < 2 ^ 63 := by
  obtain ⟨sides, stopat⟩ := ok.offset
  obtain ⟨startLow, startHigh⟩ := loop.start_fits
  obtain ⟨stopLow, stopHigh⟩ := loop.stop_fits
  omega

theorem LoopArgs.Representable.lower (ok : loop.Representable) (factored : loop.type = .factored)
    (nonempty : loop.start < loop.stop) : 0 ≤ loop.start := by
  obtain ⟨sides, stopat⟩ := ok.offset
  have startat : (loop.startat.toNat : Int) = loop.start + loop.offset := by
    simp only [LoopArgs.offset]
    omega
  have less : loop.startat < loop.stopat := UInt64.lt_iff_toNat_lt.mpr (by omega)
  have small := ok.phase factored less
  obtain ⟨stopLow, stopHigh⟩ := loop.stop_fits
  omega

theorem LoopArgs.Representable.sizeT (ok : loop.Representable) {value : Int}
    (low : loop.start ≤ value) (high : value ≤ loop.stop) :
    (sizeT value : Int) = value + loop.offset := by
  obtain ⟨sides, stopat⟩ := ok.offset
  obtain ⟨startLow, startHigh⟩ := loop.start_fits
  obtain ⟨stopLow, stopHigh⟩ := loop.stop_fits
  simp only [Loop.sizeT]
  omega

def LoopArgs.cover (loop : LoopArgs) (start y : Int) : Nat :=
  if loop.start ≤ y ∧ y < start ∧ y < loop.stop then 1 else 0

def within (first last y : Int) : Nat := if first ≤ y ∧ y < last then 1 else 0

def Pc.taken (y : Int) : Pc → Nat
  | .timedRecord _ localstart dynamicBlock => within localstart (localstart + dynamicBlock) y
  | _ => 0

structure IterationQueue.Good (loop : LoopArgs) (iq : IterationQueue) : Prop where
  low : loop.start ≤ iq.start
  fits : Fits iq.start
  phase : loop.type = .factored → loop.start < loop.stop →
    loop.start ≤ iq.phase ∧ iq.phase ≤ loop.stop

/-- A value of `iq->start` that a worker has read: it is not below the first iteration, and
if it was past the last one, so is every later value. -/
structure Seen (loop : LoopArgs) (iq : IterationQueue) (ret : Int) : Prop where
  low : loop.start ≤ ret
  fits : Fits ret
  past : loop.stop ≤ ret → loop.stop ≤ iq.start

structure Factored (loop : LoopArgs) (phase : Int) : Prop where
  type : loop.type = .factored
  low : loop.start ≤ phase
  high : phase ≤ loop.stop
  lower : 0 ≤ loop.start

def Pc.Ready (loop : LoopArgs) (iq : IterationQueue) : Pc → Prop
  | .unborn | .idle | .disabled | .aloneRead | .aloneWrite _ => True
  | .finished => loop.stop ≤ iq.start
  | .chunkIncr => loop.type = .chunk
  | .guidedSheps ret => Seen loop iq ret
  | .guidedWorkers sheps ret => 0 < sheps ∧ Seen loop iq ret
  | .guidedRead sheps => 0 < sheps
  | .guidedCas sheps ret iterations =>
    0 < sheps ∧ Seen loop iq ret ∧
      (ret < loop.stop → 0 < iterations ∧ ret + iterations ≤ loop.stop) ∧
      (loop.stop ≤ ret → loop.stop ≤ ret + iterations)
  | .factoredPhase ret => loop.type = .factored ∧ Seen loop iq ret
  | .factoredSheps ret phase =>
    loop.type = .factored ∧ Seen loop iq ret ∧ (ret < loop.stop → Factored loop phase)
  | .factoredWorkers sheps ret phase =>
    0 < sheps ∧ Seen loop iq ret ∧ (ret < loop.stop → Factored loop phase)
  | .factoredRead sheps phase => 0 < sheps ∧ Factored loop phase
  | .factoredPhaseCas sheps ret phase newphase =>
    0 < sheps ∧ Seen loop iq ret ∧ Factored loop phase ∧ Factored loop newphase ∧
      ret < loop.stop ∧ Fits (loop.stop + ret)
  | .factoredCas sheps ret phase iterations =>
    0 < sheps ∧ Seen loop iq ret ∧ Factored loop phase ∧ 0 < iterations ∧
      (ret < loop.stop → ret + iterations ≤ loop.stop)
  | .timedBlock workerCount _ _ => 0 < workerCount ∧ loop.type = .timed
  | .timedStart workerCount _ slow dynamicBlock =>
    0 < workerCount ∧ loop.type = .timed ∧ (slow = false → 0 < dynamicBlock)
  | .timedCas workerCount _ _ localstart dynamicBlock =>
    0 < workerCount ∧ loop.type = .timed ∧ Seen loop iq localstart ∧ 0 < dynamicBlock ∧
      localstart + dynamicBlock ≤ loop.stop
  | .timedRecord _ localstart dynamicBlock =>
    loop.type = .timed ∧ loop.start ≤ localstart ∧ 0 < dynamicBlock ∧
      localstart + dynamicBlock ≤ loop.stop

/-- The additions and products of a timed getter that starts from `localstart`. -/
def TimedFits (loop : LoopArgs) (workerCount : Nat) (slow : Bool) (localstart dynamicBlock : Int) :
    Prop :=
  localstart < loop.stop →
    if slow then Fits ((workerCount * 2) * loop.step) else Fits (localstart + dynamicBlock)

/-- The condition on a step: no signed sum or product it computes overflows, the count of
active shepherds it reads is not 0 in the 16 bits the code keeps, the last block it reads
for a shepherd was recorded, and no call has taken iterations between the read and the write of
`iq->start` in the branch for a single worker. -/
def LoopAllowed (loop : LoopArgs) (state : LoopState) (mine : Worker) : Prop :=
  match mine.pc with
  | .idle => loop.type = .timed → state.activesheps % 2 ^ 16 ≠ 0
  | .chunkIncr => Fits (state.iq.start + loop.chunk)
  | .aloneWrite startat => state.iq.start = startat ∧ startat < loop.stop
  | .guidedSheps _ | .factoredSheps _ _ => state.activesheps % 2 ^ 16 ≠ 0
  | .guidedRead _ => Fits (loop.stop - state.iq.start)
  | .guidedCas _ ret iterations | .factoredCas _ ret _ iterations => Fits (ret + iterations)
  | .factoredRead _ _ => state.iq.start < loop.stop → Fits (loop.stop + state.iq.start)
  | .timedBlock _ shep slow => slow = false → 0 < state.iq.lastblocks shep
  | .timedStart workerCount _ slow dynamicBlock =>
    TimedFits loop workerCount slow state.iq.start dynamicBlock
  | .timedCas workerCount _ slow localstart dynamicBlock =>
    state.iq.start ≠ localstart → TimedFits loop workerCount slow state.iq.start dynamicBlock
  | _ => True

/-- What is asked of an access from `iq` and `pc`: it keeps the queue good and never brings
it back below the end, the next point of the getter is ready, a range it returns lies in the
loop, and the iterations taken from the queue are exactly those the worker now holds or
returns. -/
inductive Outcome.Keeps (loop : LoopArgs) (iq : IterationQueue) (pc : Pc) : Outcome → Prop where
  | goto {after : IterationQueue} {next : Pc} :
      after.Good loop → (loop.stop ≤ iq.start → loop.stop ≤ after.start) → next.Ready loop after →
      (∀ y, loop.cover iq.start y + next.taken y = loop.cover after.start y + pc.taken y) →
      Keeps loop iq pc (.goto after next)
  | served {after : IterationQueue} {range : WrapperRange} (first last : Int) :
      range.startat = sizeT first → range.stopat = sizeT last →
      after.Good loop → (loop.stop ≤ iq.start → loop.stop ≤ after.start) →
      loop.start ≤ first → first < last → last ≤ loop.stop →
      (∀ y, loop.cover iq.start y + within first last y =
        loop.cover after.start y + pc.taken y) →
      Keeps loop iq pc (.answer after true range)
  | refused {after : IterationQueue} {range : WrapperRange} :
      after.Good loop → loop.stop ≤ after.start →
      (∀ y, loop.cover iq.start y = loop.cover after.start y + pc.taken y) →
      Keeps loop iq pc (.answer after false range)

theorem tdiv_toward_zero (length : Int) (count : Nat) :
    (0 ≤ length → 0 ≤ length.tdiv count ∧ length.tdiv count ≤ length) ∧
      (length ≤ 0 → length ≤ length.tdiv count ∧ length.tdiv count ≤ 0) := by
  have shrink : ∀ {size : Int}, 0 ≤ size → 0 ≤ size.tdiv count ∧ size.tdiv count ≤ size :=
    fun nonneg => ⟨Int.tdiv_nonneg nonneg (Int.natCast_nonneg count), Int.tdiv_le_self _ nonneg⟩
  refine ⟨shrink, ?_⟩
  intro nonpos
  have mirrored := shrink (Int.neg_nonneg.mpr nonpos)
  rw [Int.neg_tdiv] at mirrored
  omega

theorem fits_of_between {low value high : Int} (lowFits : Fits low) (highFits : Fits high)
    (above : low ≤ value) (below : value ≤ high) : Fits value := by
  obtain ⟨least, _⟩ := lowFits
  obtain ⟨_, most⟩ := highFits
  exact ⟨by omega, by omega⟩

section Accesses

variable {iq : IterationQueue} {pc next : Pc} {sheps : Nat} {ret : Int}

theorem IterationQueue.Good.seen (good : iq.Good loop) : Seen loop iq iq.start :=
  ⟨good.low, good.fits, id⟩

theorem Seen.mono {after : IterationQueue} (seen : Seen loop iq ret)
    (kept : loop.stop ≤ iq.start → loop.stop ≤ after.start) : Seen loop after ret :=
  ⟨seen.low, seen.fits, fun past => kept (seen.past past)⟩

theorem keeps_goto (good : iq.Good loop) (ready : next.Ready loop iq)
    (before : ∀ y, pc.taken y = 0) (after : ∀ y, next.taken y = 0) :
    (Outcome.goto iq next).Keeps loop iq pc :=
  .goto good id ready fun y => by rw [before, after]

variable {range : WrapperRange}

theorem keeps_refuse (good : iq.Good loop) (past : loop.stop ≤ iq.start)
    (before : ∀ y, pc.taken y = 0) : (Outcome.answer iq false range).Keeps loop iq pc :=
  .refused good past fun y => by rw [before, Nat.add_zero]

theorem keeps_advance {last first stopat : Int} (good : iq.Good loop) (fits : Fits last)
    (before : ∀ y, pc.taken y = 0) (here : first = iq.start) (inside : first < loop.stop)
    (forward : first < last) (clipped : stopat = min last loop.stop) :
    (Outcome.answer { iq with start := last } true (wrote loop first stopat)).Keeps loop iq pc := by
  have low := good.low
  have above : loop.start ≤ last := by omega
  refine .served first stopat rfl rfl ⟨above, fits, good.phase⟩ ?_ ?_ ?_ ?_ ?_
  · intro past
    omega
  · omega
  · omega
  · omega
  · intro y
    rw [before]
    simp only [LoopArgs.cover, within]
    split_ifs <;> omega

theorem keeps_overshoot {last : Int} (ok : loop.Representable)
    (good : iq.Good loop) (fits : Fits last) (before : ∀ y, pc.taken y = 0)
    (past : loop.stop ≤ iq.start) (stays : loop.stop ≤ last) :
    (Outcome.answer { iq with start := last } false range).Keeps loop iq pc := by
  have above : loop.start ≤ last := Int.le_trans ok.bounds stays
  refine .refused ⟨above, fits, good.phase⟩ stays ?_
  intro y
  rw [before]
  simp only [LoopArgs.cover]
  split_ifs <;> omega

theorem keeps_handOut {iterations : Int} (ok : loop.Representable) (good : iq.Good loop)
    (fits : Fits (ret + iterations)) (before : ∀ y, pc.taken y = 0) (here : iq.start = ret)
    (inside : ret < loop.stop → 0 < iterations ∧ ret + iterations ≤ loop.stop)
    (outside : loop.stop ≤ ret → loop.stop ≤ ret + iterations) :
    (handOut loop { iq with start := saligned (ret + iterations) } ret iterations).Keeps
      loop iq pc := by
  rw [saligned_of_fits fits]
  simp only [handOut]
  by_cases more : ret < loop.stop
  · obtain ⟨positive, bounded⟩ := inside more
    rw [if_pos more, if_pos positive, saligned_of_fits fits]
    exact keeps_advance good fits before here.symm more (by omega) (by omega)
  · rw [if_neg more]
    exact keeps_overshoot ok good fits before (by omega) (outside (by omega))

theorem keeps_takeAll (good : iq.Good loop) (seen : Seen loop iq ret)
    (before : ∀ y, pc.taken y = 0) : (takeAll loop iq ret).Keeps loop iq pc := by
  unfold takeAll
  split_ifs with more
  · exact keeps_goto good trivial before fun _ => rfl
  · exact keeps_refuse good (seen.past (by omega)) before

theorem keeps_guidedWorkers {numWorkers : Nat} (good : iq.Good loop)
    (ready : (Pc.guidedWorkers sheps ret).Ready loop iq) (before : ∀ y, pc.taken y = 0) :
    (guidedWorkers loop iq numWorkers sheps ret).Keeps loop iq pc := by
  obtain ⟨positive, seen⟩ := ready
  unfold guidedWorkers
  split_ifs with alone more
  · exact keeps_takeAll good seen before
  · exact keeps_goto good positive before fun _ => rfl
  · exact keeps_refuse good (seen.past (by omega)) before

theorem Outcome.Keeps.keepStep {outcome : Outcome} (keeps : outcome.Keeps loop iq pc) :
    (outcome.keepStep range).Keeps loop iq pc := by
  cases keeps with
  | goto kept past ready balance => exact .goto kept past ready balance
  | served first last startat stopat kept past low less high balance =>
    exact .served first last startat stopat kept past low less high balance
  | refused kept past balance => exact .refused kept past balance

theorem keeps_factoredWorkers {numWorkers : Nat} {phase : Int} (good : iq.Good loop)
    (ready : (Pc.factoredWorkers sheps ret phase).Ready loop iq) (before : ∀ y, pc.taken y = 0) :
    (factoredWorkers loop iq range numWorkers sheps ret phase).Keeps loop iq pc := by
  obtain ⟨positive, seen, held⟩ := ready
  unfold factoredWorkers
  split_ifs with alone more
  · exact keeps_takeAll good seen before
  · exact keeps_goto good ⟨positive, held more⟩ before fun _ => rfl
  · exact (keeps_refuse good (seen.past (by omega)) before).keepStep

theorem keeps_chunkIncr (ok : loop.Representable) (good : iq.Good loop)
    (chunked : loop.type = .chunk) (before : ∀ y, pc.taken y = 0)
    (fits : Fits (iq.start + loop.chunk)) : (chunkIncr loop iq).Keeps loop iq pc := by
  have positive := ok.chunk chunked
  have low := good.low
  simp only [chunkIncr, saligned_of_fits fits]
  by_cases more : iq.start < loop.stop
  · rw [if_pos more]
    have length : saligned (loop.stop - iq.start) = loop.stop - iq.start := by
      have short := ok.length
      exact saligned_of_fits ⟨by omega, by omega⟩
    rw [length]
    by_cases beyond : loop.stop < iq.start + loop.chunk
    · rw [if_pos beyond]
      have whole : iq.start + (loop.stop - iq.start) = loop.stop := by omega
      rw [whole, saligned_of_fits loop.stop_fits]
      exact keeps_advance good fits before rfl more (by omega) (by omega)
    · rw [if_neg beyond, saligned_of_fits fits]
      exact keeps_advance good fits before rfl more (by omega) (by omega)
  · rw [if_neg more]
    exact keeps_overshoot ok good fits before (by omega) (by omega)

theorem keeps_guidedRead (good : iq.Good loop) (positive : 0 < sheps)
    (before : ∀ y, pc.taken y = 0) (fits : Fits (loop.stop - iq.start)) :
    (guidedRead loop iq sheps).Keeps loop iq pc := by
  have nonzero : sheps ≠ 0 := by omega
  rw [guidedRead, if_neg nonzero]
  obtain ⟨forward, backward⟩ := tdiv_toward_zero (loop.stop - iq.start) sheps
  have quotient : Fits ((loop.stop - iq.start).tdiv sheps) := by
    rcases Int.le_total 0 (loop.stop - iq.start) with nonneg | nonpos
    · obtain ⟨low, high⟩ := forward nonneg
      exact fits_of_between ⟨by omega, by omega⟩ fits low high
    · obtain ⟨low, high⟩ := backward nonpos
      exact fits_of_between fits ⟨by omega, by omega⟩ low high
  refine keeps_goto good ⟨positive, good.seen, ?_, ?_⟩ before fun _ => rfl
  · intro more
    rw [guidedIterations, saligned_of_fits fits, saligned_of_fits quotient, atLeastOne]
    obtain ⟨low, high⟩ := forward (by omega)
    split_ifs <;> omega
  · intro past
    rw [guidedIterations, saligned_of_fits fits, saligned_of_fits quotient, atLeastOne]
    obtain ⟨low, high⟩ := backward (by omega)
    split_ifs <;> omega

theorem keeps_guidedCas {iterations : Int} (ok : loop.Representable) (good : iq.Good loop)
    (ready : (Pc.guidedCas sheps ret iterations).Ready loop iq) (before : ∀ y, pc.taken y = 0)
    (fits : Fits (ret + iterations)) : (guidedCas loop iq sheps ret iterations).Keeps loop iq pc := by
  obtain ⟨positive, seen, inside, outside⟩ := ready
  unfold guidedCas
  split_ifs with won more
  · exact keeps_handOut ok good fits before won inside outside
  · exact keeps_goto good positive before fun _ => rfl
  · exact keeps_refuse good (seen.past (by omega)) before

theorem factoredNewphase_between (low : 0 ≤ loop.start) (seen : loop.start ≤ ret)
    (more : ret < loop.stop) (positive : 0 < sheps) (fits : Fits (loop.stop + ret)) :
    ret ≤ factoredNewphase loop sheps ret ∧ factoredNewphase loop sheps ret ≤ loop.stop := by
  obtain ⟨stopLow, stopHigh⟩ := loop.stop_fits
  have middle : (loop.stop + ret).tdiv 2 = (loop.stop + ret) / 2 :=
    Int.tdiv_eq_ediv_of_nonneg (by omega)
  have rest : Fits (loop.stop - (loop.stop + ret) / 2) := ⟨by omega, by omega⟩
  have chunks : (loop.stop - (loop.stop + ret) / 2).tdiv sheps =
      (loop.stop - (loop.stop + ret) / 2) / sheps := Int.tdiv_eq_ediv_of_nonneg (by omega)
  have most : (loop.stop - (loop.stop + ret) / 2) / sheps * sheps ≤
      loop.stop - (loop.stop + ret) / 2 := Int.ediv_mul_le _ (by omega)
  have least : 0 ≤ (loop.stop - (loop.stop + ret) / 2) / sheps * sheps :=
    Int.mul_nonneg (Int.ediv_nonneg (by omega) (by omega)) (by omega)
  simp only [factoredNewphase]
  rw [saligned_of_fits fits, middle, saligned_of_fits rest, chunks]
  generalize (loop.stop - (loop.stop + ret) / 2) / sheps * sheps = taken at most least ⊢
  rw [saligned_of_fits (⟨by omega, by omega⟩ : Fits taken),
    saligned_of_fits (⟨by omega, by omega⟩ : Fits (ret + taken))]
  omega

theorem keeps_factoredInner {phase : Int} {after : IterationQueue} (good : after.Good loop)
    (same : after.start = iq.start) (positive : 0 < sheps) (seen : Seen loop after ret)
    (factored : Factored loop phase) (before : ∀ y, pc.taken y = 0)
    (fits : phase ≤ ret → ret < loop.stop → Fits (loop.stop + ret)) :
    (factoredInner loop after sheps ret phase).Keeps loop iq pc := by
  have nonzero : sheps ≠ 0 := by omega
  have keep : ∀ {next : Pc}, next.Ready loop after → (∀ y, next.taken y = 0) →
      (Outcome.goto after next).Keeps loop iq pc := by
    intro next ready zeros
    refine .goto good (by rw [same]; exact id) ready ?_
    intro y
    rw [before, zeros, same]
  obtain ⟨type, low, high, lower⟩ := factored
  obtain ⟨stopLow, stopHigh⟩ := loop.stop_fits
  unfold factoredInner
  rw [if_neg nonzero]
  split_ifs with inner
  · obtain ⟨reached, more⟩ := inner
    have between := factoredNewphase_between lower seen.low more positive (fits reached more)
    refine keep ⟨positive, seen, ⟨type, low, high, lower⟩, ⟨type, ?_, between.2, lower⟩, more,
      fits reached more⟩ fun _ => rfl
    exact Int.le_trans seen.low between.1
  · have rest : Fits (loop.stop - phase) := ⟨by omega, by omega⟩
    obtain ⟨quotientLow, quotientHigh⟩ := (tdiv_toward_zero (loop.stop - phase) sheps).1 (by omega)
    refine keep ⟨positive, seen, ⟨type, low, high, lower⟩, ?_, ?_⟩ fun _ => rfl
    all_goals
      rw [saligned_of_fits rest, saligned_of_fits ⟨by omega, by omega⟩, atLeastOne]
      split_ifs <;> omega

theorem keeps_factoredPhaseCas {phase newphase : Int} (good : iq.Good loop)
    (ready : (Pc.factoredPhaseCas sheps ret phase newphase).Ready loop iq)
    (before : ∀ y, pc.taken y = 0) :
    (factoredPhaseCas loop iq sheps ret phase newphase).Keeps loop iq pc := by
  obtain ⟨positive, seen, held, next, more, fits⟩ := ready
  have nonempty : loop.start < loop.stop := Int.lt_of_le_of_lt seen.low more
  have current : Factored loop iq.phase := by
    obtain ⟨low, high⟩ := good.phase held.type nonempty
    exact ⟨held.type, low, high, held.lower⟩
  have target : Factored loop (if newphase = phase then loop.stop else newphase) := by
    split_ifs
    · exact ⟨held.type, Int.le_of_lt nonempty, Int.le_refl _, held.lower⟩
    · exact next
  simp only [factoredPhaseCas]
  generalize (if newphase = phase then loop.stop else newphase) = installed at target ⊢
  split_ifs
  · have swapped : ({ iq with phase := installed } : IterationQueue).Good loop :=
      ⟨good.low, good.fits, fun _ _ => ⟨target.low, target.high⟩⟩
    exact keeps_factoredInner swapped rfl positive (seen.mono id) current before fun _ _ => fits
  · exact keeps_factoredInner good rfl positive seen current before fun _ _ => fits

theorem keeps_factoredCas {phase iterations : Int} (ok : loop.Representable) (good : iq.Good loop)
    (ready : (Pc.factoredCas sheps ret phase iterations).Ready loop iq)
    (before : ∀ y, pc.taken y = 0) (fits : Fits (ret + iterations)) :
    (factoredCas loop iq sheps ret phase iterations).Keeps loop iq pc := by
  obtain ⟨positive, seen, held, pos, inside⟩ := ready
  unfold factoredCas
  split_ifs with won more
  · exact keeps_handOut ok good fits before won (fun more => ⟨pos, inside more⟩)
      (fun past => by omega)
  · exact keeps_goto good ⟨positive, held⟩ before fun _ => rfl
  · exact keeps_refuse good (seen.past (by omega)) before

theorem keeps_timedTry {workerCount shep : Nat} {slow : Bool} {dynamicBlock : Int}
    (ok : loop.Representable) (good : iq.Good loop) (timed : loop.type = .timed)
    (positive : 0 < workerCount) (block : slow = false → 0 < dynamicBlock)
    (before : ∀ y, pc.taken y = 0)
    (fits : TimedFits loop workerCount slow iq.start dynamicBlock) :
    (timedTry loop iq workerCount shep slow iq.start dynamicBlock).Keeps loop iq pc := by
  have short := ok.length
  have low := good.low
  obtain ⟨stopLow, stopHigh⟩ := loop.stop_fits
  obtain ⟨startLow, startHigh⟩ := good.fits
  unfold timedTry
  by_cases more : iq.start < loop.stop
  · have rest : Fits (loop.stop - iq.start) := ⟨by omega, by omega⟩
    have step := ok.step timed
    have needed := fits more
    rw [if_pos more]
    cases slow with
    | false =>
      have room : Fits (iq.start + dynamicBlock) := needed
      have pos := block rfl
      have size : 0 < timedSize loop workerCount false iq.start dynamicBlock ∧
          iq.start + timedSize loop workerCount false iq.start dynamicBlock ≤ loop.stop := by
        simp only [timedSize, Bool.false_eq_true, if_false]
        rw [saligned_of_fits room, saligned_of_fits rest]
        split_ifs <;> omega
      simp only [Bool.false_eq_true, false_and, if_false]
      exact keeps_goto good ⟨positive, timed, good.seen, size⟩ before fun _ => rfl
    | true =>
      have product : Fits ((workerCount * 2) * loop.step) := needed
      have big : 2 ≤ (workerCount * 2 : Int) * loop.step := by
        have scaled : (workerCount * 2 : Int) * 1 ≤ (workerCount * 2) * loop.step :=
          Int.mul_le_mul_of_nonneg_left step (by omega)
        omega
      have quotient : 0 ≤ (loop.stop - iq.start) / ((workerCount * 2) * loop.step) ∧
          2 * ((loop.stop - iq.start) / ((workerCount * 2) * loop.step)) ≤
            loop.stop - iq.start := by
        have least : 0 ≤ (loop.stop - iq.start) / ((workerCount * 2) * loop.step) :=
          Int.ediv_nonneg (by omega) (by omega)
        have most := Int.ediv_mul_le (loop.stop - iq.start)
          (by omega : (workerCount * 2 : Int) * loop.step ≠ 0)
        have scaled := Int.mul_le_mul_of_nonneg_left big least
        omega
      have size : 0 < timedSize loop workerCount true iq.start dynamicBlock ∧
          iq.start + timedSize loop workerCount true iq.start dynamicBlock ≤ loop.stop := by
        simp only [timedSize, if_true]
        rw [saligned_of_fits product, saligned_of_fits rest,
          Int.tdiv_eq_ediv_of_nonneg (by omega)]
        generalize (loop.stop - iq.start) / ((workerCount * 2) * loop.step) = blocks at quotient ⊢
        rw [saligned_of_fits (⟨by omega, by omega⟩ : Fits (blocks + 1)),
          saligned_of_fits (⟨by omega, by omega⟩ : Fits (iq.start + (blocks + 1)))]
        split_ifs <;> omega
      rw [if_neg (by rw [saligned_of_fits product]; omega)]
      exact keeps_goto good ⟨positive, timed, good.seen, size⟩ before fun _ => rfl
  · rw [if_neg more]
    exact keeps_refuse good (by omega) before

variable {localstart dynamicBlock : Int}

theorem keeps_timedCas {workerCount shep : Nat} {slow : Bool}
    (ok : loop.Representable) (good : iq.Good loop)
    (ready : (Pc.timedCas workerCount shep slow localstart dynamicBlock).Ready loop iq)
    (before : ∀ y, pc.taken y = 0)
    (fits : iq.start ≠ localstart → TimedFits loop workerCount slow iq.start dynamicBlock) :
    (timedCas loop iq workerCount shep slow localstart dynamicBlock).Keeps loop iq pc := by
  obtain ⟨positive, timed, seen, pos, bounded⟩ := ready
  unfold timedCas
  split_ifs with won
  · have low := seen.low
    have room : Fits (localstart + dynamicBlock) :=
      fits_of_between loop.start_fits loop.stop_fits (by omega) bounded
    have above : loop.start ≤ localstart + dynamicBlock := by omega
    rw [saligned_of_fits room]
    refine .goto ⟨above, room, good.phase⟩ ?_ ⟨timed, low, pos, bounded⟩ ?_
    · change loop.stop ≤ iq.start → loop.stop ≤ localstart + dynamicBlock
      omega
    · intro y
      rw [before]
      simp only [LoopArgs.cover, Pc.taken, within]
      split_ifs <;> omega
  · exact keeps_timedTry ok good timed positive (fun _ => pos) before (fits won)

theorem keeps_timedRecord {shep : Nat} (good : iq.Good loop)
    (ready : (Pc.timedRecord shep localstart dynamicBlock).Ready loop iq) :
    (timedRecord loop iq shep localstart dynamicBlock).Keeps loop iq
      (.timedRecord shep localstart dynamicBlock) := by
  obtain ⟨timed, low, positive, bounded⟩ := ready
  have room : Fits (localstart + dynamicBlock) :=
    fits_of_between loop.start_fits loop.stop_fits (by omega) bounded
  simp only [timedRecord, saligned_of_fits room]
  rw [if_pos positive, if_pos bounded]
  exact .served localstart (localstart + dynamicBlock) rfl rfl ⟨good.low, good.fits, good.phase⟩ id
    low (by omega) bounded fun y => rfl

theorem keeps_getIterations {activesheps : Nat} {sample : Sample} (good : iq.Good loop)
    (sheps : loop.type = .timed → activesheps % 2 ^ 16 ≠ 0) :
    (getIterations loop iq activesheps sample range).Keeps loop iq .idle := by
  unfold getIterations
  cases type : loop.type with
  | chunk =>
    simp only
    split_ifs
    · exact keeps_goto good type (fun _ => rfl) fun _ => rfl
    · exact keeps_refuse good (by omega) fun _ => rfl
  | guided => exact keeps_goto good good.seen (fun _ => rfl) fun _ => rfl
  | factored => exact keeps_goto good ⟨type, good.seen⟩ (fun _ => rfl) fun _ => rfl
  | timed =>
    have positive : 0 < activesheps % 2 ^ 16 := Nat.pos_of_ne_zero (sheps type)
    simp only
    split_ifs
    · exact keeps_goto good ⟨positive, type, fun fast => by cases fast⟩ (fun _ => rfl) fun _ => rfl
    · exact keeps_goto good ⟨positive, type⟩ (fun _ => rfl) fun _ => rfl

end Accesses

theorem access_keeps {state : LoopState} {mine : Worker} {sample : Sample} {outcome : Outcome}
    (ok : loop.Representable) (good : state.iq.Good loop) (ready : mine.pc.Ready loop state.iq)
    (allowed : LoopAllowed loop state mine)
    (made : access loop state.iq state.activesheps sample mine.range mine.pc = some outcome) :
    outcome.Keeps loop state.iq mine.pc := by
  obtain ⟨pc, range⟩ := mine
  simp only at ready made ⊢
  cases pc with
  | unborn => cases made
  | finished => cases made
  | disabled => cases made
  | idle =>
    rw [← Option.some.inj made]
    exact keeps_getIterations good allowed
  | chunkIncr =>
    rw [← Option.some.inj made]
    exact keeps_chunkIncr ok good ready (fun _ => rfl) allowed
  | aloneRead =>
    rw [← Option.some.inj made]
    exact keeps_goto good trivial (fun _ => rfl) fun _ => rfl
  | aloneWrite startat =>
    rw [← Option.some.inj made]
    obtain ⟨unchanged, more⟩ := allowed
    exact keeps_advance good loop.stop_fits (fun _ => rfl) unchanged.symm more more (by omega)
  | guidedSheps ret =>
    rw [← Option.some.inj made]
    exact keeps_goto good ⟨Nat.pos_of_ne_zero allowed, ready⟩ (fun _ => rfl) fun _ => rfl
  | guidedWorkers sheps ret =>
    rw [← Option.some.inj made]
    exact keeps_guidedWorkers good ready fun _ => rfl
  | guidedRead sheps =>
    rw [← Option.some.inj made]
    exact keeps_guidedRead good ready (fun _ => rfl) allowed
  | guidedCas sheps ret iterations =>
    rw [← Option.some.inj made]
    exact keeps_guidedCas ok good ready (fun _ => rfl) allowed
  | factoredPhase ret =>
    rw [← Option.some.inj made]
    obtain ⟨type, seen⟩ := ready
    refine keeps_goto good ⟨type, seen, ?_⟩ (fun _ => rfl) fun _ => rfl
    intro more
    have nonempty : loop.start < loop.stop := Int.lt_of_le_of_lt seen.low more
    obtain ⟨low, high⟩ := good.phase type nonempty
    exact ⟨type, low, high, ok.lower type nonempty⟩
  | factoredSheps ret phase =>
    rw [← Option.some.inj made]
    exact keeps_goto good ⟨Nat.pos_of_ne_zero allowed, ready.2⟩ (fun _ => rfl) fun _ => rfl
  | factoredWorkers sheps ret phase =>
    rw [← Option.some.inj made]
    exact keeps_factoredWorkers good ready fun _ => rfl
  | factoredRead sheps phase =>
    rw [← Option.some.inj made]
    exact keeps_factoredInner good rfl ready.1 good.seen ready.2 (fun _ => rfl)
      fun _ more => allowed more
  | factoredPhaseCas sheps ret phase newphase =>
    rw [← Option.some.inj made]
    exact keeps_factoredPhaseCas good ready fun _ => rfl
  | factoredCas sheps ret phase iterations =>
    rw [← Option.some.inj made]
    exact (keeps_factoredCas ok good ready (fun _ => rfl) allowed).keepStep
  | timedBlock workerCount shep slow =>
    rw [← Option.some.inj made]
    exact keeps_goto good ⟨ready.1, ready.2, allowed⟩ (fun _ => rfl) fun _ => rfl
  | timedStart workerCount shep slow dynamicBlock =>
    rw [← Option.some.inj made]
    exact keeps_timedTry ok good ready.2.1 ready.1 ready.2.2 (fun _ => rfl) allowed
  | timedCas workerCount shep slow localstart dynamicBlock =>
    rw [← Option.some.inj made]
    exact keeps_timedCas ok good ready (fun _ => rfl) allowed
  | timedRecord shep localstart dynamicBlock =>
    rw [← Option.some.inj made]
    exact keeps_timedRecord good ready

theorem Pc.Ready.mono {pc : Pc} {iq after : IterationQueue} (ready : pc.Ready loop iq)
    (kept : loop.stop ≤ iq.start → loop.stop ≤ after.start) : pc.Ready loop after := by
  cases pc with
  | finished => exact kept ready
  | guidedSheps ret => exact Seen.mono ready kept
  | guidedWorkers sheps ret => exact ⟨ready.1, ready.2.mono kept⟩
  | guidedCas sheps ret iterations => exact ⟨ready.1, ready.2.1.mono kept, ready.2.2⟩
  | factoredPhase ret => exact ⟨ready.1, ready.2.mono kept⟩
  | factoredSheps ret phase => exact ⟨ready.1, ready.2.1.mono kept, ready.2.2⟩
  | factoredWorkers sheps ret phase => exact ⟨ready.1, ready.2.1.mono kept, ready.2.2⟩
  | factoredPhaseCas sheps ret phase newphase => exact ⟨ready.1, ready.2.1.mono kept, ready.2.2⟩
  | factoredCas sheps ret phase iterations => exact ⟨ready.1, ready.2.1.mono kept, ready.2.2⟩
  | timedCas workerCount shep slow localstart dynamicBlock =>
    exact ⟨ready.1, ready.2.1, ready.2.2.1.mono kept, ready.2.2.2⟩
  | _ => exact ready

def WrapperRange.Part (loop : LoopArgs) (range : WrapperRange) : Prop :=
  ∃ first last, range.startat = sizeT first ∧ range.stopat = sizeT last ∧ loop.start ≤ first ∧
    first < last ∧ last ≤ loop.stop

structure LoopState.Good (loop : LoopArgs) (state : LoopState) : Prop where
  iq : state.iq.Good loop
  alive : state.crashed = false
  parts : ∀ range ∈ state.handed, range.Part loop

theorem loop_respects (ok : loop.Representable) :
    Config.Respects (Config.Guard (LoopAllowed loop) (LoopAct loop)) (LoopState.Good loop)
      (fun _ state mine => mine.pc.Ready loop state.iq) where
  keeps := by
    rintro task before after mine next label good ready ⟨allowed, act⟩
    cases act with
    | goto among alive made =>
      cases access_keeps ok good.iq ready allowed made with
      | goto kept _ next _ => exact ⟨⟨kept, good.alive, good.parts⟩, next⟩
    | served among alive made =>
      cases access_keeps ok good.iq ready allowed made with
      | served first last startat stopat kept _ low less high _ =>
        refine ⟨⟨kept, good.alive, ?_⟩, trivial⟩
        intro range member
        rcases List.mem_append.mp member with old | new
        · exact good.parts range old
        · rw [List.mem_singleton.mp new]
          exact ⟨first, last, startat, stopat, low, less, high⟩
    | refused among alive made =>
      cases access_keeps ok good.iq ready allowed made with
      | refused kept past _ => exact ⟨⟨kept, good.alive, good.parts⟩, past⟩
    | crash among alive made => cases access_keeps ok good.iq ready allowed made
    | join => exact ⟨⟨good.iq, good.alive, good.parts⟩, trivial⟩
    | leave => exact ⟨⟨good.iq, good.alive, good.parts⟩, trivial⟩
    | active => exact ⟨⟨good.iq, good.alive, good.parts⟩, ready⟩
  stable := by
    rintro task other before after mine next theirs label _ good ready theirsReady ⟨allowed, act⟩
    cases act with
    | goto among alive made =>
      cases access_keeps ok good.iq ready allowed made with
      | goto _ kept _ _ => exact theirsReady.mono kept
    | served among alive made =>
      cases access_keeps ok good.iq ready allowed made with
      | served _ _ _ _ _ kept _ _ _ _ => exact theirsReady.mono kept
    | refused among alive made =>
      cases access_keeps ok good.iq ready allowed made with
      | refused _ past _ => exact theirsReady.mono fun _ => past
    | crash => exact theirsReady
    | join => exact theirsReady
    | leave => exact theirsReady
    | active => exact theirsReady

def WrapperRange.holds (x : Nat) (range : WrapperRange) : Bool :=
  decide (range.startat ≤ x) && decide (x < range.stopat)

def LoopState.count (state : LoopState) (x : Nat) : Nat :=
  state.handed.countP (WrapperRange.holds x)

def pendingAt (loop : LoopArgs) (config : Config LoopState Worker) (x : Nat) : Nat :=
  ∑ i ∈ Finset.range config.shared.workers, (config.tasks i).pc.taken (x - loop.offset)

/-- Every index below the queue's start was handed out once or is about to be; no other was. -/
structure OnceEach (loop : LoopArgs) (config : Config LoopState Worker) : Prop where
  holds : Config.Holds (LoopState.Good loop) (fun _ state mine => mine.pc.Ready loop state.iq)
    config
  once : ∀ x, config.shared.count x + pendingAt loop config x =
    loop.cover config.shared.iq.start (x - loop.offset)

theorem holds_within (ok : loop.Representable) {range : WrapperRange} {first last : Int}
    (startat : range.startat = sizeT first) (stopat : range.stopat = sizeT last)
    (low : loop.start ≤ first) (less : first < last) (high : last ≤ loop.stop) (x : Nat) :
    (if range.holds x then 1 else 0) = within first last (x - loop.offset) := by
  have firstSize := ok.sizeT low (by omega)
  have lastSize := ok.sizeT (by omega) high
  simp only [WrapperRange.holds, startat, stopat, within, Bool.and_eq_true, decide_eq_true_eq]
  split_ifs <;> omega

theorem pendingAt_update (loop : LoopArgs) (config : Config LoopState Worker) (state : LoopState)
    (mine : Worker) {task : Nat} (among : task < config.shared.workers)
    (workers : state.workers = config.shared.workers) (x : Nat) :
    pendingAt loop ⟨state, update config.tasks task mine⟩ x +
        (config.tasks task).pc.taken (x - loop.offset) =
      pendingAt loop config x + mine.pc.taken (x - loop.offset) := by
  simp only [pendingAt, workers]
  exact Config.sum_update among config.tasks mine fun worker => worker.pc.taken (x - loop.offset)

theorem OnceEach.step (ok : loop.Representable) {before after : Config LoopState Worker}
    {label : Nat × LoopMove} (inv : OnceEach loop before)
    (taken : Config.Step (Config.Guard (LoopAllowed loop) (LoopAct loop)) before label after) :
    OnceEach loop after := by
  refine ⟨inv.holds.step (loop_respects ok) taken, ?_⟩
  intro x
  have once := inv.once x
  cases taken with
  | @move task label shared mine acted =>
    obtain ⟨allowed, act⟩ := acted
    have good := inv.holds.shared
    have ready := inv.holds.tasks task
    generalize here : before.tasks task = current at act ready allowed
    have moved := fun (among : task < before.shared.workers)
      (workers : shared.workers = before.shared.workers) =>
        pendingAt_update loop before shared mine among workers x
    rw [here] at moved
    cases act with
    | goto among alive made =>
      have swap := moved among rfl
      cases access_keeps ok good.iq ready allowed made with
      | goto _ _ _ balance =>
        have even := balance (x - loop.offset)
        simp only [LoopState.count] at once even swap ⊢
        omega
    | served among alive made =>
      have swap := moved among rfl
      cases access_keeps ok good.iq ready allowed made with
      | served first last startat stopat _ _ low less high balance =>
        have even := balance (x - loop.offset)
        have counted := holds_within ok startat stopat low less high x
        rw [← counted] at even
        simp only [LoopState.count, List.countP_append, List.countP_singleton, Pc.taken]
          at once even swap ⊢
        omega
    | refused among alive made =>
      have swap := moved among rfl
      cases access_keeps ok good.iq ready allowed made with
      | refused _ _ balance =>
        have even := balance (x - loop.offset)
        simp only [LoopState.count, Pc.taken] at once even swap ⊢
        omega
    | crash among alive made => cases access_keeps ok good.iq ready allowed made
    | join alive =>
      have rest : pendingAt loop ⟨{ before.shared with workers := before.shared.workers + 1 },
          update before.tasks before.shared.workers ⟨.idle, nothing⟩⟩ x =
          pendingAt loop before x := by
        simp only [pendingAt, Finset.sum_range_succ, update_self, Pc.taken,
          Nat.add_zero]
        apply Finset.sum_congr rfl
        intro i inside
        rw [update_of_ne (Nat.ne_of_lt (Finset.mem_range.mp inside))]
      change before.shared.count x + pendingAt loop
        ⟨{ before.shared with workers := before.shared.workers + 1 }, _⟩ x = _
      rw [rest]
      exact once
    | leave among alive idle =>
      have swap := moved among rfl
      simp only [LoopState.count, Pc.taken, idle] at once swap ⊢
      omega
    | active alive =>
      rw [← here, update_eq_self]
      exact once

theorem created_onceEach (ok : loop.Representable) (lastblocks : Nat → Int) (activesheps : Nat) :
    OnceEach loop (created loop lastblocks activesheps) := by
  have queue : (qqloopCreateIq loop lastblocks).Good loop := by
    have first : (qqloopCreateIq loop lastblocks).start = loop.start := by
      simp only [qqloopCreateIq]
    refine ⟨by rw [first], by rw [first]; exact loop.start_fits, ?_⟩
    intro factored nonempty
    obtain ⟨sides, stopat⟩ := ok.offset
    have lower := ok.lower factored nonempty
    obtain ⟨stopLow, stopHigh⟩ := loop.stop_fits
    have startat : (loop.startat.toNat : Int) = loop.start + loop.offset := by
      simp only [LoopArgs.offset]
      omega
    have half : Fits (((loop.startat.toNat + loop.stopat.toNat) % 2 ^ 64 / 2 : Nat) : Int) :=
      ⟨by omega, by omega⟩
    simp only [qqloopCreateIq, saligned_of_fits half]
    omega
  refine ⟨⟨⟨queue, rfl, fun range member => by cases member⟩, fun _ => trivial⟩, ?_⟩
  intro x
  have nobody : ¬ (loop.start ≤ (x : Int) - loop.offset ∧ (x : Int) - loop.offset < loop.start ∧
      (x : Int) - loop.offset < loop.stop) := by omega
  simp only [created, LoopState.count, pendingAt, qqloopCreateIq, LoopArgs.cover, nobody, if_false,
    List.countP_nil, Finset.range_zero, Finset.sum_empty, Nat.add_zero]

/-- What the loop promises: it does not die; the ranges returned are non-empty, lie inside the
loop and are disjoint; and once every worker that has not left was answered 0, one of them
at least, they are the whole loop. -/
structure Partition (loop : LoopArgs) (config : Config LoopState Worker) : Prop where
  alive : config.shared.crashed = false
  nonempty : ∀ range ∈ config.shared.handed, range.startat < range.stopat
  inside : ∀ range ∈ config.shared.handed,
    loop.startat.toNat ≤ range.startat ∧ range.stopat ≤ loop.stopat.toNat
  disjoint : config.shared.handed.Pairwise fun a b => a.stopat ≤ b.startat ∨ b.stopat ≤ a.startat
  covers : (∃ task < config.shared.workers, (config.tasks task).pc = .finished) →
    (∀ task < config.shared.workers,
      (config.tasks task).pc = .finished ∨ (config.tasks task).pc = .disabled) →
    ∀ x, (∃ range ∈ config.shared.handed, range.holds x = true) ↔
      loop.startat.toNat ≤ x ∧ x < loop.stopat.toNat

theorem disjoint_of_count {ranges : List WrapperRange}
    (nonempty : ∀ range ∈ ranges, range.startat < range.stopat)
    (once : ∀ x, ranges.countP (WrapperRange.holds x) ≤ 1) :
    ranges.Pairwise fun a b => a.stopat ≤ b.startat ∨ b.stopat ≤ a.startat := by
  induction ranges with
  | nil => exact .nil
  | cons range rest ih =>
    have fewer : ∀ x, rest.countP (WrapperRange.holds x) ≤ 1 := by
      intro x
      have whole := once x
      rw [List.countP_cons] at whole
      omega
    refine .cons ?_ (ih (fun other member => nonempty other (.tail _ member)) fewer)
    intro other member
    by_contra overlap
    have mine := nonempty range (.head _)
    have theirs := nonempty other (.tail _ member)
    have whole := once (max range.startat other.startat)
    have here : range.holds (max range.startat other.startat) = true := by
      simp only [WrapperRange.holds, Bool.and_eq_true, decide_eq_true_eq]
      omega
    have there : other.holds (max range.startat other.startat) = true := by
      simp only [WrapperRange.holds, Bool.and_eq_true, decide_eq_true_eq]
      omega
    have positive : 0 < rest.countP (WrapperRange.holds (max range.startat other.startat)) :=
      List.countP_pos_iff.mpr ⟨other, member, there⟩
    rw [List.countP_cons, if_pos here] at whole
    omega

theorem OnceEach.partition (ok : loop.Representable) {config : Config LoopState Worker}
    (inv : OnceEach loop config) : Partition loop config := by
  have good := inv.holds.shared
  obtain ⟨sides, stopat⟩ := ok.offset
  have startat : (loop.startat.toNat : Int) = loop.start + loop.offset := by
    simp only [LoopArgs.offset]
    omega
  have sizes : ∀ range ∈ config.shared.handed, ∃ first last : Int,
      range.startat = first + loop.offset ∧ range.stopat = last + loop.offset ∧
        loop.start ≤ first ∧ first < last ∧ last ≤ loop.stop := by
    intro range member
    obtain ⟨first, last, startSize, stopSize, low, less, high⟩ := good.parts range member
    refine ⟨first, last, ?_, ?_, low, less, high⟩
    · rw [startSize, ok.sizeT low (by omega)]
    · rw [stopSize, ok.sizeT (by omega) high]
  have nonempty : ∀ range ∈ config.shared.handed, range.startat < range.stopat := by
    intro range member
    obtain ⟨first, last, startSize, stopSize, low, less, high⟩ := sizes range member
    omega
  refine ⟨good.alive, nonempty, ?_, ?_, ?_⟩
  · intro range member
    obtain ⟨first, last, startSize, stopSize, low, less, high⟩ := sizes range member
    omega
  · apply disjoint_of_count nonempty
    intro x
    have once := inv.once x
    simp only [LoopState.count, LoopArgs.cover] at once
    split_ifs at once <;> omega
  · rintro ⟨last, among, finished⟩ others x
    have past : loop.stop ≤ config.shared.iq.start := by
      have ready := inv.holds.tasks last
      rw [finished] at ready
      exact ready
    have settled : pendingAt loop config x = 0 := by
      apply Finset.sum_eq_zero
      intro task member
      rcases others task (Finset.mem_range.mp member) with state | state <;> rw [state] <;> rfl
    have once := inv.once x
    rw [settled, Nat.add_zero] at once
    rw [← List.countP_pos_iff]
    simp only [LoopState.count, LoopArgs.cover] at once
    rw [once]
    split_ifs <;> omega

/-- A loop whose bounds fit the signed fields, run by getters that never overflow, read a
count of active shepherds that is 0, reuse a block nobody recorded or write `iq->start` as the
single worker after another call has moved it, hands out every iteration exactly once, under
every interleaving. -/
theorem run_partition {lastblocks : Nat → Int} {activesheps : Nat}
    {config : Config LoopState Worker} {moves : List (Nat × LoopMove)} (ok : loop.Representable)
    (run : Run (Config.Step (Config.Guard (LoopAllowed loop) (LoopAct loop)))
      (created loop lastblocks activesheps) moves config) : Partition loop config :=
  (run.preserves (fun _ _ _ inv taken => inv.step ok taken)
    (created_onceEach ok lastblocks activesheps)).partition ok

section Chunked

variable {iq : IterationQueue} {activesheps : Nat} {sample : Sample} {range : WrapperRange}

theorem access_chunk_more (chunked : loop.type = .chunk) (more : iq.start < loop.stop) :
    access loop iq activesheps sample range .idle = some (.goto iq .chunkIncr) := by
  simp only [access, getIterations, chunked, more, if_true]

theorem access_chunk_over (chunked : loop.type = .chunk) (beyond : ¬ iq.start < loop.stop) :
    access loop iq activesheps sample range .idle = some (.answer iq false nothing) := by
  simp only [access, getIterations, chunked, beyond, if_false]

theorem access_chunkIncr_more (more : iq.start < loop.stop)
    (room : ¬ loop.stop < saligned (iq.start + loop.chunk)) :
    access loop iq activesheps sample range .chunkIncr =
      some (.answer { iq with start := saligned (iq.start + loop.chunk) } true
        (wrote loop iq.start (saligned (iq.start + loop.chunk)))) := by
  simp only [access, chunkIncr, more, room, if_true, if_false]

end Chunked

def chunkLoop (stopat : UInt64) : LoopArgs := ⟨.chunk, 0, stopat, 1, 2⟩

def chunkAt (stopat : UInt64) (pc : Pc) : Config LoopState Worker :=
  ⟨{ (created (chunkLoop stopat) (fun _ => 0) 1).shared with workers := 1 },
    update (created (chunkLoop stopat) (fun _ => 0) 1).tasks 0 ⟨pc, nothing⟩⟩

theorem chunkAt_task {stopat : UInt64} {pc : Pc} : (chunkAt stopat pc).tasks 0 = ⟨pc, nothing⟩ := by
  simp only [chunkAt, update_self]

theorem chunkAt_step {act : Nat → LoopState → Worker → LoopMove → LoopState → Worker → Prop}
    {stopat : UInt64} {pc next : Pc} {label : LoopMove}
    (acted : act 0 (chunkAt stopat pc).shared ⟨pc, nothing⟩ label (chunkAt stopat pc).shared
      ⟨next, nothing⟩) : Config.Step act (chunkAt stopat pc) (0, label) (chunkAt stopat next) := by
  have same : chunkAt stopat next =
      ⟨(chunkAt stopat pc).shared, update (chunkAt stopat pc).tasks 0 ⟨next, nothing⟩⟩ := by
    simp only [chunkAt, update_idem]
  rw [same]
  exact .of_eq chunkAt_task acted

theorem run_partition_first_chunk :
    ∃ config, config.shared.handed = [⟨0, 2, 1⟩] ∧ Partition (chunkLoop 3) config := by
  have ok : (chunkLoop 3).Representable :=
    ⟨by decide, by decide, fun _ => by decide, nofun, nofun⟩
  let act := Config.Guard (LoopAllowed (chunkLoop 3)) (LoopAct (chunkLoop 3))
  have more : (chunkAt 3 .idle).shared.iq.start < (chunkLoop 3).stop := by decide
  have joined : Config.Step act (created (chunkLoop 3) (fun _ => 0) 1) (0, .join)
      (chunkAt 3 .idle) :=
    .move ⟨trivial, @LoopAct.join _ (created (chunkLoop 3) (fun _ => 0) 1).shared _ rfl⟩
  have read : Config.Step act (chunkAt 3 .idle) (0, .access ⟨0, 2, true⟩) (chunkAt 3 .chunkIncr) :=
    chunkAt_step ⟨nofun, LoopAct.goto Nat.one_pos rfl (access_chunk_more rfl more)⟩
  obtain ⟨last, served, handed⟩ : ∃ last,
      Config.Step act (chunkAt 3 .chunkIncr) (0, .access ⟨0, 2, true⟩) last ∧
        last.shared.handed = [⟨0, 2, 1⟩] := by
    refine ⟨_, .of_eq chunkAt_task ⟨⟨by decide, by decide⟩,
      LoopAct.served Nat.one_pos rfl (access_chunkIncr_more more (by decide))⟩, ?_⟩
    decide +kernel
  exact ⟨last, handed, run_partition ok (.cons joined (.cons read (.cons served (.nil _))))⟩

/-- Half of the address space is too long for the signed fields: the stop is negative, so the
only worker is answered 0 at once and no iteration is ever run. -/
theorem long_loop_hands_out_nothing :
    ∃ (loop : LoopArgs) (moves : List (Nat × LoopMove)) (config : Config LoopState Worker),
      loop = chunkLoop 0x8000000000000000 ∧ loop.startat ≤ loop.stopat ∧ 1 ≤ loop.chunksize ∧
      Run (Config.Step (LoopAct loop)) (created loop (fun _ => 0) 1) moves config ∧
      (∀ task < config.shared.workers, (config.tasks task).pc = .finished) ∧
      config.shared.handed = [] ∧ ¬ Partition loop config := by
  let loop := chunkLoop 0x8000000000000000
  have beyond : ¬ (chunkAt 0x8000000000000000 .idle).shared.iq.start < loop.stop := by decide
  have joined : Config.Step (LoopAct loop) (created loop (fun _ => 0) 1) (0, .join)
      (chunkAt 0x8000000000000000 .idle) :=
    .move (@LoopAct.join _ (created loop (fun _ => 0) 1).shared _ rfl)
  have refused : Config.Step (LoopAct loop) (chunkAt 0x8000000000000000 .idle)
      (0, .access ⟨0, 2, true⟩) (chunkAt 0x8000000000000000 .finished) :=
    chunkAt_step (LoopAct.refused Nat.one_pos rfl (access_chunk_over rfl beyond))
  have all : ∀ task < 1, ((chunkAt 0x8000000000000000 .finished).tasks task).pc = .finished := by
    intro task only
    have zero : task = 0 := by omega
    rw [zero]
    rfl
  refine ⟨loop, _, _, rfl, by decide, by decide, .cons joined (.cons refused (.nil _)), all, rfl, ?_⟩
  intro partition
  have covers := partition.covers ⟨0, Nat.one_pos, rfl⟩ (fun task only => .inl (all task only)) 0
  obtain ⟨range, member, _⟩ := covers.mpr (by decide)
  cases member

end Qthreads.Loop
