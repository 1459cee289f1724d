import Qthreads.Lib.Tasks

namespace Qthreads.Loop

open Qthreads.Lib

/-! The four `qqloop_get_iterations_*` functions, cut at every access to a shared word.  The
fields of the queue are signed (`saligned_t`) although the loop bounds are `size_t`, so
every value that is stored or computed goes through `saligned`. -/

def saligned (value : Int) : Int := Int.bmod value (2 ^ 64)

/-- The conversion of a `saligned_t` back to `size_t`. -/
def sizeT (value : Int) : Nat := (value % 2 ^ 64).toNat

inductive QueueType where
  | chunk
  | guided
  | factored
  | timed

/-- What stays fixed while a loop runs: the arguments of `qt_loop_queue_create` and the chunk
size. -/
structure LoopArgs where
  type : QueueType
  startat : UInt64
  stopat : UInt64
  incr : UInt64
  chunksize : UInt64

namespace LoopArgs

def start (loop : LoopArgs) : Int := saligned loop.startat.toNat
def stop (loop : LoopArgs) : Int := saligned loop.stopat.toNat
def step (loop : LoopArgs) : Int := saligned loop.incr.toNat
def chunk (loop : LoopArgs) : Int := saligned loop.chunksize.toNat

end LoopArgs

/-- The fields of `qqloop_iteration_queue_t` that change. -/
structure IterationQueue where
  start : Int
  phase : Int
  lastblocks : Nat → Int

/-- `qqloop_create_iq`; `lastblocks` is what `malloc` returned. -/
def qqloopCreateIq (loop : LoopArgs) (lastblocks : Nat → Int) : IterationQueue where
  start := loop.start
  phase := saligned (((loop.startat.toNat + loop.stopat.toNat) % 2 ^ 64 / 2 : Nat) : Int)
  lastblocks := lastblocks

structure WrapperRange where
  startat : Nat
  stopat : Nat
  step : Nat
deriving DecidableEq

/-- Where a worker is: outside the loop, between two calls of its getter, or in a getter
about to make the named access, with the locals that are still live. -/
inductive Pc where
  | unborn
  | idle
  | finished
  | disabled
  | chunkIncr
  | aloneRead
  | aloneWrite (startat : Int)
  | guidedSheps (ret : Int)
  | guidedWorkers (sheps : Nat) (ret : Int)
  | guidedRead (sheps : Nat)
  | guidedCas (sheps : Nat) (ret iterations : Int)
  | factoredPhase (ret : Int)
  | factoredSheps (ret phase : Int)
  | factoredWorkers (sheps : Nat) (ret phase : Int)
  | factoredRead (sheps : Nat) (phase : Int)
  | factoredPhaseCas (sheps : Nat) (ret phase newphase : Int)
  | factoredCas (sheps : Nat) (ret phase iterations : Int)
  | timedBlock (workerCount shep : Nat) (slow : Bool)
  | timedStart (workerCount shep : Nat) (slow : Bool) (dynamicBlock : Int)
  | timedCas (workerCount shep : Nat) (slow : Bool) (localstart dynamicBlock : Int)
  | timedRecord (shep : Nat) (localstart dynamicBlock : Int)

/-- The result of one access: the getter goes on, returns 0 or 1 with the range it wrote,
or dies on a division by zero or a failed assert. -/
inductive Outcome where
  | goto (iq : IterationQueue) (pc : Pc)
  | answer (iq : IterationQueue) (result : Bool) (range : WrapperRange)
  | crash

/-- What an access observes of its surroundings: `qthread_shep()`, `qthread_num_workers()`, which
changes when shepherds and workers are disabled or enabled, and whether the timer that is read
shows at least `7.5e-7` seconds. -/
structure Sample where
  shep : Nat
  numWorkers : Nat
  slow : Bool

def nothing : WrapperRange := ⟨0, 0, 0⟩

def wrote (loop : LoopArgs) (startat stopat : Int) : WrapperRange :=
  ⟨sizeT startat, sizeT stopat, sizeT loop.step⟩

def atLeastOne (iterations : Int) : Int := if iterations = 0 then 1 else iterations

/-- The branch for a single worker: `iq->start` is read once more and then written, without a
`qthread_cas`. -/
def takeAll (loop : LoopArgs) (iq : IterationQueue) (ret : Int) : Outcome :=
  if ret < loop.stop then .goto iq .aloneRead else .answer iq false nothing

def aloneWrite (loop : LoopArgs) (iq : IterationQueue) (startat : Int) : Outcome :=
  .answer { iq with start := loop.stop } true (wrote loop startat loop.stop)

def chunkIncr (loop : LoopArgs) (iq : IterationQueue) : Outcome :=
  let ret := iq.start
  let bumped := { iq with start := saligned (ret + loop.chunk) }
  if ret < loop.stop then
    let size := if loop.stop < saligned (ret + loop.chunk) then saligned (loop.stop - ret)
      else loop.chunk
    .answer bumped true (wrote loop ret (saligned (ret + size)))
  else .answer bumped false nothing

def handOut (loop : LoopArgs) (iq : IterationQueue) (ret iterations : Int) : Outcome :=
  if ret < loop.stop then
    if 0 < iterations then .answer iq true (wrote loop ret (saligned (ret + iterations)))
    else .crash
  else .answer iq false nothing

def guidedWorkers (loop : LoopArgs) (iq : IterationQueue) (numWorkers sheps : Nat) (ret : Int) :
    Outcome :=
  if numWorkers = 1 then takeAll loop iq ret
  else if ret < loop.stop then .goto iq (.guidedRead sheps)
  else .answer iq false nothing

def guidedIterations (loop : LoopArgs) (sheps : Nat) (ret : Int) : Int :=
  atLeastOne (saligned ((saligned (loop.stop - ret)).tdiv sheps))

def guidedRead (loop : LoopArgs) (iq : IterationQueue) (sheps : Nat) : Outcome :=
  if sheps = 0 then .crash
  else .goto iq (.guidedCas sheps iq.start (guidedIterations loop sheps iq.start))

def guidedCas (loop : LoopArgs) (iq : IterationQueue) (sheps : Nat) (ret iterations : Int) :
    Outcome :=
  if iq.start = ret then
    handOut loop { iq with start := saligned (ret + iterations) } ret iterations
  else if ret < loop.stop then .goto iq (.guidedRead sheps)
  else .answer iq false nothing

/-- The factored getter writes `range->step` in its branch for a single worker only. -/
def Outcome.keepStep (range : WrapperRange) : Outcome → Outcome
  | .answer iq result new => .answer iq result { new with step := range.step }
  | outcome => outcome

def factoredWorkers (loop : LoopArgs) (iq : IterationQueue) (range : WrapperRange)
    (numWorkers sheps : Nat) (ret phase : Int) : Outcome :=
  if numWorkers = 1 then takeAll loop iq ret
  else if ret < loop.stop then .goto iq (.factoredRead sheps phase)
  else (Outcome.answer iq false nothing).keepStep range

def factoredNewphase (loop : LoopArgs) (sheps : Nat) (ret : Int) : Int :=
  let middle := (saligned (loop.stop + ret)).tdiv 2
  let chunksize := (saligned (loop.stop - middle)).tdiv sheps
  saligned (ret + saligned (chunksize * sheps))

def factoredInner (loop : LoopArgs) (iq : IterationQueue) (sheps : Nat) (ret phase : Int) :
    Outcome :=
  if sheps = 0 then .crash
  else if phase ≤ ret ∧ ret < loop.stop then
    .goto iq (.factoredPhaseCas sheps ret phase (factoredNewphase loop sheps ret))
  else
    .goto iq (.factoredCas sheps ret phase
      (atLeastOne (saligned ((saligned (loop.stop - phase)).tdiv sheps))))

def factoredPhaseCas (loop : LoopArgs) (iq : IterationQueue) (sheps : Nat)
    (ret phase newphase : Int) : Outcome :=
  let target := if newphase = phase then loop.stop else newphase
  let swapped := if iq.phase = phase then { iq with phase := target } else iq
  factoredInner loop swapped sheps ret iq.phase

def factoredCas (loop : LoopArgs) (iq : IterationQueue) (sheps : Nat)
    (ret phase iterations : Int) : Outcome :=
  if iq.start = ret then
    handOut loop { iq with start := saligned (ret + iterations) } ret iterations
  else if ret < loop.stop then .goto iq (.factoredRead sheps phase)
  else .answer iq false nothing

/-- The block the timed getter tries to take from `localstart`. -/
def timedSize (loop : LoopArgs) (workerCount : Nat) (slow : Bool)
    (localstart dynamicBlock : Int) : Int :=
  let block := if slow then
      saligned ((saligned (loop.stop - localstart)).tdiv (saligned ((workerCount * 2) * loop.step)) + 1)
    else dynamicBlock
  if loop.stop < saligned (localstart + block) then saligned (loop.stop - localstart) else block

def timedTry (loop : LoopArgs) (iq : IterationQueue) (workerCount shep : Nat) (slow : Bool)
    (localstart dynamicBlock : Int) : Outcome :=
  if localstart < loop.stop then
    if slow ∧ saligned ((workerCount * 2) * loop.step) = 0 then .crash
    else .goto iq (.timedCas workerCount shep slow localstart
      (timedSize loop workerCount slow localstart dynamicBlock))
  else .answer iq false nothing

def timedCas (loop : LoopArgs) (iq : IterationQueue) (workerCount shep : Nat) (slow : Bool)
    (localstart dynamicBlock : Int) : Outcome :=
  if iq.start = localstart then
    .goto { iq with start := saligned (localstart + dynamicBlock) }
      (.timedRecord shep localstart dynamicBlock)
  else timedTry loop iq workerCount shep slow iq.start dynamicBlock

def timedRecord (loop : LoopArgs) (iq : IterationQueue) (shep : Nat)
    (localstart dynamicBlock : Int) : Outcome :=
  let recorded := { iq with lastblocks := Function.update iq.lastblocks shep dynamicBlock }
  if 0 < dynamicBlock then
    if saligned (localstart + dynamicBlock) ≤ loop.stop then
      .answer recorded true (wrote loop localstart (saligned (localstart + dynamicBlock)))
    else .crash
  else .answer recorded false nothing

def getIterations (loop : LoopArgs) (iq : IterationQueue) (activesheps : Nat) (sample : Sample)
    (range : WrapperRange) : Outcome :=
  match loop.type with
  | .chunk => if iq.start < loop.stop then .goto iq .chunkIncr else .answer iq false nothing
  | .guided => .goto iq (.guidedSheps iq.start)
  | .factored => .goto iq (.factoredPhase iq.start)
  | .timed =>
    if range.step = 0 then .goto iq (.timedStart (activesheps % 2 ^ 16) sample.shep true 1)
    else .goto iq (.timedBlock (activesheps % 2 ^ 16) sample.shep sample.slow)

/-- The next access of a worker; `none` where the worker has no getter to run. -/
def access (loop : LoopArgs) (iq : IterationQueue) (activesheps : Nat) (sample : Sample)
    (range : WrapperRange) : Pc → Option Outcome
  | .unborn | .finished | .disabled => none
  | .idle => some (getIterations loop iq activesheps sample range)
  | .chunkIncr => some (chunkIncr loop iq)
  | .aloneRead => some (.goto iq (.aloneWrite iq.start))
  | .aloneWrite startat => some (aloneWrite loop iq startat)
  | .guidedSheps ret => some (.goto iq (.guidedWorkers (activesheps % 2 ^ 16) ret))
  | .guidedWorkers sheps ret => some (guidedWorkers loop iq sample.numWorkers sheps ret)
  | .guidedRead sheps => some (guidedRead loop iq sheps)
  | .guidedCas sheps ret iterations => some (guidedCas loop iq sheps ret iterations)
  | .factoredPhase ret => some (.goto iq (.factoredSheps ret iq.phase))
  | .factoredSheps ret phase =>
    some (.goto iq (.factoredWorkers (activesheps % 2 ^ 16) ret phase))
  | .factoredWorkers sheps ret phase =>
    some (factoredWorkers loop iq range sample.numWorkers sheps ret phase)
  | .factoredRead sheps phase => some (factoredInner loop iq sheps iq.start phase)
  | .factoredPhaseCas sheps ret phase newphase =>
    some (factoredPhaseCas loop iq sheps ret phase newphase)
  | .factoredCas sheps ret phase iterations =>
    some ((factoredCas loop iq sheps ret phase iterations).keepStep range)
  | .timedBlock workerCount shep slow =>
    some (.goto iq (.timedStart workerCount shep slow (iq.lastblocks shep)))
  | .timedStart workerCount shep slow dynamicBlock =>
    some (timedTry loop iq workerCount shep slow iq.start dynamicBlock)
  | .timedCas workerCount shep slow localstart dynamicBlock =>
    some (timedCas loop iq workerCount shep slow localstart dynamicBlock)
  | .timedRecord shep localstart dynamicBlock =>
    some (timedRecord loop iq shep localstart dynamicBlock)

structure LoopState where
  iq : IterationQueue
  activesheps : Nat
  workers : Nat
  handed : List WrapperRange
  crashed : Bool

structure Worker where
  pc : Pc
  range : WrapperRange

/-- What happens at a step: a worker makes its next access; a worker joins the loop
(`qt_loop_queue_run`, `qt_loop_queue_addworker`); a worker whose shepherd was disabled leaves
it; the count of active shepherds changes. -/
inductive LoopMove where
  | access (sample : Sample)
  | join
  | leave
  | active (sheps : Nat)

inductive LoopAct (loop : LoopArgs) :
    Nat → LoopState → Worker → LoopMove → LoopState → Worker → Prop where
  | goto {task : Nat} {state : LoopState} {mine : Worker} {sample : Sample}
      {iq : IterationQueue} {pc : Pc} :
      task < state.workers → state.crashed = false →
      access loop state.iq state.activesheps sample mine.range mine.pc = some (.goto iq pc) →
      LoopAct loop task state mine (.access sample) { state with iq } { mine with pc }
  | served {task : Nat} {state : LoopState} {mine : Worker} {sample : Sample}
      {iq : IterationQueue} {range : WrapperRange} :
      task < state.workers → state.crashed = false →
      access loop state.iq state.activesheps sample mine.range mine.pc =
        some (.answer iq true range) →
      LoopAct loop task state mine (.access sample)
        { state with iq, handed := state.handed ++ [range] } ⟨.idle, range⟩
  | refused {task : Nat} {state : LoopState} {mine : Worker} {sample : Sample}
      {iq : IterationQueue} {range : WrapperRange} :
      task < state.workers → state.crashed = false →
      access loop state.iq state.activesheps sample mine.range mine.pc =
        some (.answer iq false range) →
      LoopAct loop task state mine (.access sample) { state with iq } ⟨.finished, range⟩
  | crash {task : Nat} {state : LoopState} {mine : Worker} {sample : Sample} :
      task < state.workers → state.crashed = false →
      access loop state.iq state.activesheps sample mine.range mine.pc = some .crash →
      LoopAct loop task state mine (.access sample) { state with crashed := true } mine
  | join {state : LoopState} {mine : Worker} :
      state.crashed = false →
      LoopAct loop state.workers state mine .join { state with workers := state.workers + 1 }
        ⟨.idle, nothing⟩
  | leave {task : Nat} {state : LoopState} {mine : Worker} :
      task < state.workers → state.crashed = false → mine.pc = .idle →
      LoopAct loop task state mine .leave { state with activesheps := state.activesheps - 1 }
        { mine with pc := .disabled }
  | active {task sheps : Nat} {state : LoopState} {mine : Worker} :
      state.crashed = false →
      LoopAct loop task state mine (.active sheps) { state with activesheps := sheps } mine

def created (loop : LoopArgs) (lastblocks : Nat → Int) (activesheps : Nat) :
    Config LoopState Worker where
  shared := ⟨qqloopCreateIq loop lastblocks, activesheps, 0, [], false⟩
  tasks := fun _ => ⟨.unborn, nothing⟩

end Qthreads.Loop
