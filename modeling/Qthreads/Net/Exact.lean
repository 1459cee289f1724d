import Qthreads.Net.Runs

namespace Qthreads.Net

open Qthreads.Feb (qalign)
open Qthreads.Lib

variable {net : Network} {w after : World net}

/-- The steps that are left, if nobody calls `qthread_fork_remote` any more. -/
def World.pending (w : World net) : Nat :=
  4 * w.callers.length +
    (w.inFlight.map fun packet => if packet.tag = returnMsgTag then 1 else 3).sum +
    2 * w.tasks.length

theorem handle_task {topology : Feb.Topology} {argcopySize : Nat} {l after : Locale} {tag : Nat} {start : UInt64}
    {message : List UInt8} {task : Task}
    (handled : handle topology argcopySize l tag start message = some (after, .task task)) :
    tag ≠ returnMsgTag := by
  intro same
  rw [handle, same, if_neg (by decide), if_neg (by decide), if_pos rfl, returnMsgHandler] at handled
  cases handled

theorem Internal.pending_lt (step : Internal w after) : after.pending < w.pending := by
  cases step with
  | @send before rest caller buffer split size =>
    have tag : forkTag caller.argLen ≠ returnMsgTag := by
      rw [forkTag]
      split <;> decide
    simp only [World.pending, split, List.map_append, List.map_cons, List.map_nil,
      List.sum_append, List.sum_cons, List.sum_nil, List.length_append, List.length_cons, tag,
      if_false]
    omega
  | fork start split handled =>
    have tag := handle_task handled
    simp only [World.pending, split, List.map_append, List.map_cons, List.sum_append,
      List.sum_cons, List.length_append, List.length_cons, List.length_nil, tag, if_false]
    omega
  | @answer before rest packet start l addr value split handled =>
    have positive : 0 < if packet.tag = returnMsgTag then 1 else 3 := by
      split <;> decide
    simp only [World.pending, split, List.map_append, List.map_cons, List.sum_append,
      List.sum_cons]
    omega
  | silent value split executed nowhere =>
    simp only [World.pending, split, List.length_append, List.length_cons]
    omega
  | «return» value buffer split executed somewhere size =>
    simp only [World.pending, split, List.map_append, List.map_cons, List.map_nil,
      List.sum_append, List.sum_cons, List.sum_nil, List.length_append, List.length_cons,
      if_true]
    omega

def Aborts (w : World net) : Prop :=
  (∃ packet ∈ w.inFlight, ∃ start,
    handle (net.topology packet.rank) (net.argcopySize packet.rank) (w.locales packet.rank) packet.tag start
      packet.message = none) ∨
  ∃ job ∈ w.tasks,
    execute net.machine (net.tables job.rank) (w.locales job.rank).memory job.task = none

theorem Inv.never_aborts (inv : Inv w) : ¬ Aborts w := by
  rintro (⟨packet, listed, start, stopped⟩ | ⟨job, listed, stopped⟩)
  · rcases inv.packets.each packet listed with
      ⟨fork, given, travelling⟩ | ⟨fork, given, args, value, returning⟩
    · obtain ⟨helper, handled⟩ := travelling.handle start
      rw [handled] at stopped
      cases stopped
    · rw [returning.handle start] at stopped
      cases stopped
  · obtain ⟨fork, given, waiting⟩ := inv.jobs.each job listed
    obtain ⟨run, executed, -⟩ := waiting.execute
    rw [executed] at stopped
    cases stopped

theorem caller_goes (before rest : List Caller) {caller : Caller}
    (split : w.callers = before ++ caller :: rest) :
    ∃ after, Internal w after ∧ after.calls = w.calls ∧ after.callers = before ++ rest ∧
      ∃ given packet, packet.call = caller.call ∧ packet.tag ≠ returnMsgTag ∧
        after.inFlight = w.inFlight ++ [packet] ∧ after.tasks = w.tasks ∧
        after.log = w.log ++ [.sent caller.call given] := by
  refine ⟨_, .send (List.replicate (bufferSize caller.argLen) 0) split (List.length_replicate ..),
    rfl, rfl, _, _, rfl, ?_, rfl, rfl, rfl⟩
  simp only [forkTag]
  split <;> decide

theorem Inv.fork_goes (inv : Inv w) (before rest : List Packet) {packet : Packet}
    (split : w.inFlight = before ++ packet :: rest) (tag : packet.tag ≠ returnMsgTag) :
    ∃ after, Internal w after ∧ after.calls = w.calls ∧ after.callers = w.callers ∧
      after.inFlight = before ++ rest ∧
      ∃ job, job.call = packet.call ∧ after.tasks = w.tasks ++ [job] ∧
        after.log = w.log ++ [.received packet.call packet.rank] := by
  have member : packet ∈ w.inFlight := split ▸ List.mem_append_right _ List.mem_cons_self
  rcases inv.packets.each packet member with ⟨_, _, travelling⟩ | ⟨_, _, _, _, returning⟩
  · obtain ⟨helper, handled⟩ := travelling.handle 0
    exact ⟨_, .fork 0 split handled, rfl, rfl, rfl, _, rfl, rfl, rfl⟩
  · exact absurd returning.tag tag

theorem Inv.answer_goes (inv : Inv w) (before rest : List Packet) {packet : Packet}
    (split : w.inFlight = before ++ packet :: rest) (tag : packet.tag = returnMsgTag) :
    ∃ after, Internal w after ∧ after.calls = w.calls ∧ after.callers = w.callers ∧
      ∃ fork value, w.calls[packet.call]? = some fork ∧
        after.log = w.log ++ [.filled packet.call fork.origin fork.ret value] := by
  have member : packet ∈ w.inFlight := split ▸ List.mem_append_right _ List.mem_cons_self
  rcases inv.packets.each packet member with
    ⟨fork, _, travelling⟩ | ⟨fork, given, args, value, returning⟩
  · have other : packet.tag ≠ returnMsgTag := by
      rw [travelling.tag, forkTag]
      split <;> decide
    exact absurd tag other
  · refine ⟨_, .answer 0 split (returning.handle 0), rfl, rfl, fork, value, returning.made.listed,
      ?_⟩
    rw [returning.rank]

theorem Inv.task_goes (inv : Inv w) (before rest : List Job) {job : Job}
    (split : w.tasks = before ++ job :: rest) (value : UInt64) :
    ∃ after, Internal w after ∧ after.calls = w.calls ∧ after.callers = w.callers ∧
      ∃ fork, w.calls[job.call]? = some fork ∧
        (fork.ret ≠ 0 → ∃ (run : Invocation) (packet : Packet), packet.call = job.call ∧ packet.tag = returnMsgTag ∧
          after.inFlight = w.inFlight ++ [packet] ∧
          after.log = w.log ++ [.ran job.call job.rank run.f run.args value,
            .answered job.call fork.origin value]) := by
  have member : job ∈ w.tasks := split ▸ List.mem_append_right _ List.mem_cons_self
  obtain ⟨fork, given, waiting⟩ := inv.jobs.each job member
  obtain ⟨run, executed, -, -, addr, node⟩ := waiting.execute
  by_cases isZero : fork.ret = 0
  · have nowhere : run.returnAddr = 0 := by
      rw [addr, isZero]
      rfl
    exact ⟨_, .silent value split executed nowhere, rfl, rfl, fork, waiting.made.listed,
      fun asked => absurd isZero asked⟩
  · have somewhere : run.returnAddr ≠ 0 := by
      intro zero
      rw [zero] at addr
      exact isZero (UInt64.toNat_inj.mp addr.symm)
    refine ⟨_, .return value (List.replicate returnMsgSize 0) split executed somewhere rfl, rfl,
      rfl, fork, waiting.made.listed, fun _ => ⟨run, _, rfl, rfl, rfl, ?_⟩⟩
    rw [node]

theorem Inv.goes_on (inv : Inv w) (left : w.pending ≠ 0) : ∃ after, Internal w after := by
  cases callers : w.callers with
  | cons caller rest =>
    obtain ⟨after, step, -⟩ := caller_goes [] _ callers
    exact ⟨after, step⟩
  | nil =>
    cases packets : w.inFlight with
    | cons packet rest =>
      by_cases tag : packet.tag = returnMsgTag
      · obtain ⟨after, step, -⟩ := inv.answer_goes [] _ packets tag
        exact ⟨after, step⟩
      · obtain ⟨after, step, -⟩ := inv.fork_goes [] _ packets tag
        exact ⟨after, step⟩
    | nil =>
      cases tasks : w.tasks with
      | cons job rest =>
        obtain ⟨after, step, -⟩ := inv.task_goes [] _ tasks 0
        exact ⟨after, step⟩
      | nil =>
        rw [World.pending, callers, packets, tasks] at left
        exact absurd rfl left

variable {fork : Fork net.Action}

theorem Inv.finished (inv : Inv w) (done : w.pending = 0) {call : Nat}
    (listed : w.calls[call]? = some fork) : Finished w call fork := by
  rw [World.pending] at done
  have callers : w.callers = [] := List.eq_nil_of_length_eq_zero (by omega)
  have tasks : w.tasks = [] := List.eq_nil_of_length_eq_zero (by omega)
  have packets : w.inFlight = [] := by
    cases empty : w.inFlight with
    | nil => rfl
    | cons packet rest =>
      rw [empty, List.map_cons, List.sum_cons] at done
      have positive : 0 < if packet.tag = returnMsgTag then 1 else 3 := by
        split <;> decide
      omega
  cases inv.placed call fork listed with
  | calling member names =>
    rw [callers] at member
    cases member
  | inFlight member names =>
    rw [packets] at member
    cases member
  | waiting member names =>
    rw [tasks] at member
    cases member
  | finished finished => exact finished

theorem Inv.story (inv : Inv w) {call : Nat} (listed : w.calls[call]? = some fork) :
    ∃ stage : Stage, w.history call = Net.story net call fork stage ∧ stage.Fits fork := by
  cases inv.placed call fork listed with
  | calling member names =>
    obtain ⟨other, calling⟩ := inv.callers.each _ member
    have made := calling.made.listed
    rw [names, listed] at made
    cases made
    exact ⟨.called, names ▸ calling.history, trivial⟩
  | inFlight member names =>
    rcases inv.packets.each _ member with
      ⟨other, given, travelling⟩ | ⟨other, given, args, value, returning⟩
    · have made := travelling.made.listed
      rw [names, listed] at made
      cases made
      exact ⟨.travelling given, names ▸ travelling.history, travelling.carries.length⟩
    · have made := returning.made.listed
      rw [names, listed] at made
      cases made
      exact ⟨.returning given args value, names ▸ returning.history, returning.fits⟩
  | waiting member names =>
    obtain ⟨other, given, waiting⟩ := inv.jobs.each _ member
    have made := waiting.made.listed
    rw [names, listed] at made
    cases made
    obtain ⟨_, _, _, _, _, carries, _⟩ := waiting.task
    exact ⟨.waiting given, names ▸ waiting.history, carries.length⟩
  | finished finished =>
    obtain ⟨given, args, value, history, fits⟩ := finished
    exact ⟨.finished given args value, history, fits⟩

/-- The word is full or empty, as `qthread_feb_status` reports it. -/
def status (w : World net) (rank : Nat) (p : UInt64) : Feb.Answer :=
  (@Feb.qthreadFebStatus (net.topology rank) p (w.locales rank).feb).2

/-- From a call on, its return word is empty for as long as no message for it has arrived. -/
def StaysEmpty (w : World net) : Prop :=
  ∀ before after call origin ret, w.log = before ++ .called call origin ret :: after → ret ≠ 0 →
    (∀ event ∈ after, event.marks origin (qalign ret) ≠ some false) →
    status w origin ret = .status false

/-- What the arrival of a return message does: the word gets the value and is full; every other
word and every other byte stays as it was. -/
structure Fills (w after : World net) (rank : Nat) (addr value : UInt64) : Prop where
  full : status after rank addr = .status true
  value : (after.locales rank).memory.read 8 (.user addr) = Bytes.encode 8 value.toNat
  words : ∀ p, net.Settled rank p → qalign p ≠ qalign addr →
    status after rank p = status w rank p
  bytes : ∀ a : UInt64, 8 ≤ (a - addr).toNat →
    (after.locales rank).feb.memory a = (w.locales rank).feb.memory a
  others : ∀ other, other ≠ rank → after.locales other = w.locales other

theorem Words.status {rank : Nat} (words : Words w rank) {p : UInt64}
    (settled : net.Settled rank p) :
    status w rank p = .status (!emptyAt rank (qalign p) w.log) := by
  rw [Net.status, Locale.febStatus_isEmpty words.clear settled,
    words.empty (qalign p) (Feb.qalign_idem p)]

theorem emptyAt_of_called {rank : Nat} {key : UInt64} {before after : List Event}
    {event : Event} (emptied : event.marks rank key = some true)
    (unfilled : ∀ other ∈ after, other.marks rank key ≠ some false) :
    emptyAt rank key (before ++ event :: after) = true := by
  induction after using List.reverseRecOn with
  | nil => rw [emptyAt_snoc, emptied, Option.getD_some]
  | append_singleton rest last ih =>
    have still := ih fun other listed => unfilled other (List.mem_append_left _ listed)
    rw [← List.cons_append, ← List.append_assoc, emptyAt_snoc, still]
    have mark := unfilled last (List.mem_append_right _ (List.mem_singleton.mpr rfl))
    cases marked : last.marks rank key with
    | none => rfl
    | some empty =>
      cases empty with
      | true => rfl
      | false => exact absurd marked mark

theorem Inv.staysEmpty (inv : Inv w)
    (spelled : ∀ fork ∈ w.calls, fork.ret ≠ 0 → net.Settled fork.origin fork.ret) :
    StaysEmpty w := by
  intro before after call origin ret split asked unfilled
  have listed : Event.called call origin ret ∈ w.log :=
    split ▸ List.mem_append_right _ List.mem_cons_self
  have known := inv.logged _ listed
  obtain ⟨fork, there⟩ : ∃ fork, w.calls[call]? = some fork :=
    ⟨_, List.getElem?_eq_getElem known⟩
  have named : Event.called call origin ret ∈ w.history call :=
    List.mem_filter.mpr ⟨listed, decide_eq_true rfl⟩
  have same : origin = fork.origin ∧ ret = fork.ret := by
    obtain ⟨stage, history, -⟩ := inv.story there
    rw [history] at named
    cases stage with
    | called => simpa [Net.story] using named
    | travelling given => simpa [Net.story] using named
    | waiting given => simpa [Net.story] using named
    | returning given args value => simpa [Net.story] using named
    | finished given args value =>
      rw [Net.story] at named
      split at named
      · simpa using named
      · simpa using named
  have settled := spelled fork (List.mem_of_getElem? there) (same.2 ▸ asked)
  rw [← same.1, ← same.2] at settled
  rw [(inv.words origin).status settled, split, emptyAt_of_called ?_ unfilled]
  · rfl
  · rw [Event.marks, if_pos ⟨rfl, asked, rfl⟩]

theorem Inv.fills (inv : Inv w)
    (spelled : ∀ fork ∈ w.calls, fork.ret ≠ 0 → net.Settled fork.origin fork.ret)
    (step : Step w after) {call rank : Nat} {addr value : UInt64}
    (log : after.log = w.log ++ [.filled call rank addr value]) : Fills w after rank addr value := by
  cases step with
  | call =>
    have same := List.append_cancel_left log
    cases same
  | compute =>
    have same := congrArg List.length log
    rw [List.length_append] at same
    simp at same
  | internal step =>
    have next := inv.internal spelled step
    cases step with
    | send buffer split size => cases List.append_cancel_left log
    | fork start split handled => cases List.append_cancel_left log
    | silent value split executed nowhere => cases List.append_cancel_left log
    | «return» value buffer split executed somewhere size =>
      have same := List.append_cancel_left log
      cases same
    | @answer before rest packet start l addr' value' split handled =>
      cases List.append_cancel_left log
      have member : packet ∈ w.inFlight := split ▸ List.mem_append_right _ List.mem_cons_self
      rcases inv.packets.each packet member with
        ⟨_, _, travelling⟩ | ⟨fork, given, args, _, returning⟩
      · obtain ⟨helper, made⟩ := travelling.handle start
        rw [made] at handled
        cases handled
      · rw [returning.handle start] at handled
        cases handled
        have settled := spelled fork (List.mem_of_getElem? returning.made.listed)
          returning.fits.2.2
        rw [← returning.rank] at settled
        obtain ⟨febs, memory, -, -⟩ := Locale.writeFConst_spec
          (inv.words packet.rank).clear settled value
        constructor
        · rw [(next.words packet.rank).status settled, emptyAt_snoc, Event.marks,
            if_pos ⟨rfl, rfl⟩]
          rfl
        · have read := @read_overlay (Bytes.encode 8 value.toNat)
            (w.locales packet.rank).memory fork.ret (by rw [Bytes.encode_length]; decide)
          rw [Bytes.encode_length] at read
          simp only [Function.update_self]
          rw [Spawn.Memory.read, Locale.memory, memory]
          exact read
        · intro p other differs
          rw [(next.words packet.rank).status other, (inv.words packet.rank).status other,
            emptyAt_snoc, Event.marks, if_neg (fun both => differs both.2.symm)]
          rfl
        · intro a outside
          simp only [Function.update_self]
          rw [memory, overlay_away (by rw [Bytes.encode_length]; exact outside)]
        · intro other differs
          exact Function.update_of_ne differs _ _

/-- Remote forks in a reachable state: each has come to some stage of its story and goes on to
the end of it, and the return words are as promised. -/
structure ForksExact (w : World net) : Prop where
  lives : ∀ (call : Nat) fork, w.calls[call]? = some fork →
    ∃ stage : Stage, w.history call = story net call fork stage ∧ stage.Fits fork
  aborts : ¬ Aborts w
  empty : StaysEmpty w
  fills : ∀ after, Step w after → ∀ call rank addr value,
    after.log = w.log ++ [.filled call rank addr value] → Fills w after rank addr value
  ends : ∀ after, Internal w after → after.pending < w.pending
  goes : w.pending ≠ 0 → ∃ after, Internal w after
  done : w.pending = 0 → ∀ (call : Nat) fork, w.calls[call]? = some fork → Finished w call fork

theorem Reachable.steps {w after : World net} (reached : Reachable w)
    (steps : Relation.ReflTransGen Internal w after) : Reachable after := by
  induction steps with
  | refl => exact reached
  | tail _ step ih => exact .step ih (.internal step)

theorem Inv.caller_finishes (inv : Inv w)
    (spelled : ∀ fork ∈ w.calls, fork.ret ≠ 0 → net.Settled fork.origin fork.ret)
    (rest : List Caller) {caller : Caller} (split : w.callers = caller :: rest) (alone : w.inFlight = [])
    (idle : w.tasks = []) (listed : w.calls[caller.call]? = some fork)
    (asked : fork.ret ≠ 0) :
    ∃ after, Relation.ReflTransGen Internal w after ∧ after.calls = w.calls ∧
      ∃ events value, after.log = w.log ++ events ++
          [.filled caller.call fork.origin fork.ret value] ∧
        ∀ event ∈ events, event.call = caller.call := by
  obtain ⟨sent, sends, calls, -, given, packet, number, tag, packets, tasks, log⟩ :=
    caller_goes [] _ split
  rw [alone] at packets
  rw [idle] at tasks
  have sentInv := inv.internal spelled sends
  obtain ⟨taken, takes, takenCalls, -, empty, job, jobNumber, jobs, takenLog⟩ :=
    sentInv.fork_goes [] _ packets tag
  rw [tasks] at jobs
  have takenInv := sentInv.internal (calls ▸ spelled) takes
  have sameCalls := takenCalls.trans calls
  obtain ⟨ran, runs, ranCalls, -, other, there, answers⟩ :=
    takenInv.task_goes [] _ jobs 5
  rw [jobNumber, number, sameCalls, listed] at there
  cases there
  obtain ⟨run, back, backNumber, backTag, backs, ranLog⟩ := answers asked
  rw [empty] at backs
  have ranInv := takenInv.internal (sameCalls ▸ spelled) runs
  have allCalls := ranCalls.trans sameCalls
  obtain ⟨after, fills, afterCalls, -, last, value, found, afterLog⟩ :=
    ranInv.answer_goes [] _ backs backTag
  rw [backNumber, jobNumber, number, allCalls, listed] at found
  cases found
  rw [backNumber, jobNumber, number] at afterLog
  have steps := (((Relation.ReflTransGen.single sends).tail takes).tail runs).tail fills
  refine ⟨after, steps, afterCalls.trans allCalls,
    [.sent caller.call given, .received packet.call packet.rank,
      .ran job.call job.rank run.f run.args 5, .answered job.call fork.origin 5], value, ?_, ?_⟩
  · rw [afterLog, ranLog, takenLog, log]
    simp only [List.append_assoc, List.cons_append, List.nil_append]
  · intro event member
    simp only [List.mem_cons, List.not_mem_nil, or_false] at member
    rcases member with rfl | rfl | rfl | rfl
    · rfl
    · exact number
    · exact jobNumber.trans number
    · exact jobNumber.trans number

/-- Every remote fork runs its action once, on the target, with the bytes that were given, and
answers once.  A return address must hash to the stripe of its word, as all aligned ones do. -/
theorem remote_forks_exact (reached : Reachable w)
    (spelled : ∀ fork ∈ w.calls, fork.ret ≠ 0 → net.Settled fork.origin fork.ret) :
    ForksExact w := by
  have inv := reached.inv spelled
  exact ⟨fun call fork listed => inv.story listed, inv.never_aborts, inv.staysEmpty spelled,
    fun after step call rank addr value log => inv.fills spelled step log,
    fun after step => step.pending_lt, inv.goes_on, fun done call fork listed =>
      inv.finished done listed⟩

def oneLocale : Network where
  machine := Hash.commonMachine
  topology := fun _ => Feb.twoWorkers
  Action := Unit
  worldSize := 1
  small := by decide
  argcopySize := fun _ => 1024
  address := fun _ _ => 4096
  there := fun _ _ => by decide
  apart := fun _ _ _ _ => rfl
  actions := fun _ => [(2, ())]
  tables := fun _ =>
    match registerAll Hash.commonMachine (.create Hash.commonMachine) [(2, 4096)] with
    | .ok tables => tables
    | .error _ => .create Hash.commonMachine
  registered := by
    have returns : (registerAll Hash.commonMachine (.create Hash.commonMachine)
        [(2, 4096)]).toOption.isSome = true := by decide +kernel
    intro rank _
    simp only [List.map_cons, List.map_nil]
    cases result : registerAll Hash.commonMachine (.create Hash.commonMachine) [(2, 4096)] with
    | ok tables => rfl
    | error stop =>
      rw [result] at returns
      cases returns
  agree := fun _ _ _ _ _ => rfl

def quietLocale : Locale where
  feb := { febs := fun _ _ => none, memory := fun _ => 7, threads := fun _ => .running
           preconds := fun _ => [], log := [] }
  blocks := fun _ _ => 0
  next := 0

def startWorld : World oneLocale := ⟨fun _ => quietLocale, [], [], [], [], []⟩

theorem startWorld_initial : Initial startWorld :=
  ⟨fun _ _ _ => rfl, rfl, rfl, rfl, rfl, rfl⟩

theorem oneLocale_call (w : World oneLocale) : ∃ after caller, Step w after ∧
    after.callers = w.callers ++ [caller] ∧ caller.call = w.calls.length ∧
    after.calls = w.calls ++ [⟨0, 0, (), 8, 8⟩] ∧
    after.log = w.log ++ [.called w.calls.length 0 8] ∧ after.inFlight = w.inFlight ∧
    after.tasks = w.tasks := by
  have checked : oneLocale.checks 0 (oneLocale.address 0 ()) :=
    @Network.checks_of_bound oneLocale 0 (by decide) 2 () rfl
  exact ⟨_, _, @Step.call _ w 0 0 () 64 8 8 (by decide) (by decide) (by decide) checked,
    rfl, rfl, rfl, rfl, rfl, rfl⟩

theorem settled_eight : oneLocale.Settled 0 8 :=
  @Feb.qalign_fixed_settled Feb.twoWorkers 8 (by decide)

/-- A call, the delivery of its message, the task, its answer and the delivery of the answer. -/
theorem remote_forks_exact_called : ∃ w : World oneLocale, w.calls = [⟨0, 0, (), 8, 8⟩] ∧
    (∃ value, .filled 0 0 8 value ∈ w.log) ∧ ForksExact w := by
  obtain ⟨one, caller, step, callers, number, calls, log, inFlight, tasks⟩ :=
    oneLocale_call startWorld
  have spelled : ∀ fork ∈ one.calls, fork.ret ≠ 0 → oneLocale.Settled fork.origin fork.ret := by
    intro fork listed _
    rw [calls] at listed
    rw [List.mem_singleton.mp listed]
    exact settled_eight
  have reached : Reachable one := .step (.initial startWorld_initial) step
  have listed : one.calls[caller.call]? = some ⟨0, 0, (), 8, 8⟩ := by
    rw [calls, number]
    rfl
  obtain ⟨after, steps, sameCalls, events, value, whole, -⟩ :=
    (reached.inv spelled).caller_finishes spelled [] callers inFlight tasks listed (by decide)
  have filled : .filled 0 0 8 value ∈ after.log := by
    rw [whole, number]
    exact List.mem_append_right _ (List.mem_singleton.mpr rfl)
  exact ⟨after, sameCalls.trans calls, ⟨value, filled⟩,
    remote_forks_exact (reached.steps steps) (sameCalls ▸ spelled)⟩

/-- From a call on, its return word is empty until the answer to this call arrives. -/
def StaysEmptyForOwn (w : World net) : Prop :=
  ∀ before after call origin ret, w.log = before ++ .called call origin ret :: after → ret ≠ 0 →
    (∀ value, .filled call origin ret value ∉ after) → status w origin ret = .status false

/-- Two calls name the word at 8, and the answer to the first fills it while the second is still
to be sent. -/
theorem shared_word_is_filled_early :
    ∃ w : World oneLocale, Reachable w ∧ (∀ fork ∈ w.calls, fork.ret = 8) ∧
      ¬ StaysEmptyForOwn w := by
  obtain ⟨one, caller, first, callers, number, calls, log, inFlight, tasks⟩ :=
    oneLocale_call startWorld
  obtain ⟨two, other, second, callers', -, calls', log', inFlight', tasks'⟩ := oneLocale_call one
  rw [callers] at callers'
  rw [calls] at calls' log'
  rw [log] at log'
  have named : ∀ fork ∈ two.calls, fork.ret = 8 := by
    intro fork listed
    rw [calls'] at listed
    rcases List.mem_cons.mp listed with rfl | rest
    · rfl
    · rw [List.mem_singleton.mp rest]
  have spelled : ∀ fork ∈ two.calls, fork.ret ≠ 0 → oneLocale.Settled fork.origin fork.ret := by
    intro fork listed _
    rw [named fork listed]
    exact settled_eight
  have reached : Reachable two := .step (.step (.initial startWorld_initial) first) second
  have listed : two.calls[caller.call]? = some ⟨0, 0, (), 8, 8⟩ := by
    rw [calls', number]
    rfl
  obtain ⟨after, steps, sameCalls, events, value, whole, own⟩ :=
    (reached.inv spelled).caller_finishes spelled [other] callers'
      (inFlight'.trans inFlight) (tasks'.trans tasks) listed (by decide)
  have finally_ : Reachable after := reached.steps steps
  have inv := finally_.inv (sameCalls ▸ spelled)
  refine ⟨after, finally_, sameCalls ▸ named, ?_⟩
  intro claimed
  have empty := claimed [.called 0 0 8] (events ++ [.filled caller.call 0 8 value]) 1 0 8
    (by rw [whole, log', List.append_assoc]; rfl) (by decide) ?_
  · rw [(inv.words 0).status settled_eight, whole, emptyAt_snoc, Event.marks,
      if_pos ⟨rfl, rfl⟩] at empty
    cases empty
  · intro value' found
    rcases List.mem_append.mp found with early | last
    · have call := own _ early
      rw [number] at call
      cases call
    · have same := congrArg Event.call (List.mem_singleton.mp last)
      rw [show (Event.filled caller.call 0 8 value).call = caller.call from rfl, number] at same
      cases same

end Qthreads.Net
