import Qthreads.Net.Words

namespace Qthreads.Net

open Qthreads.Feb (qalign)
open Qthreads.Lib Qthreads.Lib.Bytes

inductive Stage where
  | called
  | travelling (given : List UInt8)
  | waiting (given : List UInt8)
  | returning (given : List UInt8) (args : Nat → UInt8) (value : UInt64)
  | finished (given : List UInt8) (args : Nat → UInt8) (value : UInt64)

variable {net : Network}

/-- The events of a fork up to a stage: the action runs once, on the locale that was named, and
one answer fills the return word if there is one. -/
def story (net : Network) (call : Nat) (fork : Fork net.Action) : Stage → List Event
  | .called => [.called call fork.origin fork.ret]
  | .travelling given => [.called call fork.origin fork.ret, .sent call given]
  | .waiting given =>
    [.called call fork.origin fork.ret, .sent call given, .received call fork.rank]
  | .returning given args value =>
    [.called call fork.origin fork.ret, .sent call given, .received call fork.rank,
      .ran call fork.rank (net.address fork.rank fork.action) args value,
      .answered call fork.origin value]
  | .finished given args value =>
    if fork.ret = 0 then
      [.called call fork.origin fork.ret, .sent call given, .received call fork.rank,
        .ran call fork.rank (net.address fork.rank fork.action) args value]
    else
      [.called call fork.origin fork.ret, .sent call given, .received call fork.rank,
        .ran call fork.rank (net.address fork.rank fork.action) args value,
        .answered call fork.origin value, .filled call fork.origin fork.ret value]

def Found (args : Nat → UInt8) (given : List UInt8) : Prop :=
  ∀ i (inside : i < given.length), args i = given[i]

def Stage.Fits (fork : Fork net.Action) : Stage → Prop
  | .called => True
  | .travelling given | .waiting given => given.length = fork.argLen
  | .returning given args _ => given.length = fork.argLen ∧ Found args given ∧ fork.ret ≠ 0
  | .finished given args _ => given.length = fork.argLen ∧ Found args given

def World.history (w : World net) (call : Nat) : List Event :=
  w.log.filter fun event => event.call = call

def Event.marks (rank : Nat) (key : UInt64) : Event → Option Bool
  | .called _ origin ret => if origin = rank ∧ ret ≠ 0 ∧ qalign ret = key then some true else none
  | .filled _ origin addr _ => if origin = rank ∧ qalign addr = key then some false else none
  | _ => none

def emptyAt (rank : Nat) (key : UInt64) (log : List Event) : Bool :=
  log.foldl (fun empty event => (event.marks rank key).getD empty) false

theorem emptyAt_snoc (rank : Nat) (key : UInt64) (log : List Event) (event : Event) :
    emptyAt rank key (log ++ [event]) = (event.marks rank key).getD (emptyAt rank key log) := by
  rw [emptyAt, List.foldl_append]
  rfl

structure Tracked {Item : Type} (items : List Item) (call : Item → Nat) (Fits : Item → Prop) :
    Prop where
  distinct : (items.map call).Nodup
  each : ∀ item ∈ items, Fits item

namespace Tracked

variable {Item : Type} {items before after : List Item} {item : Item} {call : Item → Nat}
  {Fits Next : Item → Prop}

theorem mono (tracked : Tracked items call Fits)
    (still : ∀ other ∈ items, Fits other → Next other) : Tracked items call Next :=
  ⟨tracked.distinct, fun other listed => still other listed (tracked.each other listed)⟩

theorem snoc (tracked : Tracked items call Fits) (new : ∀ other ∈ items, call other ≠ call item)
    (fits : Fits item) : Tracked (items ++ [item]) call Fits := by
  constructor
  · rw [List.map_append, List.map_singleton]
    refine List.Nodup.append tracked.distinct (List.nodup_singleton _) ?_
    intro found listed last
    obtain ⟨other, member, same⟩ := List.mem_map.mp listed
    exact new other member (same.trans (List.mem_singleton.mp last))
  · intro other listed
    rcases List.mem_append.mp listed with old | last
    · exact tracked.each other old
    · rw [List.mem_singleton.mp last]
      exact fits

theorem others (tracked : Tracked (before ++ item :: after) call Fits) :
    ∀ other ∈ before ++ after, call other ≠ call item := by
  have distinct := tracked.distinct
  rw [List.map_append, List.map_cons] at distinct
  have fresh := (List.nodup_middle.mp distinct)
  rw [List.nodup_cons, ← List.map_append] at fresh
  intro other listed same
  exact fresh.1 (same ▸ List.mem_map_of_mem listed)

theorem remove (tracked : Tracked (before ++ item :: after) call Fits)
    (still : ∀ other, call other ≠ call item → Fits other → Next other) :
    Tracked (before ++ after) call Next := by
  have apart := tracked.others
  constructor
  · have distinct := tracked.distinct
    rw [List.map_append, List.map_cons] at distinct
    rw [List.map_append]
    exact (List.nodup_cons.mp (List.nodup_middle.mp distinct)).2
  · intro other listed
    refine still other (apart other listed) (tracked.each other ?_)
    rcases List.mem_append.mp listed with front | back
    · exact List.mem_append_left _ front
    · exact List.mem_append_right _ (List.mem_cons_of_mem _ back)

end Tracked

structure Made (w : World net) (call : Nat) (fork : Fork net.Action) : Prop where
  listed : w.calls[call]? = some fork
  origin : fork.origin < net.worldSize
  rank : fork.rank < net.worldSize
  short : forkLongMsgSize + fork.argLen < 2 ^ 64

structure Carries (net : Network) (message : List UInt8) (fork : Fork net.Action)
    (given : List UInt8) : Prop where
  size : message.length = bufferSize fork.argLen
  length : given.length = fork.argLen
  fields : ∃ uid : UInt32, bound (net.actions fork.origin) uid = some fork.action ∧
    ForkMsg message uid.toUInt64 fork.ret fork.origin given

structure Calling (w : World net) (caller : Caller) (fork : Fork net.Action) : Prop where
  made : Made w caller.call fork
  history : w.history caller.call = story net caller.call fork .called
  origin : caller.origin = fork.origin
  rank : caller.rank = fork.rank
  ret : caller.ret = fork.ret
  argLen : caller.argLen = fork.argLen
  uid : ∃ uid : UInt32, caller.uid = uid.toUInt64 ∧
    bound (net.actions fork.origin) uid = some fork.action

structure Travelling (w : World net) (packet : Packet) (fork : Fork net.Action)
    (given : List UInt8) : Prop where
  made : Made w packet.call fork
  history : w.history packet.call = story net packet.call fork (.travelling given)
  rank : packet.rank = fork.rank
  tag : packet.tag = forkTag fork.argLen
  carries : Carries net packet.message fork given

structure Returning (w : World net) (packet : Packet) (fork : Fork net.Action)
    (given : List UInt8) (args : Nat → UInt8) (value : UInt64) : Prop where
  made : Made w packet.call fork
  history : w.history packet.call = story net packet.call fork (.returning given args value)
  fits : (Stage.returning given args value).Fits fork
  rank : packet.rank = fork.origin
  tag : packet.tag = returnMsgTag
  addr : returnAddr.get packet.message = fork.ret.toNat
  value : returnVal.get packet.message = value.toNat

structure Waiting (w : World net) (job : Job) (fork : Fork net.Action) (given : List UInt8) :
    Prop where
  made : Made w job.call fork
  history : w.history job.call = story net job.call fork (.waiting given)
  rank : job.rank = fork.rank
  task : ∃ helper block message, called job.task = some (helper, .own block) ∧
    block < (w.locales job.rank).next ∧ Carries net message fork given ∧
    (w.locales job.rank).memory.read message.length (.own block) = message

def CallerFits (w : World net) (caller : Caller) : Prop := ∃ fork, Calling w caller fork

def PacketFits (w : World net) (packet : Packet) : Prop :=
  (∃ fork given, Travelling w packet fork given) ∨
    ∃ fork given args value, Returning w packet fork given args value

def JobFits (w : World net) (job : Job) : Prop := ∃ fork given, Waiting w job fork given

def Finished (w : World net) (call : Nat) (fork : Fork net.Action) : Prop :=
  ∃ given args value, w.history call = story net call fork (.finished given args value) ∧
    (Stage.finished given args value).Fits fork

inductive Placed (w : World net) (call : Nat) (fork : Fork net.Action) : Prop where
  | calling {caller : Caller} : caller ∈ w.callers → caller.call = call → Placed w call fork
  | inFlight {packet : Packet} : packet ∈ w.inFlight → packet.call = call → Placed w call fork
  | waiting {job : Job} : job ∈ w.tasks → job.call = call → Placed w call fork
  | finished : Finished w call fork → Placed w call fork

structure Words (w : World net) (rank : Nat) : Prop where
  clear : (w.locales rank).Clear
  empty : ∀ key, qalign key = key → (w.locales rank).isEmpty (net.topology rank) key = emptyAt rank key w.log

structure Inv (w : World net) : Prop where
  callers : Tracked w.callers Caller.call (CallerFits w)
  packets : Tracked w.inFlight Packet.call (PacketFits w)
  jobs : Tracked w.tasks Job.call (JobFits w)
  placed : ∀ (call : Nat) fork, w.calls[call]? = some fork → Placed w call fork
  logged : ∀ event ∈ w.log, event.call < w.calls.length
  words : ∀ rank, Words w rank

structure Concerns (call : Nat) (w after : World net) : Prop where
  calls : ∀ (other : Nat) fork, w.calls[other]? = some fork → after.calls[other]? = some fork
  history : ∀ other, other ≠ call → after.history other = w.history other
  blocks : ∀ rank, ∀ block < (w.locales rank).next,
    (after.locales rank).blocks block = (w.locales rank).blocks block ∧
      block < (after.locales rank).next

section Frame

variable {w after : World net} {call : Nat}

section

variable (concerns : Concerns call w after)
include concerns

theorem Made.frame {other : Nat} {fork : Fork net.Action}
    (made : Made w other fork) : Made after other fork :=
  ⟨concerns.calls other fork made.listed, made.origin, made.rank, made.short⟩

theorem CallerFits.frame {caller : Caller}
    (other : caller.call ≠ call) (fits : CallerFits w caller) : CallerFits after caller := by
  obtain ⟨fork, calling⟩ := fits
  exact ⟨fork, calling.made.frame concerns, (concerns.history _ other).trans calling.history,
    calling.origin, calling.rank, calling.ret, calling.argLen, calling.uid⟩

theorem PacketFits.frame {packet : Packet}
    (other : packet.call ≠ call) (fits : PacketFits w packet) : PacketFits after packet := by
  rcases fits with ⟨fork, given, travelling⟩ | ⟨fork, given, args, value, returning⟩
  · exact .inl ⟨fork, given, travelling.made.frame concerns,
      (concerns.history _ other).trans travelling.history, travelling.rank, travelling.tag,
      travelling.carries⟩
  · exact .inr ⟨fork, given, args, value, returning.made.frame concerns,
      (concerns.history _ other).trans returning.history, returning.fits, returning.rank,
      returning.tag, returning.addr, returning.value⟩

theorem JobFits.frame {job : Job}
    (other : job.call ≠ call) (fits : JobFits w job) : JobFits after job := by
  obtain ⟨fork, given, waiting⟩ := fits
  obtain ⟨helper, block, message, calls, below, carries, holds⟩ := waiting.task
  obtain ⟨same, still⟩ := concerns.blocks job.rank block below
  refine ⟨fork, given, waiting.made.frame concerns,
    (concerns.history _ other).trans waiting.history, waiting.rank, helper, block, message, calls,
    still, carries, ?_⟩
  have bytes : (after.locales job.rank).memory.read message.length (.own block) =
      (w.locales job.rank).memory.read message.length (.own block) := by
    simp only [Spawn.Memory.read, Locale.memory, same]
  exact bytes.trans holds

theorem Finished.frame {other : Nat} {fork : Fork net.Action}
    (differs : other ≠ call) (finished : Finished w other fork) : Finished after other fork := by
  obtain ⟨given, args, value, history, fits⟩ := finished
  exact ⟨given, args, value, (concerns.history other differs).trans history, fits⟩

end

end Frame

theorem history_append {w after : World net} {events : List Event} {call : Nat}
    (log : after.log = w.log ++ events) (named : ∀ event ∈ events, event.call = call) :
    after.history call = w.history call ++ events ∧
      ∀ other, other ≠ call → after.history other = w.history other := by
  constructor
  · rw [World.history, World.history, log, List.filter_append]
    refine congrArg _ (List.filter_eq_self.mpr ?_)
    intro event listed
    exact decide_eq_true (named event listed)
  · intro other differs
    rw [World.history, World.history, log, List.filter_append]
    have empty : events.filter (fun event => event.call = other) = [] := by
      refine List.filter_eq_nil_iff.mpr ?_
      intro event listed found
      exact differs ((of_decide_eq_true found).symm.trans (named event listed))
    rw [empty, List.append_nil]

theorem CallerFits.length {w : World net} {caller : Caller} (fits : CallerFits w caller) :
    (w.history caller.call).length = 1 := by
  obtain ⟨fork, calling⟩ := fits
  rw [calling.history]
  rfl

theorem PacketFits.length {w : World net} {packet : Packet} (fits : PacketFits w packet) :
    (w.history packet.call).length = 2 ∨ (w.history packet.call).length = 5 := by
  rcases fits with ⟨fork, given, travelling⟩ | ⟨fork, given, args, value, returning⟩
  · rw [travelling.history]
    exact .inl rfl
  · rw [returning.history]
    exact .inr rfl

theorem JobFits.length {w : World net} {job : Job} (fits : JobFits w job) :
    (w.history job.call).length = 3 := by
  obtain ⟨fork, given, waiting⟩ := fits
  rw [waiting.history]
  rfl

structure Turn (call : Nat) (w after : World net) : Prop extends Concerns call w after where
  old : ∀ (other : Nat) fork, other ≠ call → after.calls[other]? = some fork →
    w.calls[other]? = some fork
  callers : ∀ caller ∈ w.callers, caller.call ≠ call → caller ∈ after.callers
  packets : ∀ packet ∈ w.inFlight, packet.call ≠ call → packet ∈ after.inFlight
  jobs : ∀ job ∈ w.tasks, job.call ≠ call → job ∈ after.tasks

theorem Turn.placed {w after : World net} {call : Nat} (turn : Turn call w after) (inv : Inv w)
    (here : ∀ fork, after.calls[call]? = some fork → Placed after call fork) (other : Nat)
    (fork : Fork net.Action) (listed : after.calls[other]? = some fork) :
    Placed after other fork := by
  by_cases same : other = call
  · rw [same] at listed ⊢
    exact here fork listed
  · cases inv.placed other fork (turn.old other fork same listed) with
    | calling member names => exact .calling (turn.callers _ member (names ▸ same)) names
    | inFlight member names => exact .inFlight (turn.packets _ member (names ▸ same)) names
    | waiting member names => exact .waiting (turn.jobs _ member (names ▸ same)) names
    | finished finished => exact .finished (finished.frame turn.toConcerns same)

inductive Passed {Item : Type} (number : Item → Nat) (call : Nat) (Fits : Item → Prop) :
    List Item → List Item → Prop where
  | same {items} : (∀ other ∈ items, number other ≠ call) → Passed number call Fits items items
  | left {before item after} : number item = call →
      Passed number call Fits (before ++ item :: after) (before ++ after)
  | came {items item} : (∀ other ∈ items, number other ≠ call) → number item = call →
      Fits item → Passed number call Fits items (items ++ [item])

namespace Passed

variable {Item : Type} {number : Item → Nat} {call : Nat} {Fits Next : Item → Prop}
  {items later : List Item}

theorem keeps (passed : Passed number call Next items later) :
    ∀ other ∈ items, number other ≠ call → other ∈ later := by
  intro other listed differs
  cases passed with
  | same => exact listed
  | left own =>
    rcases List.mem_append.mp listed with front | back
    · exact List.mem_append_left _ front
    · refine List.mem_append_right _ ((List.mem_cons.mp back).resolve_left ?_)
      exact fun same => differs (same ▸ own)
  | came => exact List.mem_append_left _ listed

theorem tracked (passed : Passed number call Next items later) (tracked : Tracked items number Fits)
    (still : ∀ other, number other ≠ call → Fits other → Next other) :
    Tracked later number Next := by
  cases passed with
  | same apart => exact tracked.mono fun other listed => still other (apart other listed)
  | left own => exact tracked.remove fun other differs => still other (own ▸ differs)
  | came apart own fits =>
    refine (tracked.mono fun other listed => still other (apart other listed)).snoc ?_ fits
    rw [own]
    exact apart

end Passed

theorem Words.same {w after : World net} {rank : Nat} (words : Words w rank)
    (febs : (after.locales rank).feb.febs = (w.locales rank).feb.febs)
    (log : ∀ key, emptyAt rank key after.log = emptyAt rank key w.log) : Words after rank := by
  constructor
  · intro lockbin key m found
    rw [febs] at found
    exact words.clear lockbin key m found
  · intro key aligned
    rw [log, ← words.empty key aligned, Locale.isEmpty, Locale.isEmpty, febs]

theorem emptyAt_append {rank : Nat} {key : UInt64} {log events : List Event}
    (silent : ∀ event ∈ events, event.marks rank key = none) :
    emptyAt rank key (log ++ events) = emptyAt rank key log := by
  induction events generalizing log with
  | nil => rw [List.append_nil]
  | cons event rest ih =>
    have step := @ih (log ++ [event])
      (fun other listed => silent other (List.mem_cons_of_mem _ listed))
    rw [List.append_assoc] at step
    rw [show log ++ event :: rest = log ++ ([event] ++ rest) from rfl, step, emptyAt_snoc,
      silent event List.mem_cons_self]
    rfl

theorem Words.quiet {w after : World net} {rank : Nat} (words : Words w rank)
    {events : List Event} (febs : (after.locales rank).feb.febs = (w.locales rank).feb.febs)
    (log : after.log = w.log ++ events)
    (silent : ∀ key, ∀ event ∈ events, event.marks rank key = none) : Words after rank :=
  words.same febs fun key => by rw [log, emptyAt_append (silent key)]

end Qthreads.Net
