import Qthreads.Net.Story

namespace Qthreads.Net

open Qthreads.Feb (qalign)
open Qthreads.Lib Qthreads.Lib.Bytes
open Function (update update_of_ne update_self)

variable {net : Network}

namespace Network

theorem tables_registered (net : Network) {rank : Nat} (inside : rank < net.worldSize) :
    Registered net.machine (net.tables rank)
      ((net.actions rank).map fun action => (action.1, net.address rank action.2)) := by
  refine (Registered.create net.machine).registerAll _ ?_ (net.registered rank inside)
  intro action listed
  obtain ⟨source, -, rfl⟩ := List.mem_map.mp listed
  exact net.there rank source.2

theorem checks_uid (net : Network) {origin : Nat} (inside : origin < net.worldSize)
    {action : net.Action} (checked : net.checks origin (net.address origin action)) :
    ∃ uid : UInt32, (net.tables origin).ptrToUid.getLocked net.machine (net.address origin action) =
        uid.toUInt64 ∧ bound (net.actions origin) uid = some action := by
  obtain ⟨uid, same, found⟩ :=
    (net.tables_registered inside).action (net.there origin action) checked
  refine ⟨uid, same, ?_⟩
  rw [bound_map] at found
  obtain ⟨other, stands, equal⟩ := Option.map_eq_some_iff.mp found
  rw [stands, net.apart origin equal]

theorem uid_address (net : Network) {origin rank : Nat} (from_ : origin < net.worldSize)
    (inside : rank < net.worldSize) {uid : UInt32} {action : net.Action}
    (stands : bound (net.actions origin) uid = some action) :
    (net.tables rank).uidToPtr.getLocked net.machine uid.toUInt64 = net.address rank action := by
  rw [Hash.Table.getLocked, (net.tables_registered inside).uids, bound_map,
    net.agree rank inside origin from_, stands]
  rfl

theorem checks_of_bound (net : Network) {origin : Nat} (inside : origin < net.worldSize)
    {uid : UInt32} {action : net.Action} (stands : bound (net.actions origin) uid = some action) :
    net.checks origin (net.address origin action) := by
  have registered := net.tables_registered inside
  have listed : bound ((net.actions origin).map fun action =>
      (action.1, net.address origin action.2)) uid = some (net.address origin action) := by
    rw [bound_map, stands]
    rfl
  obtain ⟨value, found⟩ := Option.ne_none_iff_exists'.mp (registered.known _ _ listed)
  obtain ⟨other, -, same, named⟩ := registered.ptrs _ _ found
  have number : (net.tables origin).ptrToUid.getLocked net.machine (net.address origin action) =
      other.toUInt64 := by
    rw [Hash.Table.getLocked, found]
    exact same
  rw [checks, number, Hash.Table.getLocked, registered.uids, named]
  rfl

end Network

theorem bufferSize_room (argLen : Nat) : argsOffset + argLen ≤ bufferSize argLen := by
  rw [bufferSize]
  split
  · rename_i short
    rw [argsOffset, forkMsgSize]
    rw [forkMsgPayload] at short
    omega
  · rw [argsOffset, forkLongMsgSize]
    omega

theorem bufferSize_fits {argLen : Nat} (short : forkLongMsgSize + argLen < 2 ^ 64) :
    bufferSize argLen ≤ 2 ^ 64 := by
  rw [bufferSize]
  split
  · decide
  · exact short.le

variable {w after : World net}

section

variable {fork : Fork net.Action}

theorem Calling.carries {caller : Caller} (calling : Calling w caller fork) {buffer : List UInt8}
    (size : buffer.length = bufferSize caller.argLen) (memory : Spawn.Memory) :
    Carries net
      (forkFields buffer caller.uid caller.ret caller.origin
        (memory.read caller.argLen (.user caller.arg)))
      fork (memory.read caller.argLen (.user caller.arg)) := by
  obtain ⟨uid, number, stands⟩ := calling.uid
  have length : (memory.read caller.argLen (.user caller.arg)).length = fork.argLen :=
    (read_length _ _ _).trans calling.argLen
  rw [calling.argLen] at size
  have room : argsOffset + (memory.read caller.argLen (.user caller.arg)).length ≤
      buffer.length := by
    rw [length, size]
    exact bufferSize_room _
  have short : caller.uid.toNat < 2 ^ 32 := by
    rw [number, UInt32.toNat_toUInt64]
    exact uid.toNat_lt
  have known : caller.origin < 2 ^ 32 := by
    have small := net.small
    have inside := calling.made.origin
    rw [calling.origin]
    omega
  refine ⟨(forkFields_length room short known).trans size, length, uid, stands, ?_⟩
  rw [← number, ← calling.ret, ← calling.origin]
  exact forkFields_msg room short known

variable {given : List UInt8}

theorem Carries.fits {message : List UInt8}
    (carries : Carries net message fork given) (short : forkLongMsgSize + fork.argLen < 2 ^ 64) :
    message ≠ [] ∧ message.length ≤ 2 ^ 64 := by
  have size := carries.size
  have room := bufferSize_room fork.argLen
  constructor
  · intro nothing
    rw [nothing, List.length_nil] at size
    rw [argsOffset] at room
    omega
  · rw [size]
    exact bufferSize_fits short

theorem Travelling.handle {packet : Packet}
    (travelling : Travelling w packet fork given) (start : UInt64) :
    ∃ helper, handle (net.topology packet.rank) (net.argcopySize packet.rank)
        (w.locales packet.rank) packet.tag start packet.message =
      some (((w.locales packet.rank).forkCopyargs (net.argcopySize packet.rank) helper start
        packet.message).1, .task ((w.locales packet.rank).forkCopyargs
          (net.argcopySize packet.rank) helper start packet.message).2) := by
  have size := travelling.carries.size
  rw [Net.handle, travelling.tag, forkTag]
  by_cases short : fork.argLen ≤ forkMsgPayload
  · rw [bufferSize, if_pos short] at size
    refine ⟨.fork, ?_⟩
    rw [if_pos short, if_pos rfl, forkMsgHandler, if_neg (by omega)]
  · refine ⟨.forkLong, ?_⟩
    rw [if_neg short, if_neg (by decide), if_pos rfl]
    rfl

theorem Returning.handle {packet : Packet}
    {args : Nat → UInt8} {value : UInt64} (returning : Returning w packet fork given args value)
    (start : UInt64) :
    handle (net.topology packet.rank) (net.argcopySize packet.rank) (w.locales packet.rank)
        packet.tag start packet.message =
      some ((w.locales packet.rank).writeFConst (net.topology packet.rank) fork.ret value,
        .filled fork.ret value) := by
  rw [Net.handle, returning.tag, if_neg (by decide), if_neg (by decide), if_pos rfl,
    returnMsgHandler]
  simp only [returning.addr, returning.value, UInt64.ofNat_toNat]

theorem Field.get_take (field : Field) (inside : field.inHeader) (message : List UInt8) :
    field.get (message.take argsOffset) = field.get message := by
  rw [Field.get, Field.get, load_take inside]

theorem Waiting.execute {job : Job} (waiting : Waiting w job fork given) :
    ∃ run, Net.execute net.machine (net.tables job.rank) (w.locales job.rank).memory job.task =
        some run ∧
      run.f = net.address fork.rank fork.action ∧ Found run.args given ∧
      run.returnAddr = fork.ret.toNat ∧ run.originNode = fork.origin := by
  obtain ⟨helper, block, message, calls, -, carries, holds⟩ := waiting.task
  obtain ⟨uid, stands, msg⟩ := carries.fields
  have room : argsOffset + given.length ≤ message.length := by
    rw [carries.size, carries.length]
    exact bufferSize_room _
  have header : (w.locales job.rank).memory.read argsOffset (.own block) =
      message.take argsOffset := read_block holds _ (by omega)
  have number : UInt64.ofNat (Net.uid.get message) = uid.toUInt64 := by
    rw [msg.uid, UInt64.ofNat_toNat]
  have code := net.uid_address waiting.made.origin waiting.made.rank stands
  have same : ∀ (helper : Helper) machine tables memory info,
      helper.run machine tables memory info = helperBody machine tables memory info := by
    intro helper _ _ _ _
    cases helper <;> rfl
  rw [Net.execute, calls, Option.bind_some, same, helperBody, header]
  simp only [Field.get_take Net.uid (by decide),
    Field.get_take returnAddr (by decide),
    Field.get_take originNode (by decide), number, waiting.rank, code]
  rw [if_pos (net.there _ _)]
  refine ⟨_, rfl, rfl, ?_, msg.returnAddr, msg.originNode⟩
  intro i inside
  have read := read_block holds (argsOffset + i + 1) (by omega)
  rw [waiting.rank] at read
  have index : argsOffset + i < (message.take (argsOffset + i + 1)).length := by
    rw [List.length_take]
    omega
  have byte : given[i] = message[argsOffset + i] := by
    have args := msg.args
    have there : i < (load message argsOffset given.length).length := by
      rw [args]
      exact inside
    rw [← List.getElem_of_eq args there]
    simp only [Bytes.load, List.getElem_take, List.getElem_drop]
  simp only [read]
  rw [List.getD_eq_getElem _ _ index, List.getElem_take, byte]

theorem concerns_of {call : Nat} {events : List Event} (calls : after.calls = w.calls)
    (log : after.log = w.log ++ events) (named : ∀ event ∈ events, event.call = call)
    (blocks : ∀ rank, ∀ block < (w.locales rank).next,
      (after.locales rank).blocks block = (w.locales rank).blocks block ∧
        block < (after.locales rank).next) : Concerns call w after :=
  ⟨fun _ _ listed => calls ▸ listed, (history_append log named).2, blocks⟩

theorem blocks_same (locales : after.locales = w.locales) (rank block : Nat)
    (below : block < (w.locales rank).next) :
    (after.locales rank).blocks block = (w.locales rank).blocks block ∧
      block < (after.locales rank).next := by
  rw [locales]
  exact ⟨rfl, below⟩

theorem blocks_update {here : Nat} {l : Locale}
    (locales : after.locales = update w.locales here l)
    (frame : ∀ block < (w.locales here).next,
      l.blocks block = (w.locales here).blocks block ∧ block < l.next) (rank block : Nat)
    (below : block < (w.locales rank).next) :
    (after.locales rank).blocks block = (w.locales rank).blocks block ∧
      block < (after.locales rank).next := by
  rw [locales]
  by_cases same : rank = here
  · subst same
    rw [update_self]
    exact frame block below
  · rw [update_of_ne same]
    exact ⟨rfl, below⟩

end

namespace Inv

variable {caller : Caller}

theorem caller_alone (inv : Inv w) (member : caller ∈ w.callers) :
    (∀ other ∈ w.inFlight, other.call ≠ caller.call) ∧
      ∀ other ∈ w.tasks, other.call ≠ caller.call := by
  have alone := (inv.callers.each caller member).length
  constructor
  · intro other listed same
    have length := (inv.packets.each other listed).length
    rw [same] at length
    omega
  · intro other listed same
    have length := (inv.jobs.each other listed).length
    rw [same] at length
    omega

variable {packet : Packet}

theorem packet_alone (inv : Inv w) (member : packet ∈ w.inFlight) :
    (∀ other ∈ w.callers, other.call ≠ packet.call) ∧
      ∀ other ∈ w.tasks, other.call ≠ packet.call := by
  have alone := (inv.packets.each packet member).length
  constructor
  · intro other listed same
    have length := (inv.callers.each other listed).length
    rw [same] at length
    omega
  · intro other listed same
    have length := (inv.jobs.each other listed).length
    rw [same] at length
    omega

theorem job_alone (inv : Inv w) {job : Job} (member : job ∈ w.tasks) :
    (∀ other ∈ w.callers, other.call ≠ job.call) ∧
      ∀ other ∈ w.inFlight, other.call ≠ job.call :=
  ⟨fun _ listed same => (inv.caller_alone listed).2 job member same.symm,
    fun _ listed same => (inv.packet_alone listed).2 job member same.symm⟩

theorem assemble (inv : Inv w) {call : Nat} {events : List Event}
    (concerns : Concerns call w after) (log : after.log = w.log ++ events)
    (named : ∀ event ∈ events, event.call = call) (known : call < after.calls.length)
    (grown : w.calls.length ≤ after.calls.length)
    (old : ∀ (other : Nat) fork, other ≠ call → after.calls[other]? = some fork →
      w.calls[other]? = some fork)
    (callers : Passed Caller.call call (CallerFits after) w.callers after.callers)
    (packets : Passed Packet.call call (PacketFits after) w.inFlight after.inFlight)
    (jobs : Passed Job.call call (JobFits after) w.tasks after.tasks)
    (here : ∀ fork, after.calls[call]? = some fork → Placed after call fork)
    (words : ∀ rank, Words after rank) : Inv after := by
  have turn : Turn call w after := ⟨concerns, old, callers.keeps, packets.keeps, jobs.keeps⟩
  refine ⟨callers.tracked inv.callers fun _ differs fits => fits.frame concerns differs,
    packets.tracked inv.packets fun _ differs fits => fits.frame concerns differs,
    jobs.tracked inv.jobs fun _ differs fits => fits.frame concerns differs,
    turn.placed inv here, ?_, words⟩
  intro event listed
  rw [log] at listed
  rcases List.mem_append.mp listed with old | last
  · exact Nat.lt_of_lt_of_le (inv.logged event old) grown
  · rw [named event last]
    exact known

theorem advance (inv : Inv w) {call : Nat} {events : List Event} {fork : Fork net.Action}
    (made : Made w call fork) (calls : after.calls = w.calls)
    (log : after.log = w.log ++ events) (named : ∀ event ∈ events, event.call = call)
    (concerns : Concerns call w after)
    (callers : Passed Caller.call call (CallerFits after) w.callers after.callers)
    (packets : Passed Packet.call call (PacketFits after) w.inFlight after.inFlight)
    (jobs : Passed Job.call call (JobFits after) w.tasks after.tasks)
    (here : Placed after call fork) (words : ∀ rank, Words after rank) : Inv after := by
  refine inv.assemble concerns log named ?_ (by rw [calls]) (fun _ _ _ listed => calls ▸ listed)
    callers packets jobs ?_ words
  · rw [calls]
    exact (List.getElem?_eq_some_iff.mp made.listed).1
  · intro other listed
    rw [calls, made.listed] at listed
    cases listed
    exact here

theorem send (inv : Inv w) {before rest : List Caller} {buffer : List UInt8}
    (split : w.callers = before ++ caller :: rest)
    (size : buffer.length = bufferSize caller.argLen) {given : List UInt8}
    (read : (w.locales caller.origin).memory.read caller.argLen (.user caller.arg) = given)
    (built : packet = ⟨caller.call, caller.rank, forkTag caller.argLen,
      forkFields buffer caller.uid caller.ret caller.origin given⟩)
    (locales : after.locales = w.locales) (callers : after.callers = before ++ rest)
    (inFlight : after.inFlight = w.inFlight ++ [packet]) (tasks : after.tasks = w.tasks)
    (calls : after.calls = w.calls) (log : after.log = w.log ++ [.sent caller.call given]) :
    Inv after := by
  have member : caller ∈ w.callers := split ▸ List.mem_append_right _ List.mem_cons_self
  obtain ⟨fork, calling⟩ := inv.callers.each caller member
  obtain ⟨apartPacket, apartJob⟩ := inv.caller_alone member
  have carries := calling.carries size (w.locales caller.origin).memory
  rw [read] at carries
  have number : packet.call = caller.call := by rw [built]
  have named : ∀ event ∈ [Event.sent caller.call given], event.call = caller.call :=
    List.forall_mem_singleton.mpr rfl
  have concerns := concerns_of calls log named (blocks_same locales)
  have travelling : Travelling after packet fork given := by
    have history : after.history caller.call =
        story net caller.call fork (.travelling given) := by
      rw [(history_append log named).1, calling.history]
      rfl
    rw [built]
    exact ⟨calling.made.frame concerns, history, calling.rank, by rw [calling.argLen], carries⟩
  refine inv.advance calling.made calls log named concerns ?_ ?_ ?_ ?_ ?_
  · rw [callers, split]
    exact .left rfl
  · rw [inFlight]
    exact .came apartPacket number (.inl ⟨fork, given, travelling⟩)
  · rw [tasks]
    exact .same apartJob
  · refine @Placed.inFlight _ _ _ _ packet ?_ number
    rw [inFlight]
    exact List.mem_append_right _ (List.mem_singleton.mpr rfl)
  · intro rank
    exact (inv.words rank).quiet (by rw [locales]) log fun _ => List.forall_mem_singleton.mpr rfl

variable {before rest : List Packet}

theorem fork (inv : Inv w) {start : UInt64}
    {l : Locale} {task : Task} (split : w.inFlight = before ++ packet :: rest)
    (handled : Net.handle (net.topology packet.rank) (net.argcopySize packet.rank)
      (w.locales packet.rank) packet.tag start packet.message = some (l, .task task))
    (locales : after.locales = update w.locales packet.rank l)
    (callers : after.callers = w.callers) (inFlight : after.inFlight = before ++ rest)
    (tasks : after.tasks = w.tasks ++ [⟨packet.call, packet.rank, task⟩])
    (calls : after.calls = w.calls)
    (log : after.log = w.log ++ [.received packet.call packet.rank]) : Inv after := by
  have member : packet ∈ w.inFlight := split ▸ List.mem_append_right _ List.mem_cons_self
  obtain ⟨apartCaller, apartJob⟩ := inv.packet_alone member
  rcases inv.packets.each packet member with ⟨fork, given, travelling⟩ | ⟨_, _, _, _, returning⟩
  swap
  · rw [returning.handle start] at handled
    cases handled
  obtain ⟨helper, made⟩ := travelling.handle start
  obtain ⟨nonempty, fits⟩ := travelling.carries.fits travelling.made.short
  obtain ⟨block, calls_, fresh, below, holds⟩ := (w.locales packet.rank).forkCopyargs_spec
    (net.argcopySize packet.rank) helper start nonempty fits
  obtain ⟨febs, frame⟩ := (w.locales packet.rank).forkCopyargs_frame
    (net.argcopySize packet.rank) helper start packet.message
  rw [made] at handled
  generalize (w.locales packet.rank).forkCopyargs (net.argcopySize packet.rank) helper start
    packet.message = forked at handled calls_ below holds febs frame
  cases handled
  have named : ∀ event ∈ [Event.received packet.call packet.rank], event.call = packet.call :=
    List.forall_mem_singleton.mpr rfl
  have concerns := concerns_of calls log named (blocks_update locales frame)
  have waiting : Waiting after ⟨packet.call, packet.rank, forked.2⟩ fork given := by
    refine ⟨travelling.made.frame concerns, ?_, travelling.rank, helper, block, packet.message,
      calls_, ?_, travelling.carries, ?_⟩
    · rw [(history_append log named).1, travelling.history, travelling.rank]
      rfl
    · rw [locales, update_self]
      exact below
    · rw [locales, update_self]
      exact holds _ rfl
  refine inv.advance travelling.made calls log named concerns ?_ ?_ ?_ ?_ ?_
  · rw [callers]
    exact .same apartCaller
  · rw [inFlight, split]
    exact .left rfl
  · rw [tasks]
    exact .came apartJob rfl ⟨fork, given, waiting⟩
  · refine @Placed.waiting _ _ _ _ ⟨packet.call, packet.rank, forked.2⟩ ?_ rfl
    rw [tasks]
    exact List.mem_append_right _ (List.mem_singleton.mpr rfl)
  · intro rank
    refine (inv.words rank).quiet ?_ log fun _ => List.forall_mem_singleton.mpr rfl
    rw [locales]
    by_cases same : rank = packet.rank
    · rw [same, update_self, febs]
    · rw [update_of_ne same]

theorem answer (inv : Inv w) {start : UInt64}
    {l : Locale} {addr value : UInt64} (split : w.inFlight = before ++ packet :: rest)
    (spelled : ∀ fork ∈ w.calls, fork.ret ≠ 0 → net.Settled fork.origin fork.ret)
    (handled : Net.handle (net.topology packet.rank) (net.argcopySize packet.rank)
      (w.locales packet.rank) packet.tag start packet.message = some (l, .filled addr value))
    (locales : after.locales = update w.locales packet.rank l)
    (callers : after.callers = w.callers) (inFlight : after.inFlight = before ++ rest)
    (tasks : after.tasks = w.tasks) (calls : after.calls = w.calls)
    (log : after.log = w.log ++ [.filled packet.call packet.rank addr value]) : Inv after := by
  have member : packet ∈ w.inFlight := split ▸ List.mem_append_right _ List.mem_cons_self
  obtain ⟨apartCaller, apartJob⟩ := inv.packet_alone member
  rcases inv.packets.each packet member with ⟨_, _, travelling⟩ | ⟨fork, given, args, _, returning⟩
  · obtain ⟨helper, made⟩ := travelling.handle start
    rw [made] at handled
    cases handled
  rw [returning.handle start] at handled
  cases handled
  obtain ⟨length, found, given_⟩ := returning.fits
  have settled := spelled fork (List.mem_of_getElem? returning.made.listed) given_
  rw [← returning.rank] at settled
  obtain ⟨febs, memory, blocks, next⟩ := Locale.writeFConst_spec (inv.words packet.rank).clear
    settled value
  have named : ∀ event ∈ [Event.filled packet.call packet.rank fork.ret value],
      event.call = packet.call := List.forall_mem_singleton.mpr rfl
  have concerns := concerns_of calls log named
    (blocks_update locales fun block old => by rw [blocks, next]; exact ⟨rfl, old⟩)
  have finished : Finished after packet.call fork := by
    refine ⟨given, args, value, ?_, length, found⟩
    rw [(history_append log named).1, returning.history, returning.rank, story, story,
      if_neg given_]
    rfl
  refine inv.advance returning.made calls log named concerns ?_ ?_ ?_ (.finished finished) ?_
  · rw [callers]
    exact .same apartCaller
  · rw [inFlight, split]
    exact .left rfl
  · rw [tasks]
    exact .same apartJob
  · intro rank
    by_cases same : rank = packet.rank
    · subst same
      constructor
      · rw [locales, update_self]
        exact (inv.words packet.rank).clear.put febs nofun
      · intro key aligned
        rw [locales, update_self, Locale.isEmpty_put _ febs, log, emptyAt_snoc,
          Event.marks]
        by_cases here : key = qalign fork.ret
        · rw [if_pos here, if_pos ⟨rfl, here.symm⟩]
          rfl
        · rw [if_neg here, if_neg (fun both => here both.2.symm)]
          exact (inv.words packet.rank).empty key aligned
    · refine (inv.words rank).same ?_ ?_
      · rw [locales, update_of_ne same]
      · intro key
        rw [log, emptyAt_snoc, Event.marks, if_neg (fun both => same both.1.symm)]
        rfl

theorem silent (inv : Inv w) {before rest : List Job} {job : Job} {run : Invocation}
    {value : UInt64} (split : w.tasks = before ++ job :: rest)
    (executed : execute net.machine (net.tables job.rank) (w.locales job.rank).memory job.task =
      some run)
    (nowhere : run.returnAddr = 0) (locales : after.locales = w.locales)
    (callers : after.callers = w.callers) (inFlight : after.inFlight = w.inFlight)
    (tasks : after.tasks = before ++ rest) (calls : after.calls = w.calls)
    (log : after.log = w.log ++ [.ran job.call job.rank run.f run.args value]) : Inv after := by
  have member : job ∈ w.tasks := split ▸ List.mem_append_right _ List.mem_cons_self
  obtain ⟨apartCaller, apartPacket⟩ := inv.job_alone member
  obtain ⟨fork, given, waiting⟩ := inv.jobs.each job member
  obtain ⟨found, same, code, args, addr, -⟩ := waiting.execute
  rw [same] at executed
  cases executed
  have zero : fork.ret = 0 := by
    rw [nowhere] at addr
    exact UInt64.toNat_inj.mp addr.symm
  have named : ∀ event ∈ [Event.ran job.call job.rank run.f run.args value],
      event.call = job.call := List.forall_mem_singleton.mpr rfl
  have concerns := concerns_of calls log named (blocks_same locales)
  have finished : Finished after job.call fork := by
    refine ⟨given, run.args, value, ?_, ?_, args⟩
    · rw [(history_append log named).1, waiting.history, waiting.rank, code, story, story,
        if_pos zero]
      rfl
    · obtain ⟨_, _, _, _, _, carries, _⟩ := waiting.task
      exact carries.length
  refine inv.advance waiting.made calls log named concerns ?_ ?_ ?_ (.finished finished) ?_
  · rw [callers]
    exact .same apartCaller
  · rw [inFlight]
    exact .same apartPacket
  · rw [tasks, split]
    exact .left rfl
  · intro rank
    exact (inv.words rank).quiet (by rw [locales]) log fun _ => List.forall_mem_singleton.mpr rfl

theorem return_ (inv : Inv w) {before rest : List Job} {job : Job} {run : Invocation}
    {value : UInt64} {buffer : List UInt8} (split : w.tasks = before ++ job :: rest)
    (executed : execute net.machine (net.tables job.rank) (w.locales job.rank).memory job.task =
      some run)
    (somewhere : run.returnAddr ≠ 0) (size : buffer.length = returnMsgSize)
    (built : packet = ⟨job.call, run.originNode, returnMsgTag,
      returnMsg buffer run.returnAddr value⟩)
    (locales : after.locales = w.locales) (callers : after.callers = w.callers)
    (inFlight : after.inFlight = w.inFlight ++ [packet]) (tasks : after.tasks = before ++ rest)
    (calls : after.calls = w.calls)
    (log : after.log = w.log ++ [.ran job.call job.rank run.f run.args value,
      .answered job.call run.originNode value]) : Inv after := by
  have member : job ∈ w.tasks := split ▸ List.mem_append_right _ List.mem_cons_self
  obtain ⟨apartCaller, apartPacket⟩ := inv.job_alone member
  obtain ⟨fork, given, waiting⟩ := inv.jobs.each job member
  obtain ⟨found, same, code, args, addr, node⟩ := waiting.execute
  rw [same] at executed
  cases executed
  have asked : fork.ret ≠ 0 := by
    intro zero
    rw [addr, zero] at somewhere
    exact somewhere rfl
  have number : packet.call = job.call := by rw [built]
  have named : ∀ event ∈ [Event.ran job.call job.rank run.f run.args value,
      .answered job.call run.originNode value], event.call = job.call :=
    List.forall_mem_cons.mpr ⟨rfl, List.forall_mem_singleton.mpr rfl⟩
  have concerns := concerns_of calls log named (blocks_same locales)
  have returning : Returning after packet fork given run.args value := by
    obtain ⟨_, _, _, _, _, carries, _⟩ := waiting.task
    obtain ⟨there, result⟩ := returnMsg_fields value size
      (addr ▸ fork.ret.toNat_lt : run.returnAddr < 2 ^ 64)
    rw [built]
    refine ⟨waiting.made.frame concerns, ?_, ⟨carries.length, args, asked⟩, node, rfl,
      there.trans addr, result⟩
    rw [(history_append log named).1, waiting.history, waiting.rank, code, node]
    rfl
  refine inv.advance waiting.made calls log named concerns ?_ ?_ ?_ ?_ ?_
  · rw [callers]
    exact .same apartCaller
  · rw [inFlight]
    exact .came apartPacket number (.inr ⟨fork, given, run.args, value, returning⟩)
  · rw [tasks, split]
    exact .left rfl
  · refine @Placed.inFlight _ _ _ _ packet ?_ number
    rw [inFlight]
    exact List.mem_append_right _ (List.mem_singleton.mpr rfl)
  · intro rank
    exact (inv.words rank).quiet (by rw [locales]) log fun _ =>
      List.forall_mem_cons.mpr ⟨rfl, List.forall_mem_singleton.mpr rfl⟩

theorem history_new (inv : Inv w) {call : Nat} (new : w.calls.length ≤ call) :
    w.history call = [] := by
  refine List.filter_eq_nil_iff.mpr ?_
  intro event listed same
  have old := inv.logged event listed
  rw [of_decide_eq_true same] at old
  exact absurd old (Nat.not_lt_of_le new)

theorem call (inv : Inv w) {origin rank : Nat} {action : net.Action} {arg ret : UInt64}
    {argLen : Nat} (origin_ : origin < net.worldSize) (rank_ : rank < net.worldSize)
    (short : forkLongMsgSize + argLen < 2 ^ 64)
    (checked : net.checks origin (net.address origin action))
    (built : caller = ⟨w.calls.length, origin, (net.tables origin).ptrToUid.getLocked net.machine
      (net.address origin action), arg, ret, rank, argLen⟩)
    (locales : after.locales = if ret ≠ 0 then update w.locales origin
      ((w.locales origin).empty (net.topology origin) ret) else w.locales)
    (callers : after.callers = w.callers ++ [caller]) (inFlight : after.inFlight = w.inFlight)
    (tasks : after.tasks = w.tasks)
    (calls : after.calls = w.calls ++ [⟨origin, rank, action, ret, argLen⟩])
    (log : after.log = w.log ++ [.called w.calls.length origin ret]) : Inv after := by
  have fresh := inv.history_new (Nat.le_refl w.calls.length)
  have apartCaller : ∀ other ∈ w.callers, other.call ≠ w.calls.length := by
    intro other listed same
    have length := (inv.callers.each other listed).length
    rw [same, fresh] at length
    cases length
  have apartPacket : ∀ other ∈ w.inFlight, other.call ≠ w.calls.length := by
    intro other listed same
    have length := (inv.packets.each other listed).length
    rw [same, fresh] at length
    rcases length with nothing | nothing <;> cases nothing
  have apartJob : ∀ other ∈ w.tasks, other.call ≠ w.calls.length := by
    intro other listed same
    have length := (inv.jobs.each other listed).length
    rw [same, fresh] at length
    cases length
  have number : caller.call = w.calls.length := by rw [built]
  have named : ∀ event ∈ [Event.called w.calls.length origin ret],
      event.call = w.calls.length := List.forall_mem_singleton.mpr rfl
  obtain ⟨memory, blocks, next⟩ := Locale.empty_memory (inv.words origin).clear ret
  have concerns : Concerns w.calls.length w after := by
    refine ⟨?_, (history_append log named).2, ?_⟩
    · intro other fork listed
      rw [calls, List.getElem?_append_left (List.getElem?_eq_some_iff.mp listed).1]
      exact listed
    · split at locales
      · exact blocks_update locales fun block old => by rw [blocks, next]; exact ⟨rfl, old⟩
      · exact blocks_same locales
  have calling : Calling after caller ⟨origin, rank, action, ret, argLen⟩ := by
    rw [built]
    refine ⟨⟨?_, origin_, rank_, short⟩, ?_, rfl, rfl, rfl, rfl, net.checks_uid origin_ checked⟩
    · rw [calls]
      exact List.getElem?_concat_length
    · rw [(history_append log named).1, fresh]
      rfl
  have grown : after.calls.length = w.calls.length + 1 := by
    rw [calls, List.length_append, List.length_singleton]
  refine inv.assemble concerns log named (by omega) (by omega) ?_ ?_ ?_ ?_ ?_ ?_
  · intro other fork differs listed
    rw [calls] at listed
    have inside := (List.getElem?_eq_some_iff.mp listed).1
    rw [List.length_append, List.length_singleton] at inside
    rw [List.getElem?_append_left (by omega)] at listed
    exact listed
  · rw [callers]
    exact .came apartCaller number ⟨_, calling⟩
  · rw [inFlight]
    exact .same apartPacket
  · rw [tasks]
    exact .same apartJob
  · intro _ _
    refine @Placed.calling _ _ _ _ caller ?_ number
    rw [callers]
    exact List.mem_append_right _ (List.mem_singleton.mpr rfl)
  · intro place
    have quiet (away : ¬ (origin = place ∧ ret ≠ 0)) (key : UInt64) :
        emptyAt place key after.log = emptyAt place key w.log := by
      rw [log, emptyAt_snoc, Event.marks, if_neg (fun all => away ⟨all.1, all.2.1⟩)]
      rfl
    by_cases zero : ret = 0
    · rw [if_neg (not_not_intro zero)] at locales
      exact (inv.words place).same (by rw [locales]) (quiet fun both => both.2 zero)
    rw [if_pos zero] at locales
    by_cases same : place = origin
    · subst same
      have febs := @Locale.empty_febs _ (net.topology place) (inv.words place).clear ret
      constructor
      · rw [locales, update_self]
        exact (inv.words place).clear.put febs fun found same => (Option.some.inj same).symm
      · intro key aligned
        rw [locales, update_self, Locale.isEmpty_put _ febs, log, emptyAt_snoc,
          Event.marks]
        by_cases here : key = qalign ret
        · rw [if_pos here, if_pos ⟨rfl, zero, here.symm⟩]
          rfl
        · rw [if_neg here, if_neg (fun all => here all.2.2.symm)]
          exact (inv.words place).empty key aligned
    · refine (inv.words place).same ?_ (quiet fun both => same both.1.symm)
      rw [locales, update_of_ne same]

theorem compute (inv : Inv w) {rank : Nat} {memory : UInt64 → UInt8}
    (locales : after.locales = update w.locales rank
      { w.locales rank with feb := { (w.locales rank).feb with memory } })
    (callers : after.callers = w.callers) (inFlight : after.inFlight = w.inFlight)
    (tasks : after.tasks = w.tasks) (calls : after.calls = w.calls) (log : after.log = w.log) :
    Inv after := by
  have kept : ∀ place, (after.locales place).feb.febs = (w.locales place).feb.febs ∧
      (after.locales place).blocks = (w.locales place).blocks ∧
      (after.locales place).next = (w.locales place).next := by
    intro place
    rw [locales]
    by_cases same : place = rank
    · rw [same, update_self]
      exact ⟨rfl, rfl, rfl⟩
    · rw [update_of_ne same]
      exact ⟨rfl, rfl, rfl⟩
  -- no fork is concerned, so any number that is not in use will do
  have concerns (call : Nat) : Concerns call w after := by
    refine ⟨fun _ _ listed => calls ▸ listed, ?_, ?_⟩
    · intro other _
      rw [World.history, World.history, log]
    · intro place block old
      rw [(kept place).2.1, (kept place).2.2]
      exact ⟨rfl, old⟩
  refine ⟨?_, ?_, ?_, ?_, ?_, ?_⟩
  · rw [callers]
    exact inv.callers.mono fun other _ fits => fits.frame (concerns (other.call + 1)) (by omega)
  · rw [inFlight]
    exact inv.packets.mono fun other _ fits => fits.frame (concerns (other.call + 1)) (by omega)
  · rw [tasks]
    exact inv.jobs.mono fun other _ fits => fits.frame (concerns (other.call + 1)) (by omega)
  · intro call fork listed
    rw [calls] at listed
    cases inv.placed call fork listed with
    | calling member names => exact .calling (callers ▸ member) names
    | inFlight member names => exact .inFlight (inFlight ▸ member) names
    | waiting member names => exact .waiting (tasks ▸ member) names
    | finished finished =>
      exact .finished (finished.frame (concerns (call + 1)) (by omega))
  · intro event listed
    rw [calls]
    rw [log] at listed
    exact inv.logged event listed
  · intro place
    exact (inv.words place).same (kept place).1 (fun key => by rw [log])

theorem internal (inv : Inv w) (spelled : ∀ fork ∈ w.calls, fork.ret ≠ 0 → net.Settled fork.origin fork.ret)
    (step : Internal w after) : Inv after := by
  cases step with
  | send buffer split size => exact inv.send split size rfl rfl rfl rfl rfl rfl rfl rfl
  | fork start split handled => exact inv.fork split handled rfl rfl rfl rfl rfl rfl
  | answer start split handled =>
    exact inv.answer split spelled handled rfl rfl rfl rfl rfl rfl
  | silent value split executed nowhere =>
    exact inv.silent split executed nowhere rfl rfl rfl rfl rfl rfl
  | «return» value buffer split executed somewhere size =>
    exact inv.return_ split executed somewhere size rfl rfl rfl rfl rfl rfl rfl

theorem step (inv : Inv w) (spelled : ∀ fork ∈ w.calls, fork.ret ≠ 0 → net.Settled fork.origin fork.ret)
    (step : Step w after) : Inv after := by
  cases step with
  | call action arg ret argLen origin rank short checked =>
    exact inv.call origin rank short checked rfl rfl rfl rfl rfl rfl rfl
  | compute rank memory => exact inv.compute rfl rfl rfl rfl rfl rfl
  | internal step => exact inv.internal spelled step

end Inv

theorem Initial.inv (initial : Initial w) : Inv w := by
  refine ⟨?_, ?_, ?_, ?_, ?_, ?_⟩
  · rw [initial.callers]
    exact ⟨List.nodup_nil, nofun⟩
  · rw [initial.inFlight]
    exact ⟨List.nodup_nil, nofun⟩
  · rw [initial.tasks]
    exact ⟨List.nodup_nil, nofun⟩
  · intro call fork listed
    rw [initial.calls] at listed
    cases listed
  · rw [initial.log]
    exact nofun
  · intro rank
    constructor
    · intro lockbin key m found
      rw [initial.words] at found
      cases found
    · intro key _
      rw [Locale.isEmpty, initial.words, initial.log]
      rfl

theorem Step.calls (step : Step w after) : ∀ fork ∈ w.calls, fork ∈ after.calls := by
  intro fork listed
  cases step with
  | call => exact List.mem_append_left _ listed
  | compute => exact listed
  | internal step => cases step <;> exact listed

theorem Reachable.inv (reached : Reachable w)
    (spelled : ∀ fork ∈ w.calls, fork.ret ≠ 0 → net.Settled fork.origin fork.ret) : Inv w := by
  induction reached with
  | initial initial => exact initial.inv
  | step _ step ih =>
    have before := fun fork listed => spelled fork (step.calls fork listed)
    exact (ih before).step before step

end Qthreads.Net
