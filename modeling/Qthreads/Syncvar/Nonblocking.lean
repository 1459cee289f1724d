import Mathlib.Tactic.IntervalCases
import Qthreads.Feb.Nonblocking
import Qthreads.Syncvar.Increment

namespace Qthreads.Syncvar

inductive BlockerType where
  | WRITEEF
  | WRITEEF_NB
  | WRITEF
  | READFF
  | READFF_NB
  | READFE
  | READFE_NB
  | FILL
  | EMPTY
  | INCR

/-- `qthread_syncvar_blocker_thread`, which the caller without a qthread waits for. -/
def syncvarBlockerThread (helper : Task) (type : BlockerType) (dest : Bool) (src : UInt64)
    (spin : Spin) (s : Cell) : Result :=
  match type with
  | .READFE => syncvarReadFE helper dest spin s
  | .READFE_NB => syncvarReadFENb dest spin s
  | .READFF => syncvarReadFF helper dest spin s
  | .READFF_NB => syncvarReadFFNb dest spin s
  | .WRITEEF => syncvarWriteEF helper src spin s
  | .WRITEEF_NB => syncvarWriteEFNb src spin s
  | .WRITEF => syncvarWriteF src spin s
  | .FILL => syncvarFill spin s
  | .EMPTY => syncvarEmpty spin s
  | .INCR => callIncrF .external src spin s

inductive SyncvarOp where
  | readFF (dest : Bool)
  | readFE (dest : Bool)
  | writeEF (src : UInt64)

/-- `qthread_syncvar_readFF`, `qthread_syncvar_readFE`, `qthread_syncvar_writeEF`; `me` is the helper
of an external caller. -/
def blockingCall (caller : Caller) (me : Task) (op : SyncvarOp) (spin : Spin) (s : Cell) : Result :=
  match caller, op with
  | .task, .readFF dest => syncvarReadFF me dest spin s
  | .task, .readFE dest => syncvarReadFE me dest spin s
  | .task, .writeEF src => syncvarWriteEF me src spin s
  | .external, .readFF dest => syncvarBlockerThread me .READFF dest 0 spin s
  | .external, .readFE dest => syncvarBlockerThread me .READFE dest 0 spin s
  | .external, .writeEF src =>
    if src >>> 60 != 0 then .error .overflow
    else syncvarBlockerThread me .WRITEEF false src spin s

/-- `qthread_syncvar_readFF_nb`, `qthread_syncvar_readFE_nb`, `qthread_syncvar_writeEF_nb` -/
def nonblockingCall (caller : Caller) (me : Task) (op : SyncvarOp) (spin : Spin) (s : Cell) :
    Result :=
  match caller, op with
  | .task, .readFF dest => syncvarReadFFNb dest spin s
  | .task, .readFE dest => syncvarReadFENb dest spin s
  | .task, .writeEF src => syncvarWriteEFNb src spin s
  | .external, .readFF dest => syncvarBlockerThread me .READFF_NB dest 0 spin s
  | .external, .readFE dest => syncvarBlockerThread me .READFE_NB dest 0 spin s
  | .external, .writeEF src =>
    if src >>> 60 != 0 then .error .overflow
    else syncvarBlockerThread me .WRITEEF_NB false src spin s

/-- The call has returned `QTHREAD_SUCCESS`. -/
def Succeeds (result : Result) : Prop :=
  ∃ after value woken, result = .ok (after, .success value, woken)

/-- The call succeeds just when the blocking one would, in the same way, and fails otherwise. -/
structure Refines (s : Cell) (blocking nonblocking : Result) : Prop where
  success : Succeeds nonblocking ↔ Succeeds blocking
  same : Succeeds nonblocking → nonblocking = blocking
  fails : ¬ Succeeds nonblocking → nonblocking = .ok (s, .opfail, [])

/-- The number fits into the word, and the assertions hold about the waiters that the state
announces. -/
def Complies (op : SyncvarOp) (s : Cell) : Prop :=
  match op with
  | .readFF _ => True
  | .readFE _ => s.word.state = 1 → ∃ m, s.addrstat = some m ∧ assertWriters m = none
  | .writeEF src => src >>> 60 = 0 ∧
      (s.word.state = 3 → ∃ m, s.addrstat = some m ∧ assertReaders m = none)

variable {s : Cell} {blocking nonblocking : Result} {pf sf : Bool}

theorem not_succeeds_blocked {after : Cell} {woken : List Wake} :
    ¬ Succeeds (.ok (after, .blocked, woken)) := by
  rintro ⟨_, _, _, same⟩
  cases same

theorem not_succeeds_error {why : Abort} : ¬ Succeeds (.error why) := nofun

theorem Refines.done (same : nonblocking = blocking) (success : Succeeds nonblocking) :
    Refines s blocking nonblocking := by
  subst same
  exact ⟨Iff.rfl, fun _ => rfl, fun failed => absurd success failed⟩

theorem Refines.failed (failed : nonblocking = .ok (s, .opfail, []))
    (blocks : ¬ Succeeds blocking) : Refines s blocking nonblocking := by
  subst failed
  have fails : ¬ Succeeds (.ok (s, .opfail, [])) := nofun
  exact ⟨⟨fun success => absurd success fails, fun success => absurd success blocks⟩,
    fun success => absurd success fails, fun _ => rfl⟩

theorem not_refines_error {why : Abort} (error : nonblocking = .error why) :
    ¬ Refines s blocking nonblocking := by
  subst error
  intro refines
  have failed := refines.fails nofun
  cases failed

theorem state_cases (word : Word) :
    (∃ pf sf, word.state = stateBits pf sf) ∨
      syncfebAny &&& ((1 : UInt64) <<< word.state) = 0 ∧
        syncfebFull &&& ((1 : UInt64) <<< word.state) = 0 ∧
        syncfebEmpty &&& ((1 : UInt64) <<< word.state) = 0 := by
  have small : word.state.toNat < 8 := by
    have seven : (7 : UInt64).toNat = 2 ^ 3 - 1 := rfl
    rw [Word.state, UInt64.toNat_and, seven, Nat.and_two_pow_sub_one_eq_mod]
    exact Nat.mod_lt _ (by decide)
  generalize word.state = state at small ⊢
  have is : state = UInt64.ofNat state.toNat := (UInt64.ofNat_toNat).symm
  rw [is]
  generalize state.toNat = number at small
  interval_cases number
  · exact .inl ⟨false, false, rfl⟩
  · exact .inl ⟨false, true, rfl⟩
  · exact .inl ⟨true, false, rfl⟩
  · exact .inl ⟨true, true, rfl⟩
  · exact .inr ⟨rfl, rfl, rfl⟩
  · exact .inr ⟨rfl, rfl, rfl⟩
  · exact .inr ⟨rfl, rfl, rfl⟩
  · exact .inr ⟨rfl, rfl, rfl⟩

theorem mwaitc_free_taken (addr : Word) (mask : UInt64) (timeout : Nat)
    (state : addr.state = stateBits pf sf) (inMask : mask &&& ((1 : UInt64) <<< addr.state) ≠ 0) :
    mwaitc addr mask (fun _ => false) timeout =
      { err := { pf := pf, sf := sf }, ret := addr.data, addr := addr.locked } := by
  unfold mwaitc
  rw [if_pos (by simpa using inMask), state]
  cases pf <;> cases sf <;> rfl

theorem mwaitc_free_failed (addr : Word) (mask : UInt64) (timeout : Nat)
    (outside : mask &&& ((1 : UInt64) <<< addr.state) = 0) :
    (mwaitc addr mask (fun _ => false) timeout).err.cf = true := by
  induction timeout with
  | zero =>
    unfold mwaitc
    rw [if_neg (by simpa using outside)]
  | succ timeout ih =>
    unfold mwaitc
    rw [if_neg (by simpa using outside)]
    exact ih

/-- A look for full states, or for empty ones, takes a free word in one of them after any timeout;
it fails on other words, and then a look for any state takes those in a state at all. -/
theorem looks_cases (word : Word) {mask : UInt64} {ready : Bool}
    (masked : mask = (if ready then syncfebEmpty else syncfebFull)) :
    (∃ sf, word.state = stateBits ready sf ∧ ∀ timeout, mwaitc word mask (fun _ => false) timeout =
        { err := { pf := ready, sf := sf }, ret := word.data, addr := word.locked }) ∨
      (∀ timeout, (mwaitc word mask (fun _ => false) timeout).err.cf = true) ∧
        (∀ sf, word.state ≠ stateBits ready sf) ∧
        ((∃ sf, ∀ timeout, mwaitc word syncfebAny (fun _ => false) timeout =
            { err := { pf := !ready, sf := sf }, ret := word.data, addr := word.locked }) ∨
          ∀ timeout, (mwaitc word syncfebAny (fun _ => false) timeout).err.cf = true) := by
  obtain ⟨pf, sf, state⟩ | ⟨zero, noFull, noEmpty⟩ := state_cases word
  · by_cases same : pf = ready
    · subst same
      refine .inl ⟨sf, state, fun timeout => mwaitc_free_taken word mask timeout state ?_⟩
      rw [state, masked]
      cases pf <;> cases sf <;> decide
    · have other : pf = !ready := Bool.eq_not_of_ne same
      subst other
      refine .inr ⟨fun timeout => mwaitc_free_failed word mask timeout ?_, fun sf' => ?_,
        .inl ⟨sf, fun timeout => mwaitc_free_taken word syncfebAny timeout state ?_⟩⟩
      · rw [state, masked]
        cases ready <;> cases sf <;> decide
      · rw [state]
        cases ready <;> cases sf <;> cases sf' <;> decide
      · rw [state]
        cases ready <;> cases sf <;> decide
  · have outside : mask &&& ((1 : UInt64) <<< word.state) = 0 := by
      rw [masked]
      cases ready
      · exact noFull
      · exact noEmpty
    refine .inr ⟨fun timeout => mwaitc_free_failed word mask timeout outside, fun sf state => ?_,
      .inr fun timeout => mwaitc_free_failed word syncfebAny timeout zero⟩
    rw [state] at zero
    exact absurd zero (by cases ready <;> cases sf <;> decide)

theorem readFF_refines (me : Task) (dest : Bool) :
    Refines s (syncvarReadFF me dest .free s) (syncvarReadFFNb dest .free s) := by
  unfold syncvarReadFF syncvarReadFFNb
  by_cases quick : (!Spin.free.load && s.word.lock == 0 && (s.word.state &&& 2) == 0) = true
  · rw [if_pos quick, if_pos quick]
    exact .done rfl ⟨_, _, _, rfl⟩
  · rw [if_neg quick, if_neg quick]
    obtain ⟨sf, -, got⟩ | ⟨failed, -, ⟨sf, got⟩ | refused⟩ :=
      looks_cases s.word (show syncfebFull = if false then syncfebEmpty else syncfebFull from rfl)
    · simp only [Spin.free, got]
      exact .done rfl ⟨_, _, _, rfl⟩
    · simp only [Spin.free, failed, if_true, got, Bool.not_true, Bool.not_false, Bool.false_eq_true,
        if_false]
      exact .failed rfl not_succeeds_blocked
    · simp only [Spin.free, failed, refused, if_true]
      exact .failed rfl not_succeeds_error

theorem waiters_cases {asserts : Addrstat → Option Abort} {result : Result}
    (missing : s.addrstat = none → ∃ why, result = .error why)
    (refused : ∀ m why, s.addrstat = some m → asserts m = some why → result = .error why)
    (passes : ∀ m, s.addrstat = some m → asserts m = none → Succeeds result) :
    Succeeds result ∧ (∃ m, s.addrstat = some m ∧ asserts m = none) ∨
      (∃ why, result = .error why) ∧ ¬ ∃ m, s.addrstat = some m ∧ asserts m = none := by
  cases found : s.addrstat with
  | none => exact .inr ⟨missing found, nofun⟩
  | some m =>
    cases passed : asserts m with
    | none => exact .inl ⟨passes m found passed, m, rfl, passed⟩
    | some why =>
      refine .inr ⟨⟨why, refused m why found passed⟩, ?_⟩
      rintro ⟨other, same, absent⟩
      cases same
      rw [passed] at absent
      cases absent

theorem emptyWaiters_cases (answer : Option UInt64) (locked : Word) (s : Cell) :
    Succeeds (emptyWaiters (.success answer) locked s) ∧
        (∃ m, s.addrstat = some m ∧ assertWriters m = none) ∨
      (∃ why, emptyWaiters (.success answer) locked s = .error why) ∧
        ¬ ∃ m, s.addrstat = some m ∧ assertWriters m = none := by
  refine waiters_cases (fun absent => ⟨.noAddrstat, ?_⟩) (fun m why found failed => ?_)
    fun m found passed => ?_
  · simp only [emptyWaiters, absent]
  · simp only [emptyWaiters, found, failed]
  · simp only [emptyWaiters, found, passed]
    exact ⟨_, _, _, rfl⟩

theorem fillWaiters_cases (val : UInt64) (answer : Option UInt64) (s : Cell) :
    Succeeds (fillWaiters assertReaders val (.success answer) s) ∧
        (∃ m, s.addrstat = some m ∧ assertReaders m = none) ∨
      (∃ why, fillWaiters assertReaders val (.success answer) s = .error why) ∧
        ¬ ∃ m, s.addrstat = some m ∧ assertReaders m = none := by
  refine waiters_cases (fun absent => ⟨.noAddrstat, ?_⟩) (fun m why found failed => ?_)
    fun m found passed => ?_
  · simp only [fillWaiters, absent]
  · simp only [fillWaiters, found, failed]
  · simp only [fillWaiters, found, passed]
    exact ⟨_, _, _, rfl⟩

theorem readFE_refines_iff (me : Task) (dest : Bool) :
    Refines s (syncvarReadFE me dest .free s) (syncvarReadFENb dest .free s) ↔
      (s.word.state = 1 → ∃ m, s.addrstat = some m ∧ assertWriters m = none) := by
  unfold syncvarReadFE syncvarReadFENb
  obtain ⟨sf, state, got⟩ | ⟨failed, apart, ⟨sf, got⟩ | refused⟩ :=
    looks_cases s.word (show syncfebFull = if false then syncfebEmpty else syncfebFull from rfl)
  · simp only [Spin.free, got, Bool.false_eq_true, if_false]
    cases sf with
    | false =>
      refine ⟨fun _ one => ?_, fun _ => .done rfl ⟨_, _, _, rfl⟩⟩
      rw [state] at one
      exact absurd one (by decide)
    | true =>
      simp only [if_true]
      obtain ⟨succeeds, passed⟩ | ⟨⟨why, error⟩, failed⟩ :=
        emptyWaiters_cases (if dest then some s.word.data else none) s.word.locked s
      · exact ⟨fun _ _ => passed, fun _ => .done rfl succeeds⟩
      · exact ⟨fun refines => absurd refines (not_refines_error error),
          fun passed => absurd (passed state) failed⟩
  · simp only [Spin.free, failed, if_true, got, Bool.not_true, Bool.not_false, Bool.false_eq_true,
      if_false]
    exact ⟨fun _ one => absurd one (apart true), fun _ => .failed rfl not_succeeds_blocked⟩
  · simp only [Spin.free, failed, refused, if_true]
    exact ⟨fun _ one => absurd one (apart true), fun _ => .failed rfl not_succeeds_error⟩

theorem writeEF_refines_iff (me : Task) (src : UInt64) :
    Refines s (syncvarWriteEF me src .free s) (syncvarWriteEFNb src .free s) ↔
      src >>> 60 = 0 ∧
        (s.word.state = 3 → ∃ m, s.addrstat = some m ∧ assertReaders m = none) := by
  unfold syncvarWriteEF syncvarWriteEFNb
  by_cases beyond : (src >>> 60 != 0) = true
  · rw [if_pos beyond, if_pos beyond]
    refine ⟨fun refines => absurd refines (not_refines_error rfl), fun both => ?_⟩
    rw [both.1] at beyond
    cases beyond
  · rw [if_neg beyond, if_neg beyond]
    have fits : src >>> 60 = 0 := by simpa using beyond
    obtain ⟨sf, state, got⟩ | ⟨failed, apart, ⟨sf, got⟩ | refused⟩ :=
      looks_cases s.word (show syncfebEmpty = if true then syncfebEmpty else syncfebFull from rfl)
    · simp only [Spin.free, got, Bool.false_eq_true, if_false]
      cases sf with
      | false =>
        refine ⟨fun _ => ⟨fits, fun three => ?_⟩, fun _ => .done rfl ⟨_, _, _, rfl⟩⟩
        rw [state] at three
        exact absurd three (by decide)
      | true =>
        simp only [if_true]
        obtain ⟨succeeds, passed⟩ | ⟨⟨why, error⟩, failed⟩ := fillWaiters_cases src none s
        · exact ⟨fun _ => ⟨fits, fun _ => passed⟩, fun _ => .done rfl succeeds⟩
        · exact ⟨fun refines => absurd refines (not_refines_error error),
            fun passed => absurd (passed.2 state) failed⟩
    · simp only [Spin.free, failed, if_true, got, Bool.not_true, Bool.false_eq_true, if_false]
      exact ⟨fun _ => ⟨fits, fun three => absurd three (apart true)⟩,
        fun _ => .failed rfl not_succeeds_blocked⟩
    · simp only [Spin.free, failed, refused, if_true]
      exact ⟨fun _ => ⟨fits, fun three => absurd three (apart true)⟩,
        fun _ => .failed rfl not_succeeds_error⟩

theorem refines_iff (s : Cell) (caller : Caller) (me : Task) (op : SyncvarOp) :
    Refines s (blockingCall caller me op .free s) (nonblockingCall caller me op .free s) ↔
      Complies op s := by
  cases op with
  | readFF dest => cases caller <;> exact ⟨fun _ => trivial, fun _ => readFF_refines me dest⟩
  | readFE dest => cases caller <;> exact readFE_refines_iff me dest
  | writeEF src =>
    cases caller with
    | task => exact writeEF_refines_iff me src
    | external =>
      rw [blockingCall, nonblockingCall]
      by_cases beyond : (src >>> 60 != 0) = true
      · rw [if_pos beyond, if_pos beyond]
        refine ⟨fun refines => absurd refines (not_refines_error rfl), fun both => ?_⟩
        rw [both.1] at beyond
        cases beyond
      · rw [if_neg beyond, if_neg beyond]
        exact writeEF_refines_iff me src

/-- The calls of both files, on any word or syncvar that nobody has locked. -/
theorem nonblocking_refines_iff [Feb.Topology] (febs : Feb.FebState) (febCaller : Feb.Caller)
    (alloc : Feb.Alloc) (febOp : Feb.FebOp) (s : Cell) (caller : Caller) (me : Task)
    (op : SyncvarOp) :
    (Feb.Refines febCaller febs (Feb.blockingCall febCaller alloc febOp febs)
        (Feb.nonblockingCall febCaller alloc febOp febs) ↔ Feb.Complies febCaller alloc febOp febs) ∧
      (Refines s (blockingCall caller me op .free s) (nonblockingCall caller me op .free s) ↔
        Complies op s) :=
  ⟨Feb.refines_iff febs febCaller alloc febOp, refines_iff s caller me op⟩

/-- The helper of an external `qthread_writeEF_nb` waits on a full word. -/
theorem external_writeEF_nb_blocks : letI := Feb.twoWorkers
    ¬ ∀ (s : Feb.FebState) (caller : Feb.Caller) (alloc : Feb.Alloc) (op : Feb.FebOp),
      alloc.addrstat = true → alloc.addrres = true →
      Feb.Refines caller s (Feb.blockingCall caller alloc op s)
        (Feb.nonblockingCall caller alloc op s) := by
  intro all
  have refines := all ⟨fun _ _ => none, fun _ => 0, fun _ => .unborn, fun _ => [], []⟩ (.external 1)
    ⟨true, true⟩ (.writeEF 8 16) rfl rfl
  have failed := (refines.fails nofun).1
  cases failed

end Qthreads.Syncvar
