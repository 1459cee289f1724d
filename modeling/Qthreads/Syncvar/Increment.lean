import Qthreads.Syncvar.Coherence

namespace Qthreads.Syncvar

open Qthreads.Lib

/-! `qthread_syncvar_incrF`

A caller without a qthread hands the call to a helper task, whose answer comes back through the
`int retval` of `qthread_syncvar_blocker_t`. -/

inductive Caller where
  | task
  | external

/-- An `int` made of a `uint64_t`, and that made a `uint64_t` again. -/
def intRetval (value : UInt64) : UInt64 :=
  if value &&& 0xffffffff < 0x80000000 then value &&& 0xffffffff
  else (value &&& 0xffffffff) ||| 0xffffffff00000000

/-- `qthread_syncvar_incrF` with the dispatch at its beginning. -/
def callIncrF (caller : Caller) (inc : UInt64) (spin : Spin) (s : Cell) : Result :=
  match caller, syncvarIncrF inc spin s with
  | .external, .ok (after, .success (some newv), woken) =>
    .ok (after, .success (some (intRetval newv)), woken)
  | _, result => result

/-! The state says "empty with waiters" exactly while a reader is queued, whatever calls were made. -/

structure Announced (s : Cell) : Prop where
  defined : ∃ pf sf, s.word.state = stateBits pf sf
  readers : s.word.state = 3 ↔ s.FEQ ≠ [] ∨ s.FFQ ≠ []

variable {s after : Cell} {m : Addrstat} {pf sf : Bool} {val : UInt64} {answer : Answer}
  {woken : List Wake}

theorem stateBits_three : stateBits pf sf = 3 ↔ pf = true ∧ sf = true := by
  cases pf <;> cases sf <;> decide

theorem release_stat (m : Addrstat) :
    ((release m).getD addrstatNew).EFQ = m.EFQ ∧ ((release m).getD addrstatNew).FEQ = m.FEQ ∧
      ((release m).getD addrstatNew).FFQ = m.FFQ := by
  unfold release
  split
  · rename_i empty
    simp only [Bool.and_eq_true, List.isEmpty_iff] at empty
    obtain ⟨⟨efq, feq⟩, ffq⟩ := empty
    simp [syncvarRemove, addrstatNew, efq, feq, ffq]
  · exact ⟨rfl, rfl, rfl⟩

theorem gotlockFill_stat (m : Addrstat) (ret : UInt64) :
    ((syncvarGotlockFill m ret).1.getD addrstatNew).EFQ = m.EFQ ∧
      ((syncvarGotlockFill m ret).1.getD addrstatNew).FEQ = m.FEQ.tail ∧
      ((syncvarGotlockFill m ret).1.getD addrstatNew).FFQ = [] ∧
      (syncvarGotlockFill m ret).2 = (m.FFQ ++ m.FEQ.take 1).map (deliver ret) := by
  obtain ⟨efq, feq, ffq, full⟩ := m
  unfold syncvarGotlockFill
  cases feq with
  | nil =>
    obtain ⟨writers, readers, others⟩ := release_stat ⟨efq, [], [], true⟩
    exact ⟨writers, readers, others, by simp⟩
  | cons x rest =>
    obtain ⟨writers, readers, others⟩ := release_stat ⟨efq, rest, [], true⟩
    exact ⟨writers, readers, others, by simp⟩

variable {stat : Option Addrstat}

theorem announced_build (pf sf : Bool) (readers : pf = true ∧ sf = true ↔
      (stat.getD addrstatNew).FEQ ≠ [] ∨ (stat.getD addrstatNew).FFQ ≠ []) :
    Announced { word := buildUnlockedSyncvar val (stateBits pf sf), addrstat := stat } := by
  have state : (buildUnlockedSyncvar val (stateBits pf sf)).state = stateBits pf sf :=
    buildUnlockedSyncvar_state (stateBits_small pf sf)
  refine ⟨⟨pf, sf, state⟩, ?_⟩
  rw [state, stateBits_three]
  exact readers

theorem announced_waiting
    (readers : (stat.getD addrstatNew).FEQ ≠ [] ∨ (stat.getD addrstatNew).FFQ ≠ []) :
    Announced { word := buildUnlockedSyncvar val 3, addrstat := stat } :=
  announced_build true true ⟨fun _ => readers, fun _ => ⟨rfl, rfl⟩⟩

theorem announced_writer (readers : false = true ∧ true = true ↔
      (stat.getD addrstatNew).FEQ ≠ [] ∨ (stat.getD addrstatNew).FFQ ≠ []) :
    Announced { word := buildUnlockedSyncvar val 1, addrstat := stat } :=
  announced_build false true readers

def Keeps (result : Result) : Prop :=
  ∀ after answer woken, result = .ok (after, answer, woken) → Announced after

theorem keeps_error {why : Abort} : Keeps (.error why) := nofun

theorem keeps_ok (announced : Announced after) : Keeps (.ok (after, answer, woken)) := by
  intro other answer woken same
  cases same
  exact announced

theorem keeps_unlockWith (pf sf : Bool)
    (readers : pf = true ∧ sf = true ↔ s.FEQ ≠ [] ∨ s.FFQ ≠ []) :
    Keeps (unlockWith s val (stateBits pf sf) answer) :=
  keeps_ok (announced_build pf sf readers)

theorem keeps_fillWaiters {asserts : Addrstat → Option Abort} :
    Keeps (fillWaiters asserts val answer s) := by
  unfold fillWaiters
  split
  · exact keeps_error
  · rename_i m found
    split
    · exact keeps_error
    · obtain ⟨-, feq, ffq, -⟩ := gotlockFill_stat m val
      refine keeps_ok (announced_build _ _ ?_)
      rw [feq, ffq]
      cases m.FEQ with
      | nil => simp
      | cons x rest => simp

theorem keeps_emptyWaiters {locked : Word} : Keeps (emptyWaiters answer locked s) := by
  unfold emptyWaiters
  split
  · exact keeps_error
  · rename_i m found
    split
    · exact keeps_error
    · rename_i passed
      simp only [assertWriters, Bool.or_eq_true,
        Bool.not_eq_true'] at passed
      split at passed
      · cases passed
      · rename_i writers
        split at passed
        · cases passed
        · rename_i nothing
          simp only [not_or, Bool.not_eq_false, List.isEmpty_iff] at nothing
          unfold syncvarGotlockEmpty
          cases writer : m.EFQ with
          | nil => exact absurd (by rw [writer]; rfl) writers
          | cons x rest =>
            refine keeps_ok (announced_build _ _ ?_)
            obtain ⟨-, feq, ffq⟩ := release_stat { m with full := false, EFQ := rest }
            rw [feq, ffq]
            simp [nothing.1, nothing.2]

section Calls

variable (announced : Announced s) (state : s.word.state = stateBits pf sf) (me : Task)
  (dest : Bool) (src : UInt64) (spin : Spin)

include announced state

theorem Announced.flags : pf = true ∧ sf = true ↔ s.FEQ ≠ [] ∨ s.FFQ ≠ [] := by
  rw [← stateBits_three, ← state]
  exact announced.readers

theorem Announced.full (full : pf = false) (keep : Bool) :
    false = true ∧ keep = true ↔ s.FEQ ≠ [] ∨ s.FFQ ≠ [] := by
  rw [← announced.flags state, full]
  simp

theorem Announced.noWaiters (unset : sf = false) (empty : Bool) :
    empty = true ∧ false = true ↔ s.FEQ ≠ [] ∨ s.FFQ ≠ [] := by
  rw [← announced.flags state, unset]
  simp

theorem keeps_readFF : Keeps (syncvarReadFF me dest spin s) := by
  unfold syncvarReadFF
  split
  · exact keeps_ok announced
  · rcases mwaitc_cases s.word syncfebFull spin.first initialTimeout state with
      timedOut | ⟨mask, got⟩
    · rcases mwaitc_cases s.word syncfebAny spin.second intMax state with timedOut' | ⟨_, got⟩
      · simp only [timedOut, timedOut', if_true]
        exact keeps_error
      · simp only [timedOut, got, if_true]
        cases pf with
        | false => exact keeps_unlockWith false sf (announced.full state rfl sf)
        | true => exact keeps_ok (announced_waiting (.inr (by simp)))
    · simp only [got]
      cases full_of_mask mask
      exact keeps_unlockWith false sf (announced.full state rfl sf)

theorem keeps_readFFNb : Keeps (syncvarReadFFNb dest spin s) := by
  unfold syncvarReadFFNb
  split
  · exact keeps_ok announced
  · rcases mwaitc_cases s.word syncfebFull spin.first 1 state with timedOut | ⟨mask, got⟩
    · simp only [timedOut, if_true]
      exact keeps_ok announced
    · simp only [got]
      cases full_of_mask mask
      exact keeps_unlockWith false sf (announced.full state rfl sf)

theorem keeps_fill : Keeps (syncvarFill spin s) := by
  unfold syncvarFill
  rcases mwaitc_cases s.word syncfebAny spin.first intMax state with timedOut | ⟨_, got⟩
  · simp only [timedOut, if_true]
    exact keeps_error
  · simp only [got]
    cases pf with
    | false => exact keeps_unlockWith false sf (announced.full state rfl sf)
    | true =>
      cases sf with
      | true => exact keeps_fillWaiters
      | false => exact keeps_unlockWith false false (announced.noWaiters state rfl false)

theorem keeps_empty : Keeps (syncvarEmpty spin s) := by
  unfold syncvarEmpty
  rcases mwaitc_cases s.word syncfebAny spin.first intMax state with timedOut | ⟨_, got⟩
  · simp only [timedOut, if_true]
    exact keeps_error
  · simp only [got]
    cases pf with
    | false =>
      cases sf with
      | true => exact keeps_emptyWaiters
      | false => exact keeps_unlockWith true false (announced.noWaiters state rfl true)
    | true =>
      cases sf with
      | true => exact keeps_unlockWith true true (announced.flags state)
      | false => exact keeps_unlockWith true false (announced.flags state)

theorem keeps_readFE : Keeps (syncvarReadFE me dest spin s) := by
  unfold syncvarReadFE
  rcases mwaitc_cases s.word syncfebFull spin.first initialTimeout state with
    timedOut | ⟨mask, got⟩
  · rcases mwaitc_cases s.word syncfebAny spin.second intMax state with timedOut' | ⟨_, got⟩
    · simp only [timedOut, timedOut', if_true]
      exact keeps_error
    · simp only [timedOut, got, if_true]
      cases pf with
      | false =>
        cases sf with
        | true => exact keeps_emptyWaiters
        | false => exact keeps_unlockWith true false (announced.noWaiters state rfl true)
      | true => exact keeps_ok (announced_waiting (.inl (by simp)))
  · simp only [got]
    cases full_of_mask mask
    cases sf with
    | true => exact keeps_emptyWaiters
    | false => exact keeps_unlockWith true false (announced.noWaiters state rfl true)

theorem keeps_readFENb : Keeps (syncvarReadFENb dest spin s) := by
  unfold syncvarReadFENb
  rcases mwaitc_cases s.word syncfebFull spin.first 1 state with timedOut | ⟨mask, got⟩
  · simp only [timedOut, if_true]
    exact keeps_ok announced
  · simp only [got]
    cases full_of_mask mask
    cases sf with
    | true => exact keeps_emptyWaiters
    | false => exact keeps_unlockWith true false (announced.noWaiters state rfl true)

theorem keeps_writeEF : Keeps (syncvarWriteEF me src spin s) := by
  unfold syncvarWriteEF
  split
  · exact keeps_error
  · rcases mwaitc_cases s.word syncfebEmpty spin.first initialTimeout state with
      timedOut | ⟨mask, got⟩
    · rcases mwaitc_cases s.word syncfebAny spin.second intMax state with timedOut' | ⟨_, got⟩
      · simp only [timedOut, timedOut', if_true]
        exact keeps_error
      · simp only [timedOut, got, if_true]
        cases pf with
        | false => exact keeps_ok (announced_writer (announced.full state rfl true))
        | true =>
          cases sf with
          | true => exact keeps_fillWaiters
          | false => exact keeps_unlockWith false false (announced.noWaiters state rfl false)
    · simp only [got]
      cases empty_of_mask mask
      cases sf with
      | true => exact keeps_fillWaiters
      | false => exact keeps_unlockWith false false (announced.noWaiters state rfl false)

theorem keeps_writeEFNb : Keeps (syncvarWriteEFNb src spin s) := by
  unfold syncvarWriteEFNb
  split
  · exact keeps_error
  · rcases mwaitc_cases s.word syncfebEmpty spin.first 1 state with timedOut | ⟨mask, got⟩
    · simp only [timedOut, if_true]
      exact keeps_ok announced
    · simp only [got]
      cases empty_of_mask mask
      cases sf with
      | true => exact keeps_fillWaiters
      | false => exact keeps_unlockWith false false (announced.noWaiters state rfl false)

theorem keeps_writeF : Keeps (syncvarWriteF src spin s) := by
  unfold syncvarWriteF
  split
  · exact keeps_error
  · rcases mwaitc_cases s.word syncfebAny spin.first intMax state with timedOut | ⟨_, got⟩
    · simp only [timedOut, if_true]
      exact keeps_error
    · simp only [got]
      cases sf with
      | false => cases pf <;> exact keeps_unlockWith false false (announced.noWaiters state rfl false)
      | true =>
        cases pf with
        | true => exact keeps_fillWaiters
        | false => exact keeps_unlockWith false false (announced.full state rfl false)

theorem keeps_incrF : Keeps (syncvarIncrF src spin s) := by
  unfold syncvarIncrF
  rcases mwaitc_cases s.word syncfebAny spin.first intMax state with timedOut | ⟨_, got⟩
  · simp only [timedOut, if_true]
    exact keeps_error
  · simp only [got]
    cases pf with
    | false => exact keeps_unlockWith _ _ (announced.flags state)
    | true =>
      cases sf with
      | true => exact keeps_fillWaiters
      | false => exact keeps_unlockWith _ _ (announced.flags state)

end Calls

theorem Announced.step {call : Call} (announced : Announced s) (taken : Step s call after) :
    Announced after := by
  obtain ⟨pf, sf, state⟩ := announced.defined
  obtain ⟨me, op, spin⟩ := call
  obtain ⟨answer, woken, result⟩ := taken
  cases op with
  | readFF dest => exact keeps_readFF announced state me dest spin after answer woken result
  | readFFNb dest => exact keeps_readFFNb announced state dest spin after answer woken result
  | readFE dest => exact keeps_readFE announced state me dest spin after answer woken result
  | readFENb dest => exact keeps_readFENb announced state dest spin after answer woken result
  | writeEF src => exact keeps_writeEF announced state me src spin after answer woken result
  | writeEFNb src => exact keeps_writeEFNb announced state src spin after answer woken result
  | writeF src => exact keeps_writeF announced state src spin after answer woken result
  | fill => exact keeps_fill announced state spin after answer woken result
  | empty => exact keeps_empty announced state spin after answer woken result
  | incrF inc => exact keeps_incrF announced state inc spin after answer woken result

theorem run_announced {start : Cell} {calls : List Call} (fresh : Fresh start)
    (run : Run Step start calls s) : Announced s := by
  refine run.preserves (fun _ _ _ announced taken => announced.step taken) ?_
  obtain ⟨pf, sf, state, -⟩ := fresh.coherent.flags
  exact ⟨⟨pf, sf, state⟩, fresh.coherent.emptyWaiters⟩

structure Increments (s : Cell) (inc value : UInt64) (after : Cell) (woken : List Wake) : Prop where
  sum : value.toNat = (s.word.data.toNat + inc.toNat) % 2 ^ 60
  stored : after.word.data = value
  delivered : ∀ wake ∈ woken, ∀ stored, wake.stored = some stored → stored = value
  noFFQ : after.FFQ = []
  full : after.word.state &&& 2 = 0 ∨
    ∃ x rest, s.FEQ = x :: rest ∧ after.FEQ = rest ∧ deliver value x ∈ woken

def IncrementsBy (caller : Caller) (inc : UInt64) (spin : Spin) (s : Cell) : Prop :=
  ∃ after value woken, callIncrF caller inc spin s = .ok (after, .success (some value), woken) ∧
    Increments s inc value after woken

def Fits (caller : Caller) (s : Cell) (newv : Nat) : Prop :=
  match caller with
  | .task => newv < 2 ^ 60
  | .external => newv % 2 ^ 60 < 2 ^ 31 ∧ (newv < 2 ^ 60 ∨ ∀ x ∈ s.FFQ, x.addr = false)

theorem mwaitc_any (addr : Word) (busy : Nat → Bool) (timeout : Nat)
    (state : addr.state = stateBits pf sf) :
    (mwaitc addr syncfebAny busy timeout).err.cf = false ↔
      ∃ attempt, attempt ≤ timeout ∧ busy attempt = false := by
  have inMask : (syncfebAny &&& ((1 : UInt64) <<< addr.state)) != 0 := by
    rw [state]
    cases pf <;> cases sf <;> rfl
  induction timeout with
  | zero =>
    unfold mwaitc
    cases free : busy 0 with
    | false => simp [inMask, free]
    | true => simp [free]
  | succ timeout ih =>
    unfold mwaitc
    cases free : busy (timeout + 1) with
    | false =>
      simp only [inMask, Bool.not_false, Bool.and_self, if_true, true_iff]
      exact ⟨timeout + 1, Nat.le_refl _, free⟩
    | true =>
      simp only [Bool.not_true, Bool.false_and, Bool.false_eq_true, if_false]
      refine ih.trans ⟨?_, ?_⟩
      · rintro ⟨attempt, early, unlocked⟩
        exact ⟨attempt, Nat.le_succ_of_le early, unlocked⟩
      · rintro ⟨attempt, early, unlocked⟩
        obtain less | same := Nat.lt_or_eq_of_le early
        · exact ⟨attempt, Nat.le_of_lt_succ less, unlocked⟩
        · rw [same, free] at unlocked
          cases unlocked

theorem intRetval_toNat (value : UInt64) :
    (intRetval value).toNat = value.toNat % 2 ^ 32 ∧ value.toNat % 2 ^ 32 < 2 ^ 31 ∨
      2 ^ 63 ≤ (intRetval value).toNat ∧ 2 ^ 31 ≤ value.toNat % 2 ^ 32 := by
  have low : (value &&& 0xffffffff).toNat = value.toNat % 2 ^ 32 := by
    rw [UInt64.toNat_and]
    exact Nat.and_two_pow_sub_one_eq_mod _ 32
  unfold intRetval
  by_cases small : value &&& 0xffffffff < 0x80000000
  · rw [if_pos small]
    have less := UInt64.lt_iff_toNat_lt.mp small
    rw [low] at less
    exact .inl ⟨low, less⟩
  · rw [if_neg small]
    have more : ¬ (value &&& 0xffffffff).toNat < (0x80000000 : UInt64).toNat :=
      fun less => small (UInt64.lt_iff_toNat_lt.mpr less)
    rw [low] at more
    refine .inr ⟨?_, Nat.le_of_not_lt more⟩
    rw [UInt64.toNat_or]
    have high : (0xffffffff00000000 : UInt64).toNat = 18446744069414584320 := rfl
    have right := @Nat.right_le_or (value &&& 0xffffffff).toNat 18446744069414584320
    rw [high]
    omega

def Caller.receive : Caller → UInt64 → UInt64
  | .task, newv => newv
  | .external, newv => intRetval newv

theorem returned_iff (caller : Caller) (newv : UInt64) :
    (caller.receive newv).toNat = newv.toNat % 2 ^ 60 ↔
    match caller with
    | .task => newv.toNat < 2 ^ 60
    | .external => newv.toNat % 2 ^ 60 < 2 ^ 31 := by
  have bound := newv.toNat_lt
  cases caller with
  | task =>
    show newv.toNat = _ ↔ newv.toNat < _
    omega
  | external =>
    show (intRetval newv).toNat = _ ↔ _ < 2 ^ 31
    obtain ⟨is, small⟩ | ⟨large, beyond⟩ := intRetval_toNat newv
    · omega
    · omega

theorem sum_fits_iff (caller : Caller) (s : Cell) {newv : UInt64} :
    (caller.receive newv).toNat = newv.toNat % 2 ^ 60 ∧
        (∀ x ∈ s.FFQ, x.addr = true → newv.toNat = newv.toNat % 2 ^ 60) ↔
      Fits caller s newv.toNat := by
  rw [returned_iff]
  cases caller with
  | task =>
    constructor
    · exact fun both => both.1
    · intro small
      exact ⟨small, fun _ _ _ => (Nat.mod_eq_of_lt small).symm⟩
  | external =>
    refine and_congr_right fun _ => ?_
    by_cases small : newv.toNat < 2 ^ 60
    · exact ⟨fun _ => .inl small, fun _ _ _ _ => (Nat.mod_eq_of_lt small).symm⟩
    · have differs : newv.toNat ≠ newv.toNat % 2 ^ 60 := by
        have less := Nat.mod_lt newv.toNat (show 0 < 2 ^ 60 by decide)
        omega
      constructor
      · intro asked
        refine .inr fun x member => ?_
        rw [← Bool.not_eq_true]
        exact fun addr => differs (asked x member addr)
      · intro fits x member addr
        obtain less | never := fits
        · exact absurd less small
        · rw [never x member] at addr
          cases addr

theorem callIncrF_ok {inc newv : UInt64} {spin : Spin} (caller : Caller)
    (ran : syncvarIncrF inc spin s = .ok (after, .success (some newv), woken)) :
    callIncrF caller inc spin s = .ok (after, .success (some (caller.receive newv)), woken) := by
  unfold callIncrF
  rw [ran]
  cases caller <;> rfl

theorem callIncrF_error {inc : UInt64} {spin : Spin} {why : Abort} (caller : Caller)
    (failed : syncvarIncrF inc spin s = .error why) :
    callIncrF caller inc spin s = .error why := by
  unfold callIncrF
  rw [failed]
  cases caller <;> rfl

theorem incrF_unlocked (inc : UInt64) {spin : Spin} (state : s.word.state = stateBits pf sf)
    (unlocked : ∃ attempt, attempt ≤ intMax ∧ spin.first attempt = false) :
    syncvarIncrF inc spin s =
      if pf && sf then
        fillWaiters assertReadersIncr (s.word.data + inc) (.success (some (s.word.data + inc))) s
      else
        unlockWith s (s.word.data + inc) (stateBits pf sf) (.success (some (s.word.data + inc))) := by
  have got := (mwaitc_any s.word spin.first intMax state).mpr unlocked
  rcases mwaitc_cases s.word syncfebAny spin.first intMax state with timedOut | ⟨_, is⟩
  · rw [timedOut] at got
    cases got
  · unfold syncvarIncrF
    simp only [is]
    exact if_neg Bool.false_ne_true

theorem incrF_fills (inc : UInt64) {spin : Spin} (announced : Announced s)
    (unlocked : ∃ attempt, attempt ≤ intMax ∧ spin.first attempt = false)
    (notEmpty : s.word.state ≠ 2) (noFEQ : s.FEQ = []) :
    ∃ after, syncvarIncrF inc spin s = .ok (after, .success (some (s.word.data + inc)),
        s.FFQ.map (deliver (s.word.data + inc))) ∧
      after.word.data.toNat = (s.word.data + inc).toNat % 2 ^ 60 ∧ after.FFQ = [] ∧
      after.word.state &&& 2 = 0 := by
  obtain ⟨pf, sf, state⟩ := announced.defined
  have flags := announced.flags state
  rw [incrF_unlocked inc state unlocked]
  cases pf with
  | false =>
    have noFFQ : s.FFQ = [] := by
      by_contra nonempty
      exact absurd (flags.mpr (.inr nonempty)).1 (by decide)
    refine ⟨{ s with word := buildUnlockedSyncvar (s.word.data + inc) (stateBits false sf) }, ?_,
      buildUnlockedSyncvar_data (stateBits_small false sf), noFFQ, ?_⟩
    · rw [noFFQ, if_neg (by simp)]
      rfl
    · rw [buildUnlockedSyncvar_state (stateBits_small false sf)]
      cases sf <;> rfl
  | true =>
    cases sf with
    | false => exact absurd state notEmpty
    | true =>
      have someFFQ : s.FFQ ≠ [] := by
        obtain feq | ffq := flags.mp ⟨rfl, rfl⟩
        · exact absurd noFEQ feq
        · exact ffq
      cases found : s.addrstat with
      | none => exact absurd (by rw [Cell.FFQ, Cell.stat, found]; rfl) someFFQ
      | some m =>
        have queues : s.FEQ = m.FEQ ∧ s.FFQ = m.FFQ := by
          rw [Cell.FEQ, Cell.FFQ, Cell.stat, found]
          exact ⟨rfl, rfl⟩
        rw [queues.1] at noFEQ
        rw [queues.2] at someFFQ
        have passed : assertReadersIncr m = none := by
          simp [assertReadersIncr, noFEQ, someFFQ]
        obtain ⟨-, -, emptied, wakes⟩ := gotlockFill_stat m (s.word.data + inc)
        rw [noFEQ, List.take_nil, List.append_nil] at wakes
        rw [queues.2, ← wakes, if_pos (by rfl), fillWaiters]
        simp only [found, passed, noFEQ]
        refine ⟨_, rfl, buildUnlockedSyncvar_data (stateBits_small false false), emptied, ?_⟩
        show (buildUnlockedSyncvar _ (stateBits false false)).state &&& 2 = 0
        rw [buildUnlockedSyncvar_state (stateBits_small false false)]
        rfl

theorem incrF_leaves_empty (inc : UInt64) {spin : Spin}
    (unlocked : ∃ attempt, attempt ≤ intMax ∧ spin.first attempt = false)
    (empty : s.word.state = 2) :
    ∃ after, syncvarIncrF inc spin s = .ok (after, .success (some (s.word.data + inc)), []) ∧
      after.word.state = 2 := by
  have state : s.word.state = stateBits true false := empty
  rw [incrF_unlocked inc state unlocked]
  exact ⟨_, if_neg (by decide), buildUnlockedSyncvar_state (stateBits_small true false)⟩

/-- The assertions of `incrF` fail on a queued `readFE`. -/
theorem incrF_asserts (inc : UInt64) {spin : Spin} (announced : Announced s)
    (unlocked : ∃ attempt, attempt ≤ intMax ∧ spin.first attempt = false) (someFEQ : s.FEQ ≠ []) :
    ∃ why, syncvarIncrF inc spin s = .error why := by
  have state : s.word.state = stateBits true true := announced.readers.mpr (.inl someFEQ)
  rw [incrF_unlocked inc state unlocked, if_pos (by rfl), fillWaiters]
  cases found : s.addrstat with
  | none => exact ⟨_, rfl⟩
  | some m =>
    have queue : s.FEQ = m.FEQ := by
      rw [Cell.FEQ, Cell.stat, found]
      rfl
    rw [queue] at someFEQ
    have failed : ∃ why, assertReadersIncr m = some why := by
      unfold assertReadersIncr
      split
      · exact ⟨_, rfl⟩
      · rw [if_pos (by simpa using someFEQ)]
        exact ⟨_, rfl⟩
    obtain ⟨why, is⟩ := failed
    exact ⟨why, by simp only [is]⟩

theorem incrF_times_out (inc : UInt64) {spin : Spin} (announced : Announced s)
    (locked : ¬ ∃ attempt, attempt ≤ intMax ∧ spin.first attempt = false) :
    syncvarIncrF inc spin s = .error .timeout := by
  obtain ⟨pf, sf, state⟩ := announced.defined
  have failed : (mwaitc s.word syncfebAny spin.first intMax).err.cf = true := by
    rw [← Bool.not_eq_false]
    exact fun got => locked ((mwaitc_any s.word spin.first intMax state).mp got)
  unfold syncvarIncrF
  simp only [failed, if_true]

theorem incrementsBy_iff {start : Cell} {calls : List Call} (fresh : Fresh start)
    (run : Run Step start calls s) (caller : Caller) (inc : UInt64) (spin : Spin) :
    IncrementsBy caller inc spin s ↔
      (∃ attempt, attempt ≤ intMax ∧ spin.first attempt = false) ∧ s.word.state ≠ 2 ∧ s.FEQ = [] ∧
        Fits caller s (s.word.data + inc).toNat := by
  have announced := run_announced fresh run
  have sum : (s.word.data + inc).toNat % 2 ^ 60 =
      (s.word.data.toNat + inc.toNat) % 2 ^ 60 := by
    rw [UInt64.toNat_add]
    omega
  by_cases unlocked : ∃ attempt, attempt ≤ intMax ∧ spin.first attempt = false
  · by_cases someFEQ : s.FEQ = []
    · by_cases empty : s.word.state = 2
      · obtain ⟨reached, ran, state⟩ := incrF_leaves_empty inc unlocked empty
        constructor
        · intro ⟨after, value, woken, result, done⟩
          rw [callIncrF_ok caller ran] at result
          cases result
          obtain full | ⟨x, rest, is, -⟩ := done.full
          · rw [state] at full
            exact absurd full (by decide)
          · rw [someFEQ] at is
            cases is
        · intro ⟨_, notEmpty, _⟩
          exact absurd empty notEmpty
      · obtain ⟨reached, ran, data, noFFQ, full⟩ := incrF_fills inc announced unlocked empty someFEQ
        rw [← sum_fits_iff caller s]
        constructor
        · intro ⟨after, value, woken, result, done⟩
          rw [callIncrF_ok caller ran] at result
          cases result
          refine ⟨unlocked, empty, someFEQ, done.sum.trans sum.symm, ?_⟩
          intro x member asked
          have wake := done.delivered _ (List.mem_map.mpr ⟨x, member, rfl⟩) (s.word.data + inc)
          exact (congrArg UInt64.toNat (wake (if_pos asked))).trans (done.sum.trans sum.symm)
        · intro ⟨_, _, _, returned, stored⟩
          refine ⟨reached, _, _, callIncrF_ok caller ran, returned.trans sum, ?_, ?_, noFFQ,
            .inl full⟩
          · exact UInt64.toNat.inj (data.trans returned.symm)
          · intro wake member value is
            obtain ⟨x, queued, rfl⟩ := List.mem_map.mp member
            have asked : x.addr = true := by
              by_contra notAsked
              rw [deliver, if_neg notAsked] at is
              cases is
            rw [deliver, if_pos asked] at is
            cases is
            exact UInt64.toNat.inj ((stored x queued asked).trans returned.symm)
    · obtain ⟨why, failed⟩ := incrF_asserts inc announced unlocked someFEQ
      constructor
      · intro ⟨after, value, woken, result, done⟩
        rw [callIncrF_error caller failed] at result
        cases result
      · intro ⟨_, _, noFEQ, _⟩
        exact absurd noFEQ someFEQ
  · have failed := incrF_times_out inc announced unlocked
    constructor
    · intro ⟨after, value, woken, result, done⟩
      rw [callIncrF_error caller failed] at result
      cases result
    · intro ⟨free, _⟩
      exact absurd free unlocked

theorem incrementsBy_full_word :
    IncrementsBy .task 3 .free ⟨syncvarInitializeTo 5, none⟩ ↔
      (∃ attempt, attempt ≤ intMax ∧ Spin.free.first attempt = false) ∧
        (syncvarInitializeTo 5).state ≠ 2 ∧ Cell.FEQ ⟨syncvarInitializeTo 5, none⟩ = [] ∧
        Fits .task ⟨syncvarInitializeTo 5, none⟩ ((syncvarInitializeTo 5).data + 3).toNat :=
  incrementsBy_iff ⟨rfl, 5, .inl rfl⟩ (.nil _) .task 3 .free

/-- An `incrF` of an empty word returns the sum and leaves the word empty. -/
theorem incrF_of_empty_word : ¬ ∀ (start s : Cell) (calls : List Call), Fresh start →
    Run Step start calls s → ∀ (caller : Caller) (inc : UInt64),
      IncrementsBy caller inc .free s := by
  intro all
  obtain ⟨after, value, woken, result, done⟩ :=
    all ⟨syncvarEmptyInitializeTo 5, none⟩ _ [] ⟨rfl, 5, .inr rfl⟩ (.nil _) .task 3
  have unlocked : ∃ attempt, attempt ≤ intMax ∧ Spin.free.first attempt = false :=
    ⟨0, Nat.zero_le _, rfl⟩
  obtain ⟨reached, ran, state⟩ := incrF_leaves_empty 3 unlocked
    (show (⟨syncvarEmptyInitializeTo 5, none⟩ : Cell).word.state = 2 from rfl)
  rw [callIncrF_ok .task ran] at result
  cases result
  obtain full | ⟨x, rest, is, -⟩ := done.full
  · rw [state] at full
    exact absurd full (by decide)
  · cases is

end Qthreads.Syncvar
