import Qthreads.Lib.Run
import Qthreads.Syncvar.Ops

namespace Qthreads.Syncvar

open Qthreads.Lib

/-! The state bits say which of the three queues may hold a task.  `Coherent` is that
relation between two calls; it is an invariant of every call except a `writeF` on
a full word with waiters, which stores state 0 over queued writers, and it keeps
every queue assertion true except those of an `incrF` that meets queued `readFE`s. -/

structure Coherent (s : Cell) : Prop where
  unlocked : s.word.lock = 0
  defined : s.word.state < 4
  noWaiters : s.word.state = 0 ∨ s.word.state = 2 → s.EFQ = [] ∧ s.FEQ = [] ∧ s.FFQ = []
  fullWaiters : s.word.state = 1 ↔ s.EFQ ≠ []
  fullWaiters_only : s.word.state = 1 → s.FEQ = [] ∧ s.FFQ = []
  emptyWaiters : s.word.state = 3 ↔ s.FEQ ≠ [] ∨ s.FFQ ≠ []
  emptyWaiters_only : s.word.state = 3 → s.EFQ = []

def Queued (pf sf : Bool) (m : Addrstat) : Prop :=
  match pf, sf with
  | _, false => m.EFQ = [] ∧ m.FEQ = [] ∧ m.FFQ = []
  | false, true => m.EFQ ≠ [] ∧ m.FEQ = [] ∧ m.FFQ = []
  | true, true => m.EFQ = [] ∧ (m.FEQ ≠ [] ∨ m.FFQ ≠ [])

variable {s after : Cell} {m : Addrstat} {pf sf : Bool} {val : UInt64}

theorem Coherent.flags (coherent : Coherent s) :
    ∃ pf sf, s.word.state = stateBits pf sf ∧ Queued pf sf s.stat := by
  have split : s.word.state = 0 ∨ s.word.state = 1 ∨ s.word.state = 2 ∨ s.word.state = 3 := by
    have small : s.word.state.toNat < 4 := coherent.defined
    have cases : s.word.state.toNat = 0 ∨ s.word.state.toNat = 1 ∨
        s.word.state.toNat = 2 ∨ s.word.state.toNat = 3 := by omega
    rcases cases with value | value | value | value
    · exact .inl (UInt64.toNat.inj value)
    · exact .inr (.inl (UInt64.toNat.inj value))
    · exact .inr (.inr (.inl (UInt64.toNat.inj value)))
    · exact .inr (.inr (.inr (UInt64.toNat.inj value)))
  rcases split with state | state | state | state
  · exact ⟨false, false, state, coherent.noWaiters (.inl state)⟩
  · exact ⟨false, true, state, coherent.fullWaiters.mp state, coherent.fullWaiters_only state⟩
  · exact ⟨true, false, state, coherent.noWaiters (.inr state)⟩
  · exact ⟨true, true, state, coherent.emptyWaiters_only state, coherent.emptyWaiters.mp state⟩

theorem coherent_of_flags (unlocked : s.word.lock = 0) (state : s.word.state = stateBits pf sf)
    (queued : Queued pf sf s.stat) : Coherent s := by
  cases pf <;> cases sf <;> simp only [Queued] at queued <;>
    constructor <;> simp_all [Cell.EFQ, Cell.FEQ, Cell.FFQ]

theorem coherent_build (pf sf : Bool) {stat : Option Addrstat} (queued : Queued pf sf (stat.getD addrstatNew)) :
    Coherent { word := buildUnlockedSyncvar val (stateBits pf sf), addrstat := stat } :=
  coherent_of_flags (buildUnlockedSyncvar_lock (stateBits_small pf sf))
    (buildUnlockedSyncvar_state (stateBits_small pf sf)) queued

theorem mwaitc_cases (addr : Word) (statemask : UInt64) (busy : Nat → Bool) (timeout : Nat)
    (state : addr.state = stateBits pf sf) :
    (mwaitc addr statemask busy timeout).err.cf = true ∨
      statemask &&& ((1 : UInt64) <<< stateBits pf sf) ≠ 0 ∧
        mwaitc addr statemask busy timeout =
          { err := { pf := pf, sf := sf }, ret := addr.data, addr := addr.locked } := by
  induction timeout with
  | zero =>
    unfold mwaitc
    split
    · rename_i taken
      rw [state] at taken
      simp only [Bool.and_eq_true, bne_iff_ne, ne_eq] at taken
      refine .inr ⟨taken.2, ?_⟩
      rw [state]
      cases pf <;> cases sf <;> rfl
    · exact .inl rfl
  | succ timeout ih =>
    unfold mwaitc
    split
    · rename_i taken
      rw [state] at taken
      simp only [Bool.and_eq_true, bne_iff_ne, ne_eq] at taken
      refine .inr ⟨taken.2, ?_⟩
      rw [state]
      cases pf <;> cases sf <;> rfl
    · exact ih

theorem release_queued (queued : Queued pf sf m) : Queued pf sf ((release m).getD addrstatNew) := by
  unfold release
  split
  · rename_i empty
    simp only [Bool.and_eq_true, List.isEmpty_iff] at empty
    obtain ⟨⟨efq, feq⟩, ffq⟩ := empty
    cases pf <;> cases sf <;>
      simp_all [Queued, syncvarRemove, addrstatNew]
  · exact queued

theorem fillWaiters_coherent {asserts : Addrstat → Option Abort} (val : UInt64) (answer : Answer)
    (found : s.addrstat = some m) (writers : m.EFQ = []) (passed : asserts m = none) :
    ∃ after woken, fillWaiters asserts val answer s = .ok (after, answer, woken) ∧
      Coherent after := by
  simp only [fillWaiters, found, passed]
  refine ⟨_, _, rfl, coherent_build _ _ ?_⟩
  unfold syncvarGotlockFill
  cases readers : m.FEQ with
  | nil => exact release_queued ⟨writers, rfl, rfl⟩
  | cons x rest =>
    cases rest with
    | nil => exact release_queued ⟨writers, rfl, rfl⟩
    | cons y rest => exact release_queued ⟨writers, .inl (by simp)⟩

theorem emptyWaiters_coherent (answer : Answer) (locked : Word)
    (found : s.addrstat = some m) (queued : Queued false true m) :
    ∃ after woken, emptyWaiters answer locked s = .ok (after, answer, woken) ∧
      Coherent after := by
  obtain ⟨writers, feq, ffq⟩ := queued
  have passed : assertWriters m = none := by simp [assertWriters, writers, feq, ffq]
  simp only [emptyWaiters, found, passed]
  refine ⟨_, _, rfl, ?_⟩
  unfold syncvarGotlockEmpty
  cases writer : m.EFQ with
  | nil => exact absurd writer writers
  | cons x rest =>
    cases rest with
    | nil => exact coherent_build false false (release_queued ⟨rfl, feq, ffq⟩)
    | cons y rest => exact coherent_build false true (release_queued ⟨by simp, feq, ffq⟩)

/-- What a call must do at a coherent state: reach a coherent state, or stop at an
assertion that is not about the queues. -/
def Sound (result : Result) : Prop :=
  (∃ after answer woken, result = .ok (after, answer, woken) ∧ Coherent after) ∨
    ∃ why : Abort, result = .error why ∧ ¬ why.AboutQueues

theorem sound_timeout : Sound (.error .timeout) := .inr ⟨_, rfl, id⟩

theorem sound_overflow : Sound (.error .overflow) := .inr ⟨_, rfl, id⟩

variable {answer : Answer}

theorem sound_unlockWith (pf sf : Bool) (queued : Queued pf sf s.stat) :
    Sound (unlockWith s val (stateBits pf sf) answer) :=
  .inl ⟨_, _, _, rfl, coherent_build _ _ queued⟩

theorem Queued.found (queued : Queued pf true s.stat) :
    ∃ m, s.addrstat = some m ∧ Queued pf true m := by
  cases stat : s.addrstat with
  | none => cases pf <;> simp [Cell.stat, stat, addrstatNew, Queued] at queued
  | some m => exact ⟨m, rfl, by simpa [Cell.stat, stat] using queued⟩

theorem sound_fillWaiters (queued : Queued true true s.stat) :
    Sound (fillWaiters assertReaders val answer s) := by
  obtain ⟨m, found, writers, readers⟩ := queued.found
  have passed : assertReaders m = none := by
    rcases readers with readers | readers <;> simp [assertReaders, writers, readers]
  obtain ⟨after, woken, result, coherent⟩ := fillWaiters_coherent val answer
    found writers passed
  exact .inl ⟨after, answer, woken, result, coherent⟩

theorem sound_emptyWaiters {locked : Word} (queued : Queued false true s.stat) :
    Sound (emptyWaiters answer locked s) := by
  obtain ⟨m, found, queues⟩ := queued.found
  obtain ⟨after, woken, result, coherent⟩ := emptyWaiters_coherent answer locked
    found queues
  exact .inl ⟨after, answer, woken, result, coherent⟩

theorem sound_empties {locked : Word} (queued : Queued false sf s.stat) :
    Sound (if sf then emptyWaiters answer locked s else unlockWith s val 2 answer) := by
  cases sf with
  | true => exact sound_emptyWaiters queued
  | false => exact sound_unlockWith true false queued

theorem sound_fills (queued : Queued true sf s.stat) :
    Sound (if sf then fillWaiters assertReaders val answer s else unlockWith s val 0 answer) := by
  cases sf with
  | true => exact sound_fillWaiters queued
  | false => exact sound_unlockWith false false queued

theorem full_of_mask (mask : syncfebFull &&& ((1 : UInt64) <<< stateBits pf sf) ≠ 0) :
    pf = false := by
  cases pf with
  | false => rfl
  | true => exact absurd rfl (by cases sf <;> exact mask)

theorem empty_of_mask (mask : syncfebEmpty &&& ((1 : UInt64) <<< stateBits pf sf) ≠ 0) :
    pf = true := by
  cases pf with
  | true => rfl
  | false => exact absurd rfl (by cases sf <;> exact mask)

theorem Queued.pushFFQ {x : Addrres Bool} (queued : Queued true sf m) :
    Queued true true { m with FFQ := x :: m.FFQ } := by
  cases sf <;> simp_all [Queued]

theorem Queued.pushFEQ {x : Addrres Bool} (queued : Queued true sf m) :
    Queued true true { m with FEQ := x :: m.FEQ } := by
  cases sf <;> simp_all [Queued]

theorem Queued.pushEFQ {x : Addrres UInt64} (queued : Queued false sf m) :
    Queued false true { m with EFQ := x :: m.EFQ } := by
  cases sf <;> simp_all [Queued]

section Calls

variable (coherent : Coherent s) (me : Task) (dest : Bool) (src : UInt64) (spin : Spin)
include coherent

theorem syncvarReadFF_sound : Sound (syncvarReadFF me dest spin s) := by
  obtain ⟨pf, sf, state, queued⟩ := coherent.flags
  unfold syncvarReadFF
  split
  · exact .inl ⟨_, _, _, rfl, coherent⟩
  · rcases mwaitc_cases s.word syncfebFull spin.first initialTimeout state with
      timedOut | ⟨mask, got⟩
    · rcases mwaitc_cases s.word syncfebAny spin.second intMax state with timedOut' | ⟨_, got⟩
      · simp only [timedOut, timedOut', if_true]
        exact sound_timeout
      · simp only [timedOut, got, if_true]
        cases pf with
        | false => exact sound_unlockWith _ _ queued
        | true => exact .inl ⟨_, _, _, rfl, coherent_build true true queued.pushFFQ⟩
    · simp only [got]
      cases full_of_mask mask
      exact sound_unlockWith _ _ queued

theorem syncvarReadFFNb_sound : Sound (syncvarReadFFNb dest spin s) := by
  obtain ⟨pf, sf, state, queued⟩ := coherent.flags
  unfold syncvarReadFFNb
  split
  · exact .inl ⟨_, _, _, rfl, coherent⟩
  · rcases mwaitc_cases s.word syncfebFull spin.first 1 state with timedOut | ⟨mask, got⟩
    · simp only [timedOut, if_true]
      exact .inl ⟨_, _, _, rfl, coherent⟩
    · simp only [got]
      cases full_of_mask mask
      exact sound_unlockWith _ _ queued

theorem syncvarFill_sound : Sound (syncvarFill spin s) := by
  obtain ⟨pf, sf, state, queued⟩ := coherent.flags
  unfold syncvarFill
  rcases mwaitc_cases s.word syncfebAny spin.first intMax state with timedOut | ⟨_, got⟩
  · simp only [timedOut, if_true]
    exact sound_timeout
  · simp only [got]
    cases pf with
    | false => exact sound_unlockWith _ _ queued
    | true => exact sound_fills queued

theorem syncvarEmpty_sound : Sound (syncvarEmpty spin s) := by
  obtain ⟨pf, sf, state, queued⟩ := coherent.flags
  unfold syncvarEmpty
  rcases mwaitc_cases s.word syncfebAny spin.first intMax state with timedOut | ⟨_, got⟩
  · simp only [timedOut, if_true]
    exact sound_timeout
  · simp only [got]
    cases pf with
    | false => exact sound_empties queued
    | true =>
      cases sf with
      | true => exact sound_unlockWith true true queued
      | false => exact sound_unlockWith true false queued

theorem syncvarReadFE_sound : Sound (syncvarReadFE me dest spin s) := by
  obtain ⟨pf, sf, state, queued⟩ := coherent.flags
  unfold syncvarReadFE
  rcases mwaitc_cases s.word syncfebFull spin.first initialTimeout state with
    timedOut | ⟨mask, got⟩
  · rcases mwaitc_cases s.word syncfebAny spin.second intMax state with timedOut' | ⟨_, got⟩
    · simp only [timedOut, timedOut', if_true]
      exact sound_timeout
    · simp only [timedOut, got, if_true]
      cases pf with
      | false => exact sound_empties queued
      | true => exact .inl ⟨_, _, _, rfl, coherent_build true true queued.pushFEQ⟩
  · simp only [got]
    cases full_of_mask mask
    exact sound_empties queued

theorem syncvarReadFENb_sound : Sound (syncvarReadFENb dest spin s) := by
  obtain ⟨pf, sf, state, queued⟩ := coherent.flags
  unfold syncvarReadFENb
  rcases mwaitc_cases s.word syncfebFull spin.first 1 state with timedOut | ⟨mask, got⟩
  · simp only [timedOut, if_true]
    exact .inl ⟨_, _, _, rfl, coherent⟩
  · simp only [got]
    cases full_of_mask mask
    exact sound_empties queued

theorem syncvarWriteEF_sound : Sound (syncvarWriteEF me src spin s) := by
  obtain ⟨pf, sf, state, queued⟩ := coherent.flags
  unfold syncvarWriteEF
  split
  · exact sound_overflow
  · rcases mwaitc_cases s.word syncfebEmpty spin.first initialTimeout state with
      timedOut | ⟨mask, got⟩
    · rcases mwaitc_cases s.word syncfebAny spin.second intMax state with timedOut' | ⟨_, got⟩
      · simp only [timedOut, timedOut', if_true]
        exact sound_timeout
      · simp only [timedOut, got, if_true]
        cases pf with
        | false =>
          exact .inl ⟨_, _, _, rfl, coherent_build false true queued.pushEFQ⟩
        | true => exact sound_fills queued
    · simp only [got]
      cases empty_of_mask mask
      exact sound_fills queued

theorem syncvarWriteEFNb_sound : Sound (syncvarWriteEFNb src spin s) := by
  obtain ⟨pf, sf, state, queued⟩ := coherent.flags
  unfold syncvarWriteEFNb
  split
  · exact sound_overflow
  · rcases mwaitc_cases s.word syncfebEmpty spin.first 1 state with timedOut | ⟨mask, got⟩
    · simp only [timedOut, if_true]
      exact .inl ⟨_, _, _, rfl, coherent⟩
    · simp only [got]
      cases empty_of_mask mask
      cases sf with
      | true => exact sound_fillWaiters queued
      | false => exact sound_unlockWith false false queued

/-- The only state a `writeF` handles wrongly is "full with waiters": its last branch
stores state 0 without looking at EFQ. -/
theorem syncvarWriteF_sound (allowed : s.word.state ≠ 1) : Sound (syncvarWriteF src spin s) := by
  obtain ⟨pf, sf, state, queued⟩ := coherent.flags
  unfold syncvarWriteF
  split
  · exact sound_overflow
  · rcases mwaitc_cases s.word syncfebAny spin.first intMax state with timedOut | ⟨_, got⟩
    · simp only [timedOut, if_true]
      exact sound_timeout
    · simp only [got]
      cases sf with
      | false => cases pf <;> exact sound_unlockWith false false queued
      | true =>
        cases pf with
        | true => exact sound_fillWaiters queued
        | false => exact absurd state allowed

theorem syncvarIncrF_sound (allowed : s.FEQ = []) : Sound (syncvarIncrF src spin s) := by
  obtain ⟨pf, sf, state, queued⟩ := coherent.flags
  unfold syncvarIncrF
  rcases mwaitc_cases s.word syncfebAny spin.first intMax state with timedOut | ⟨_, got⟩
  · simp only [timedOut, if_true]
    exact sound_timeout
  · simp only [got]
    cases pf with
    | false => exact sound_unlockWith _ _ queued
    | true =>
      cases sf with
      | false => exact sound_unlockWith _ _ queued
      | true =>
        obtain ⟨m, found, writers, readers⟩ := queued.found
        have noFEQ : m.FEQ = [] := by simpa [Cell.FEQ, Cell.stat, found] using allowed
        have passed : assertReadersIncr m = none := by
          simpa [assertReadersIncr, noFEQ, writers] using readers
        obtain ⟨after, woken, result, coherent⟩ := fillWaiters_coherent
          (s.word.data + src) (.success (some (s.word.data + src)))
          found writers passed
        exact .inl ⟨after, _, woken, result, coherent⟩

end Calls

/-- The two places where the code breaks the invariant are left out: a `writeF` on a
full word with waiters, and an `incrF` on a word with queued `readFE`s. -/
def Allowed (s : Cell) (call : Call) : Prop :=
  match call.op with
  | .writeF _ => s.word.state ≠ 1
  | .incrF _ => s.FEQ = []
  | _ => True

theorem Call.apply_sound {call : Call} (coherent : Coherent s) (allowed : Allowed s call) :
    Sound (call.apply s) := by
  obtain ⟨me, op, spin⟩ := call
  cases op with
  | readFF dest => exact syncvarReadFF_sound coherent me dest spin
  | readFFNb dest => exact syncvarReadFFNb_sound coherent dest spin
  | readFE dest => exact syncvarReadFE_sound coherent me dest spin
  | readFENb dest => exact syncvarReadFENb_sound coherent dest spin
  | writeEF src => exact syncvarWriteEF_sound coherent me src spin
  | writeEFNb src => exact syncvarWriteEFNb_sound coherent src spin
  | writeF src => exact syncvarWriteF_sound coherent src spin allowed
  | fill => exact syncvarFill_sound coherent spin
  | empty => exact syncvarEmpty_sound coherent spin
  | incrF inc => exact syncvarIncrF_sound coherent inc spin allowed

def Fresh (s : Cell) : Prop :=
  s.addrstat = none ∧
    ∃ value, s.word = syncvarInitializeTo value ∨ s.word = syncvarEmptyInitializeTo value

theorem Fresh.coherent (fresh : Fresh s) : Coherent s := by
  obtain ⟨word, stat⟩ := s
  obtain ⟨absent, value, full | empty⟩ := fresh
  · cases absent
    cases full
    exact coherent_build false false ⟨rfl, rfl, rfl⟩
  · cases absent
    cases empty
    exact coherent_build true false ⟨rfl, rfl, rfl⟩

theorem guarded_step_coherent {call : Call} (coherent : Coherent s)
    (taken : Guarded Allowed Step s call after) : Coherent after := by
  obtain ⟨allowed, answer, woken, result⟩ := taken
  rcases call.apply_sound coherent allowed with ⟨reached, _, _, same, kept⟩ | ⟨why, same, _⟩
  · rw [result] at same
    cases same
    exact kept
  · rw [result] at same
    cases same

/-- In a run whose `writeF`s and `incrF`s stay clear of the two bad cases, every state
is coherent, and the next call of the same kind either completes coherently or stops
at an assertion that has nothing to do with the queues. -/
theorem run_coherent {start : Cell} {calls : List Call} (fresh : Fresh start)
    (run : Run (Guarded Allowed Step) start calls s) :
    Coherent s ∧ ∀ call, Allowed s call → Sound (call.apply s) := by
  have coherent : Coherent s :=
    run.preserves (fun _ _ _ kept taken => guarded_step_coherent kept taken) fresh.coherent
  exact ⟨coherent, fun call allowed => call.apply_sound coherent allowed⟩

/-- A writer queued by `writeEF` on a full word is still queued, but no longer
announced by the state, after somebody else's `writeF`; and an `incrF` that meets a
queued `readFE` fails its own assertion. -/
theorem writeF_hides_writer_incrF_asserts :
    (∃ (start last : Cell) (calls : List Call), Fresh start ∧ Run Step start calls last ∧
      last.word.state = 0 ∧ last.EFQ = [⟨7, 1⟩] ∧ ¬ Coherent last) ∧
    (∃ (start last : Cell) (calls : List Call) (call : Call), Fresh start ∧
      Run Step start calls last ∧ Coherent last ∧ call.apply last = .error .noWaiters) := by
  constructor
  · refine ⟨⟨syncvarInitializeTo 5, none⟩, ⟨buildUnlockedSyncvar 9 0, some ⟨[⟨7, 1⟩], [], [], true⟩⟩,
      [⟨1, .writeEF 7, .free⟩, ⟨2, .writeF 9, .free⟩], ⟨rfl, 5, .inl rfl⟩, ?_, rfl, rfl, ?_⟩
    · exact .cons ⟨_, _, rfl⟩ (.cons ⟨_, _, rfl⟩ (.nil _))
    · intro coherent
      have empty := (coherent.noWaiters (.inl rfl)).1
      exact absurd empty (by decide)
  · refine ⟨⟨syncvarEmptyInitializeTo 5, none⟩,
      ⟨buildUnlockedSyncvar 5 3, some ⟨[], [⟨true, 1⟩], [], true⟩⟩,
      [⟨1, .readFE true, .free⟩], ⟨2, .incrF 1, .free⟩, ⟨rfl, 5, .inr rfl⟩, ?_, ?_, rfl⟩
    · exact .cons ⟨_, _, rfl⟩ (.nil _)
    · exact coherent_build true true ⟨rfl, .inl (by decide)⟩

theorem run_coherent_queued_writer :
    Coherent ⟨buildUnlockedSyncvar 5 1, some ⟨[⟨7, 1⟩], [], [], true⟩⟩ ∧
      ∀ call, Allowed ⟨buildUnlockedSyncvar 5 1, some ⟨[⟨7, 1⟩], [], [], true⟩⟩ call →
        Sound (call.apply ⟨buildUnlockedSyncvar 5 1, some ⟨[⟨7, 1⟩], [], [], true⟩⟩) :=
  have run : Run (Guarded Allowed Step) ⟨syncvarInitializeTo 5, none⟩ [⟨1, .writeEF 7, .free⟩]
      ⟨buildUnlockedSyncvar 5 1, some ⟨[⟨7, 1⟩], [], [], true⟩⟩ :=
    .cons ⟨trivial, _, _, rfl⟩ (.nil _)
  run_coherent ⟨rfl, 5, .inl rfl⟩ run

end Qthreads.Syncvar
