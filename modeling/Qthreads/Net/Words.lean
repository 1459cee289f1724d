import Qthreads.Feb.Spelling
import Qthreads.Net.Machine

namespace Qthreads.Net

open Qthreads.Feb (FebState Addrstat Topology qalign chooseStripe2)
open Qthreads.Lib

variable {bytes : List UInt8}

theorem overlay_at {memory : UInt64 → UInt8} {start : UInt64} {i : Nat}
    (inside : i < bytes.length) (fits : bytes.length ≤ 2 ^ 64) :
    overlay memory start bytes (start + UInt64.ofNat i) = bytes[i] := by
  have offset : (start + UInt64.ofNat i - start).toNat = i := by
    rw [UInt64.add_comm, UInt64.add_sub_cancel, UInt64.toNat_ofNat']
    exact Nat.mod_eq_of_lt (by omega)
  rw [overlay, offset, List.getD_eq_getElem bytes _ inside]

theorem overlay_away {memory : UInt64 → UInt8} {start a : UInt64}
    (outside : bytes.length ≤ (a - start).toNat) : overlay memory start bytes a = memory a :=
  List.getD_eq_default bytes _ outside

theorem read_overlay (memory : Spawn.Memory) {start : UInt64} (fits : bytes.length ≤ 2 ^ 64) :
    ({ memory with user := overlay memory.user start bytes } : Spawn.Memory).read bytes.length
      (.user start) = bytes := by
  apply List.ext_getElem
  · rw [Spawn.Memory.read, List.length_map, List.length_range]
  · intro i _ inside
    simp only [Spawn.Memory.read, List.getElem_map, List.getElem_range]
    exact overlay_at inside fits

theorem read_length (memory : Spawn.Memory) (size : Nat) (pointer : Spawn.Pointer) :
    (memory.read size pointer).length = size := by
  cases pointer <;> rw [Spawn.Memory.read, List.length_map, List.length_range]

theorem read_block {memory : Spawn.Memory} {block : Nat} {message : List UInt8}
    (holds : memory.read message.length (.own block) = message) (size : Nat)
    (short : size ≤ message.length) : memory.read size (.own block) = message.take size := by
  conv_rhs => rw [← holds]
  rw [Spawn.Memory.read, Spawn.Memory.read, ← List.map_take, List.take_range,
    Nat.min_eq_left short]

theorem qthreadSpawn_blocks {F : Type} (argcopySize : Nat) (memory : Spawn.Memory)
    (request : Spawn.Request F) {block : Nat} (old : block < memory.next) :
    let after := (Spawn.qthreadSpawn argcopySize memory none request).1
    after.blocks block = memory.blocks block ∧ block < after.next := by
  simp only [Spawn.qthreadSpawn, Spawn.qthreadThreadNew]
  split
  · split
    · exact ⟨Function.update_of_ne (Nat.ne_of_lt old) _ _, Nat.lt_succ_of_lt old⟩
    · exact ⟨Function.update_of_ne (Nat.ne_of_lt (Nat.lt_succ_of_lt old)) _ _,
        Nat.lt_succ_of_lt (Nat.lt_succ_of_lt old)⟩
  · exact ⟨rfl, Nat.lt_succ_of_lt old⟩

namespace Locale

variable (l : Locale) (argcopySize : Nat) (helper : Helper) (start : UInt64) {message : List UInt8}

theorem forkCopyargs_spec (given : message ≠ []) (fits : message.length ≤ 2 ^ 64) :
    let forked := l.forkCopyargs argcopySize helper start message
    ∃ block, called forked.2 = some (helper, .own block) ∧
      l.next ≤ block ∧ block < forked.1.next ∧
      ∀ later : Spawn.Memory, later.blocks block = forked.1.blocks block →
        later.read message.length (.own block) = message := by
  intro forked
  let request : Spawn.Request Helper :=
    { f := helper, arg := start, argSize := message.length, ret := 0, preconds := []
      targetShep := none, feature := 0 }
  have plain : request.feature &&& Spawn.spawnMaskTeams = 0 := UInt32.zero_and
  have spawned := (Spawn.spawnExact_iff argcopySize
    { l.memory with user := overlay l.feb.memory start message } none request .none 0 rfl).mpr
    ⟨nofun, fun starts => absurd plain starts⟩
  obtain ⟨block, own, fresh, below, copied⟩ :=
    spawned.copied (fun zero => given (List.eq_nil_of_length_eq_zero zero))
  obtain ⟨front, whole, once, -⟩ := spawned.delivered.split
  refine ⟨block, ?_, fresh, below, ?_⟩
  · have calls : (Spawn.qthreadWrapper forked.2 0).filter Spawn.Event.calls =
        [.call helper forked.2.arg] := by
      rw [show Spawn.qthreadWrapper forked.2 0 = front ++ [] from whole, List.append_nil]
      exact once
    rw [called, calls, show forked.2.arg = .own block from own]
  · intro later same
    have read := copied later same
    rw [own] at read
    exact read.trans (read_overlay l.memory fits)

theorem forkCopyargs_frame (message : List UInt8) :
    let after := (l.forkCopyargs argcopySize helper start message).1
    after.feb = l.feb ∧ ∀ block < l.next, after.blocks block = l.blocks block ∧ block < after.next :=
  ⟨rfl, fun _ old => qthreadSpawn_blocks argcopySize
    { l.memory with user := overlay l.feb.memory start message } _ old⟩

/-! Only remote forks empty words here, and nobody waits on one: the records that exist are those
of empty words. -/

def hollow : Addrstat := { full := false, EFQ := [], FEQ := [], FFQ := [] }

def Clear (l : Locale) : Prop :=
  ∀ lockbin key m, l.feb.febs lockbin key = some m → m = hollow

def isEmpty (l : Locale) (topology : Topology) (key : UInt64) : Bool := (l.feb.febs (chooseStripe2 key) key).isSome

variable {l : Locale} {topology : Topology}

theorem febStatus_isEmpty (clear : l.Clear) {p : UInt64} (settled : Feb.Settled p) :
    (Feb.qthreadFebStatus p l.feb).2 = .status (!l.isEmpty topology (qalign p)) := by
  have lockbin : Feb.Lookup.febStatus.lockbin p = chooseStripe2 (qalign p) := settled.symm
  rw [Feb.qthreadFebStatus, isEmpty, lockbin]
  cases found : l.feb.febs (chooseStripe2 (qalign p)) (qalign p) with
  | none => rfl
  | some m =>
    rw [clear _ _ _ found]
    rfl

theorem empty_febs (clear : l.Clear) (ret : UInt64) :
    (l.empty topology ret).feb.febs =
      (l.feb.put (chooseStripe2 (qalign ret)) (qalign ret) (some hollow)).febs := by
  rw [empty, Feb.qthreadEmpty, Feb.Lookup.lockbin]
  cases found : l.feb.febs (chooseStripe2 (qalign ret)) (qalign ret) with
  | none => rfl
  | some m =>
    rw [clear _ _ _ found]
    rfl

theorem empty_memory (clear : l.Clear) (ret : UInt64) :
    (l.empty topology ret).feb.memory = l.feb.memory ∧ (l.empty topology ret).blocks = l.blocks ∧
      (l.empty topology ret).next = l.next := by
  rw [empty, Feb.qthreadEmpty, Feb.Lookup.lockbin]
  cases found : l.feb.febs (chooseStripe2 (qalign ret)) (qalign ret) with
  | none => exact ⟨rfl, rfl, rfl⟩
  | some m =>
    rw [clear _ _ _ found]
    exact ⟨rfl, rfl, rfl⟩

def settledRecord : Addrstat := { full := true, EFQ := [], FEQ := [], FFQ := [] }

theorem gotlockFill_hollow (s : FebState) (key : UInt64) :
    (s.gotlockFill (chooseStripe2 key) key hollow).febs = (s.put (chooseStripe2 key) key none).febs ∧
      (s.gotlockFill (chooseStripe2 key) key hollow).memory = s.memory := by
  generalize lockbin : chooseStripe2 key = bin
  have filled : Feb.gotlockFillInner s.nascent key hollow.depth hollow =
      (settledRecord, [.setFull true]) := rfl
  have there : ((s.put bin key (some settledRecord)).emit (.setFull key true)).febs bin key =
      some settledRecord := by
    rw [Feb.FebState.emit_febs, FebState.put_self]
  have unused : settledRecord.unused = true := rfl
  have removeable : (settledRecord.EFQ.isEmpty && settledRecord.FEQ.isEmpty &&
      settledRecord.full) = true := rfl
  have whole : s.gotlockFill bin key hollow =
      ((s.put bin key (some settledRecord)).emit (.setFull key true)).put bin key none := by
    rw [FebState.gotlockFill, filled]
    simp only [FebState.release, removeable, if_true, FebState.perform, FebState.collected,
      FebState.precondLaunch]
    rw [FebState.febRemove, lockbin]
    simp only [there, unused, if_true]
  rw [whole]
  refine ⟨?_, rfl⟩
  funext other k
  rw [FebState.put_febs, FebState.put_febs, Feb.FebState.emit_febs, FebState.put_febs]
  by_cases same : other = bin ∧ k = key
  · rw [if_pos same, if_pos same]
  · rw [if_neg same, if_neg same, if_neg same]

theorem writeFConst_spec (clear : l.Clear) {dest : UInt64} (settled : Feb.Settled dest)
    (value : UInt64) :
    (l.writeFConst topology dest value).feb.febs =
        (l.feb.put (chooseStripe2 (qalign dest)) (qalign dest) none).febs ∧
      (l.writeFConst topology dest value).feb.memory =
        overlay l.feb.memory dest (Bytes.encode 8 value.toNat) ∧
      (l.writeFConst topology dest value).blocks = l.blocks ∧ (l.writeFConst topology dest value).next = l.next := by
  have lockbin : Feb.Lookup.writeF.lockbin dest = chooseStripe2 (qalign dest) := settled.symm
  rw [writeFConst, lockbin]
  cases found : l.feb.febs (chooseStripe2 (qalign dest)) (qalign dest) with
  | none =>
    refine ⟨?_, rfl, rfl, rfl⟩
    funext bin k
    rw [FebState.put_febs]
    by_cases same : bin = chooseStripe2 (qalign dest) ∧ k = qalign dest
    · rw [if_pos same, same.1, same.2]
      exact found
    · rw [if_neg same]
  | some m =>
    have shape := clear _ _ _ found
    obtain ⟨febs, memory⟩ := gotlockFill_hollow
      { l.feb with memory := overlay l.feb.memory dest (Bytes.encode 8 value.toNat) }
      (qalign dest)
    rw [← shape] at febs memory
    exact ⟨febs, memory, rfl, rfl⟩

theorem isEmpty_put {s : FebState} {key other : UInt64} {m : Option Addrstat} (after : Locale)
    (febs : after.feb.febs = (s.put (chooseStripe2 key) key m).febs) :
    after.isEmpty topology other =
      if other = key then m.isSome else (s.febs (chooseStripe2 other) other).isSome := by
  rw [isEmpty, febs, FebState.put_febs]
  by_cases same : other = key
  · rw [if_pos same, if_pos ⟨congrArg chooseStripe2 same, same⟩]
  · rw [if_neg same, if_neg (fun both => same both.2)]

theorem Clear.put (clear : l.Clear) {after : Locale} {key : UInt64} {m : Option Addrstat}
    (febs : after.feb.febs = (l.feb.put (chooseStripe2 key) key m).febs)
    (shape : ∀ found, m = some found → found = hollow) : after.Clear := by
  intro lockbin other found there
  rw [febs, FebState.put_febs] at there
  split at there
  · exact shape found there
  · exact clear lockbin other found there

end Locale

/-- The library of the locale finds this spelling in the stripe of the aligned address. -/
def Network.Settled (net : Network) (rank : Nat) (p : UInt64) : Prop :=
  @Feb.Settled (net.topology rank) p

end Qthreads.Net
