import Mathlib.Data.Nat.Bitwise

namespace Qthreads.Syncvar

/-! The 64-bit word of a `syncvar_t`: one lock bit, three state bits and 60 bits
of data, in that order from the low end. -/

structure Word where
  w : UInt64

namespace Word

def lock (v : Word) : UInt64 := v.w &&& 1

def state (v : Word) : UInt64 := (v.w >>> 1) &&& 7

def data (v : Word) : UInt64 := v.w >>> 4

/-- The word with `u.s.lock` set to one. -/
def locked (v : Word) : Word := ⟨v.w ||| 1⟩

end Word

/-- `BUILD_UNLOCKED_SYNCVAR(data, state)`. -/
def buildUnlockedSyncvar (data state : UInt64) : Word := ⟨(data <<< 4) ||| (state <<< 1)⟩

/-- `SYNCVAR_INITIALIZE_TO(value)`. -/
def syncvarInitializeTo (value : UInt64) : Word := buildUnlockedSyncvar value 0

/-- `SYNCVAR_EMPTY_INITIALIZE_TO(value)`. -/
def syncvarEmptyInitializeTo (value : UInt64) : Word := buildUnlockedSyncvar value 2

variable {data state : UInt64}

/-- The data and the state do not overlap; data bits above the sixtieth are lost. -/
private theorem buildUnlockedSyncvar_toNat (small : state.toNat < 8) :
    (buildUnlockedSyncvar data state).w.toNat = 16 * (data.toNat % 2 ^ 60) + 2 * state.toNat := by
  have low : state.toNat <<< 1 % 2 ^ 64 = 2 * state.toNat := by
    rw [Nat.shiftLeft_eq]
    omega
  have high : data.toNat <<< 4 % 2 ^ 64 = (data.toNat % 2 ^ 60) <<< 4 := by
    rw [Nat.shiftLeft_eq, Nat.shiftLeft_eq]
    omega
  have below : 2 * state.toNat < 2 ^ 4 := by omega
  have four : (4 : UInt64).toNat % 64 = 4 := rfl
  have one : (1 : UInt64).toNat % 64 = 1 := rfl
  simp only [buildUnlockedSyncvar, UInt64.toNat_or, UInt64.toNat_shiftLeft]
  rw [four, one, low, high, ← Nat.shiftLeft_add_eq_or_of_lt below, Nat.shiftLeft_eq]
  omega

theorem buildUnlockedSyncvar_lock (small : state.toNat < 8) :
    (buildUnlockedSyncvar data state).lock = 0 := by
  apply UInt64.toNat.inj
  have one : (1 : UInt64).toNat = 2 ^ 1 - 1 := rfl
  rw [Word.lock, UInt64.toNat_and, buildUnlockedSyncvar_toNat small, one,
    Nat.and_two_pow_sub_one_eq_mod, UInt64.toNat_zero]
  omega

theorem buildUnlockedSyncvar_state (small : state.toNat < 8) :
    (buildUnlockedSyncvar data state).state = state := by
  apply UInt64.toNat.inj
  have one : (1 : UInt64).toNat % 64 = 1 := rfl
  have seven : (7 : UInt64).toNat = 2 ^ 3 - 1 := rfl
  rw [Word.state, UInt64.toNat_and, UInt64.toNat_shiftRight, buildUnlockedSyncvar_toNat small,
    one, seven, Nat.and_two_pow_sub_one_eq_mod, Nat.shiftRight_eq_div_pow]
  omega

theorem buildUnlockedSyncvar_data (small : state.toNat < 8) :
    (buildUnlockedSyncvar data state).data.toNat = data.toNat % 2 ^ 60 := by
  have four : (4 : UInt64).toNat % 64 = 4 := rfl
  rw [Word.data, UInt64.toNat_shiftRight, buildUnlockedSyncvar_toNat small, four,
    Nat.shiftRight_eq_div_pow]
  omega

/-- `(e.pf << 1) | e.sf`. -/
def stateBits (pf sf : Bool) : UInt64 := (pf.toUInt64 <<< 1) ||| sf.toUInt64

@[simp] theorem stateBits_full : stateBits false false = 0 := rfl

@[simp] theorem stateBits_fullWaiters : stateBits false true = 1 := rfl

@[simp] theorem stateBits_empty : stateBits true false = 2 := rfl

@[simp] theorem stateBits_emptyWaiters : stateBits true true = 3 := rfl

theorem stateBits_small (pf sf : Bool) : (stateBits pf sf).toNat < 8 := by
  cases pf <;> cases sf <;> decide

end Qthreads.Syncvar
