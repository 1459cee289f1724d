import Mathlib.Data.UInt
import Qthreads.Qutil.IntLog

namespace Qthreads.Feb

/-- `k.b[3] << 24` is computed in `int` and then widened, so its top bit is smeared. -/
def widen (value : UInt64) : UInt64 :=
  if value < 0x80000000 then value else value ||| 0xffffffff00000000

/-- One line `x = x - y; x = x - z; x = x ^ shifted` of the mixer. -/
def mixed (x y z shifted : UInt64) : UInt64 := (x - y - z) ^^^ shifted

/-- `qt_hash64` on a 64-bit machine. -/
@[irreducible] def qtHash64 (key : UInt64) : UInt64 :=
  let a : UInt64 := 0x9e3779b97f4a7c13
  let b : UInt64 := 0x9e3779b97f4a7c13
  let c : UInt64 := 0xdeadbeefcafebabe + 8
  let a := a + (key &&& 0xffffffff00000000)
  let a := a + widen (key &&& 0xff000000)
  let a := a + (key &&& 0x00ff0000)
  let a := a + (key &&& 0x0000ff00)
  let a := a + (key &&& 0x000000ff)
  let a := mixed a b c (c >>> 43)
  let b := mixed b c a (a <<< 9)
  let c := mixed c a b (b >>> 8)
  let a := mixed a b c (c >>> 38)
  let b := mixed b c a (a <<< 23)
  let c := mixed c a b (b >>> 5)
  let a := mixed a b c (c >>> 35)
  let b := mixed b c a (a <<< 49)
  let c := mixed c a b (b >>> 11)
  let a := mixed a b c (c >>> 12)
  let b := mixed b c a (a <<< 18)
  mixed c a b (b >>> 22)

/-- What `qt_topology_init` finds out before the tables are made.  With more workers than this
the shift of `QTHREAD_LOCKING_STRIPES` leaves the range of an `int`. -/
class Topology where
  nshepherds : Nat
  nworkerspershep : Nat
  someWorkers : 0 < nshepherds * nworkerspershep
  fewWorkers : nshepherds * nworkerspershep < 2 ^ 29

abbrev twoWorkers : Topology where
  nshepherds := 1
  nworkerspershep := 2
  someWorkers := by decide
  fewWorkers := by decide

/-- `QTHREAD_LOCKING_STRIPES` as `qthread_initialize` leaves it. -/
def lockingStripes [Topology] : Nat :=
  2 <<< (Qutil.qtIntLog (Topology.nshepherds * Topology.nworkerspershep) + 1)

def chooseStripe2 [Topology] (addr : UInt64) : UInt64 :=
  qtHash64 addr &&& UInt64.ofNat (lockingStripes - 1)

theorem lockingStripes_eq [Topology] : ∃ bits, 2 ≤ bits ∧ bits < 64 ∧ lockingStripes = 2 ^ bits := by
  have small : Topology.nshepherds * Topology.nworkerspershep < 2 ^ 32 :=
    Nat.lt_trans Topology.fewWorkers (by decide)
  obtain ⟨few, -⟩ := Qutil.qtIntLog_spec (Nat.ne_of_gt Topology.someWorkers) small
  refine ⟨_ + 1 + 1, Nat.le_add_left 2 _, Nat.lt_of_le_of_lt (Nat.add_le_add_right few 2) (by decide), ?_⟩
  rw [lockingStripes, Nat.shiftLeft_eq, Nat.mul_comm, ← Nat.pow_succ]

theorem chooseStripe2_toNat [Topology] (addr : UInt64) :
    (chooseStripe2 addr).toNat = (qtHash64 addr).toNat % lockingStripes := by
  obtain ⟨bits, -, few, power⟩ := lockingStripes_eq
  have below : 2 ^ bits - 1 < 2 ^ 64 :=
    Nat.lt_of_le_of_lt (Nat.sub_le _ _) (Nat.pow_lt_pow_right (by decide) few)
  rw [chooseStripe2, UInt64.toNat_and, UInt64.toNat_ofNat', power, Nat.mod_eq_of_lt below,
    Nat.and_two_pow_sub_one_eq_mod]

/-- `QALIGN` with the alignment check compiled in. -/
def qalign (addr : UInt64) : UInt64 := addr &&& ~~~7

theorem qalign_idem (addr : UInt64) : qalign (qalign addr) = qalign addr := by
  simp only [qalign, UInt64.and_assoc, UInt64.and_self]

theorem qalign_toNat (addr : UInt64) : (qalign addr).toNat = addr.toNat / 8 * 8 := by
  have bound := addr.toNat_lt
  have mask : (~~~7 : UInt64).toNat = (2 ^ 61 - 1) * 2 ^ 3 := by decide
  have shifted : addr.toNat / 8 * 8 = (addr.toNat >>> 3) <<< 3 := by
    rw [Nat.shiftRight_eq_div_pow, Nat.shiftLeft_eq]
  rw [qalign, UInt64.toNat_and, mask, shifted]
  apply Nat.eq_of_testBit_eq
  intro i
  rw [Nat.testBit_and, Nat.testBit_shiftLeft, Nat.testBit_shiftRight, Nat.testBit_mul_two_pow,
    Nat.testBit_two_pow_sub_one]
  by_cases high : 3 ≤ i
  · have back : 3 + (i - 3) = i := by omega
    simp only [high, back, decide_true, Bool.true_and, Bool.and_eq_left_iff_imp, decide_eq_true_eq]
    intro bit
    by_contra beyond
    have larger : 2 ^ 64 ≤ 2 ^ i := Nat.pow_le_pow_right (by decide) (by omega)
    have clear := Nat.testBit_lt_two_pow (Nat.lt_of_lt_of_le bound larger)
    rw [clear] at bit
    cases bit
  · simp [high]

end Qthreads.Feb
