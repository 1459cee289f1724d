import Mathlib.Algebra.Group.Int.Defs
import Mathlib.Algebra.Group.Nat.Defs
import Mathlib.Tactic.NormNum

namespace Qthreads.Qutil

/-- `LT(n)` -/
def lt (n : Int) : List Int := List.replicate 16 n

def logTable256 : List Int :=
  [-1, 0, 1, 1, 2, 2, 2, 2, 3, 3, 3, 3, 3, 3, 3, 3] ++
    lt 4 ++ lt 5 ++ lt 5 ++ lt 6 ++ lt 6 ++ lt 6 ++ lt 6 ++
    lt 7 ++ lt 7 ++ lt 7 ++ lt 7 ++ lt 7 ++ lt 7 ++ lt 7 ++ lt 7

/-- A number as a `uint32_t` holds it. -/
def uint32 (value : Int) : Nat := (value % 2 ^ 32).toNat

/-- `QT_INT_LOG` of a `uint32_t` -/
def qtIntLog (v : Nat) : Nat :=
  let tt := v / 2 ^ 16
  if tt ≠ 0 then
    let t := tt / 2 ^ 8
    if t ≠ 0 then uint32 (24 + logTable256.getD t 0) else uint32 (16 + logTable256.getD tt 0)
  else
    let t := v / 2 ^ 8
    if t ≠ 0 then uint32 (8 + logTable256.getD t 0) else uint32 (logTable256.getD v 0)

theorem logTable256_spec : ∀ t < 256, t ≠ 0 → 0 ≤ logTable256.getD t 0 ∧ logTable256.getD t 0 ≤ 7 ∧
      t < 2 ^ ((logTable256.getD t 0).toNat + 1) := by
  have entries : ∀ entry ∈ logTable256.zipIdx, entry.2 ≠ 0 →
      0 ≤ entry.1 ∧ entry.1 ≤ 7 ∧ entry.2 < 2 ^ (entry.1.toNat + 1) := by
    decide +kernel
  intro t small positive
  have inside : t < logTable256.length := Nat.lt_of_lt_of_eq small (by decide +kernel)
  rw [List.getD_eq_getElem?_getD, List.getElem?_eq_getElem inside, Option.getD_some]
  exact entries (logTable256[t], t)
    (List.mk_mem_zipIdx_iff_getElem?.mpr (List.getElem?_eq_getElem inside)) positive

theorem uint32_small {value : Int} (positive : 0 ≤ value) (small : value < 2 ^ 32) :
    uint32 value = value.toNat := by
  rw [uint32, Int.emod_eq_of_lt positive small]

theorem table_bound {v t shift : Nat} (below : shift ≤ 24) (nonzero : t ≠ 0) (byte : t < 256)
    (rest : v / 2 ^ shift = t) :
    uint32 (shift + logTable256.getD t 0) ≤ 31 ∧
      v < 2 ^ (uint32 (shift + logTable256.getD t 0) + 1) := by
  obtain ⟨positive, few, bound⟩ := logTable256_spec t byte nonzero
  obtain ⟨k, is⟩ := Int.eq_ofNat_of_zero_le positive
  rw [is] at few bound ⊢
  have small : (shift : Int) + k < 2 ^ 32 := by omega
  rw [uint32_small (by omega) small]
  have sum : ((shift : Int) + k).toNat = shift + k := by omega
  rw [sum]
  have shifted : v < (t + 1) * 2 ^ shift :=
    (Nat.div_lt_iff_lt_mul (Nat.two_pow_pos shift)).mp (rest ▸ Nat.lt_succ_self _)
  refine ⟨by omega, Nat.lt_of_lt_of_le shifted ?_⟩
  have bits : t + 1 ≤ 2 ^ (k + 1) := bound
  calc (t + 1) * 2 ^ shift ≤ 2 ^ (k + 1) * 2 ^ shift := Nat.mul_le_mul_right _ bits
    _ = 2 ^ (shift + k + 1) := by rw [← Nat.pow_add, Nat.add_comm, Nat.add_assoc]

theorem qtIntLog_spec {v : Nat} (nonzero : v ≠ 0) (small : v < 2 ^ 32) :
    qtIntLog v ≤ 31 ∧ v < 2 ^ (qtIntLog v + 1) := by
  rw [qtIntLog]
  simp only
  by_cases high : v / 2 ^ 16 ≠ 0
  · rw [if_pos high]
    by_cases top : v / 2 ^ 16 / 2 ^ 8 ≠ 0
    · rw [if_pos top]
      exact table_bound (Nat.le_refl 24) top (by omega)
        (Nat.div_div_eq_div_mul v (2 ^ 16) (2 ^ 8)).symm
    · rw [if_neg top]
      exact table_bound (by decide : 16 ≤ 24) high (by omega) rfl
  · rw [if_neg high]
    by_cases middle : v / 2 ^ 8 ≠ 0
    · rw [if_pos middle]
      exact table_bound (by decide : 8 ≤ 24) middle (by omega) rfl
    · rw [if_neg middle]
      have bound := @table_bound v v 0 (Nat.zero_le _) nonzero (by omega) (Nat.div_one v)
      rw [Int.natCast_zero, Int.zero_add] at bound
      exact bound

end Qthreads.Qutil
