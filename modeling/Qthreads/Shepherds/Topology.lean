import Qthreads.Lib.Flags

namespace Qthreads.Shepherds

inductive Env where
  | unset
  | unparsable
  | number (value : UInt64)

def getEnvNum (envariable : Env) (dflt zerodflt : UInt64) : UInt64 :=
  match envariable with
  | .unset => dflt
  | .unparsable => if dflt = 0 then zerodflt else dflt
  | .number value => if value = 0 then zerodflt else value

/-- The product of two `unsigned short`, an `int` that is sign-extended to a `size_t`. -/
def intProduct (left right : UInt16) : UInt64 :=
  let product := left.toNat * right.toNat
  UInt64.ofNat (if product < 2 ^ 31 then product else product + (2 ^ 64 - 2 ^ 32))

structure Topology where
  nshepherds : UInt16
  nworkerspershep : UInt16
  hwPar : UInt64

def workersPerShepherd (numWorkers : UInt64) (numSheps : UInt16) : UInt16 :=
  let numWps := (numWorkers / numSheps.toUInt64).toUInt16
  if numWorkers % numSheps.toUInt64 ≠ 0 then numWps + 1 else numWps

/-- The adjustment of the logical topology in `qt_topology_init`. -/
def adjust (numSheps numWps : UInt16) (numWorkers : UInt64) : Topology :=
  if numWorkers ≠ 0 then
    if numWorkers < numSheps.toUInt64 ∨ numWorkers = 1 then ⟨numWorkers.toUInt16, 1, numWorkers⟩
    else if numWorkers > intProduct numSheps numWps then
      ⟨numSheps, workersPerShepherd numWorkers numSheps, numWorkers⟩
    else ⟨numSheps, workersPerShepherd numWorkers numSheps, numWorkers⟩
  else ⟨numSheps, numWps, intProduct numSheps numWps⟩

structure Environment where
  numShepherds : Env
  numWorkersPerShepherd : Env
  hwPar : Env

/-- `qt_topology_init`; `none` stands for `exit(EXIT_FAILURE)`. -/
def topologyInit (env : Environment) (singleWorker : Bool)
    (affinityInit : UInt16 × UInt16 × UInt64 → UInt16 × UInt16 × UInt64) : Option Topology :=
  let numSheps := (getEnvNum env.numShepherds 0 0).toUInt16
  let requested := (getEnvNum env.numWorkersPerShepherd 0 0).toUInt16
  let numWorkers := getEnvNum env.hwPar (intProduct numSheps requested) (intProduct numSheps requested)
  let numWps := if singleWorker then 1 else requested
  let answers := affinityInit (numSheps, numWps, numWorkers)
  let top := adjust answers.1 answers.2.1 answers.2.2
  if singleWorker = true ∧ top.nworkerspershep ≠ 1 then none else some top

theorem intProduct_small {left right : UInt16} (small : left.toNat * right.toNat < 2 ^ 31) :
    (intProduct left right).toNat = left.toNat * right.toNat := by
  simp only [intProduct, if_pos small]
  exact UInt64.toNat_ofNat_of_lt' (Nat.lt_trans small (by decide))

theorem product_lt (left right : UInt16) : left.toNat * right.toNat < 2 ^ 32 := by
  have less : left.toNat * right.toNat < 2 ^ 16 * 2 ^ 16 :=
    Nat.mul_lt_mul'' left.toNat_lt right.toNat_lt
  omega

theorem intProduct_large {left right : UInt16} (large : ¬ left.toNat * right.toNat < 2 ^ 31) :
    2 ^ 32 ≤ (intProduct left right).toNat := by
  have less := product_lt left right
  have whole : left.toNat * right.toNat + (2 ^ 64 - 2 ^ 32) < UInt64.size := by
    rw [UInt64.size]
    omega
  simp only [intProduct, if_neg large]
  rw [UInt64.toNat_ofNat_of_lt' whole]
  omega

namespace Topology

structure Fits (top : Topology) : Prop where
  workers : top.hwPar.toNat ≤ 65535 * top.nshepherds.toNat
  numbers : top.nshepherds.toNat * (top.nworkerspershep.toNat - 1) < 2 ^ 31

end Topology

theorem le_mul_workersPerShepherd {numWorkers : UInt64} {numSheps : UInt16}
    (positive : 0 < numSheps.toNat) (fits : numWorkers.toNat ≤ 65535 * numSheps.toNat) :
    numWorkers.toNat ≤ numSheps.toNat * (workersPerShepherd numWorkers numSheps).toNat := by
  have parts := Nat.div_add_mod numWorkers.toNat numSheps.toNat
  have rest := Nat.mod_lt numWorkers.toNat positive
  have quotient : numWorkers.toNat / numSheps.toNat ≤ 65535 := by
    rw [Nat.div_le_iff_le_mul_add_pred positive]
    omega
  have shown : (numWorkers / numSheps.toUInt64).toUInt16.toNat = numWorkers.toNat / numSheps.toNat := by
    rw [UInt64.toNat_toUInt16, UInt64.toNat_div, UInt16.toNat_toUInt64, Nat.mod_eq_of_lt (by omega)]
  have remainder : (numWorkers % numSheps.toUInt64).toNat = numWorkers.toNat % numSheps.toNat := by
    rw [UInt64.toNat_mod, UInt16.toNat_toUInt64]
  simp only [workersPerShepherd]
  by_cases even : numWorkers % numSheps.toUInt64 = 0
  · rw [if_neg (not_not.mpr even), shown]
    rw [even] at remainder
    rw [← remainder] at parts
    exact Nat.le_of_eq parts.symm
  · have more : 0 < numWorkers.toNat % numSheps.toNat := by
      rw [← remainder]
      exact Nat.pos_of_ne_zero fun zero => even (UInt64.toNat_inj.mp zero)
    have less : numWorkers.toNat / numSheps.toNat < 65535 := by
      refine Nat.lt_of_le_of_ne quotient fun all => ?_
      rw [all] at parts
      omega
    rw [if_pos even, UInt16.toNat_add, shown, show UInt16.toNat 1 = 1 from rfl,
      Nat.mod_eq_of_lt (by omega), Nat.mul_succ]
    omega

theorem adjust_places {numSheps numWps : UInt16} {numWorkers : UInt64} {top : Topology}
    (positive : 0 < numSheps.toNat) (found : adjust numSheps numWps numWorkers = top) (fits : top.Fits) :
    top.hwPar.toNat ≤ top.nshepherds.toNat * top.nworkerspershep.toNat := by
  have workers := fits.workers
  simp only [adjust] at found
  split at found
  next =>
    split at found
    next few =>
      subst found
      have small : numWorkers.toNat < 2 ^ 16 := by
        rcases few with less | one
        · have less := UInt64.lt_iff_toNat_lt.mp less
          rw [UInt16.toNat_toUInt64] at less
          exact Nat.lt_trans less numSheps.toNat_lt
        · rw [one]
          decide
      change numWorkers.toNat ≤ numWorkers.toUInt16.toNat * 1
      rw [UInt64.toNat_toUInt16, Nat.mod_eq_of_lt small, Nat.mul_one]
    next =>
      split at found
      · subst found
        exact le_mul_workersPerShepherd positive workers
      · subst found
        exact le_mul_workersPerShepherd positive workers
  next =>
    subst found
    by_cases small : numSheps.toNat * numWps.toNat < 2 ^ 31
    · exact Nat.le_of_eq (intProduct_small small)
    · have large := intProduct_large small
      have less := numSheps.toNat_lt
      simp only at workers
      omega

theorem topologyInit_places {env : Environment} {singleWorker : Bool} {top : Topology}
    {affinityInit : UInt16 × UInt16 × UInt64 → UInt16 × UInt16 × UInt64}
    (answers : ∀ asked, 1 ≤ (affinityInit asked).1 ∧ 1 ≤ (affinityInit asked).2.1)
    (found : topologyInit env singleWorker affinityInit = some top) (fits : top.Fits) :
    top.hwPar.toNat ≤ top.nshepherds.toNat * top.nworkerspershep.toNat := by
  simp only [topologyInit, Option.ite_none_left_eq_some, Option.some.injEq] at found
  exact adjust_places (UInt16.le_iff_toNat_le.mp (answers _).1) found.2 fits

end Qthreads.Shepherds
