import Mathlib.Data.Nat.ModEq
import Qthreads.Qarray.Iterate

namespace Qthreads.Qarray

open Lib

variable {n : Nat} {a : Qarray n}

theorem segsPerShep_pos : 0 < a.segsPerShep := by
  simp only [segsPerShep]
  split
  next => exact Nat.zero_lt_one
  next nonzero => exact Nat.pos_of_ne_zero nonzero

theorem extras_lt : a.extras < n := Nat.mod_lt _ a.sheps

variable {index : Nat}

theorem div_lt_segmentCount (less : index < a.count) : index / a.segmentSize < a.segmentCount := by
  rw [Nat.div_lt_iff_lt_mul a.segment, segmentCount, Nat.add_mul]
  have whole := Nat.div_add_mod a.count a.segmentSize
  have rest := Nat.mod_lt a.count a.segment
  rw [Nat.mul_comm] at whole
  split <;> omega

theorem stripe_lt {seg : Nat} (less : seg < a.segmentCount) :
    (if seg / (a.segsPerShep + 1) < a.extras then seg / (a.segsPerShep + 1)
      else (seg - a.extras) / a.segsPerShep) < n := by
  split
  next early => exact Nat.lt_trans early extras_lt
  next late =>
      have whole := Nat.div_add_mod a.segmentCount n
      by_cases few : a.segmentCount / n = 0
      · rw [few, Nat.mul_zero, Nat.zero_add] at whole
        have half := Nat.div_le_self seg (a.segsPerShep + 1)
        have all : a.extras = a.segmentCount := whole
        rw [all] at late
        exact absurd (Nat.lt_of_le_of_lt half less) late
      · rw [Nat.div_lt_iff_lt_mul segsPerShep_pos]
        have positive := Nat.mul_pos a.sheps (Nat.pos_of_ne_zero few)
        simp only [segsPerShep, if_neg few, extras]
        omega

theorem owner_lt (less : index < a.count) : a.owner index < n := by
  have inside := div_lt_segmentCount less
  cases type : a.distType with
  | fixedHash =>
    simp only [owner, shepofSegidx, type]
    exact Nat.mod_lt _ a.sheps
  | fixedFields =>
    simp only [owner, shepofSegidx, type]
    exact stripe_lt inside
  | allSame shep =>
    simp only [owner, shepofSegidx, type]
    exact shep.isLt
  | dist owners =>
    simp only [owner, shepofSegidx, type]
    exact (owners _).isLt

theorem shepof_eq (less : index < a.count) : a.shepof index = some (a.owner index) := by
  have inside := owner_lt less
  cases type : a.distType with
  | fixedHash =>
    simp only [owner] at inside
    simp only [shepof, if_pos less, type, if_pos inside, owner]
  | fixedFields =>
    simp only [owner] at inside
    simp only [shepof, if_pos less, type, if_pos inside, owner]
  | allSame shep => simp only [shepof, if_pos less, type, owner, shepofSegidx]
  | dist owners =>
    simp only [owner] at inside
    simp only [shepof, if_pos less, type, if_pos inside, owner]

theorem shepof_eq_some {index shep : Nat} (found : a.shepof index = some shep) :
    index < a.count ∧ shep = a.owner index := by
  by_cases less : index < a.count
  · rw [shepof_eq less] at found
    exact ⟨less, (Option.some.inj found).symm⟩
  · simp only [shepof, if_neg less] at found
    cases found

theorem before_eq (positive : 0 < index) (less : index < 2 ^ 64) : before index = index - 1 := by
  simp only [before]
  omega

def Found (a : Qarray n) (shep max count : Nat) : Option Nat → Prop
  | none => ∀ i, count + i * a.segmentSize < max → a.owner (count + i * a.segmentSize) ≠ shep
  | some next => ∃ k, next = count + k * a.segmentSize ∧ next < max ∧ a.owner next = shep ∧
      ∀ i < k, a.owner (count + i * a.segmentSize) ≠ shep

theorem seek_found {max rounds count : Nat} (shep : Nat) (inside : max ≤ a.count) (less : count < max)
    (enough : max - count < rounds) :
    ∃ result, a.seek shep max rounds count = some result ∧ Found a shep max count result := by
  induction rounds generalizing count with
  | zero => omega
  | succ rounds ih =>
    have segment := a.segment
    rw [seek, shepof_eq (Nat.lt_of_lt_of_le less inside)]
    by_cases mine : a.owner count = shep
    · refine ⟨some count, by simp [mine], 0, by simp, less, mine, ?_⟩
      intro i early
      cases early
    · by_cases beyond : count + a.segmentSize ≥ max
      · refine ⟨none, by simp [mine, beyond], ?_⟩
        intro i within
        cases i with
        | zero => simpa using mine
        | succ i =>
          rw [Nat.add_mul] at within
          omega
      · obtain ⟨result, same, found⟩ := ih (show count + a.segmentSize < max by omega)
          (by omega)
        refine ⟨result, by simp [mine, beyond, same], ?_⟩
        have place (i : Nat) :
            count + a.segmentSize + i * a.segmentSize = count + (i + 1) * a.segmentSize := by
          rw [Nat.add_mul]
          omega
        cases result with
        | none =>
          intro i within
          cases i with
          | zero => simpa using mine
          | succ i =>
            rw [← place] at within ⊢
            exact found i within
        | some next =>
          obtain ⟨k, position, within, owned, earlier⟩ := found
          refine ⟨k + 1, position.trans (place k), within, owned, ?_⟩
          intro i early
          cases i with
          | zero => simpa using mine
          | succ i =>
            rw [← place]
            exact earlier i (Nat.lt_of_succ_lt_succ early)

def Advances (mine : Nat → Prop) (size max count : Nat) : Option Nat → Prop
  | none => ∀ i, 0 < i → count + i * size < max → ¬ mine (count + i * size)
  | some next => ∃ k, next = count + (k + 1) * size ∧ (next < max → mine next) ∧
      ∀ i, 0 < i → i ≤ k → count + i * size < max → ¬ mine (count + i * size)

theorem stop_eq {max count size : Nat} (less : count < max) :
    count + (if max - count > size then size else max - count) = min (count + size) max := by
  split <;> omega

theorem walk_windows {max rounds count : Nat} (shep : Nat) (mine : Nat → Prop) (less : count < max)
    (wanted : mine count)
    (advances : ∀ count, count < max → mine count → ∃ result,
      a.advance shep max count = some result ∧ Advances mine a.segmentSize max count result)
    (enough : max - count < rounds) :
    ∃ ranges, a.walk shep max rounds count = some ranges ∧
      Windows mine a.segmentSize max count ranges := by
  induction rounds generalizing count with
  | zero => omega
  | succ rounds ih =>
    have segment := a.segment
    obtain ⟨result, advanced, next⟩ := advances count less wanted
    rw [walk, advanced, stop_eq less]
    have last (never : ∀ i, 0 < i → count + i * a.segmentSize < max →
        ¬ mine (count + i * a.segmentSize)) :
        Windows mine a.segmentSize max count [(count, min (count + a.segmentSize) max)] := by
      refine Windows.cons less wanted (.nil ?_)
      intro i within
      have place : count + a.segmentSize + i * a.segmentSize = count + (i + 1) * a.segmentSize := by
        rw [Nat.add_mul]
        omega
      rw [place] at within ⊢
      exact never (i + 1) (Nat.succ_pos i) within
    cases result with
    | none => exact ⟨_, rfl, last next⟩
    | some next' =>
      obtain ⟨k, position, there, between⟩ := next
      have forward : count < next' := by
        rw [position, Nat.add_mul]
        omega
      by_cases beyond : next' ≥ max
      · refine ⟨_, by simp [beyond], last ?_⟩
        intro i positive within
        refine between i positive ?_ within
        by_contra far
        have step := Nat.mul_le_mul_right a.segmentSize (show k + 1 ≤ i by omega)
        omega
      · obtain ⟨ranges, walked, windows⟩ := ih (Nat.lt_of_not_le beyond)
          (there (Nat.lt_of_not_le beyond)) (by omega)
        refine ⟨(count, min (count + a.segmentSize) max) :: ranges, by simp [beyond, walked], ?_⟩
        rw [position] at windows
        exact windows.cons_skip less wanted between

def Scattered (a : Qarray n) : Prop :=
  match a.distType with
  | .fixedHash | .dist _ => True
  | _ => False

theorem owner_hash (type : a.distType = .fixedHash) (count i : Nat) :
    a.owner (count + i * a.segmentSize) = (count / a.segmentSize + i) % n := by
  simp only [owner, shepofSegidx, type, Nat.add_mul_div_right _ _ a.segment]

variable {shep max count : Nat}

theorem advance_hash (type : a.distType = .fixedHash)
    (mine : a.owner count = shep) : ∃ result, a.advance shep max count = some result ∧
      Advances (a.owner · = shep) a.segmentSize max count result := by
  refine ⟨some (count + a.segmentSize * n), by simp only [advance, type], n - 1, ?_, ?_, ?_⟩
  · rw [Nat.sub_add_cancel a.sheps, Nat.mul_comm]
  · intro _
    rw [Nat.mul_comm, owner_hash type, Nat.add_mod_right]
    have here := owner_hash type count 0
    rw [Nat.zero_mul, Nat.add_zero, Nat.add_zero] at here
    exact here.symm.trans mine
  · intro i positive few _
    change a.owner (count + i * a.segmentSize) ≠ shep
    rw [owner_hash type, ← mine]
    have here := owner_hash type count 0
    rw [Nat.zero_mul, Nat.add_zero, Nat.add_zero] at here
    rw [here]
    intro same
    have back : (count / a.segmentSize + i) ≡ count / a.segmentSize + 0 [MOD n] := same
    have zero := Nat.ModEq.add_left_cancel' _ back
    have small : i % n = 0 := zero
    rw [Nat.mod_eq_of_lt (by omega)] at small
    omega

theorem advance_dist {owners : Nat → Fin n} (type : a.distType = .dist owners)
    (inside : max ≤ a.count) : ∃ result, a.advance shep max count = some result ∧
      Advances (a.owner · = shep) a.segmentSize max count result := by
  have place (i : Nat) : count + a.segmentSize + i * a.segmentSize = count + (i + 1) * a.segmentSize := by
    rw [Nat.add_mul]
    omega
  by_cases beyond : count + a.segmentSize ≥ max
  · refine ⟨none, by simp only [advance, type, if_pos beyond], ?_⟩
    intro i positive within
    have step := Nat.mul_le_mul_right a.segmentSize (show 1 ≤ i from positive)
    omega
  · obtain ⟨result, sought, found⟩ := seek_found shep inside (Nat.lt_of_not_le beyond)
      (show max - (count + a.segmentSize) < max + 1 by omega)
    refine ⟨result, by simp only [advance, type, if_neg beyond, sought], ?_⟩
    cases result with
    | none =>
      intro i positive within
      have shifted := place (i - 1)
      rw [Nat.sub_add_cancel positive] at shifted
      rw [← shifted] at within ⊢
      exact found (i - 1) within
    | some next =>
      obtain ⟨k, position, -, owned, earlier⟩ := found
      refine ⟨k, position.trans (place k), fun _ => owned, ?_⟩
      intro i positive few _
      have shifted := place (i - 1)
      rw [Nat.sub_add_cancel positive] at shifted
      rw [← shifted]
      exact earlier (i - 1) (by omega)

theorem advance_scattered (scattered : Scattered a) (inside : max ≤ a.count)
    (mine : a.owner count = shep) : ∃ result, a.advance shep max count = some result ∧
      Advances (a.owner · = shep) a.segmentSize max count result := by
  cases type : a.distType with
  | fixedHash => exact advance_hash type mine
  | dist owners => exact advance_dist type inside
  | fixedFields =>
    rw [Scattered, type] at scattered
    exact scattered.elim
  | allSame home =>
    rw [Scattered, type] at scattered
    exact scattered.elim

def base (a : Qarray n) (shep startat : Nat) : Nat :=
  if a.owner startat = shep then startat
  else startat + (a.segmentSize - startat % a.segmentSize)

theorem find_found {startat stopat : Nat} (shep : Nat) (less : startat < stopat)
    (inside : stopat ≤ a.count) : ∃ result, a.find shep startat stopat = some result ∧
      Found a shep stopat (a.base shep startat) result := by
  have segment := a.segment
  have offset := Nat.mod_lt startat segment
  rw [find, shepof_eq (Nat.lt_of_lt_of_le less inside)]
  by_cases mine : a.owner startat = shep
  · obtain ⟨result, sought, found⟩ := seek_found shep inside less
      (show stopat - startat < stopat + 1 by omega)
    refine ⟨result, by simp [mine, sought], ?_⟩
    rwa [base, if_pos mine]
  · rw [base, if_neg mine]
    by_cases positive : startat > 0
    · by_cases beyond : startat + (a.segmentSize - startat % a.segmentSize) ≥ stopat
      · refine ⟨none, by simp [mine, positive, beyond], ?_⟩
        intro i within
        omega
      · obtain ⟨result, sought, found⟩ := seek_found shep inside (Nat.lt_of_not_le beyond)
          (show stopat - (startat + (a.segmentSize - startat % a.segmentSize)) < stopat + 1 by omega)
        exact ⟨result, by simp [mine, positive, beyond, sought], found⟩
    · obtain rfl : startat = 0 := Nat.eq_zero_of_not_pos positive
      have place (i : Nat) : 0 + (a.segmentSize - 0 % a.segmentSize) + i * a.segmentSize =
          0 + (i + 1) * a.segmentSize := by
        rw [Nat.zero_mod, Nat.add_mul]
        omega
      obtain ⟨result, sought, found⟩ := seek_found shep inside less
        (show stopat - 0 < stopat + 1 by omega)
      refine ⟨result, by simp [sought], ?_⟩
      cases result with
      | none =>
        intro i within
        rw [place] at within ⊢
        exact found (i + 1) within
      | some next =>
        obtain ⟨k, position, within, owned, earlier⟩ := found
        cases k with
        | zero =>
          rw [position, Nat.zero_mul] at owned
          exact absurd owned mine
        | succ k =>
          refine ⟨k, position.trans (place k).symm, within, owned, ?_⟩
          intro i early
          rw [place]
          exact earlier (i + 1) (Nat.succ_lt_succ early)

theorem scattered_windows {startat stopat : Nat} (scattered : Scattered a) (shep : Nat)
    (less : startat < stopat) (inside : stopat ≤ a.count) : ∃ ranges,
      a.strider shep startat stopat = some (indices ranges) ∧
      a.loopStrider shep startat stopat = some ranges ∧
      Windows (a.owner · = shep) a.segmentSize stopat (a.base shep startat) ranges := by
  obtain ⟨result, looked, found⟩ := find_found shep less inside
  have unfolded : ∃ ranges, Windows (a.owner · = shep) a.segmentSize stopat (a.base shep startat) ranges ∧
      match result with
      | none => ranges = []
      | some count => count < stopat ∧ a.walk shep stopat (stopat + 1) count = some ranges := by
    cases result with
    | none => exact ⟨[], .nil found, rfl⟩
    | some count =>
      obtain ⟨k, position, within, owned, earlier⟩ := found
      obtain ⟨ranges, walked, windows⟩ := walk_windows shep (a.owner · = shep) within owned
        (fun place _ mine => advance_scattered scattered inside mine)
        (show stopat - count < stopat + 1 by omega)
      rw [position] at windows
      exact ⟨ranges, windows.skip fun i early _ => earlier i early, within, walked⟩
  obtain ⟨ranges, windows, how⟩ := unfolded
  refine ⟨ranges, ?_, ?_, windows⟩
  all_goals
    cases type : a.distType with
    | fixedFields =>
      rw [Scattered, type] at scattered
      exact scattered.elim
    | allSame home =>
      rw [Scattered, type] at scattered
      exact scattered.elim
    | fixedHash =>
      cases result with
      | none => simp [strider, loopStrider, type, looked, how, indices]
      | some count => simp [strider, loopStrider, type, looked, how]
    | dist owners =>
      cases result with
      | none => simp [strider, loopStrider, type, looked, how, indices]
      | some count => simp [strider, loopStrider, type, looked, how]

end Qthreads.Qarray
