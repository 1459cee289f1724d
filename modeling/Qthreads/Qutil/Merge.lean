import Qthreads.Qutil.Mergesort

namespace Qthreads.Qutil

open Lib
open Function (update update_of_ne update_self update_eq_self)

theorem sizeT_of_lt {value : Nat} (small : value < 2 ^ 64) : sizeT value = value :=
  Nat.mod_eq_of_lt small

theorem sizeSub_of_le {a b : Nat} (order : b ≤ a) (small : a < 2 ^ 64) : sizeSub a b = a - b := by
  have turned : a + 2 ^ 64 - b = a - b + 2 ^ 64 := by omega
  have less : a - b < 2 ^ 64 := Nat.lt_of_le_of_lt (Nat.sub_le _ _) small
  rw [sizeSub, turned, Nat.add_mod_right, Nat.mod_eq_of_lt less]

variable {α : Type} {length low high first second : Nat} {original array : Nat → α}

theorem moveUp_spec {firstStart k : Nat} (array : Nat → α) (value : α) (order : firstStart ≤ k + 1)
    (inside : k + 1 < length) (lower : low ≤ firstStart) (upper : k + 1 < high) :
    ∃ after, moveUp length firstStart k array = some after ∧
      Rearranged low high (update array (k + 1) value)
        (update after firstStart value) ∧
      ∀ i, after i = if firstStart < i ∧ i ≤ k + 1 then array (i - 1) else array i := by
  induction k generalizing array with
  | zero =>
    rw [moveUp]
    by_cases there : firstStart ≤ 0
    · obtain rfl : firstStart = 0 := Nat.le_zero.mp there
      rw [if_pos there, load_inside (by omega)]
      simp only [Option.bind_eq_bind, Option.bind_some]
      rw [store_inside inside]
      refine ⟨_, rfl, ?_, ?_⟩
      · exact Rearranged.move_hole array value Nat.one_ne_zero (by omega) upper lower (by omega)
      · intro i
        by_cases one : i = 1
        · rw [one, update_self, if_pos (by omega)]
        · rw [update_of_ne one, if_neg (by omega)]
    · rw [if_neg there]
      obtain rfl : firstStart = 1 := by omega
      exact ⟨array, rfl, .refl _ _ _, fun i => (if_neg (by omega)).symm⟩
  | succ k ih =>
    rw [moveUp]
    by_cases there : firstStart ≤ k + 1
    · rw [if_pos there, load_inside (by omega)]
      simp only [Option.bind_eq_bind, Option.bind_some]
      rw [store_inside inside]
      obtain ⟨after, moved, rearranged, is⟩ :=
        ih (update array (k + 2) (array (k + 1))) there (by omega) (by omega)
      refine ⟨after, moved, ?_, ?_⟩
      · have hole := Rearranged.move_hole array value (by omega : k + 2 ≠ k + 1)
          (by omega : low ≤ k + 2) upper (by omega) (by omega)
        exact hole.trans rearranged
      · intro i
        rw [is i]
        by_cases below : firstStart < i ∧ i ≤ k + 1
        · rw [if_pos below, if_pos (by omega), update_of_ne (by omega)]
        · rw [if_neg below]
          by_cases top : i = k + 2
          · rw [top, update_self, if_pos (by omega)]
            rfl
          · rw [update_of_ne top, if_neg (by omega)]
    · rw [if_neg there]
      obtain rfl : firstStart = k + 2 := by omega
      exact ⟨array, rfl, .refl _ _ _, fun i => (if_neg (by omega)).symm⟩

variable [LinearOrder α]

structure Merging (low high : Nat) (original array : Nat → α) (first second : Nat) : Prop where
  lower : low ≤ first
  order : first ≤ second
  upper : second ≤ high
  merged : Ascending low first array
  left : Ascending first second array
  right : Ascending second high array
  across : ∀ x y, low ≤ x → x < first → first ≤ y → y < high → array x ≤ array y
  rearranged : Rearranged low high original array

section

variable (merging : Merging low high original array first second)
include merging

theorem Merging.least {value : α} (fromLeft : first < second → value ≤ array first)
    (fromRight : second < high → value ≤ array second) {y : Nat} (lower : first ≤ y)
    (upper : y < high) : value ≤ array y := by
  by_cases inLeft : y < second
  · by_cases same : y = first
    · rw [same]
      exact fromLeft (same ▸ inLeft)
    · exact (fromLeft (by omega)).trans (merging.left first y (Nat.le_refl _) (by omega) inLeft)
  · by_cases same : y = second
    · rw [same]
      exact fromRight (same ▸ upper)
    · exact (fromRight (by omega)).trans
        (merging.right second y (Nat.le_refl _) (by omega) upper)

theorem Merging.ends (beyond : ¬ (first < second ∧ second < high)) : Ascending low high array := by
  intro x y xLower less yUpper
  have upper := merging.upper
  have order := merging.order
  by_cases xMerged : x < first
  · by_cases yMerged : y < first
    · exact merging.merged x y xLower less yMerged
    · exact merging.across x y xLower xMerged (Nat.le_of_not_lt yMerged) yUpper
  · by_cases inLeft : second = high
    · exact merging.left x y (by omega) less (by omega)
    · exact merging.right x y (by omega) less yUpper

theorem Merging.takeLeft
    (fewer : first < second) (rest : second < high) (less : array first < array second) :
    Merging low high original array (first + 1) second := by
  have least : ∀ y, first ≤ y → y < high → array first ≤ array y := fun y lower upper =>
    merging.least (fun _ => le_rfl) (fun _ => less.le) lower upper
  refine ⟨Nat.le_succ_of_le merging.lower, fewer, merging.upper, ?_, ?_, merging.right, ?_,
    merging.rearranged⟩
  · intro x y xLower order yUpper
    by_cases last : y = first
    · rw [last]
      exact merging.across x first xLower (by omega) (Nat.le_refl _) (by omega)
    · exact merging.merged x y xLower order (by omega)
  · intro x y xLower order yUpper
    exact merging.left x y (by omega) order yUpper
  · intro x y xLower xUpper yLower yUpper
    by_cases last : x = first
    · rw [last]
      exact least y (by omega) yUpper
    · exact merging.across x y xLower (by omega) (by omega) yUpper

theorem Merging.takeRight {after : Nat → α} (less : first < second)
    (rest : second < high) (notLess : ¬ array first < array second)
    (is : ∀ i, after i = if first < i ∧ i ≤ second then array (i - 1) else array i)
    (rearranged : Rearranged low high (update array second (array second))
      (update after first (array second))) :
    Merging low high original (update after first (array second)) (first + 1)
      (second + 1) := by
  have least : ∀ y, first ≤ y → y < high → array second ≤ array y := fun y lower upper =>
    merging.least (fun _ => le_of_not_gt notLess) (fun _ => le_rfl) lower upper
  have lower := merging.lower
  -- Every cell behind the new one is a cell that was not merged.
  have source : ∀ i, i ≠ first →
      update after first (array second) i = array (if first < i ∧ i ≤ second then i - 1 else i) := by
    intro i differs
    rw [update_of_ne differs, is]
    split <;> rfl
  rw [update_eq_self] at rearranged
  refine ⟨by omega, by omega, rest, ?_, ?_, ?_, ?_, merging.rearranged.trans rearranged⟩
  · intro x y xLower order yUpper
    rw [source x (by omega), if_neg (by omega)]
    by_cases last : y = first
    · rw [last, update_self]
      exact merging.across x second xLower (by omega) (by omega) rest
    · rw [source y last, if_neg (by omega)]
      exact merging.merged x y xLower order (by omega)
  · intro x y xLower order yUpper
    rw [source x (by omega), source y (by omega), if_pos (by omega), if_pos (by omega)]
    exact merging.left (x - 1) (y - 1) (by omega) (by omega) (by omega)
  · intro x y xLower order yUpper
    rw [source x (by omega), source y (by omega), if_neg (by omega), if_neg (by omega)]
    exact merging.right x y (by omega) order yUpper
  · intro x y xLower xUpper yLower yUpper
    rw [source y (by omega)]
    have inside : first ≤ (if first < y ∧ y ≤ second then y - 1 else y) ∧
        (if first < y ∧ y ≤ second then y - 1 else y) < high := by
      split <;> omega
    by_cases last : x = first
    · rw [last, update_self]
      exact least _ inside.1 inside.2
    · rw [source x last, if_neg (by omega)]
      exact merging.across x _ xLower (by omega) inside.1 inside.2

theorem Merging.loop {fuel : Nat}
    (inside : high ≤ length) (small : length < 2 ^ 63) (positive : 0 < second) (wide : 0 < high)
    (enough : high - first < fuel) :
    ∃ after, mergesortInner length fuel array ⟨first, second - 1, second, high - 1⟩ =
        Option.some after ∧
      Rearranged low high original after ∧ Ascending low high after := by
  induction fuel generalizing array first second with
  | zero => exact absurd enough (Nat.not_lt_zero _)
  | succ fuel ih =>
    rw [mergesortInner]
    simp only
    have order := merging.order
    have upper := merging.upper
    by_cases more : first < second ∧ second < high
    · obtain ⟨left, right⟩ := more
      have next : sizeT (first + 1) = first + 1 := sizeT_of_lt (by omega)
      rw [if_pos ⟨by omega, by omega⟩, load_inside (by omega), load_inside (by omega)]
      simp only [Option.bind_eq_bind, Option.bind_some, next]
      by_cases less : array first < array second
      · rw [if_pos less]
        exact ih (merging.takeLeft left right less) positive (by omega)
      · have stop : sizeT (second - 1 + 1) = second := by
          rw [Nat.sub_add_cancel positive, sizeT_of_lt (by omega)]
        have start : sizeT (second + 1) = second + 1 := sizeT_of_lt (by omega)
        have before : sizeSub second 1 = second - 1 := sizeSub_of_le positive (by omega)
        have above : second - 1 + 1 = second := Nat.sub_add_cancel positive
        obtain ⟨moved, movedIs, rearranged, is⟩ :=
          @moveUp_spec α length low high first (second - 1) array (array second) (by omega)
            (by omega) merging.lower (by omega)
        rw [above] at rearranged is
        rw [if_neg less, before, movedIs]
        simp only [Option.bind_some]
        rw [store_inside (by omega)]
        simp only [Option.bind_some, stop, start]
        have turned := merging.takeRight left right less is rearranged
        exact ih turned (Nat.succ_pos _) (by omega)
    · rw [if_neg (by omega)]
      exact ⟨array, rfl, merging.rearranged, merging.ends more⟩

end

end Qthreads.Qutil
