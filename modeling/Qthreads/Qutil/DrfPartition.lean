import Qthreads.Qutil.DrfQsort

namespace Qthreads.Qutil

open Lib
open Function (update update_of_ne update_self)

variable {α : Type} [LinearOrder α] {elements low high left right : Nat} {original arr : Nat → α}
  {piv : α}

theorem retreat_spec (arr : Nat → α) (piv : α) (order : left ≤ right) (inside : right < elements) :
    ∃ stop, retreat elements arr piv left right = some stop ∧ left ≤ stop ∧ stop ≤ right ∧
      (∀ k, stop < k → k ≤ right → piv ≤ arr k) ∧ (left < stop → arr stop < piv) := by
  induction right with
  | zero =>
    refine ⟨0, if_pos inside, order, Nat.le_refl 0, ?_, ?_⟩
    · intro k above below
      omega
    · intro less
      omega
  | succ right ih =>
    rw [retreat, load_inside inside]
    simp only
    by_cases more : piv ≤ arr (right + 1) ∧ left < right + 1
    · rw [if_pos more]
      obtain ⟨stop, is, lower, upper, large, less⟩ := ih (by omega) (by omega)
      refine ⟨stop, is, lower, by omega, ?_, less⟩
      intro k above below
      by_cases last : k = right + 1
      · rw [last]
        exact more.1
      · exact large k above (by omega)
    · rw [if_neg more]
      refine ⟨right + 1, rfl, order, Nat.le_refl _, ?_, ?_⟩
      · intro k above below
        omega
      · intro less
        exact lt_of_not_ge fun notLess => more ⟨notLess, less⟩

theorem advance_spec (arr : Nat → α) (piv : α) (order : left ≤ right) (inside : right < elements) :
    ∃ stop, advance elements arr piv right left = some stop ∧ left ≤ stop ∧ stop ≤ right ∧
      (∀ k, left ≤ k → k < stop → arr k ≤ piv) ∧ (stop < right → piv < arr stop) := by
  induction gap : right - left generalizing left with
  | zero =>
    have same : left = right := by omega
    rw [advance, load_inside (by omega)]
    simp only
    rw [if_neg (by omega)]
    refine ⟨left, rfl, Nat.le_refl _, order, ?_, ?_⟩
    · intro k lower upper
      omega
    · intro less
      omega
  | succ gap ih =>
    rw [advance, load_inside (by omega)]
    simp only
    by_cases more : arr left ≤ piv ∧ left < right
    · rw [if_pos more]
      obtain ⟨stop, is, lower, upper, small, greater⟩ := ih (by omega : left + 1 ≤ right) (by omega)
      refine ⟨stop, is, by omega, upper, ?_, greater⟩
      intro k kLower kUpper
      by_cases first : k = left
      · rw [first]
        exact more.1
      · exact small k (by omega) kUpper
    · rw [if_neg more]
      refine ⟨left, rfl, Nat.le_refl _, order, ?_, ?_⟩
      · intro k lower upper
        omega
      · intro less
        exact lt_of_not_ge fun notGreater => more ⟨notGreater, less⟩

structure Hole (low high : Nat) (original : Nat → α) (piv : α) (arr : Nat → α)
    (left right hole : Nat) : Prop where
  lower : low ≤ left
  order : left ≤ right
  upper : right < high
  rearranged : Rearranged low high original (update arr hole piv)
  small : ∀ k, low ≤ k → k < left → arr k ≤ piv
  large : ∀ k, right < k → k < high → piv ≤ arr k

theorem Hole.fillLeft (hole : Hole low high original piv arr left right left)
    (inside : high ≤ elements) (less : left < right → arr right < piv) :
    ∃ after next, fillLeft elements arr left right = some (after, next) ∧ left ≤ next ∧
      (left < right → left < next) ∧ Hole low high original piv after next right right := by
  rw [Qutil.fillLeft]
  by_cases apart : left < right
  · have rightInside : right < elements := Nat.lt_of_lt_of_le hole.upper inside
    rw [if_pos apart, load_inside rightInside]
    simp only [Option.bind_eq_bind, Option.bind_some]
    rw [store_inside (by omega)]
    refine ⟨_, left + 1, rfl, Nat.le_succ _, fun _ => Nat.lt_succ_self _, ?_⟩
    have moved := Rearranged.move_hole arr piv (Nat.ne_of_lt apart) hole.lower
      (Nat.lt_trans apart hole.upper) (Nat.le_trans hole.lower hole.order) hole.upper
    refine ⟨Nat.le_succ_of_le hole.lower, apart, hole.upper, hole.rearranged.trans moved, ?_, ?_⟩
    · intro k lower upper
      by_cases last : k = left
      · rw [last, update_self]
        exact (less apart).le
      · rw [update_of_ne last]
        exact hole.small k lower (by omega)
    · intro k lower upper
      rw [update_of_ne (by omega)]
      exact hole.large k lower upper
  · have same : left = right := Nat.le_antisymm hole.order (Nat.le_of_not_lt apart)
    rw [if_neg apart]
    exact ⟨arr, left, rfl, Nat.le_refl _, fun more => absurd more apart, same ▸ hole⟩

theorem Hole.fillRight (hole : Hole low high original piv arr left right right)
    (inside : high ≤ elements) (greater : left < right → piv < arr left) :
    ∃ after next, fillRight elements arr left right = some (after, next) ∧ next ≤ right ∧
      Hole low high original piv after left next left := by
  rw [Qutil.fillRight]
  by_cases apart : left < right
  · have rightInside : right < elements := Nat.lt_of_lt_of_le hole.upper inside
    rw [if_pos apart, load_inside (by omega)]
    simp only [Option.bind_eq_bind, Option.bind_some]
    rw [store_inside rightInside]
    refine ⟨_, right - 1, rfl, Nat.sub_le _ _, ?_⟩
    have moved := Rearranged.move_hole arr piv (Nat.ne_of_gt apart)
      (Nat.le_trans hole.lower hole.order) hole.upper hole.lower (Nat.lt_trans apart hole.upper)
    have upper := hole.upper
    refine ⟨hole.lower, by omega, by omega, hole.rearranged.trans moved, ?_, ?_⟩
    · intro k lower above
      rw [update_of_ne (by omega)]
      exact hole.small k lower above
    · intro k above below
      by_cases first : k = right
      · rw [first, update_self]
        exact (greater apart).le
      · rw [update_of_ne first]
        exact hole.large k (by omega) below
  · have same : left = right := Nat.le_antisymm hole.order (Nat.le_of_not_lt apart)
    rw [if_neg apart]
    exact ⟨arr, right, rfl, Nat.le_refl _, by rw [same] at hole ⊢; exact hole⟩

theorem Hole.partition {fuel : Nat} (hole : Hole low high original piv arr left right left)
    (inside : high ≤ elements) (enough : right - left < fuel) :
    ∃ after stop, partition elements piv fuel arr left right = some (after, stop) ∧
      Hole low high original piv after stop stop stop := by
  induction fuel generalizing arr left right with
  | zero => exact absurd enough (Nat.not_lt_zero _)
  | succ fuel ih =>
    rw [Qutil.partition]
    by_cases apart : left < right
    · have rightInside : right < elements := Nat.lt_of_lt_of_le hole.upper inside
      obtain ⟨back, backIs, backLower, backUpper, large, less⟩ :=
        retreat_spec arr piv hole.order rightInside
      have atBack : Hole low high original piv arr left back left :=
        ⟨hole.lower, backLower, Nat.lt_of_le_of_lt backUpper hole.upper, hole.rearranged,
          hole.small, fun k above below =>
            if inner : k ≤ right then large k above inner
            else hole.large k (Nat.lt_of_not_le inner) below⟩
      obtain ⟨second, next, fillIs, nextLower, moved, atRight⟩ := atBack.fillLeft inside less
      obtain ⟨front, frontIs, frontLower, frontUpper, small, greater⟩ :=
        advance_spec second piv atRight.order (Nat.lt_of_lt_of_le atRight.upper inside)
      have atFront : Hole low high original piv second front back back :=
        ⟨Nat.le_trans atRight.lower frontLower, frontUpper, atRight.upper, atRight.rearranged,
          fun k lower above =>
            if inner : k < next then atRight.small k lower inner
            else small k (Nat.le_of_not_lt inner) above,
          atRight.large⟩
      obtain ⟨third, end_, fillRightIs, endUpper, atLeft⟩ := atFront.fillRight inside greater
      obtain ⟨after, stop, isAfter, closed⟩ := ih atLeft (by
        have ordered := atLeft.order
        by_cases gap : left < back
        · have further := moved gap
          omega
        · omega)
      refine ⟨after, stop, ?_, closed⟩
      rw [if_pos apart, backIs]
      simp only [Option.bind_eq_bind, Option.bind_some, fillIs, frontIs, fillRightIs]
      exact isAfter
    · have same : right = left := Nat.le_antisymm (Nat.le_of_not_lt apart) hole.order
      rw [if_neg apart]
      rw [same] at hole
      exact ⟨arr, left, rfl, hole⟩

end Qthreads.Qutil
