import Mathlib.Order.Monotone.Basic

namespace Qthreads.Lib

structure Stride (next : Nat → Nat) (back : Nat → Option Nat) : Prop where
  lt : ∀ cell, cell < next cell
  back_next : ∀ cell, back (next cell) = some cell
  back_zero : back 0 = none

def Walked (next : Nat → Nat) (cell : Nat) : Prop := ∃ steps, next^[steps] 0 = cell

namespace Walked

variable {next : Nat → Nat} {back : Nat → Option Nat} {first second : Nat}

theorem zero : Walked next 0 := ⟨0, rfl⟩

theorem succ (walked : Walked next first) : Walked next (next first) := by
  obtain ⟨steps, rfl⟩ := walked
  exact ⟨steps + 1, Function.iterate_succ_apply' next steps 0⟩

section

variable (stride : Stride next back) (walked : Walked next first)
include stride walked

theorem next_le (other : Walked next second) (less : first < second) : next first ≤ second := by
  obtain ⟨steps, rfl⟩ := walked
  obtain ⟨more, rfl⟩ := other
  have mono : StrictMono fun steps => next^[steps] 0 := by
    refine strictMono_nat_of_lt_succ fun steps => ?_
    rw [Function.iterate_succ_apply']
    exact stride.lt _
  have further : steps + 1 ≤ more := mono.lt_iff_lt.mp less
  have reached := mono.monotone further
  simp only [Function.iterate_succ_apply'] at reached
  exact reached

theorem lt_next (other : Walked next second) : second < next first ↔ second ≤ first := by
  constructor
  · intro less
    by_contra more
    exact Nat.lt_irrefl _ (Nat.lt_of_lt_of_le less (next_le stride walked other (Nat.lt_of_not_le more)))
  · exact fun small => Nat.lt_of_le_of_lt small (stride.lt first)

theorem back_cases :
    first = 0 ∧ back first = none ∨
      ∃ before, Walked next before ∧ first = next before ∧ back first = some before := by
  obtain ⟨steps, rfl⟩ := walked
  cases steps with
  | zero => exact .inl ⟨rfl, stride.back_zero⟩
  | succ steps =>
    refine .inr ⟨next^[steps] 0, ⟨steps, rfl⟩, Function.iterate_succ_apply' .., ?_⟩
    rw [Function.iterate_succ_apply', stride.back_next]

end

end Walked

end Qthreads.Lib
