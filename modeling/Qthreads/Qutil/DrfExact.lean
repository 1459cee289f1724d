import Qthreads.Qutil.DrfPartition

namespace Qthreads.Qutil

open Lib
open Function (update update_of_ne update_self update_eq_self)

theorem maxDepth_pos {elements : Nat} (small : elements < 2 ^ 32) : 0 < maxDepth elements := by
  rw [maxDepth, Nat.mod_eq_of_lt small]
  by_cases zero : elements = 0
  · rw [zero]
    decide
  · have log := (qtIntLog_spec zero small).1
    omega

theorem lt_maxDepth {elements depth : Nat} (small : elements < 2 ^ 32)
    (fits : 2 ^ depth ≤ elements) : depth < maxDepth elements := by
  have nonzero : elements ≠ 0 := Nat.ne_of_gt (Nat.lt_of_lt_of_le (Nat.two_pow_pos depth) fits)
  obtain ⟨few, log⟩ := qtIntLog_spec nonzero small
  have less := (Nat.pow_lt_pow_iff_right (by decide : 1 < 2)).mp (Nat.lt_of_le_of_lt fits log)
  rw [maxDepth, Nat.mod_eq_of_lt small]
  omega

variable {α : Type} [LinearOrder α] {elements depth : Nat} {original arr : Nat → α} {stack : Stack}

structure Pending (elements : Nat) (original : Nat → α) (depth : Nat) (arr : Nat → α)
    (stack : Stack) : Prop where
  within : ∀ j < depth, stack.beg j ≤ stack.end_ j ∧ stack.end_ j ≤ elements
  apart : ∀ j k, j < k → k < depth →
    stack.end_ j ≤ stack.beg k ∨ stack.end_ k ≤ stack.beg j
  halved : ∀ j < depth, (stack.end_ j - stack.beg j) * 2 ^ j ≤ elements
  ordered : ∀ x y, x < y → y < elements →
    (∃ j < depth, stack.beg j ≤ x ∧ y < stack.end_ j) ∨ arr x ≤ arr y
  rearranged : Rearranged 0 elements original arr

theorem Pending.start (arr : Nat → α) :
    Pending elements arr 1 arr ⟨update (fun _ => 0) 0 0,
      update (fun _ => 0) 0 elements⟩ := by
  have only : ∀ j < 1, j = 0 := fun j small => Nat.lt_one_iff.mp small
  refine ⟨?_, ?_, ?_, ?_, .refl 0 elements arr⟩
  · intro j small
    rw [only j small]
    exact ⟨Nat.zero_le _, Nat.le_refl _⟩
  · intro j k less small
    omega
  · intro j small
    rw [only j small]
    exact (Nat.mul_one _).le
  · intro x y less small
    exact .inl ⟨0, Nat.one_pos, Nat.zero_le x, small⟩

theorem Pending.pop (pending : Pending elements original (depth + 1) arr stack)
    (short : ¬ stack.beg depth < stack.end_ depth - 1) :
    Pending elements original depth arr stack := by
  refine ⟨fun j small => pending.within j (Nat.lt_succ_of_lt small),
    fun j k less small => pending.apart j k less (Nat.lt_succ_of_lt small),
    fun j small => pending.halved j (Nat.lt_succ_of_lt small), ?_, pending.rearranged⟩
  intro x y less small
  refine (pending.ordered x y less small).imp_left ?_
  intro ⟨j, jSmall, lower, upper⟩
  refine ⟨j, Nat.lt_of_le_of_ne (Nat.le_of_lt_succ jSmall) ?_, lower, upper⟩
  intro top
  rw [top] at lower upper
  omega

structure Split (stack after : Stack) (depth stop : Nat) : Prop where
  below : ∀ j < depth, after.beg j = stack.beg j ∧ after.end_ j = stack.end_ j
  parts : ((after.beg depth = stack.beg depth ∧ after.end_ depth = stop) ∧
      (after.beg (depth + 1) = stop + 1 ∧ after.end_ (depth + 1) = stack.end_ depth)) ∨
    ((after.beg depth = stop + 1 ∧ after.end_ depth = stack.end_ depth) ∧
      (after.beg (depth + 1) = stack.beg depth ∧ after.end_ (depth + 1) = stop))
  smaller : after.end_ (depth + 1) - after.beg (depth + 1) ≤ after.end_ depth - after.beg depth

theorem split_smallerOnTop (stack : Stack) (depth stop : Nat) :
    Split stack
      (Stack.smallerOnTop
        ⟨update stack.beg (depth + 1) (stop + 1),
          update (update stack.end_ (depth + 1) (stack.end_ depth)) depth stop⟩
        (depth + 1)) depth stop := by
  rw [Stack.smallerOnTop]
  simp only [Nat.add_sub_cancel]
  split
  · rename_i larger
    constructor
    · intro j small
      simp [show j ≠ depth by omega, show j ≠ depth + 1 by omega]
    · right
      simp
    · simp at larger ⊢
      omega
  · rename_i larger
    constructor
    · intro j small
      simp [show j ≠ depth by omega, show j ≠ depth + 1 by omega]
    · left
      simp
    · simp at larger ⊢
      omega

theorem Split.inner {after : Stack} {stop : Nat} (split : Split stack after depth stop)
    (lower : stack.beg depth ≤ stop) (upper : stop < stack.end_ depth) {j : Nat}
    (above : depth ≤ j) (small : j < depth + 2) :
    stack.beg depth ≤ after.beg j ∧ after.beg j ≤ after.end_ j ∧
      after.end_ j ≤ stack.end_ depth := by
  obtain rfl | rfl : j = depth ∨ j = depth + 1 := by omega
  · obtain ⟨first, -⟩ | ⟨first, -⟩ := split.parts
    · omega
    · omega
  · obtain ⟨-, second⟩ | ⟨-, second⟩ := split.parts
    · omega
    · omega

theorem Pending.push {after : Nat → α} {next : Stack} {stop : Nat}
    (pending : Pending elements original (depth + 1) arr stack)
    (split : Split stack next depth stop) (lower : stack.beg depth ≤ stop)
    (upper : stop < stack.end_ depth)
    (rearranged : Rearranged (stack.beg depth) (stack.end_ depth) arr after)
    (small : ∀ k, stack.beg depth ≤ k → k < stop → after k ≤ after stop)
    (large : ∀ k, stop < k → k < stack.end_ depth → after stop ≤ after k) :
    Pending elements original (depth + 2) after next := by
  have top := pending.within depth (Nat.lt_succ_self _)
  have inner := @Split.inner depth stack next stop split lower upper
  constructor
  · intro j jSmall
    by_cases below : j < depth
    · rw [(split.below j below).1, (split.below j below).2]
      exact pending.within j (by omega)
    · have bounds := inner (by omega) jSmall
      omega
  · intro j k less kSmall
    by_cases kBelow : k < depth
    · have jBelow : j < depth := Nat.lt_trans less kBelow
      rw [(split.below j jBelow).2, (split.below k kBelow).1, (split.below k kBelow).2,
        (split.below j jBelow).1]
      exact pending.apart j k less (by omega)
    · by_cases jBelow : j < depth
      · rw [(split.below j jBelow).2, (split.below j jBelow).1]
        have bounds := inner (by omega) kSmall
        have before := pending.apart j depth jBelow (Nat.lt_succ_self _)
        omega
      · obtain rfl : j = depth := by omega
        obtain rfl : k = j + 1 := by omega
        have parts := split.parts
        omega
  · intro j jSmall
    have whole := pending.halved depth (Nat.lt_succ_self _)
    by_cases below : j < depth
    · rw [(split.below j below).1, (split.below j below).2]
      exact pending.halved j (by omega)
    · have bounds := inner (by omega) jSmall
      obtain rfl | rfl : j = depth ∨ j = depth + 1 := by omega
      · exact Nat.le_trans (Nat.mul_le_mul_right _ (by omega)) whole
      · have smaller := split.smaller
        have half : (next.end_ (depth + 1) - next.beg (depth + 1)) * 2 ≤
            stack.end_ depth - stack.beg depth := by
          have parts := split.parts
          omega
        calc (next.end_ (depth + 1) - next.beg (depth + 1)) * 2 ^ (depth + 1)
            = (next.end_ (depth + 1) - next.beg (depth + 1)) * 2 * 2 ^ depth := by
              rw [Nat.pow_succ, Nat.mul_assoc, Nat.mul_comm 2]
          _ ≤ (stack.end_ depth - stack.beg depth) * 2 ^ depth := Nat.mul_le_mul_right _ half
          _ ≤ elements := whole
  · intro x y less ySmall
    have move : ∀ k, ∃ from_, after k = arr from_ ∧
        (k < stack.beg depth ∨ stack.end_ depth ≤ k → from_ = k) ∧
        (stack.beg depth ≤ k → k < stack.end_ depth →
          stack.beg depth ≤ from_ ∧ from_ < stack.end_ depth) := by
      intro k
      by_cases out : k < stack.beg depth ∨ stack.end_ depth ≤ k
      · exact ⟨k, rearranged.outside out, fun _ => rfl, fun _ _ => by omega⟩
      · obtain ⟨j, jLower, jUpper, same⟩ := rearranged.source (i := k) (by omega) (by omega)
        exact ⟨j, same, fun inside => absurd inside out, fun _ _ => ⟨jLower, jUpper⟩⟩
    obtain ⟨fromX, xIs, xOut, xIn⟩ := move x
    obtain ⟨fromY, yIs, yOut, yIn⟩ := move y
    by_cases both : stack.beg depth ≤ x ∧ y < stack.end_ depth
    · -- Both are in the window that was split: in one part, or on two sides of the pivot.
      have parts := split.parts
      by_cases left : y < stop
      · left
        rcases parts with ⟨first, -⟩ | ⟨-, second⟩
        · exact ⟨depth, by omega, by omega, by omega⟩
        · exact ⟨depth + 1, by omega, by omega, by omega⟩
      · by_cases right : stop < x
        · left
          rcases parts with ⟨-, second⟩ | ⟨first, -⟩
          · exact ⟨depth + 1, by omega, by omega, by omega⟩
          · exact ⟨depth, by omega, by omega, by omega⟩
        · right
          have toStop : after x ≤ after stop := by
            by_cases at_ : x = stop
            · rw [at_]
            · exact small x both.1 (by omega)
          have fromStop : after stop ≤ after y := by
            by_cases at_ : y = stop
            · rw [at_]
            · exact large y (by omega) both.2
          exact toStop.trans fromStop
    · have fromLess : fromX < fromY := by
        by_cases xOutside : x < stack.beg depth ∨ stack.end_ depth ≤ x
        · have xSame := xOut xOutside
          by_cases yOutside : y < stack.beg depth ∨ stack.end_ depth ≤ y
          · have ySame := yOut yOutside
            omega
          · have yBounds := yIn (by omega) (by omega)
            omega
        · have xBounds := xIn (by omega) (by omega)
          have ySame := yOut (by omega)
          omega
      have fromSmall : fromY < elements := by
        by_cases yOutside : y < stack.beg depth ∨ stack.end_ depth ≤ y
        · have ySame := yOut yOutside
          omega
        · have yBounds := yIn (by omega) (by omega)
          omega
      obtain ⟨j, jSmall, jLower, jUpper⟩ | ordered := pending.ordered fromX fromY fromLess fromSmall
      · have below : j < depth := by
          by_contra notBelow
          obtain rfl : j = depth := by omega
          omega
        have before := pending.apart j depth below (Nat.lt_succ_self _)
        have xSame := xOut (by
          by_contra inside
          have xBounds := xIn (by omega) (by omega)
          omega)
        have ySame := yOut (by
          by_contra inside
          have yBounds := yIn (by omega) (by omega)
          omega)
        left
        refine ⟨j, by omega, ?_, ?_⟩
        · rw [(split.below j below).1]
          omega
        · rw [(split.below j below).2]
          omega
      · right
        rw [xIs, yIs]
        exact ordered
  · exact pending.rearranged.trans (rearranged.widen (Nat.zero_le _) top.2)

def work (stack : Stack) (depth : Nat) : Nat :=
  ∑ j ∈ Finset.range depth, (2 * (stack.end_ j - stack.beg j) + 1)

theorem work_succ (stack : Stack) (depth : Nat) :
    work stack (depth + 1) = work stack depth + (2 * (stack.end_ depth - stack.beg depth) + 1) :=
  Finset.sum_range_succ _ _

theorem Split.work_lt {after : Stack} {stop : Nat} (split : Split stack after depth stop)
    (lower : stack.beg depth ≤ stop) (upper : stop < stack.end_ depth) :
    work after (depth + 2) < work stack (depth + 1) := by
  have same : work after depth = work stack depth := by
    refine Finset.sum_congr rfl fun j inside => ?_
    have below := split.below j (Finset.mem_range.mp inside)
    rw [below.1, below.2]
  have parts := split.parts
  rw [work_succ, work_succ, work_succ, same]
  omega

theorem Pending.loop {fuel : Nat} (small : elements < 2 ^ 32) (deep : depth ≤ maxDepth elements)
    (pending : Pending elements original depth arr stack) (enough : work stack depth < fuel) :
    ∃ after, drfLoop elements (maxDepth elements) fuel arr stack depth = some after ∧
      Sorts elements original after := by
  induction fuel generalizing depth arr stack with
  | zero => exact absurd enough (Nat.not_lt_zero _)
  | succ fuel ih =>
    cases depth with
    | zero =>
      refine ⟨arr, rfl, ?_, pending.rearranged⟩
      intro x y _ less ySmall
      refine (pending.ordered x y less ySmall).resolve_left ?_
      intro ⟨j, negative, _⟩
      exact absurd negative (Nat.not_lt_zero j)
    | succ i =>
      rw [drfLoop, if_pos (show i < maxDepth elements from deep)]
      simp only
      by_cases long : stack.beg i < stack.end_ i - 1
      · have within := pending.within i (Nat.lt_succ_self i)
        have room : i + 1 < maxDepth elements := by
          refine lt_maxDepth small (Nat.le_trans ?_ (pending.halved i (Nat.lt_succ_self i)))
          rw [Nat.pow_succ, Nat.mul_comm]
          exact Nat.mul_le_mul_right _ (by omega)
        have hole : Hole (stack.beg i) (stack.end_ i) arr (arr (stack.beg i)) arr (stack.beg i)
            (stack.end_ i - 1) (stack.beg i) := by
          refine ⟨Nat.le_refl _, by omega, by omega, ?_, ?_, ?_⟩
          · rw [update_eq_self]
            exact .refl _ _ arr
          · intro k kLower kUpper
            omega
          · intro k kLower kUpper
            omega
        obtain ⟨parted, stop, partIs, closed⟩ :=
          hole.partition within.2 (Nat.lt_succ_self (stack.end_ i - 1 - stack.beg i))
        have stopUpper := closed.upper
        have next := pending.push (split_smallerOnTop stack i stop) closed.lower stopUpper
          closed.rearranged
          (fun k kLower kUpper => by
            rw [update_self, update_of_ne (Nat.ne_of_lt kUpper)]
            exact closed.small k kLower kUpper)
          (fun k kLower kUpper => by
            rw [update_self, update_of_ne (Nat.ne_of_gt kLower)]
            exact closed.large k kLower kUpper)
        have less := (split_smallerOnTop stack i stop).work_lt closed.lower stopUpper
        obtain ⟨after, loopIs, sorts⟩ :=
          ih room next (Nat.lt_of_lt_of_le less (Nat.le_of_lt_succ enough))
        refine ⟨after, ?_, sorts⟩
        rw [if_pos long, load_inside (by omega)]
        simp only [Option.bind_eq_bind, Option.bind_some, partIs]
        rw [store_inside (by omega), store_inside room, store_inside room]
        simp only [Option.bind_some]
        rw [store_inside (by omega)]
        exact loopIs
      · rw [if_neg long]
        rw [work_succ] at enough
        exact ih (Nat.le_of_succ_le deep) (pending.pop long) (by omega)

/-- Both quicksorts return with the array sorted after at most `2 * elements + 2` rounds. -/
theorem drfQsort_sorts {elements : Nat} (small : elements < 2 ^ 32) :
    (∀ (α : Type) (_ : LinearOrder α) (arr : Nat → α) (fuel : Nat), 2 * elements + 1 < fuel →
      ∃ after, drfQsortDbl fuel arr elements = some after ∧ Sorts elements arr after) ∧
    (∀ (arr : Nat → Aligned) (fuel : Nat), 2 * elements + 1 < fuel →
      ∃ after, drfQsortAlgt fuel arr elements = some after ∧ Sorts elements arr after) := by
  have sorts : ∀ (α : Type) (_ : LinearOrder α) (arr : Nat → α) (fuel : Nat),
      2 * elements + 1 < fuel →
      ∃ after, drfQsort fuel arr elements = some after ∧ Sorts elements arr after := by
    intro α _ arr fuel enough
    have room := maxDepth_pos small
    have started : work ⟨update (fun _ => 0) 0 0,
        update (fun _ => 0) 0 elements⟩ 1 = 2 * elements + 1 := by
      rw [work, Finset.sum_range_one]
      rfl
    obtain ⟨after, loopIs, sorted⟩ := (Pending.start arr).loop small room
      (Nat.lt_of_le_of_lt (Nat.le_of_eq started) enough)
    refine ⟨after, ?_, sorted⟩
    rw [drfQsort]
    rw [store_inside room, store_inside room]
    exact loopIs
  exact ⟨sorts, sorts (Fin (2 ^ 64)) inferInstance⟩

theorem drfQsort_sorts_three : ∃ after, drfQsortAlgt 8 (fun i => Fin.ofNat (2 ^ 64) (3 - i)) 3 = some after ∧
    Sorts 3 (fun i => Fin.ofNat (2 ^ 64) (3 - i)) after :=
  (drfQsort_sorts (by decide : 3 < 2 ^ 32)).2 _ 8 (by decide)

end Qthreads.Qutil
