import Qthreads.Qsort.Slices

namespace Qthreads.Qsort

open Lib
open Function (update update_of_ne update_self update_eq_self)

theorem swap_spec {α : Type} {count first second : Nat} (cells : Nat → α) (firstIn : first < count)
    (secondIn : second < count) (apart : first ≠ second) :
    ∃ after, swap count cells first second = some after ∧ Rearranged 0 count cells after ∧
      after first = cells second ∧ after second = cells first ∧
      ∀ cell, cell ≠ first → cell ≠ second → after cell = cells cell := by
  refine ⟨update (update cells first (cells second)) second (cells first), ?_,
    ?_, ?_, update_self .., ?_⟩
  · simp only [swap, load_inside firstIn, load_inside secondIn, Option.bind_eq_bind,
      Option.bind_some, store_inside firstIn, store_inside secondIn]
  · have moved := Rearranged.move_hole cells (cells first) apart (Nat.zero_le _) firstIn
      (Nat.zero_le _) secondIn
    rw [update_eq_self] at moved
    exact moved
  · rw [update_of_ne apart, update_self]
  · intro cell notFirst notSecond
    rw [update_of_ne notSecond, update_of_ne notFirst]

section

variable {α : Type} [LE α] [LT α] [DecidableLE α] [DecidableLT α] {chunksize count : Nat} {pivot : α} {args : Args}
variable {cells before after : Nat → α} {leftwall rightwall : Nat}

def Comparable (count : Nat) (pivot : α) (cells : Nat → α) : Prop :=
  ∀ cell, cell < count → (cells cell ≤ pivot ↔ ¬ pivot < cells cell)

omit [DecidableLE α] [DecidableLT α] in
theorem Comparable.rearranged (compared : Comparable count pivot before)
    (moved : Rearranged 0 count before after) : Comparable count pivot after := by
  intro cell inside
  obtain ⟨source, -, within, is⟩ := moved.source (Nat.zero_le cell) inside
  rw [is]
  exact compared source within

structure Args.Good (args : Args) (chunksize count : Nat) : Prop where
  stride : Stride (next chunksize args.jump) (back chunksize args.jump)
  nonempty : 0 < args.length
  last : Walked (next chunksize args.jump) (args.length - 1)
  inside : ∀ wall, Walked (next chunksize args.jump) wall → wall < args.length →
    args.offset + wall < count

variable (good : args.Good chunksize count)

include good

omit [DecidableLT α] in
theorem walkLeft_spec (cells : Nat → α) (compared : Comparable count pivot cells) (within : rightwall < args.length) (fuel leftwall : Nat)
    (left : Walked (next chunksize args.jump) leftwall) (apart : leftwall ≤ rightwall)
    (enough : rightwall < leftwall + fuel) :
    ∃ quick stop, walkLeft chunksize count pivot args cells rightwall fuel leftwall =
        some (quick, stop) ∧ Walked (next chunksize args.jump) stop ∧ leftwall ≤ stop ∧
      (∀ wall, Walked (next chunksize args.jump) wall → leftwall ≤ wall → wall < stop →
        cells (args.offset + wall) ≤ pivot) ∧
      (quick = true → rightwall < stop ∧
        ∀ wall, Walked (next chunksize args.jump) wall → rightwall < wall → stop ≤ wall) ∧
      (quick = false → stop ≤ rightwall ∧ pivot < cells (args.offset + stop)) := by
  induction fuel generalizing leftwall with
  | zero => omega
  | succ fuel ih =>
    have inside := good.inside leftwall left (by omega)
    rw [walkLeft, load_inside inside cells]
    dsimp only
    by_cases small : cells (args.offset + leftwall) ≤ pivot
    · have further := good.stride.lt leftwall
      have own (wall : Nat) (walked : Walked (next chunksize args.jump) wall)
          (low : leftwall ≤ wall) (high : wall < next chunksize args.jump leftwall) :
          cells (args.offset + wall) ≤ pivot := by
        have same := (left.lt_next good.stride walked).mp high
        rw [Nat.le_antisymm same low]
        exact small
      rw [if_pos small]
      by_cases beyond : rightwall < next chunksize args.jump leftwall
      · rw [if_pos beyond]
        refine ⟨_, _, rfl, left.succ, by omega, own, fun _ => ⟨beyond, ?_⟩, nofun⟩
        intro wall walked behind
        exact left.next_le good.stride walked (by omega)
      · rw [if_neg beyond]
        obtain ⟨quick, stop, ran, walked, low, done, exits, stops⟩ :=
          ih (next chunksize args.jump leftwall) left.succ (by omega) (by omega)
        refine ⟨quick, stop, ran, walked, by omega, ?_, exits, stops⟩
        intro wall walked low high
        by_cases near : wall < next chunksize args.jump leftwall
        · exact own wall walked low near
        · exact done wall walked (Nat.le_of_not_lt near) high
    · rw [if_neg small]
      exact ⟨_, _, rfl, left, Nat.le_refl _, fun wall _ low high => by omega, nofun,
        fun _ => ⟨apart, not_not.mp (mt (compared _ inside).mpr small)⟩⟩

omit [DecidableLE α] in
theorem walkRight_spec (cells : Nat → α) (compared : Comparable count pivot cells) (floor fuel rightwall : Nat)
    (right : Walked (next chunksize args.jump) rightwall) (within : rightwall < args.length)
    (above : floor ≤ rightwall) (enough : rightwall < fuel) :
    ∃ quick stop, walkRight chunksize count pivot args cells floor fuel rightwall =
        some (quick, stop) ∧ Walked (next chunksize args.jump) stop ∧ stop ≤ rightwall ∧
      (∀ wall, Walked (next chunksize args.jump) wall → stop < wall → wall ≤ rightwall →
        pivot < cells (args.offset + wall)) ∧
      (quick = true → stop < floor ∨
        stop = 0 ∧ floor = 0 ∧ pivot < cells (args.offset + stop)) ∧
      (quick = false → floor ≤ stop ∧ cells (args.offset + stop) ≤ pivot) := by
  induction fuel generalizing rightwall with
  | zero => omega
  | succ fuel ih =>
    have inside := good.inside rightwall right within
    rw [walkRight, load_inside inside cells]
    dsimp only
    by_cases large : pivot < cells (args.offset + rightwall)
    · rw [if_pos large]
      obtain ⟨zero, absent⟩ | ⟨previous, walked, is, back⟩ := right.back_cases good.stride
      · rw [absent]
        exact ⟨_, _, rfl, right, Nat.le_refl _, fun wall _ low high => by omega,
          fun _ => .inr ⟨zero, by omega, large⟩, nofun⟩
      · have less := good.stride.lt previous
        have own (wall : Nat) (other : Walked (next chunksize args.jump) wall)
            (low : previous < wall) (high : wall ≤ rightwall) :
            pivot < cells (args.offset + wall) := by
          have reach := walked.next_le good.stride other low
          rw [show wall = rightwall by omega]
          exact large
        rw [back]
        dsimp only
        by_cases below : previous < floor
        · rw [if_pos below]
          exact ⟨_, _, rfl, walked, by omega, own, fun _ => .inl below, nofun⟩
        · rw [if_neg below]
          obtain ⟨quick, stop, ran, walked, high, done, exits, stops⟩ :=
            ih previous walked (by omega) (by omega) (by omega)
          refine ⟨quick, stop, ran, walked, by omega, ?_, exits, stops⟩
          intro wall other low high
          by_cases far : previous < wall
          · exact own wall other far high
          · exact done wall other low (by omega)
    · rw [if_neg large]
      exact ⟨_, _, rfl, right, Nat.le_refl _, fun wall _ low high => by omega, nofun,
        fun _ => ⟨above, (compared _ inside).mpr large⟩⟩

omit good

structure Split (chunksize count : Nat) (pivot : α) (args : Args) (before after : Nat → α)
    (leftwall rightwall : Nat) : Prop where
  rearranged : Rearranged 0 count before after
  frame : ∀ cell, ¬ args.Visits chunksize cell → after cell = before cell
  small : ∀ wall, Walked (next chunksize args.jump) wall → wall < args.length →
    wall < leftwall → after (args.offset + wall) ≤ pivot
  large : ∀ wall, Walked (next chunksize args.jump) wall → wall < args.length →
    rightwall < wall → pivot < after (args.offset + wall)
  walked : Walked (next chunksize args.jump) rightwall
  inside : rightwall < args.length
  reach : ∀ wall, Walked (next chunksize args.jump) wall → args.length ≤ wall → leftwall ≤ wall

omit [DecidableLE α] [DecidableLT α] in
theorem Split.refl (walked : Walked (next chunksize args.jump) rightwall)
    (inside : rightwall < args.length)
    (small : ∀ wall, Walked (next chunksize args.jump) wall → wall < args.length →
      wall < leftwall → cells (args.offset + wall) ≤ pivot)
    (large : ∀ wall, Walked (next chunksize args.jump) wall → wall < args.length →
      rightwall < wall → pivot < cells (args.offset + wall))
    (reach : ∀ wall, Walked (next chunksize args.jump) wall → args.length ≤ wall →
      leftwall ≤ wall) :
    Split chunksize count pivot args cells cells leftwall rightwall :=
  ⟨.refl 0 count cells, fun _ _ => rfl, small, large, walked, inside, reach⟩

omit [DecidableLE α] [DecidableLT α] in
theorem Split.trans {middle : Nat → α}
    (split : Split chunksize count pivot args middle after leftwall rightwall)
    (rearranged : Rearranged 0 count before middle)
    (frame : ∀ cell, ¬ args.Visits chunksize cell → middle cell = before cell) :
    Split chunksize count pivot args before after leftwall rightwall :=
  ⟨rearranged.trans split.rearranged,
    fun cell unseen => (split.frame cell unseen).trans (frame cell unseen),
    split.small, split.large, split.walked, split.inside, split.reach⟩

include good

omit [LE α] [LT α] [DecidableLE α] [DecidableLT α] in
theorem swap_walls (cells : Nat → α) (left : Walked (next chunksize args.jump) leftwall)
    (right : Walked (next chunksize args.jump) rightwall) (apart : leftwall < rightwall)
    (within : rightwall < args.length) :
    ∃ after, swap count cells (args.offset + leftwall) (args.offset + rightwall) = some after ∧
      Rearranged 0 count cells after ∧
      after (args.offset + leftwall) = cells (args.offset + rightwall) ∧
      after (args.offset + rightwall) = cells (args.offset + leftwall) ∧
      (∀ wall, wall ≠ leftwall → wall ≠ rightwall →
        after (args.offset + wall) = cells (args.offset + wall)) ∧
      ∀ cell, ¬ args.Visits chunksize cell → after cell = cells cell := by
  obtain ⟨after, ran, rearranged, first, second, rest⟩ :=
    swap_spec cells (good.inside leftwall left (by omega)) (good.inside rightwall right within)
      (by omega)
  refine ⟨after, ran, rearranged, first, second, fun wall notLeft notRight => rest _ (by omega)
    (by omega), fun cell unseen => rest cell ?_ ?_⟩
  · intro same
    exact unseen ⟨leftwall, left, by omega, same⟩
  · intro same
    exact unseen ⟨rightwall, right, within, same⟩

theorem exchange_spec (fuel : Nat) (cells : Nat → α) (compared : Comparable count pivot cells)
    (leftwall rightwall : Nat)
    (left : Walked (next chunksize args.jump) leftwall)
    (right : Walked (next chunksize args.jump) rightwall) (apart : leftwall < rightwall)
    (within : rightwall < args.length) (enough : rightwall < leftwall + fuel)
    (small : ∀ wall, Walked (next chunksize args.jump) wall → wall ≤ leftwall →
      cells (args.offset + wall) ≤ pivot)
    (large : ∀ wall, Walked (next chunksize args.jump) wall → wall < args.length →
      rightwall ≤ wall → pivot < cells (args.offset + wall)) :
    ∃ after stopLeft stopRight,
      exchange chunksize count pivot args fuel cells leftwall rightwall =
        some (after, stopLeft, stopRight) ∧
      Split chunksize count pivot args cells after stopLeft stopRight ∧ leftwall < stopLeft ∧
      stopRight ≤ rightwall ∧
      (stopRight = rightwall → pivot < after (args.offset + rightwall)) := by
  induction fuel generalizing cells leftwall rightwall with
  | zero => omega
  | succ fuel ih =>
    have further := good.stride.lt leftwall
    have reach := left.next_le good.stride right apart
    rw [exchange, if_neg (Nat.not_lt.mpr reach)]
    obtain ⟨quick, stop, ran, walked, low, done, exits, stops⟩ :=
      walkLeft_spec good cells compared within (fuel + 1) (next chunksize args.jump leftwall) left.succ
        reach (by omega)
    have smaller (wall : Nat) (other : Walked (next chunksize args.jump) wall)
        (less : wall < stop) : cells (args.offset + wall) ≤ pivot := by
      by_cases early : wall < next chunksize args.jump leftwall
      · exact small wall other ((left.lt_next good.stride other).mp early)
      · exact done wall other (Nat.le_of_not_lt early) less
    rw [ran]
    cases quick with
    | true =>
      obtain ⟨beyond, least⟩ := exits rfl
      exact ⟨cells, stop, rightwall, rfl, .refl right within
        (fun wall other _ less => smaller wall other less)
        (fun wall other inside more => large wall other inside (Nat.le_of_lt more))
        (fun wall other far => least wall other (by omega)), by omega, Nat.le_refl _,
        fun _ => large rightwall right within (Nat.le_refl _)⟩
    | false =>
      obtain ⟨upper, beyond⟩ := stops rfl
      dsimp only
      by_cases met : rightwall ≤ stop
      · rw [if_pos met]
        exact ⟨cells, stop, rightwall, rfl, .refl right within
          (fun wall other _ less => smaller wall other less)
          (fun wall other inside more => large wall other inside (Nat.le_of_lt more))
          (fun wall _ far => by omega), by omega, Nat.le_refl _,
          fun _ => large rightwall right within (Nat.le_refl _)⟩
      · rw [if_neg met]
        obtain ⟨zero, -⟩ | ⟨previous, before, is, back⟩ := right.back_cases good.stride
        · omega
        · have less := good.stride.lt previous
          rw [back]
          dsimp only
          obtain ⟨quick, stopRight, ranRight, walkedRight, high, doneRight, exits, stops⟩ :=
            walkRight_spec good cells compared 0 (previous + 1) previous before (by omega)
              (Nat.zero_le _) (Nat.lt_succ_self _)
          have larger (wall : Nat) (other : Walked (next chunksize args.jump) wall)
              (inside : wall < args.length) (more : stopRight < wall) :
              pivot < cells (args.offset + wall) := by
            by_cases late : previous < wall
            · have far := before.next_le good.stride other late
              exact large wall other inside (by omega)
            · exact doneRight wall other more (Nat.le_of_not_lt late)
          rw [ranRight]
          cases quick with
          | true =>
            obtain bad | ⟨zero, -, beyond⟩ := exits rfl
            · omega
            · have under := smaller stopRight walkedRight (by omega)
              have inside := good.inside stopRight walkedRight (by omega)
              exact absurd beyond ((compared _ inside).mp under)
          | false =>
            obtain ⟨-, under⟩ := stops rfl
            dsimp only
            by_cases met : stopRight ≤ stop
            · rw [if_pos met]
              exact ⟨cells, stop, stopRight, rfl, .refl walkedRight (by omega)
                (fun wall other _ less => smaller wall other less) larger
                (fun wall _ far => by omega), by omega, by omega, fun same => by omega⟩
            · rw [if_neg met]
              obtain ⟨swapped, ranSwap, rearranged, first, second, rest, frame⟩ :=
                swap_walls good cells walked walkedRight (Nat.lt_of_not_le met) (by omega)
              obtain ⟨after, lastLeft, lastRight, ranRest, split, lower, upper, -⟩ :=
                ih swapped (compared.rearranged rearranged) stop stopRight walked walkedRight (by omega) (by omega) (by omega)
                  (fun wall other inside => by
                    obtain same | less := Nat.eq_or_lt_of_le inside
                    · rw [same, first]
                      exact under
                    · rw [rest wall (by omega) (by omega)]
                      exact smaller wall other less)
                  (fun wall other inside above => by
                    obtain same | more := Nat.eq_or_lt_of_le above
                    · rw [← same, second]
                      exact beyond
                    · rw [rest wall (by omega) (by omega)]
                      exact larger wall other inside more)
              rw [ranSwap]
              exact ⟨after, lastLeft, lastRight, ranRest, split.trans rearranged frame,
                by omega, by omega, fun same => by omega⟩

omit good

structure Outcome (chunksize : Nat) (pivot : α) (args : Args) (before after : Nat → α)
    (leftwall rightwall : Nat) : Prop where
  small : ∀ wall, Walked (next chunksize args.jump) wall → wall < args.length →
    wall < leftwall → after (args.offset + wall) ≤ pivot
  large : ∀ wall, Walked (next chunksize args.jump) wall → wall < args.length →
    rightwall < wall → pivot < after (args.offset + wall)
  walked : Walked (next chunksize args.jump) rightwall
  inside : rightwall < args.length
  reach : ∀ wall, Walked (next chunksize args.jump) wall → args.length ≤ wall → leftwall ≤ wall
  leftStays : leftwall = 0 → ∀ wall, Walked (next chunksize args.jump) wall →
    wall < args.length → pivot < before (args.offset + wall)
  rightStays : rightwall + 1 = args.length →
    (∀ wall, Walked (next chunksize args.jump) wall → wall < args.length →
      before (args.offset + wall) ≤ pivot) ∨
    args.length = 1 ∨
    before (args.offset + rightwall) ≤ pivot ∧ pivot < after (args.offset + rightwall)

omit [DecidableLE α] [DecidableLT α] in
theorem Outcome.congr {otherBefore otherAfter : Nat → α}
    (outcome : Outcome chunksize pivot args before after leftwall rightwall)
    (sameBefore : ∀ cell, args.Visits chunksize cell → otherBefore cell = before cell)
    (sameAfter : ∀ cell, args.Visits chunksize cell → otherAfter cell = after cell) :
    Outcome chunksize pivot args otherBefore otherAfter leftwall rightwall := by
  obtain ⟨small, large, walked, inside, reach, leftStays, rightStays⟩ := outcome
  have visits (wall : Nat) (other : Walked (next chunksize args.jump) wall)
      (within : wall < args.length) : args.Visits chunksize (args.offset + wall) :=
    ⟨wall, other, within, rfl⟩
  refine ⟨?_, ?_, walked, inside, reach, ?_, ?_⟩
  · intro wall other within
    rw [sameAfter _ (visits wall other within)]
    exact small wall other within
  · intro wall other within
    rw [sameAfter _ (visits wall other within)]
    exact large wall other within
  · intro zero wall other within
    rw [sameBefore _ (visits wall other within)]
    exact leftStays zero wall other within
  · intro last
    rw [sameBefore _ (visits rightwall walked inside), sameAfter _ (visits rightwall walked inside)]
    obtain all | one | turned := rightStays last
    · refine .inl fun wall other within => ?_
      rw [sameBefore _ (visits wall other within)]
      exact all wall other within
    · exact .inr (.inl one)
    · exact .inr (.inr turned)

omit [DecidableLE α] [DecidableLT α] in
theorem Split.outcome (split : Split chunksize count pivot args before after leftwall rightwall)
    (leftStays : leftwall = 0 → ∀ wall, Walked (next chunksize args.jump) wall →
      wall < args.length → pivot < before (args.offset + wall))
    (rightStays : rightwall + 1 = args.length →
      (∀ wall, Walked (next chunksize args.jump) wall → wall < args.length →
        before (args.offset + wall) ≤ pivot) ∨
      args.length = 1 ∨
      before (args.offset + rightwall) ≤ pivot ∧ pivot < after (args.offset + rightwall)) :
    Rearranged 0 count before after ∧
      (∀ cell, ¬ args.Visits chunksize cell → after cell = before cell) ∧
      Outcome chunksize pivot args before after leftwall rightwall :=
  ⟨split.rearranged, split.frame, split.small, split.large, split.walked, split.inside, split.reach,
    leftStays, rightStays⟩

include good

theorem partition_spec (size : args.length ≤ sizeRange) (cells : Nat → α)
    (compared : Comparable count pivot cells) :
    ∃ after leftwall rightwall,
      partition chunksize count pivot args cells = some (after, leftwall, rightwall) ∧
      Rearranged 0 count cells after ∧
      (∀ cell, ¬ args.Visits chunksize cell → after cell = cells cell) ∧
      Outcome chunksize pivot args cells after leftwall rightwall := by
  have nonempty := good.nonempty
  have wall : (args.length + (sizeRange - 1)) % sizeRange = args.length - 1 := by
    rw [show args.length + (sizeRange - 1) = args.length - 1 + sizeRange by
      unfold sizeRange
      omega, Nat.add_mod_right]
    exact Nat.mod_eq_of_lt (by omega)
  rw [partition, wall]
  obtain ⟨quick, leftwall, ran, walked, -, done, exits, stops⟩ :=
    walkLeft_spec good cells compared (show args.length - 1 < args.length by omega) (args.length + 1) 0 .zero
      (Nat.zero_le _) (by omega)
  rw [ran]
  cases quick with
  | true =>
    obtain ⟨beyond, least⟩ := exits rfl
    have small (wall : Nat) (other : Walked (next chunksize args.jump) wall)
        (inside : wall < args.length) : cells (args.offset + wall) ≤ pivot :=
      done wall other (Nat.zero_le _) (by omega)
    have split : Split chunksize count pivot args cells cells leftwall (args.length - 1) :=
      .refl good.last (by omega) (fun wall other inside _ => small wall other inside)
        (fun wall _ inside more => by omega) (fun wall other far => least wall other (by omega))
    exact ⟨cells, leftwall, args.length - 1, rfl,
      split.outcome (fun zero => by omega) fun _ => .inl small⟩
  | false =>
    obtain ⟨upper, beyond⟩ := stops rfl
    dsimp only
    obtain ⟨quick, rightwall, ranRight, walkedRight, high, doneRight, exits, stops⟩ :=
      walkRight_spec good cells compared leftwall (args.length + 1) (args.length - 1) good.last (by omega)
        upper (by omega)
    rw [ranRight]
    cases quick with
    | true =>
      have large (wall : Nat) (other : Walked (next chunksize args.jump) wall)
          (inside : wall < args.length) (more : rightwall < wall) :
          pivot < cells (args.offset + wall) :=
        doneRight wall other more (by omega)
      have split : Split chunksize count pivot args cells cells leftwall rightwall :=
        .refl walkedRight (by omega)
          (fun wall other _ less => done wall other (Nat.zero_le _) less) large
          (fun wall _ far => by omega)
      refine ⟨cells, leftwall, rightwall, rfl, split.outcome ?_ ?_⟩
      · intro zero wall other inside
        obtain below | ⟨first, -, overFirst⟩ := exits rfl
        · omega
        · obtain same | more := Nat.eq_zero_or_pos wall
          · rw [same, ← first]
            exact overFirst
          · exact large wall other inside (by omega)
      · intro last
        obtain below | ⟨first, -, -⟩ := exits rfl
        · omega
        · exact .inr (.inl (by omega))
    | false =>
      obtain ⟨low, under⟩ := stops rfl
      have apart : leftwall < rightwall := by
        refine Nat.lt_of_le_of_ne low ?_
        rintro rfl
        have inside := good.inside leftwall walked (by omega)
        exact absurd beyond ((compared _ inside).mp under)
      obtain ⟨swapped, ranSwap, rearranged, first, second, rest, frame⟩ :=
        swap_walls good cells walked walkedRight apart (by omega)
      have small (wall : Nat) (other : Walked (next chunksize args.jump) wall)
          (inside : wall ≤ leftwall) : swapped (args.offset + wall) ≤ pivot := by
        obtain same | less := Nat.eq_or_lt_of_le inside
        · rw [same, first]
          exact under
        · rw [rest wall (by omega) (by omega)]
          exact done wall other (Nat.zero_le _) less
      have large (wall : Nat) (other : Walked (next chunksize args.jump) wall)
          (inside : wall < args.length) (above : rightwall ≤ wall) :
          pivot < swapped (args.offset + wall) := by
        obtain same | more := Nat.eq_or_lt_of_le above
        · rw [← same, second]
          exact beyond
        · rw [rest wall (by omega) (by omega)]
          exact doneRight wall other more (by omega)
      obtain ⟨after, lastLeft, lastRight, ranRest, split, lower, upper, stays⟩ :=
        exchange_spec good (args.length + 1) swapped (compared.rearranged rearranged) leftwall
          rightwall walked walkedRight apart (by omega) (by omega) small large
      dsimp only
      rw [ranSwap]
      refine ⟨after, lastLeft, lastRight, ranRest, (split.trans rearranged frame).outcome
        (fun zero => by omega) fun last => .inr (.inr ?_)⟩
      have same : lastRight = rightwall := by omega
      rw [same]
      exact ⟨under, stays same⟩

end

end Qthreads.Qsort
