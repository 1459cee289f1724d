import Qthreads.Qsort.PartitionExact

namespace Qthreads.Qsort

open Lib

section

variable {α : Type} [LE α] [LT α] [DecidableLE α] [DecidableLT α] {chunksize count : Nat} {pivot : α}

def Args.Apart (chunksize : Nat) (first second : Args) : Prop :=
  ∀ cell, first.Visits chunksize cell → ¬ second.Visits chunksize cell

def Finished (chunksize : Nat) (pivot : α) (before after : Nat → α) (walls : Walls) (args : Args) :
    Prop :=
  ∃ leftwall rightwall, Outcome chunksize pivot args before after leftwall rightwall ∧
    walls.leftwall ≤ leftwall + args.offset ∧ rightwall + args.offset ≤ walls.rightwall

structure Attained (chunksize : Nat) (pivot : α) (before after : Nat → α) (start walls : Walls)
    (tasks : List Args) : Prop where
  left : walls.leftwall = start.leftwall ∨ ∃ args ∈ tasks, ∃ leftwall rightwall,
    Outcome chunksize pivot args before after leftwall rightwall ∧
      walls.leftwall = leftwall + args.offset
  right : walls.rightwall = start.rightwall ∨ ∃ args ∈ tasks, ∃ leftwall rightwall,
    Outcome chunksize pivot args before after leftwall rightwall ∧
      walls.rightwall = rightwall + args.offset

theorem Walls.extend_bounds (walls : Walls) (leftwall rightwall : Nat) :
    (walls.extend leftwall rightwall).leftwall ≤ leftwall ∧
      (walls.extend leftwall rightwall).leftwall ≤ walls.leftwall ∧
      rightwall ≤ (walls.extend leftwall rightwall).rightwall ∧
      walls.rightwall ≤ (walls.extend leftwall rightwall).rightwall := by
  simp only [Walls.extend]
  split <;> split <;> omega

theorem Walls.extend_cases (walls : Walls) (leftwall rightwall : Nat) :
    ((walls.extend leftwall rightwall).leftwall = leftwall ∨
        (walls.extend leftwall rightwall).leftwall = walls.leftwall) ∧
      ((walls.extend leftwall rightwall).rightwall = rightwall ∨
        (walls.extend leftwall rightwall).rightwall = walls.rightwall) := by
  simp only [Walls.extend]
  split <;> split <;> simp only [true_or, or_true, and_self]

theorem runTasks_spec (pivot : α) (tasks : List Args)
    (good : ∀ args ∈ tasks, args.Good chunksize count ∧ args.length ≤ sizeRange)
    (apart : tasks.Pairwise (Args.Apart chunksize)) (cells : Nat → α)
    (compared : Comparable count pivot cells) (start : Walls) :
    ∃ after walls, runTasks chunksize count pivot tasks cells start = some (after, walls) ∧
      Rearranged 0 count cells after ∧
      (∀ cell, (∀ args ∈ tasks, ¬ args.Visits chunksize cell) → after cell = cells cell) ∧
      (∀ args ∈ tasks, Finished chunksize pivot cells after walls args) ∧
      Attained chunksize pivot cells after start walls tasks ∧
      walls.leftwall ≤ start.leftwall ∧ start.rightwall ≤ walls.rightwall := by
  induction tasks generalizing cells start with
  | nil =>
    exact ⟨cells, start, rfl, .refl 0 count cells, fun _ _ => rfl, nofun, ⟨.inl rfl, .inl rfl⟩,
      Nat.le_refl _, Nat.le_refl _⟩
  | cons args rest ih =>
    obtain ⟨first, later⟩ := List.pairwise_cons.mp apart
    obtain ⟨own, size⟩ := good args (List.mem_cons_self ..)
    obtain ⟨middle, leftwall, rightwall, ran, moved, frame, outcome⟩ :=
      partition_spec own size cells compared
    obtain ⟨after, walls, ranRest, movedRest, frameRest, finished, attained, left, right⟩ :=
      ih (fun other member => good other (List.mem_cons_of_mem _ member)) later middle
        (compared.rearranged moved) (start.extend (leftwall + args.offset) (rightwall + args.offset))
    obtain ⟨low, lower, high, higher⟩ :=
      start.extend_bounds (leftwall + args.offset) (rightwall + args.offset)
    obtain ⟨leftIs, rightIs⟩ :=
      start.extend_cases (leftwall + args.offset) (rightwall + args.offset)
    have mine : Outcome chunksize pivot args cells after leftwall rightwall :=
      outcome.congr (fun _ _ => rfl) fun cell visits =>
        frameRest cell fun other member => first other member cell visits
    have theirs {other : Args} (member : other ∈ rest) {leftwall rightwall : Nat}
        (outcome : Outcome chunksize pivot other middle after leftwall rightwall) :
        Outcome chunksize pivot other cells after leftwall rightwall :=
      outcome.congr (fun cell visits => (frame cell fun seen =>
        first other member cell seen visits).symm) fun _ _ => rfl
    refine ⟨after, walls, ?_, moved.trans movedRest, ?_, ?_, ⟨?_, ?_⟩, by omega, by omega⟩
    · rw [runTasks, ran]
      exact ranRest
    · intro cell unseen
      rw [frameRest cell fun other member => unseen other (List.mem_cons_of_mem _ member),
        frame cell (unseen args (List.mem_cons_self ..))]
    · intro other member
      cases List.mem_cons.mp member with
      | inl same =>
        subst same
        exact ⟨leftwall, rightwall, mine, by omega, by omega⟩
      | inr inRest =>
        obtain ⟨otherLeft, otherRight, outcome, bounds⟩ := finished other inRest
        exact ⟨otherLeft, otherRight, theirs inRest outcome, bounds⟩
    · obtain begun | ⟨other, member, otherLeft, otherRight, outcome, is⟩ := attained.left
      · rw [begun]
        obtain same | same := leftIs
        · exact .inr ⟨args, List.mem_cons_self .., leftwall, rightwall, mine, same⟩
        · exact .inl same
      · exact .inr ⟨other, List.mem_cons_of_mem _ member, otherLeft, otherRight,
          theirs member outcome, is⟩
    · obtain begun | ⟨other, member, otherLeft, otherRight, outcome, is⟩ := attained.right
      · rw [begun]
        obtain same | same := rightIs
        · exact .inr ⟨args, List.mem_cons_self .., leftwall, rightwall, mine, same⟩
        · exact .inl same
      · exact .inr ⟨other, List.mem_cons_of_mem _ member, otherLeft, otherRight,
          theirs member outcome, is⟩

variable {numthreads length i : Nat} {args : Args} {cells before after : Nat → α}

theorem Fits.good (fits : Fits chunksize numthreads length i args) (chunk : 0 < chunksize)
    (listed : i < numthreads) : args.Good chunksize length := by
  have own := jumps chunk (Nat.zero_lt_of_lt listed)
  rw [← fits.jump] at own
  obtain ⟨mega, cell, small, ends⟩ := fits.last
  refine ⟨own.stride, by omega, own.walked_iff.mpr ⟨mega, cell, small, by omega⟩, ?_⟩
  intro wall walked inside
  obtain ⟨mega, cell, small, rfl⟩ := own.walked_iff.mp walked
  rw [fits.offset]
  exact (fits.inside mega cell small).mp inside

theorem Args.Good.length_le (good : args.Good chunksize count) : args.length ≤ count := by
  have last := good.inside (args.length - 1) good.last (by have nonempty := good.nonempty; omega)
  omega

/-- What a round leaves in the window, and when a wall has not moved. -/
structure Round (chunksize numthreads count : Nat) (pivot : α) (before after : Nat → α)
    (walls : Walls) : Prop where
  rearranged : Rearranged 0 count before after
  small : ∀ cell, cell < count → cell < walls.leftwall → after cell ≤ pivot
  large : ∀ cell, cell < count → walls.rightwall < cell → pivot < after cell
  left_le : walls.leftwall ≤ count
  right_lt : walls.rightwall < count
  leftStays : walls.leftwall = 0 →
    ∀ cell, cell < count → cell / chunksize % numthreads = 0 → pivot < before cell
  rightStays : 1 < count → walls.rightwall + 1 = count →
    (∀ cell, cell < count →
      cell / chunksize % numthreads = (count - 1) / chunksize % numthreads → before cell ≤ pivot) ∨
    (∀ cell, cell < count →
      cell / chunksize % numthreads = (count - 1) / chunksize % numthreads → cell + 1 = count) ∨
    before (count - 1) ≤ pivot ∧ pivot < after (count - 1)

structure Dealt (chunksize numthreads count : Nat) (tasks : List Args) : Prop where
  fits : ∀ args ∈ tasks, ∃ i, i < numthreads ∧ Fits chunksize numthreads count i args
  each : ∀ i, i < numthreads → ∃ args ∈ tasks, Fits chunksize numthreads count i args
  apart : tasks.Pairwise (Args.Apart chunksize)

theorem slices_dealt (chunk : 0 < chunksize) (threads : 0 < numthreads)
    (wide : (numthreads - 1) * chunksize < count)
    (room : count + chunksize * numthreads < sizeRange) :
    Dealt chunksize numthreads count (slices chunksize numthreads count) := by
  rw [slices_eq chunk threads wide room]
  refine ⟨?_, ?_, ?_⟩
  · intro args member
    obtain ⟨i, listed, rfl⟩ := List.mem_map.mp member
    have less := List.mem_range.mp listed
    exact ⟨i, less, sliceLength_fits chunk less wide⟩
  · intro i less
    exact ⟨_, List.mem_map.mpr ⟨i, List.mem_range.mpr less, rfl⟩, sliceLength_fits chunk less wide⟩
  · rw [List.pairwise_map]
    refine List.Pairwise.imp_of_mem ?_ List.nodup_range
    intro first second firstIn secondIn differ cell seen other
    have firstLess := List.mem_range.mp firstIn
    have secondLess := List.mem_range.mp secondIn
    have here := ((sliceLength_fits chunk firstLess wide).visits_iff chunk firstLess).mp seen
    have there := ((sliceLength_fits chunk secondLess wide).visits_iff chunk secondLess).mp other
    exact differ (here.2.symm.trans there.2)

theorem Dealt.perm {tasks order : List Args} (dealt : Dealt chunksize numthreads count tasks)
    (perm : order.Perm tasks) : Dealt chunksize numthreads count order := by
  refine ⟨fun args member => dealt.fits args (perm.mem_iff.mp member), ?_, ?_⟩
  · intro i listed
    obtain ⟨args, member, fits⟩ := dealt.each i listed
    exact ⟨args, perm.mem_iff.mpr member, fits⟩
  · refine (List.Perm.pairwise_iff ?_ perm).mpr dealt.apart
    intro first second apart cell seen other
    exact apart cell other seen

theorem innerPartitioner_spec {order : List Args}
    (dealt : Dealt chunksize numthreads count order) (chunk : 0 < chunksize)
    (threads : 0 < numthreads) (positive : 0 < count) (room : count + 1 < sizeRange)
    (pivot : α) (cells : Nat → α) (compared : Comparable count pivot cells) :
    ∃ after walls, innerPartitioner chunksize count pivot order cells = some (after, walls) ∧
      Round chunksize numthreads count pivot cells after walls := by
  have good : ∀ args ∈ order, args.Good chunksize count ∧ args.length ≤ sizeRange := by
    intro args member
    obtain ⟨i, listed, fits⟩ := dealt.fits args member
    have own := fits.good chunk listed
    have short := own.length_le
    exact ⟨own, by omega⟩
  obtain ⟨after, walls, ran, rearranged, -, finished, attained, left, right⟩ :=
    runTasks_spec pivot order good dealt.apart cells compared ⟨sizeRange - 1, 0⟩
  have own (cell : Nat) : ∃ args ∈ order, ∃ wall, Walked (next chunksize args.jump) wall ∧
      cell = args.offset + wall ∧ (wall < args.length ↔ cell < count) := by
    have listed := Nat.mod_lt (cell / chunksize) threads
    obtain ⟨args, member, fits⟩ := dealt.each _ listed
    have jumps := jumps chunk threads
    obtain ⟨mega, inChunk, small, is⟩ := (jumps.dealt_iff listed).mp rfl
    rw [← fits.jump] at jumps
    refine ⟨args, member, _, jumps.walked_iff.mpr ⟨mega, inChunk, small, rfl⟩, ?_, ?_⟩
    · rw [fits.offset]
      exact is
    · rw [fits.inside mega inChunk small, ← is]
  have left_le : walls.leftwall ≤ count := by
    obtain ⟨args, member, wall, walked, is, inside⟩ := own count
    obtain ⟨leftwall, rightwall, outcome, low, high⟩ := finished args member
    have reach := outcome.reach wall walked (by omega)
    omega
  refine ⟨after, walls, ran, rearranged, ?_, ?_, left_le, ?_, ?_, ?_⟩
  · intro cell within less
    obtain ⟨args, member, wall, walked, rfl, inside⟩ := own cell
    obtain ⟨leftwall, rightwall, outcome, low, high⟩ := finished args member
    exact outcome.small wall walked (inside.mpr within) (by omega)
  · intro cell within more
    obtain ⟨args, member, wall, walked, rfl, inside⟩ := own cell
    obtain ⟨leftwall, rightwall, outcome, low, high⟩ := finished args member
    exact outcome.large wall walked (inside.mpr within) (by omega)
  · obtain begun | ⟨args, member, leftwall, rightwall, outcome, is⟩ := attained.right
    · rw [begun]
      exact positive
    · have within := (good args member).1.inside rightwall outcome.walked outcome.inside
      omega
  · intro zero cell within first
    obtain begun | ⟨args, member, leftwall, rightwall, outcome, is⟩ := attained.left
    · rw [begun] at left_le
      exact absurd left_le (Nat.not_le.mpr (Nat.lt_sub_of_add_lt room))
    · obtain ⟨i, listed, fits⟩ := dealt.fits args member
      have offset : i * chunksize = 0 := by
        rw [← fits.offset]
        omega
      obtain rfl | isZero := Nat.mul_eq_zero.mp offset
      · obtain ⟨wall, walked, inside, rfl⟩ :=
          (fits.visits_iff chunk listed).mpr ⟨within, first⟩
        exact outcome.leftStays (by omega) wall walked inside
      · omega
  · intro several last
    obtain begun | ⟨args, member, leftwall, rightwall, outcome, is⟩ := attained.right
    · rw [begun] at last
      exact absurd last (Nat.ne_of_lt several)
    · obtain ⟨i, listed, fits⟩ := dealt.fits args member
      have visits : args.Visits chunksize (count - 1) :=
        ⟨rightwall, outcome.walked, outcome.inside, by omega⟩
      have turn := ((fits.visits_iff chunk listed).mp visits).2
      have ends := (good args member).1.inside (args.length - 1) (good args member).1.last
        (by have nonempty := (good args member).1.nonempty; omega)
      have inside := outcome.inside
      have at_ : count - 1 = args.offset + rightwall := by omega
      rw [turn]
      obtain all | one | turned := outcome.rightStays (by omega)
      · refine .inl fun cell within same => ?_
        obtain ⟨wall, walked, inside, rfl⟩ := (fits.visits_iff chunk listed).mpr ⟨within, same⟩
        exact all wall walked inside
      · refine .inr (.inl fun cell within same => ?_)
        obtain ⟨wall, walked, inside, rfl⟩ := (fits.visits_iff chunk listed).mpr ⟨within, same⟩
        omega
      · rw [at_]
        exact .inr (.inr turned)

end

/-- `chunksize` of `qt_qsort_inner_partitioner`. -/
def qtChunksize : Nat := 10

/-- The window `[left, right]` with which `qt_qsort_inner`, called for `len`, calls
`qt_qsort_inner_partitioner`; the shepherds are counted in a `qthread_shepherd_id_t`, and an array
of `double` is of less than `2 ^ 61`. -/
structure Called (numthreads len left right : Nat) : Prop where
  several : 1 < numthreads
  shepherds : numthreads < 2 ^ 16
  long : 10000 < len
  array : len < 2 ^ 61
  inside : right < len
  distinct : left < right
  wide : 2 * (len / numthreads) < right - left

/-- The slices cover the window, and in any order of the tasks each side of the walls is right. -/
def PartitionsWindow {α : Type} [LE α] [LT α] [DecidableLE α] [DecidableLT α]
    (numthreads length : Nat) (pivot : α) (cells : Nat → α) : Prop :=
  Covers qtChunksize length (slices qtChunksize numthreads length) ∧
    ∀ order : List Args, order.Perm (slices qtChunksize numthreads length) →
      ∃ after walls, innerPartitioner qtChunksize length pivot order cells = some (after, walls) ∧
        Rearranged 0 length cells after ∧
        (∀ cell, cell < length → cell < walls.leftwall → after cell ≤ pivot) ∧
        ∀ cell, cell < length → walls.rightwall < cell → pivot < after cell

theorem Called.room {numthreads len left right : Nat} (called : Called numthreads len left right) :
    right - left + 1 + numthreads * (qtChunksize * numthreads) < sizeRange := by
  have square : numthreads * (qtChunksize * numthreads) ≤ 2 ^ 16 * (10 * 2 ^ 16) :=
    Nat.mul_le_mul (Nat.le_of_lt called.shepherds)
      (Nat.mul_le_mul_left 10 (Nat.le_of_lt called.shepherds))
  have array := called.array
  have inside := called.inside
  unfold sizeRange
  omega

section

variable {α : Type} [LE α] [LT α] [DecidableLE α] [DecidableLT α] {pivot value : α}

theorem partitions_begin {numthreads len left right : Nat} {cells : Nat → α}
    (called : Called numthreads len left right)
    (right_ : PartitionsWindow numthreads (right - left + 1) pivot cells) :
    10 * (numthreads - 1) < right - left + 1 := by
  have several := called.several
  by_contra short
  refine slices_escape (show 0 < qtChunksize by decide) (by omega) ?_ (Nat.succ_pos _) called.room
    right_.1
  rw [Nat.mul_comm]
  exact Nat.le_of_not_lt short

theorem partitions_comparable {numthreads len left right : Nat} {cells : Nat → α}
    (called : Called numthreads len left right)
    (begins : 10 * (numthreads - 1) < right - left + 1)
    (compared : Comparable (right - left + 1) pivot cells) :
    PartitionsWindow numthreads (right - left + 1) pivot cells := by
  have several := called.several
  have room := called.room
  have once : qtChunksize * numthreads ≤ numthreads * (qtChunksize * numthreads) :=
    Nat.le_mul_of_pos_left _ (by omega)
  have near : right - left + 1 + qtChunksize * numthreads < sizeRange := by omega
  have chunk : 0 < qtChunksize := by decide
  have positive : 0 < numthreads := by omega
  have reach : (numthreads - 1) * qtChunksize < right - left + 1 := by
    rw [Nat.mul_comm]
    exact begins
  refine ⟨slices_cover chunk positive reach near, fun order perm => ?_⟩
  have dealt := (slices_dealt chunk positive reach near).perm perm
  have small : right - left + 1 + 1 < sizeRange := by
    have product := Nat.mul_pos chunk positive
    omega
  obtain ⟨after, walls, ran, round⟩ :=
    innerPartitioner_spec dealt chunk positive (Nat.succ_pos _) small pivot cells compared
  exact ⟨after, walls, ran, round.rearranged, round.small, round.large⟩

variable {chunksize count : Nat} {args : Args} {after : Nat → α} {l r : Nat}

omit [LT α] [DecidableLT α] in
theorem walkLeft_stuck {rightwall fuel leftwall : Nat} {quick : Bool} (stuck : ¬ value ≤ pivot)
    (ran : walkLeft chunksize count pivot args (fun _ => value) rightwall fuel leftwall =
      some (quick, l)) : quick = false ∧ l = leftwall := by
  cases fuel with
  | zero => cases ran
  | succ fuel =>
    rw [walkLeft, load] at ran
    split at ran
    · cases ran
    · next here =>
        split at here
        · cases here
          rw [if_neg stuck] at ran
          cases ran
          exact ⟨rfl, rfl⟩
        · cases here

omit [LE α] [DecidableLE α] in
theorem walkRight_stuck {floor fuel rightwall : Nat} {quick : Bool} (stuck : ¬ pivot < value)
    (ran : walkRight chunksize count pivot args (fun _ => value) floor fuel rightwall =
      some (quick, r)) : quick = false ∧ r = rightwall := by
  cases fuel with
  | zero => cases ran
  | succ fuel =>
    rw [walkRight, load] at ran
    split at ran
    · cases ran
    · next here =>
        split at here
        · cases here
          rw [if_neg stuck] at ran
          cases ran
          exact ⟨rfl, rfl⟩
        · cases here

omit [LE α] [LT α] [DecidableLE α] [DecidableLT α] in
theorem swap_same {first second : Nat} (ran : swap count (fun _ => value) first second = some after) :
    after = fun _ => value := by
  simp only [swap, load, store, Option.bind_eq_bind, Option.bind_eq_some_iff] at ran
  obtain ⟨tmp, here, other, there, middle, put, ends⟩ := ran
  simp only [Option.ite_none_right_eq_some, Option.some.injEq] at here there put ends
  rw [← ends.2, ← put.2, ← here.2, ← there.2, Function.update_eq_self_iff.mpr rfl,
    Function.update_eq_self_iff.mpr rfl]

theorem next_le (chunksize jump leftwall : Nat) : leftwall ≤ next chunksize jump leftwall := by
  unfold next
  split <;> omega

theorem exchange_stuck {fuel leftwall rightwall : Nat} (low : ¬ value ≤ pivot)
    (high : ¬ pivot < value)
    (ran : exchange chunksize count pivot args fuel (fun _ => value) leftwall rightwall =
      some (after, l, r)) : after = (fun _ => value) ∧ next chunksize args.jump leftwall ≤ l := by
  induction fuel generalizing leftwall rightwall with
  | zero => cases ran
  | succ fuel ih =>
    rw [exchange] at ran
    split at ran
    · cases ran
      exact ⟨rfl, Nat.le_refl _⟩
    · split at ran
      · cases ran
      · next walked => cases (walkLeft_stuck low walked).1
      · next wall walked =>
          obtain ⟨-, rfl⟩ := walkLeft_stuck low walked
          split at ran
          · cases ran
            exact ⟨rfl, Nat.le_refl _⟩
          · split at ran
            · cases ran
              exact ⟨rfl, Nat.le_refl _⟩
            · split at ran
              · cases ran
              · next walked => cases (walkRight_stuck high walked).1
              · split at ran
                · cases ran
                  exact ⟨rfl, Nat.le_refl _⟩
                · split at ran
                  · cases ran
                  · next swapped =>
                      rw [swap_same swapped] at ran
                      obtain ⟨same, further⟩ := ih ran
                      exact ⟨same, Nat.le_trans (next_le ..) further⟩

/-- Where all cells are one value that is neither at most the pivot nor above it, the left wall
passes the first one. -/
theorem partition_stuck (low : ¬ value ≤ pivot) (high : ¬ pivot < value) (chunk : 1 < chunksize)
    (ran : partition chunksize count pivot args (fun _ => value) = some (after, l, r)) :
    after = (fun _ => value) ∧ 0 < l := by
  obtain ⟨rightwall, wall⟩ : ∃ rightwall, (args.length + (sizeRange - 1)) % sizeRange = rightwall :=
    ⟨_, rfl⟩
  rw [partition, wall] at ran
  cases left : walkLeft chunksize count pivot args (fun _ => value) rightwall (args.length + 1) 0 with
  | none =>
    rw [left] at ran
    cases ran
  | some found =>
    obtain ⟨quick, stop⟩ := found
    obtain ⟨rfl, rfl⟩ := walkLeft_stuck low left
    rw [left] at ran
    dsimp only at ran
    cases right : walkRight chunksize count pivot args (fun _ => value) 0 (args.length + 1)
        rightwall with
    | none =>
      rw [right] at ran
      cases ran
    | some found =>
      obtain ⟨quick, stop⟩ := found
      obtain ⟨rfl, rfl⟩ := walkRight_stuck high right
      rw [right] at ran
      dsimp only at ran
      cases swapped : swap count (fun _ => value) (args.offset + 0) (args.offset + stop) with
      | none =>
        rw [swapped] at ran
        cases ran
      | some cells =>
        rw [swapped, swap_same swapped] at ran
        obtain ⟨same, further⟩ := exchange_stuck low high ran
        have first : next chunksize args.jump 0 = 1 :=
          if_pos (by rw [Nat.zero_add, Nat.mod_eq_of_lt chunk]; decide)
        rw [first] at further
        exact ⟨same, further⟩

theorem runTasks_stuck {tasks : List Args} {start walls : Walls} (low : ¬ value ≤ pivot)
    (high : ¬ pivot < value) (chunk : 1 < chunksize) (begun : 0 < start.leftwall)
    (ran : runTasks chunksize count pivot tasks (fun _ => value) start = some (after, walls)) :
    after = (fun _ => value) ∧ 0 < walls.leftwall := by
  induction tasks generalizing start with
  | nil =>
    cases ran
    exact ⟨rfl, begun⟩
  | cons args rest ih =>
    rw [runTasks] at ran
    split at ran
    · cases ran
    · next task =>
        obtain ⟨rfl, moved⟩ := partition_stuck low high chunk task
        refine ih ?_ ran
        simp only [Walls.extend]
        split <;> omega

theorem partitions_stuck {numthreads length : Nat} (low : ¬ value ≤ pivot) (high : ¬ pivot < value) :
    ¬ PartitionsWindow numthreads (length + 1) pivot (fun _ => value) := by
  rintro ⟨-, partitioned⟩
  obtain ⟨after, walls, ran, -, small, -⟩ := partitioned _ (.refl _)
  rw [innerPartitioner] at ran
  obtain ⟨rfl, moved⟩ : after = (fun _ => value) ∧ 0 < walls.leftwall := by
    refine runTasks_stuck low high (show 1 < qtChunksize by decide) (Nat.lt_sub_of_add_lt ?_) ran
    unfold sizeRange
    omega
  exact low (small 0 (Nat.succ_pos length) moved)

/-- Every array of some values is partitioned right if and only if each slice begins inside of the
window and no value is a NaN; an array with a NaN may by luck be right too, but none is where a
slice begins behind the window. -/
theorem partitions_iff_all_begin (exclusive : ∀ x y : α, x ≤ y → ¬ y < x)
    {numthreads len left right : Nat} (called : Called numthreads len left right) (values : Set α)
    (occupied : values.Nonempty) :
    ((∀ pivot ∈ values, ∀ cells : Nat → α, (∀ cell, cell < right - left + 1 → cells cell ∈ values) →
        PartitionsWindow numthreads (right - left + 1) pivot cells) ↔
      10 * (numthreads - 1) < right - left + 1 ∧
        ∀ pivot ∈ values, ∀ value ∈ values, value ≤ pivot ∨ pivot < value) ∧
    ∀ (pivot : α) (cells : Nat → α),
      (PartitionsWindow numthreads (right - left + 1) pivot cells →
        10 * (numthreads - 1) < right - left + 1) ∧
      (10 * (numthreads - 1) < right - left + 1 →
        (∀ cell, cell < right - left + 1 → cells cell ≤ pivot ∨ pivot < cells cell) →
        PartitionsWindow numthreads (right - left + 1) pivot cells) := by
  have numbers (pivot : α) (cells : Nat → α) (begins : 10 * (numthreads - 1) < right - left + 1)
      (numbers : ∀ cell, cell < right - left + 1 → cells cell ≤ pivot ∨ pivot < cells cell) :
      PartitionsWindow numthreads (right - left + 1) pivot cells :=
    partitions_comparable called begins fun cell inside =>
      ⟨exclusive _ _, fun notAbove => (numbers cell inside).resolve_right notAbove⟩
  refine ⟨⟨fun right_ => ⟨?_, ?_⟩, ?_⟩, fun pivot cells =>
    ⟨fun right_ => partitions_begin called right_, numbers pivot cells⟩⟩
  · obtain ⟨value, member⟩ := occupied
    exact partitions_begin called (right_ value member (fun _ => value) fun _ _ => member)
  · intro pivot isPivot value member
    by_contra apart
    rw [not_or] at apart
    exact partitions_stuck apart.1 apart.2 (right_ pivot isPivot (fun _ => value) fun _ _ => member)
  · rintro ⟨begins, known⟩ pivot isPivot cells members
    exact numbers pivot cells begins fun cell inside =>
      known pivot isPivot (cells cell) (members cell inside)

end

theorem partitions_iff_all_begin_four :
    ((∀ pivot ∈ (Set.univ : Set Int), ∀ cells : Nat → Int,
        (∀ cell, cell < 10000 - 0 + 1 → cells cell ∈ Set.univ) →
          PartitionsWindow 4 (10000 - 0 + 1) pivot cells) ↔
      10 * (4 - 1) < 10000 - 0 + 1 ∧
        ∀ pivot ∈ (Set.univ : Set Int), ∀ value ∈ Set.univ, value ≤ pivot ∨ pivot < value) ∧
    PartitionsWindow 4 (10000 - 0 + 1) 7 (fun cell : Nat => (cell : Int)) := by
  have right := partitions_iff_all_begin (fun x y : Int => not_lt_of_ge) (show Called 4 10001 0 10000
    from ⟨by decide, by decide, by decide, by decide, by decide, by decide, by decide⟩) Set.univ
    ⟨0, trivial⟩
  exact ⟨right.1, (right.2 7 _).2 (by decide) fun cell _ => le_or_gt _ _⟩

/-- With 1002 shepherds the last slice of 10001 cells begins behind them. -/
theorem last_slice_escapes : ¬ ∀ numthreads len left right, Called numthreads len left right →
    ∀ (pivot : Int) (cells : Nat → Int), PartitionsWindow numthreads (right - left + 1) pivot cells := by
  intro all
  have called : Called 1002 10001 0 10000 :=
    ⟨by decide, by decide, by decide, by decide, by decide, by decide, by decide⟩
  have room : 10000 - 0 + 1 + 1002 * (qtChunksize * 1002) < sizeRange := by decide
  exact slices_escape (by decide) (by decide) (by decide) (by decide) room
    (all 1002 10001 0 10000 called 0 fun _ => 0).1

end Qthreads.Qsort
