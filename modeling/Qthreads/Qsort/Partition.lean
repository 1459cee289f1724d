import Mathlib.Algebra.Group.Nat.Defs
import Mathlib.Order.Fin.Basic
import Qthreads.Lib.Stride
import Qthreads.Lib.Window

namespace Qthreads.Qsort

open Lib

/-! `qt_qsort` of `qloop.c`, `qutil_qsort` and `qutil_aligned_qsort` of `qutil.c` partition in the same
way, the first one cells of `double`: nothing is assumed of the order, since a NaN is neither at most
the pivot nor above it.  `none` stands for an access outside of the window, and for a loop that has
not ended. -/

/-- The numbers of a `size_t`. -/
def sizeRange : Nat := 2 ^ 64

/-- What the tasks are called with, but for what they have in common. -/
structure Args where
  offset : Nat
  length : Nat
  jump : Nat

/-- The loop of `qt_qsort_inner_partitioner` over the tasks, with how many are left. -/
def slicesFrom (chunksize numthreads length : Nat) : Nat → Nat → Nat → List Args
  | 0, _, _ => []
  | left + 1, i, megachunks =>
    let megachunkSize := chunksize * numthreads
    let offset := i * chunksize
    let jump := (numthreads - 1) * chunksize + 1
    if length % megachunkSize ≠ 0 then
      let mine := (megachunks * megachunkSize + chunksize) % sizeRange
      if length ≤ (mine + offset) % sizeRange then
        ⟨offset, (length + (sizeRange - offset)) % sizeRange, jump⟩ ::
          slicesFrom chunksize numthreads length left (i + 1)
            ((megachunks + (sizeRange - 1)) % sizeRange)
      else ⟨offset, mine, jump⟩ :: slicesFrom chunksize numthreads length left (i + 1) megachunks
    else
      ⟨offset, (length + (sizeRange - megachunkSize) + chunksize) % sizeRange, jump⟩ ::
        slicesFrom chunksize numthreads length left (i + 1) megachunks

def slices (chunksize numthreads length : Nat) : List Args :=
  slicesFrom chunksize numthreads length numthreads 0 (length / (chunksize * numthreads))

section

variable {α : Type} [LE α] [LT α] [DecidableLE α] [DecidableLT α]
variable (chunksize count : Nat) (pivot : α) (args : Args)

def next (jump leftwall : Nat) : Nat :=
  if (leftwall + 1) % chunksize ≠ 0 then leftwall + 1 else leftwall + jump

/-- The right wall goes back; `none` is the `goto quickexit` at the first cell. -/
def back (jump rightwall : Nat) : Option Nat :=
  if rightwall % chunksize ≠ 0 then if rightwall = 0 then none else some (rightwall - 1)
  else if rightwall < jump then none else some (rightwall - jump)

def Args.Visits (args : Args) (chunksize cell : Nat) : Prop :=
  ∃ wall, Walked (next chunksize args.jump) wall ∧ wall < args.length ∧ cell = args.offset + wall

/-- `while (a[leftwall] <= pivot)`, with whether it went to `quickexit`. -/
def walkLeft (cells : Nat → α) (rightwall : Nat) : Nat → Nat → Option (Bool × Nat)
  | 0, _ => none
  | fuel + 1, leftwall =>
    match load count cells (args.offset + leftwall) with
    | none => none
    | some value =>
      if value ≤ pivot then
        let leftwall := next chunksize args.jump leftwall
        if rightwall < leftwall then some (true, leftwall)
        else walkLeft cells rightwall fuel leftwall
      else some (false, leftwall)

/-- `while (a[rightwall] > pivot)`, which goes to `quickexit` below `floor`. -/
def walkRight (cells : Nat → α) (floor : Nat) : Nat → Nat → Option (Bool × Nat)
  | 0, _ => none
  | fuel + 1, rightwall =>
    match load count cells (args.offset + rightwall) with
    | none => none
    | some value =>
      if pivot < value then
        match back chunksize args.jump rightwall with
        | none => some (true, rightwall)
        | some rightwall =>
          if rightwall < floor then some (true, rightwall)
          else walkRight cells floor fuel rightwall
      else some (false, rightwall)

def swap (cells : Nat → α) (first second : Nat) : Option (Nat → α) := do
  let tmp ← load count cells first
  let other ← load count cells second
  let cells ← store count cells first other
  store count cells second tmp

/-- `while (1)`; the walk of the left wall begins with its step, as does that of the right one, which
is not compared with the left one. -/
def exchange : Nat → (Nat → α) → Nat → Nat → Option ((Nat → α) × Nat × Nat)
  | 0, _, _, _ => none
  | fuel + 1, cells, leftwall, rightwall =>
    let leftwall := next chunksize args.jump leftwall
    if rightwall < leftwall then some (cells, leftwall, rightwall)
    else
      match walkLeft chunksize count pivot args cells rightwall (fuel + 1) leftwall with
      | none => none
      | some (true, leftwall) => some (cells, leftwall, rightwall)
      | some (false, leftwall) =>
        if rightwall ≤ leftwall then some (cells, leftwall, rightwall)
        else
          match back chunksize args.jump rightwall with
          | none => some (cells, leftwall, rightwall)
          | some rightwall =>
            match walkRight chunksize count pivot args cells 0 (rightwall + 1) rightwall with
            | none => none
            | some (true, rightwall) => some (cells, leftwall, rightwall)
            | some (false, rightwall) =>
              if rightwall ≤ leftwall then some (cells, leftwall, rightwall)
              else
                match swap count cells (args.offset + leftwall) (args.offset + rightwall) with
                | none => none
                | some cells => exchange fuel cells leftwall rightwall

/-- `qt_qsort_partition` up to `quickexit`, with the walls. -/
def partition (cells : Nat → α) : Option ((Nat → α) × Nat × Nat) :=
  let rightwall := (args.length + (sizeRange - 1)) % sizeRange
  match walkLeft chunksize count pivot args cells rightwall (args.length + 1) 0 with
  | none => none
  | some (true, leftwall) => some (cells, leftwall, rightwall)
  | some (false, leftwall) =>
    match walkRight chunksize count pivot args cells leftwall (args.length + 1) rightwall with
    | none => none
    | some (true, rightwall) => some (cells, leftwall, rightwall)
    | some (false, rightwall) =>
      match swap count cells (args.offset + leftwall) (args.offset + rightwall) with
      | none => none
      | some cells => exchange chunksize count pivot args (args.length + 1) cells leftwall rightwall

/-- `retval` -/
structure Walls where
  leftwall : Nat
  rightwall : Nat

/-- What a task does to `retval` at `quickexit`. -/
def Walls.extend (walls : Walls) (leftwall rightwall : Nat) : Walls where
  leftwall := if leftwall < walls.leftwall then leftwall else walls.leftwall
  rightwall := if walls.rightwall < rightwall then rightwall else walls.rightwall

def runTasks : List Args → (Nat → α) → Walls → Option ((Nat → α) × Walls)
  | [], cells, walls => some (cells, walls)
  | args :: rest, cells, walls =>
    match partition chunksize count pivot args cells with
    | none => none
    | some (cells, leftwall, rightwall) =>
      runTasks rest cells (walls.extend (leftwall + args.offset) (rightwall + args.offset))

/-- `qt_qsort_inner_partitioner`, for the order in which the tasks run. -/
def innerPartitioner (order : List Args) (cells : Nat → α) : Option ((Nat → α) × Walls) :=
  runTasks chunksize count pivot order cells ⟨sizeRange - 1, 0⟩

end

end Qthreads.Qsort
