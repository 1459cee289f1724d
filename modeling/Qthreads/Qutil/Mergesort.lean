import Qthreads.Qutil.DrfQsort

namespace Qthreads.Qutil

open Lib

/-! `none` is an access outside of an array or a loop that has not ended.  The tasks of a round are
run one after the other in any order. -/

/-- `a - b` of two `size_t` -/
def sizeSub (a b : Nat) : Nat := (a + 2 ^ 64 - b) % 2 ^ 64

/-- A sum or a product as a `size_t` holds it. -/
def sizeT (value : Nat) : Nat := value % 2 ^ 64

structure MergesortArgs where
  firstStart : Nat
  firstStop : Nat
  secondStart : Nat
  secondStop : Nat

structure Schedule (Task : Type) where
  order : Nat → List Task → List Task
  all : ∀ round tasks, (order round tasks).Perm tasks

section Order

variable {α : Type} [LinearOrder α]

/-- `qutil_mergesort_presort`, which sorts at `args->array + args->first_start`. -/
def mergesortPresort (fuel length : Nat) (array : Nat → α) (args : MergesortArgs) :
    Option (Nat → α) :=
  let elements := sizeT (sizeSub args.firstStop args.firstStart + 1)
  if args.firstStart + elements ≤ length then do
    let sorted ← drfQsortDbl fuel (fun i => array (args.firstStart + i)) elements
    return splice args.firstStart elements array sorted
  else none

/-- `for (k = ...; k >= args->first_start; k--)`, which ends behind `k == 0`. -/
def moveUp (length firstStart : Nat) : Nat → (Nat → α) → Option (Nat → α)
  | 0, array =>
    if firstStart ≤ 0 then do
      let value ← load length array 0
      store length array 1 value
    else some array
  | k + 1, array =>
    if firstStart ≤ k + 1 then do
      let value ← load length array (k + 1)
      let array ← store length array (k + 2) value
      moveUp length firstStart k array
    else some array

def mergesortInner (length : Nat) : Nat → (Nat → α) → MergesortArgs → Option (Nat → α)
  | 0, _, _ => none
  | fuel + 1, array, args =>
    if args.firstStart ≤ args.firstStop ∧ args.secondStart ≤ args.secondStop then do
      let first ← load length array args.firstStart
      let second ← load length array args.secondStart
      if first < second then
        mergesortInner length fuel array { args with firstStart := sizeT (args.firstStart + 1) }
      else
        let array ← moveUp length args.firstStart (sizeSub args.secondStart 1) array
        let array ← store length array args.firstStart second
        mergesortInner length fuel array
          { args with
            firstStart := sizeT (args.firstStart + 1)
            firstStop := sizeT (args.firstStop + 1)
            secondStart := sizeT (args.secondStart + 1) }
    else some array

def presortArgs (length chunksize i : Nat) : MergesortArgs :=
  let stop := sizeSub (sizeT (sizeT (i + 1) * chunksize)) 1
  { firstStart := sizeT (i * chunksize)
    firstStop := if stop ≥ length then sizeSub length 1 else stop
    secondStart := 0
    secondStop := 0 }

def presortThreads (length chunksize : Nat) : Nat :=
  let numthreads := length / chunksize
  if sizeSub length (sizeT (numthreads * chunksize)) ≠ 0 then sizeT (numthreads + 1) else numthreads

/-- The number of `args` and `rets` for the merging. -/
def mergeThreads (length chunksize : Nat) : Nat :=
  let rest := sizeSub length chunksize
  let numthreads := rest / sizeT (2 * chunksize)
  if sizeSub rest (sizeT (sizeT (2 * chunksize) * numthreads)) ≠ 0 then sizeT (numthreads + 1)
  else numthreads

def mergeArgs (length chunksize i : Nat) : MergesortArgs :=
  let stop := sizeSub (sizeT (i + sizeT (2 * chunksize))) 1
  { firstStart := i
    firstStop := sizeSub (sizeT (i + chunksize)) 1
    secondStart := sizeT (i + chunksize)
    secondStop := if stop < sizeSub length 1 then stop else sizeSub length 1 }

/-- `while (i < length - chunksize)`, with `allocated` places for the arguments. -/
def mergeSegments (length chunksize allocated : Nat) : Nat → Nat → Nat → Option (List MergesortArgs)
  | 0, _, _ => none
  | fuel + 1, i, numthreads =>
    if i < sizeSub length chunksize then
      if numthreads < allocated then do
        let rest ← mergeSegments length chunksize allocated fuel
          (sizeT (i + sizeT (2 * chunksize))) (sizeT (numthreads + 1))
        return mergeArgs length chunksize i :: rest
      else none
    else some []

structure MergeRound (α : Type) where
  array : Nat → α
  segments : List MergesortArgs

/-- `while (chunksize <= length)`, with the rounds. -/
def mergeRounds (fuel length allocated : Nat) (schedule : Schedule MergesortArgs) :
    Nat → Nat → (Nat → α) → Option (List (MergeRound α) × (Nat → α))
  | 0, _, _ => none
  | rounds + 1, chunksize, array =>
    if chunksize ≤ length then do
      let segments ← mergeSegments length chunksize allocated fuel 0 0
      let merged ← runAll (mergesortInner length fuel) (schedule.order chunksize segments) array
      let (later, array') ← mergeRounds fuel length allocated schedule rounds
        (sizeT (chunksize * 2)) merged
      return (⟨array, segments⟩ :: later, array')
    else some ([], array)

def qutilMergesort (fuel : Nat) (schedule : Schedule MergesortArgs) (array : Nat → α)
    (length : Nat) : Option (List (MergeRound α) × (Nat → α)) := do
  let chunksize := 10
  let chunks := (List.range (presortThreads length chunksize)).map (presortArgs length chunksize)
  let array ← runAll (mergesortPresort fuel length) (schedule.order 0 chunks) array
  if chunksize ≤ length then
    mergeRounds fuel length (mergeThreads length chunksize) schedule fuel chunksize array
  else return ([], array)

end Order

end Qthreads.Qutil
