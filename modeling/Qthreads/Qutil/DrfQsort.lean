import Mathlib.Algebra.BigOperators.Intervals
import Qthreads.Lib.Window
import Qthreads.Qutil.IntLog

namespace Qthreads.Qutil

open Lib

/-! `none` is a failed assertion, an access outside of an array or a loop that has not ended. -/

/-- `QT_INT_LOG(elements) + 5`, a sum of `uint32_t` -/
def maxDepth (elements : Nat) : Nat := (qtIntLog (elements % 2 ^ 32) + 5) % 2 ^ 32

section Order

variable {α : Type} [LinearOrder α]

/-- `while (arr[R] >= piv && L < R) R--;` -/
def retreat (elements : Nat) (arr : Nat → α) (piv : α) (left : Nat) : Nat → Option Nat
  | 0 => if 0 < elements then some 0 else none
  | right + 1 =>
    match load elements arr (right + 1) with
    | none => none
    | some value =>
      if piv ≤ value ∧ left < right + 1 then retreat elements arr piv left right
      else some (right + 1)

/-- `while (arr[L] <= piv && L < R) L++;` -/
def advance (elements : Nat) (arr : Nat → α) (piv : α) (right left : Nat) : Option Nat :=
  match load elements arr left with
  | none => none
  | some value =>
    if value ≤ piv ∧ left < right then advance elements arr piv right (left + 1) else some left
termination_by right - left

/-- `if (L < R) arr[L++] = arr[R];` -/
def fillLeft (elements : Nat) (arr : Nat → α) (left right : Nat) : Option ((Nat → α) × Nat) :=
  if left < right then do
    let value ← load elements arr right
    let arr ← store elements arr left value
    return (arr, left + 1)
  else some (arr, left)

/-- `if (L < R) arr[R--] = arr[L];` -/
def fillRight (elements : Nat) (arr : Nat → α) (left right : Nat) : Option ((Nat → α) × Nat) :=
  if left < right then do
    let value ← load elements arr left
    let arr ← store elements arr right value
    return (arr, right - 1)
  else some (arr, right)

/-- `while (L < R)`, with the array and `L` behind it -/
def partition (elements : Nat) (piv : α) : Nat → (Nat → α) → Nat → Nat → Option ((Nat → α) × Nat)
  | 0, _, _, _ => none
  | fuel + 1, arr, left, right =>
    if left < right then do
      let right ← retreat elements arr piv left right
      let (arr, left) ← fillLeft elements arr left right
      let left ← advance elements arr piv right left
      let (arr, right) ← fillRight elements arr left right
      partition elements piv fuel arr left right
    else some (arr, left)

/-- `beg` and `end` -/
structure Stack where
  beg : Nat → Nat
  end_ : Nat → Nat

def Stack.smallerOnTop (stack : Stack) (i : Nat) : Stack :=
  if stack.end_ i - stack.beg i > stack.end_ (i - 1) - stack.beg (i - 1) then
    { beg := Function.update (Function.update stack.beg i (stack.beg (i - 1))) (i - 1) (stack.beg i)
      end_ :=
        Function.update (Function.update stack.end_ i (stack.end_ (i - 1))) (i - 1)
          (stack.end_ i) }
  else stack

/-- `while (i >= 0)`, for `i + 1`.  An empty window at 0 has no `end[i] - 1`, and nothing is less. -/
def drfLoop (elements max : Nat) : Nat → (Nat → α) → Stack → Nat → Option (Nat → α)
  | 0, _, _, _ => none
  | _ + 1, arr, _, 0 => some arr
  | fuel + 1, arr, stack, i + 1 =>
    if i < max then
      let left := stack.beg i
      let right := stack.end_ i - 1
      if left < right then do
        let piv ← load elements arr left
        let (arr, left) ← partition elements piv (right - left + 1) arr left right
        let arr ← store elements arr left piv
        let beg ← store max stack.beg (i + 1) (left + 1)
        let end_ ← store max stack.end_ (i + 1) (stack.end_ i)
        let end_ ← store max end_ i left
        drfLoop elements max fuel arr (Stack.smallerOnTop ⟨beg, end_⟩ (i + 1)) (i + 2)
      else drfLoop elements max fuel arr stack i
    else none

def drfQsort (fuel : Nat) (arr : Nat → α) (elements : Nat) : Option (Nat → α) := do
  let max := maxDepth elements
  let beg ← store max (fun _ => 0) 0 0
  let end_ ← store max (fun _ => 0) 0 elements
  drfLoop elements max fuel arr ⟨beg, end_⟩ 1

def drfQsortDbl (fuel : Nat) (arr : Nat → α) (elements : Nat) : Option (Nat → α) :=
  drfQsort fuel arr elements

/-- `aligned_t` -/
abbrev Aligned := Fin (2 ^ 64)

def drfQsortAlgt (fuel : Nat) (arr : Nat → Aligned) (elements : Nat) : Option (Nat → Aligned) :=
  drfQsort fuel arr elements

end Order

end Qthreads.Qutil
