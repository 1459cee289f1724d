import Qthreads.Lib.Tiles

namespace Qthreads

open Lib

/-! The iterators of `qarray.c`

`none` stands for a failed assertion, or for a loop that is not left within the given number of
rounds.  The sizes are those of memory that is there, so that sums of them do not overflow. -/

inductive Distribution (n : Nat) where
  | fixedHash
  | fixedFields
  | allSame (shep : Fin n)
  | dist (owner : Nat → Fin n)

/-- `qarray`, as `qarray_create_internal` makes it. -/
structure Qarray (n : Nat) where
  count : Nat
  segmentSize : Nat
  distType : Distribution n
  sheps : 0 < n
  segment : 0 < segmentSize
  addressable : count < 2 ^ 64

namespace Qarray

variable {n : Nat} (a : Qarray n)

def segmentCount : Nat := a.count / a.segmentSize + if a.count % a.segmentSize ≠ 0 then 1 else 0

/-- `dist_specific.stripes.segs_per_shep` -/
def segsPerShep : Nat := if a.segmentCount / n = 0 then 1 else a.segmentCount / n

/-- `dist_specific.stripes.extras` -/
def extras : Nat := a.segmentCount % n

def shepofSegidx (seg : Nat) : Nat :=
  match a.distType with
  | .allSame shep => shep
  | .fixedFields =>
    if seg / (a.segsPerShep + 1) < a.extras then seg / (a.segsPerShep + 1)
    else (seg - a.extras) / a.segsPerShep
  | .fixedHash => seg % n
  | .dist owner => owner seg

def shepof (index : Nat) : Option Nat :=
  if index < a.count then
    match a.distType with
    | .allSame shep => some shep
    | _ =>
      let retval := a.shepofSegidx (index / a.segmentSize)
      if retval < n then some retval else none
  else none

/-- `index - 1` in a `size_t` -/
def before (index : Nat) : Nat := (index + (2 ^ 64 - 1)) % 2 ^ 64

/-- `while (qarray_shepof(arg->a, count) != shep)` in the striders; `some none` is the jump to the
exit. -/
def seek (shep max : Nat) : Nat → Nat → Option (Option Nat)
  | 0, _ => none
  | rounds + 1, count => do
      if (← a.shepof count) = shep then return some count
      if count + a.segmentSize ≥ max then return none
      seek shep max rounds (count + a.segmentSize)

def find (shep startat stopat : Nat) : Option (Option Nat) := do
  if startat > 0 ∧ (← a.shepof startat) ≠ shep then
    let count := startat + (a.segmentSize - startat % a.segmentSize)
    if count ≥ stopat then return none
    a.seek shep stopat (stopat + 1) count
  else a.seek shep stopat (stopat + 1) startat

/-- The `switch` at the end of a strider's loop. -/
def advance (shep max count : Nat) : Option (Option Nat) :=
  match a.distType with
  | .fixedFields | .allSame _ => some (some (count + a.segmentSize))
  | .fixedHash => some (some (count + a.segmentSize * n))
  | .dist _ =>
    if count + a.segmentSize ≥ max then some none
    else a.seek shep max (max + 1) (count + a.segmentSize)

/-- A strider's loop: from `count` on, the ranges that are worked on in one round each. -/
def walk (shep max : Nat) : Nat → Nat → Option (List (Nat × Nat))
  | 0, _ => none
  | rounds + 1, count => do
      let maxOffset := if max - count > a.segmentSize then a.segmentSize else max - count
      match ← a.advance shep max count with
      | none => return [(count, count + maxOffset)]
      | some next =>
        if next ≥ max then return [(count, count + maxOffset)]
        return (count, count + maxOffset) :: (← walk shep max rounds next)

/-- `qarray_strider` on a shepherd: the indices of the elements that `func` is applied to. -/
def strider (shep startat stopat : Nat) : Option (List Nat) :=
  match a.distType with
  | .allSame home =>
    if shep ≠ home then some []
    else (a.walk shep stopat (stopat + 1) startat).map indices
  | .fixedFields => do
      let startShep ← a.shepof startat
      let stopShep ← a.shepof (before stopat)
      if shep < startShep ∨ shep > stopShep then return []
      let count :=
        if shep ≠ startShep then
          if shep < a.extras then shep * a.segmentSize * (a.segsPerShep + 1)
          else a.extras * a.segmentSize * (a.segsPerShep + 1) +
            (shep - a.extras) * a.segmentSize * a.segsPerShep
        else startat
      let segsOnThisShep := if shep < a.extras then a.segsPerShep + 1 else a.segsPerShep
      let last := count + (a.segmentSize * segsOnThisShep - 1)
      let max := if stopat > last then last + 1 else stopat
      (a.walk shep max (max + 1) count).map indices
  | _ => do
      match ← a.find shep startat stopat with
      | none => return []
      | some count => (a.walk shep stopat (stopat + 1) count).map indices

/-- `qarray_loop_strider` on a shepherd: the ranges that the loop function gets. -/
def loopStrider (shep startat stopat : Nat) : Option (List (Nat × Nat)) :=
  match a.distType with
  | .allSame home =>
    if shep ≠ home then some []
    else if startat < stopat then some [(startat, stopat)] else none
  | .fixedFields => do
      let startShep ← a.shepof startat
      let stopShep ← a.shepof (before stopat)
      if shep < startShep ∨ shep > stopShep then return []
      let count := if shep ≠ startShep then shep * a.segmentSize * a.segsPerShep else startat
      let last := (shep + 1) * a.segmentSize * a.segsPerShep - 1
      let max := if stopat > last then last else stopat
      if count < max then return [(count, max)] else none
  | _ => do
      match ← a.find shep startat stopat with
      | none => return []
      | some count => if count < stopat then a.walk shep stopat (stopat + 1) count else none

def forks (startat stopat : Nat) : Option (List Nat × Nat) :=
  match a.distType with
  | .allSame shep => some ([shep], 1)
  | .fixedFields => do
      let startShep ← a.shepof startat
      let stopShep ← a.shepof (before stopat)
      let numSpawns := stopShep + 1 - startShep
      return (List.range' startShep numSpawns, numSpawns)
  | _ =>
    if stopat - startat < a.segmentSize then do
      let shep ← a.shepof startat
      return ([shep], 1)
    else some (List.range n, n)

/-- What all striders together did, how many there were and how many were waited for. -/
structure Outcome (α : Type) where
  done : List α
  spawned : Nat
  waits : Nat
deriving DecidableEq

def iterate {α : Type} (strider : Nat → Option (List α)) (startat stopat : Nat) :
    Option (Outcome α) := do
  if startat ≤ stopat then
    let (sheps, waits) ← a.forks startat stopat
    let done ← sheps.mapM strider
    return ⟨done.flatten, sheps.length, waits⟩
  else none

def iter (startat stopat : Nat) : Option (Outcome Nat) :=
  a.iterate (fun shep => a.strider shep startat stopat) startat stopat

def iterLoop (startat stopat : Nat) : Option (Outcome (Nat × Nat)) :=
  a.iterate (fun shep => a.loopStrider shep startat stopat) startat stopat

def iterConstloop (startat stopat : Nat) : Option (Outcome (Nat × Nat)) :=
  a.iterate (fun shep => a.loopStrider shep startat stopat) startat stopat

/-- `qarray_iter_loop_nb`, whose task calls `qarray_iter_loop` -/
def iterLoopNb (startat stopat : Nat) : Option (Outcome (Nat × Nat)) := a.iterLoop startat stopat

/-- A loop iterator returns, it waits for the striders it has, and the ranges are a partition. -/
def Partitions (outcome : Option (Outcome (Nat × Nat))) (startat stopat : Nat) : Prop :=
  ∃ now, outcome = some now ∧ now.spawned = now.waits ∧ Tiles now.done startat stopat

structure Right (startat stopat : Nat) : Prop where
  iter : ∃ now, a.iter startat stopat = some now ∧ now.spawned = now.waits ∧ now.done.Nodup ∧
    ∀ i, i ∈ now.done ↔ startat ≤ i ∧ i < stopat
  loop : Partitions (a.iterLoop startat stopat) startat stopat
  constloop : Partitions (a.iterConstloop startat stopat) startat stopat
  loopNb : Partitions (a.iterLoopNb startat stopat) startat stopat

def owner (index : Nat) : Nat := a.shepofSegidx (index / a.segmentSize)

def Fits (startat stopat : Nat) : Prop :=
  match a.distType with
  | .allSame _ => startat < stopat
  | .fixedFields =>
    startat < stopat ∧ stopat < (a.owner startat + 1) * a.segmentSize * a.segsPerShep ∨
      startat = stopat ∧ 0 < startat ∧ startat < a.count ∧ a.owner (startat - 1) < a.owner startat
  | _ =>
    startat < stopat ∧ (stopat - startat < a.segmentSize ∨ a.segmentSize ∣ startat ∨
      ∀ i, startat ≤ i → i < stopat → a.owner i = a.owner startat)

end Qarray

end Qthreads
