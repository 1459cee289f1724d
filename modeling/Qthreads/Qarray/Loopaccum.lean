import Qthreads.Lib.Bits
import Qthreads.Qarray.Iterate

namespace Qthreads

open Lib

/-! `qarray_iter_loopaccum`

A strider has filled its `rv` before its partial result is read, and no other strider writes there,
so that the striders may as well run one after the other. -/

/-- The `retsize` bytes of a result. -/
abbrev Value (retsize : Nat) := Fin retsize → Byte

/-- `func` and `acc` -/
structure Accumulation (retsize : Nat) where
  func : Nat → Nat → Value retsize
  acc : Value retsize → Value retsize → Value retsize
  associative : ∀ x y z, acc (acc x y) z = acc x (acc y z)
  commutative : ∀ x y, acc x y = acc y x
  splits : ∀ start middle stop, start < middle → middle < stop →
    func start stop = acc (func start middle) (func middle stop)

structure Partials (retsize : Nat) where
  ret : Value retsize
  rets : Nat → Byte

namespace Partials

variable {retsize : Nat} (partials : Partials retsize)

/-- What `acc` finds at `rets + offset`. -/
def read (offset : Nat) : Value retsize := fun k => partials.rets (offset + k)

/-- What is left at `qfwa[i].ret`. -/
def put (i : Nat) (value : Value retsize) : Partials retsize :=
  if i = 0 then { partials with ret := value }
  else
    { partials with
      rets := fun place =>
        if inside : (i - 1) * retsize ≤ place ∧ place < (i - 1) * retsize + retsize then
          value ⟨place - (i - 1) * retsize, by omega⟩
        else partials.rets place }

/-- The striders that are spawned; one without a range leaves its place as it is. -/
def spawn (strider : Nat → Option (Option (Value retsize))) :
    List Nat → Partials retsize → Option (Partials retsize)
  | [], partials => some partials
  | i :: rest, partials => do
      match ← strider i with
      | none => spawn strider rest partials
      | some value => spawn strider rest (partials.put i value)

/-- The loop that waits for all and accumulates what is at `rets + offset i`. -/
def gather (acc : Value retsize → Value retsize → Value retsize) (offset : Nat → Nat)
    (numSpawns : Nat) : Value retsize :=
  (List.range numSpawns).foldl
    (fun ret i => if i > 0 then acc ret (partials.read (offset i)) else ret) partials.ret

/-- The loop that waits for those that were spawned to; `none` is `first`. -/
def gatherMarked (acc : Value retsize → Value retsize → Value retsize) (marked : Nat → Bool)
    (maxsheps : Nat) : Option (Value retsize) :=
  (List.range maxsheps).foldl
    (fun gathered i =>
      if marked i then
        match gathered with
        | none => some (if i > 0 then partials.read ((i - 1) * retsize) else partials.ret)
        | some ret => some (acc ret (partials.read ((i - 1) * retsize)))
      else gathered) none

end Partials

/-- What the rounds of a strider leave in `myret`. -/
def Accumulation.accumulate {retsize : Nat} (work : Accumulation retsize) :
    List (Nat × Nat) → Option (Value retsize)
  | [] => none
  | first :: rest =>
    some (rest.foldl (fun myret range => work.acc myret (work.func range.1 range.2))
      (work.func first.1 first.2))

def ceilRatio (x y : Nat) : Nat := 1 + (x - 1) / y

namespace Qarray

variable {n retsize : Nat} (a : Qarray n)

/-- `qarray_loopaccum_strider` on a shepherd: its ranges are those of `qarray_loop_strider`. -/
def loopaccumStrider (work : Accumulation retsize) (shep startat stopat : Nat) :
    Option (Option (Value retsize)) :=
  (a.loopStrider shep startat stopat).map work.accumulate

def markSheps (stopat : Nat) : Nat → Nat → (Nat → Bool) → Nat → Option (Nat → Bool)
  | 0, _, _, _ => none
  | rounds + 1, idx, marked, countMarked =>
    if idx < stopat then do
      let shepof ← a.shepof idx
      let countMarked := if marked shepof then countMarked else countMarked + 1
      let marked := fun shep => shep == shepof || marked shep
      if countMarked = n then return marked
      markSheps stopat rounds (idx + a.segmentSize) marked countMarked
    else some marked

/-- `qarray_iter_loopaccum`: what is in `ret` at the end. -/
def iterLoopaccum (work : Accumulation retsize) (memory : Nat → Byte) (ret : Value retsize)
    (startat stopat : Nat) : Option (Value retsize) :=
  if startat ≤ stopat then
    match a.distType with
    | .allSame shep =>
      (Partials.spawn (fun _ => a.loopaccumStrider work shep startat stopat) [0]
        ⟨ret, memory⟩).map fun partials => partials.ret
    | .fixedFields => do
        let startShep ← a.shepof startat
        let stopShep ← a.shepof (before stopat)
        let numSpawns := stopShep + 1 - startShep
        let partials ← Partials.spawn
          (fun i => a.loopaccumStrider work (startShep + i) startat stopat) (List.range numSpawns)
          ⟨ret, memory⟩
        return partials.gather work.acc (fun i => i - 1) numSpawns
    | _ =>
      let strider := fun shep => a.loopaccumStrider work shep startat stopat
      if ceilRatio a.count a.segmentSize / n > (stopat - startat) / a.segmentSize then do
        let marked ← a.markSheps stopat (stopat + 1) (startat / a.segmentSize * a.segmentSize)
          (fun _ => false) 0
        let partials ← Partials.spawn strider ((List.range n).filter marked) ⟨ret, fun _ => 0⟩
        return (partials.gatherMarked work.acc marked n).getD partials.ret
      else do
        let partials ← Partials.spawn strider (List.range n) ⟨ret, fun _ => 0⟩
        return partials.gather work.acc (fun i => (i - 1) * retsize) n
  else none

/-- The accumulation leaves the function's result on the range, whatever the function and the bytes
that were there before. -/
def Accumulates (retsize startat stopat : Nat) : Prop :=
  ∀ (work : Accumulation retsize) (memory : Nat → Byte) (ret : Value retsize),
    a.iterLoopaccum work memory ret startat stopat = some (work.func startat stopat)

def Gathers (startat stopat : Nat) : Prop :=
  match a.distType with
  | .allSame _ => True
  | .fixedFields => stopat < (a.owner startat + 1) * a.segmentSize * a.segsPerShep
  | _ =>
    (a.segmentSize ∣ startat ∨ ∀ i, startat ≤ i → i < stopat → a.owner i = a.owner startat) ∧
      ((stopat - startat) / a.segmentSize < ceilRatio a.count a.segmentSize / n ∨
        ∀ shep < n, ∃ i, startat ≤ i ∧ i < stopat ∧ a.owner i = shep)

end Qarray

end Qthreads
