import Qthreads.Qarray.Iterate
import Mathlib.Data.Int.Basic

namespace Qthreads.Segments

/-! The segments of `qarray.c`

Memory is told by its addresses.  No result stands for a failed assertion, for a `NULL` that is
followed and for a division by zero; the products of sizes stay within a `size_t`, as they do for
memory that is there. -/

inductive Distribution where
  | fixedHash
  | fixedFields
  | allSame
  | dist
  | distStripes
  | distFields
  | distRand
  | distLeast
  | allLocal
  | allRand
  | allLeast

inductive DistType where
  | fixedHash
  | fixedFields
  | allSame
  | dist
deriving DecidableEq

structure Record where
  unitSize : Nat
  count : Nat
  segmentSize : Nat
  segmentBytes : Nat
  basePtr : Nat
  distType : DistType
  distShep : Nat
  segsPerShep : Nat
  extras : Nat

def divide (a b : Nat) : Option Nat := if b = 0 then none else some (a / b)

/-- A difference of two `size_t` -/
def minus (a b : Nat) : Nat := (a + (2 ^ 64 - b)) % 2 ^ 64

namespace Record

variable (a : Record)

def segmentCount : Nat := a.count / a.segmentSize + if a.count % a.segmentSize ≠ 0 then 1 else 0

/-- Where segment `seg` begins. -/
def head (seg : Nat) : Nat := a.basePtr + seg * a.segmentBytes

def elemNomigrate (index : Nat) : Option Nat :=
  if index > a.count then none
  else do
    let segmentNum ← divide index a.segmentSize
    some (a.basePtr + (segmentNum * a.segmentBytes +
      (index - segmentNum * a.segmentSize) * a.unitSize))

def segmentShep (segmentHead : Nat) : Option Nat :=
  if a.distType = .dist then
    let ptr := segmentHead + a.segmentSize * a.unitSize
    let ptr := if ptr % 4 ≠ 0 then ptr + (4 - ptr % 4) else ptr
    if ptr + 2 - 1 < a.segmentBytes + segmentHead then some ptr else none
  else none

def segmentShepRead (memory : Nat → Nat) (segmentHead : Nat) : Option Nat :=
  (a.segmentShep segmentHead).map memory

def segmentShepWrite (memory : Nat → Nat) (segmentHead shep : Nat) : Option (Nat → Nat) :=
  (a.segmentShep segmentHead).map fun ptr => Function.update memory ptr shep

variable (n : Nat) (memory : Nat → Nat)

/-- `qarray_internal_shepof_segidx`, with `n` shepherds -/
def shepofSegidx (seg : Nat) : Option Nat :=
  match a.distType with
  | .allSame => some a.distShep
  | .fixedFields =>
    if seg / (a.segsPerShep + 1) < a.extras then some (seg / (a.segsPerShep + 1))
    else divide (seg - a.extras) a.segsPerShep
  | .fixedHash => some (seg % n)
  | .dist => (a.elemNomigrate (seg * a.segmentSize)).bind (a.segmentShepRead memory)

def shepofCh (segmentHead : Nat) : Option Nat :=
  match a.distType with
  | .allSame => some a.distShep
  | .fixedFields => do
      let segmentsIn ← divide (segmentHead - a.basePtr) a.segmentBytes
      a.shepofSegidx n memory segmentsIn
  | .fixedHash => (divide (segmentHead - a.basePtr) a.segmentBytes).map (· % n)
  | .dist => a.segmentShepRead memory segmentHead

def shepof (index : Nat) : Option Nat :=
  if index < a.count then
    match a.distType with
    | .allSame => some a.distShep
    | _ => do
        let segmentNum ← divide index a.segmentSize
        let retval ← a.shepofSegidx n memory segmentNum
        if retval < n then some retval else none
  else none

/-- `qarray_elem_migrate`: the address that is returned and where the thread is taken. -/
def elemMigrate (index : Nat) : Option (Nat × Nat) :=
  if index ≥ a.count then do
    let segmentNum ← divide index a.segmentSize
    let segmentHead := a.basePtr + (segmentNum + a.segmentBytes)
    let dest ← a.shepofCh n memory segmentHead
    some (segmentHead + (index - segmentNum * a.segmentSize) * a.unitSize, dest)
  else none

end Record

structure Request where
  count : Nat
  objSize : Nat
  d : Distribution
  tight : Bool
  segPages : Nat

/-- What a creation finds around it: the shepherd it runs on, the results of `random()`, and the
memory it gets. -/
structure Around where
  shep : Nat
  random : Nat → Nat
  basePtr : Nat

/-- `chunk_distribution_tracker`, and what the memory holds where a shepherd is written. -/
structure Shared where
  tracker : Nat → Int
  memory : Nat → Nat

def Distribution.distType : Distribution → DistType
  | .allLocal | .allRand | .allLeast | .allSame => .allSame
  | .fixedFields => .fixedFields
  | .fixedHash => .fixedHash
  | .distStripes | .distFields | .distRand | .distLeast | .dist => .dist

def Request.unitSize (request : Request) : Nat :=
  if request.tight then request.objSize
  else request.objSize + if request.objSize % 8 ≠ 0 then 8 - request.objSize % 8 else 0

/-- `segment_size` and `segment_bytes`; `qt_lcm` is the least common multiple where the product
fits. -/
def Request.sizes (pagesize : Nat) (request : Request) : Nat × Nat :=
  let unitSize := request.unitSize
  match request.d.distType with
  | .dist =>
    let segmentBytes :=
      if request.segPages = 0 then 16 * pagesize else request.segPages * pagesize
    let segmentSize := segmentBytes / unitSize
    if segmentBytes - segmentSize * unitSize < 4 then
      let segmentSize := minus segmentSize 1
      if unitSize > pagesize then
        let segmentBytes := minus segmentBytes (unitSize / pagesize * pagesize)
        (segmentSize,
          if unitSize % pagesize = 0 then (segmentBytes + pagesize) % 2 ^ 64 else segmentBytes)
      else (segmentSize, segmentBytes)
    else (segmentSize, segmentBytes)
  | _ =>
    let segmentBytes :=
      if request.segPages = 0 then
        if unitSize > 16 * pagesize then Nat.lcm unitSize pagesize else 16 * pagesize
      else request.segPages * pagesize
    (segmentBytes / unitSize, segmentBytes)

def least (n : Nat) (tracker : Nat → Int) : Nat :=
  (List.range' 1 (n - 1)).foldl (fun least i => if tracker i < tracker least then i else least) 0

/-- `dist_specific.dist_shep` -/
def Distribution.distShep (n : Nat) (around : Around) (tracker : Nat → Int) :
    Distribution → Nat
  | .allSame | .allLocal => around.shep
  | .allRand => around.random 0 % 2 ^ 16 % n
  | .allLeast => least n tracker
  | _ => 2 ^ 16 - 1

def Request.record (pagesize n : Nat) (around : Around) (tracker : Nat → Int)
    (request : Request) : Record :=
  let (segmentSize, segmentBytes) := request.sizes pagesize
  let segmentCount :=
    request.count / segmentSize + if request.count % segmentSize ≠ 0 then 1 else 0
  { unitSize := request.unitSize
    count := request.count
    segmentSize := segmentSize
    segmentBytes := segmentBytes
    basePtr := around.basePtr
    distType := request.d.distType
    distShep := request.d.distShep n around tracker
    segsPerShep := if segmentCount / n = 0 then 1 else segmentCount / n
    extras := segmentCount % n }

/-- The tracker once the first `switch` counted the segments of an array that lies on one
shepherd. -/
def counted (a : Record) (tracker : Nat → Int) : Nat → Int :=
  if a.distType = .allSame then
    Function.update tracker a.distShep (tracker a.distShep + a.segmentCount)
  else tracker

/-- The `target_shep` of a segment. -/
def Record.target (a : Record) (d : Distribution) (n : Nat) (around : Around) (shared : Shared)
    (segment : Nat) : Option Nat :=
  match d with
  | .fixedHash => some (segment % n)
  | .fixedFields => a.shepofSegidx n shared.memory segment
  | .dist | .distRand => some (around.random segment % n)
  | .distFields =>
    let segsPerShep := a.segmentCount / n
    let extras := a.segmentCount % n
    if segment / (segsPerShep + 1) ≥ extras then divide (segment - extras) segsPerShep
    else some (segment / (segsPerShep + 1))
  | .distStripes => some (segment % n)
  | .distLeast => some (least n shared.tracker)
  | .allSame | .allLocal | .allRand | .allLeast => some a.distShep

/-- The memory with the shepherd of a segment written down where the array is a `DIST` one. -/
def Record.note (a : Record) (memory : Nat → Nat) (segment targetShep : Nat) :
    Option (Nat → Nat) :=
  if a.distType = .dist then do
    let seghead ← a.elemNomigrate (segment * a.segmentSize)
    a.segmentShepWrite memory seghead targetShep
  else some memory

def Record.assign (a : Record) (d : Distribution) (n : Nat) (around : Around) (shared : Shared)
    (segment : Nat) : Option Shared := do
  let targetShep ← a.target d n around shared segment
  let memory ← a.note shared.memory segment targetShep
  if targetShep < n then
    some ⟨Function.update shared.tracker targetShep (shared.tracker targetShep + 1), memory⟩
  else none

/-- `qarray_create_internal` -/
def create (pagesize n : Nat) (around : Around) (shared : Shared) (request : Request) :
    Option (Record × Shared) :=
  if request.count > 0 ∧ request.objSize > 0 then
    let a := request.record pagesize n around shared.tracker
    if a.segmentSize > 0 ∧ a.segmentBytes > 0 then do
      let shared ← (List.range a.segmentCount).foldlM (a.assign request.d n around)
        { shared with tracker := counted a shared.tracker }
      some (a, shared)
    else none
  else none

end Qthreads.Segments
