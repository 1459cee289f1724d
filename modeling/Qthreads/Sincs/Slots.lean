import Qthreads.Sincs.Grids

namespace Qthreads.Sincs.Selectable

open Qthreads.Lib

/-! The values of `donecount.c` in memory

One array, with the bytes of each shepherd's workers in cache lines of their own. -/

def readBytes {size : Nat} (bytes : Nat → UInt8) (address : Nat) : Value size :=
  fun i => bytes (address + i)

/-- `memcpy` of a value to an address. -/
def writeBytes {size : Nat} (bytes : Nat → UInt8) (address : Nat) (value : Value size) : Nat → UInt8 :=
  fun place => if inside : address ≤ place ∧ place - address < size then
    value ⟨place - address, inside.2⟩ else bytes place

namespace Layout

variable (machine : Machine) (cacheline size : Nat)

/-- `QT_CEIL_RATIO` for numbers of type `size_t` -/
def ceilRatio (x y : Nat) : Nat := 1 + (x + (countRange - 1)) % countRange / y

def sizeofShepValues : Nat := machine.wps * size % countRange

def numLinesPerShep : Nat := ceilRatio (sizeofShepValues machine size) cacheline % countRange

def numLines : Nat := machine.sheps * numLinesPerShep machine cacheline size % countRange

def sizeofShepValuePart : Nat := numLinesPerShep machine cacheline size * cacheline % countRange

/-- The bytes of `rdata->values`. -/
def allocated : Nat := numLines machine cacheline size * cacheline % countRange

/-- The slot of a worker: `shep_offset + worker_offset`. -/
def slot (worker : Worker) : Nat :=
  (worker.1 * sizeofShepValuePart machine cacheline size % countRange +
    worker.2 * size % countRange) % countRange

def part : Nat := (1 + (machine.wps * size - 1) / cacheline) * cacheline

structure Fits : Prop where
  line : 0 < cacheline
  bytes : machine.sheps * part machine cacheline size < countRange

end Layout

/-- `qt_sinc_reduction_t`, but for what stays as it is created. -/
structure Rdata (size : Nat) where
  values : Nat → UInt8
  result : Value size

/-- `qt_internal_sinc_t` -/
structure Packed (size : Nat) where
  sinc : Sinc
  rdata : Option (Rdata size)

variable {size : Nat} (machine : Machine) (cacheline : Nat) (operation : Operation size)

namespace Rdata

def clear (rdata : Rdata size) : Rdata size :=
  { rdata with
    values := machine.workers.foldl (fun values worker =>
      writeBytes values (Layout.slot machine cacheline size worker) operation.initial) rdata.values }

/-- `rdata->op(values, value)` -/
def add (rdata : Rdata size) (worker : Worker) (value : Value size) : Rdata size :=
  let address := Layout.slot machine cacheline size worker
  { rdata with
    values := writeBytes rdata.values address
      (operation.op (readBytes rdata.values address) value) }

/-- The first step of `qt_sinc_internal_collate` -/
def collate (rdata : Rdata size) : Rdata size :=
  { rdata with
    result := machine.workers.foldl (fun result worker =>
      operation.op result (readBytes rdata.values (Layout.slot machine cacheline size worker)))
      operation.initial }

end Rdata

namespace Packed

/-- `qt_sinc_init`, with what `malloc` returns in the array and in the result. -/
def init (scrap : Rdata size) (expect : Nat) : Packed size where
  sinc := .init expect
  rdata := if size = 0 then none else some (scrap.clear machine cacheline operation)

def reset (s : Packed size) (willSpawn : Nat) : Packed size where
  sinc :=
    let sinc := s.sinc.setCounter willSpawn
    if sinc.counter ≠ 0 then sinc.empty else sinc
  rdata := s.rdata.map (·.clear machine cacheline operation)

def expect (s : Packed size) (count : Nat) : Option (Packed size) :=
  let sinc :=
    if count ≠ 0 then
      if s.sinc.counter = 0 then (s.sinc.add count).empty else s.sinc.add count
    else s.sinc
  if 0 < sinc.counter then some { s with sinc } else none

def collate (s : Packed size) : Packed size where
  sinc := s.sinc.fill
  rdata := s.rdata.map (·.collate machine cacheline operation)

def put (rdata : Option (Rdata size)) (worker : Worker) :
    Option (Value size) → Option (Option (Rdata size))
  | none => some rdata
  | some value =>
    match rdata with
    | none => none
    | some rdata => some (some (rdata.add machine cacheline operation worker value))

def submit (s : Packed size) (worker : Worker) (value : Option (Value size)) : Option (Packed size) :=
  match put machine cacheline operation s.rdata worker value with
  | none => none
  | some rdata =>
    let next : Packed size := ⟨s.sinc.decrement, rdata⟩
    if 0 < s.sinc.counter then
      some (if s.sinc.counter = 1 then next.collate machine cacheline operation else next)
    else none

def apply (s : Packed size) : Call size → Option (Packed size)
  | .reset willSpawn => some (s.reset machine cacheline operation willSpawn)
  | .expect _ count => s.expect count
  | .submit worker value => s.submit machine cacheline operation worker value

end Packed

namespace Layout

variable {machine : Machine} {cacheline : Nat} {first second : Worker}

section

variable (fits : Fits machine cacheline size)
include fits

theorem shepValues_le_part : machine.wps * size ≤ part machine cacheline size := by
  have split := Nat.div_add_mod (machine.wps * size - 1) cacheline
  have less := Nat.mod_lt (machine.wps * size - 1) fits.line
  rw [part, Nat.add_mul, Nat.one_mul, Nat.mul_comm _ cacheline]
  omega

theorem part_lt : part machine cacheline size < countRange :=
  Nat.lt_of_le_of_lt (Nat.le_mul_of_pos_left _ machine.someSheps) fits.bytes

section

variable (nonzero : size ≠ 0)
include nonzero

theorem numLinesPerShep_eq :
    numLinesPerShep machine cacheline size = 1 + (machine.wps * size - 1) / cacheline := by
  have positive : 0 < machine.wps * size := Nat.mul_pos machine.someWorkers (Nat.pos_of_ne_zero nonzero)
  have bytes := Nat.lt_of_le_of_lt (shepValues_le_part fits) (part_lt fits)
  have lines : 1 + (machine.wps * size - 1) / cacheline < countRange :=
    Nat.lt_of_le_of_lt (Nat.le_mul_of_pos_right _ fits.line) (part_lt fits)
  have back : (machine.wps * size + (countRange - 1)) % countRange = machine.wps * size - 1 := by
    have whole : machine.wps * size + (countRange - 1) = machine.wps * size - 1 + countRange := by omega
    rw [whole, Nat.add_mod_right, Nat.mod_eq_of_lt (by omega)]
  rw [numLinesPerShep, sizeofShepValues, ceilRatio, Nat.mod_eq_of_lt bytes, back, Nat.mod_eq_of_lt lines]

theorem sizeofShepValuePart_eq :
    sizeofShepValuePart machine cacheline size = part machine cacheline size := by
  rw [sizeofShepValuePart, numLinesPerShep_eq fits nonzero, ← part, Nat.mod_eq_of_lt (part_lt fits)]

theorem allocated_eq :
    allocated machine cacheline size = machine.sheps * part machine cacheline size := by
  have lines : machine.sheps * (1 + (machine.wps * size - 1) / cacheline) < countRange := by
    refine Nat.lt_of_le_of_lt (Nat.le_mul_of_pos_right _ fits.line) ?_
    rw [Nat.mul_assoc]
    exact fits.bytes
  rw [allocated, numLines, numLinesPerShep_eq fits nonzero, Nat.mod_eq_of_lt lines, Nat.mul_assoc, ← part,
    Nat.mod_eq_of_lt fits.bytes]

section

variable (inside : first.1 < machine.sheps ∧ first.2 < machine.wps)
include inside

theorem slot_in_part :
    slot machine cacheline size first = first.1 * part machine cacheline size + first.2 * size ∧
      first.2 * size + size ≤ part machine cacheline size ∧
      first.1 * part machine cacheline size + part machine cacheline size ≤
        allocated machine cacheline size := by
  have own : first.2 * size + size ≤ part machine cacheline size := by
    refine Nat.le_trans ?_ (shepValues_le_part fits)
    rw [← Nat.succ_mul]
    exact Nat.mul_le_mul_right size inside.2
  have upTo : first.1 * part machine cacheline size + part machine cacheline size ≤
      machine.sheps * part machine cacheline size := by
    rw [← Nat.succ_mul]
    exact Nat.mul_le_mul_right _ inside.1
  have bytes : machine.sheps * part machine cacheline size < countRange := fits.bytes
  refine ⟨?_, own, ?_⟩
  · have shep : first.1 * part machine cacheline size < countRange := by omega
    have worker : first.2 * size < countRange := by omega
    have both : first.1 * part machine cacheline size + first.2 * size < countRange := by omega
    rw [slot, sizeofShepValuePart_eq fits nonzero, Nat.mod_eq_of_lt shep, Nat.mod_eq_of_lt worker,
      Nat.mod_eq_of_lt both]
  · rw [allocated_eq fits nonzero]
    exact upTo

theorem slot_inside :
    slot machine cacheline size first + size ≤ allocated machine cacheline size := by
  obtain ⟨place, own, room⟩ := slot_in_part fits nonzero inside
  omega

theorem slots_disjoint
    (other : second.1 < machine.sheps ∧ second.2 < machine.wps) (differ : first ≠ second) :
    slot machine cacheline size first + size ≤ slot machine cacheline size second ∨
      slot machine cacheline size second + size ≤ slot machine cacheline size first := by
  obtain ⟨place, own, -⟩ := slot_in_part fits nonzero inside
  obtain ⟨place', own', -⟩ := slot_in_part fits nonzero other
  have earlier {a b : Nat} (less : a < b) (unit : Nat) : a * unit + unit ≤ b * unit := by
    rw [← Nat.succ_mul]
    exact Nat.mul_le_mul_right unit less
  rcases Nat.lt_trichotomy first.1 second.1 with less | same | more
  · have apart := earlier less (part machine cacheline size)
    omega
  · rw [same] at place
    rcases Nat.lt_trichotomy first.2 second.2 with less | equal | more
    · have apart := earlier less size
      omega
    · exact absurd (Prod.ext same equal) differ
    · have apart := earlier more size
      omega
  · have apart := earlier more (part machine cacheline size)
    omega

end

end

end

end Layout

variable {machine : Machine} {cacheline : Nat} {operation : Operation size} {bytes : Nat → UInt8}
  {worker : Worker}

theorem readBytes_writeBytes (address : Nat) (value : Value size) :
    readBytes (writeBytes bytes address value) address = value := by
  funext i
  have inside : address ≤ address + i.val ∧ address + i.val - address < size := by omega
  rw [readBytes, writeBytes, dif_pos inside]
  congr 1
  exact Fin.ext (Nat.add_sub_cancel_left ..)

theorem readBytes_writeBytes_of_disjoint {address place : Nat} (value : Value size)
    (apart : address + size ≤ place ∨ place + size ≤ address) :
    (readBytes (writeBytes bytes place value) address : Value size) = readBytes bytes address := by
  funext i
  have outside : ¬ (place ≤ address + i.val ∧ address + i.val - place < size) := by omega
  rw [readBytes, writeBytes, dif_neg outside, readBytes]

theorem readBytes_slot (fits : Layout.Fits machine cacheline size) (value : Value size) {other : Worker}
    (inside : worker ∈ machine.workers) (listed : other ∈ machine.workers) :
    readBytes (writeBytes bytes (Layout.slot machine cacheline size other) value)
        (Layout.slot machine cacheline size worker) =
      if worker = other then value else readBytes bytes (Layout.slot machine cacheline size worker) := by
  by_cases same : worker = other
  · rw [if_pos same, same, readBytes_writeBytes]
  · rw [if_neg same]
    by_cases zero : size = 0
    · subst zero
      exact Subsingleton.elim _ _
    · exact readBytes_writeBytes_of_disjoint value (Layout.slots_disjoint fits zero
        (Machine.mem_workers.mp inside) (Machine.mem_workers.mp listed) same)

theorem Rdata.clear_slot (fits : Layout.Fits machine cacheline size) (rdata : Rdata size)
    (inside : worker ∈ machine.workers) :
    readBytes (rdata.clear machine cacheline operation).values
      (Layout.slot machine cacheline size worker) = operation.initial := by
  have loop (list : List Worker) (listed : ∀ other ∈ list, other ∈ machine.workers)
      (bytes : Nat → UInt8) (done : worker ∉ list →
        readBytes bytes (Layout.slot machine cacheline size worker) = operation.initial) :
      readBytes (list.foldl (fun values worker =>
        writeBytes values (Layout.slot machine cacheline size worker) operation.initial) bytes)
        (Layout.slot machine cacheline size worker) = operation.initial := by
    induction list generalizing bytes with
    | nil => exact done List.not_mem_nil
    | cons other rest ih =>
      refine ih (fun each member => listed each (List.mem_cons_of_mem _ member)) _ fun outside => ?_
      rw [readBytes_slot fits _ inside (listed other List.mem_cons_self)]
      by_cases same : worker = other
      · rw [if_pos same]
      · rw [if_neg same]
        exact done (List.not_mem_cons_of_ne_of_not_mem same outside)
  exact loop machine.workers (fun _ member => member) rdata.values fun outside => absurd inside outside

theorem Rdata.add_result (rdata : Rdata size) (worker : Worker) (value : Value size) :
    (rdata.add machine cacheline operation worker value).result = rdata.result := by
  unfold Rdata.add
  rfl

theorem Rdata.add_slot (fits : Layout.Fits machine cacheline size) (rdata : Rdata size)
    (value : Value size) {other : Worker} (inside : worker ∈ machine.workers)
    (listed : other ∈ machine.workers) :
    readBytes (rdata.add machine cacheline operation worker value).values
        (Layout.slot machine cacheline size other) =
      if other = worker then
        operation.op (readBytes rdata.values (Layout.slot machine cacheline size worker)) value
      else readBytes rdata.values (Layout.slot machine cacheline size other) := by
  unfold Rdata.add
  exact readBytes_slot fits _ listed inside

structure Packed.Shows (machine : Machine) (cacheline : Nat) (s : Packed size) (counted : Counted size) :
    Prop where
  sinc : s.sinc = counted.sinc
  empty : size = 0 → s.rdata = none
  full : size ≠ 0 → ∃ rdata, s.rdata = some rdata ∧ rdata.result = counted.rdata.result ∧
    ∀ worker ∈ machine.workers,
      readBytes rdata.values (Layout.slot machine cacheline size worker) = counted.rdata.values worker

namespace Packed

variable {s : Packed size} {counted : Counted size}

theorem init_shows (fits : Layout.Fits machine cacheline size) (scrap : Rdata size)
    (counts : Nat → Nat) (expect : Nat) :
    Shows machine cacheline (init machine cacheline operation scrap expect)
      (.create operation ⟨scrap.result, counts⟩ expect) where
  sinc := rfl
  empty := fun zero => if_pos zero
  full := fun nonzero => ⟨_, if_neg nonzero, rfl, fun _ inside => Rdata.clear_slot fits scrap inside⟩

section

variable (shows : Shows machine cacheline s counted)
include shows

theorem Shows.reset (fits : Layout.Fits machine cacheline size) (willSpawn : Nat) :
    Option.Rel (Shows machine cacheline) (some (s.reset machine cacheline operation willSpawn))
      (Donecount.reset operation counted willSpawn) := by
  refine .some ⟨?_, fun zero => ?_, fun nonzero => ?_⟩
  · rw [Packed.reset, shows.sinc]
  · rw [Packed.reset, shows.empty zero]
    rfl
  · obtain ⟨rdata, stored, result, -⟩ := shows.full nonzero
    refine ⟨rdata.clear machine cacheline operation, ?_, result,
      fun _ inside => Rdata.clear_slot fits rdata inside⟩
    rw [Packed.reset, stored]
    rfl

theorem Shows.expect (count : Nat) :
    Option.Rel (Shows machine cacheline) (s.expect count) (Donecount.expect counted count) := by
  simp only [Packed.expect, Donecount.expect, shows.sinc]
  generalize (if count ≠ 0 then
    if counted.sinc.counter = 0 then (counted.sinc.add count).empty else counted.sinc.add count
    else counted.sinc) = sinc
  by_cases positive : 0 < sinc.counter
  · rw [if_pos positive, if_pos positive]
    exact .some ⟨rfl, shows.empty, shows.full⟩
  · rw [if_neg positive, if_neg positive]
    exact .none

theorem Shows.collate :
    Shows machine cacheline (s.collate machine cacheline operation)
      (counted.collate machine operation) where
  sinc := congrArg Sinc.fill shows.sinc
  empty := fun zero => by
    rw [Packed.collate, shows.empty zero]
    rfl
  full := fun nonzero => by
    obtain ⟨rdata, stored, -, values⟩ := shows.full nonzero
    refine ⟨rdata.collate machine cacheline operation, ?_, ?_, values⟩
    · rw [Packed.collate, stored]
      rfl
    · refine List.foldl_ext _ _ _ fun result worker inside => ?_
      rw [values worker inside]

section

variable (fits : Layout.Fits machine cacheline size)
include fits

theorem Shows.put (inside : worker ∈ machine.workers) (value : Option (Value size)) (sinc : Sinc) :
    Option.Rel (fun rdata other => Shows machine cacheline ⟨sinc, rdata⟩ ⟨sinc, other⟩)
      (put machine cacheline operation s.rdata worker value)
      (counted.rdata.submit operation worker value) := by
  cases value with
  | none => exact .some ⟨rfl, shows.empty, shows.full⟩
  | some value =>
    by_cases isZero : size = 0
    · rw [shows.empty isZero, Reduction.submit, if_pos isZero]
      exact .none
    · obtain ⟨rdata, stored, result, values⟩ := shows.full isZero
      rw [stored, Reduction.submit, if_neg isZero]
      refine .some ⟨rfl, fun zero => absurd zero isZero, fun _ => ⟨_, rfl,
        (rdata.add_result worker value).trans result, fun other listed => ?_⟩⟩
      rw [rdata.add_slot fits value inside listed, values worker inside, values other listed]
      exact (Function.update_apply ..).symm

theorem Shows.submit (inside : worker ∈ machine.workers) (value : Option (Value size)) :
    Option.Rel (Shows machine cacheline) (s.submit machine cacheline operation worker value)
      (Donecount.submit machine operation counted worker value) := by
  have stored := @Shows.put _ machine cacheline operation worker s counted shows fits inside value
    counted.sinc.decrement
  rw [Packed.submit, Donecount.submit, shows.sinc]
  generalize Packed.put machine cacheline operation s.rdata worker value = packed at stored ⊢
  generalize counted.rdata.submit operation worker value = submitted at stored ⊢
  cases stored with
  | none => exact .none
  | some related =>
    simp only
    split
    · split
      · exact .some related.collate
      · exact .some related
    · exact .none

theorem Shows.apply {call : Call size}
    (inside : ∀ worker value, call = .submit worker value → worker ∈ machine.workers) :
    Option.Rel (Shows machine cacheline) (s.apply machine cacheline operation call)
      (Donecount.apply machine operation counted call) := by
  cases call with
  | reset willSpawn => exact shows.reset fits willSpawn
  | expect worker count => exact shows.expect count
  | submit worker value => exact shows.submit fits (inside worker value rfl) value

end

end

end Packed

end Qthreads.Sincs.Selectable
