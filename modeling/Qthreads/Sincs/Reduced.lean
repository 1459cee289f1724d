import Qthreads.Sincs.Slots

namespace Qthreads.Sincs

namespace Sinc

def more (sinc : Sinc) (count : Nat) : Sinc :=
  if count ≠ 0 then if sinc.counter = 0 then (sinc.add count).empty else sinc.add count else sinc

variable (sinc : Sinc) (count : Nat)

theorem more_counter (small : sinc.counter < countRange) :
    (sinc.more count).counter = (sinc.counter + count) % countRange := by
  rw [more]
  split
  · split <;> rfl
  · next zero =>
      rw [not_not.mp zero, Nat.add_zero, Nat.mod_eq_of_lt small]

theorem more_ready :
    (sinc.more count).ready = if count ≠ 0 ∧ sinc.counter = 0 then false else sinc.ready := by
  rw [more]
  by_cases nonzero : count ≠ 0
  · by_cases idle : sinc.counter = 0
    · rw [if_pos nonzero, if_pos idle, if_pos ⟨nonzero, idle⟩]
      rfl
    · rw [if_pos nonzero, if_neg idle, if_neg fun both => idle both.2]
      rfl
  · rw [if_neg nonzero, if_neg fun both => nonzero both.1]

end Sinc

namespace Selectable

open Qthreads.Lib

variable {size : Nat} (machine : Machine) (cacheline : Nat) (operation : Operation size)

/-- An operation that is associative and commutative and whose identity is the initial value. -/
structure Operation.Lawful : Prop where
  assoc : ∀ first second third,
    operation.op (operation.op first second) third = operation.op first (operation.op second third)
  comm : ∀ first second, operation.op first second = operation.op second first
  identity : ∀ value, operation.op operation.initial value = value

def Operation.total (values : List (Value size)) : Value size :=
  values.foldl operation.op operation.initial

inductive Request (size : Nat) where
  | init (scrap : Rdata size) (expect : Nat)
  | call (call : Call size)

def Packed.serve (s : Packed size) : Request size → Option (Packed size)
  | .init scrap expect => some (.init machine cacheline operation scrap expect)
  | .call call => s.apply machine cacheline operation call

/-- How many submits are still to come, and the values that were submitted since the last init or
reset. -/
structure Ledger (size : Nat) where
  outstanding : Nat
  submitted : List (Value size)

def Ledger.serve (ledger : Ledger size) : Request size → Ledger size
  | .init _ expect => ⟨expect, []⟩
  | .call (.reset willSpawn) => ⟨willSpawn, []⟩
  | .call (.expect _ count) => { ledger with outstanding := ledger.outstanding + count }
  | .call (.submit _ value) => ⟨ledger.outstanding - 1, ledger.submitted ++ value.toList⟩

/-- The numbers are of type `size_t`, the call comes from a worker, a submit is one of those to come,
and has a value only if the sinc has. -/
def Request.Allowed (ledger : Ledger size) : Request size → Prop
  | .init _ expect => expect < countRange
  | .call (.reset willSpawn) => willSpawn < countRange
  | .call (.expect worker count) => worker ∈ machine.workers ∧ count < countRange
  | .call (.submit worker value) =>
    worker ∈ machine.workers ∧ 0 < ledger.outstanding ∧ (size = 0 → value = none)

/-- The counter reaches 0 in a submit, or the result is the initial value already and `ready` is full;
an expect leaves something to expect, and fewer than `2 ^ 64`. -/
def Request.Meets (ledger : Ledger size) : Request size → Prop
  | .init scrap expect => expect ≠ 0 ∨ scrap.result = operation.initial
  | .call (.reset willSpawn) =>
    willSpawn ≠ 0 ∨ ledger.outstanding = 0 ∧ operation.total ledger.submitted = operation.initial
  | .call (.expect _ count) =>
    0 < ledger.outstanding + count ∧ ledger.outstanding + count < countRange
  | .call (.submit _ _) => True

/-- `ready` is full if and only if the counter is 0, and then the result is that of all values. -/
structure Packed.Exact (ledger : Ledger size) (s : Packed size) : Prop where
  counter : s.sinc.counter = ledger.outstanding
  ready : s.sinc.ready = true ↔ s.sinc.counter = 0
  result : s.sinc.counter = 0 → ∀ rdata, s.rdata = some rdata →
    rdata.result = operation.total ledger.submitted

def Packed.Step (before : Packed size × Ledger size) (request : Request size)
    (after : Packed size × Ledger size) : Prop :=
  before.1.serve machine cacheline operation request = some after.1 ∧
    after.2 = before.2.serve request

def Packed.Ready (before : Packed size × Ledger size) (request : Request size) : Prop :=
  request.Allowed machine before.2 ∧ request.Meets operation before.2

variable {machine cacheline operation} {ledger : Ledger size} {s : Counted size}

namespace Operation.Lawful

variable (lawful : operation.Lawful)

include lawful

theorem total_eq_fold (values : List (Value size)) :
    haveI : Std.Commutative operation.op := ⟨lawful.comm⟩
    haveI : Std.Associative operation.op := ⟨lawful.assoc⟩
    operation.total values = Multiset.fold operation.op operation.initial values :=
  have : Std.Commutative operation.op := ⟨lawful.comm⟩
  have : Std.Associative operation.op := ⟨lawful.assoc⟩
  (Multiset.coe_fold_l operation.op operation.initial values).symm

theorem total_cons (value : Value size) (values : List (Value size)) :
    operation.total (value :: values) = operation.op value (operation.total values) := by
  rw [lawful.total_eq_fold, lawful.total_eq_fold, ← Multiset.cons_coe, Multiset.fold_cons_left]

theorem total_perm {first second : List (Value size)} (perm : first.Perm second) :
    operation.total first = operation.total second := by
  rw [lawful.total_eq_fold, lawful.total_eq_fold, Multiset.coe_eq_coe.mpr perm]

theorem total_append (first second : List (Value size)) :
    operation.total (first ++ second) =
      operation.op (operation.total first) (operation.total second) := by
  have : Std.Commutative operation.op := ⟨lawful.comm⟩
  have : Std.Associative operation.op := ⟨lawful.assoc⟩
  have parts := Multiset.fold_add operation.op operation.initial operation.initial first second
  rw [lawful.identity] at parts
  rw [lawful.total_eq_fold, lawful.total_eq_fold, lawful.total_eq_fold, ← Multiset.coe_add]
  exact parts

theorem total_update {workers : List Worker} (once : workers.Nodup) {worker : Worker}
    (inside : worker ∈ workers) (values : Worker → Value size) (value : Value size) :
    operation.total (workers.map
        (Function.update values worker (operation.op (values worker) value))) =
      operation.op (operation.total (workers.map values)) value := by
  have perm := List.perm_cons_erase inside
  have outside : worker ∉ workers.erase worker := once.not_mem_erase
  have others : (workers.erase worker).map
      (Function.update values worker (operation.op (values worker) value)) =
        (workers.erase worker).map values := by
    refine List.map_congr_left fun other member => Function.update_of_ne ?_ ..
    rintro rfl
    exact outside member
  rw [lawful.total_perm (perm.map _), lawful.total_perm (perm.map _), List.map_cons, List.map_cons,
    others, Function.update_self, lawful.total_cons, lawful.total_cons, lawful.assoc, lawful.assoc,
    lawful.comm value]

end Operation.Lawful

structure Counted.Sums (machine : Machine) (operation : Operation size) (ledger : Ledger size)
    (s : Counted size) : Prop where
  small : ledger.outstanding < countRange
  counter : s.sinc.counter = ledger.outstanding
  ready : s.sinc.ready = decide (ledger.outstanding = 0)
  values : operation.total (machine.workers.map s.rdata.values) = operation.total ledger.submitted
  result : ledger.outstanding = 0 → s.rdata.result = operation.total ledger.submitted

structure Counted.Exact (operation : Operation size) (ledger : Ledger size) (s : Counted size) :
    Prop where
  counter : s.sinc.counter = ledger.outstanding
  ready : s.sinc.ready = true ↔ s.sinc.counter = 0
  result : s.sinc.counter = 0 → s.rdata.result = operation.total ledger.submitted

def Counted.serve (machine : Machine) (operation : Operation size) (s : Counted size) :
    Request size → Option (Counted size)
  | .init scrap expect => some (.create operation ⟨scrap.result, fun _ => 0⟩ expect)
  | .call call => Donecount.apply machine operation s call

namespace Counted.Sums

variable (sums : Sums machine operation ledger s)

include sums

theorem exact_ : s.Exact operation ledger where
  counter := sums.counter
  ready := by
    rw [sums.ready, sums.counter, decide_eq_true_iff]
  result := fun zero => sums.result (sums.counter.symm.trans zero)

end Counted.Sums

theorem Operation.Lawful.total_initial (lawful : operation.Lawful) (workers : List Worker) :
    operation.total (workers.map fun _ => operation.initial) = operation.initial := by
  induction workers with
  | nil => rfl
  | cons worker rest ih => rw [List.map_cons, lawful.total_cons, ih, lawful.identity]

namespace Counted

theorem create_sums (lawful : operation.Lawful) {scrap : Scrap size} {expect : Nat}
    (small : expect < countRange) (result : expect ≠ 0 ∨ scrap.result = operation.initial) :
    Sums machine operation ⟨expect, []⟩ (create operation scrap expect) where
  small := small
  counter := rfl
  ready := rfl
  values := lawful.total_initial machine.workers
  result := fun zero => result.resolve_left fun nonzero => nonzero zero

theorem Sums.reset (lawful : operation.Lawful) (sums : Sums machine operation ledger s)
    {willSpawn : Nat} (small : willSpawn < countRange)
    (meets : willSpawn ≠ 0 ∨
      ledger.outstanding = 0 ∧ operation.total ledger.submitted = operation.initial) :
    ∃ after, Donecount.reset operation s willSpawn = some after ∧
      Sums machine operation ⟨willSpawn, []⟩ after := by
  refine ⟨_, rfl, small, ?_, ?_, lawful.total_initial machine.workers, fun isZero => ?_⟩
  · split <;> rfl
  · by_cases isZero : willSpawn = 0
    · obtain ⟨idle, -⟩ := meets.resolve_left fun differs => differs isZero
      have zero : ¬ (s.sinc.setCounter willSpawn).counter ≠ 0 := fun differs => differs isZero
      rw [if_neg zero]
      exact (sums.ready.trans (decide_eq_true idle)).trans (decide_eq_true isZero).symm
    · have nonzero : (s.sinc.setCounter willSpawn).counter ≠ 0 := isZero
      rw [if_pos nonzero]
      exact (decide_eq_false isZero).symm
  · obtain ⟨idle, same⟩ := meets.resolve_left fun differs => differs isZero
    exact (sums.result idle).trans same

theorem Sums.expect (sums : Sums machine operation ledger s) {count : Nat}
    (positive : 0 < ledger.outstanding + count) (fits : ledger.outstanding + count < countRange) :
    ∃ after, Donecount.expect s count = some after ∧
      Sums machine operation { ledger with outstanding := ledger.outstanding + count } after := by
  have busy : ¬ ledger.outstanding + count = 0 := Nat.ne_of_gt positive
  have counter := s.sinc.more_counter count (Nat.lt_of_le_of_lt (Nat.le_of_eq sums.counter) sums.small)
  rw [sums.counter, Nat.mod_eq_of_lt fits] at counter
  refine ⟨_, if_pos (Nat.lt_of_lt_of_eq positive counter.symm), fits, counter, ?_, sums.values,
    fun zero => absurd zero busy⟩
  refine Eq.trans ?_ (decide_eq_false busy).symm
  by_cases idle : ledger.outstanding = 0
  · have more : count ≠ 0 := by omega
    exact (s.sinc.more_ready count).trans (if_pos ⟨more, sums.counter.trans idle⟩)
  · refine ((s.sinc.more_ready count).trans (if_neg fun both => idle ?_)).trans ?_
    · exact sums.counter.symm.trans both.2
    · exact sums.ready.trans (decide_eq_false idle)

section

variable (lawful : operation.Lawful) (sums : Sums machine operation ledger s)
include lawful sums

theorem Sums.put {worker : Worker}
    (inside : worker ∈ machine.workers) (value : Option (Value size)) :
    operation.total (machine.workers.map (s.rdata.put operation worker value).values) =
      operation.total (ledger.submitted ++ value.toList) := by
  cases value with
  | none =>
    rw [Option.toList_none, List.append_nil]
    exact sums.values
  | some value =>
    have single : operation.total [value] = value := lawful.identity value
    rw [Option.toList_some, lawful.total_append, single, ← sums.values]
    exact lawful.total_update Machine.workers_nodup inside s.rdata.values value

theorem Sums.submit
    {worker : Worker} (inside : worker ∈ machine.workers) (positive : 0 < ledger.outstanding)
    {value : Option (Value size)} (fits : size = 0 → value = none) :
    ∃ after, Donecount.submit machine operation s worker value = some after ∧
      Sums machine operation ⟨ledger.outstanding - 1, ledger.submitted ++ value.toList⟩ after := by
  have counter := sums.counter
  have put := sums.put lawful inside value
  have less : s.sinc.decrement.counter = ledger.outstanding - 1 := by
    rw [Sinc.decrement_counter (by omega), counter]
  have small : ledger.outstanding - 1 < countRange := Nat.lt_of_le_of_lt (Nat.sub_le ..) sums.small
  rw [Donecount.submit, Reduction.submit_eq _ _ fits]
  simp only
  rw [if_pos (by omega)]
  refine ⟨_, rfl, ?_⟩
  by_cases last : s.sinc.counter = 1
  · rw [if_pos last]
    refine ⟨small, less, ?_, put, fun _ => ?_⟩
    · have zero : ledger.outstanding - 1 = 0 := by omega
      exact (decide_eq_true zero).symm
    · refine Eq.trans ?_ put
      rw [Operation.total, List.foldl_map]
      rfl
  · have more : ¬ ledger.outstanding - 1 = 0 := by omega
    rw [if_neg last]
    refine ⟨small, less, ?_, put, fun zero => absurd zero more⟩
    have still : s.sinc.decrement.ready = s.sinc.ready := rfl
    rw [still, sums.ready, decide_eq_false (by omega)]
    exact (decide_eq_false more).symm

theorem Sums.serve {request : Request size} (allowed : request.Allowed machine ledger)
    (meets : request.Meets operation ledger) :
    ∃ after, s.serve machine operation request = some after ∧
      Sums machine operation (ledger.serve request) after := by
  match request with
  | .init scrap expect => exact ⟨_, rfl, create_sums lawful allowed meets⟩
  | .call (.reset willSpawn) => exact sums.reset lawful allowed meets
  | .call (.expect worker count) => exact sums.expect meets.1 meets.2
  | .call (.submit worker value) => exact sums.submit lawful allowed.1 allowed.2.1 allowed.2.2

end

theorem Sums.meets (sums : Sums machine operation ledger s) {request : Request size}
    {after : Counted size} (allowed : request.Allowed machine ledger)
    (served : s.serve machine operation request = some after)
    (exact_ : after.Exact operation (ledger.serve request)) : request.Meets operation ledger := by
  match request with
  | .init scrap expect =>
    cases served
    by_cases zero : expect = 0
    · exact .inr (exact_.result zero)
    · exact .inl zero
  | .call (.reset willSpawn) =>
    cases served
    by_cases zero : willSpawn = 0
    · subst zero
      have full : s.sinc.ready = true := exact_.ready.mpr rfl
      have idle : ledger.outstanding = 0 := of_decide_eq_true (sums.ready.symm.trans full)
      exact .inr ⟨idle, (sums.result idle).symm.trans (exact_.result rfl)⟩
    · exact .inl zero
  | .call (.expect worker count) =>
    have counter := exact_.counter
    have small := sums.small
    have before := sums.counter
    have sum := s.sinc.more_counter count (Nat.lt_of_le_of_lt (Nat.le_of_eq before) small)
    have ran : Donecount.expect s count = some after := served
    by_cases positive : 0 < (s.sinc.more count).counter
    · cases Option.some.inj ((if_pos positive).symm.trans ran)
      have total : (s.sinc.more count).counter = ledger.outstanding + count := counter
      rw [total] at positive sum
      refine ⟨positive, ?_⟩
      rw [sum]
      exact Nat.mod_lt _ (Nat.zero_lt_of_lt small)
    · cases (if_neg positive).symm.trans ran
  | .call (.submit worker value) => exact trivial

end Counted

namespace Packed

variable {packed : Packed size} {request : Request size}

theorem Shows.serve (shows : Shows machine cacheline packed s) (fits : Layout.Fits machine cacheline size)
    (allowed : request.Allowed machine ledger) :
    Option.Rel (Shows machine cacheline) (packed.serve machine cacheline operation request)
      (s.serve machine operation request) := by
  cases request with
  | init scrap expect => exact .some (init_shows fits scrap _ expect)
  | call call =>
    refine shows.apply fits fun worker value same => ?_
    subst same
    exact allowed.1

theorem Shows.exact_iff_meets (shows : Shows machine cacheline packed s) :
    packed.Exact operation ledger ↔ s.Exact operation ledger := by
  have sinc := shows.sinc
  constructor
  · rintro ⟨counter, ready, result⟩
    rw [sinc] at counter ready
    refine ⟨counter, ready, fun zero => ?_⟩
    by_cases empty : size = 0
    · subst empty
      exact Subsingleton.elim _ _
    · obtain ⟨rdata, stored, same, -⟩ := shows.full empty
      rw [← same]
      exact result ((congrArg Sinc.counter sinc).trans zero) rdata stored
  · rintro ⟨counter, ready, result⟩
    rw [← sinc] at counter ready
    refine ⟨counter, ready, fun zero rdata stored => ?_⟩
    by_cases empty : size = 0
    · subst empty
      exact Subsingleton.elim _ _
    · obtain ⟨rdata', stored', same, -⟩ := shows.full empty
      cases Option.some.inj (stored.symm.trans stored')
      rw [same]
      exact result ((congrArg Sinc.counter sinc).symm.trans zero)

def Sums (machine : Machine) (cacheline : Nat) (operation : Operation size)
    (state : Packed size × Ledger size) : Prop :=
  ∃ s, Shows machine cacheline state.1 s ∧ Counted.Sums machine operation state.2 s

variable {state after : Packed size × Ledger size}

theorem Sums.serve (lawful : operation.Lawful) (fits : Layout.Fits machine cacheline size)
    (sums : Sums machine cacheline operation state) (allowed : request.Allowed machine state.2)
    (meets : request.Meets operation state.2) :
    ∃ after, state.1.serve machine cacheline operation request = some after ∧
      Sums machine cacheline operation (after, state.2.serve request) := by
  obtain ⟨s, shows, sums⟩ := sums
  obtain ⟨next, served, held⟩ := sums.serve lawful allowed meets
  have related : Option.Rel _ (state.1.serve machine cacheline operation request) _ :=
    shows.serve fits allowed
  rw [served] at related
  generalize state.1.serve machine cacheline operation request = outcome at related ⊢
  cases related with
  | some shown => exact ⟨_, rfl, next, shown, held⟩

theorem Sums.meets (fits : Layout.Fits machine cacheline size)
    (sums : Sums machine cacheline operation state) (allowed : request.Allowed machine state.2)
    {after : Packed size} (served : state.1.serve machine cacheline operation request = some after)
    (exact_ : after.Exact operation (state.2.serve request)) : request.Meets operation state.2 := by
  obtain ⟨s, shows, sums⟩ := sums
  have related : Option.Rel _ (state.1.serve machine cacheline operation request)
    (s.serve machine operation request) := shows.serve fits allowed
  rw [served] at related
  cases done : s.serve machine operation request with
  | none =>
    rw [done] at related
    cases related
  | some next =>
    rw [done] at related
    cases related with
    | some shown => exact sums.meets allowed done (shown.exact_iff_meets.mp exact_)

theorem init_sums (lawful : operation.Lawful) (fits : Layout.Fits machine cacheline size)
    {scrap : Rdata size} {expect : Nat} (small : expect < countRange)
    (result : expect ≠ 0 ∨ scrap.result = operation.initial) :
    Sums machine cacheline operation (init machine cacheline operation scrap expect, ⟨expect, []⟩) :=
  ⟨_, init_shows fits scrap (fun _ => 0) expect, Counted.create_sums lawful small result⟩

theorem Sums.run (lawful : operation.Lawful) (fits : Layout.Fits machine cacheline size)
    {requests : List (Request size)} (sums : Sums machine cacheline operation state)
    (run : Run (Guarded (Ready machine operation) (Step machine cacheline operation)) state requests
      after) : Sums machine cacheline operation after := by
  refine run.preserves (fun before request next held taken => ?_) sums
  obtain ⟨⟨allowed, meets⟩, served, counted⟩ := taken
  obtain ⟨found, ran, kept⟩ := held.serve lawful fits allowed meets
  cases Option.some.inj (ran.symm.trans served)
  rw [← counted] at kept
  exact kept

end Packed

/-- The slots lie inside the array and apart.  Once a sinc was initialised, it is exact after every call
of a run whose calls meet the condition, and after one more call if and only if this meets it too. -/
theorem reductions_exact_iff_meets (lawful : operation.Lawful)
    (fits : Layout.Fits machine cacheline size) {first last : Packed size}
    {before ledger : Ledger size} {scrap : Rdata size} {expect : Nat} {requests : List (Request size)}
    (run : Run (Guarded (Packed.Ready machine operation) (Packed.Step machine cacheline operation))
      (first, before) (.init scrap expect :: requests) (last, ledger)) :
    (size ≠ 0 → ∀ worker ∈ machine.workers,
      Layout.slot machine cacheline size worker + size ≤ Layout.allocated machine cacheline size ∧
      ∀ other ∈ machine.workers, worker ≠ other →
        Layout.slot machine cacheline size worker + size ≤ Layout.slot machine cacheline size other ∨
          Layout.slot machine cacheline size other + size ≤
            Layout.slot machine cacheline size worker) ∧
      last.Exact operation ledger ∧ ∀ request : Request size, request.Allowed machine ledger →
        ((∃ after, last.serve machine cacheline operation request = some after ∧
          after.Exact operation (ledger.serve request)) ↔ request.Meets operation ledger) := by
  have sums : Packed.Sums machine cacheline operation (last, ledger) := by
    cases run with
    | cons taken later =>
      obtain ⟨⟨allowed, meets⟩, served, counted⟩ := taken
      have made := @Packed.init_sums _ machine cacheline operation lawful fits scrap expect allowed meets
      refine Packed.Sums.run lawful fits ?_ later
      have state : _ =
          (Packed.init machine cacheline operation scrap expect, (⟨expect, []⟩ : Ledger size)) :=
        Prod.ext (Option.some.inj served).symm counted
      rw [state]
      exact made
  refine ⟨fun nonzero worker inside => ?_, ?_, fun request allowed => ⟨?_, fun meets => ?_⟩⟩
  · have place := Machine.mem_workers.mp inside
    exact ⟨Layout.slot_inside fits nonzero place, fun other listed differ =>
      Layout.slots_disjoint fits nonzero place (Machine.mem_workers.mp listed) differ⟩
  · obtain ⟨s, shows, held⟩ := sums
    exact shows.exact_iff_meets.mpr held.exact_
  · rintro ⟨after, served, exact_⟩
    exact sums.meets fits allowed served exact_
  · obtain ⟨after, served, s, shows, held⟩ := sums.serve lawful fits allowed meets
    exact ⟨after, served, shows.exact_iff_meets.mpr held.exact_⟩

def addByte : Operation 1 := ⟨fun first second i => first i + second i, fun _ => 0⟩

theorem addByte_lawful : addByte.Lawful where
  assoc first second third := funext fun i => UInt8.add_assoc (first i) (second i) (third i)
  comm first second := funext fun i => UInt8.add_comm (first i) (second i)
  identity value := funext fun i => UInt8.zero_add (value i)

theorem crew_others : ∀ shep < 2, [1 - shep].Perm ((List.range 2).erase shep) := by decide

def crew : Machine where
  sheps := 2
  wps := 2
  someSheps := Nat.two_pos
  someWorkers := Nat.two_pos
  sorted := fun shep => [1 - shep]
  others := crew_others

/-- Workers of both shepherds submit 3 and 4, and then one more submit is expected. -/
theorem reductions_exact_iff_meets_crew : ∃ last after : Packed 1,
    last.Exact addByte ⟨0, [fun _ => 3, fun _ => 4]⟩ ∧
      last.serve crew 64 addByte (.call (.expect (1, 1) 1)) = some after ∧
        after.Exact addByte ⟨1, [fun _ => 3, fun _ => 4]⟩ := by
  have one_lt : 1 < countRange := Nat.one_lt_two_pow (by decide)
  have two_lt : 2 < countRange := Nat.pow_lt_pow_right (m := 1) Nat.one_lt_two (by decide)
  have run : ∃ last, Run (Guarded (Packed.Ready crew addByte)
      (Packed.Step crew 64 addByte)) (⟨.init 0, none⟩, ⟨0, []⟩)
      [.init ⟨fun _ => 1, fun _ => 1⟩ 2, .call (.submit (0, 1) (some fun _ => 3)),
        .call (.submit (1, 0) (some fun _ => 4))] (last, ⟨0, [fun _ => 3, fun _ => 4]⟩) :=
    ⟨_, .cons (show Guarded _ _ _ _ (_, ⟨2, []⟩) from ⟨⟨two_lt, .inl (by decide)⟩, rfl, rfl⟩)
      (.cons (show Guarded _ _ _ _ (_, ⟨1, [fun _ => 3]⟩) from
        ⟨⟨⟨by decide, Nat.two_pos, nofun⟩, trivial⟩, rfl, rfl⟩)
        (.cons ⟨⟨⟨by decide, Nat.one_pos, nofun⟩, trivial⟩, rfl, rfl⟩ (.nil _)))⟩
  obtain ⟨last, submits⟩ := run
  have fits : Layout.Fits crew 64 1 := ⟨by decide, by decide⟩
  obtain ⟨-, exact_, next⟩ := reductions_exact_iff_meets addByte_lawful fits submits
  obtain ⟨after, served, meets⟩ := (next (.call (.expect (1, 1) 1)) ⟨by decide, one_lt⟩).mpr
    ⟨Nat.one_pos, one_lt⟩
  exact ⟨last, after, exact_, served, meets⟩

/-- A reset to 0 while a submit is to come leaves `ready` empty. -/
theorem reset_to_zero_stays_empty : ∃ last : Packed 1,
    (Packed.init single 64 addByte ⟨fun _ => 1, fun _ => 1⟩ 1).serve single 64 addByte
      (.call (.reset 0)) = some last ∧
        (Request.call (.reset 0) : Request 1).Allowed single ⟨1, []⟩ ∧
          last.sinc.counter = 0 ∧ last.sinc.ready = false :=
  ⟨_, rfl, Nat.two_pow_pos 64, rfl, rfl⟩

end Selectable

end Qthreads.Sincs
