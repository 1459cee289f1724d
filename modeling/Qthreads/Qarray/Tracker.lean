import Qthreads.Lib.Run
import Qthreads.Lib.Shares
import Qthreads.Qarray.Layout

namespace Qthreads.Segments

open Lib
open Function (update update_of_ne update_self update_eq_self_iff)

/-! `chunk_distribution_tracker`

Arrays are told by handles, the number of arrays made before; one that was destroyed is gone. -/

structure State extends Shared where
  arrays : Nat → Option Record
  made : Nat

namespace State

variable (n pagesize : Nat) (s : State)

def start (memory : Nat → Nat) : State := ⟨⟨fun _ => 0, memory⟩, fun _ => none, 0⟩

/-- `qthread_incr` on a counter of the tracker -/
def incr (shep : Nat) (by_ : Int) : State :=
  { s with tracker := update s.tracker shep (s.tracker shep + by_) }

def creates (around : Around) (request : Request) : Option State := do
  let (a, shared) ← create pagesize n around s.toShared request
  some ⟨shared, update s.arrays s.made (some a), s.made + 1⟩

/-- The shepherd of a segment, as `qarray_destroy` looks it up. -/
def ownerOf (a : Record) (segment : Nat) : Option Nat :=
  match a.distType with
  | .dist => (a.elemNomigrate (segment * a.segmentSize)).bind (a.segmentShepRead s.memory)
  | _ => a.shepofSegidx n s.memory segment

/-- One round of the loops of `qarray_destroy`. -/
def discount (a : Record) (s : State) (segment : Nat) : Option State :=
  (s.ownerOf n a segment).map fun shep => s.incr shep (-1)

/-- The `switch` of `qarray_destroy`. -/
def discounts (a : Record) : Option State :=
  match a.distType with
  | .allSame => some (s.incr a.distShep (-a.segmentCount))
  | _ => (List.range a.segmentCount).foldlM (discount n a) s

def destroy (handle : Nat) : Option State := do
  let a ← s.arrays handle
  let s ← s.discounts n a
  some { s with arrays := update s.arrays handle none }

def setShepof (handle i shep : Nat) : Option State := do
  let a ← s.arrays handle
  if i > a.count then some s
  else
    match a.distType with
    | .fixedFields | .fixedHash => some s
    | .allSame =>
      if a.distShep ≠ shep then
        let s := (s.incr shep a.segmentCount).incr a.distShep (-a.segmentCount)
        some { s with arrays := update s.arrays handle (some { a with distShep := shep }) }
      else some s
    | .dist => do
        let segment ← divide i a.segmentSize
        let seghead ← a.elemNomigrate (segment * a.segmentSize)
        let curShep ← a.segmentShepRead s.memory seghead
        if curShep < n then
          if curShep ≠ shep then do
            let s := (s.incr shep 1).incr curShep (-1)
            let memory ← a.segmentShepWrite s.memory seghead shep
            some { s with memory := memory }
          else some s
        else none

def shepof (handle index : Nat) : Option Nat := (s.arrays handle).bind (·.shepof n s.memory index)

/-- The loops of `qarray_dist_like` over the first elements of the segments of `mod`. -/
def likeLoop (shepAt : State → Nat → Option Nat) (mod count segmentSize : Nat) :
    Nat → Nat → State → Option State
  | 0, _, _ => none
  | fuel + 1, i, s =>
    if i < count then do
      let shep ← shepAt s i
      let s ← s.setShepof n mod i shep
      likeLoop shepAt mod count segmentSize fuel (i + segmentSize) s
    else some s

def distLike (ref mod : Nat) : Option State := do
  let r ← s.arrays ref
  let m ← s.arrays mod
  if r.count = m.count ∧ r.unitSize = m.unitSize ∧
      (r.distType = .dist → m.distType ≠ .allSame) then
    match r.distType with
    | .allSame => do
        let shep ← s.shepof n ref 0
        match m.distType with
        | .allSame => s.setShepof n mod 0 shep
        | .dist => likeLoop n (fun _ _ => some shep) mod m.count m.segmentSize (m.count + 1) 0 s
        | _ => none
    | .dist =>
      if r.segmentSize = m.segmentSize ∧ r.segmentBytes = m.segmentBytes ∧ m.distType = .dist then
        likeLoop n (fun s i => s.shepof n ref i) mod m.count m.segmentSize (m.count + 1) 0 s
      else none
    | _ => none
  else none

end State

inductive Call where
  | create (around : Around) (request : Request)
  | destroy (handle : Nat)
  | setShepof (handle i shep : Nat)
  | distLike (ref mod : Nat)

def Disjoint (a b : Record) : Prop :=
  a.head a.segmentCount ≤ b.basePtr ∨ b.head b.segmentCount ≤ a.basePtr

/-- The calls that return: a creation gets memory that no array has, and shepherds are ones there
are. -/
inductive Step (n pagesize : Nat) : State → Call → State → Prop where
  | create {s after : State} {around : Around} {request : Request} (runs : around.shep < n)
      (created : s.creates n pagesize around request = some after)
      (fresh : ∀ handle a b, s.arrays handle = some a → after.arrays s.made = some b → Disjoint a b) :
      Step n pagesize s (.create around request) after
  | destroy {s after : State} {handle : Nat} (destroyed : s.destroy n handle = some after) :
      Step n pagesize s (.destroy handle) after
  | setShepof {s after : State} {handle i shep : Nat} (below : shep < n)
      (done : s.setShepof n handle i shep = some after) :
      Step n pagesize s (.setShepof handle i shep) after
  | distLike {s after : State} {ref mod : Nat} (done : s.distLike n ref mod = some after) :
      Step n pagesize s (.distLike ref mod) after

/-- The calls that keep the accounts: no array on one shepherd is made, and no shepherd is set for
the segment behind the last one of a `DIST` array. -/
def Allowed (s : State) : Call → Prop
  | .create _ request => request.d.distType ≠ .allSame
  | .setShepof handle i _ => ∀ a, s.arrays handle = some a → a.distType = .dist →
      i = a.count → a.count % a.segmentSize ≠ 0
  | _ => True

def load (n : Nat) (memory : Nat → Nat) (x : Nat) : Option Record → Nat
  | none => 0
  | some a => ((Finset.range a.segmentCount).filter
      fun seg => a.shepofSegidx n memory seg = some x).card

def State.placed (s : State) (n x : Nat) : Nat :=
  total (List.range s.made) fun handle => load n s.memory x (s.arrays handle)

/-- The tracker counts the segments, and a least loaded shepherd is found by it. -/
structure Exact (n : Nat) (s : State) : Prop where
  counts : ∀ x, s.tracker x = s.placed n x
  least : ∀ x < n, s.placed n (least n s.tracker) ≤ s.placed n x

/-- The segments that `qarray_set_shepof` is to change. -/
def Changed (a : Record) (i seg : Nat) : Prop :=
  a.distType = .allSame ∨ (a.distType = .dist ∧ seg = i / a.segmentSize)

instance (a : Record) (i seg : Nat) : Decidable (Changed a i seg) :=
  inferInstanceAs (Decidable (_ ∨ (_ ∧ _)))

def Effect (n : Nat) (before : State) (call : Call) (after : State) : Prop :=
  match call with
  | .setShepof handle i shep => ∀ other b, before.arrays other = some b →
      ∃ c, after.arrays other = some c ∧ c = { b with distShep := c.distShep } ∧
        ∀ seg < b.segmentCount, c.shepofSegidx n after.memory seg =
          if other = handle ∧ i ≤ b.count ∧ Changed b i seg then some shep
          else b.shepofSegidx n before.memory seg
  | .distLike ref mod => ∀ a, before.arrays mod = some a → ∀ i < a.count,
      ∃ shep, before.shepof n ref i = some shep ∧ after.shepof n ref i = some shep ∧
        after.shepof n mod i = some shep
  | _ => True

theorem least_le (tracker : Nat → Int) {n x : Nat} (inside : x < n) :
    tracker (least n tracker) ≤ tracker x := by
  have descends : ∀ (indices : List Nat) start, ∀ y ∈ start :: indices,
      tracker (indices.foldl (fun least i => if tracker i < tracker least then i else least) start) ≤
        tracker y := by
    intro indices
    induction indices with
    | nil =>
      intro start y member
      rw [List.mem_singleton.mp member]
      exact Int.le_refl _
    | cons first rest induction =>
      intro start y member
      rw [List.foldl_cons]
      have better := induction (if tracker first < tracker start then first else start)
      have head := better _ List.mem_cons_self
      rcases List.mem_cons.mp member with rfl | member
      · split_ifs at head ⊢ <;> omega
      · rcases List.mem_cons.mp member with rfl | member
        · split_ifs at head ⊢ <;> omega
        · exact better y (List.mem_cons_of_mem _ member)
  refine descends _ 0 x ?_
  rw [List.mem_cons, List.mem_range'_1]
  omega

variable {n pagesize : Nat} {s after : State} {a b : Record} {memory later : Nat → Nat}
  {handle seg i shep : Nat} {targets : Nat → Nat}

structure Owned (n : Nat) (memory : Nat → Nat) (a : Record) (targets : Nat → Nat) : Prop where
  size : 0 < a.segmentSize
  bytes : 0 < a.segmentBytes
  below : ∀ seg < a.segmentCount, targets seg < n
  segidx : ∀ seg < a.segmentCount, a.shepofSegidx n memory seg = some (targets seg)
  slots : a.distType = .dist → ∀ seg < a.segmentCount, ∃ slot, a.segmentShep (a.head seg) = some slot

theorem Owned.load (owned : Owned n memory a targets) (x : Nat) :
    load n memory x (some a) = held a.segmentCount targets x := by
  simp only [Segments.load, held]
  congr 1
  refine Finset.filter_congr fun seg inside => ?_
  rw [owned.segidx seg (Finset.mem_range.mp inside), Option.some.injEq]

theorem segidx_keeps (kept : Keeps a memory later) (positive : 0 < a.segmentSize)
    (inside : seg < a.segmentCount) :
    a.shepofSegidx n later seg = a.shepofSegidx n memory seg := by
  cases type : a.distType with
  | dist =>
    simp only [Record.shepofSegidx, type, Record.elemNomigrate_head positive inside, Option.bind_some,
      Record.segmentShepRead]
    cases found : a.segmentShep (a.head seg) with
    | none => rfl
    | some slot => rw [Option.map_some, Option.map_some, kept seg inside slot found]
  | fixedHash => simp only [Record.shepofSegidx, type]
  | fixedFields => simp only [Record.shepofSegidx, type]
  | allSame => simp only [Record.shepofSegidx, type]

theorem Owned.keeps (owned : Owned n memory a targets) (kept : Keeps a memory later) :
    Owned n later a targets where
  size := owned.size
  bytes := owned.bytes
  below := owned.below
  segidx := by
    intro seg inside
    rw [segidx_keeps kept owned.size inside, owned.segidx seg inside]
  slots := owned.slots

theorem slots_apart {other slot place : Nat} (apart : Disjoint a b) (inside : seg < a.segmentCount)
    (within : other < b.segmentCount) (found : a.segmentShep (a.head seg) = some slot)
    (there : b.segmentShep (b.head other) = some place) : place ≠ slot := by
  have first := Record.segmentShep_bounds found
  have second := Record.segmentShep_bounds there
  have firstEnd := a.head_mono (show seg + 1 ≤ a.segmentCount from inside)
  have secondEnd := b.head_mono (show other + 1 ≤ b.segmentCount from within)
  have firstStart : a.basePtr ≤ a.head seg := Nat.le_add_right ..
  have secondStart : b.basePtr ≤ b.head other := Nat.le_add_right ..
  rcases apart with before | before <;> omega

theorem keeps_update {slot : Nat} (apart : Disjoint a b) (inside : seg < a.segmentCount)
    (found : a.segmentShep (a.head seg) = some slot) (memory : Nat → Nat) (shep : Nat) :
    Keeps b memory (update memory slot shep) := by
  intro other within place there
  exact update_of_ne (slots_apart apart inside within found there) ..

structure Kept (n : Nat) (s : State) : Prop where
  counts : ∀ x, s.tracker x = s.placed n x
  fresh : ∀ handle, s.made ≤ handle → s.arrays handle = none
  owned : ∀ handle a, s.arrays handle = some a → ∃ targets, Owned n s.memory a targets
  apart : ∀ handle other a b, handle ≠ other → s.arrays handle = some a →
    s.arrays other = some b → Disjoint a b

theorem Disjoint.symm (apart : Disjoint a b) : Disjoint b a := Or.symm apart

theorem Kept.made (kept : Kept n s) (found : s.arrays handle = some a) : handle < s.made := by
  by_contra past
  rw [kept.fresh handle (Nat.le_of_not_lt past)] at found
  cases found

theorem load_keeps (owned : Owned n memory a targets) (kept : Keeps a memory later) (x : Nat) :
    load n later x (some a) = load n memory x (some a) := by
  rw [(owned.keeps kept).load, owned.load]

theorem Kept.change {new : Option Record} (kept : Kept n s) (inside : handle < s.made)
    (made : after.made = s.made) (arrays : after.arrays = update s.arrays handle new)
    (others : ∀ other b, other ≠ handle → s.arrays other = some b → Keeps b s.memory after.memory)
    (owned : ∀ a, new = some a → ∃ targets, Owned n after.memory a targets)
    (apart : ∀ a, new = some a → ∀ other b, other ≠ handle → s.arrays other = some b → Disjoint a b)
    (tracker : ∀ x, after.tracker x + load n s.memory x (s.arrays handle) =
      s.tracker x + load n after.memory x new) : Kept n after where
  counts := by
    intro x
    have same : ∀ other, other ≠ handle → load n after.memory x (after.arrays other) =
        load n s.memory x (s.arrays other) := by
      intro other differs
      rw [arrays, update_of_ne differs]
      cases found : s.arrays other with
      | none => rfl
      | some b =>
        obtain ⟨targets, owner⟩ := kept.owned other b found
        exact load_keeps owner (others other b differs found) x
    have shares : (fun other => load n after.memory x (after.arrays other)) =
        update (fun other => load n s.memory x (s.arrays other)) handle
          (load n after.memory x new) := by
      funext other
      by_cases here : other = handle
      · rw [here, update_self, arrays, update_self]
      · rw [update_of_ne here, same other here]
    have sum : total (List.range s.made) (update (fun other =>
        load n s.memory x (s.arrays other)) handle (load n after.memory x new)) +
          load n s.memory x (s.arrays handle) =
        total (List.range s.made) (fun other => load n s.memory x (s.arrays other)) +
          load n after.memory x new :=
      total_update List.nodup_range (List.mem_range.mpr inside)
    have moved := tracker x
    rw [kept.counts x] at moved
    simp only [State.placed] at moved ⊢
    rw [made, shares]
    omega
  fresh := by
    intro other past
    rw [arrays, update_of_ne (by omega)]
    exact kept.fresh other (by omega)
  owned := by
    intro other b found
    rw [arrays] at found
    by_cases here : other = handle
    · rw [here, update_self] at found
      exact owned b found
    · rw [update_of_ne here] at found
      obtain ⟨targets, owner⟩ := kept.owned other b found
      exact ⟨targets, owner.keeps (others other b here found)⟩
  apart := by
    intro first second a b differs foundFirst foundSecond
    rw [arrays] at foundFirst foundSecond
    by_cases here : first = handle
    · rw [here, update_self] at foundFirst
      rw [update_of_ne (by omega)] at foundSecond
      exact apart a foundFirst second b (by omega) foundSecond
    · rw [update_of_ne here] at foundFirst
      by_cases there : second = handle
      · rw [there, update_self] at foundSecond
        exact (apart b foundSecond first a (by omega) foundFirst).symm
      · rw [update_of_ne there] at foundSecond
        exact kept.apart first second a b differs foundFirst foundSecond

theorem Kept.grow (kept : Kept n s) : Kept n { s with made := s.made + 1 } where
  counts := by
    intro x
    have zero : load n s.memory x (s.arrays s.made) = 0 := by
      rw [kept.fresh s.made (Nat.le_refl _), Segments.load]
    simp only [State.placed, total, List.range_succ, List.map_append, List.sum_append, List.map_cons,
      List.map_nil, List.sum_singleton, zero, Nat.add_zero]
    exact kept.counts x
  fresh := fun handle past => kept.fresh handle (Nat.le_of_succ_le past)
  owned := kept.owned
  apart := kept.apart

theorem Kept.create {around : Around} {request : Request} (kept : Kept n s)
    (allowed : request.d.distType ≠ .allSame)
    (created : s.creates n pagesize around request = some after)
    (fresh : ∀ handle a b, s.arrays handle = some a → after.arrays s.made = some b → Disjoint a b) :
    Kept n after := by
  simp only [State.creates, Option.bind_eq_bind, Option.bind_eq_some_iff] at created
  obtain ⟨⟨a, shared⟩, made, same⟩ := created
  obtain rfl := Option.some.inj same
  obtain ⟨record, size, bytes, targets, assigned⟩ := create_inv made
  have type : a.distType = request.d.distType := by rw [record]; rfl
  have counted : counted a s.tracker = s.tracker := if_neg (by rw [type]; exact allowed)
  have apart : ∀ other b, s.arrays other = some b → Disjoint a b := fun other b found =>
    (fresh other b a found (update_self ..)).symm
  have owned : Owned n shared.memory a targets :=
    { size := size
      bytes := bytes
      below := assigned.below
      segidx := fun seg inside =>
        segidx_of_target type size assigned (fun _ _ _ _ => rfl) inside
      slots := fun dist seg inside =>
        (assigned.written dist seg inside).imp fun slot written => written.1 }
  refine kept.grow.change (Nat.lt_succ_self s.made) rfl rfl ?_ ?_ ?_ ?_
  · intro other b _ found seg inside slot there
    refine assigned.elsewhere slot fun first less own => ?_
    exact slots_apart (apart other b found) less inside own there rfl
  · rintro b same
    obtain rfl := Option.some.inj same
    exact ⟨targets, owned⟩
  · rintro b same other c _ found
    obtain rfl := Option.some.inj same
    exact apart other c found
  · intro x
    have zero : load n s.memory x (s.arrays s.made) = 0 := by
      rw [kept.fresh s.made (Nat.le_refl _), Segments.load]
    have tracker := assigned.tracker x
    simp only [counted] at tracker
    change shared.tracker x + load n s.memory x (s.arrays s.made) =
      s.tracker x + load n shared.memory x (some a)
    rw [zero, owned.load, tracker]
    omega

@[simp] theorem incr_memory (s : State) (shep : Nat) (by_ : Int) : (s.incr shep by_).memory = s.memory := rfl
@[simp] theorem incr_arrays (s : State) (shep : Nat) (by_ : Int) : (s.incr shep by_).arrays = s.arrays := rfl

theorem incr_tracker (s : State) (shep : Nat) (by_ : Int) (x : Nat) :
    (s.incr shep by_).tracker x = s.tracker x + if shep = x then by_ else 0 := by
  simp only [State.incr]
  by_cases same : x = shep
  · rw [same, update_self, if_pos rfl]
  · rw [update_of_ne same, if_neg (Ne.symm same), Int.add_zero]

theorem ownerOf_eq (s : State) (a : Record) (segment : Nat) :
    s.ownerOf n a segment = a.shepofSegidx n s.memory segment := by
  simp only [State.ownerOf]
  split
  · rename_i type
    simp only [Record.shepofSegidx, type]
  · rfl

theorem discount_run {k : Nat} (owned : Owned n s.memory a targets) (within : k ≤ a.segmentCount)
    (ran : (List.range k).foldlM (State.discount n a) s = some after) :
    after.memory = s.memory ∧ after.arrays = s.arrays ∧ after.made = s.made ∧
      ∀ x, after.tracker x = s.tracker x - held k targets x := by
  induction k generalizing after with
  | zero =>
    obtain rfl := Option.some.inj ran
    exact ⟨rfl, rfl, rfl, fun x => by simp [held]⟩
  | succ k induction =>
    rw [List.range_succ, List.foldlM_append, Option.bind_eq_bind, Option.bind_eq_some_iff] at ran
    obtain ⟨between, first, last⟩ := ran
    obtain ⟨memory, arrays, made, tracker⟩ := induction (by omega) first
    rw [List.foldlM_cons, Option.bind_eq_bind, Option.bind_eq_some_iff] at last
    obtain ⟨final, round, ended⟩ := last
    obtain rfl := Option.some.inj ended
    rw [State.discount, ownerOf_eq, memory, owned.segidx k (by omega), Option.map_some] at round
    obtain rfl := Option.some.inj round
    refine ⟨memory, arrays, made, fun x => ?_⟩
    rw [incr_tracker, tracker x, held_succ]
    split_ifs <;> push_cast <;> omega

theorem discounts_spec (owned : Owned n s.memory a targets) (ran : s.discounts n a = some after) :
    after.memory = s.memory ∧ after.arrays = s.arrays ∧ after.made = s.made ∧
      ∀ x, after.tracker x = s.tracker x - held a.segmentCount targets x := by
  simp only [State.discounts] at ran
  split at ran
  · rename_i type
    obtain rfl := Option.some.inj ran
    refine ⟨rfl, rfl, rfl, fun x => ?_⟩
    have home : ∀ seg < a.segmentCount, targets seg = a.distShep := by
      intro seg inside
      have found := owned.segidx seg inside
      simp only [Record.shepofSegidx, type, Option.some.injEq] at found
      exact found.symm
    rw [incr_tracker, held_congr home, held_const]
    split_ifs <;> push_cast <;> omega
  · exact discount_run owned (Nat.le_refl _) ran

theorem Kept.destroy (kept : Kept n s) (destroyed : s.destroy n handle = some after) : Kept n after := by
  simp only [State.destroy, Option.bind_eq_bind, Option.bind_eq_some_iff] at destroyed
  obtain ⟨a, found, between, ran, same⟩ := destroyed
  obtain rfl := Option.some.inj same
  obtain ⟨targets, owned⟩ := kept.owned handle a found
  obtain ⟨memory, arrays, made, tracker⟩ := discounts_spec owned ran
  refine kept.change (kept.made found) made (by rw [arrays]) ?_ ?_ ?_ ?_
  · intro other b _ _ seg _ slot _
    rw [memory]
  · intro b present
    cases present
  · intro b present
    cases present
  · intro x
    change between.tracker x + load n s.memory x (s.arrays handle) = s.tracker x + (0 : Nat)
    rw [found, owned.load, tracker x]
    omega

def reset (a : Record) (i shep : Nat) (targets : Nat → Nat) (seg : Nat) : Nat :=
  if i ≤ a.count ∧ Changed a i seg then shep else targets seg

structure Reset (n : Nat) (s after : State) (handle i shep : Nat) (a c : Record)
    (targets : Nat → Nat) : Prop where
  arrays : after.arrays = update s.arrays handle (some c)
  made : after.made = s.made
  like : c = { a with distShep := c.distShep }
  same : a.distType ≠ .allSame → c = a
  owned : Owned n after.memory c (reset a i shep targets)
  others : ∀ b, Disjoint a b → Keeps b s.memory after.memory
  tracker : ∀ x, after.tracker x + held a.segmentCount targets x =
    s.tracker x + held a.segmentCount (reset a i shep targets) x

theorem Owned.congr {others : Nat → Nat} (owned : Owned n memory a targets)
    (same : ∀ seg < a.segmentCount, others seg = targets seg) : Owned n memory a others where
  size := owned.size
  bytes := owned.bytes
  below := fun seg inside => by rw [same seg inside]; exact owned.below seg inside
  segidx := fun seg inside => by rw [same seg inside]; exact owned.segidx seg inside
  slots := owned.slots

theorem Reset.unchanged (found : s.arrays handle = some a) (owned : Owned n s.memory a targets)
    (same : ∀ seg < a.segmentCount, reset a i shep targets seg = targets seg) :
    Reset n s s handle i shep a a targets where
  arrays := (Function.update_eq_self_iff.mpr found.symm).symm
  made := rfl
  like := rfl
  same := fun _ => rfl
  owned := owned.congr same
  others := fun _ _ _ _ _ _ => rfl
  tracker := fun x => by rw [held_congr same]

theorem Owned.home (owned : Owned n memory a targets) (type : a.distType = .allSame)
    (inside : seg < a.segmentCount) : targets seg = a.distShep := by
  have found := owned.segidx seg inside
  simp only [Record.shepofSegidx, type, Option.some.injEq] at found
  exact found.symm

theorem reset_allSame (type : a.distType = .allSame) (accepts : i ≤ a.count) :
    reset a i shep targets = fun _ => shep := by
  funext seg
  exact if_pos ⟨accepts, .inl type⟩

theorem setShepof_allSame (found : s.arrays handle = some a) (owned : Owned n s.memory a targets)
    (type : a.distType = .allSame) (accepts : i ≤ a.count) (below : shep < n)
    (done : s.setShepof n handle i shep = some after) :
    ∃ c, Reset n s after handle i shep a c targets := by
  simp only [State.setShepof, found, Option.bind_eq_bind, Option.bind_some,
    if_neg (Nat.not_lt.mpr accepts)] at done
  split at done
  all_goals try (rename_i other; rw [type] at other; cases other)
  split_ifs at done with moves
  · obtain rfl := Option.some.inj done
    refine ⟨{ a with distShep := shep }, rfl, rfl, rfl, fun other => absurd type other, ?_, fun _ _ _ _ _ _ => rfl, fun x => ?_⟩
    · rw [reset_allSame type accepts]
      exact ⟨owned.size, owned.bytes, fun _ _ => below, fun seg _ => by
        simp only [Record.shepofSegidx, type], fun dist => by
        rw [show _ = DistType.allSame from type] at dist
        cases dist⟩
    · rw [reset_allSame type accepts, held_const, held_congr fun seg inside => owned.home type inside,
        held_const]
      change ((s.incr shep a.segmentCount).incr a.distShep (-a.segmentCount)).tracker x + _ = _
      rw [incr_tracker, incr_tracker]
      split_ifs <;> push_cast <;> omega
  · obtain rfl := Option.some.inj done
    refine ⟨a, .unchanged found owned fun seg inside => ?_⟩
    rw [reset_allSame type accepts, owned.home type inside]
    exact (not_not.mp moves).symm

theorem segment_lt (positive : 0 < a.segmentSize) (accepts : i ≤ a.count)
    (allowed : i = a.count → a.count % a.segmentSize ≠ 0) : i / a.segmentSize < a.segmentCount := by
  rcases Nat.lt_or_eq_of_le accepts with less | same
  · exact a.div_lt_segmentCount positive less
  · rw [Record.segmentCount, if_pos (allowed same), same]
    exact Nat.lt_succ_self _

theorem reset_dist (type : a.distType = .dist) (accepts : i ≤ a.count) :
    reset a i shep targets = update targets (i / a.segmentSize) shep := by
  funext seg
  have only : Changed a i seg ↔ seg = i / a.segmentSize := by simp [Changed, type]
  simp only [reset, only, accepts, true_and]
  by_cases here : seg = i / a.segmentSize
  · rw [if_pos here, here, update_self]
  · rw [if_neg here, update_of_ne here]

theorem setShepof_dist (found : s.arrays handle = some a) (owned : Owned n s.memory a targets)
    (type : a.distType = .dist) (accepts : i ≤ a.count) (below : shep < n)
    (allowed : i = a.count → a.count % a.segmentSize ≠ 0)
    (done : s.setShepof n handle i shep = some after) :
    ∃ c, Reset n s after handle i shep a c targets := by
  have inside := segment_lt owned.size accepts allowed
  obtain ⟨slot, there⟩ := owned.slots type _ inside
  have current : s.memory slot = targets (i / a.segmentSize) := by
    have stored := owned.segidx _ inside
    rw [Record.shepofSegidx_dist type owned.size inside there] at stored
    exact Option.some.inj stored
  have known := owned.below _ inside
  simp only [State.setShepof, found, Option.bind_eq_bind, Option.bind_some,
    if_neg (Nat.not_lt.mpr accepts), type, divide_eq owned.size,
    Record.elemNomigrate_head owned.size inside, Record.segmentShepRead, there, Option.map_some,
    current, if_pos known, Record.segmentShepWrite] at done
  split_ifs at done with moves
  · obtain rfl := Option.some.inj done
    refine ⟨a, (Function.update_eq_self_iff.mpr found.symm).symm, rfl, rfl, fun _ => rfl, ?_, ?_,
      fun x => ?_⟩
    · rw [reset_dist type accepts]
      refine ⟨owned.size, owned.bytes, fun seg within => ?_, fun seg within => ?_, owned.slots⟩
      · by_cases here : seg = i / a.segmentSize
        · rwa [here, update_self]
        · rw [update_of_ne here]
          exact owned.below seg within
      · obtain ⟨place, own⟩ := owned.slots type seg within
        rw [Record.shepofSegidx_dist type owned.size within own]
        by_cases here : seg = i / a.segmentSize
        · subst here
          rw [own] at there
          obtain rfl := Option.some.inj there
          simp only [incr_memory, update_self]
        · have apart : place ≠ slot := by
            rintro rfl
            exact here (Record.segmentShep_inj own there)
          have before := owned.segidx seg within
          rw [Record.shepofSegidx_dist type owned.size within own] at before
          simp only [incr_memory, update_of_ne apart, update_of_ne here]
          exact before
    · exact fun b apart => keeps_update apart inside there s.memory shep
    · have handed := held_update targets inside shep x
      rw [reset_dist type accepts]
      change ((s.incr shep 1).incr (targets (i / a.segmentSize)) (-1)).tracker x + _ = _
      rw [incr_tracker, incr_tracker]
      split_ifs at handed ⊢ <;> omega
  · obtain rfl := Option.some.inj done
    refine ⟨a, .unchanged found owned fun seg _ => ?_⟩
    rw [reset_dist type accepts]
    by_cases here : seg = i / a.segmentSize
    · rw [here, update_self]
      omega
    · rw [update_of_ne here]

theorem setShepof_spec (found : s.arrays handle = some a) (owned : Owned n s.memory a targets)
    (below : shep < n) (allowed : Allowed s (.setShepof handle i shep))
    (done : s.setShepof n handle i shep = some after) :
    ∃ c, Reset n s after handle i shep a c targets := by
  by_cases accepts : i ≤ a.count
  · cases type : a.distType with
    | allSame => exact setShepof_allSame found owned type accepts below done
    | dist => exact setShepof_dist found owned type accepts below (allowed a found type) done
    | fixedHash =>
      simp only [State.setShepof, found, Option.bind_eq_bind, Option.bind_some,
        if_neg (Nat.not_lt.mpr accepts), type] at done
      obtain rfl := Option.some.inj done
      exact ⟨a, .unchanged found owned fun seg _ => if_neg (by simp [Changed, type])⟩
    | fixedFields =>
      simp only [State.setShepof, found, Option.bind_eq_bind, Option.bind_some,
        if_neg (Nat.not_lt.mpr accepts), type] at done
      obtain rfl := Option.some.inj done
      exact ⟨a, .unchanged found owned fun seg _ => if_neg (by simp [Changed, type])⟩
  · simp only [State.setShepof, found, Option.bind_eq_bind, Option.bind_some,
      if_pos (Nat.lt_of_not_le accepts)] at done
    obtain rfl := Option.some.inj done
    exact ⟨a, .unchanged found owned fun seg _ => if_neg fun both => accepts both.1⟩

theorem Kept.reset {c : Record} (kept : Kept n s) (found : s.arrays handle = some a)
    (owned : Owned n s.memory a targets) (done : Reset n s after handle i shep a c targets) :
    Kept n after := by
  have place : ∀ b, Disjoint a b → Disjoint c b := by
    intro b apart
    rw [done.like]
    exact apart
  have segments : c.segmentCount = a.segmentCount := by
    rw [done.like]
    rfl
  refine kept.change (kept.made found) done.made done.arrays ?_ ?_ ?_ ?_
  · intro other b differs there
    exact done.others b (kept.apart handle other a b (Ne.symm differs) found there)
  · rintro b same
    obtain rfl := Option.some.inj same
    exact ⟨_, done.owned⟩
  · rintro b same other d differs there
    obtain rfl := Option.some.inj same
    exact place d (kept.apart handle other a d (Ne.symm differs) found there)
  · intro x
    rw [found, owned.load, done.owned.load, segments]
    exact done.tracker x

theorem setShepof_found (done : s.setShepof n handle i shep = some after) :
    ∃ a, s.arrays handle = some a := by
  cases found : s.arrays handle with
  | none => simp [State.setShepof, found] at done
  | some a => exact ⟨a, rfl⟩

theorem Kept.setShepof (kept : Kept n s) (below : shep < n)
    (allowed : Allowed s (.setShepof handle i shep))
    (done : s.setShepof n handle i shep = some after) : Kept n after := by
  obtain ⟨a, found⟩ := setShepof_found done
  obtain ⟨targets, owned⟩ := kept.owned handle a found
  obtain ⟨c, set⟩ := setShepof_spec found owned below allowed done
  exact kept.reset found owned set

theorem effect_setShepof (kept : Kept n s) (below : shep < n)
    (allowed : Allowed s (.setShepof handle i shep))
    (done : s.setShepof n handle i shep = some after) :
    Effect n s (.setShepof handle i shep) after := by
  obtain ⟨a, found⟩ := setShepof_found done
  obtain ⟨targets, owned⟩ := kept.owned handle a found
  obtain ⟨c, set⟩ := setShepof_spec found owned below allowed done
  intro other b there
  by_cases here : other = handle
  · subst here
    rw [found] at there
    obtain rfl := Option.some.inj there
    refine ⟨c, by rw [set.arrays, update_self], set.like, fun seg inside => ?_⟩
    have segments : c.segmentCount = a.segmentCount := by
      rw [set.like]
      rfl
    rw [set.owned.segidx seg (by rw [segments]; exact inside), owned.segidx seg inside, reset]
    simp only [true_and]
    split_ifs <;> rfl
  · refine ⟨b, by rw [set.arrays, update_of_ne here, there], rfl, fun seg inside => ?_⟩
    obtain ⟨owners, own⟩ := kept.owned other b there
    have keeps := set.others b (kept.apart handle other a b (Ne.symm here) found there)
    rw [if_neg fun both => here both.1, segidx_keeps keeps own.size inside]

theorem Owned.shepof (owned : Owned n memory a targets) (inside : i < a.count) :
    a.shepof n memory i = some (targets (i / a.segmentSize)) :=
  (reports_of_segidx owned.size owned.bytes owned.below owned.segidx).shepof i inside

structure Likened (n : Nat) (s t : State) (m : Record) (wanted targets : Nat → Nat) (k : Nat) :
    Prop where
  kept : Kept n t
  arrays : t.arrays = s.arrays
  others : ∀ b, Disjoint m b → Keeps b s.memory t.memory
  owned : Owned n t.memory m fun seg => if seg < k then wanted seg else targets seg

variable {t : State} {mod ref k : Nat} {wanted : Nat → Nat}

theorem Likened.step {m : Record} (ready : Likened n s t m wanted targets k)
    (found : s.arrays mod = some m) (type : m.distType = .dist) (less : k * m.segmentSize < m.count)
    (below : wanted k < n) (done : t.setShepof n mod (k * m.segmentSize) (wanted k) = some after) :
    Likened n s after m wanted targets (k + 1) := by
  have there : t.arrays mod = some m := by rw [ready.arrays, found]
  have allowed : Allowed t (.setShepof mod (k * m.segmentSize) (wanted k)) := by
    intro b same _ last
    rw [there] at same
    obtain rfl := Option.some.inj same
    omega
  obtain ⟨c, set⟩ := setShepof_spec there ready.owned below allowed done
  obtain rfl := set.same (by rw [type]; nofun)
  refine ⟨ready.kept.reset there ready.owned set, ?_, ?_, ?_⟩
  · rw [set.arrays, ready.arrays]
    exact Function.update_eq_self_iff.mpr found.symm
  · intro b apart seg inside slot own
    rw [set.others b apart seg inside slot own, ready.others b apart seg inside slot own]
  · refine set.owned.congr fun seg _ => ?_
    rw [reset_dist type (Nat.le_of_lt less), Nat.mul_div_cancel k set.owned.size]
    by_cases here : seg = k
    · rw [here, update_self, if_pos (Nat.lt_succ_self k)]
    · rw [update_of_ne here]
      simp only [Nat.lt_succ_iff_lt_or_eq, here, or_false]

variable {shepAt : State → Nat → Option Nat}

theorem likeLoop_spec {m : Record} {fuel : Nat}
    (found : s.arrays mod = some m) (type : m.distType = .dist)
    (below : ∀ seg < m.segmentCount, wanted seg < n)
    (answers : ∀ t k, Likened n s t m wanted targets k → k * m.segmentSize < m.count →
      shepAt t (k * m.segmentSize) = some (wanted k))
    (ready : Likened n s t m wanted targets k)
    (ran : State.likeLoop n shepAt mod m.count m.segmentSize fuel (k * m.segmentSize) t = some after) :
    ∃ last, m.segmentCount ≤ last ∧ Likened n s after m wanted targets last := by
  induction fuel generalizing k t with
  | zero => cases ran
  | succ fuel induction =>
    rw [State.likeLoop] at ran
    split_ifs at ran with less
    · rw [answers t k ready less] at ran
      simp only [Option.bind_eq_bind, Option.bind_some, Option.bind_eq_some_iff] at ran
      obtain ⟨next, done, rest⟩ := ran
      have inside := m.div_lt_segmentCount ready.owned.size less
      rw [Nat.mul_div_cancel k ready.owned.size] at inside
      have stepped := ready.step found type less (below k inside) done
      rw [← Nat.add_one_mul] at rest
      exact induction stepped rest
    · obtain rfl := Option.some.inj ran
      refine ⟨k, ?_, ready⟩
      by_contra more
      have low := Record.mul_le_count (Nat.lt_of_not_le more)
      have part : k * m.segmentSize = m.count := by omega
      rw [Record.segmentCount, ← part, Nat.mul_div_cancel k ready.owned.size, Nat.mul_mod_left,
        if_neg (not_not.mpr rfl)] at more
      omega

theorem likeLoop_done {m : Record} (kept : Kept n s)
    (found : s.arrays mod = some m) (type : m.distType = .dist) (owned : Owned n s.memory m targets)
    (below : ∀ seg < m.segmentCount, wanted seg < n)
    (answers : ∀ t k, Likened n s t m wanted targets k → k * m.segmentSize < m.count →
      shepAt t (k * m.segmentSize) = some (wanted k))
    (ran : State.likeLoop n shepAt mod m.count m.segmentSize (m.count + 1) 0 s = some after) :
    Kept n after ∧ after.arrays = s.arrays ∧ (∀ b, Disjoint m b → Keeps b s.memory after.memory) ∧
      Owned n after.memory m wanted := by
  have start : Likened n s s m wanted targets 0 :=
    ⟨kept, rfl, fun _ _ _ _ _ _ => rfl, owned.congr fun seg _ => if_neg (Nat.not_lt_zero seg)⟩
  rw [← Nat.zero_mul m.segmentSize] at ran
  obtain ⟨last, all, done⟩ := likeLoop_spec found type below answers start ran
  exact ⟨done.kept, done.arrays, done.others, done.owned.congr fun seg inside =>
    (if_pos (Nat.lt_of_lt_of_le inside all)).symm⟩

theorem shepof_found (s : State) {index : Nat} (found : s.arrays handle = some a) :
    s.shepof n handle index = a.shepof n s.memory index := by
  rw [State.shepof, found, Option.bind_some]

def Alike (n : Nat) (s after : State) (ref mod : Nat) : Prop :=
  Kept n after ∧ Effect n s (.distLike ref mod) after

variable {m r : Record}

section

variable (kept : Kept n s) (foundRef : s.arrays ref = some r) (foundMod : s.arrays mod = some m)
  (count : r.count = m.count)
include kept foundRef foundMod count

theorem alike_allSame (typeRef : r.distType = .allSame)
    (typeMod : m.distType = .allSame) (index : 0 < r.count)
    (done : s.setShepof n mod 0 r.distShep = some after) : Alike n s after ref mod := by
  obtain ⟨owners, own⟩ := kept.owned ref r foundRef
  obtain ⟨targets, owned⟩ := kept.owned mod m foundMod
  have first := r.div_lt_segmentCount own.size index
  have below : r.distShep < n := by
    rw [← own.home typeRef first]
    exact own.below _ first
  have allowed : Allowed s (.setShepof mod 0 r.distShep) := by
    intro b found dist _
    rw [foundMod] at found
    obtain rfl := Option.some.inj found
    rw [typeMod] at dist
    cases dist
  obtain ⟨c, set⟩ := setShepof_spec foundMod owned below allowed done
  have found : after.arrays mod = some c := by rw [set.arrays, update_self]
  have countMod : c.count = m.count := by rw [set.like]
  have told := set.owned
  rw [reset_allSame typeMod (Nat.zero_le _)] at told
  refine ⟨kept.reset foundMod owned set, ?_⟩
  intro b same i inside
  rw [foundMod] at same
  obtain rfl := Option.some.inj same
  refine ⟨r.distShep, ?_, ?_, ?_⟩
  · rw [shepof_found s foundRef, own.shepof (by omega),
      own.home typeRef (r.div_lt_segmentCount own.size (by omega))]
  · by_cases here : ref = mod
    · rw [here, shepof_found after found, told.shepof (by omega)]
    · have stays : after.arrays ref = some r := by
        rw [set.arrays, update_of_ne here, foundRef]
      simp only [shepof_found after stays, Record.shepof, typeRef, if_pos (show i < r.count by omega)]
  · rw [shepof_found after found, told.shepof (by omega)]

theorem alike_spread (typeRef : r.distType = .allSame)
    (typeMod : m.distType = .dist) (index : 0 < r.count)
    (done : State.likeLoop n (fun _ _ => some r.distShep) mod m.count m.segmentSize (m.count + 1) 0 s =
      some after) : Alike n s after ref mod := by
  obtain ⟨owners, own⟩ := kept.owned ref r foundRef
  obtain ⟨targets, owned⟩ := kept.owned mod m foundMod
  have first := r.div_lt_segmentCount own.size index
  have below : r.distShep < n := by
    rw [← own.home typeRef first]
    exact own.below _ first
  have lies : ∀ seg < m.segmentCount, (fun _ : Nat => r.distShep) seg < n := fun _ _ => below
  obtain ⟨keptAfter, arrays, -, told⟩ := likeLoop_done kept foundMod typeMod owned lies
    (fun _ _ _ _ => rfl) done
  refine ⟨keptAfter, ?_⟩
  intro b same i inside
  rw [foundMod] at same
  obtain rfl := Option.some.inj same
  refine ⟨r.distShep, ?_, ?_, ?_⟩
  · simp only [shepof_found s foundRef, Record.shepof, typeRef, if_pos (show i < r.count by omega)]
  · simp only [shepof_found after (show after.arrays ref = some r by rw [arrays, foundRef]),
      Record.shepof, typeRef, if_pos (show i < r.count by omega)]
  · rw [shepof_found after (show after.arrays mod = some m by rw [arrays, foundMod]),
      told.shepof inside]

theorem alike_dist (size : r.segmentSize = m.segmentSize) (typeMod : m.distType = .dist)
    (done : State.likeLoop n (fun s i => s.shepof n ref i) mod m.count m.segmentSize (m.count + 1) 0 s =
      some after) : Alike n s after ref mod := by
  obtain ⟨owners, own⟩ := kept.owned ref r foundRef
  obtain ⟨targets, owned⟩ := kept.owned mod m foundMod
  have segments : r.segmentCount = m.segmentCount := by
    rw [Record.segmentCount, Record.segmentCount, count, size]
  have stays : ∀ (t : State) k, Likened n s t m owners targets k → Owned n t.memory r owners := by
    intro t k ready
    by_cases here : ref = mod
    · subst here
      rw [foundRef] at foundMod
      obtain rfl := Option.some.inj foundMod
      refine ready.owned.congr fun seg inside => ?_
      have same : targets seg = owners seg := by
        have both := own.segidx seg inside
        rw [owned.segidx seg inside] at both
        exact Option.some.inj both
      rw [same, ite_self]
    · exact own.keeps (ready.others r (kept.apart mod ref m r (Ne.symm here) foundMod foundRef))
  have answers : ∀ (t : State) k, Likened n s t m owners targets k → k * m.segmentSize < m.count →
      t.shepof n ref (k * m.segmentSize) = some (owners k) := by
    intro t k ready less
    rw [shepof_found t (show t.arrays ref = some r by rw [ready.arrays, foundRef]),
      (stays t k ready).shepof (by omega), size, Nat.mul_div_cancel k owned.size]
  obtain ⟨keptAfter, arrays, others, told⟩ := likeLoop_done kept foundMod typeMod owned
    (fun seg inside => own.below seg (by omega)) answers done
  refine ⟨keptAfter, ?_⟩
  intro b same i inside
  rw [foundMod] at same
  obtain rfl := Option.some.inj same
  refine ⟨owners (i / m.segmentSize), ?_, ?_, ?_⟩
  · rw [shepof_found s foundRef, own.shepof (by omega), size]
  · have after_ : Owned n after.memory r owners := by
      by_cases here : ref = mod
      · subst here
        rw [foundRef] at foundMod
        obtain rfl := Option.some.inj foundMod
        exact told
      · exact own.keeps (others r (kept.apart mod ref m r (Ne.symm here) foundMod foundRef))
    rw [shepof_found after (show after.arrays ref = some r by rw [arrays, foundRef]),
      after_.shepof (by omega), size]
  · rw [shepof_found after (show after.arrays mod = some m by rw [arrays, foundMod]),
      told.shepof inside]

end

theorem Kept.distLike (kept : Kept n s) (done : s.distLike n ref mod = some after) :
    Alike n s after ref mod := by
  simp only [State.distLike, Option.bind_eq_bind, Option.bind_eq_some_iff] at done
  obtain ⟨r, foundRef, m, foundMod, checked⟩ := done
  split at checked
  · rename_i checks
    split at checked
    · rename_i typeRef
      rw [shepof_found s foundRef] at checked
      simp only [Record.shepof, typeRef] at checked
      by_cases index : 0 < r.count
      · rw [if_pos index, Option.bind_some] at checked
        split at checked
        · rename_i typeMod
          exact alike_allSame kept foundRef foundMod checks.1 typeRef typeMod index checked
        · rename_i typeMod
          exact alike_spread kept foundRef foundMod checks.1 typeRef typeMod index checked
        · cases checked
      · rw [if_neg index] at checked
        cases checked
    · split at checked
      · rename_i sizes
        exact alike_dist kept foundRef foundMod checks.1 sizes.1 sizes.2.2 checked
      · cases checked
    · cases checked
  · cases checked

theorem Kept.exact (kept : Kept n s) : Exact n s where
  counts := kept.counts
  least := by
    intro x inside
    have low := least_le s.tracker inside
    rw [kept.counts, kept.counts] at low
    omega

theorem Kept.start (n : Nat) (memory : Nat → Nat) : Kept n (.start memory) where
  counts := fun _ => rfl
  fresh := fun _ _ => rfl
  owned := fun _ _ => nofun
  apart := fun _ _ _ _ _ => nofun

theorem Kept.step {call : Call} (kept : Kept n s) (allowed : Allowed s call)
    (step : Step n pagesize s call after) : Kept n after ∧ Effect n s call after := by
  cases step with
  | create runs created fresh => exact ⟨kept.create allowed created fresh, trivial⟩
  | destroy destroyed => exact ⟨kept.destroy destroyed, trivial⟩
  | setShepof below done =>
    exact ⟨kept.setShepof below allowed done, effect_setShepof kept below allowed done⟩
  | distLike done => exact kept.distLike done

/-- `qarray` segment accounting: in a run that makes no array on one shepherd and sets no shepherd
behind the last segment of a `DIST` array, the tracker counts the segments in every state, and
every call changes the shepherds it is to change. -/
theorem accounting {memory : Nat → Nat} {calls : List Call}
    (run : Run (Guarded Allowed (Step n pagesize)) (.start memory) calls s) :
    Exact n s ∧ ∀ call after, Allowed s call → Step n pagesize s call after →
      Exact n after ∧ Effect n s call after := by
  have kept : Kept n s := run.preserves (fun before call after kept step =>
    (kept.step step.1 step.2).1) (.start n memory)
  refine ⟨kept.exact, fun call after allowed step => ?_⟩
  obtain ⟨next, effect⟩ := kept.step allowed step
  exact ⟨next.exact, effect⟩

/-- Two arrays of two segments: the first segment of the second array is moved to shepherd 1, and the
first array is destroyed. -/
theorem accounting_destroys : ∃ s : State, s.arrays 0 = none ∧ s.tracker 0 = 0 ∧ s.tracker 1 = 2 ∧
    Exact 2 s ∧ ∀ call after, Allowed s call → Step 2 4096 s call after →
      Exact 2 after ∧ Effect 2 s call after := by
  have apart {handle : Nat} {first second a b : Record} (found : update
      (fun _ => none) 0 (some first) handle = some a) (made : some second = some b)
      (disjoint : Disjoint first second) : Disjoint a b := by
    cases handle with
    | zero =>
      cases found
      cases made
      exact disjoint
    | succ handle => cases found
  have run : Run (Guarded Allowed (Step 2 4096)) (.start fun _ => 0)
      [.create ⟨0, fun _ => 0, 0⟩ ⟨10000, 8, .fixedHash, false, 0⟩,
        .create ⟨0, fun _ => 0, 2 ^ 20⟩ ⟨10000, 8, .distStripes, false, 0⟩, .setShepof 1 0 1,
        .destroy 0] _ :=
    .cons ⟨nofun, .create (by decide) rfl fun _ _ _ => nofun⟩
      (.cons ⟨nofun, .create (by decide) rfl fun _ _ _ found made =>
        apart found made (.inl (by decide))⟩
        (.cons ⟨fun _ found _ last => absurd (last.trans (congrArg Record.count
          (Option.some.inj found)).symm) (by decide), .setShepof (by decide) rfl⟩
          (.cons ⟨trivial, .destroy rfl⟩ (.nil _))))
  exact ⟨_, rfl, rfl, rfl, accounting run⟩

/-- An array on one shepherd is counted twice. -/
theorem counted_twice : ¬∀ calls s, Run (Step 1 4096) (.start fun _ => 0) calls s → Exact 1 s := by
  intro exact
  have run : Run (Step 1 4096) (.start fun _ => 0)
      [.create ⟨0, fun _ => 0, 0⟩ ⟨1, 8, .allSame, false, 0⟩] _ :=
    .cons (.create (by decide) rfl fun _ _ _ => nofun) (.nil _)
  have counts := (exact _ _ run).counts 0
  revert counts
  decide

end Qthreads.Segments
