import Qthreads.Loop.Join
import Qthreads.Loop.Reduce

namespace Qthreads.Loop.Loopaccum

open Qthreads.Lib
open Function (update update_of_ne update_self)

/-! All of them are `qt_loopaccum_balance_inner` with some kind of synchronization.  A worker writes what
`func` returns to its place, the first one to `out` itself, and then signals its end. -/

inductive Api where
  | balance
  | sv
  | sinc
  | dc
deriving DecidableEq

/-- The `sync_type` that a function passes. -/
def Api.syncType : Api → SyncType
  | .balance | .sv => .syncvarT
  | .sinc => .sincT
  | .dc => .donecount

variable {α : Type}

structure Call (α : Type) where
  start : Nat
  stop : Nat
  size : Nat
  func : Nat → Nat → α
  acc : α → α → α
  /-- `qt_sinc_init` asserts that a value has a size. -/
  sized : 0 < size

/-- What a call allocates and releases: arrays with their numbers of entries or bytes, the sinc, or
what lies at a number that is taken for an address. -/
inductive Memory where
  | qwa (entries : Nat)
  | realrets (bytes : Nat)
  | syncvars (entries : Nat)
  | sinc
  | address (value : Nat)

namespace Call

variable (call : Call α)

def qwa (workers : UInt16) : Option (List QloopWrapperArgs) :=
  if workers.toNat = 0 then none
  else
    let each := (call.stop - call.start) / workers.toNat
    some (fillQwa each workers.toNat workers.toNat 0 call.start
      ((call.stop - call.start) - each * workers.toNat))

/-- What `func` returns for the ranges of the workers. -/
def results (qwa : List QloopWrapperArgs) : List α :=
  qwa.map fun arg => call.func arg.startat arg.stopat

/-- The memory of `sync.syncvar` or `sync.sinc`, `realrets` and `qwa`. -/
def allocated (type : SyncType) (maxworkers : Nat) : List Memory :=
  (match type with
    | .syncvarT => [.syncvars maxworkers]
    | .sincT => [.sinc]
    | _ => []) ++
  (if maxworkers > 1 then [.realrets (call.size * (maxworkers - 1))] else []) ++ [.qwa maxworkers]

/-- What is freed at the end.  The done count is in the union that `sync.aligned` is read from. -/
def freed (type : SyncType) (maxworkers dc : Nat) : List Memory :=
  (match type with
    | .syncvarT => [.syncvars maxworkers]
    | .sincT => [.sinc]
    | .donecount => [.address dc]
    | .aligned => []) ++
  (if maxworkers > 1 then [.realrets (call.size * (maxworkers - 1))] else []) ++ [.qwa maxworkers]

end Call

structure State (α : Type) where
  tree : Tree
  /-- `*qwa[i].ret`, for 0 the word at `out` -/
  rets : Nat → Option α
  /-- the workers that have called `func` and not signalled yet -/
  returning : List Nat
  full : Nat → Bool
  /-- `rdata->values`, a value for each worker of the library -/
  values : Nat → α
  counter : Nat
  /-- `rdata->result`, once `ready` is full -/
  result : Option α
  dc : Nat
  /-- how often the loop behind the spawn went round -/
  waited : Nat
  /-- what was freed, once the call has returned -/
  released : Option (List Memory)

namespace State

/-- `qt_sinc_internal_collate`, with `slots` workers in the library. -/
def collate (slots : Nat) (acc : α → α → α) (initial : α) (values : Nat → α) : α :=
  (List.range slots).foldl (fun result worker => acc result (values worker)) initial

/-- `qt_sinc_submit` by a task that is on the worker `worker` -/
def submit (slots : Nat) (acc : α → α → α) (initial : α) (s : State α) (worker : Nat) (value : α) :
    State α :=
  let values := update s.values worker (acc (s.values worker) value)
  { s with
    values
    counter := s.counter - 1
    result := if s.counter = 1 then some (collate slots acc initial values) else s.result }

def signal (type : SyncType) (slots : Nat) (acc : α → α → α) (initial : α) (s : State α)
    (id worker : Nat) : State α :=
  match type with
  | .syncvarT => { s with full := update s.full id true }
  | .sincT =>
    match s.rets id with
    | some value => s.submit slots acc initial worker value
    | none => s
  | .donecount => { s with dc := s.dc + 1 }
  | .aligned => s

section

variable (type : SyncType) (slots : Nat) (acc : α → α → α) (initial : α) (s : State α)
  (id worker : Nat)

theorem signal_kept : (s.signal type slots acc initial id worker).tree = s.tree ∧
    (s.signal type slots acc initial id worker).rets = s.rets ∧
    (s.signal type slots acc initial id worker).waited = s.waited ∧
    (s.signal type slots acc initial id worker).released = s.released := by
  cases type with
  | sincT =>
    cases value : s.rets id with
    | none => simp only [signal, value, and_self]
    | some ret => simp only [signal, value, submit, and_self]
  | syncvarT | donecount | aligned => exact ⟨rfl, rfl, rfl, rfl⟩

end

def rounds (type : SyncType) (maxworkers : Nat) : Nat :=
  match type with
  | .sincT => 1
  | _ => maxworkers

def Passes (type : SyncType) (maxworkers : Nat) (s : State α) : Prop :=
  match type with
  | .syncvarT => s.full s.waited = true
  | .sincT => s.result.isSome
  | .donecount => s.dc = maxworkers
  | .aligned => False

/-- What it writes to `out`: the result of the sinc, or the sum with one more worker's. -/
def joined (type : SyncType) (acc : α → α → α) (s : State α) : Option α :=
  match type with
  | .sincT => s.result
  | _ => if 0 < s.waited then Loop.acc acc (s.rets 0) (s.rets s.waited) else s.rets 0

def start (qwa : List QloopWrapperArgs) (out : α) : State α where
  tree := Tree.start qwa
  rets := fun i => if i = 0 then some out else none
  returning := []
  full := fun _ => false
  values := fun _ => out
  counter := qwa.length
  result := none
  dc := 0
  waited := 0
  released := none

end State

inductive Move where
  | wrapper (myId : Nat)
  | apply (myId : Nat)
  | signal (myId worker : Nat)
  | join
  | release

/-- A step of a worker or of the caller; the sinc was created with what `out` held. -/
inductive Step (call : Call α) (type : SyncType) (slots : Nat) (qwa : List QloopWrapperArgs) (initial : α)
    (s : State α) : Move → State α → Prop where
  | wrapper {myId : Nat} {tree : Tree} : TreeStep qwa s.tree myId tree →
      tree.applied = s.tree.applied → Step call type slots qwa initial s (.wrapper myId) { s with tree }
  | apply {myId : Nat} {tree : Tree} {arg : QloopWrapperArgs} : TreeStep qwa s.tree myId tree →
      tree.applied = s.tree.applied ++ [myId] → qwa[myId]? = some arg →
      Step call type slots qwa initial s (.apply myId) { s with
        tree
        rets := update s.rets myId (some (call.func arg.startat arg.stopat))
        returning := s.returning ++ [myId] }
  | signal {myId worker : Nat} : myId ∈ s.returning → worker < slots →
      Step call type slots qwa initial s (.signal myId worker)
        { s.signal type slots call.acc initial myId worker with
          returning := s.returning.erase myId }
  | join : s.waited < State.rounds type qwa.length → s.Passes type qwa.length →
      Step call type slots qwa initial s .join { s with
        rets := update s.rets 0 (s.joined type call.acc)
        waited := s.waited + 1 }
  | release : s.waited = State.rounds type qwa.length → s.released = none →
      Step call type slots qwa initial s .release
        { s with released := some (call.freed type qwa.length s.dc) }

def combined (acc : α → α → α) : List α → Option α
  | [] => none
  | first :: rest => some (rest.foldl acc first)

theorem combined_snoc (acc : α → α → α) {list : List α} (nonempty : list ≠ []) (last : α) :
    combined acc (list ++ [last]) = Loop.acc acc (combined acc list) (some last) := by
  cases list with
  | nil => exact absurd rfl nonempty
  | cons first rest =>
    rw [List.cons_append, combined, List.foldl_append]
    rfl

theorem foldl_combined (acc : α → α → α) [Std.Associative acc] [Std.Commutative acc]
    {list values : List α} {total : α} (perm : values.Perm list)
    (whole : combined acc list = some total) (initial : α) :
    values.foldl acc initial = acc initial total := by
  have swap : RightCommutative acc := ⟨fun a b c => by
    have associative : ∀ x y z, acc (acc x y) z = acc x (acc y z) := Std.Associative.assoc
    have commutative : acc b c = acc c b := Std.Commutative.comm b c
    rw [associative, commutative, ← associative]⟩
  rw [perm.foldl_eq]
  cases list with
  | nil => cases whole
  | cons first rest =>
    cases whole
    rw [List.foldl_cons, List.foldl_assoc]

theorem collate_congr {slots : Nat} {acc : α → α → α} {initial : α} {values other : Nat → α}
    (same : ∀ worker < slots, other worker = values worker) :
    State.collate slots acc initial other = State.collate slots acc initial values :=
  List.foldl_ext _ _ _ fun result worker member => by rw [same worker (List.mem_range.mp member)]

theorem collate_submit {acc : α → α → α} [Std.Associative acc] [Std.Commutative acc]
    {slots worker : Nat} (inside : worker < slots) (initial value : α) (values : Nat → α) :
    State.collate slots acc initial (update values worker (acc (values worker) value)) =
      acc (State.collate slots acc initial values) value := by
  have associative : ∀ x y z, acc (acc x y) z = acc x (acc y z) := Std.Associative.assoc
  induction slots with
  | zero => cases inside
  | succ slots ih =>
    simp only [State.collate, List.range_succ, List.foldl_append, List.foldl_cons, List.foldl_nil]
    by_cases last : worker = slots
    · have before : State.collate slots acc initial
          (update values worker (acc (values worker) value)) =
            State.collate slots acc initial values :=
        collate_congr fun other less => update_of_ne (by omega) _ _
      rw [State.collate, State.collate] at before
      rw [before, last, update_self, ← associative]
    · have before := ih (by omega)
      rw [State.collate, State.collate] at before
      have commutative : acc value (values slots) = acc (values slots) value :=
        Std.Commutative.comm _ _
      rw [before, update_of_ne (Ne.symm last), associative, commutative, ← associative]

/-- The initial value is in the result once for each worker of the library, and once more. -/
theorem collate_initial {acc : α → α → α} [Std.Associative acc] [Std.Commutative acc] (slots : Nat)
    (initial total : α) :
    acc (State.collate slots acc initial fun _ => initial) total =
      (acc initial)^[slots + 1] total := by
  have associative : ∀ x y z, acc (acc x y) z = acc x (acc y z) := Std.Associative.assoc
  induction slots with
  | zero => rfl
  | succ slots ih =>
    have commutative : ∀ x, acc x initial = acc initial x := fun x => Std.Commutative.comm x initial
    rw [Function.iterate_succ_apply', ← ih, State.collate, List.range_succ, List.foldl_append,
      List.foldl_cons, List.foldl_nil, commutative, associative]
    rfl

theorem applied_once {threads : Nat} {tree : Tree} (inv : TreeInv threads tree) :
    tree.applied.Nodup ∧ ∀ i ∈ tree.applied, i < threads := by
  have once : tree.launched.Nodup := by
    refine List.nodup_iff_count_le_one.mpr fun j => ?_
    have counted := inv.once j
    split at counted <;> omega
  constructor
  · exact (List.nodup_append.mp (inv.running.nodup_iff.mp once)).1
  · intro i member
    have launched := inv.running.mem_iff.mpr (List.mem_append_left _ member)
    have counted := inv.once i
    have positive := List.count_pos_iff.mpr launched
    by_contra above
    rw [if_neg above] at counted
    omega

structure Submitted (acc : α → α → α) (slots threads : Nat) (initial : α) (counter : Nat)
    (values : Nat → α) (result : Option α) (submitted : List α) : Prop where
  counted : counter + submitted.length = threads
  folded : State.collate slots acc initial values =
    submitted.foldl acc (State.collate slots acc initial fun _ => initial)
  collated : result = if counter = 0 then some (State.collate slots acc initial values) else none

theorem Submitted.ready_iff {acc : α → α → α} {slots threads counter : Nat} {initial : α}
    {values : Nat → α} {result : Option α} {submitted : List α}
    (submits : Submitted acc slots threads initial counter values result submitted) :
    result.isSome ↔ submitted.length = threads := by
  have counted := submits.counted
  rw [submits.collated]
  by_cases ended : counter = 0
  · rw [if_pos ended]
    exact iff_of_true rfl (by omega)
  · rw [if_neg ended]
    exact iff_of_false nofun (by omega)

def Signalled (type : SyncType) (acc : α → α → α) (slots threads : Nat) (initial : α)
    (results : List α) (s : State α) (ended : List Nat) : Prop :=
  match type with
  | .syncvarT => ∀ i, s.full i = true ↔ i ∈ ended
  | .sincT => ∃ submitted, (submitted.map some).Perm (ended.map fun i => results[i]?) ∧
      Submitted acc slots threads initial s.counter s.values s.result submitted
  | .donecount => s.dc = ended.length
  | .aligned => True

def Known (type : SyncType) (threads waited : Nat) (ended : List Nat) : Prop :=
  match type with
  | .syncvarT => ∀ i < waited, i ∈ ended
  | _ => 0 < waited → ended.length = threads

def outcome (type : SyncType) (acc : α → α → α) (results : List α) (s : State α) : Option α :=
  match type with
  | .sincT => s.result
  | _ => combined acc (results.take s.waited)

structure Inv (call : Call α) (type : SyncType) (slots : Nat) (qwa : List QloopWrapperArgs) (initial : α)
    (s : State α) : Prop where
  tree : TreeInv qwa.length s.tree
  ended : ∃ ended, s.tree.applied.Perm (s.returning ++ ended) ∧
    Signalled type call.acc slots qwa.length initial (call.results qwa) s ended ∧
    Known type qwa.length s.waited ended
  rets : ∀ i ∈ s.tree.applied, 0 < i ∨ s.waited = 0 → s.rets i = (call.results qwa)[i]?
  out : 0 < s.waited → s.rets 0 = outcome type call.acc (call.results qwa) s
  waited : s.waited ≤ State.rounds type qwa.length
  released : ∀ released, s.released = some released →
    s.waited = State.rounds type qwa.length ∧ released = call.freed type qwa.length s.dc

section Steps

variable {call : Call α} {type : SyncType} {qwa : List QloopWrapperArgs} {initial : α}
  {s after : State α} {returning ended : List Nat} {threads slots : Nat}

theorem all_ended {applied : List Nat} (once : applied.Nodup) (below : ∀ i ∈ applied, i < threads)
    (parts : applied.Perm (returning ++ ended)) (all : ended.length = threads) :
    returning = [] ∧ ∀ i < threads, i ∈ ended := by
  have whole := parts.nodup_iff.mp once
  have inside : returning ++ ended ⊆ List.range threads := fun i member =>
    List.mem_range.mpr (below i (parts.mem_iff.mpr member))
  have short := (whole.subperm inside).length_le
  rw [List.length_append, List.length_range] at short
  refine ⟨List.length_eq_zero_iff.mp (by omega), ?_⟩
  intro i small
  have sub : ended ⊆ List.range threads := fun j member => inside (List.mem_append_right _ member)
  have perm := ((List.nodup_append.mp whole).2.1.subperm sub).perm_of_length_le
    (by rw [List.length_range, all])
  exact perm.mem_iff.mpr (List.mem_range.mpr small)

section

variable (inv : Inv call type slots qwa initial s)
include inv

theorem Inv.first (positive : 0 < qwa.length) (waited : 0 < s.waited) : 0 ∈ s.tree.applied := by
  obtain ⟨ended, parts, -, known⟩ := inv.ended
  obtain ⟨once, below⟩ := applied_once inv.tree
  refine parts.mem_iff.mpr (List.mem_append_right _ ?_)
  cases type with
  | syncvarT => exact known 0 waited
  | sincT | donecount | aligned => exact (all_ended once below parts (known waited)).2 0 positive

theorem Inv.apply (positive : 0 < qwa.length) {myId : Nat}
    {tree : Tree} {arg : QloopWrapperArgs} (next : TreeInv qwa.length tree)
    (applied : tree.applied = s.tree.applied ++ [myId]) (found : qwa[myId]? = some arg) :
    Inv call type slots qwa initial { s with
      tree
      rets := update s.rets myId (some (call.func arg.startat arg.stopat))
      returning := s.returning ++ [myId] } := by
  obtain ⟨ended, parts, signalled, known⟩ := inv.ended
  have fresh : myId ∉ s.tree.applied := by
    have once := (applied_once next).1
    rw [applied] at once
    exact fun old => (List.nodup_append.mp once).2.2 myId old myId (List.mem_singleton_self _) rfl
  refine ⟨next, ⟨ended, ?_, ?_, known⟩, ?_, ?_, inv.waited, inv.released⟩
  · simp only [applied, List.append_assoc]
    refine (parts.append_right [myId]).trans ?_
    rw [List.append_assoc]
    exact List.Perm.append_left _ List.perm_append_comm
  · cases type <;> exact signalled
  · intro i member early
    simp only [applied, List.mem_append, List.mem_singleton] at member
    by_cases same : i = myId
    · simp only [same, update_self, Call.results, List.getElem?_map, found, Option.map_some]
    · simp only [update_of_ne same]
      exact inv.rets i (member.resolve_right same) early
  · intro waited
    have other : 0 ≠ myId := by
      rintro rfl
      exact fresh (inv.first positive waited)
    simp only [update_of_ne other]
    have out := inv.out waited
    cases type <;> exact out

theorem Inv.signal [Std.Associative call.acc] [Std.Commutative call.acc] {myId worker : Nat}
    (member : myId ∈ s.returning) (placed : worker < slots) :
    Inv call type slots qwa initial { s.signal type slots call.acc initial myId worker with
      returning := s.returning.erase myId } := by
  obtain ⟨ended, parts, signalled, known⟩ := inv.ended
  obtain ⟨once, below⟩ := applied_once inv.tree
  have here : myId ∈ s.tree.applied := parts.mem_iff.mpr (List.mem_append_left _ member)
  have parts' : s.tree.applied.Perm (s.returning.erase myId ++ (ended ++ [myId])) := by
    refine parts.trans (((List.perm_cons_erase member).append_right ended).trans ?_)
    rw [List.cons_append, ← List.append_assoc]
    exact (List.perm_append_singleton _ _).symm
  have running : ended.length ≠ qwa.length := by
    intro all
    rw [(all_ended once below parts all).1] at member
    cases member
  cases type with
  | syncvarT =>
    refine ⟨inv.tree, ⟨ended ++ [myId], parts', ?_, ?_⟩, inv.rets, inv.out, inv.waited, inv.released⟩
    · intro i
      simp only [State.signal, List.mem_append, List.mem_singleton]
      by_cases same : i = myId
      · rw [same, update_self]
        exact iff_of_true rfl (.inr rfl)
      · rw [update_of_ne same, signalled i]
        exact ⟨.inl, fun either => either.resolve_right same⟩
    · intro i small
      exact List.mem_append_left _ (known i small)
  | sincT =>
    have early : s.waited = 0 := by
      by_contra late
      exact running (known (Nat.pos_of_ne_zero late))
    obtain ⟨submitted, perm, counter, values, result⟩ := signalled
    have value := inv.rets myId here (.inr early)
    have inside : myId < (call.results qwa).length := by
      rw [Call.results, List.length_map]
      exact below myId here
    rw [List.getElem?_eq_getElem inside] at value
    have size := perm.length_eq
    rw [List.length_map, List.length_map] at size
    have positive : 0 < s.counter := by omega
    simp only [State.signal, value]
    refine ⟨inv.tree, ⟨ended ++ [myId], parts', ⟨submitted ++ [(call.results qwa)[myId]], ?_, ?_,
      ?_, ?_⟩, ?_⟩, inv.rets, ?_, inv.waited, inv.released⟩
    · simp only [List.map_append, List.map_cons, List.map_nil, List.getElem?_eq_getElem inside]
      exact List.Perm.append_right _ perm
    · simp only [State.submit, List.length_append, List.length_singleton]
      omega
    · simp only [State.submit, List.foldl_append, List.foldl_cons, List.foldl_nil, ← values]
      exact collate_submit placed ..
    · simp only [State.submit, result, if_neg (Nat.ne_of_gt positive)]
      by_cases last : s.counter = 1
      · rw [if_pos last, if_pos (by omega)]
      · rw [if_neg last, if_neg (by omega)]
    · intro late
      exact absurd early (Nat.ne_of_gt late)
    · intro late
      exact absurd early (Nat.ne_of_gt late)
  | donecount =>
    have early : s.waited = 0 := by
      by_contra late
      exact running (known (Nat.pos_of_ne_zero late))
    refine ⟨inv.tree, ⟨ended ++ [myId], parts', ?_, ?_⟩, inv.rets, ?_, inv.waited, ?_⟩
    · simp only [Signalled, State.signal, List.length_append, List.length_singleton]
      exact congrArg (· + 1) signalled
    · intro late
      exact absurd early (Nat.ne_of_gt late)
    · intro late
      exact absurd early (Nat.ne_of_gt late)
    · intro released gone
      have whole := (inv.released released gone).1
      rw [early] at whole
      have zero : qwa.length = 0 := whole.symm
      exact absurd (below myId here) (by omega)
  | aligned =>
    refine ⟨inv.tree, ⟨ended ++ [myId], parts', trivial, ?_⟩, inv.rets, inv.out, inv.waited,
      inv.released⟩
    intro late
    exact absurd (known late) running

theorem Inv.round (less : s.waited < qwa.length) (ended : s.waited ∈ s.tree.applied)
    (before : 0 < s.waited → s.rets 0 = combined call.acc ((call.results qwa).take s.waited)) :
    (if 0 < s.waited then Loop.acc call.acc (s.rets 0) (s.rets s.waited) else s.rets 0) =
      combined call.acc ((call.results qwa).take (s.waited + 1)) := by
  have inside : s.waited < (call.results qwa).length := by
    rw [Call.results, List.length_map]
    exact less
  rw [List.take_succ_eq_append_getElem inside]
  by_cases later : 0 < s.waited
  · have nonempty : (call.results qwa).take s.waited ≠ [] := by
      intro empty
      have size := congrArg List.length empty
      rw [List.length_take, List.length_nil] at size
      omega
    rw [if_pos later, before later, inv.rets _ ended (.inl later), List.getElem?_eq_getElem inside,
      combined_snoc call.acc nonempty]
  · have first : s.waited = 0 := by omega
    simp only [first] at ended inside ⊢
    rw [if_neg (Nat.lt_irrefl 0), inv.rets 0 ended (.inr first), List.getElem?_eq_getElem inside]
    rfl

theorem Inv.join
    (less : s.waited < State.rounds type qwa.length) (passes : s.Passes type qwa.length) :
    Inv call type slots qwa initial { s with
      rets := update s.rets 0 (s.joined type call.acc)
      waited := s.waited + 1 } := by
  obtain ⟨ended, parts, signalled, known⟩ := inv.ended
  obtain ⟨once, below⟩ := applied_once inv.tree
  have rets : ∀ i ∈ s.tree.applied, 0 < i ∨ s.waited + 1 = 0 →
      update s.rets 0 (s.joined type call.acc) i = (call.results qwa)[i]? := by
    intro i member late
    have positive : 0 < i := late.resolve_right (Nat.succ_ne_zero _)
    rw [update_of_ne (Nat.ne_of_gt positive)]
    exact inv.rets i member (.inl positive)
  have running : ∀ released, s.released ≠ some released := by
    intro released gone
    have whole := (inv.released released gone).1
    omega
  cases type with
  | syncvarT =>
    have here : s.waited ∈ ended := (signalled _).mp passes
    refine ⟨inv.tree, ⟨ended, parts, signalled, ?_⟩, rets, ?_, less,
      fun released gone => absurd gone (running released)⟩
    · intro i small
      rcases Nat.lt_succ_iff_lt_or_eq.mp small with early | rfl
      · exact known i early
      · exact here
    · intro _
      simp only [update_self, State.joined, outcome]
      exact inv.round less (parts.mem_iff.mpr (List.mem_append_right _ here)) inv.out
  | donecount =>
    have all : ended.length = qwa.length := signalled.symm.trans passes
    have here := (all_ended once below parts all).2 s.waited less
    refine ⟨inv.tree, ⟨ended, parts, signalled, fun _ => all⟩, rets, ?_, less,
      fun released gone => absurd gone (running released)⟩
    intro _
    simp only [update_self, State.joined, outcome]
    exact inv.round less (parts.mem_iff.mpr (List.mem_append_right _ here)) inv.out
  | sincT =>
    have all : ended.length = qwa.length := by
      obtain ⟨submitted, perm, submits⟩ := signalled
      have size := perm.length_eq
      rw [List.length_map, List.length_map] at size
      exact size.symm.trans (submits.ready_iff.mp passes)
    refine ⟨inv.tree, ⟨ended, parts, signalled, fun _ => all⟩, rets, ?_, less,
      fun released gone => absurd gone (running released)⟩
    intro _
    simp only [update_self, State.joined, outcome]
  | aligned => cases passes

end

structure Shaped (qwa : List QloopWrapperArgs) : Prop where
  positive : 0 < qwa.length
  spawnthreads : ∀ (i : Nat) (arg : QloopWrapperArgs), qwa[i]? = some arg →
    arg.spawnthreads = qwa.length
  level : ∀ arg ∈ qwa, arg.level = 0

theorem Shaped.level_zero (shaped : Shaped qwa) : (Tree.start qwa).level 0 = 0 := by
  cases found : qwa[0]? with
  | none => simp [Tree.start, found]
  | some arg => simp [Tree.start, found, shaped.level arg (List.mem_of_getElem? found)]

theorem Inv.start (call : Call α) (type : SyncType) (shaped : Shaped qwa) (out : α) :
    Inv call type slots qwa out (State.start qwa out) := by
  refine ⟨TreeInv.start shaped.positive shaped.level_zero, ⟨[], List.Perm.refl _, ?_, ?_⟩, nofun,
    nofun, Nat.zero_le _, nofun⟩
  · cases type with
    | syncvarT =>
      intro i
      exact iff_of_false nofun nofun
    | sincT => exact ⟨[], List.Perm.refl _, rfl, rfl, (if_neg (Nat.ne_of_gt shaped.positive)).symm⟩
    | donecount => rfl
    | aligned => trivial
  · cases type <;> exact nofun

theorem Inv.step [Std.Associative call.acc] [Std.Commutative call.acc]
    (inv : Inv call type slots qwa initial s) (shaped : Shaped qwa) {move : Move}
    (step : Step call type slots qwa initial s move after) : Inv call type slots qwa initial after := by
  cases step with
  | wrapper taken applied =>
    refine ⟨inv.tree.step shaped.spawnthreads taken, ?_, ?_, ?_, inv.waited, inv.released⟩
    · obtain ⟨ended, parts, signalled, known⟩ := inv.ended
      refine ⟨ended, ?_, ?_, known⟩
      · simp only [applied]
        exact parts
      · cases type <;> exact signalled
    · simp only [applied]
      exact inv.rets
    · intro waited
      have out := inv.out waited
      cases type <;> exact out
  | apply taken applied found =>
    exact inv.apply shaped.positive (inv.tree.step shaped.spawnthreads taken) applied found
  | signal member placed => exact inv.signal member placed
  | join less passes => exact inv.join less passes
  | release whole running =>
    refine ⟨inv.tree, ?_, inv.rets, ?_, inv.waited, ?_⟩
    · obtain ⟨ended, parts, signalled, known⟩ := inv.ended
      refine ⟨ended, parts, ?_, known⟩
      cases type <;> exact signalled
    · intro waited
      have out := inv.out waited
      cases type <;> exact out
    · intro released gone
      cases gone
      exact ⟨whole, rfl⟩

def State.left (type : SyncType) (threads : Nat) (s : State α) : Nat :=
  2 * s.tree.work threads + s.returning.length + (State.rounds type threads - s.waited) +
    if s.released.isSome then 0 else 1

section

variable (inv : Inv call type slots qwa initial s)
include inv

theorem Inv.left_step (shaped : Shaped qwa) {move : Move}
    (step : Step call type slots qwa initial s move after) :
    after.left type qwa.length < s.left type qwa.length := by
  cases step with
  | wrapper taken applied =>
    have unit := inv.tree.work_step shaped.spawnthreads taken
    simp only [State.left]
    omega
  | apply taken applied found =>
    have unit := inv.tree.work_step shaped.spawnthreads taken
    simp only [State.left, List.length_append, List.length_singleton]
    omega
  | @signal myId worker member placed =>
    have fewer := List.length_erase_of_mem member
    have positive := List.length_pos_of_mem member
    obtain ⟨tree, -, waited, released⟩ := State.signal_kept type slots call.acc initial s myId worker
    simp only [State.left, tree, waited, released, fewer]
    omega
  | join less passes =>
    simp only [State.left]
    omega
  | release whole running =>
    simp only [State.left, running, Option.isSome_none, Option.isSome_some, Bool.false_eq_true,
      if_false, if_true]
    omega

theorem Inv.progress (slotted : 0 < slots) (kind : type ≠ .aligned) (running : s.released = none) :
    ∃ move after, Step call type slots qwa initial s move after := by
  by_cases tasks : s.tree.tasks = []
  · cases returning : s.returning with
    | cons myId rest =>
      have member : myId ∈ s.returning := by
        rw [returning]
        exact List.mem_cons_self
      exact ⟨_, _, .signal member slotted⟩
    | nil =>
      obtain ⟨ended, parts, signalled, known⟩ := inv.ended
      rw [returning, List.nil_append] at parts
      have complete := (inv.tree.complete tasks).2
      have all : ended.length = qwa.length := by
        rw [← parts.length_eq, complete.length_eq, List.length_range]
      by_cases less : s.waited < State.rounds type qwa.length
      · refine ⟨_, _, .join less ?_⟩
        cases type with
        | syncvarT =>
          refine (signalled _).mpr (parts.mem_iff.mp (complete.mem_iff.mpr ?_))
          exact List.mem_range.mpr less
        | donecount => exact signalled.trans all
        | sincT =>
          obtain ⟨submitted, perm, submits⟩ := signalled
          have size := perm.length_eq
          rw [List.length_map, List.length_map] at size
          exact submits.ready_iff.mpr (size.trans all)
        | aligned => exact absurd rfl kind
      · have waited := inv.waited
        exact ⟨_, _, .release (by omega) running⟩
  · obtain ⟨myId, tree, taken⟩ := Tree.progress tasks (by
      intro task member
      exact ⟨_, List.getElem?_eq_getElem (inv.tree.myId_lt member)⟩)
    have args : ∀ {myId : Nat} {tree : Tree}, TreeStep qwa s.tree myId tree →
        ∃ move after, Step call type slots qwa initial s move after := by
      intro myId tree taken
      cases taken with
      | enter tasks => exact ⟨_, _, .wrapper (.enter tasks) rfl⟩
      | spawn tasks found room => exact ⟨_, _, .wrapper (.spawn tasks found room) rfl⟩
      | finish tasks found full => exact ⟨_, _, .apply (.finish tasks found full) rfl found⟩
    exact args taken

theorem Inv.returns [Std.Associative call.acc] [Std.Commutative call.acc] (slotted : 0 < slots)
    (shaped : Shaped qwa) (kind : type ≠ .aligned) : ∃ moves last released,
      Run (Step call type slots qwa initial) s moves last ∧ last.released = some released := by
  induction left : s.left type qwa.length using Nat.strongRecOn generalizing s with
  | ind left ih =>
    cases gone : s.released with
    | some released => exact ⟨[], s, released, .nil s, gone⟩
    | none =>
      obtain ⟨move, next, taken⟩ := inv.progress slotted kind gone
      have less := inv.left_step shaped taken
      obtain ⟨moves, last, released, run, gone⟩ := ih _ (by omega) (inv.step shaped taken) rfl
      exact ⟨move :: moves, last, released, .cons taken run, gone⟩

theorem Inv.run [Std.Associative call.acc] [Std.Commutative call.acc] (shaped : Shaped qwa)
    {moves : List Move}
    (run : Run (Step call type slots qwa initial) s moves after) :
    Inv call type slots qwa initial after ∧
      moves.length + after.left type qwa.length ≤ s.left type qwa.length := by
  induction run with
  | nil => exact ⟨inv, by rw [List.length_nil, Nat.zero_add]⟩
  | cons taken _ ih =>
    obtain ⟨final, spent⟩ := ih (inv.step shaped taken)
    have less := inv.left_step shaped taken
    refine ⟨final, ?_⟩
    rw [List.length_cons]
    omega

end

end Steps

section Calls

variable {call : Call α} {workers : UInt16}

theorem Call.qwa_shaped (ordered : call.start ≤ call.stop) (nonzero : workers ≠ 0) :
    ∃ qwa, call.qwa workers = some qwa ∧ qwa.length = workers.toNat ∧ Shaped qwa ∧
      Laid call.start qwa call.stop := by
  have positive : 0 < workers.toNat :=
    Nat.pos_of_ne_zero fun zero => nonzero (UInt16.toNat_inj.mp zero)
  have parts := Nat.div_add_mod (call.stop - call.start) workers.toNat
  have rest := Nat.mod_lt (call.stop - call.start) positive
  have extra : call.stop - call.start - (call.stop - call.start) / workers.toNat * workers.toNat =
      (call.stop - call.start) % workers.toNat := by
    rw [Nat.mul_comm]
    omega
  refine ⟨_, if_neg (Nat.ne_of_gt positive), fillQwa_length, ⟨?_, ?_, ?_⟩, ?_⟩
  · rw [fillQwa_length]
    exact positive
  · intro i arg found
    rw [fillQwa_length]
    exact (fillQwa_size (List.mem_of_getElem? found)).1
  · intro arg member
    exact (fillQwa_size member).2.1
  · have laid : Laid call.start (fillQwa ((call.stop - call.start) / workers.toNat) workers.toNat
        workers.toNat 0 call.start
        (call.stop - call.start - (call.stop - call.start) / workers.toNat * workers.toNat))
        (call.start + (workers.toNat * ((call.stop - call.start) / workers.toNat) +
          (call.stop - call.start - (call.stop - call.start) / workers.toNat * workers.toNat))) :=
      fillQwa_laid 0 call.start (by omega)
    have whole : call.start + (workers.toNat * ((call.stop - call.start) / workers.toNat) +
        (call.stop - call.start - (call.stop - call.start) / workers.toNat * workers.toNat)) =
          call.stop := by
      omega
    rw [whole] at laid
    exact laid

variable {qwa : List QloopWrapperArgs}

theorem start_left (shaped : Shaped qwa) (type : SyncType) (out : α) :
    (State.start qwa out).left type qwa.length ≤ 7 * qwa.length := by
  have whole := (descendants_root shaped.positive).length_eq
  have level : (qwa[0]?.map QloopWrapperArgs.level).getD 0 = 0 := shaped.level_zero
  have rounds : State.rounds type qwa.length ≤ qwa.length := by
    have positive := shaped.positive
    cases type <;> simp only [State.rounds] <;> omega
  rw [List.length_cons, List.length_range] at whole
  simp only [State.left, State.start, Tree.work, Tree.start, Wrapper.work, Wrapper.future,
    Wrapper.next, Wrapper.myId, level, List.map_cons, List.map_nil, List.sum_cons, List.sum_nil,
    List.length_nil, Option.isSome_none, Bool.false_eq_true, if_false]
  omega

theorem Inv.value [Std.Associative call.acc] [Std.Commutative call.acc] {api : Api} {out total : α}
    {s : State α} {slots : Nat} (inv : Inv call api.syncType slots qwa out s)
    (positive : 0 < qwa.length) (waited : s.waited = State.rounds api.syncType qwa.length)
    (whole : combined call.acc (call.results qwa) = some total) :
    s.rets 0 = some (if api = .sinc then (call.acc out)^[slots + 1] total else total) := by
  have size : (call.results qwa).length = qwa.length := List.length_map ..
  have late : 0 < s.waited := by
    rw [waited]
    cases api with
    | balance | sv | dc => exact positive
    | sinc => exact Nat.one_pos
  have written := inv.out late
  cases api with
  | balance | sv | dc =>
    have all : s.waited = (call.results qwa).length := waited.trans size.symm
    simp only [Api.syncType, outcome, all, List.take_length, whole] at written
    exact written
  | sinc =>
    obtain ⟨ended, parts, ⟨submitted, perm, submits⟩, known⟩ := inv.ended
    obtain ⟨once, below⟩ := applied_once inv.tree
    obtain ⟨idle, inside⟩ := all_ended once below parts (known late)
    rw [idle, List.nil_append] at parts
    have ended_ : ended.Perm (List.range qwa.length) := by
      refine ((List.perm_ext_iff_of_nodup (parts.nodup_iff.mp once) List.nodup_range).mpr ?_)
      intro i
      constructor
      · intro member
        exact List.mem_range.mpr (below i (parts.mem_iff.mpr member))
      · intro member
        exact inside i (List.mem_range.mp member)
    have values : submitted.Perm (call.results qwa) := by
      refine (List.map_perm_map_iff (Option.some_injective α)).mp ?_
      refine perm.trans ((ended_.map _).trans ?_)
      have listed : (List.range qwa.length).map (fun i => (call.results qwa)[i]?) =
          (call.results qwa).map some := by
        refine List.ext_getElem (by simp [size]) ?_
        intro i inside _
        have small : i < (call.results qwa).length := by simpa [size] using inside
        simp [List.getElem?_eq_getElem small]
      rw [listed]
    have counted := submits.counted
    rw [values.length_eq, size] at counted
    have initial := @collate_initial _ call.acc _ _ slots out total
    rw [← foldl_combined call.acc values whole, ← submits.folded] at initial
    have collated := submits.collated
    rw [if_pos (by omega), initial] at collated
    exact written.trans collated

theorem freed_iff (call : Call α) (api : Api) (threads dc : Nat) :
    (call.freed api.syncType threads dc).Perm (call.allocated api.syncType threads) ↔ api ≠ .dc := by
  cases api with
  | balance | sv | sinc => exact iff_of_true (List.Perm.refl _) nofun
  | dc =>
    refine iff_of_false ?_ (not_not_intro rfl)
    intro perm
    have size := perm.length_eq
    simp only [Call.freed, Call.allocated, Api.syncType, List.length_append] at size
    simp at size

/-- All calls come back, the value is the combination of what the workers return where the sinc's
initial value, which it combines with it once more than it has slots, does not count, and the memory
is given back where it was no number. -/
theorem loopaccum_iff (call : Call α) [Std.Associative call.acc] [Std.Commutative call.acc]
    (ordered : call.start ≤ call.stop) (working : workers ≠ 0) {slots : Nat} (slotted : 0 < slots)
    (api : Api) (out : α) :
    ∃ qwa total, call.qwa workers = some qwa ∧ Laid call.start qwa call.stop ∧
      combined call.acc (call.results qwa) = some total ∧
      ∀ moves s, Run (Step call api.syncType slots qwa out) (State.start qwa out) moves s →
        moves.length ≤ 7 * workers.toNat ∧
        (∃ more last released, Run (Step call api.syncType slots qwa out) s more last ∧
          last.released = some released) ∧
        ∀ released, s.released = some released →
          ((s.rets 0 = some total ∧
              released.Perm (call.allocated api.syncType workers.toNat)) ↔
            api ≠ .dc ∧ (api = .sinc → (call.acc out)^[slots + 1] total = total)) := by
  obtain ⟨qwa, made, length, shaped, laid⟩ := call.qwa_shaped ordered working
  have size : (call.results qwa).length = workers.toNat := by
    rw [Call.results, List.length_map, length]
  obtain ⟨total, whole⟩ : ∃ total, combined call.acc (call.results qwa) = some total := by
    cases results : call.results qwa with
    | nil =>
      rw [results] at size
      exact absurd (UInt16.toNat_inj.mp size.symm) working
    | cons first rest => exact ⟨_, rfl⟩
  refine ⟨qwa, total, made, laid, whole, ?_⟩
  intro moves s run
  obtain ⟨inv, spent⟩ := (Inv.start call api.syncType shaped out).run shaped run
  have kind : api.syncType ≠ .aligned := by cases api <;> exact nofun
  refine ⟨?_, inv.returns slotted shaped kind, ?_⟩
  · have bound := start_left shaped api.syncType out
    omega
  · intro released gone
    obtain ⟨waited, same⟩ := inv.released released gone
    have value := inv.value shaped.positive waited whole
    rw [same, length, freed_iff, value]
    cases api with
    | balance | sv => exact iff_of_true ⟨rfl, nofun⟩ ⟨nofun, nofun⟩
    | dc => exact iff_of_false (fun both => both.2 rfl) (fun both => both.1 rfl)
    | sinc =>
      constructor
      · rintro ⟨same, -⟩
        exact ⟨nofun, fun _ => Option.some.inj same⟩
      · rintro ⟨-, neutral⟩
        exact ⟨congrArg some (neutral rfl), nofun⟩

end Calls

def counting : Call Nat := ⟨0, 4, 8, fun startat stopat => stopat - startat, (· + ·),
  by decide⟩

theorem loopaccum_two_workers : ∃ qwa total, counting.qwa 2 = some qwa ∧
    combined counting.acc (counting.results qwa) = some total ∧
    ∃ moves s, Run (Step counting Api.sinc.syncType 3 qwa 0) (State.start qwa 0) moves s ∧
      s.rets 0 = some total := by
  have : Std.Associative counting.acc := inferInstanceAs (Std.Associative (α := Nat) (· + ·))
  have : Std.Commutative counting.acc := inferInstanceAs (Std.Commutative (α := Nat) (· + ·))
  obtain ⟨qwa, total, made, -, whole, runs⟩ := loopaccum_iff counting (by decide : (0 : Nat) ≤ 4)
    (by decide : (2 : UInt16) ≠ 0) (by decide : 0 < 3) .sinc 0
  obtain ⟨-, ⟨moves, s, released, run, gone⟩, -⟩ := runs [] _ (.nil _)
  have neutral : (counting.acc 0)^[3 + 1] total = total := by
    simp [counting, Function.iterate_succ_apply]
  exact ⟨qwa, total, made, whole, moves, s, run,
    (((runs moves s run).2.2 released gone).mpr ⟨nofun, fun _ => neutral⟩).1⟩

/-- The slot of the only worker and the collation both start from what `out` held: the result is 14. -/
theorem sinc_counts_out : ¬ ∀ qwa, counting.qwa 1 = some qwa → ∀ moves s,
    Run (Step counting Api.sinc.syncType 1 qwa 5) (State.start qwa 5) moves s →
      ∀ released, s.released = some released → s.rets 0 = some 4 := by
  have : Std.Associative counting.acc := inferInstanceAs (Std.Associative (α := Nat) (· + ·))
  have : Std.Commutative counting.acc := inferInstanceAs (Std.Commutative (α := Nat) (· + ·))
  intro claimed
  obtain ⟨qwa, made, length, shaped, -⟩ :=
    counting.qwa_shaped (by decide : (0 : Nat) ≤ 4) (by decide : (1 : UInt16) ≠ 0)
  have start : Inv counting Api.sinc.syncType 1 qwa 5 (State.start qwa 5) := Inv.start _ _ shaped 5
  obtain ⟨moves, s, released, run, gone⟩ := start.returns Nat.one_pos shaped nofun
  have right := claimed qwa made moves s run released gone
  obtain ⟨inv, -⟩ := start.run shaped run
  have results : counting.results qwa = [4] := by
    have only : qwa = [⟨0, 4, 0, 0, 1⟩] := (Option.some.inj (made.symm.trans (by decide)))
    rw [only]
    rfl
  have whole : combined counting.acc (counting.results qwa) = some 4 := by
    rw [results]
    rfl
  have value := inv.value shaped.positive (inv.released released gone).1 whole
  rw [right] at value
  revert value
  decide

end Qthreads.Loop.Loopaccum
