import Mathlib.Data.Finset.Card
import Qthreads.Loop.Balance

namespace Qthreads.Loop

open Qthreads.Lib
open Function (update update_of_ne update_self)

/-! Both layers of a loop spawn tasks that signal their end through memory that the layer has
set up, and wait for these signals.  Where a signal goes is decided by the `sync` pointer
that travels in the tasks' arguments and by the return location given to `qthread_spawn`. -/

/-- `synctype_t`, without `NO_SYNC`, on which both layers abort. -/
inductive SyncType where
  | aligned
  | syncvarT
  | sincT
  | donecount

/-- A word of the array that a layer allocates, or a word at an offset from the address of
the union `sync` in the frame of `qt_loop_balance_inner`. -/
inductive Place where
  | array (i : Nat)
  | union (i : Nat)
deriving DecidableEq

inductive SyncPtr where
  | null
  | array
  | union
  | sinc

inductive Signal where
  | writeEF (place : Place)
  | submit
  | incr
deriving DecidableEq

/-- The delivery that `qthread_wrapper` makes to the `i`-th word at a return location, of the
kind that goes with the pointer. -/
def SyncPtr.signal (i : Nat) : SyncPtr → List Signal
  | .null => []
  | .array => [.writeEF (.array i)]
  | .union => [.writeEF (.union i)]
  | .sinc => [.submit]

/-- `qwa[i].sync` in `qt_loop_balance_inner`; the case `ALIGNED` falls through. -/
def qwaSync : SyncType → SyncPtr
  | .syncvarT => .array
  | .aligned => .union
  | .donecount => .union
  | .sincT => .sinc

/-- `sync.ptr` when the first `qloop_wrapper` is spawned; a done count is still 0. -/
def rootRet : SyncType → SyncPtr
  | .syncvarT => .array
  | .aligned => .array
  | .sincT => .sinc
  | .donecount => .null

/-- The return location of the wrappers that `qloop_wrapper` spawns, less the offset. -/
def childRet (type : SyncType) : SyncPtr :=
  match type with
  | .syncvarT => qwaSync type
  | .aligned => qwaSync type
  | .sincT => qwaSync type
  | .donecount => .null

/-- The last `switch` of `qloop_wrapper`. -/
def wrapperSignals : SyncType → List Signal
  | .donecount => [.incr]
  | _ => []

def balanceSignals (type : SyncType) (id : Nat) : List Signal :=
  wrapperSignals type ++ (if id = 0 then rootRet type else childRet type).signal id

/-- The `switch` of `qt_loop_wrapper`. -/
def loopWrapperSignals : SyncType → List Signal
  | .sincT => [.submit]
  | .donecount => [.incr]
  | _ => []

/-- `retptr` in `qt_loop_spawner`, the same for every task. -/
def retptr : SyncType → SyncPtr
  | .syncvarT => .array
  | .aligned => .array
  | _ => .null

def spawnerSignals (type : SyncType) (_id : Nat) : List Signal :=
  loopWrapperSignals type ++ (retptr type).signal 0

/-- What a layer waits for: the first words of its array, one after the other, a sinc that
expects submits, or a count. -/
inductive Waits where
  | readFF (tasks : Nat)
  | sinc (expected : Nat)
  | count (expected : Nat)

/-- The last `switch` of either layer, for the number of tasks it has spawned. -/
def joinWaits (tasks : Nat) : SyncType → Waits
  | .syncvarT => .readFF tasks
  | .aligned => .readFF tasks
  | .sincT => .sinc tasks
  | .donecount => .count tasks

structure Layer where
  count : Nat
  signals : Nat → List Signal
  waits : Waits

def balanceLayer (type : SyncType) (threads : Nat) : Layer :=
  ⟨threads, balanceSignals type, joinWaits threads type⟩

def spawnerLayer (type : SyncType) (steps : Nat) : Layer :=
  ⟨steps, spawnerSignals type, joinWaits steps type⟩

structure Sync where
  full : Place → Bool
  submitted : Nat
  dc : Nat

def Sync.first : Sync where
  full
    | .array _ => false
    | .union _ => true
  submitted := 0
  dc := 0

namespace Sync

/-- `qthread_spawn` empties the return location. -/
def prepare (sync : Sync) : List Signal → Sync
  | [] => sync
  | .writeEF place :: rest =>
    ({ sync with full := update sync.full place false }).prepare rest
  | .submit :: rest => sync.prepare rest
  | .incr :: rest => sync.prepare rest

def Ready (sync : Sync) (signals : List Signal) : Prop :=
  ∀ place, .writeEF place ∈ signals → sync.full place = false

def signal (sync : Sync) : List Signal → Sync
  | [] => sync
  | .writeEF place :: rest =>
    ({ sync with full := update sync.full place true }).signal rest
  | .submit :: rest => ({ sync with submitted := sync.submitted + 1 }).signal rest
  | .incr :: rest => ({ sync with dc := sync.dc + 1 }).signal rest

end Sync

namespace Waits

def length : Waits → Nat
  | readFF tasks => tasks
  | _ => 1

def Passes (sync : Sync) (waited : Nat) : Waits → Prop
  | readFF tasks => waited < tasks ∧ sync.full (.array waited) = true
  | sinc expected => waited = 0 ∧ sync.submitted = expected
  | count expected => waited = 0 ∧ sync.dc = expected

def places : Waits → List Place
  | readFF tasks => (List.range tasks).map .array
  | _ => []

def submits : Waits → Nat
  | sinc expected => expected
  | _ => 0

def incrs : Waits → Nat
  | count expected => expected
  | _ => 0

end Waits

/-- `qt_loop_balance_inner` from the spawn of the first wrapper on. -/
structure Balance where
  tree : Tree
  sync : Sync
  waited : Nat

inductive BalanceStep (type : SyncType) (qwa : List QloopWrapperArgs) :
    Balance → Option Nat → Balance → Prop where
  | enter {s : Balance} {myId : Nat} {tree : Tree} :
      TreeStep qwa s.tree myId tree → tree.launched = s.tree.launched →
      tree.applied = s.tree.applied →
      BalanceStep type qwa s (some myId) { s with tree := tree }
  | spawn {s : Balance} {myId newId : Nat} {tree : Tree} :
      TreeStep qwa s.tree myId tree → tree.launched = s.tree.launched ++ [newId] →
      tree.applied = s.tree.applied →
      BalanceStep type qwa s (some myId)
        { s with tree := tree, sync := s.sync.prepare (balanceSignals type newId) }
  | finish {s : Balance} {myId : Nat} {tree : Tree} :
      TreeStep qwa s.tree myId tree → tree.launched = s.tree.launched →
      tree.applied = s.tree.applied ++ [myId] → s.sync.Ready (balanceSignals type myId) →
      BalanceStep type qwa s (some myId)
        { s with tree := tree, sync := s.sync.signal (balanceSignals type myId) }
  | wait {s : Balance} :
      (joinWaits qwa.length type).Passes s.sync s.waited →
      BalanceStep type qwa s none { s with waited := s.waited + 1 }

def Balance.start (type : SyncType) (qwa : List QloopWrapperArgs) : Balance where
  tree := Tree.start qwa
  sync := Sync.first.prepare (balanceSignals type 0)
  waited := 0

/-- `qt_loop_spawner`: its loop and then its join. -/
structure Spawner where
  threadct : Nat
  finished : List Nat
  sync : Sync
  waited : Nat

inductive SpawnerStep (type : SyncType) (steps : Nat) :
    Spawner → Option Nat → Spawner → Prop where
  | spawn {s : Spawner} : s.threadct < steps →
      SpawnerStep type steps s none
        { s with
          threadct := s.threadct + 1
          sync := s.sync.prepare (spawnerSignals type s.threadct) }
  | finish {s : Spawner} {id : Nat} : id < s.threadct → id ∉ s.finished →
      s.sync.Ready (spawnerSignals type id) →
      SpawnerStep type steps s (some id)
        { s with
          finished := s.finished ++ [id]
          sync := s.sync.signal (spawnerSignals type id) }
  | wait {s : Spawner} : s.threadct = steps →
      (joinWaits s.threadct type).Passes s.sync s.waited →
      SpawnerStep type steps s none { s with waited := s.waited + 1 }

def Spawner.start : Spawner := ⟨0, [], Sync.first, 0⟩

structure Forked where
  spawned : List Nat
  finished : List Nat
  sync : Sync
  waited : Nat

def Balance.view (s : Balance) : Forked := ⟨s.tree.launched, s.tree.applied, s.sync, s.waited⟩

def Spawner.view (s : Spawner) : Forked := ⟨List.range s.threadct, s.finished, s.sync, s.waited⟩

/-- The join waits for what the tasks signal: it completes once all tasks have, and not
before. -/
structure JoinExact {State Label : Type} (layer : Layer) (step : State → Label → State → Prop)
    (start : State) (view : State → Forked) : Prop where
  places : ∀ place, place ∈ layer.waits.places ↔
    ∃ id, id < layer.count ∧ .writeEF place ∈ layer.signals id
  submits : ((List.range layer.count).flatMap layer.signals).count .submit = layer.waits.submits
  incrs : ((List.range layer.count).flatMap layer.signals).count .incr = layer.waits.incrs
  notBefore : ∀ labels s, Run step start labels s → (view s).waited = layer.waits.length →
    ∀ id, id < layer.count → id ∈ (view s).finished
  completes : ∀ labels s, Run step start labels s →
    (∀ id, id < layer.count → id ∈ (view s).finished) →
    ∃ rest last, Run step s rest last ∧ (view last).waited = layer.waits.length

inductive Layer.Matched (layer : Layer) : Prop where
  | readFF (waits : layer.waits = .readFF layer.count)
      (signals : ∀ id, id < layer.count → layer.signals id = [.writeEF (.array id)])
  | sinc (waits : layer.waits = .sinc layer.count)
      (signals : ∀ id, id < layer.count → layer.signals id = [.submit])
  | count (waits : layer.waits = .count layer.count)
      (signals : ∀ id, id < layer.count → layer.signals id = [.incr])

inductive ForkStep (layer : Layer) (s : Forked) : Forked → Prop where
  | spawn {id : Nat} (among : id < layer.count) (fresh : id ∉ s.spawned) :
      ForkStep layer s
        { s with spawned := s.spawned ++ [id], sync := s.sync.prepare (layer.signals id) }
  | finish {id : Nat} (spawned : id ∈ s.spawned) (running : id ∉ s.finished) :
      ForkStep layer s
        { s with finished := s.finished ++ [id], sync := s.sync.signal (layer.signals id) }
  | wait (passes : layer.waits.Passes s.sync s.waited) :
      ForkStep layer s { s with waited := s.waited + 1 }

def Heard (sync : Sync) (finished : List Nat) : Waits → Prop
  | .readFF tasks => ∀ id, id < tasks → (sync.full (.array id) = true ↔ id ∈ finished)
  | .sinc _ => sync.submitted = finished.length
  | .count _ => sync.dc = finished.length

def Known (waited count : Nat) (finished : List Nat) : Waits → Prop
  | .readFF _ => ∀ id, id < waited → id ∈ finished
  | _ => 0 < waited → ∀ id, id < count → id ∈ finished

structure Counted (layer : Layer) (s : Forked) : Prop where
  among : ∀ id ∈ s.spawned, id < layer.count
  spawned : ∀ id ∈ s.finished, id ∈ s.spawned
  once : s.finished.Nodup
  heard : Heard s.sync s.finished layer.waits
  known : Known s.waited layer.count s.finished layer.waits
  bounded : s.waited ≤ layer.waits.length

theorem all_of_length {count : Nat} {finished : List Nat} (once : finished.Nodup)
    (among : ∀ id ∈ finished, id < count) (all : finished.length = count) :
    ∀ id, id < count → id ∈ finished := by
  intro id small
  have inside : finished.toFinset ⊆ Finset.range count := by
    intro other member
    exact Finset.mem_range.mpr (among other (List.mem_toFinset.mp member))
  have card : (Finset.range count).card ≤ finished.toFinset.card := by
    rw [Finset.card_range, List.toFinset_card_of_nodup once, all]
  have whole := Finset.eq_of_subset_of_card_le inside card
  have member : id ∈ finished.toFinset := by
    rw [whole]
    exact Finset.mem_range.mpr small
  exact List.mem_toFinset.mp member

theorem length_of_all {count : Nat} {finished : List Nat} (once : finished.Nodup)
    (among : ∀ id ∈ finished, id < count) (all : ∀ id, id < count → id ∈ finished) :
    finished.length = count := by
  have whole : finished.toFinset = Finset.range count := by
    ext id
    rw [List.mem_toFinset, Finset.mem_range]
    exact ⟨among id, all id⟩
  rw [← List.toFinset_card_of_nodup once, whole, Finset.card_range]

theorem Known.mono {waited count : Nat} {finished more : List Nat} {waits : Waits}
    (known : Known waited count finished waits) (kept : ∀ id ∈ finished, id ∈ more) :
    Known waited count more waits := by
  cases waits with
  | readFF tasks =>
    intro id small
    exact kept id (known id small)
  | sinc expected =>
    intro positive id small
    exact kept id (known positive id small)
  | count expected =>
    intro positive id small
    exact kept id (known positive id small)

section Step

variable {layer : Layer} {s : Forked}

theorem Heard.prepare (matched : layer.Matched) (counted : Counted layer s) {id : Nat}
    (among : id < layer.count) (fresh : id ∉ s.finished) :
    Heard (s.sync.prepare (layer.signals id)) s.finished layer.waits := by
  have heard := counted.heard
  cases matched with
  | readFF waits signals =>
    rw [waits] at heard ⊢
    rw [signals id among]
    intro other small
    by_cases same : other = id
    · subst same
      simp only [Sync.prepare, update_self, Bool.false_eq_true, false_iff]
      exact fresh
    · have apart : Place.array other ≠ .array id := fun equal => same (Place.array.inj equal)
      simp only [Sync.prepare, update_of_ne apart]
      exact heard other small
  | sinc waits signals =>
    rw [waits] at heard ⊢
    rw [signals id among]
    exact heard
  | count waits signals =>
    rw [waits] at heard ⊢
    rw [signals id among]
    exact heard

theorem Heard.signal (matched : layer.Matched) (counted : Counted layer s) {id : Nat}
    (among : id < layer.count) :
    Heard (s.sync.signal (layer.signals id)) (s.finished ++ [id]) layer.waits := by
  have heard := counted.heard
  cases matched with
  | readFF waits signals =>
    rw [waits] at heard ⊢
    rw [signals id among]
    intro other small
    by_cases same : other = id
    · subst same
      simp [Sync.signal]
    · have apart : Place.array other ≠ .array id := fun equal => same (Place.array.inj equal)
      simp only [Sync.signal, update_of_ne apart, List.mem_append, List.mem_singleton,
        same, or_false]
      exact heard other small
  | sinc waits signals =>
    rw [waits] at heard ⊢
    rw [signals id among]
    simpa [Heard, Sync.signal] using heard
  | count waits signals =>
    rw [waits] at heard ⊢
    rw [signals id among]
    simpa [Heard, Sync.signal] using heard

theorem Counted.finished_among (counted : Counted layer s) : ∀ id ∈ s.finished, id < layer.count :=
  fun id member => counted.among id (counted.spawned id member)

section

variable (matched : layer.Matched) (counted : Counted layer s)
include matched counted

theorem Known.wait (passes : layer.waits.Passes s.sync s.waited) :
    Known (s.waited + 1) layer.count s.finished layer.waits ∧
      s.waited + 1 ≤ layer.waits.length := by
  have heard := counted.heard
  have known := counted.known
  cases matched with
  | readFF waits signals =>
    rw [waits] at heard known passes ⊢
    refine ⟨?_, passes.1⟩
    intro id small
    rcases Nat.lt_succ_iff_lt_or_eq.mp small with before | here
    · exact known id before
    · rw [here]
      exact (heard s.waited passes.1).mp passes.2
  | sinc waits signals =>
    rw [waits] at heard passes ⊢
    have length : s.finished.length = layer.count := heard.symm.trans passes.2
    refine ⟨fun _ => all_of_length counted.once counted.finished_among length, ?_⟩
    rw [passes.1]
    exact Nat.le_refl 1
  | count waits signals =>
    rw [waits] at heard passes ⊢
    have length : s.finished.length = layer.count := heard.symm.trans passes.2
    refine ⟨fun _ => all_of_length counted.once counted.finished_among length, ?_⟩
    rw [passes.1]
    exact Nat.le_refl 1

theorem Counted.step {after : Forked} (taken : ForkStep layer s after) : Counted layer after := by
  cases taken with
  | @spawn id among fresh =>
    have running : id ∉ s.finished := fun member => fresh (counted.spawned id member)
    constructor
    · intro other member
      rcases List.mem_append.mp member with old | new
      · exact counted.among other old
      · rw [List.mem_singleton.mp new]
        exact among
    · intro other member
      exact List.mem_append_left _ (counted.spawned other member)
    · exact counted.once
    · exact Heard.prepare matched counted among running
    · exact counted.known
    · exact counted.bounded
  | @finish id spawned running =>
    have among := counted.among id spawned
    constructor
    · exact counted.among
    · intro other member
      rcases List.mem_append.mp member with old | new
      · exact counted.spawned other old
      · rw [List.mem_singleton.mp new]
        exact spawned
    · exact List.nodup_append.mpr ⟨counted.once, List.nodup_singleton id, by
        intro other old _ new
        rw [List.mem_singleton.mp new]
        exact fun same => running (same ▸ old)⟩
    · exact Heard.signal matched counted among
    · exact counted.known.mono (fun _ member => List.mem_append_left _ member)
    · exact counted.bounded
  | wait passes =>
    obtain ⟨known, bounded⟩ := Known.wait matched counted passes
    exact ⟨counted.among, counted.spawned, counted.once, counted.heard, known, bounded⟩

theorem Counted.joined
    (joined : s.waited = layer.waits.length) : ∀ id, id < layer.count → id ∈ s.finished := by
  have known := counted.known
  cases matched with
  | readFF waits =>
    rw [waits] at known joined
    intro id small
    exact known id (joined ▸ small)
  | sinc waits =>
    rw [waits] at known joined
    exact known (by rw [joined]; exact Nat.one_pos)
  | count waits =>
    rw [waits] at known joined
    exact known (by rw [joined]; exact Nat.one_pos)

theorem Counted.passes
    (all : ∀ id, id < layer.count → id ∈ s.finished) (more : s.waited < layer.waits.length) :
    layer.waits.Passes s.sync s.waited := by
  have heard := counted.heard
  have length := length_of_all counted.once counted.finished_among all
  cases matched with
  | readFF waits =>
    rw [waits] at heard more ⊢
    exact ⟨more, (heard s.waited more).mpr (all s.waited more)⟩
  | sinc waits =>
    rw [waits] at heard more ⊢
    exact ⟨Nat.lt_one_iff.mp more, heard.trans length⟩
  | count waits =>
    rw [waits] at heard more ⊢
    exact ⟨Nat.lt_one_iff.mp more, heard.trans length⟩

end

end Step

theorem Layer.Matched.totals {layer : Layer} (matched : layer.Matched) :
    (∀ place, place ∈ layer.waits.places ↔
      ∃ id, id < layer.count ∧ .writeEF place ∈ layer.signals id) ∧
    ((List.range layer.count).flatMap layer.signals).count .submit = layer.waits.submits ∧
    ((List.range layer.count).flatMap layer.signals).count .incr = layer.waits.incrs := by
  have each {signal : Nat → List Signal}
      (signals : ∀ id, id < layer.count → layer.signals id = signal id) :
      (List.range layer.count).flatMap layer.signals =
        (List.range layer.count).flatMap signal := by
    rw [List.flatMap_def, List.flatMap_def, List.map_congr_left]
    intro id member
    exact signals id (List.mem_range.mp member)
  have constant (signal : Signal) : (List.range layer.count).flatMap (fun _ => [signal]) =
      List.replicate layer.count signal := by
    induction layer.count with
    | zero => rfl
    | succ count ih => rw [List.range_succ, List.flatMap_append, ih, List.replicate_succ']; rfl
  cases matched with
  | readFF waits signals =>
    rw [waits, each signals]
    refine ⟨?_, ?_, ?_⟩
    · intro place
      constructor
      · intro member
        obtain ⟨id, small, same⟩ := List.mem_map.mp member
        have small := List.mem_range.mp small
        refine ⟨id, small, ?_⟩
        rw [signals id small, same]
        exact List.mem_singleton_self _
      · rintro ⟨id, small, member⟩
        rw [signals id small, List.mem_singleton] at member
        exact List.mem_map.mpr ⟨id, List.mem_range.mpr small, (Signal.writeEF.inj member).symm⟩
    · exact List.count_eq_zero.mpr (by simp)
    · exact List.count_eq_zero.mpr (by simp)
  | sinc waits signals =>
    rw [waits, each signals, constant]
    refine ⟨?_, ?_, ?_⟩
    · intro place
      constructor
      · nofun
      · rintro ⟨id, small, member⟩
        rw [signals id small, List.mem_singleton] at member
        cases member
    · exact List.count_replicate_self
    · exact List.count_replicate.trans (if_neg (by decide))
  | count waits signals =>
    rw [waits, each signals, constant]
    refine ⟨?_, ?_, ?_⟩
    · intro place
      constructor
      · nofun
      · rintro ⟨id, small, member⟩
        rw [signals id small, List.mem_singleton] at member
        cases member
    · exact List.count_replicate.trans (if_neg (by decide))
    · exact List.count_replicate_self

theorem joinExact_of_matched {State Label : Type} {layer : Layer}
    {step : State → Label → State → Prop} {start : State} {view : State → Forked}
    (inv : State → Prop) (matched : layer.Matched) (initial : inv start)
    (counted : Counted layer (view start))
    (simulates : ∀ s label after, inv s → step s label after →
      inv after ∧ (view after = view s ∨ ForkStep layer (view s) (view after)))
    (waits : ∀ s, inv s → Counted layer (view s) →
      (∀ id, id < layer.count → id ∈ (view s).finished) →
      layer.waits.Passes (view s).sync (view s).waited →
      ∃ label after, step s label after ∧
        view after = { view s with waited := (view s).waited + 1 }) :
    JoinExact layer step start view := by
  have reached : ∀ {first labels s}, Run step first labels s →
      inv first ∧ Counted layer (view first) → inv s ∧ Counted layer (view s) := by
    intro first labels s run
    induction run with
    | nil => exact id
    | cons taken _ ih =>
      intro holds
      apply ih
      obtain ⟨kept, same | fork⟩ := simulates _ _ _ holds.1 taken
      · exact ⟨kept, same ▸ holds.2⟩
      · exact ⟨kept, holds.2.step matched fork⟩
  have finishes : ∀ left s, inv s → Counted layer (view s) →
      (∀ id, id < layer.count → id ∈ (view s).finished) →
      (view s).waited + left = layer.waits.length →
      ∃ rest last, Run step s rest last ∧ (view last).waited = layer.waits.length := by
    intro left
    induction left with
    | zero =>
      intro s holds counted all joined
      exact ⟨[], s, .nil s, joined⟩
    | succ left ih =>
      intro s holds counted all joined
      have passes := counted.passes matched all (by omega)
      obtain ⟨label, after, taken, moved⟩ := waits s holds counted all passes
      obtain ⟨kept, -⟩ := simulates s label after holds taken
      have counted : Counted layer (view after) := by
        rw [moved]
        exact counted.step matched (.wait passes)
      obtain ⟨rest, last, run, there⟩ := ih after kept counted
        (by rw [moved]; exact all) (by rw [moved]; simp only; omega)
      exact ⟨label :: rest, last, .cons taken run, there⟩
  obtain ⟨places, submits, incrs⟩ := matched.totals
  refine ⟨places, submits, incrs, ?_, ?_⟩
  · intro labels s run joined
    exact (reached run ⟨initial, counted⟩).2.joined matched joined
  · intro labels s run all
    obtain ⟨holds, counted⟩ := reached run ⟨initial, counted⟩
    have bounded := counted.bounded
    exact finishes (layer.waits.length - (view s).waited) s holds counted all (by omega)

theorem balance_matched {type : SyncType} {threads : Nat} (one : type = .aligned → threads = 1) :
    (balanceLayer type threads).Matched := by
  cases type with
  | syncvarT =>
    refine .readFF rfl ?_
    intro id small
    simp only [balanceLayer, balanceSignals, wrapperSignals, rootRet, childRet, qwaSync, ite_self]
    rfl
  | aligned =>
    refine .readFF rfl ?_
    intro id small
    have zero : id = 0 := by
      have small : id < threads := small
      rw [one rfl] at small
      exact Nat.lt_one_iff.mp small
    rw [zero]
    rfl
  | sincT =>
    refine .sinc rfl ?_
    intro id small
    simp only [balanceLayer, balanceSignals, wrapperSignals, rootRet, childRet, qwaSync, ite_self]
    rfl
  | donecount =>
    refine .count rfl ?_
    intro id small
    simp only [balanceLayer, balanceSignals, wrapperSignals, rootRet, childRet, ite_self]
    rfl

variable {start stop : Nat} {workers : UInt16}

theorem qwa_spec {qwa : List QloopWrapperArgs}
    (built : qtLoopBalanceInner start stop workers = some qwa) :
    qwa.length = maxworkers start stop workers ∧ 0 < qwa.length ∧
    ∀ (i : Nat) (arg : QloopWrapperArgs), qwa[i]? = some arg →
      arg.spawnthreads = qwa.length ∧ arg.level = 0 := by
  simp only [qtLoopBalanceInner] at built
  by_cases zero : maxworkers start stop workers = 0
  · rw [if_pos zero] at built
    cases built
  · rw [if_neg zero, Option.some.injEq] at built
    rw [← built, fillQwa_length]
    refine ⟨rfl, Nat.pos_of_ne_zero zero, ?_⟩
    intro i arg found
    obtain ⟨spawnthreads, level, -⟩ := fillQwa_size (List.mem_of_getElem? found)
    exact ⟨spawnthreads, level⟩

theorem prepare_first (signals : List Signal) (i : Nat) (sync : Sync)
    (empty : sync.full (.array i) = false) : (sync.prepare signals).full (.array i) = false := by
  induction signals generalizing sync with
  | nil => exact empty
  | cons signal rest ih =>
    cases signal with
    | writeEF place =>
      apply ih
      by_cases same : Place.array i = place
      · rw [same]
        exact update_self ..
      · exact (update_of_ne same ..).trans empty
    | submit => exact ih sync empty
    | incr => exact ih sync empty

theorem prepare_counts (signals : List Signal) (sync : Sync) :
    (sync.prepare signals).submitted = sync.submitted ∧ (sync.prepare signals).dc = sync.dc := by
  induction signals generalizing sync with
  | nil => exact ⟨rfl, rfl⟩
  | cons signal rest ih =>
    cases signal with
    | writeEF place => exact ih _
    | submit => exact ih sync
    | incr => exact ih sync

theorem heard_first (signals : List Signal) (waits : Waits) :
    Heard (Sync.first.prepare signals) [] waits := by
  cases waits with
  | readFF tasks =>
    intro id small
    rw [prepare_first signals id Sync.first rfl]
    simp
  | sinc expected => exact (prepare_counts signals Sync.first).1
  | count expected => exact (prepare_counts signals Sync.first).2

theorem known_first (count : Nat) (waits : Waits) : Known 0 count [] waits := by
  cases waits with
  | readFF tasks => exact nofun
  | sinc expected => exact nofun
  | count expected => exact nofun

section Outer

variable {type : SyncType} {qwa : List QloopWrapperArgs}

theorem balance_simulates (spawnthreads : ∀ (i : Nat) (arg : QloopWrapperArgs), qwa[i]? = some arg →
      arg.spawnthreads = qwa.length) {s after : Balance} {label : Option Nat}
    (inv : TreeInv qwa.length s.tree) (taken : BalanceStep type qwa s label after) :
    TreeInv qwa.length after.tree ∧ (after.view = s.view ∨
      ForkStep (balanceLayer type qwa.length) s.view after.view) := by
  cases taken with
  | enter moved launched applied =>
    refine ⟨inv.step spawnthreads moved, .inl ?_⟩
    simp only [Balance.view, launched, applied]
  | @spawn myId newId tree moved launched applied =>
    have kept := inv.step spawnthreads moved
    refine ⟨kept, .inr ?_⟩
    have once := kept.once newId
    rw [launched, List.count_append, List.count_singleton_self] at once
    have among : newId < qwa.length := by
      by_contra above
      rw [if_neg above] at once
      omega
    have fresh : newId ∉ s.tree.launched := by
      intro member
      have positive := List.count_pos_iff.mpr member
      rw [if_pos among] at once
      omega
    have same : Balance.view { s with
        tree := tree, sync := s.sync.prepare (balanceSignals type newId) } =
        { s.view with
          spawned := s.view.spawned ++ [newId]
          sync := s.view.sync.prepare (balanceSignals type newId) } := by
      simp only [Balance.view, launched, applied]
    rw [same]
    exact .spawn among fresh
  | @finish myId tree moved launched applied ready =>
    have kept := inv.step spawnthreads moved
    refine ⟨kept, .inr ?_⟩
    have once := kept.once myId
    have running := (List.perm_iff_count.mp kept.running) myId
    rw [applied, List.count_append, List.count_append, List.count_singleton_self] at running
    have member : myId ∈ s.tree.launched := by
      rw [← launched]
      exact List.count_pos_iff.mp (by omega)
    have missing : myId ∉ s.tree.applied := by
      intro member
      have positive := List.count_pos_iff.mpr member
      split at once <;> omega
    have same : Balance.view { s with
        tree := tree, sync := s.sync.signal (balanceSignals type myId) } =
        { s.view with
          finished := s.view.finished ++ [myId]
          sync := s.view.sync.signal (balanceSignals type myId) } := by
      simp only [Balance.view, launched, applied]
    rw [same]
    exact .finish member missing
  | wait passes => exact ⟨inv, .inr (.wait passes)⟩

theorem balance_joinExact_iff (type : SyncType) {start stop : Nat} {workers : UInt16}
    (built : qtLoopBalanceInner start stop workers = some qwa) :
    JoinExact (balanceLayer type qwa.length) (BalanceStep type qwa) (Balance.start type qwa)
      Balance.view ↔ (type = .aligned → qwa.length = 1) := by
  obtain ⟨-, positive, args⟩ := qwa_spec built
  constructor
  · intro joins aligned
    subst aligned
    by_contra several
    have waited : Place.array 1 ∈ (balanceLayer .aligned qwa.length).waits.places :=
      List.mem_map.mpr ⟨1, List.mem_range.mpr (by omega), rfl⟩
    obtain ⟨id, small, signals⟩ := (joins.places (.array 1)).mp waited
    simp only [balanceLayer, balanceSignals, wrapperSignals, List.nil_append] at signals
    split at signals
    · case isTrue zero =>
        rw [zero] at signals
        simp [rootRet, SyncPtr.signal] at signals
    · simp [childRet, qwaSync, SyncPtr.signal] at signals
  · intro one
    have zero : (Tree.start qwa).level 0 = 0 := by
      cases found : qwa[0]? with
      | none => simp [Tree.start, found]
      | some arg => simp [Tree.start, found, (args 0 arg found).2]
    have counted : Counted (balanceLayer type qwa.length) (Balance.start type qwa).view := by
      constructor
      · intro id member
        rw [List.mem_singleton.mp member]
        exact positive
      · rintro _ ⟨⟩
      · exact List.nodup_nil
      · exact heard_first _ _
      · exact known_first _ _
      · exact Nat.zero_le _
    refine joinExact_of_matched (fun s => TreeInv qwa.length s.tree) (balance_matched one)
      (TreeInv.start positive zero) counted ?_ ?_
    · intro s label after inv taken
      exact balance_simulates (fun i arg found => (args i arg found).1) inv taken
    · intro s inv counted all passes
      exact ⟨none, _, .wait passes, rfl⟩

end Outer

variable {steps : Nat}

theorem spawner_matched {type : SyncType} (one : type = .aligned ∨ type = .syncvarT → steps = 1) :
    (spawnerLayer type steps).Matched := by
  have first {id : Nat} (small : id < steps) (single : steps = 1) : id = 0 := by omega
  cases type with
  | syncvarT =>
    refine .readFF rfl ?_
    intro id small
    rw [first small (one (.inr rfl))]
    rfl
  | aligned =>
    refine .readFF rfl ?_
    intro id small
    rw [first small (one (.inl rfl))]
    rfl
  | sincT => exact .sinc rfl (fun _ _ => rfl)
  | donecount => exact .count rfl (fun _ _ => rfl)

theorem spawner_simulates {type : SyncType} {s after : Spawner}
    {label : Option Nat} (bounded : s.threadct ≤ steps)
    (taken : SpawnerStep type steps s label after) :
    after.threadct ≤ steps ∧ (after.view = s.view ∨
      ForkStep (spawnerLayer type steps) s.view after.view) := by
  cases taken with
  | spawn more =>
    refine ⟨more, .inr ?_⟩
    have same : Spawner.view { s with
        threadct := s.threadct + 1
        sync := s.sync.prepare (spawnerSignals type s.threadct) } =
        { s.view with
          spawned := s.view.spawned ++ [s.threadct]
          sync := s.view.sync.prepare (spawnerSignals type s.threadct) } := by
      simp only [Spawner.view, List.range_succ]
    rw [same]
    exact .spawn more (fun member => absurd (List.mem_range.mp member) (Nat.lt_irrefl _))
  | finish spawned running ready =>
    exact ⟨bounded, .inr (.finish (List.mem_range.mpr spawned) running)⟩
  | wait all passes =>
    rw [all] at passes
    exact ⟨bounded, .inr (.wait passes)⟩

/-- The inner layer joins exactly unless it waits for several words: it gives every task the
first of them. -/
theorem spawner_joinExact_iff {type : SyncType} (positive : 0 < steps) :
    JoinExact (spawnerLayer type steps) (SpawnerStep type steps) Spawner.start Spawner.view ↔
      (type = .aligned ∨ type = .syncvarT → steps = 1) := by
  constructor
  · intro joins words
    by_contra several
    have waits : (spawnerLayer type steps).waits = .readFF steps := by
      rcases words with rfl | rfl <;> rfl
    have waited : Place.array 1 ∈ (spawnerLayer type steps).waits.places := by
      rw [waits]
      exact List.mem_map.mpr ⟨1, List.mem_range.mpr (by omega), rfl⟩
    obtain ⟨id, small, signals⟩ := (joins.places (.array 1)).mp waited
    have first : spawnerSignals type id = [.writeEF (.array 0)] := by
      rcases words with rfl | rfl <;> rfl
    simp only [spawnerLayer, first] at signals
    simp at signals
  · intro one
    have counted : Counted (spawnerLayer type steps) Spawner.start.view :=
      ⟨nofun, nofun, List.nodup_nil, heard_first [] _, known_first _ _, Nat.zero_le _⟩
    refine joinExact_of_matched (fun s => s.threadct ≤ steps) (spawner_matched one)
      (Nat.zero_le steps) counted ?_ ?_
    · intro s label after bounded taken
      exact spawner_simulates bounded taken
    · intro s bounded counted all passes
      have spawned : s.threadct = steps := by
        by_contra fewer
        have small : s.threadct < steps := by omega
        have member := counted.spawned _ (all s.threadct small)
        exact absurd (List.mem_range.mp member) (Nat.lt_irrefl _)
      refine ⟨none, _, .wait spawned ?_, rfl⟩
      rw [spawned]
      exact passes

theorem maxworkers_eq (start stop : Nat) (workers : UInt16) :
    maxworkers start stop workers = min (stop - start) workers.toNat := by
  have small : workers.toNat < 2 ^ 16 := workers.toNat_lt
  rw [maxworkers]
  split <;> omega

theorem fillQwa_exact {each threads todo i iterend : Nat} {arg : QloopWrapperArgs}
    (member : arg ∈ fillQwa each threads todo i iterend 0) :
    arg.stopat - arg.startat = each := by
  induction todo generalizing i iterend with
  | zero => cases member
  | succ todo ih =>
    simp only [fillQwa, Nat.lt_irrefl, if_false, List.mem_cons] at member
    rcases member with rfl | member
    · exact Nat.add_sub_cancel_left iterend each
    · exact ih member

theorem qwa_sizes {qwa : List QloopWrapperArgs}
    (nonempty : start < stop) (built : qtLoopBalanceInner start stop workers = some qwa) :
    ∀ arg ∈ qwa, 0 < arg.stopat - arg.startat := by
  intro arg member
  have threads := maxworkers_eq start stop workers
  simp only [qtLoopBalanceInner] at built
  split at built
  · cases built
  · case isFalse positive =>
      rw [Option.some.injEq] at built
      rw [← built] at member
      obtain ⟨-, -, size⟩ := fillQwa_size member
      have each : 0 < (stop - start) / maxworkers start stop workers :=
        Nat.div_pos (by omega) (by omega)
      omega

theorem single_iterations_iff {qwa : List QloopWrapperArgs}
    (nonempty : start < stop) (promise : BalanceExact start stop workers qwa) :
    (∀ arg ∈ qwa, arg.stopat - arg.startat = 1) ↔ stop - start ≤ workers.toNat := by
  have length := promise.length
  rw [maxworkers_eq] at length
  constructor
  · intro single
    have total := congrArg List.length promise.covers
    have each : qwa.map (fun arg => arg.iterations.length) = qwa.map (fun _ => 1) := by
      apply List.map_congr_left
      intro arg member
      rw [QloopWrapperArgs.iterations, List.length_range']
      exact single arg member
    rw [List.length_flatMap, each, List.length_range', List.map_const', List.sum_replicate_nat,
      Nat.mul_one] at total
    omega
  · intro enough arg member
    have threads : maxworkers start stop workers = stop - start := by
      rw [maxworkers_eq]
      omega
    have built := promise.built
    have positive : 0 < stop - start := by omega
    simp only [qtLoopBalanceInner, threads, Nat.div_self positive, Nat.one_mul, Nat.sub_self,
      Nat.ne_of_gt positive, if_false, Option.some.injEq] at built
    rw [← built] at member
    exact fillQwa_exact member

/-- The public loops: `qt_loop_balance` and its variants, and `qt_loop` and its variants, which
run `qt_loop_spawner` on every range of a balanced loop. -/
inductive LoopCall where
  | balance (type : SyncType)
  | loop (type : SyncType)

def LoopCall.type : LoopCall → SyncType
  | .balance type | .loop type => type

def LoopCall.spawns : LoopCall → Bool
  | .balance _ => false
  | .loop _ => true

def LoopJoins (call : LoopCall) (start stop : Nat) (workers : UInt16) : Prop :=
  ∃ qwa, qtLoopBalanceInner start stop workers = some qwa ∧
    JoinExact (balanceLayer call.type qwa.length) (BalanceStep call.type qwa)
      (Balance.start call.type qwa) Balance.view ∧
    (call.spawns = true → ∀ arg ∈ qwa,
      JoinExact (spawnerLayer call.type (arg.stopat - arg.startat))
        (SpawnerStep call.type (arg.stopat - arg.startat)) Spawner.start Spawner.view)

def LoopCall.Lined (call : LoopCall) (iterations workers : Nat) : Prop :=
  match call with
  | .balance .aligned => iterations = 1 ∨ workers = 1
  | .loop .aligned => iterations = 1
  | .loop .syncvarT => iterations ≤ workers
  | _ => True

/-- Loops that wait for a sinc or a count, and balanced loops that wait for syncvars, join
exactly; the others do when there is one word to wait for. -/
theorem loopJoins_iff (call : LoopCall) {start stop : Nat} {workers : UInt16}
    (nonempty : start < stop) (nonzero : workers ≠ 0) :
    LoopJoins call start stop workers ↔ call.Lined (stop - start) workers.toNat := by
  obtain ⟨qwa, promise⟩ := balanceExact_of_lt nonzero nonempty
  have length := promise.length
  rw [maxworkers_eq] at length
  have pos : 0 < workers.toNat := by
    have positive := maxworkers_positive nonzero nonempty
    rw [maxworkers_eq] at positive
    omega
  have single := single_iterations_iff nonempty promise
  have sizes := qwa_sizes nonempty promise.built
  have outer := balance_joinExact_iff call.type promise.built
  have inner : (∀ arg ∈ qwa, JoinExact (spawnerLayer call.type (arg.stopat - arg.startat))
      (SpawnerStep call.type (arg.stopat - arg.startat)) Spawner.start Spawner.view) ↔
      (call.type = .aligned ∨ call.type = .syncvarT → stop - start ≤ workers.toNat) := by
    rw [← single]
    constructor
    · intro joins words arg member
      exact (spawner_joinExact_iff (sizes arg member)).mp (joins arg member) words
    · intro one arg member
      exact (spawner_joinExact_iff (sizes arg member)).mpr (fun words => one words arg member)
  have joins : LoopJoins call start stop workers ↔
      (call.type = .aligned → qwa.length = 1) ∧ (call.spawns = true →
        (call.type = .aligned ∨ call.type = .syncvarT → stop - start ≤ workers.toNat)) := by
    rw [← outer, ← inner]
    constructor
    · rintro ⟨other, built, first, second⟩
      rw [promise.built, Option.some.injEq] at built
      subst built
      exact ⟨first, second⟩
    · rintro ⟨first, second⟩
      exact ⟨qwa, promise.built, first, second⟩
  rw [joins]
  cases call with
  | balance type =>
    cases type <;> simp [LoopCall.type, LoopCall.spawns, LoopCall.Lined]
    omega
  | loop type =>
    cases type <;> simp [LoopCall.type, LoopCall.spawns, LoopCall.Lined]
    omega

theorem loopJoins_iff_two_workers :
    LoopJoins (.loop .donecount) 3 20 2 ↔ LoopCall.Lined (.loop .donecount) (20 - 3) 2 :=
  loopJoins_iff (.loop .donecount) (by decide) (by decide)

/-- Two wrappers return to two aligned words; only the first of them is waited for. -/
theorem aligned_loop_waits_elsewhere : ¬ LoopJoins (.balance .aligned) 0 2 2 := by
  rintro ⟨qwa, built, joins, -⟩
  have length : qwa.length = 2 := (qwa_spec built).1
  rw [length] at joins
  have waited : Place.array 1 ∈ (balanceLayer .aligned 2).waits.places := by decide
  obtain ⟨id, small, signals⟩ := (joins.places (.array 1)).mp waited
  have small : id < 2 := small
  have which : id = 0 ∨ id = 1 := by omega
  rcases which with rfl | rfl
  · revert signals
    decide
  · revert signals
    decide

end Qthreads.Loop
