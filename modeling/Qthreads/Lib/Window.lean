import Mathlib.Data.List.Nodup
import Mathlib.Data.List.Perm.Basic
import Mathlib.Data.List.Range
import Mathlib.Logic.Equiv.Basic

namespace Qthreads.Lib

open Function (update update_of_ne update_self)

variable {α : Type}

/-- `cells[i]` of an array of `count`. -/
def load (count : Nat) (cells : Nat → α) (i : Nat) : Option α :=
  if i < count then some (cells i) else none

/-- `cells[i] = value` -/
def store (count : Nat) (cells : Nat → α) (i : Nat) (value : α) : Option (Nat → α) :=
  if i < count then some (update cells i value) else none

theorem load_inside {count i : Nat} (inside : i < count) (cells : Nat → α) :
    load count cells i = some (cells i) :=
  if_pos inside

theorem store_inside {count i : Nat} (inside : i < count) (cells : Nat → α) (value : α) :
    store count cells i value = some (update cells i value) :=
  if_pos inside

/-- What is in the window `[low, high)` is in another order, and the rest where it was. -/
def Rearranged (low high : Nat) (before after : Nat → α) : Prop :=
  ∃ order : Equiv.Perm Nat,
    (∀ i, i < low ∨ high ≤ i → order i = i) ∧ ∀ i, after i = before (order i)

namespace Rearranged

variable {low high : Nat} {first second third before after : Nat → α}

theorem refl (low high : Nat) (cells : Nat → α) : Rearranged low high cells cells :=
  ⟨Equiv.refl Nat, fun _ _ => rfl, fun _ => rfl⟩

theorem trans (front : Rearranged low high first second) (back : Rearranged low high second third) :
    Rearranged low high first third := by
  obtain ⟨frontOrder, frontFixed, frontIs⟩ := front
  obtain ⟨backOrder, backFixed, backIs⟩ := back
  refine ⟨backOrder.trans frontOrder, ?_, ?_⟩
  · intro i outside
    rw [Equiv.trans_apply, backFixed i outside, frontFixed i outside]
  · intro i
    rw [Equiv.trans_apply, backIs, frontIs]

section

variable (rearranged : Rearranged low high before after)
include rearranged

theorem widen {wideLow wideHigh : Nat} (lower : wideLow ≤ low) (upper : high ≤ wideHigh) :
    Rearranged wideLow wideHigh before after := by
  obtain ⟨order, fixed, is⟩ := rearranged
  refine ⟨order, fun i outside => fixed i ?_, is⟩
  cases outside with
  | inl below => exact .inl (Nat.lt_of_lt_of_le below lower)
  | inr above => exact .inr (Nat.le_trans upper above)

theorem outside {i : Nat} (out : i < low ∨ high ≤ i) : after i = before i := by
  obtain ⟨order, fixed, is⟩ := rearranged
  rw [is, fixed i out]

theorem source {i : Nat} (lower : low ≤ i)
    (upper : i < high) : ∃ j, low ≤ j ∧ j < high ∧ after i = before j := by
  obtain ⟨order, fixed, is⟩ := rearranged
  refine ⟨order i, ?_, ?_, is i⟩
  · by_contra below
    have same := order.injective (fixed (order i) (.inl (Nat.lt_of_not_le below)))
    omega
  · by_contra above
    have same := order.injective (fixed (order i) (.inr (Nat.le_of_not_lt above)))
    omega

end

theorem swap {i j : Nat} (cells : Nat → α) (iLow : low ≤ i) (iHigh : i < high) (jLow : low ≤ j)
    (jHigh : j < high) : Rearranged low high cells fun k => cells (Equiv.swap i j k) := by
  refine ⟨Equiv.swap i j, fun k out => Equiv.swap_apply_of_ne_of_ne ?_ ?_, fun _ => rfl⟩
  · omega
  · omega

theorem move_hole {i j : Nat} (cells : Nat → α) (value : α) (differ : i ≠ j) (iLow : low ≤ i)
    (iHigh : i < high) (jLow : low ≤ j) (jHigh : j < high) :
    Rearranged low high (update cells i value)
      (update (update cells i (cells j)) j value) := by
  have same : update (update cells i (cells j)) j value =
      fun k => update cells i value (Equiv.swap i j k) := by
    funext k
    by_cases atJ : k = j
    · rw [atJ, update_self, Equiv.swap_apply_right, update_self]
    · rw [update_of_ne atJ]
      by_cases atI : k = i
      · rw [atI, update_self, Equiv.swap_apply_left,
          update_of_ne (Ne.symm differ)]
      · rw [update_of_ne atI, Equiv.swap_apply_of_ne_of_ne atI atJ,
          update_of_ne atI]
  rw [same]
  exact swap _ iLow iHigh jLow jHigh

end Rearranged

/-- The cells with `[base, base + count)` taken from a part. -/
def splice (base count : Nat) (cells part : Nat → α) : Nat → α :=
  fun i => if base ≤ i ∧ i < base + count then part (i - base) else cells i

theorem splice_inside {base count i : Nat} (lower : base ≤ i) (upper : i < base + count)
    (cells part : Nat → α) : splice base count cells part i = part (i - base) :=
  if_pos ⟨lower, upper⟩

theorem splice_outside {base count i : Nat} (out : i < base ∨ base + count ≤ i)
    (cells part : Nat → α) : splice base count cells part i = cells i :=
  if_neg (by omega)

theorem Rearranged.splice {base count : Nat} {cells part : Nat → α}
    (rearranged : Rearranged 0 count (fun i => cells (base + i)) part) :
    Rearranged base (base + count) cells (splice base count cells part) := by
  obtain ⟨order, fixed, is⟩ := rearranged
  have shifted : ∀ moved : Equiv.Perm Nat, (∀ i, i < 0 ∨ count ≤ i → moved i = i) →
      ∀ i, i < base + count → base ≤ i → base + moved (i - base) < base + count := by
    intro moved still i upper lower
    by_contra large
    have same := moved.injective (still (moved (i - base)) (.inr (by omega)))
    omega
  have back : ∀ i, i < 0 ∨ count ≤ i → order.symm i = i := by
    intro i out
    rw [Equiv.symm_apply_eq, fixed i out]
  let move (moved : Equiv.Perm Nat) (i : Nat) : Nat :=
    if base ≤ i ∧ i < base + count then base + moved (i - base) else i
  have inverse : ∀ moved other : Equiv.Perm Nat, (∀ i, i < 0 ∨ count ≤ i → moved i = i) →
      (∀ i, other (moved i) = i) → ∀ i, move other (move moved i) = i := by
    intro moved other still undo i
    by_cases inside : base ≤ i ∧ i < base + count
    · have upper := shifted moved still i inside.2 inside.1
      simp only [move, if_pos inside]
      rw [if_pos ⟨Nat.le_add_right _ _, upper⟩, Nat.add_sub_cancel_left, undo]
      omega
    · simp only [move, if_neg inside]
  refine ⟨⟨move order, move order.symm, inverse order order.symm fixed order.symm_apply_apply,
    inverse order.symm order back order.apply_symm_apply⟩, ?_, ?_⟩
  · intro i out
    exact if_neg (by omega)
  · intro i
    show Lib.splice base count cells part i = cells (move order i)
    by_cases inside : base ≤ i ∧ i < base + count
    · simp only [move, if_pos inside]
      rw [splice_inside inside.1 inside.2, is]
    · simp only [move, if_neg inside]
      exact splice_outside (by omega) cells part

section Apart

variable {Task : Type}

def runAll (run : (Nat → α) → Task → Option (Nat → α)) : List Task → (Nat → α) → Option (Nat → α)
  | [], cells => some cells
  | task :: rest, cells =>
    match run cells task with
    | none => none
    | some next => runAll run rest next

structure TaskSpec (α Task : Type) where
  touches : Task → Nat → Prop
  ready : Task → (Nat → α) → Prop
  done : Task → (Nat → α) → Prop
  readyCongr : ∀ {task first second}, (∀ i, touches task i → second i = first i) →
    ready task first → ready task second
  doneCongr : ∀ {task first second}, (∀ i, touches task i → second i = first i) →
    done task first → done task second

def TaskSpec.Works (spec : TaskSpec α Task) (count : Nat)
    (run : (Nat → α) → Task → Option (Nat → α)) : Prop :=
  ∀ cells task, spec.ready task cells → ∃ after, run cells task = some after ∧
    Rearranged 0 count cells after ∧ (∀ i, ¬ spec.touches task i → after i = cells i) ∧
    spec.done task after

def TaskSpec.Apart (spec : TaskSpec α Task) (first second : Task) : Prop :=
  ∀ i, spec.touches first i → ¬ spec.touches second i

theorem TaskSpec.Works.runAll {spec : TaskSpec α Task} {count : Nat}
    {run : (Nat → α) → Task → Option (Nat → α)} (works : spec.Works count run) {tasks : List Task}
    (apart : tasks.Pairwise spec.Apart) (cells : Nat → α)
    (ready : ∀ task ∈ tasks, spec.ready task cells) :
    ∃ after, runAll run tasks cells = some after ∧ Rearranged 0 count cells after ∧
      (∀ i, (∀ task ∈ tasks, ¬ spec.touches task i) → after i = cells i) ∧
      ∀ task ∈ tasks, spec.done task after := by
  induction tasks generalizing cells with
  | nil => exact ⟨cells, rfl, .refl 0 count cells, fun _ _ => rfl, nofun⟩
  | cons task rest ih =>
    obtain ⟨first, later⟩ := List.pairwise_cons.mp apart
    obtain ⟨next, ran, moved, frame, done⟩ := works cells task (ready task (List.mem_cons_self ..))
    have untouched : ∀ other ∈ rest, ∀ i, spec.touches other i → next i = cells i :=
      fun other listed i touched => frame i fun own => first other listed i own touched
    obtain ⟨after, ranRest, movedRest, frameRest, doneRest⟩ := ih later next
      fun other listed =>
        spec.readyCongr (untouched other listed) (ready other (List.mem_cons_of_mem _ listed))
    refine ⟨after, ?_, moved.trans movedRest, ?_, ?_⟩
    · rw [Lib.runAll, ran]
      exact ranRest
    · intro i never
      rw [frameRest i fun other listed => never other (List.mem_cons_of_mem _ listed),
        frame i (never task (List.mem_cons_self ..))]
    · intro other listed
      cases List.mem_cons.mp listed with
      | inl same =>
        subst same
        refine spec.doneCongr (fun i touched => ?_) done
        exact frameRest i fun another anotherListed => first another anotherListed i touched
      | inr inRest => exact doneRest other inRest

end Apart

/-- The cells of `[low, high)` ascend. -/
def Ascending [LE α] (low high : Nat) (cells : Nat → α) : Prop :=
  ∀ i j, low ≤ i → i < j → j < high → cells i ≤ cells j

structure Sorts [LE α] (count : Nat) (before after : Nat → α) : Prop where
  ascending : Ascending 0 count after
  rearranged : Rearranged 0 count before after

end Qthreads.Lib
