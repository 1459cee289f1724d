import Mathlib.Algebra.GroupWithZero.Nat
import Mathlib.Algebra.Order.BigOperators.Group.List
import Mathlib.Algebra.Order.Group.Nat
import Mathlib.Data.List.Count
import Mathlib.Data.List.Nodup

namespace Qthreads.Lib

open Function (update update_of_ne update_self)

/-! A number is spread over slots; the slots whose share is not zero are busy. -/

variable {Slot : Type} {slots : List Slot} {shares : Slot → Nat} {slot : Slot}

def total (slots : List Slot) (shares : Slot → Nat) : Nat := (slots.map shares).sum

def busy (slots : List Slot) (shares : Slot → Nat) : Nat := slots.countP fun slot => shares slot ≠ 0

def busyIn (share : Nat) : Nat := if share ≠ 0 then 1 else 0

theorem busy_cons : busy (slot :: slots) shares = busy slots shares + busyIn (shares slot) := by
  rw [busy, busy, busyIn, List.countP_cons]
  by_cases zero : shares slot = 0
  · simp [zero]
  · simp [zero]

theorem share_le_total (shares : Slot → Nat) (inside : slot ∈ slots) : shares slot ≤ total slots shares :=
  List.le_sum_of_mem (List.mem_map_of_mem inside)

theorem busy_le_total : busy slots shares ≤ total slots shares := by
  induction slots with
  | nil => exact Nat.le_refl 0
  | cons first rest ih =>
    rw [total, List.map_cons, List.sum_cons]
    rw [total] at ih
    rw [busy_cons, busyIn]
    split <;> omega

theorem total_eq_zero_iff : total slots shares = 0 ↔ ∀ slot ∈ slots, shares slot = 0 := by
  rw [total, List.sum_eq_zero_iff]
  constructor
  · intro zeros slot inside
    exact zeros _ (List.mem_map_of_mem inside)
  · intro zeros share listed
    obtain ⟨slot, inside, rfl⟩ := List.mem_map.mp listed
    exact zeros slot inside

theorem busy_eq_zero_iff : busy slots shares = 0 ↔ total slots shares = 0 := by
  rw [busy, List.countP_eq_zero, total_eq_zero_iff]
  constructor
  · intro never slot inside
    have idle := never slot inside
    simpa using idle
  · intro zeros slot inside
    simp [zeros slot inside]

theorem exists_share (positive : 0 < total slots shares) : ∃ slot ∈ slots, shares slot ≠ 0 := by
  by_contra absent
  have zero : total slots shares = 0 :=
    total_eq_zero_iff.mpr fun slot inside => by_contra fun nonzero => absent ⟨slot, inside, nonzero⟩
  omega

theorem total_congr {other : Slot → Nat} (same : ∀ slot ∈ slots, shares slot = other slot) :
    total slots shares = total slots other :=
  congrArg List.sum (List.map_congr_left same)

theorem busy_congr {other : Slot → Nat} (same : ∀ slot ∈ slots, shares slot = other slot) :
    busy slots shares = busy slots other :=
  List.countP_congr fun slot inside => by rw [same slot inside]

section Update

variable [DecidableEq Slot] {share : Nat}

theorem total_update (distinct : slots.Nodup) (inside : slot ∈ slots) :
    total slots (update shares slot share) + shares slot =
      total slots shares + share := by
  induction slots with
  | nil => cases inside
  | cons first rest ih =>
    obtain ⟨fresh, distinct⟩ := List.nodup_cons.mp distinct
    rw [total, total, List.map_cons, List.map_cons, List.sum_cons, List.sum_cons]
    by_cases same : slot = first
    · subst same
      have others : rest.map (update shares slot share) = rest.map shares :=
        List.map_congr_left fun other listed =>
          update_of_ne (fun equal : other = slot => fresh (equal ▸ listed)) _ _
      rw [others, update_self]
      omega
    · have later := ih distinct ((List.mem_cons.mp inside).resolve_left same)
      rw [update_of_ne (Ne.symm same)]
      rw [total, total] at later
      omega

theorem busy_update (distinct : slots.Nodup) (inside : slot ∈ slots) :
    busy slots (update shares slot share) + busyIn (shares slot) =
      busy slots shares + busyIn share := by
  induction slots with
  | nil => cases inside
  | cons first rest ih =>
    obtain ⟨fresh, distinct⟩ := List.nodup_cons.mp distinct
    rw [busy_cons, busy_cons]
    by_cases same : slot = first
    · subst same
      have others : busy rest (update shares slot share) = busy rest shares :=
        busy_congr fun other listed =>
          update_of_ne (fun equal : other = slot => fresh (equal ▸ listed)) _ _
      rw [others, update_self]
      omega
    · have later := ih distinct ((List.mem_cons.mp inside).resolve_left same)
      rw [update_of_ne (Ne.symm same)]
      omega

theorem total_gain (shares : Slot → Nat) (distinct : slots.Nodup) (inside : slot ∈ slots) (more : Nat) :
    total slots (update shares slot (shares slot + more)) = total slots shares + more := by
  have moved := @total_update _ slots shares slot _ (shares slot + more) distinct inside
  omega

theorem total_loss (distinct : slots.Nodup) (inside : slot ∈ slots) (positive : 0 < shares slot) :
    total slots (update shares slot (shares slot - 1)) + 1 = total slots shares := by
  have moved := @total_update _ slots shares slot _ (shares slot - 1) distinct inside
  omega

theorem busy_gain (shares : Slot → Nat) (distinct : slots.Nodup) (inside : slot ∈ slots) {more : Nat} (positive : 0 < more) :
    busy slots (update shares slot (shares slot + more)) =
      busy slots shares + if shares slot = 0 then 1 else 0 := by
  have moved := @busy_update _ slots shares slot _ (shares slot + more) distinct inside
  rw [busyIn, busyIn] at moved
  split_ifs at moved ⊢ <;> omega

theorem busy_loss (distinct : slots.Nodup) (inside : slot ∈ slots) (positive : 0 < shares slot) :
    (busy slots (update shares slot (shares slot - 1)) + if shares slot = 1 then 1 else 0) =
      busy slots shares := by
  have moved := @busy_update _ slots shares slot _ (shares slot - 1) distinct inside
  rw [busyIn, busyIn] at moved
  split_ifs at moved ⊢ <;> omega

theorem total_eq_one_iff (distinct : slots.Nodup) (inside : slot ∈ slots)
    (positive : 0 < shares slot) :
    total slots shares = 1 ↔ shares slot = 1 ∧ busy slots shares = 1 := by
  have less := total_loss distinct inside positive
  have fewer := busy_loss distinct inside positive
  have zero := @busy_eq_zero_iff _ slots (update shares slot (shares slot - 1))
  have nonzero : busy slots shares ≠ 0 := by
    intro isZero
    have empty := busy_eq_zero_iff.mp isZero
    omega
  constructor
  · intro one
    have isZero := zero.mpr (by omega)
    split at fewer <;> omega
  · intro ⟨one, single⟩
    rw [if_pos one] at fewer
    have isZero := zero.mp (by omega)
    omega

variable {Stored : Type}

/-- Every slot in order gets `per`, and one more while extras remain. -/
def distribute (store : Nat → Stored) (per : Nat) : Nat → List Slot → (Slot → Stored) → Slot → Stored
  | _, [], counts => counts
  | extras, slot :: rest, counts =>
    distribute store per (extras - 1) rest
      (update counts slot (store (if 0 < extras then per + 1 else per)))

theorem distribute_away (store : Nat → Stored) (per extras : Nat) (counts : Slot → Stored)
    (outside : slot ∉ slots) : distribute store per extras slots counts slot = counts slot := by
  induction slots generalizing extras counts with
  | nil => rfl
  | cons first rest ih =>
    obtain ⟨differs, later⟩ := not_or.mp (mt List.mem_cons.mpr outside)
    rw [distribute, ih _ _ later, update_of_ne differs]

theorem distribute_spec (store : Nat → Stored) (per extras : Nat) (counts : Slot → Stored)
    (distinct : slots.Nodup) (few : extras ≤ slots.length) :
    ∃ shares : Slot → Nat,
      (∀ slot ∈ slots, distribute store per extras slots counts slot = store (shares slot)) ∧
      total slots shares = per * slots.length + extras ∧
      busy slots shares = if 0 < per then slots.length else extras := by
  induction slots generalizing extras counts with
  | nil =>
    have zero : extras = 0 := Nat.le_zero.mp few
    refine ⟨fun _ => 0, nofun, by rw [zero]; rfl, ?_⟩
    rw [zero, List.length_nil, ite_self]
    rfl
  | cons first rest ih =>
    obtain ⟨fresh, distinct⟩ := List.nodup_cons.mp distinct
    rw [List.length_cons] at few
    obtain ⟨shares, stored, sum, many⟩ := ih (extras - 1)
      (update counts first (store (if 0 < extras then per + 1 else per))) distinct
      (by omega)
    have others : ∀ slot ∈ rest,
        shares slot = update shares first (if 0 < extras then per + 1 else per) slot :=
      fun slot listed => (update_of_ne (fun same : slot = first => fresh (same ▸ listed)) _ _).symm
    refine ⟨update shares first (if 0 < extras then per + 1 else per), ?_, ?_, ?_⟩
    · intro slot listed
      by_cases same : slot = first
      · rw [same, distribute, distribute_away _ _ _ _ fresh, update_self,
          update_self]
      · rw [update_of_ne same, distribute]
        exact stored slot ((List.mem_cons.mp listed).resolve_left same)
    · rw [total, List.map_cons, List.sum_cons, update_self]
      have rest_ := (total_congr others).symm.trans sum
      rw [total] at rest_
      rw [rest_, List.length_cons, Nat.mul_succ]
      split <;> omega
    · rw [busy_cons, update_self, ← busy_congr others, many, busyIn, List.length_cons]
      split_ifs <;> omega

theorem distribute_even (store : Nat → Stored) (count : Nat) (counts : Slot → Stored)
    (distinct : slots.Nodup) (positive : 0 < slots.length) :
    ∃ shares : Slot → Nat,
      (∀ slot ∈ slots, distribute store (count / slots.length) (count % slots.length) slots counts
        slot = store (shares slot)) ∧
      total slots shares = count ∧
      busy slots shares =
        if 0 < count / slots.length then slots.length else count % slots.length := by
  obtain ⟨shares, stored, sum, many⟩ := distribute_spec store (count / slots.length)
    (count % slots.length) counts distinct (Nat.le_of_lt (Nat.mod_lt _ positive))
  refine ⟨shares, stored, sum.trans ?_, many⟩
  rw [Nat.mul_comm]
  exact Nat.div_add_mod _ _

end Update

end Qthreads.Lib
