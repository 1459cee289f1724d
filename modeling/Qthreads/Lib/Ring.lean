import Mathlib.Data.Nat.ModEq

namespace Qthreads.Lib

def ringAt (size start steps : Nat) : Nat := (start + steps) % size

section Arithmetic

variable {size start i j : Nat}

theorem ringAt_lt (room : 0 < size) : ringAt size start i < size := Nat.mod_lt _ room

theorem ringAt_zero (inside : start < size) : ringAt size start 0 = start :=
  Nat.mod_eq_of_lt inside

theorem ringAt_size (inside : start < size) : ringAt size start size = start := by
  rw [ringAt, Nat.add_mod_right, Nat.mod_eq_of_lt inside]

theorem ringAt_ringAt : ringAt size (ringAt size start i) j = ringAt size start (i + j) := by
  rw [ringAt, ringAt, ringAt, Nat.mod_add_mod, Nat.add_assoc]

theorem ringAt_inj (left : i < size) (right : j < size)
    (same : ringAt size start i = ringAt size start j) : i = j := by
  have congruent : i ≡ j [MOD size] := Nat.ModEq.add_left_cancel' start same
  exact Nat.ModEq.eq_of_lt_of_lt congruent left right

theorem ringAt_ne (left : i < size) (right : j < size) (differs : i ≠ j) :
    ringAt size start i ≠ ringAt size start j :=
  fun same => differs (ringAt_inj left right same)

theorem ringAt_succ_eq_start_iff (inside : start < size) (fits : i < size) :
    ringAt size start (i + 1) = start ↔ i + 1 = size := by
  constructor
  · intro same
    by_cases full : i + 1 = size
    · exact full
    · have room : 0 < size := Nat.lt_of_le_of_lt (Nat.zero_le _) inside
      have less : i + 1 < size := Nat.lt_of_le_of_ne fits full
      have zero := ringAt_inj less room (same.trans (ringAt_zero inside).symm)
      exact absurd zero (Nat.succ_ne_zero i)
  · intro full
    rw [full, ringAt_size inside]

end Arithmetic

variable {α : Type*}

def Window (cells : Nat → α) (size : Nat) : Nat → List α → Prop
  | _, [] => True
  | start, first :: rest => cells start = first ∧ Window cells size (ringAt size start 1) rest

namespace Window

variable {cells : Nat → α} {size start : Nat} {front back list : List α}

theorem append_iff (inside : start < size) :
    Window cells size start (front ++ back) ↔
      Window cells size start front ∧ Window cells size (ringAt size start front.length) back := by
  induction front generalizing start with
  | nil =>
    rw [List.nil_append, List.length_nil, ringAt_zero inside]
    exact ⟨fun window => ⟨trivial, window⟩, fun both => both.2⟩
  | cons first rest ih =>
    have room : 0 < size := Nat.lt_of_le_of_lt (Nat.zero_le _) inside
    rw [List.cons_append, Window, Window, ih (ringAt_lt room), ringAt_ringAt, List.length_cons,
      Nat.add_comm 1, and_assoc]

theorem snoc_iff (inside : start < size) {last : α} :
    Window cells size start (front ++ [last]) ↔
      Window cells size start front ∧ cells (ringAt size start front.length) = last := by
  rw [append_iff inside, Window, Window, and_true]

theorem iff_get (inside : start < size) : Window cells size start list ↔
    ∀ i value, list[i]? = some value → cells (ringAt size start i) = value := by
  induction list generalizing start with
  | nil =>
    constructor
    · intro _ i value found
      cases found
    · exact fun _ => trivial
  | cons first rest ih =>
    have room : 0 < size := Nat.lt_of_le_of_lt (Nat.zero_le _) inside
    rw [Window, ih (ringAt_lt room)]
    constructor
    · intro both i value found
      cases i with
      | zero =>
        cases found
        rw [ringAt_zero inside]
        exact both.1
      | succ i =>
        have later := both.2 i value found
        rwa [ringAt_ringAt, Nat.add_comm] at later
    · intro each
      constructor
      · have here := each 0 first rfl
        rwa [ringAt_zero inside] at here
      · intro i value found
        rw [ringAt_ringAt, Nat.add_comm]
        exact each (i + 1) value found

theorem update (window : Window cells size start list) {cell : Nat} (value : α)
    (inside : start < size) (outside : ∀ i < list.length, ringAt size start i ≠ cell) :
    Window (Function.update cells cell value) size start list := by
  induction list generalizing start with
  | nil => trivial
  | cons first rest ih =>
    obtain ⟨here, later⟩ := window
    have room : 0 < size := Nat.lt_of_le_of_lt (Nat.zero_le _) inside
    have differs := outside 0 (Nat.succ_pos _)
    rw [ringAt_zero inside] at differs
    refine ⟨?_, ih later (ringAt_lt room) ?_⟩
    · rw [Function.update_of_ne differs]
      exact here
    · intro i less
      rw [ringAt_ringAt, Nat.add_comm]
      exact outside (i + 1) (Nat.succ_lt_succ less)

end Window

end Qthreads.Lib
