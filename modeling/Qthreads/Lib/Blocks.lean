import Mathlib.Data.Int.CardIntervalMod

namespace Qthreads.Lib

open Function (update update_of_ne update_self)

/-! Things counted from zero on are dealt in blocks, the first few of which are longer by one, or in
turns. -/

/-- How many of the first `total` things fall to a hand. -/
def held (total : Nat) (hand : Nat → Nat) (x : Nat) : Nat :=
  ((Finset.range total).filter fun s => hand s = x).card

/-- The hands of the first `total` things differ by one thing at most. -/
def Even (total hands : Nat) (hand : Nat → Nat) : Prop :=
  ∀ x < hands, ∀ y < hands, held total hand x ≤ held total hand y + 1

variable {size longer s t x : Nat}

theorem held_congr {total : Nat} {hand other : Nat → Nat} (same : ∀ s < total, hand s = other s) :
    held total hand = held total other := by
  funext x
  unfold held
  congr 1
  refine Finset.filter_congr fun s inside => ?_
  rw [same s (Finset.mem_range.mp inside)]

theorem held_succ (total : Nat) (hand : Nat → Nat) (x : Nat) :
    held (total + 1) hand x = held total hand x + if hand total = x then 1 else 0 := by
  simp only [held, Finset.range_add_one, Finset.filter_insert]
  split_ifs with same
  · rw [Finset.card_insert_of_notMem (by simp)]
  · rfl

theorem held_const (total y x : Nat) : held total (fun _ => y) x = if y = x then total else 0 := by
  induction total with
  | zero => simp [held]
  | succ total induction =>
    rw [held_succ, induction]
    split_ifs <;> omega

theorem held_update {total k : Nat} (hand : Nat → Nat) (inside : k < total) (y x : Nat) :
    held total (update hand k y) x + (if hand k = x then 1 else 0) =
      held total hand x + if y = x then 1 else 0 := by
  induction total with
  | zero => omega
  | succ total induction =>
    rw [held_succ, held_succ]
    rcases Nat.lt_succ_iff_lt_or_eq.mp inside with earlier | rfl
    · rw [update_of_ne (Nat.ne_of_gt earlier)]
      have := induction earlier
      omega
    · have before : held k (update hand k y) = held k hand :=
        held_congr fun s less => update_of_ne (Nat.ne_of_lt less) ..
      rw [update_self, before]
      omega

theorem even_of_held {total hands : Nat} {hand : Nat → Nat} (base : Nat) (more : Nat → Prop)
    [DecidablePred more] (each : ∀ x < hands, held total hand x = base + if more x then 1 else 0) :
    Even total hands hand := by
  intro x first y second
  rw [each x first, each y second]
  split_ifs <;> omega

def blockOf (size longer s : Nat) : Nat :=
  if s / (size + 1) < longer then s / (size + 1) else (s - longer) / size

def blockStart (size longer x : Nat) : Nat := x * size + min x longer

theorem blockStart_succ (size longer x : Nat) :
    blockStart size longer (x + 1) = blockStart size longer x + size + if x < longer then 1 else 0 := by
  simp only [blockStart, Nat.add_one_mul]
  split_ifs <;> omega

theorem blockStart_mono (size longer : Nat) : Monotone (blockStart size longer) :=
  monotone_nat_of_le_succ fun x => by
    rw [blockStart_succ]
    omega

theorem blockStart_blockOf (positive : 0 < size) (longer s : Nat) :
    blockStart size longer (blockOf size longer s) ≤ s ∧
      s < blockStart size longer (blockOf size longer s + 1) := by
  by_cases inside : s / (size + 1) < longer
  · have block : blockOf size longer s = s / (size + 1) := if_pos inside
    rw [block, blockStart_succ, if_pos inside, blockStart, Nat.min_eq_left (Nat.le_of_lt inside)]
    have divided := Nat.div_add_mod s (size + 1)
    have below := Nat.mod_lt s (show 0 < size + 1 by omega)
    have spread : (size + 1) * (s / (size + 1)) = s / (size + 1) * size + s / (size + 1) := by ring
    omega
  · have block : blockOf size longer s = (s - longer) / size := if_neg inside
    have past : longer * (size + 1) ≤ s := by
      rw [← Nat.le_div_iff_mul_le (show 0 < size + 1 by omega)]
      omega
    have spread : longer * (size + 1) = longer * size + longer := by ring
    have reached : longer ≤ (s - longer) / size := by
      rw [Nat.le_div_iff_mul_le positive]
      omega
    rw [block, blockStart_succ, if_neg (Nat.not_lt.mpr reached), blockStart, Nat.min_eq_right reached]
    have divided := Nat.div_add_mod (s - longer) size
    have below := Nat.mod_lt (s - longer) positive
    have turned : size * ((s - longer) / size) = (s - longer) / size * size := Nat.mul_comm ..
    omega

theorem blockOf_eq_iff (positive : 0 < size) :
    blockOf size longer s = x ↔ blockStart size longer x ≤ s ∧ s < blockStart size longer (x + 1) := by
  obtain ⟨low, high⟩ := blockStart_blockOf positive longer s
  constructor
  · rintro rfl
    exact ⟨low, high⟩
  · rintro ⟨from_, upTo⟩
    by_contra apart
    rcases Nat.lt_or_gt_of_ne apart with before | before
    · have := blockStart_mono size longer before
      simp only [Nat.succ_eq_add_one] at this
      omega
    · have := blockStart_mono size longer before
      simp only [Nat.succ_eq_add_one] at this
      omega

theorem blockOf_mono (positive : 0 < size) (order : s ≤ t) :
    blockOf size longer s ≤ blockOf size longer t := by
  by_contra less
  have first := blockStart_blockOf positive longer s
  have second := blockStart_blockOf positive longer t
  have := blockStart_mono size longer (show blockOf size longer t + 1 ≤ blockOf size longer s by omega)
  omega

variable {hands total : Nat}

theorem blockStart_last (positive : 0 < hands) :
    blockStart (total / hands) (total % hands) hands = total := by
  have below := Nat.mod_lt total positive
  rw [blockStart, Nat.min_eq_right (Nat.le_of_lt below)]
  exact Nat.div_add_mod total hands

theorem blockOf_lt (positive : 0 < hands) (enough : hands ≤ total) (inside : s < total) :
    blockOf (total / hands) (total % hands) s < hands := by
  have size : 0 < total / hands := Nat.div_pos enough positive
  by_contra past
  have first := (blockStart_blockOf size (total % hands) s).1
  have last := blockStart_mono (total / hands) (total % hands) (Nat.le_of_not_lt past)
  rw [blockStart_last positive] at last
  omega

theorem held_blockOf (positive : 0 < hands) (enough : hands ≤ total) (inside : x < hands) :
    held total (blockOf (total / hands) (total % hands)) x =
      total / hands + if x < total % hands then 1 else 0 := by
  have size : 0 < total / hands := Nat.div_pos enough positive
  have last := blockStart_mono (total / hands) (total % hands) (Nat.succ_le_of_lt inside)
  rw [blockStart_last positive] at last
  have block : (Finset.range total).filter
      (fun s => blockOf (total / hands) (total % hands) s = x) =
      Finset.Ico (blockStart (total / hands) (total % hands) x)
        (blockStart (total / hands) (total % hands) (x + 1)) := by
    ext s
    rw [Finset.mem_filter, Finset.mem_range, Finset.mem_Ico, blockOf_eq_iff size]
    simp only [Nat.succ_eq_add_one] at last
    omega
  rw [held, block, Nat.card_Ico, blockStart_succ]
  omega

theorem held_mod (positive : 0 < hands) (inside : x < hands) :
    held total (· % hands) x = total / hands + if x < total % hands then 1 else 0 := by
  have turns := Nat.count_modEq_card total positive x
  rw [Nat.count_eq_card_filter_range, Nat.mod_eq_of_lt inside] at turns
  rw [← turns, held]
  congr 1
  refine Finset.filter_congr fun s _ => ?_
  rw [Nat.ModEq, Nat.mod_eq_of_lt inside]

end Qthreads.Lib
