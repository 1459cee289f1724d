import Mathlib.Data.List.Basic
import Mathlib.Data.List.Pairwise

namespace Qthreads.Lib

variable {α : Type} {cells : Nat → List α} {i j stop : Nat} {x : α}

/-- The first cell from `i` on that is not empty. -/
def firstFull (cells : Nat → List α) (i stop : Nat) : Option Nat :=
  (List.range' i (stop - i)).find? fun j => !(cells j).isEmpty

/-- The cells from `i` on that are not empty. -/
def fullCells (cells : Nat → List α) (i stop : Nat) : List (List α) :=
  ((List.range' i (stop - i)).map cells).filter fun cell => !cell.isEmpty

theorem range_step (below : i < stop) :
    List.range' i (stop - i) = i :: List.range' (i + 1) (stop - (i + 1)) := by
  obtain ⟨room, size⟩ : ∃ room, stop - i = room + 1 := ⟨stop - i - 1, by omega⟩
  rw [size, List.range'_succ, show stop - (i + 1) = room by omega]

theorem firstFull_stop (past : stop ≤ i) : firstFull cells i stop = none := by
  simp [firstFull, Nat.sub_eq_zero_of_le past]

theorem fullCells_stop (past : stop ≤ i) : fullCells cells i stop = [] := by
  simp [fullCells, Nat.sub_eq_zero_of_le past]

theorem firstFull_empty (below : i < stop) (empty : cells i = []) :
    firstFull cells i stop = firstFull cells (i + 1) stop := by
  simp [firstFull, range_step below, empty]

theorem fullCells_empty (below : i < stop) (empty : cells i = []) :
    fullCells cells i stop = fullCells cells (i + 1) stop := by
  simp [fullCells, range_step below, empty]

theorem firstFull_full (below : i < stop) (full : cells i ≠ []) :
    firstFull cells i stop = some i := by
  simp [firstFull, range_step below, full]

theorem fullCells_full (below : i < stop) (full : cells i ≠ []) :
    fullCells cells i stop = cells i :: fullCells cells (i + 1) stop := by
  simp [fullCells, range_step below, full]

theorem fullCells_nil (nothing : fullCells cells i stop = []) :
    fullCells cells (i + 1) stop = [] := by
  by_cases below : i < stop
  · by_cases empty : cells i = []
    · rw [← fullCells_empty below empty]
      exact nothing
    · rw [fullCells_full below empty] at nothing
      cases nothing
  · exact fullCells_stop (by omega)

theorem firstFull_none (absent : firstFull cells i stop = none) : fullCells cells i stop = [] := by
  rw [firstFull, List.find?_eq_none] at absent
  rw [fullCells, List.filter_eq_nil_iff]
  intro cell member
  obtain ⟨j, inside, rfl⟩ := List.mem_map.mp member
  exact absent j inside

theorem firstFull_some (found : firstFull cells i stop = some j) :
    i ≤ j ∧ j < stop ∧ cells j ≠ [] ∧
      fullCells cells i stop = cells j :: fullCells cells (j + 1) stop := by
  induction room : stop - i generalizing i with
  | zero =>
    rw [firstFull_stop (Nat.sub_eq_zero_iff_le.mp room)] at found
    cases found
  | succ room ih =>
    have below : i < stop := by omega
    by_cases empty : cells i = []
    · rw [firstFull_empty below empty] at found
      obtain ⟨lower, upper, full, rest⟩ := ih found (by omega)
      exact ⟨by omega, upper, full, by rw [fullCells_empty below empty, rest]⟩
    · rw [firstFull_full below empty] at found
      cases found
      exact ⟨Nat.le_refl _, below, empty, fullCells_full below empty⟩

theorem firstFull_none_empty (absent : firstFull cells i stop = none) (lower : i ≤ j)
    (upper : j < stop) : cells j = [] := by
  rw [firstFull, List.find?_eq_none] at absent
  simpa using absent j (List.mem_range'_1.mpr ⟨lower, by omega⟩)

theorem firstFull_before (found : firstFull cells i stop = some j) {k : Nat} (lower : i ≤ k)
    (upper : k < j) : cells k = [] := by
  induction room : stop - i generalizing i with
  | zero =>
    rw [firstFull_stop (Nat.sub_eq_zero_iff_le.mp room)] at found
    cases found
  | succ room ih =>
    have below : i < stop := by omega
    by_cases empty : cells i = []
    · rw [firstFull_empty below empty] at found
      rcases Nat.eq_or_lt_of_le lower with rfl | later
      · exact empty
      · exact ih found later (by omega)
    · rw [firstFull_full below empty] at found
      cases found
      omega

theorem fullCells_skip (le : i ≤ j) (skipped : ∀ k, i ≤ k → k < j → cells k = []) :
    fullCells cells i stop = fullCells cells j stop := by
  obtain ⟨passed, rfl⟩ := Nat.exists_eq_add_of_le le
  induction passed with
  | zero => rfl
  | succ passed ih =>
    rw [ih (Nat.le_add_right _ _) fun k lower upper => skipped k lower (by omega)]
    by_cases below : i + passed < stop
    · exact fullCells_empty below (skipped (i + passed) (by omega) (by omega))
    · rw [fullCells_stop (by omega), fullCells_stop (by omega)]

theorem mem_fullCells :
    x ∈ (fullCells cells i stop).flatten ↔ ∃ j, i ≤ j ∧ j < stop ∧ x ∈ cells j := by
  simp only [fullCells, List.mem_flatten, List.mem_filter, List.mem_map, List.mem_range'_1]
  constructor
  · rintro ⟨cell, ⟨⟨j, inside, rfl⟩, -⟩, member⟩
    exact ⟨j, inside.1, by omega, member⟩
  · rintro ⟨j, lower, upper, member⟩
    refine ⟨cells j, ⟨⟨j, by omega, rfl⟩, ?_⟩, member⟩
    cases cell : cells j with
    | nil => simp [cell] at member
    | cons => rfl

theorem fullCells_nonempty : ∀ cell ∈ fullCells cells i stop, cell ≠ [] := by
  intro cell member
  simpa using (List.mem_filter.mp member).2

theorem fullCells_pairwise {R : α → α → Prop} (inner : ∀ j, (cells j).Pairwise R)
    (outer : ∀ j k, j ≠ k → ∀ a ∈ cells j, ∀ b ∈ cells k, R a b) :
    (fullCells cells i stop).flatten.Pairwise R := by
  rw [List.pairwise_flatten]
  constructor
  · intro cell member
    obtain ⟨j, -, rfl⟩ := List.mem_map.mp (List.mem_of_mem_filter member)
    exact inner j
  · refine List.Pairwise.filter _ (List.pairwise_map.mpr ?_)
    have nodup : (List.range' i (stop - i)).Nodup := List.nodup_range'
    exact nodup.imp fun apart => outer _ _ apart

end Qthreads.Lib
