import Mathlib.Algebra.Group.Nat.Defs
import Mathlib.Data.List.Nodup
import Mathlib.Data.List.Range

namespace Qthreads.Lib

/-! Ranges of numbers, each from its first number up to the one behind its last. -/

def Apart (range other : Nat × Nat) : Prop := range.2 ≤ other.1 ∨ other.2 ≤ range.1

structure Tiles (ranges : List (Nat × Nat)) (start stop : Nat) : Prop where
  nonempty : ∀ range ∈ ranges, range.1 < range.2
  apart : ranges.Pairwise Apart
  covers : ∀ i, (∃ range ∈ ranges, range.1 ≤ i ∧ i < range.2) ↔ start ≤ i ∧ i < stop

def indices (ranges : List (Nat × Nat)) : List Nat :=
  ranges.flatMap fun range => List.range' range.1 (range.2 - range.1)

theorem mem_indices {ranges : List (Nat × Nat)} {i : Nat} :
    i ∈ indices ranges ↔ ∃ range ∈ ranges, range.1 ≤ i ∧ i < range.2 := by
  simp only [indices, List.mem_flatMap, List.mem_range'_1]
  constructor
  · rintro ⟨range, member, least, less⟩
    exact ⟨range, member, least, by omega⟩
  · rintro ⟨range, member, least, less⟩
    exact ⟨range, member, least, by omega⟩

theorem indices_nodup {ranges : List (Nat × Nat)} (apart : ranges.Pairwise Apart) :
    (indices ranges).Nodup := by
  refine List.nodup_flatMap.mpr ⟨fun range _ => List.nodup_range', ?_⟩
  refine apart.imp ?_
  intro range other apart i first second
  rw [List.mem_range'_1] at first second
  rcases apart with before | before <;> omega

instance : Std.Symm Apart where
  symm _ _ apart := Or.symm apart

theorem Tiles.single {start stop : Nat} (less : start < stop) : Tiles [(start, stop)] start stop where
  nonempty := by
    intro range member
    rw [List.mem_singleton.mp member]
    exact less
  apart := List.pairwise_singleton ..
  covers := by
    intro i
    simp

section Windows

variable {mine : Nat → Prop} {size max count : Nat} {ranges : List (Nat × Nat)}

structure Windows (mine : Nat → Prop) (size max count : Nat) (ranges : List (Nat × Nat)) : Prop where
  each : ∀ range ∈ ranges, ∃ i, range.1 = count + i * size ∧ range.1 < max ∧ mine range.1 ∧
    range.2 = min (range.1 + size) max
  all : ∀ i, count + i * size < max → mine (count + i * size) →
    (count + i * size, min (count + i * size + size) max) ∈ ranges
  ordered : ranges.Pairwise fun range other => range.2 ≤ other.1

namespace Windows

theorem nil (never : ∀ i, count + i * size < max → ¬ mine (count + i * size)) :
    Windows mine size max count [] where
  each := nofun
  all := fun i less wanted => absurd wanted (never i less)
  ordered := .nil

theorem skip {skipped : Nat} (windows : Windows mine size max (count + skipped * size) ranges)
    (never : ∀ i < skipped, count + i * size < max → ¬ mine (count + i * size)) :
    Windows mine size max count ranges where
  each := by
    intro range member
    obtain ⟨i, start, less, wanted, stop⟩ := windows.each range member
    refine ⟨skipped + i, ?_, less, wanted, stop⟩
    rw [start, Nat.add_mul, Nat.add_assoc]
  all := by
    intro i less wanted
    by_cases early : i < skipped
    · exact absurd wanted (never i early less)
    · have place : count + skipped * size + (i - skipped) * size = count + i * size := by
        rw [Nat.add_assoc, ← Nat.add_mul, Nat.add_sub_cancel' (Nat.le_of_not_lt early)]
      rw [← place] at less wanted ⊢
      exact windows.all _ less wanted
  ordered := windows.ordered

theorem cons (less : count < max) (wanted : mine count)
    (windows : Windows mine size max (count + size) ranges) :
    Windows mine size max count ((count, min (count + size) max) :: ranges) where
  each := by
    intro range member
    rcases List.mem_cons.mp member with rfl | later
    · exact ⟨0, by simp, less, wanted, rfl⟩
    · obtain ⟨i, start, less, wanted, stop⟩ := windows.each range later
      refine ⟨i + 1, ?_, less, wanted, stop⟩
      rw [start, Nat.add_mul]
      omega
  all := by
    intro i less wanted
    cases i with
    | zero => simp
    | succ i =>
      have place : count + size + i * size = count + (i + 1) * size := by
        rw [Nat.add_mul]
        omega
      rw [← place] at less wanted ⊢
      exact List.mem_cons_of_mem _ (windows.all i less wanted)
  ordered := by
    refine List.pairwise_cons.mpr ⟨?_, windows.ordered⟩
    intro range member
    obtain ⟨i, start, -⟩ := windows.each range member
    simp only [start]
    omega

theorem cons_skip {skipped : Nat} (less : count < max) (wanted : mine count)
    (windows : Windows mine size max (count + (skipped + 1) * size) ranges)
    (never : ∀ i, 0 < i → i ≤ skipped → count + i * size < max → ¬ mine (count + i * size)) :
    Windows mine size max count ((count, min (count + size) max) :: ranges) := by
  have place (i : Nat) : count + size + i * size = count + (i + 1) * size := by
    rw [Nat.add_mul]
    omega
  rw [← place] at windows
  refine (windows.skip ?_).cons less wanted
  intro i early less
  rw [place] at less ⊢
  exact never (i + 1) (Nat.succ_pos i) early less

theorem tiles (windows : Windows mine size max count ranges) (positive : 0 < size)
    (wanted : ∀ i, count + i * size < max → mine (count + i * size)) : Tiles ranges count max where
  nonempty := by
    intro range member
    obtain ⟨i, start, less, -, stop⟩ := windows.each range member
    rw [stop]
    omega
  apart := windows.ordered.imp fun before => .inl before
  covers := by
    intro j
    constructor
    · rintro ⟨range, member, least, before⟩
      obtain ⟨i, start, -, -, stop⟩ := windows.each range member
      omega
    · rintro ⟨least, before⟩
      have div := Nat.div_add_mod (j - count) size
      have mod := Nat.mod_lt (j - count) positive
      have place : count + (j - count) / size * size ≤ j := by
        rw [Nat.mul_comm]
        omega
      refine ⟨_, windows.all ((j - count) / size) (by omega) (wanted _ (by omega)), place, ?_⟩
      rw [Nat.mul_comm] at place ⊢
      simp only
      omega

end Windows

theorem tiles_flatten {kinds : Nat} {all : Nat → List (Nat × Nat)} (mine : Nat → Nat → Prop)
    (positive : 0 < size) (windows : ∀ kind < kinds, Windows (mine kind) size max count (all kind))
    (one : ∀ kind other place, mine kind place → mine other place → kind = other)
    (dealt : ∀ i, count + i * size < max → ∃ kind < kinds, mine kind (count + i * size)) :
    Tiles ((List.range kinds).map all).flatten count max where
  nonempty := by
    intro range member
    obtain ⟨ranges, listed, member⟩ := List.mem_flatten.mp member
    obtain ⟨kind, less, rfl⟩ := List.mem_map.mp listed
    obtain ⟨i, start, less, -, stop⟩ := (windows kind (List.mem_range.mp less)).each range member
    rw [stop]
    omega
  apart := by
    refine List.pairwise_flatten.mpr ⟨?_, ?_⟩
    · intro ranges listed
      obtain ⟨kind, less, rfl⟩ := List.mem_map.mp listed
      exact (windows kind (List.mem_range.mp less)).ordered.imp fun before => .inl before
    · refine List.pairwise_map.mpr (List.nodup_range.imp_of_mem ?_)
      intro kind other first second differs range member next following
      obtain ⟨i, start, -, wanted, stop⟩ :=
        (windows kind (List.mem_range.mp first)).each range member
      obtain ⟨j, begin, -, also, finish⟩ :=
        (windows other (List.mem_range.mp second)).each next following
      have apart : i ≠ j := by
        rintro rfl
        rw [start] at wanted
        rw [begin] at also
        exact differs (one kind other _ wanted also)
      rcases Nat.lt_or_gt_of_ne apart with less | less
      · have step := Nat.mul_le_mul_right size (Nat.succ_le_of_lt less)
        rw [Nat.succ_mul] at step
        exact .inl (by omega)
      · have step := Nat.mul_le_mul_right size (Nat.succ_le_of_lt less)
        rw [Nat.succ_mul] at step
        exact .inr (by omega)
  covers := by
    intro j
    constructor
    · rintro ⟨range, member, least, before⟩
      obtain ⟨ranges, listed, member⟩ := List.mem_flatten.mp member
      obtain ⟨kind, less, rfl⟩ := List.mem_map.mp listed
      obtain ⟨i, start, -, -, stop⟩ := (windows kind (List.mem_range.mp less)).each range member
      omega
    · rintro ⟨least, before⟩
      have div := Nat.div_add_mod (j - count) size
      have mod := Nat.mod_lt (j - count) positive
      rw [Nat.mul_comm] at div
      have place : count + (j - count) / size * size ≤ j := by omega
      obtain ⟨kind, less, wanted⟩ := dealt ((j - count) / size) (by omega)
      refine ⟨_, List.mem_flatten.mpr ⟨_, List.mem_map.mpr ⟨kind, List.mem_range.mpr less, rfl⟩,
        (windows kind less).all _ (by omega) wanted⟩, place, ?_⟩
      simp only
      omega

end Windows

end Qthreads.Lib
