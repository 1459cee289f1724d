import Qthreads.Qalloc.Bitmap
import Mathlib.Data.Fin.Basic

namespace Qthreads.Qalloc

open Lib

variable {array : List Byte} {count i j k start byte : Nat} {value : Byte}

theorem lastPart_bit (low : k < 8) (below : j < 8) : (lastPart k).getMsbD j = decide (k ≤ j) := by
  have all : ∀ k j : Fin 8, (lastPart k).getMsbD j = decide (k.val ≤ j.val) := by decide
  exact all ⟨k, low⟩ ⟨j, below⟩

theorem firstPart_bit (low : k < 8) (below : j < 8) : (firstPart k).getMsbD j = decide (j ≤ k) := by
  have all : ∀ k j : Fin 8, (firstPart k).getMsbD j = decide (j.val ≤ k.val) := by decide
  exact all ⟨k, low⟩ ⟨j, below⟩

theorem topPart_bit (low : k < 8) (below : j < 8) :
    ((((0xff00#32 >>> k) &&& 0xff#32).setWidth 8 : Byte)).getMsbD j = decide (j < k) := by
  have all : ∀ k j : Fin 8, ((((0xff00#32 >>> k.val) &&& 0xff#32).setWidth 8 : Byte)).getMsbD j =
      decide (j.val < k.val) := by decide
  exact all ⟨k, low⟩ ⟨j, below⟩

theorem topPart_zero (low : k < 8) :
    value &&& (((0xff00#32 >>> k) &&& 0xff#32).setWidth 8) = 0 ↔ ∀ j < k, value.getMsbD j = false := by
  constructor
  · intro isZero j less
    have same := congrArg (fun byte : Byte => byte.getMsbD j) isZero
    simp only [BitVec.getMsbD_and] at same
    rw [topPart_bit low (by omega)] at same
    simpa [less] using same
  · intro zero
    refine BitVec.eq_of_getMsbD_eq fun j below => ?_
    rw [BitVec.getMsbD_and, topPart_bit low below]
    by_cases less : j < k
    · simp [zero j less]
    · simp [less]

theorem available_spec (even : value &&& 1 = 0) : 1 ≤ available value ∧ available value ≤ 8 ∧
    (∀ j < 8, 8 - available value ≤ j → value.getMsbD j = false) ∧
    (available value < 8 → value.getMsbD (7 - available value) = true) := by
  have all : ∀ value : Byte, value &&& 1 = 0 → 1 ≤ available value ∧ available value ≤ 8 ∧
      (∀ j < 8, 8 - available value ≤ j → value.getMsbD j = false) ∧
      (available value < 8 → value.getMsbD (7 - available value) = true) := by
    decide +kernel
  exact all value even

theorem odd_last (odd : value &&& 1 ≠ 0) : value.getMsbD 7 = true := by
  have all : ∀ value : Byte, value &&& 1 ≠ 0 → value.getMsbD 7 = true := by
    decide +kernel
  exact all value odd

theorem fill_length (array : List Byte) (value : Byte) (first last : Nat) :
    (fill array value first last).length = array.length := by
  have keeps : ∀ (places : List Nat) (array : List Byte),
      (places.foldl (fun array i => array.set i value) array).length = array.length := by
    intro places
    induction places with
    | nil => exact fun _ => rfl
    | cons first rest induction =>
      intro array
      rw [List.foldl_cons, induction, List.length_set]
  exact keeps _ array

theorem bit_set (inside : k < array.length) :
    bit (array.set k value) i = if i / 8 = k then value.getMsbD (i % 8) else bit array i := by
  rw [List.set_eq_modify, bit_modify _ inside]

theorem fill_bit (array : List Byte) (value : Byte) {first last : Nat} (inside : last ≤ array.length)
    (i : Nat) : bit (fill array value first last) i =
      if first ≤ i / 8 ∧ i / 8 < last then value.getMsbD (i % 8) else bit array i := by
  have each : ∀ (count : Nat) (first : Nat) (array : List Byte), first + count ≤ array.length →
      bit ((List.range' first count).foldl (fun array i => array.set i value) array) i =
        if first ≤ i / 8 ∧ i / 8 < first + count then value.getMsbD (i % 8) else bit array i := by
    intro count
    induction count with
    | zero =>
      intro first array _
      rw [if_neg (by omega)]
      rfl
    | succ count induction =>
      intro first array room
      rw [List.range'_succ, List.foldl_cons, induction (first + 1) _ (by rw [List.length_set]; omega),
        bit_set (by omega)]
      split_ifs <;> first | rfl | omega
  by_cases atLeast : first ≤ last
  · rw [fill, each _ _ _ (by omega)]
    have same : first + (last - first) = last := by omega
    rw [same]
  · have isZero : last - first = 0 := by omega
    rw [fill, isZero, if_neg (by omega)]
    rfl

theorem offset_eq (i : Nat) : i - i / 8 * 8 = i % 8 := by omega

theorem mod_lt (i : Nat) : i % 8 < 8 := Nat.mod_lt i (by decide)

theorem byte_written {f : Byte → Byte} {value : Bool} (positive : 0 < count)
    (inside : start + count ≤ 8 * array.length) (one : start / 8 = (start + count - 1) / 8)
    (writes : ∀ byte, ∀ j < 8, (f byte).getMsbD j =
      if start % 8 ≤ j ∧ j ≤ (start + count - 1) % 8 then value else byte.getMsbD j) :
    Written array (array.modify (start / 8) f) start count value where
  length := List.length_modify ..
  bits := by
    intro i
    rw [bit_modify_if writes (by omega)]
    refine if_congr ?_ rfl rfl
    omega

theorem bytes_written {f g : Byte → Byte} {whole : Byte} {value : Bool} (positive : 0 < count)
    (inside : start + count ≤ 8 * array.length) (apart : start / 8 ≠ (start + count - 1) / 8)
    (ends : ∀ byte, ∀ j < 8, (f byte).getMsbD j = if start % 8 ≤ j then value else byte.getMsbD j)
    (fills : ∀ j < 8, whole.getMsbD j = value)
    (begins : ∀ byte, ∀ j < 8, (g byte).getMsbD j =
      if j ≤ (start + count - 1) % 8 then value else byte.getMsbD j) :
    Written array ((fill (array.modify (start / 8) f) whole (start / 8 + 1)
      ((start + count - 1) / 8)).modify ((start + count - 1) / 8) g) start count value where
  length := by rw [List.length_modify, fill_length, List.length_modify]
  bits := by
    intro i
    rw [bit_modify_if begins (by rw [fill_length, List.length_modify]; omega),
      fill_bit _ _ (by rw [List.length_modify]; omega), fills _ (mod_lt i),
      bit_modify_if ends (by omega)]
    split_ifs <;> first | rfl | omega

theorem startMask (byte : Byte) (i : Nat) : ∀ j < 8, (byte ||| lastPart (i % 8)).getMsbD j =
    if i % 8 ≤ j then true else byte.getMsbD j := by
  intro j below
  rw [BitVec.getMsbD_or, lastPart_bit (mod_lt i) below]
  split_ifs with within <;> simp [within]

theorem endMask (byte : Byte) (i : Nat) : ∀ j < 8, (byte ||| firstPart (i % 8)).getMsbD j =
    if j ≤ i % 8 then true else byte.getMsbD j := by
  intro j below
  rw [BitVec.getMsbD_or, firstPart_bit (mod_lt i) below]
  split_ifs with within <;> simp [within]

theorem startUnmask (byte : Byte) (i : Nat) : ∀ j < 8, (byte &&& ~~~lastPart (i % 8)).getMsbD j =
    if i % 8 ≤ j then false else byte.getMsbD j := by
  intro j below
  rw [BitVec.getMsbD_and, BitVec.getMsbD_not, lastPart_bit (mod_lt i) below]
  split_ifs with within <;> simp [within, below]

theorem endUnmask (byte : Byte) (i : Nat) : ∀ j < 8, (byte &&& ~~~firstPart (i % 8)).getMsbD j =
    if j ≤ i % 8 then false else byte.getMsbD j := by
  intro j below
  rw [BitVec.getMsbD_and, BitVec.getMsbD_not, firstPart_bit (mod_lt i) below]
  split_ifs with within <;> simp [within, below]

theorem markbits_written (positive : 0 < count) (inside : start + count ≤ 8 * array.length) :
    Written array (markbits array start (start + count - 1)) start count true := by
  simp only [markbits, offset_eq]
  by_cases one : start / 8 = (start + count - 1) / 8
  · rw [if_pos one]
    refine byte_written positive inside one fun byte j below => ?_
    rw [BitVec.getMsbD_or, BitVec.getMsbD_and, lastPart_bit (mod_lt _) below,
      firstPart_bit (mod_lt _) below]
    split_ifs with within <;> simp [within]
  · rw [if_neg one]
    exact bytes_written positive inside one (fun byte => startMask byte start) (by decide)
      (fun byte => endMask byte (start + count - 1))

theorem unmarkbits_written (positive : 0 < count) (inside : start + count ≤ 8 * array.length) :
    Written array (unmarkbits array start count) start count false := by
  simp only [unmarkbits, offset_eq]
  by_cases one : start / 8 = (start + count - 1) / 8
  · rw [if_pos one]
    refine byte_written positive inside one fun byte j below => ?_
    rw [BitVec.getMsbD_and, BitVec.getMsbD_not, BitVec.getMsbD_and, lastPart_bit (mod_lt _) below,
      firstPart_bit (mod_lt _) below, ← Bool.decide_and]
    split_ifs with within <;> simp [within, below]
  · rw [if_neg one]
    exact bytes_written positive inside one (fun byte => startUnmask byte start) (by decide)
      (fun byte => endUnmask byte (start + count - 1))

theorem unmarkbits_markbits (positive : 0 < count) (run : ZeroRun array start count) :
    unmarkbits (markbits array start (start + count - 1)) start count = array := by
  have marked := markbits_written positive run.inside
  have unmarked : Written (markbits array start (start + count - 1)) _ start count false :=
    unmarkbits_written positive (by rw [marked.length]; exact run.inside)
  refine ext_bit (by rw [unmarked.length, marked.length]) fun i => ?_
  rw [unmarked.bits, marked.bits]
  split_ifs with within
  · exact (run.zero i within.1 within.2).symm
  · rfl

end Qthreads.Qalloc
