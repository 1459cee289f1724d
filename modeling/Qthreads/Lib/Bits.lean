import Mathlib.Algebra.Group.Nat.Defs
import Mathlib.Data.List.Basic
import Mathlib.Data.List.GetD

namespace Qthreads.Lib

/-! Bits are counted from the most significant one of the first byte on. -/

abbrev Byte := BitVec 8

def bit (array : List Byte) (i : Nat) : Bool := (array.getD (i / 8) 0).getMsbD (i % 8)

structure ZeroRun (array : List Byte) (start count : Nat) : Prop where
  inside : start + count ≤ 8 * array.length
  zero : ∀ i, start ≤ i → i < start + count → bit array i = false

structure Written (before after : List Byte) (start count : Nat) (value : Bool) : Prop where
  length : after.length = before.length
  bits : ∀ i, bit after i = if start ≤ i ∧ i < start + count then value else bit before i

variable {array other : List Byte} {i k : Nat}

theorem bit_eq_getElem {byte : Nat} (inside : byte < array.length) (place : i / 8 = byte) :
    bit array i = array[byte].getMsbD (i % 8) := by
  subst place
  rw [bit, List.getD_eq_getElem _ _ inside]

theorem bit_modify (f : Byte → Byte) (inside : k < array.length) :
    bit (array.modify k f) i = if i / 8 = k then (f array[k]).getMsbD (i % 8) else bit array i := by
  rw [bit, List.getD_eq_getElem?_getD, List.getElem?_modify]
  by_cases here : i / 8 = k
  · subst here
    rw [if_pos rfl, List.getElem?_eq_getElem inside]
    simp
  · rw [if_neg here, bit, List.getD_eq_getElem?_getD]
    simp [Ne.symm here]

theorem bit_modify_if {f : Byte → Byte} {wanted : Nat → Prop} [DecidablePred wanted] {value : Bool}
    (writes : ∀ byte, ∀ j < 8, (f byte).getMsbD j = if wanted j then value else byte.getMsbD j)
    (inside : k < array.length) :
    bit (array.modify k f) i = if i / 8 = k ∧ wanted (i % 8) then value else bit array i := by
  rw [bit_modify f inside]
  by_cases here : i / 8 = k
  · rw [if_pos here, writes _ _ (Nat.mod_lt i (by decide)), ← bit_eq_getElem inside here]
    simp [here]
  · rw [if_neg here, if_neg fun both => here both.1]

theorem ext_bit (length : array.length = other.length) (same : ∀ i, bit array i = bit other i) :
    array = other := by
  refine List.ext_getElem length fun k first second => ?_
  refine BitVec.eq_of_getMsbD_eq fun j below => ?_
  have place : (8 * k + j) / 8 = k := by omega
  have rest : (8 * k + j) % 8 = j := by omega
  have bits := same (8 * k + j)
  rwa [bit_eq_getElem first place, bit_eq_getElem second place, rest] at bits

end Qthreads.Lib
