import Qthreads.Lib.Bits

namespace Qthreads.Dict

open Lib (Byte)

/-- `QTHREAD_SIZEOF_ALIGNED_T` -/
inductive AlignedSize where
  | four
  | eight

def AlignedSize.bits : AlignedSize → Nat
  | four => 32
  | eight => 64

/-- `aligned_t` -/
abbrev Aligned (size : AlignedSize) := BitVec size.bits

variable {size : AlignedSize}

@[ext] structure HashState (size : AlignedSize) where
  a : Aligned size
  b : Aligned size
  c : Aligned size
deriving DecidableEq

namespace HashState

/-- Three lines of `mix`. -/
def mixLines (state : HashState size) (shifts : Nat × Nat × Nat) : HashState size :=
  let a := (state.a - state.b - state.c) ^^^ (state.c >>> shifts.1)
  let b := (state.b - state.c - a) ^^^ (a <<< shifts.2.1)
  let c := (state.c - a - b) ^^^ (b >>> shifts.2.2)
  ⟨a, b, c⟩

def shifts : AlignedSize → List (Nat × Nat × Nat)
  | .four => [(13, 8, 13), (12, 16, 5), (3, 10, 15)]
  | .eight => [(43, 9, 8), (38, 23, 5), (35, 49, 11), (12, 18, 22)]

def mix (state : HashState size) : HashState size := (shifts size).foldl mixLines state

/-- `k[i]`, converted to `aligned_t`; nothing is read where there is no byte. -/
def byte (size : AlignedSize) (k : List Byte) (i : Nat) : Aligned size := (k.getD i 0).setWidth _

/-- A round of the loop, with the bytes from `k` on. -/
def handleBlock (state : HashState size) (k : List Byte) : HashState size :=
  mix
    ⟨state.a + (byte size k 0 + (byte size k 1 <<< 8) + (byte size k 2 <<< 16) +
        (byte size k 3 <<< 24)),
      state.b + (byte size k 4 + (byte size k 5 <<< 8) + (byte size k 6 <<< 16) +
        (byte size k 7 <<< 24)),
      state.c + (byte size k 8 + (byte size k 9 <<< 8) + (byte size k 10 <<< 16) +
        (byte size k 11 <<< 24))⟩

def handleMost (state : HashState size) (k : List Byte) : HashState size × List Byte :=
  if 12 ≤ k.length then handleMost (state.handleBlock k) (k.drop 12) else (state, k)
termination_by k.length
decreasing_by
  rw [List.length_drop]
  omega

def handleLast (state : HashState size) (bytes : Nat) (k : List Byte) : HashState size :=
  let len := k.length
  let c := state.c + BitVec.ofNat _ bytes
  let c := if 11 ≤ len then c + (byte size k 10 <<< 24) else c
  let c := if 10 ≤ len then c + (byte size k 9 <<< 16) else c
  let c := if 9 ≤ len then c + (byte size k 8 <<< 16) else c
  let b := state.b
  let b := if 8 ≤ len then b + (byte size k 7 <<< 24) else b
  let b := if 7 ≤ len then b + (byte size k 6 <<< 16) else b
  let b := if 6 ≤ len then b + (byte size k 5 <<< 8) else b
  let b := if 5 ≤ len then b + byte size k 4 else b
  let a := state.a
  let a := if 4 ≤ len then a + (byte size k 3 <<< 24) else a
  let a := if 3 ≤ len then a + (byte size k 2 <<< 16) else a
  let a := if 2 ≤ len then a + (byte size k 1 <<< 8) else a
  let a := if 1 ≤ len then a + byte size k 0 else a
  ⟨a, b, c⟩

end HashState

def goldenRatio : (size : AlignedSize) → Aligned size
  | .four => 0x9e3779b9#32
  | .eight => 0x9e3779b97f4a7c13#64

/-- The internal state before the last `mix`. -/
def absorbed (key : List Byte) (state : Aligned size) : HashState size :=
  let most := HashState.handleMost ⟨goldenRatio size, goldenRatio size, state⟩ key
  most.1.handleLast key.length most.2

def qtHashBytes (key : List Byte) (state : Aligned size) : Aligned size :=
  (absorbed key state).mix.c

namespace HashState

def unmixLines (state : HashState size) (shifts : Nat × Nat × Nat) : HashState size :=
  let c := (state.c ^^^ (state.b >>> shifts.2.2)) + state.b + state.a
  let b := (state.b ^^^ (state.a <<< shifts.2.1)) + state.a + c
  let a := (state.a ^^^ (c >>> shifts.1)) + c + b
  ⟨a, b, c⟩

theorem unmixLines_mixLines (shifts : Nat × Nat × Nat) (state : HashState size) :
    unmixLines (mixLines state shifts) shifts = state := by
  obtain ⟨a, b, c⟩ := state
  simp only [mixLines, unmixLines, BitVec.xor_assoc, BitVec.xor_self, BitVec.xor_zero,
    BitVec.sub_add_cancel]

theorem mixLines_unmixLines (shifts : Nat × Nat × Nat) (state : HashState size) :
    mixLines (unmixLines state shifts) shifts = state := by
  obtain ⟨a, b, c⟩ := state
  simp only [mixLines, unmixLines, BitVec.xor_assoc, BitVec.xor_self, BitVec.xor_zero,
    BitVec.add_sub_cancel]

theorem mixLines_bijective (shifts : Nat × Nat × Nat) :
    Function.Bijective fun state : HashState size => mixLines state shifts :=
  Function.bijective_iff_has_inverse.mpr ⟨fun state => unmixLines state shifts,
    unmixLines_mixLines shifts, mixLines_unmixLines shifts⟩

theorem mix_bijective : Function.Bijective (mix : HashState size → HashState size) := by
  have all (rounds : List (Nat × Nat × Nat)) :
      Function.Bijective fun state : HashState size => rounds.foldl mixLines state := by
    induction rounds with
    | nil => exact Function.bijective_id
    | cons first rest ih => exact ih.comp (mixLines_bijective first)
  exact all (shifts size)

theorem byte_toNat (k : List Byte) (i : Nat) : (byte size k i).toNat = (k.getD i 0).toNat := by
  have fits := (k.getD i 0).isLt
  rw [byte, BitVec.toNat_setWidth]
  cases size with
  | four => exact Nat.mod_eq_of_lt (Nat.lt_of_lt_of_le fits (by decide))
  | eight => exact Nat.mod_eq_of_lt (Nat.lt_of_lt_of_le fits (by decide))

theorem byte_shift (k : List Byte) (i shift : Nat) :
    byte size k i <<< shift = BitVec.ofNat _ ((k.getD i 0).toNat * 2 ^ shift) := by
  apply BitVec.eq_of_toNat_eq
  rw [BitVec.toNat_shiftLeft, byte_toNat, Nat.shiftLeft_eq, BitVec.toNat_ofNat]

/-- A case of the `switch` that is jumped over would add nothing. -/
theorem add_case (x : Aligned size) (k : List Byte) (i shift : Nat) :
    (if i + 1 ≤ k.length then x + (byte size k i <<< shift) else x) =
      x + BitVec.ofNat _ ((k.getD i 0).toNat * 2 ^ shift) := by
  split
  · rw [byte_shift]
  · rename_i short
    have zero : (k.getD i 0).toNat = 0 := by
      rw [List.getD_eq_default _ _ (by omega)]
      rfl
    rw [zero, Nat.zero_mul]
    exact (BitVec.add_zero x).symm

def word (k : List Byte) (i : Nat) : Nat :=
  (k.getD i 0).toNat + (k.getD (i + 1) 0).toNat * 2 ^ 8 + (k.getD (i + 2) 0).toNat * 2 ^ 16 +
    (k.getD (i + 3) 0).toNat * 2 ^ 24

/-- What the last three bytes come to in units of `2 ^ 16`: the first two go to the same place. -/
def merged (k : List Byte) : Nat :=
  (k.getD 8 0).toNat + (k.getD 9 0).toNat + (k.getD 10 0).toNat * 2 ^ 8

theorem handleLast_eq (state : HashState size) (bytes : Nat) (k : List Byte) :
    state.handleLast bytes k =
      ⟨state.a + BitVec.ofNat _ (word k 0), state.b + BitVec.ofNat _ (word k 4),
        state.c + BitVec.ofNat _ bytes + BitVec.ofNat _ (merged k * 2 ^ 16)⟩ := by
  have plain (x : Aligned size) (i : Nat) :
      (if i + 1 ≤ k.length then x + byte size k i else x) =
        x + BitVec.ofNat _ ((k.getD i 0).toNat * 2 ^ 0) := by
    rw [← add_case, BitVec.shiftLeft_zero]
  simp only [handleLast]
  rw [add_case _ k 10 24, add_case _ k 9 16, add_case _ k 8 16, add_case _ k 7 24, add_case _ k 6 16,
    add_case _ k 5 8, plain _ 4, add_case _ k 3 24, add_case _ k 2 16, add_case _ k 1 8, plain _ 0]
  have low (x : Aligned size) (i : Nat) :
      x + BitVec.ofNat _ ((k.getD (i + 3) 0).toNat * 2 ^ 24) +
        BitVec.ofNat _ ((k.getD (i + 2) 0).toNat * 2 ^ 16) +
        BitVec.ofNat _ ((k.getD (i + 1) 0).toNat * 2 ^ 8) +
        BitVec.ofNat _ ((k.getD i 0).toNat * 2 ^ 0) = x + BitVec.ofNat _ (word k i) := by
    simp only [BitVec.add_assoc, ← BitVec.ofNat_add]
    refine congrArg (fun n => x + BitVec.ofNat _ n) ?_
    rw [word]
    omega
  have high (x : Aligned size) :
      x + BitVec.ofNat _ ((k.getD 10 0).toNat * 2 ^ 24) +
        BitVec.ofNat _ ((k.getD 9 0).toNat * 2 ^ 16) +
        BitVec.ofNat _ ((k.getD 8 0).toNat * 2 ^ 16) = x + BitVec.ofNat _ (merged k * 2 ^ 16) := by
    simp only [BitVec.add_assoc, ← BitVec.ofNat_add]
    refine congrArg (fun n => x + BitVec.ofNat _ n) ?_
    rw [merged]
    omega
  rw [high, low state.b 4, low state.a 0]

theorem add_ofNat_iff (x : Aligned size) (m n : Nat) :
    x + BitVec.ofNat _ m = x + BitVec.ofNat _ n ↔ m % 2 ^ size.bits = n % 2 ^ size.bits := by
  rw [BitVec.add_right_inj, ← BitVec.toNat_inj, BitVec.toNat_ofNat, BitVec.toNat_ofNat]

theorem word_lt (k : List Byte) (i : Nat) : word k i < 2 ^ size.bits := by
  have small : word k i < 2 ^ 32 := by
    rw [word]
    omega
  cases size with
  | four => exact small
  | eight => exact Nat.lt_trans small (by decide)

theorem word_inj {k other : List Byte} {i : Nat} (same : word k i = word other i) :
    ∀ j, i ≤ j → j < i + 4 → k.getD j 0 = other.getD j 0 := by
  intro j least less
  apply BitVec.eq_of_toNat_eq
  simp only [word] at same
  have cases : j = i ∨ j = i + 1 ∨ j = i + 2 ∨ j = i + 3 := by omega
  rcases cases with rfl | rfl | rfl | rfl <;> omega

def Merges (size : AlignedSize) (k other : List Byte) : Prop :=
  (∀ i < 8, k.getD i 0 = other.getD i 0) ∧
    merged k % 2 ^ (size.bits - 16) = merged other % 2 ^ (size.bits - 16)

theorem merged_iff (k other : List Byte) :
    merged k * 2 ^ 16 % 2 ^ size.bits = merged other * 2 ^ 16 % 2 ^ size.bits ↔
      merged k % 2 ^ (size.bits - 16) = merged other % 2 ^ (size.bits - 16) := by
  have split : 2 ^ size.bits = 2 ^ (size.bits - 16) * 2 ^ 16 := by
    rw [← Nat.pow_add]
    cases size with
    | four => rfl
    | eight => rfl
  rw [split, Nat.mul_mod_mul_right, Nat.mul_mod_mul_right]
  exact Nat.mul_left_inj (by decide)

theorem handleLast_iff (state : HashState size) (bytes : Nat) (k other : List Byte) :
    state.handleLast bytes k = state.handleLast bytes other ↔ Merges size k other := by
  rw [handleLast_eq, handleLast_eq, HashState.mk.injEq, add_ofNat_iff, add_ofNat_iff, add_ofNat_iff,
    merged_iff, Nat.mod_eq_of_lt (word_lt k 0), Nat.mod_eq_of_lt (word_lt other 0),
    Nat.mod_eq_of_lt (word_lt k 4), Nat.mod_eq_of_lt (word_lt other 4)]
  constructor
  · rintro ⟨low, high, rest⟩
    refine ⟨fun i less => ?_, rest⟩
    by_cases early : i < 4
    · exact word_inj low i (Nat.zero_le i) (by omega)
    · exact word_inj high i (by omega) (by omega)
  · rintro ⟨same, rest⟩
    have words (i : Nat) (low : i ≤ 4) : word k i = word other i := by
      rw [word, word, same i (by omega), same (i + 1) (by omega), same (i + 2) (by omega),
        same (i + 3) (by omega)]
    exact ⟨words 0 (by decide), words 4 (Nat.le_refl _), rest⟩

theorem short_apart {k other : List Byte} (few : k.length ≤ 9) (length : other.length = k.length)
    (merges : Merges size k other) : k = other := by
  obtain ⟨same, rest⟩ := merges
  have zeros (list : List Byte) (short : list.length ≤ 9) (i : Nat) (nine : 9 ≤ i) :
      (list.getD i 0).toNat = 0 := by
    rw [List.getD_eq_default _ _ (by omega)]
    rfl
  have small (n : Nat) (byte : n < 256) : n % 2 ^ (size.bits - 16) = n := by
    cases size with
    | four => exact Nat.mod_eq_of_lt (Nat.lt_trans byte (by decide))
    | eight => exact Nat.mod_eq_of_lt (Nat.lt_trans byte (by decide))
  have eighth : k.getD 8 0 = other.getD 8 0 := by
    apply BitVec.eq_of_toNat_eq
    rw [merged, merged, zeros k few 9 (by decide), zeros k few 10 (by decide),
      zeros other (by omega) 9 (by decide), zeros other (by omega) 10 (by decide)] at rest
    simp only [Nat.add_zero, Nat.zero_mul] at rest
    rwa [small _ (k.getD 8 0).isLt, small _ (other.getD 8 0).isLt] at rest
  apply List.ext_getElem length.symm
  intro i inside there
  have bytes : k.getD i 0 = other.getD i 0 := by
    rcases Nat.lt_or_ge i 8 with early | late
    · exact same i early
    · rw [show i = 8 by omega]
      exact eighth
  rwa [List.getD_eq_getElem _ _ inside, List.getD_eq_getElem _ _ there] at bytes

theorem handleBlock_append (state : HashState size) {blocks : List Byte} (last : List Byte)
    (block : 12 ≤ blocks.length) : state.handleBlock (blocks ++ last) = state.handleBlock blocks := by
  have here (i : Nat) (inside : i < 12) : byte size (blocks ++ last) i = byte size blocks i := by
    rw [byte, byte, List.getD_append _ _ _ _ (by omega)]
  simp only [handleBlock, here 0 (by decide), here 1 (by decide), here 2 (by decide),
    here 3 (by decide), here 4 (by decide), here 5 (by decide), here 6 (by decide),
    here 7 (by decide), here 8 (by decide), here 9 (by decide), here 10 (by decide),
    here 11 (by decide)]

theorem handleMost_blocks (state : HashState size) {blocks : List Byte} (whole : 12 ∣ blocks.length) :
    ∃ next : HashState size, ∀ last : List Byte, last.length < 12 →
      handleMost state (blocks ++ last) = (next, last) := by
  obtain ⟨count, length⟩ := whole
  induction count generalizing state blocks with
  | zero =>
    have empty : blocks = [] := List.length_eq_zero_iff.mp length
    refine ⟨state, fun last short => ?_⟩
    rw [empty, List.nil_append, handleMost, if_neg (by omega)]
  | succ count ih =>
    have fewer : (blocks.drop 12).length = 12 * count := by
      rw [List.length_drop]
      omega
    obtain ⟨next, rest⟩ := ih (state.handleBlock blocks) fewer
    refine ⟨next, fun last short => ?_⟩
    rw [handleMost, if_pos (by rw [List.length_append]; omega),
      handleBlock_append state last (by omega), List.drop_append_of_le_length (by omega)]
    exact rest last short

end HashState

theorem absorbed_eq_iff (state : Aligned size) {blocks last other : List Byte}
    (whole : 12 ∣ blocks.length) (short : last.length < 12) (length : other.length = last.length) :
    absorbed (blocks ++ last) state = absorbed (blocks ++ other) state ↔
      HashState.Merges size last other := by
  obtain ⟨next, most⟩ := HashState.handleMost_blocks
    ⟨goldenRatio size, goldenRatio size, state⟩ whole
  simp only [absorbed, most last short, most other (by omega), List.length_append, length]
  exact HashState.handleLast_iff next _ last other

/-- Keys that differ in the bytes behind their last whole block lead to different states before the
last `mix`, which keeps states apart, if and only if these bytes do not merge. -/
theorem absorbed_differ_iff (state : Aligned size) {blocks last other : List Byte}
    (whole : 12 ∣ blocks.length) (short : last.length < 12) (length : other.length = last.length)
    (differ : last ≠ other) :
    Function.Bijective (HashState.mix : HashState size → HashState size) ∧
      (absorbed (blocks ++ last) state ≠ absorbed (blocks ++ other) state ↔
        ¬HashState.Merges size last other) ∧
      (last.length ≤ 9 → ¬HashState.Merges size last other) :=
  ⟨HashState.mix_bijective, not_congr (absorbed_eq_iff state whole short length),
    fun few merges => differ (HashState.short_apart few length merges)⟩

theorem absorbed_differ_nine : absorbed [1, 2, 3, 4, 5, 6, 7, 8, 9] (0 : Aligned .eight) ≠
    absorbed [1, 2, 3, 4, 5, 6, 7, 8, 10] 0 := by
  obtain ⟨-, differ, few⟩ := @absorbed_differ_iff .eight 0 []
    [1, 2, 3, 4, 5, 6, 7, 8, 9] [1, 2, 3, 4, 5, 6, 7, 8, 10] (by decide) (by decide) rfl (by decide)
  exact differ.mpr (few (by decide))

/-- Ten bytes, the last two of which are the other way round. -/
theorem absorbed_merges : ¬∀ last other : List Byte, last.length = 10 → other.length = 10 →
    last ≠ other → absorbed last (0 : Aligned .eight) ≠ absorbed other 0 := by
  intro apart
  refine apart [0, 0, 0, 0, 0, 0, 0, 0, 1, 2] [0, 0, 0, 0, 0, 0, 0, 0, 2, 1] rfl rfl (by decide) ?_
  have same := @absorbed_eq_iff .eight 0 [] [0, 0, 0, 0, 0, 0, 0, 0, 1, 2]
    [0, 0, 0, 0, 0, 0, 0, 0, 2, 1] (by decide) (by decide) rfl
  exact same.mpr ⟨by decide, by decide⟩

end Qthreads.Dict
