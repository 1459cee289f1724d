import Mathlib.Data.Nat.Bitwise
import Mathlib.Data.Nat.Log
import Mathlib.Tactic.IntervalCases

namespace Qthreads.Dict

/-! The list of `dictionary_shavit.c` is ordered by hash values with their bits in reverse.  All
that its proofs need of the order is that fewer bits make a smaller key. -/

def msb : UInt64 := 0x8000000000000000

def reverseByte (x : UInt64) : UInt64 :=
  ((((x * 0x0802 &&& 0x22110) ||| (x * 0x8020 &&& 0x88440)) * 0x10101) >>> 16) &&& 0xff

def reverse (x : UInt64) : UInt64 :=
  (reverseByte (x &&& 0xff) <<< 56) |||
  (reverseByte ((x >>> 8) &&& 0xff) <<< 48) |||
  (reverseByte ((x >>> 16) &&& 0xff) <<< 40) |||
  (reverseByte ((x >>> 24) &&& 0xff) <<< 32) |||
  (reverseByte ((x >>> 32) &&& 0xff) <<< 24) |||
  (reverseByte ((x >>> 40) &&& 0xff) <<< 16) |||
  (reverseByte ((x >>> 48) &&& 0xff) <<< 8) |||
  (reverseByte ((x >>> 56) &&& 0xff) <<< 0)

def soRegularkey (key : UInt64) : UInt64 := reverse (key ||| msb)

def soDummykey (key : UInt64) : UInt64 := reverse key

def getParent (bucket : UInt64) : UInt64 :=
  let t := bucket
  let t := t ||| (t >>> 1)
  let t := t ||| (t >>> 2)
  let t := t ||| (t >>> 4)
  let t := t ||| (t >>> 8)
  let t := t ||| (t >>> 16)
  let t := t ||| (t >>> 32)
  bucket &&& (t >>> 1)

theorem reverseByte_bits (byte : UInt64) (small : byte.toNat < 256) :
    (reverseByte byte).toNat < 256 ∧
      ∀ k, k < 8 → (reverseByte byte).toNat.testBit k = byte.toNat.testBit (7 - k) := by
  have all : ∀ n : Fin 256, (reverseByte (UInt64.ofNat n)).toNat < 256 ∧
      ∀ k : Fin 8, (reverseByte (UInt64.ofNat n)).toNat.testBit k = (n : Nat).testBit (7 - k) := by
    decide +kernel
  have back : UInt64.ofNat byte.toNat = byte := UInt64.ofNat_toNat
  obtain ⟨bound, bits⟩ := all ⟨byte.toNat, small⟩
  rw [back] at bound bits
  exact ⟨bound, fun k inside => bits ⟨k, inside⟩⟩

theorem reverseByte_moved (x : UInt64) {shift place : UInt64} {s p : Nat}
    (shifted : shift.toNat = s) (placed : place.toNat = p) (whole : s + p = 56) (i : Nat) :
    (reverseByte ((x >>> shift) &&& 0xff) <<< place).toNat.testBit i =
      (decide (p ≤ i ∧ i < p + 8) && x.toNat.testBit (63 - i)) := by
  have mask : (0xff : UInt64).toNat = 2 ^ 8 - 1 := by decide
  have byte : ((x >>> shift) &&& 0xff).toNat = x.toNat / 2 ^ s % 2 ^ 8 := by
    rw [UInt64.toNat_and, mask, Nat.and_two_pow_sub_one_eq_mod, UInt64.toNat_shiftRight, shifted,
      Nat.mod_eq_of_lt (show s < 64 by omega), Nat.shiftRight_eq_div_pow]
  have small : ((x >>> shift) &&& 0xff).toNat < 256 := by
    rw [byte]
    exact Nat.mod_lt _ (by decide)
  obtain ⟨bound, bits⟩ := reverseByte_bits _ small
  have moved : (reverseByte ((x >>> shift) &&& 0xff) <<< place).toNat =
      (reverseByte ((x >>> shift) &&& 0xff)).toNat <<< p := by
    rw [UInt64.toNat_shiftLeft, placed, Nat.mod_eq_of_lt (show p < 64 by omega)]
    apply Nat.mod_eq_of_lt
    rw [Nat.shiftLeft_eq]
    calc (reverseByte ((x >>> shift) &&& 0xff)).toNat * 2 ^ p
        < 2 ^ 8 * 2 ^ p := Nat.mul_lt_mul_of_pos_right bound (Nat.two_pow_pos p)
      _ = 2 ^ (8 + p) := (Nat.pow_add 2 8 p).symm
      _ ≤ 2 ^ 64 := Nat.pow_le_pow_right (by decide) (by omega)
  rw [moved, Nat.testBit_shiftLeft]
  by_cases below : p ≤ i
  · by_cases inside : i < p + 8
    · have bit := bits (i - p) (by omega)
      rw [byte, Nat.testBit_mod_two_pow, Nat.testBit_div_two_pow] at bit
      have place : 7 - (i - p) + s = 63 - i := by omega
      rw [bit, place]
      simp [below, inside, show 7 - (i - p) < 8 by omega]
    · have unset : (reverseByte ((x >>> shift) &&& 0xff)).toNat.testBit (i - p) = false := by
        apply Nat.testBit_eq_false_of_lt
        have far : 2 ^ 8 ≤ 2 ^ (i - p) := Nat.pow_le_pow_right (by decide) (by omega)
        exact Nat.lt_of_lt_of_le bound far
      simp [unset, inside]
  · simp [below]

theorem reverse_bit (x : UInt64) (i : Nat) (inside : i < 64) :
    (reverse x).toNat.testBit i = x.toNat.testBit (63 - i) := by
  have first : reverseByte (x &&& 0xff) = reverseByte ((x >>> 0) &&& 0xff) := by
    rw [show x >>> 0 = x from UInt64.shiftRight_zero]
  rw [reverse, first]
  simp only [UInt64.toNat_or, Nat.testBit_or]
  rw [reverseByte_moved x (s := 0) (p := 56) rfl rfl rfl,
    reverseByte_moved x (s := 8) (p := 48) rfl rfl rfl,
    reverseByte_moved x (s := 16) (p := 40) rfl rfl rfl,
    reverseByte_moved x (s := 24) (p := 32) rfl rfl rfl,
    reverseByte_moved x (s := 32) (p := 24) rfl rfl rfl,
    reverseByte_moved x (s := 40) (p := 16) rfl rfl rfl,
    reverseByte_moved x (s := 48) (p := 8) rfl rfl rfl,
    reverseByte_moved x (s := 56) (p := 0) rfl rfl rfl]
  simp only [← Bool.and_or_distrib_right]
  have covered : (decide (56 ≤ i ∧ i < 56 + 8) || decide (48 ≤ i ∧ i < 48 + 8) ||
      decide (40 ≤ i ∧ i < 40 + 8) || decide (32 ≤ i ∧ i < 32 + 8) ||
      decide (24 ≤ i ∧ i < 24 + 8) || decide (16 ≤ i ∧ i < 16 + 8) ||
      decide (8 ≤ i ∧ i < 8 + 8) || decide (0 ≤ i ∧ i < 0 + 8)) = true := by
    simp only [Bool.or_eq_true, decide_eq_true_eq]
    omega
  rw [covered, Bool.true_and]

theorem high_bit (x : UInt64) {i : Nat} (above : 64 ≤ i) : x.toNat.testBit i = false := by
  apply Nat.testBit_eq_false_of_lt
  have small : x.toNat < 2 ^ 64 := x.toNat_lt
  have far : 2 ^ 64 ≤ 2 ^ i := Nat.pow_le_pow_right (by decide) above
  omega

theorem reverse_and (a b : UInt64) : reverse (a &&& b) = reverse a &&& reverse b := by
  apply UInt64.toNat.inj
  apply Nat.eq_of_testBit_eq
  intro i
  rw [UInt64.toNat_and, Nat.testBit_and]
  by_cases inside : i < 64
  · rw [reverse_bit _ i inside, reverse_bit _ i inside, reverse_bit _ i inside, UInt64.toNat_and,
      Nat.testBit_and]
  · rw [high_bit _ (by omega), high_bit (reverse a) (by omega), Bool.false_and]

variable {a b : UInt64}

theorem reverse_le (fewer : a &&& b = a) : reverse a ≤ reverse b := by
  rw [← fewer, reverse_and, UInt64.le_iff_toNat_le, UInt64.toNat_and]
  exact Nat.and_le_right

theorem reverse_inj (same : reverse a = reverse b) : a = b := by
  apply UInt64.toNat.inj
  apply Nat.eq_of_testBit_eq
  intro i
  by_cases inside : i < 64
  · have bits := congrArg (fun x : UInt64 => x.toNat.testBit (63 - i)) same
    simp only [reverse_bit _ (63 - i) (by omega)] at bits
    rw [show 63 - (63 - i) = i by omega] at bits
    exact bits
  · rw [high_bit a (by omega), high_bit b (by omega)]

theorem reverse_reverse (x : UInt64) : reverse (reverse x) = x := by
  apply UInt64.toNat.inj
  apply Nat.eq_of_testBit_eq
  intro i
  by_cases inside : i < 64
  · rw [reverse_bit _ i inside, reverse_bit _ (63 - i) (by omega),
      show 63 - (63 - i) = i by omega]
  · rw [high_bit _ (by omega), high_bit x (by omega)]

theorem reverse_xor (a b : UInt64) : reverse (a ^^^ b) = reverse a ^^^ reverse b := by
  apply UInt64.toNat.inj
  apply Nat.eq_of_testBit_eq
  intro i
  rw [UInt64.toNat_xor, Nat.testBit_xor]
  by_cases inside : i < 64
  · rw [reverse_bit _ i inside, reverse_bit _ i inside, reverse_bit _ i inside, UInt64.toNat_xor,
      Nat.testBit_xor]
  · rw [high_bit _ (by omega), high_bit (reverse a) (by omega), high_bit (reverse b) (by omega)]
    rfl

theorem msb_bit (key : UInt64) : (key ||| msb).toNat.testBit 63 = true := by
  rw [UInt64.toNat_or, Nat.testBit_or]
  have top : msb.toNat.testBit 63 = true := by decide
  rw [top, Bool.or_true]

variable {key : UInt64}

theorem top_bit (small : key.toNat < 2 ^ 63) : key.toNat.testBit 63 = false :=
  Nat.testBit_eq_false_of_lt small

theorem and_msb (small : key.toNat < 2 ^ 63) : key &&& msb = 0 := by
  apply UInt64.toNat.inj
  apply Nat.eq_of_testBit_eq
  intro i
  have power : msb.toNat = 2 ^ 63 := by decide
  rw [UInt64.toNat_and, Nat.testBit_and, power, Nat.testBit_two_pow]
  by_cases top : 63 = i
  · rw [← top, top_bit small]
    rfl
  · simp [top]

theorem regular_marked (key : UInt64) : soRegularkey key &&& 1 = 1 := by
  have low : reverse msb = 1 := by decide
  have top : (key ||| msb) &&& msb = msb := by
    apply UInt64.toNat.inj
    apply Nat.eq_of_testBit_eq
    intro i
    rw [UInt64.toNat_and, UInt64.toNat_or, Nat.testBit_and, Nat.testBit_or]
    cases msb.toNat.testBit i <;> simp
  rw [soRegularkey, ← low, ← reverse_and, top]

variable {bucket : UInt64}

theorem dummy_unmarked (small : bucket.toNat < 2 ^ 63) : soDummykey bucket &&& 1 = 0 := by
  have low : reverse msb = 1 := by decide
  rw [soDummykey, ← low, ← reverse_and, and_msb small]
  decide

theorem regular_back (small : key.toNat < 2 ^ 63) : reverse (soRegularkey key ^^^ 1) = key := by
  have low : reverse msb = 1 := by decide
  have cleared : (key ||| msb) ^^^ msb = key := by
    apply UInt64.toNat.inj
    apply Nat.eq_of_testBit_eq
    intro i
    have nothing := congrArg (fun x : UInt64 => x.toNat.testBit i) (and_msb small)
    simp only [UInt64.toNat_and, Nat.testBit_and, UInt64.toNat_zero, Nat.zero_testBit] at nothing
    rw [UInt64.toNat_xor, UInt64.toNat_or, Nat.testBit_xor, Nat.testBit_or]
    cases bit : msb.toNat.testBit i with
    | false => simp
    | true =>
      rw [bit, Bool.and_true] at nothing
      simp [nothing]
  rw [soRegularkey, ← low, ← reverse_xor, cleared, reverse_reverse]

theorem dummy_ne_regular {bucket key : UInt64} (small : bucket.toNat < 2 ^ 63) :
    soDummykey bucket ≠ soRegularkey key := by
  intro same
  have bits := congrArg (fun x : UInt64 => x.toNat.testBit 63) (reverse_inj same)
  simp only [top_bit small, msb_bit key] at bits
  cases bits

theorem regular_inj (aSmall : a.toNat < 2 ^ 63) (bSmall : b.toNat < 2 ^ 63)
    (same : soRegularkey a = soRegularkey b) : a = b := by
  have keys := reverse_inj same
  apply UInt64.toNat.inj
  apply Nat.eq_of_testBit_eq
  intro i
  by_cases top : i = 63
  · rw [top, top_bit aSmall, top_bit bSmall]
  · have bits := congrArg (fun x : UInt64 => x.toNat.testBit i) keys
    have unset : msb.toNat.testBit i = false := by
      have power : msb.toNat = 2 ^ 63 := by decide
      rw [power]
      exact Nat.testBit_two_pow_of_ne (fun equal => top equal.symm)
    simpa only [UInt64.toNat_or, Nat.testBit_or, unset, Bool.or_false] using bits

theorem dummy_lt_regular {bucket key : UInt64} (fewer : bucket &&& key = bucket)
    (small : bucket.toNat < 2 ^ 63) : soDummykey bucket < soRegularkey key := by
  have bits : bucket &&& (key ||| msb) = bucket := by
    apply UInt64.toNat.inj
    apply Nat.eq_of_testBit_eq
    intro i
    have here := congrArg (fun x : UInt64 => x.toNat.testBit i) fewer
    simp only [UInt64.toNat_and, Nat.testBit_and] at here
    rw [UInt64.toNat_and, UInt64.toNat_or, Nat.testBit_and, Nat.testBit_or, Bool.and_or_distrib_left,
      here]
    cases bucket.toNat.testBit i <;> simp
  have least : soDummykey bucket ≤ soRegularkey key := reverse_le bits
  have apart : soDummykey bucket ≠ soRegularkey key := dummy_ne_regular small
  rw [UInt64.le_iff_toNat_le] at least
  rw [UInt64.lt_iff_toNat_lt]
  exact Nat.lt_of_le_of_ne least (fun same => apart (UInt64.toNat.inj same))

theorem mod_two_pow_bits {key size : UInt64} {i : Nat} (power : size.toNat = 2 ^ i) :
    (key % size) &&& key = key % size := by
  apply UInt64.toNat.inj
  apply Nat.eq_of_testBit_eq
  intro j
  rw [UInt64.toNat_and, Nat.testBit_and, UInt64.toNat_mod, power, Nat.testBit_mod_two_pow]
  cases decide (j < i) <;> simp

theorem getParent_bits (bucket : UInt64) : getParent bucket &&& bucket = getParent bucket := by
  simp only [getParent]
  rw [UInt64.and_comm, ← UInt64.and_assoc, UInt64.and_self]

/-- The mask of `GET_PARENT` does not reach the highest bit of the bucket. -/
theorem getParent_lt (nonzero : bucket ≠ 0) : (getParent bucket).toNat < bucket.toNat := by
  have positive : bucket.toNat ≠ 0 := fun zero => nonzero (UInt64.toNat.inj zero)
  have top : 2 ^ Nat.log 2 bucket.toNat ≤ bucket.toNat := Nat.pow_log_le_self 2 positive
  have small : bucket.toNat < 2 ^ (Nat.log 2 bucket.toNat + 1) := Nat.lt_pow_succ_log_self (by decide) _
  have spread : ∀ t by_ : UInt64, t.toNat < 2 ^ (Nat.log 2 bucket.toNat + 1) →
      (t ||| (t >>> by_)).toNat < 2 ^ (Nat.log 2 bucket.toNat + 1) := by
    intro t by_ below
    rw [UInt64.toNat_or]
    refine Nat.or_lt_two_pow below ?_
    rw [UInt64.toNat_shiftRight, Nat.shiftRight_eq_div_pow]
    exact Nat.lt_of_le_of_lt (Nat.div_le_self _ _) below
  have halved : ∀ t : UInt64, t.toNat < 2 ^ (Nat.log 2 bucket.toNat + 1) →
      (bucket &&& (t >>> 1)).toNat < bucket.toNat := by
    intro t mask
    have half : (1 : UInt64).toNat % 64 = 1 := by decide
    rw [UInt64.toNat_and, UInt64.toNat_shiftRight, half, Nat.shiftRight_eq_div_pow, Nat.pow_one]
    refine Nat.lt_of_le_of_lt Nat.and_le_right (Nat.lt_of_lt_of_le ?_ top)
    rw [Nat.pow_succ] at mask
    omega
  exact halved _ (spread _ 32 (spread _ 16 (spread _ 8 (spread _ 4 (spread _ 2
    (spread bucket 1 small))))))

theorem parent_dummy_lt (nonzero : bucket ≠ 0) :
    soDummykey (getParent bucket) < soDummykey bucket := by
  have least : soDummykey (getParent bucket) ≤ soDummykey bucket :=
    reverse_le (getParent_bits bucket)
  rw [UInt64.le_iff_toNat_le] at least
  rw [UInt64.lt_iff_toNat_lt]
  refine Nat.lt_of_le_of_ne least ?_
  intro same
  have equal := reverse_inj (UInt64.toNat.inj same)
  have below := getParent_lt nonzero
  rw [equal] at below
  exact Nat.lt_irrefl _ below

/-! The keys of a bucket follow its dummy, up to the next dummy of the table. -/

section Segments

variable {i : Nat}

theorem reverse_segment {a b : UInt64} (most : i ≤ 64) (same : a.toNat % 2 ^ i = b.toNat % 2 ^ i) :
    (reverse a).toNat / 2 ^ (64 - i) = (reverse b).toNat / 2 ^ (64 - i) := by
  apply Nat.eq_of_testBit_eq
  intro j
  rw [Nat.testBit_div_two_pow, Nat.testBit_div_two_pow]
  by_cases inside : j < i
  · have bits := congrArg (fun n : Nat => n.testBit (63 - (j + (64 - i)))) same
    simp only [Nat.testBit_mod_two_pow, show 63 - (j + (64 - i)) < i by omega, decide_true,
      Bool.true_and] at bits
    rw [reverse_bit a _ (by omega), reverse_bit b _ (by omega), bits]
  · rw [high_bit _ (by omega), high_bit _ (by omega)]

theorem reverse_start {bucket : UInt64} (most : i ≤ 64) (small : bucket.toNat < 2 ^ i) :
    2 ^ (64 - i) ∣ (reverse bucket).toNat := by
  apply Nat.dvd_of_mod_eq_zero
  apply Nat.eq_of_testBit_eq
  intro j
  rw [Nat.testBit_mod_two_pow, Nat.zero_testBit]
  by_cases inside : j < 64 - i
  · have above : bucket.toNat.testBit (63 - j) = false := by
      apply Nat.testBit_eq_false_of_lt
      exact Nat.lt_of_lt_of_le small (Nat.pow_le_pow_right (by decide) (by omega))
    rw [reverse_bit bucket j (by omega), above, Bool.and_false]
  · rw [decide_eq_false inside, Bool.false_and]

theorem reverse_lt_next {x bucket other : UInt64} (most : i ≤ 64)
    (hashed : x.toNat % 2 ^ i = bucket.toNat) (inside : other.toNat < 2 ^ i)
    (before : reverse bucket < reverse other) : reverse x < reverse other := by
  have size : 0 < 2 ^ (64 - i) := Nat.two_pow_pos _
  have small : bucket.toNat < 2 ^ i := by
    rw [← hashed]
    exact Nat.mod_lt _ (Nat.two_pow_pos i)
  have same := @reverse_segment i x bucket most (by rw [hashed, Nat.mod_eq_of_lt small])
  obtain ⟨first, start⟩ := reverse_start most small
  obtain ⟨last, next⟩ := reverse_start most inside
  rw [UInt64.lt_iff_toNat_lt, start, next] at before
  rw [start, Nat.mul_div_cancel_left _ size] at same
  have order : first < last := Nat.lt_of_mul_lt_mul_left before
  rw [UInt64.lt_iff_toNat_lt, next]
  calc (reverse x).toNat < 2 ^ (64 - i) * (first + 1) := by
        rw [← same]
        exact Nat.lt_mul_div_succ _ size
    _ ≤ 2 ^ (64 - i) * last := Nat.mul_le_mul_left _ order

theorem regular_hashed {key : UInt64} (most : i ≤ 63) :
    (key ||| msb).toNat % 2 ^ i = key.toNat % 2 ^ i := by
  have power : msb.toNat = 2 ^ 63 := by decide
  apply Nat.eq_of_testBit_eq
  intro j
  rw [Nat.testBit_mod_two_pow, Nat.testBit_mod_two_pow]
  by_cases inside : j < i
  · rw [UInt64.toNat_or, Nat.testBit_or, power, Nat.testBit_two_pow_of_ne (by omega), Bool.or_false]
  · rw [decide_eq_false inside, Bool.false_and, Bool.false_and]

def Spread (bucket t : UInt64) (reach : Nat) : Prop :=
  ∀ j, t.toNat.testBit j = true ↔ ∃ m < reach, bucket.toNat.testBit (j + m) = true

theorem Spread.twice {bucket t by_ : UInt64} {reach : Nat} (spread : Spread bucket t reach)
    (shifts : by_.toNat % 64 = reach) : Spread bucket (t ||| (t >>> by_)) (2 * reach) := by
  intro j
  rw [UInt64.toNat_or, Nat.testBit_or, UInt64.toNat_shiftRight, shifts, Nat.testBit_shiftRight,
    Bool.or_eq_true, spread, spread]
  constructor
  · rintro (⟨m, low, set⟩ | ⟨m, low, set⟩)
    · exact ⟨m, by omega, set⟩
    · refine ⟨reach + m, by omega, ?_⟩
      rw [← Nat.add_assoc, Nat.add_comm j]
      exact set
  · rintro ⟨m, low, set⟩
    by_cases near : m < reach
    · exact .inl ⟨m, near, set⟩
    · refine .inr ⟨m - reach, by omega, ?_⟩
      rw [show reach + j + (m - reach) = j + m by omega]
      exact set

theorem getParent_eq {bucket : UInt64} (nonzero : bucket ≠ 0) :
    (getParent bucket).toNat = bucket.toNat % 2 ^ Nat.log 2 bucket.toNat := by
  have positive : bucket.toNat ≠ 0 := fun zero => nonzero (UInt64.toNat.inj zero)
  have top : 2 ^ Nat.log 2 bucket.toNat ≤ bucket.toNat := Nat.pow_log_le_self 2 positive
  have small : bucket.toNat < 2 ^ (Nat.log 2 bucket.toNat + 1) := Nat.lt_pow_succ_log_self (by decide) _
  have below : Nat.log 2 bucket.toNat < 64 := by
    by_contra far
    have large := Nat.pow_le_pow_right (show 0 < 2 by decide) (Nat.le_of_not_lt far)
    have fits := bucket.toNat_lt
    omega
  have masked : ∀ t, Spread bucket t 64 →
      (bucket &&& (t >>> 1)).toNat = bucket.toNat % 2 ^ Nat.log 2 bucket.toNat := by
    intro t spread
    have one : (1 : UInt64).toNat % 64 = 1 := by decide
    apply Nat.eq_of_testBit_eq
    intro j
    rw [UInt64.toNat_and, Nat.testBit_and, UInt64.toNat_shiftRight, one, Nat.testBit_shiftRight,
      Nat.testBit_mod_two_pow]
    by_cases inside : j < Nat.log 2 bucket.toNat
    · have highest : bucket.toNat.testBit (Nat.log 2 bucket.toNat) = true := by
        have once : bucket.toNat / 2 ^ Nat.log 2 bucket.toNat = 1 := by
          apply Nat.div_eq_of_lt_le
          · rw [Nat.one_mul]
            exact top
          · rw [Nat.pow_succ] at small
            omega
        rw [Nat.testBit_eq_decide_div_mod_eq, once]
        decide
      have set : t.toNat.testBit (1 + j) = true := by
        refine (spread (1 + j)).mpr ⟨Nat.log 2 bucket.toNat - 1 - j, by omega, ?_⟩
        rw [show 1 + j + (Nat.log 2 bucket.toNat - 1 - j) = Nat.log 2 bucket.toNat by omega]
        exact highest
      rw [set, decide_eq_true inside, Bool.and_true, Bool.true_and]
    · have unset : t.toNat.testBit (1 + j) = false := by
        by_contra set
        obtain ⟨m, -, bit⟩ := (spread (1 + j)).mp (Bool.eq_true_of_not_eq_false set)
        have above : bucket.toNat.testBit (1 + j + m) = false := by
          apply Nat.testBit_eq_false_of_lt
          exact Nat.lt_of_lt_of_le small (Nat.pow_le_pow_right (by decide) (by omega))
        rw [above] at bit
        cases bit
      rw [unset, decide_eq_false inside, Bool.and_false, Bool.false_and]
  have one : Spread bucket bucket 1 := by
    intro j
    constructor
    · exact fun set => ⟨0, Nat.one_pos, set⟩
    · rintro ⟨m, low, set⟩
      cases show m = 0 by omega
      exact set
  have two : Spread bucket _ 2 := one.twice (show (1 : UInt64).toNat % 64 = 1 by decide)
  have four : Spread bucket _ 4 := two.twice (show (2 : UInt64).toNat % 64 = 2 by decide)
  have eight : Spread bucket _ 8 := four.twice (show (4 : UInt64).toNat % 64 = 4 by decide)
  have sixteen : Spread bucket _ 16 := eight.twice (show (8 : UInt64).toNat % 64 = 8 by decide)
  have half : Spread bucket _ 32 := sixteen.twice (show (16 : UInt64).toNat % 64 = 16 by decide)
  have whole : Spread bucket _ 64 := half.twice (show (32 : UInt64).toNat % 64 = 32 by decide)
  exact masked _ whole

end Segments

end Qthreads.Dict
