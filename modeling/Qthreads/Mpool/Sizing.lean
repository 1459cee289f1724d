import Qthreads.Mpool.Pool
import Mathlib.Data.Nat.Prime.Basic
import Mathlib.Tactic.Linarith
import Mathlib.Tactic.Ring

namespace Qthreads.Mpool

/-! `qt_mpool_create_aligned`

The sizes of a new pool.  Arithmetic on `size_t` has no result where it would wrap, and neither
has a division by zero. -/

def word (n : Nat) : Option Nat := if n < 2 ^ 64 then some n else none

def divide (a b : Nat) : Option Nat := if b = 0 then none else some (a / b)

def remainder (a b : Nat) : Option Nat := if b = 0 then none else some (a % b)

/-- The loop of the `qt_gcd` that divides. -/
def modGcd : Nat → Nat → Nat → Option Nat
  | 0, _, _ => none
  | fuel + 1, a, b =>
    if a = 0 then some b
    else
      let b := b % a
      if b = 0 then some a else modGcd fuel (a % b) b

/-- The `do` loop of the `qt_gcd` that shifts. -/
def halves : Nat → Nat → Nat → Option Nat
  | 0, _, _ => none
  | fuel + 1, a, b =>
    let (a, b) :=
      if a % 2 = 0 then (a / 2, b)
      else if b % 2 = 0 then (a, b / 2)
      else if b ≤ a then ((a - b) / 2, b)
      else (a, (b - a) / 2)
    if 0 < a then halves fuel a b else some b

def bothEven : Nat → Nat → Nat → Nat → Option Nat
  | 0, _, _, _ => none
  | fuel + 1, a, b, k =>
    if a % 2 = 0 ∧ b % 2 = 0 then bothEven fuel (a / 2) (b / 2) (k + 1)
    else (halves (a + b) a b).map (· * 2 ^ k)

def shiftGcd (a b : Nat) : Option Nat :=
  if a = 0 then some b else if b = 0 then some a else bothEven a a b 0

/-- `qt_gcd`, with `QTHREAD_SHIFT_GCD` or without. -/
def qtGcd (shift : Bool) (a b : Nat) : Option Nat :=
  if shift then shiftGcd a b else modGcd (a + 1) a b

def qtLcm (shift : Bool) (a b : Nat) : Option Nat := do
  let tmp ← qtGcd shift a b
  if tmp = 0 then some 0
  else
    let product ← word (a * b)
    divide product tmp

theorem modGcd_eq {fuel a : Nat} (b : Nat) (enough : a < fuel) :
    modGcd fuel a b = some (Nat.gcd a b) := by
  induction fuel generalizing a b with
  | zero => omega
  | succ fuel induction =>
    simp only [modGcd]
    split_ifs with zero divides
    · simp [zero]
    · rw [Nat.gcd_eq_left (Nat.dvd_of_mod_eq_zero divides)]
    · have smaller : b % a < a := Nat.mod_lt _ (by omega)
      have below : a % (b % a) < b % a := Nat.mod_lt _ (by omega)
      rw [induction _ (by omega), ← Nat.gcd_rec, ← Nat.gcd_rec]

theorem gcd_half {a b : Nat} (even : a % 2 = 0) (odd : b % 2 = 1) :
    Nat.gcd (a / 2) b = Nat.gcd a b := by
  have prime : Nat.Coprime 2 b := Nat.coprime_two_left.mpr (Nat.odd_iff.mpr odd)
  have twice : 2 * (a / 2) = a := by omega
  rw [← prime.gcd_mul_left_cancel (a / 2), twice]

theorem gcd_half_difference {a b : Nat} (oddA : a % 2 = 1) (oddB : b % 2 = 1) (le : b ≤ a) :
    Nat.gcd ((a - b) / 2) b = Nat.gcd a b := by
  rw [gcd_half (by omega) oddB, Nat.gcd_sub_self_left le]

theorem halves_eq {fuel a b : Nat} (someA : 0 < a) (someB : 0 < b)
    (odd : a % 2 = 1 ∨ b % 2 = 1) (enough : a + b ≤ fuel) :
    halves fuel a b = some (Nat.gcd a b) := by
  induction fuel generalizing a b with
  | zero => omega
  | succ fuel induction =>
    simp only [halves]
    by_cases evenA : a % 2 = 0
    · have left : 0 < a / 2 := by omega
      simp only [evenA, if_true, left]
      rw [induction left someB (by omega) (by omega), gcd_half evenA (by omega)]
    · by_cases evenB : b % 2 = 0
      · simp only [evenA, evenB, if_true, if_false, someA]
        rw [induction someA (by omega) (by omega) (by omega), Nat.gcd_comm,
          gcd_half evenB (by omega), Nat.gcd_comm]
      · by_cases le : b ≤ a
        · simp only [evenA, evenB, le, if_true, if_false]
          have same := gcd_half_difference (by omega) (by omega) le
          split_ifs with goes
          · rw [induction goes someB (by omega) (by omega), same]
          · have isZero : (a - b) / 2 = 0 := by omega
            rw [← same, isZero, Nat.gcd_zero_left]
        · simp only [evenA, evenB, le, if_false, someA, if_true]
          have same := gcd_half_difference (a := b) (b := a) (by omega) (by omega) (by omega)
          have left : 0 < (b - a) / 2 := by omega
          rw [induction someA left (by omega) (by omega), Nat.gcd_comm, same, Nat.gcd_comm]

theorem bothEven_eq {fuel a b : Nat} (k : Nat) (someA : 0 < a) (someB : 0 < b)
    (enough : a ≤ fuel) : bothEven fuel a b k = some (Nat.gcd a b * 2 ^ k) := by
  induction fuel generalizing a b k with
  | zero => omega
  | succ fuel induction =>
    simp only [bothEven]
    split_ifs with even
    · have doubled : Nat.gcd a b = 2 * Nat.gcd (a / 2) (b / 2) := by
        rw [← Nat.gcd_mul_left]
        congr 1 <;> omega
      rw [induction (k + 1) (by omega) (by omega) (by omega), doubled, Nat.pow_succ]
      congr 1
      ring
    · rw [halves_eq someA someB (by omega) (Nat.le_refl _)]
      rfl

theorem qtGcd_eq (shift : Bool) (a b : Nat) : qtGcd shift a b = some (Nat.gcd a b) := by
  cases shift with
  | false => exact modGcd_eq b (Nat.lt_succ_self a)
  | true =>
    simp only [qtGcd, shiftGcd, if_true]
    split_ifs with zeroA zeroB
    · simp [zeroA]
    · simp [zeroB]
    · rw [bothEven_eq 0 (by omega) (by omega) (Nat.le_refl a)]
      simp

theorem qtLcm_eq (shift : Bool) {a b : Nat} (someA : 0 < a) (fits : a * b < 2 ^ 64) :
    qtLcm shift a b = some (Nat.lcm a b) := by
  have positive : Nat.gcd a b ≠ 0 := Nat.ne_of_gt (Nat.gcd_pos_of_pos_left b someA)
  simp only [qtLcm, qtGcd_eq, word, divide, Option.bind_eq_bind, Option.bind_some, if_neg positive,
    if_pos fits]
  rfl

/-- Both ways to compute it give the greatest common divisor, which is a `size_t`, and with either
`qt_lcm` is the least common multiple where the product is a `size_t`. -/
theorem qtGcd_agree {a b : Nat} (fitsA : a < 2 ^ 64) (fitsB : b < 2 ^ 64) :
    (∀ shift, ∃ g < 2 ^ 64, qtGcd shift a b = some g ∧ g ∣ a ∧ g ∣ b ∧
      (∀ d, d ∣ a → d ∣ b → d ∣ g) ∧ (a = 0 → g = b) ∧ (b = 0 → g = a)) ∧
    (0 < a → 0 < b → a * b < 2 ^ 64 → ∀ shift, ∃ m, qtLcm shift a b = some m ∧
      0 < m ∧ a ∣ m ∧ b ∣ m ∧ ∀ n, a ∣ n → b ∣ n → m ∣ n) := by
  constructor
  · intro shift
    have bounded : Nat.gcd a b < 2 ^ 64 := by
      rcases Nat.eq_zero_or_pos a with rfl | someA
      · rwa [Nat.gcd_zero_left]
      · exact Nat.lt_of_le_of_lt (Nat.gcd_le_left b someA) fitsA
    refine ⟨Nat.gcd a b, bounded, qtGcd_eq shift a b, Nat.gcd_dvd_left a b, Nat.gcd_dvd_right a b,
      fun d => Nat.dvd_gcd, ?_, ?_⟩
    · rintro rfl
      exact Nat.gcd_zero_left b
    · rintro rfl
      exact Nat.gcd_zero_right a
  · intro someA someB fits shift
    exact ⟨Nat.lcm a b, qtLcm_eq shift someA fits, Nat.lcm_pos someA someB, Nat.dvd_lcm_left a b,
      Nat.dvd_lcm_right a b, fun n => Nat.lcm_dvd⟩

theorem qtGcd_agree_pages : ∃ m, qtLcm true 48 4096 = some m ∧ 0 < m ∧ 48 ∣ m ∧ 4096 ∣ m ∧
    ∀ n, 48 ∣ n → 4096 ∣ n → m ∣ n :=
  (qtGcd_agree (by decide) (by decide)).2 (by decide) (by decide) (by decide) true

structure Request where
  itemSize : Nat
  alignment : Nat

structure Sizing where
  itemSize : Nat
  alignment : Nat
  allocSize : Nat
  itemsPerAlloc : Nat
deriving DecidableEq

def effective (alignment : Nat) : Nat := if alignment ≤ 16 then 16 else alignment

def roundUp (size unit : Nat) : Option Nat := do
  let excess ← remainder size unit
  if excess ≠ 0 then word (size + (unit - excess)) else some size

/-- The item size of the pool: `sizeof(qt_mpool_cache_t)` at least, in pointers, aligned. -/
def adjusted (itemSize alignment : Nat) : Option Nat := do
  let itemSize := if itemSize < 16 then 16 else itemSize
  let itemSize ← roundUp itemSize 8
  roundUp itemSize (effective alignment)

/-- `max_alloc_size`, read from the environment where it is still zero, for two items at least. -/
def raised (env limit itemSize : Nat) : Option Nat := do
  let limit := if limit = 0 then env else limit
  let two ← word (itemSize * 2)
  some (if limit ≤ two then two else limit)

def doubleWhile (goes : Nat → Bool) : Nat → Nat → Option Nat
  | 0, _ => none
  | fuel + 1, size =>
    if goes size then (word (size * 2)).bind (doubleWhile goes fuel) else some size

def grown (pagesize limit itemSize allocSize : Nat) : Option Nat := do
  let allocSize ← doubleWhile (fun size => size / itemSize < 128 && size ≤ limit / 2) 65 allocSize
  let sixteen ← word (pagesize * 16)
  doubleWhile (fun size => size < sixteen) 65 allocSize

def blocked (shift : Bool) (pagesize limit itemSize : Nat) : Option (Nat × Nat) := do
  let allocSize ← qtLcm shift itemSize pagesize
  if limit < allocSize then
    let excess ← remainder itemSize pagesize
    let itemSize ← word (itemSize + (pagesize - excess))
    let maxNumItems ← divide limit itemSize
    let allocSize ← word (itemSize * maxNumItems)
    some (itemSize, allocSize)
  else some (itemSize, allocSize)

def enlarged (pagesize limit itemSize allocSize : Nat) : Option Nat :=
  if allocSize = 0 then some (if pagesize < itemSize then itemSize else pagesize)
  else grown pagesize limit itemSize allocSize

/-- The sizes of the pool, and `max_alloc_size` after the call.  The last test is the assertion
on the page size. -/
def create (shift : Bool) (pagesize env limit : Nat) (request : Request) :
    Option (Sizing × Nat) := do
  let itemSize ← adjusted request.itemSize request.alignment
  let limit ← raised env limit itemSize
  let (counted, allocSize) ← blocked shift pagesize limit itemSize
  let allocSize ← enlarged pagesize limit counted allocSize
  let itemsPerAlloc ← divide allocSize counted
  if pagesize % 8 = 0 then
    some (⟨itemSize, effective request.alignment, allocSize, itemsPerAlloc⟩, limit)
  else none

/-- `max_alloc_size` after calls that all returned. -/
def creates (shift : Bool) (pagesize env : Nat) : Nat → List Request → Option Nat
  | limit, [] => some limit
  | limit, request :: requests => do
      let (_, limit) ← create shift pagesize env limit request
      creates shift pagesize env limit requests

structure Sizing.Serves (sizing : Sizing) (request : Request) : Prop where
  asked : request.itemSize ≤ sizing.itemSize
  cached : 16 ≤ sizing.itemSize
  aligned : effective request.alignment ∣ sizing.itemSize
  fits : sizing.itemsPerAlloc * sizing.itemSize ≤ sizing.allocSize
  two : 2 ≤ sizing.itemsPerAlloc

def Sizing.Serves.sizes {sizing : Sizing} {request : Request} (serves : sizing.Serves request)
    (pagePtrs : Nat) (room : 2 ≤ pagePtrs) : Sizes where
  itemSize := sizing.itemSize
  allocSize := sizing.allocSize
  itemsPerAlloc := sizing.itemsPerAlloc
  pagePtrs := pagePtrs
  fits := serves.fits
  two := serves.two
  room := room

namespace Request

variable (request : Request)

def unit : Nat :=
  effective request.alignment *
    ((max 16 request.itemSize + effective request.alignment - 1) / effective request.alignment)

def ceiling (env limit : Nat) : Nat := max (2 * request.unit) (if limit = 0 then env else limit)

def paged (pagesize : Nat) : Nat := pagesize * (request.unit / pagesize + 1)

def Roomy (pagesize ceiling : Nat) : Prop :=
  Nat.lcm request.unit pagesize ≤ ceiling ∨ 2 * request.paged pagesize ≤ ceiling ∨
    (request.paged pagesize ≤ ceiling ∧ request.paged pagesize < pagesize * 16)

end Request

theorem roundUp_spec (size : Nat) {unit : Nat} (positive : 0 < unit) (fits : size + unit < 2 ^ 64) :
    ∃ result, roundUp size unit = .some result ∧ unit ∣ result ∧ size ≤ result ∧
      result < size + unit := by
  have divided := Nat.div_add_mod size unit
  have below := Nat.mod_lt size positive
  have present : unit ≠ 0 := Nat.ne_of_gt positive
  simp only [roundUp, remainder, if_neg present, Option.bind_eq_bind, Option.bind_some]
  split_ifs with excess
  · have inside : size + (unit - size % unit) < 2 ^ 64 := by omega
    refine ⟨size + (unit - size % unit), if_pos inside, ⟨size / unit + 1, ?_⟩, ?_, ?_⟩
    · rw [Nat.mul_add_one]
      omega
    · omega
    · omega
  · have multiple : size % unit = 0 := by omega
    exact ⟨size, rfl, Nat.dvd_of_mod_eq_zero multiple, Nat.le_refl _, by omega⟩

theorem ceiling_unique {size unit result : Nat} (positive : 0 < unit) (divides : unit ∣ result)
    (low : size ≤ result) (high : result < size + unit) :
    result = unit * ((size + unit - 1) / unit) := by
  obtain ⟨count, rfl⟩ := divides
  congr 1
  refine (Nat.div_eq_of_lt_le ?_ ?_).symm
  · rw [Nat.mul_comm]
    omega
  · rw [Nat.add_one_mul, Nat.mul_comm]
    omega

def PowerOrZero (alignment : Nat) : Prop := alignment = 0 ∨ ∃ power, alignment = 2 ^ power

theorem effective_large (alignment : Nat) : 16 ≤ effective alignment := by
  simp only [effective]
  split_ifs <;> omega

theorem sixteen_dvd_effective {alignment : Nat} (power : PowerOrZero alignment) :
    16 ∣ effective alignment := by
  simp only [effective]
  split_ifs with low
  · exact Nat.dvd_refl 16
  · obtain rfl | ⟨power, rfl⟩ := power
    · omega
    · have large : 4 ≤ power := by
        by_contra small
        have : 2 ^ power ≤ 2 ^ 4 := Nat.pow_le_pow_right (by decide) (by omega)
        omega
      exact Nat.pow_dvd_pow 2 large

namespace Request

variable {request : Request}

theorem effective_dvd_unit : effective request.alignment ∣ request.unit := Nat.dvd_mul_right _ _

theorem le_unit : max 16 request.itemSize ≤ request.unit := by
  have large := effective_large request.alignment
  have divided := Nat.div_add_mod (max 16 request.itemSize + effective request.alignment - 1)
    (effective request.alignment)
  have below := Nat.mod_lt (max 16 request.itemSize + effective request.alignment - 1)
    (Nat.lt_of_lt_of_le (by decide) large)
  simp only [unit]
  omega

theorem unit_lt : request.unit < max 16 request.itemSize + effective request.alignment := by
  have large := effective_large request.alignment
  have divided := Nat.div_mul_le_self (max 16 request.itemSize + effective request.alignment - 1)
    (effective request.alignment)
  rw [Nat.mul_comm] at divided
  simp only [unit]
  omega

theorem unit_le (power : PowerOrZero request.alignment)
    (asks : 0 < request.itemSize + request.alignment) :
    request.unit ≤ 16 * (request.itemSize + request.alignment) := by
  have below := request.unit_lt
  obtain ⟨count, same⟩ := Nat.dvd_trans (sixteen_dvd_effective power) request.effective_dvd_unit
  simp only [effective] at below
  split_ifs at below <;> omega

theorem unit_nothing (nothing : request.itemSize + request.alignment = 0) : request.unit = 16 := by
  have noSize : request.itemSize = 0 := by omega
  have noAlignment : request.alignment = 0 := by omega
  simp only [unit, effective, noSize, noAlignment]
  rfl

theorem adjusted_eq (power : PowerOrZero request.alignment)
    (fits : request.itemSize + 2 * request.unit < 2 ^ 63) :
    adjusted request.itemSize request.alignment = some request.unit := by
  have large := effective_large request.alignment
  have low := request.le_unit
  have bounded : effective request.alignment ≤ request.unit :=
    Nat.le_of_dvd (by omega) request.effective_dvd_unit
  have started : (if request.itemSize < 16 then 16 else request.itemSize) =
      max 16 request.itemSize := by
    split_ifs <;> omega
  obtain ⟨pointers, roundedPointers, eight, above, below⟩ :=
    roundUp_spec (max 16 request.itemSize) (show 0 < 8 by decide) (by omega)
  obtain ⟨result, rounded, divides, reaches, short⟩ :=
    roundUp_spec pointers (show 0 < effective request.alignment by omega) (by omega)
  have eightResult : 8 ∣ result :=
    Nat.dvd_trans (Nat.dvd_trans (by decide) (sixteen_dvd_effective power)) divides
  have eightUnit : 8 ∣ effective request.alignment :=
    Nat.dvd_trans (by decide) (sixteen_dvd_effective power)
  have same : result = request.unit :=
    ceiling_unique (by omega) divides (by omega) (by omega)
  simp only [adjusted, started, roundedPointers, Option.bind_eq_bind, Option.bind_some, rounded,
    same]

end Request

theorem doubleWhile_spec (goes : Nat → Bool) {fuel size : Nat} (below : size < 2 ^ 64)
    (enough : 2 ^ 64 ≤ size * 2 ^ fuel) (fits : ∀ n, goes n = true → n * 2 < 2 ^ 64) :
    ∃ times, doubleWhile goes fuel size = some (size * 2 ^ times) ∧ size * 2 ^ times < 2 ^ 64 ∧
      (times = 0 ↔ goes size = false) := by
  induction fuel generalizing size with
  | zero => omega
  | succ fuel induction =>
    simp only [doubleWhile]
    by_cases started : goes size = true
    · have inside := fits size started
      obtain ⟨times, ended, short, -⟩ := induction inside (by rwa [Nat.mul_assoc, ← Nat.pow_succ'])
      rw [Nat.mul_assoc, ← Nat.pow_succ'] at ended short
      refine ⟨times + 1, ?_, short, by simp [started]⟩
      rw [if_pos started, word, if_pos inside, Option.bind_some, ended]
    · exact ⟨0, by simp [started], by simpa using below, by simpa using started⟩

theorem grown_spec (itemSize : Nat) {pagesize limit allocSize : Nat} (positive : 0 < allocSize)
    (bounded : limit < 2 ^ 64) (fits : allocSize ≤ limit) (pages : pagesize * 32 ≤ 2 ^ 64)
    (paged : 0 < pagesize) :
    ∃ times, grown pagesize limit itemSize allocSize = some (allocSize * 2 ^ times) ∧
      (times = 0 ↔ ¬(allocSize / itemSize < 128 ∧ allocSize ≤ limit / 2) ∧
        pagesize * 16 ≤ allocSize) := by
  have sixteen : pagesize * 16 < 2 ^ 64 := by omega
  have enough : ∀ size, 0 < size → 2 ^ 64 ≤ size * 2 ^ 65 := by
    intro size present
    omega
  obtain ⟨items, first, inside, started⟩ := doubleWhile_spec
    (fun size => size / itemSize < 128 && size ≤ limit / 2)
    (Nat.lt_of_le_of_lt fits bounded) (enough allocSize positive) (by
      intro n goes
      simp only [Bool.and_eq_true, decide_eq_true_eq] at goes
      omega)
  have present : 0 < allocSize * 2 ^ items := Nat.mul_pos positive (Nat.two_pow_pos items)
  obtain ⟨more, second, -, continued⟩ := doubleWhile_spec
    (fun size => size < pagesize * 16) inside (enough _ present) (by
      intro n goes
      simp only [decide_eq_true_eq] at goes
      omega)
  refine ⟨items + more, ?_, ?_⟩
  · simp only [grown, first, Option.bind_eq_bind, Option.bind_some, word, if_pos sixteen, second,
      Nat.pow_add, Nat.mul_assoc]
  · rw [Nat.add_eq_zero_iff, continued, decide_eq_false_iff_not, Nat.not_lt]
    refine Iff.trans ?_ (and_congr_left fun _ => by simpa using started)
    refine and_congr_right fun zero => ?_
    rw [zero, Nat.pow_zero, Nat.mul_one]

theorem enlarged_spec {pagesize limit counted count : Nat} (bounded : limit < 2 ^ 64)
    (pages : pagesize * 32 ≤ 2 ^ 64) (paged : 0 < pagesize) (sized : 0 < counted)
    (fits : counted * count ≤ limit) (whole : count = 0 → pagesize ≤ counted) :
    ∃ items, enlarged pagesize limit counted (counted * count) = some (counted * items) ∧
      (2 ≤ items ↔ 2 ≤ count ∨ (count = 1 ∧
        (counted ≤ limit / 2 ∨ counted < pagesize * 16))) := by
  by_cases empty : count = 0
  · refine ⟨1, ?_, by omega⟩
    rw [enlarged, empty, Nat.mul_zero, if_pos rfl, Nat.mul_one]
    have := whole empty
    split_ifs
    · rfl
    · congr 1
      omega
  · have positive : 0 < counted * count := Nat.mul_pos sized (by omega)
    obtain ⟨times, ended, stays⟩ := grown_spec counted positive bounded fits pages paged
    refine ⟨count * 2 ^ times, ?_, ?_⟩
    · rw [enlarged, if_neg (by omega), ended, Nat.mul_assoc]
    · rw [Nat.mul_div_cancel_left count sized] at stays
      by_cases two : 2 ≤ count
      · have more : count ≤ count * 2 ^ times := Nat.le_mul_of_pos_right count (Nat.two_pow_pos times)
        omega
      · have one : count = 1 := by omega
        subst one
        rw [Nat.mul_one] at stays
        have doubles : 2 ≤ 2 ^ times ↔ times ≠ 0 := by
          cases times with
          | zero => simp
          | succ times => simp [Nat.pow_succ]; exact Nat.two_pow_pos times
        rw [Nat.one_mul, doubles, Ne, stays]
        omega

namespace Request

variable {request : Request}

theorem unit_pos : 0 < request.unit := by
  have := request.le_unit
  omega

theorem paged_eq {pagesize : Nat} (paged : 0 < pagesize) :
    request.unit + (pagesize - request.unit % pagesize) = request.paged pagesize := by
  have divided := Nat.div_add_mod request.unit pagesize
  have below := Nat.mod_lt request.unit paged
  rw [Request.paged, Nat.mul_add_one]
  omega

theorem blocked_spec (shift : Bool) {pagesize limit : Nat} (paged : 0 < pagesize)
    (two : 2 * request.unit ≤ limit) (bounded : limit < 2 ^ 64)
    (product : request.unit * pagesize < 2 ^ 64) (sum : request.unit + pagesize < 2 ^ 64) :
    ∃ counted count, blocked shift pagesize limit request.unit = some (counted, counted * count) ∧
      0 < counted ∧ request.unit ≤ counted ∧ counted * count ≤ limit ∧
      (count = 0 → pagesize ≤ counted) ∧
      ((2 ≤ count ∨ (count = 1 ∧ (counted ≤ limit / 2 ∨ counted < pagesize * 16))) ↔
        request.Roomy pagesize limit) := by
  have positive := request.unit_pos
  have multiple := qtLcm_eq shift positive product
  have divides := Nat.dvd_lcm_left request.unit pagesize
  have someLcm : 0 < Nat.lcm request.unit pagesize := Nat.lcm_pos positive paged
  have present : pagesize ≠ 0 := Nat.ne_of_gt paged
  simp only [blocked, multiple, Option.bind_eq_bind, Option.bind_some]
  split_ifs with passes
  · have same := request.paged_eq paged
    have pos : 0 < request.paged pagesize := by omega
    have inside : request.paged pagesize < 2 ^ 64 := by
      have := Nat.mod_lt request.unit paged
      omega
    have held := Nat.mul_div_le limit (request.paged pagesize)
    have within : request.paged pagesize * (limit / request.paged pagesize) < 2 ^ 64 := by omega
    refine ⟨request.paged pagesize, limit / request.paged pagesize, ?_, pos, ?_, held, ?_, ?_⟩
    · simp only [remainder, if_neg present, same, word, if_pos inside, divide,
        if_neg (Nat.ne_of_gt pos), if_pos within, Option.bind_some]
    · omega
    · exact fun _ => Nat.le_mul_of_pos_right pagesize (Nat.succ_pos _)
    · rw [Request.Roomy, Nat.le_div_iff_mul_le pos]
      have one : limit / request.paged pagesize = 1 ↔
          request.paged pagesize ≤ limit ∧ limit < 2 * request.paged pagesize := by
        rw [Nat.div_eq_iff pos]
        omega
      rw [one]
      omega
  · refine ⟨request.unit, Nat.lcm request.unit pagesize / request.unit, ?_, positive,
      Nat.le_refl _, ?_, ?_, ?_⟩
    · rw [Nat.mul_div_cancel' divides]
    · rw [Nat.mul_div_cancel' divides]
      omega
    · intro zero
      have := Nat.div_pos (Nat.le_of_dvd someLcm divides) positive
      omega
    · have pos := Nat.div_pos (Nat.le_of_dvd someLcm divides) positive
      refine iff_of_true ?_ (.inl (by omega))
      omega

theorem raised_eq {env limit : Nat} (fits : request.unit * 2 < 2 ^ 64) :
    raised env limit request.unit = some (request.ceiling env limit) := by
  simp only [raised, word, if_pos fits, Option.bind_eq_bind, Option.bind_some, ceiling]
  split_ifs <;> congr 1 <;> omega

structure Bounded (request : Request) (pagesize : Nat) : Prop where
  paged : 0 < pagesize
  adjusts : request.itemSize + 2 * request.unit < 2 ^ 63
  doubles : request.unit * 2 < 2 ^ 64
  product : request.unit * pagesize < 2 ^ 64
  sum : request.unit + pagesize < 2 ^ 64
  pages : pagesize * 32 ≤ 2 ^ 64

theorem bounded {pagesize : Nat} (power : PowerOrZero request.alignment) (paged : 0 < pagesize)
    (small : 256 * (request.itemSize + request.alignment) * pagesize < 2 ^ 64)
    (asks : 0 < request.itemSize + request.alignment ∨ pagesize < 2 ^ 60)
    (page : ∃ power, pagesize = 2 ^ power) : request.Bounded pagesize := by
  by_cases positive : 0 < request.itemSize + request.alignment
  · have low := unit_le power positive
    have scaled := Nat.mul_le_mul_right pagesize low
    have unitScaled : request.unit * 1 ≤ request.unit * pagesize := Nat.mul_le_mul_left _ paged
    have pageScaled := Nat.mul_le_mul_right pagesize positive
    have sizeScaled := Nat.mul_le_mul_left (request.itemSize + request.alignment) paged
    rw [Nat.mul_assoc] at small scaled
    constructor <;> omega
  · have nothing : request.itemSize + request.alignment = 0 := by omega
    have unit := request.unit_nothing nothing
    obtain ⟨power, rfl⟩ := page
    have low : power < 60 := by
      have short : 2 ^ power < 2 ^ 60 := by omega
      exact (Nat.pow_lt_pow_iff_right (by decide)).mp short
    have high : 2 ^ power ≤ 2 ^ 59 := Nat.pow_le_pow_right (by decide) (by omega)
    have product : request.unit * 2 ^ power = 16 * 2 ^ power := by rw [unit]
    constructor <;> omega

theorem create_spec (shift : Bool) {pagesize env limit : Nat} (bounded : request.Bounded pagesize)
    (power : PowerOrZero request.alignment) (zero : pagesize % 8 = 0)
    (within : request.ceiling env limit < 2 ^ 64) :
    ∃ counted items, create shift pagesize env limit request =
        .some (⟨request.unit, effective request.alignment, counted * items, items⟩,
          request.ceiling env limit) ∧
      request.unit ≤ counted ∧
      (2 ≤ items ↔ request.Roomy pagesize (request.ceiling env limit)) := by
  have two : 2 * request.unit ≤ request.ceiling env limit := Nat.le_max_left _ _
  obtain ⟨counted, count, block, positive, grows, fits, whole, roomy⟩ :=
    blocked_spec shift bounded.paged two within bounded.product bounded.sum
  obtain ⟨items, settled, two⟩ :=
    enlarged_spec within bounded.pages bounded.paged positive fits whole
  refine ⟨counted, items, ?_, grows, two.trans roomy⟩
  simp only [create, adjusted_eq power bounded.adjusts, raised_eq bounded.doubles, block, settled,
    Option.bind_eq_bind, Option.bind_some, divide, if_neg (Nat.ne_of_gt positive),
    Nat.mul_div_cancel_left items positive, if_pos zero]

theorem create_inv {shift : Bool} {pagesize env limit : Nat} {result : Sizing × Nat}
    (paged : 0 < pagesize) (returned : create shift pagesize env limit request = some result) :
    pagesize % 8 = 0 ∧
      ∃ itemSize, adjusted request.itemSize request.alignment = some itemSize ∧
        itemSize * pagesize < 2 ^ 64 ∧ raised env limit itemSize = some result.2 := by
  simp only [create, Option.bind_eq_bind, Option.bind_eq_some_iff] at returned
  obtain ⟨itemSize, adjusts, after, raises, ⟨counted, first⟩, block, allocSize, -, items, -, last⟩ :=
    returned
  split_ifs at last with asserted
  · obtain rfl := Option.some.inj last
    refine ⟨asserted, itemSize, adjusts, ?_, raises⟩
    simp only [blocked, qtLcm, qtGcd_eq, Option.bind_eq_bind, Option.bind_some,
      Option.bind_eq_some_iff] at block
    obtain ⟨multiple, found, -⟩ := block
    have nonzero : Nat.gcd itemSize pagesize ≠ 0 := Nat.ne_of_gt (Nat.gcd_pos_of_pos_right _ paged)
    rw [if_neg nonzero, Option.bind_eq_some_iff] at found
    obtain ⟨product, fits, -⟩ := found
    simp only [word] at fits
    split_ifs at fits with inside
    exact inside

theorem raised_lt {env limit itemSize after : Nat} (bounded : env < 2 ^ 64) (below : limit < 2 ^ 64)
    (raises : raised env limit itemSize = some after) : after < 2 ^ 64 := by
  simp only [raised, word, Option.bind_eq_bind, Option.bind_eq_some_iff] at raises
  obtain ⟨two, twice, last⟩ := raises
  split_ifs at twice last <;> simp only [Option.some.injEq] at twice last <;> omega

theorem creates_lt {shift : Bool} {pagesize env limit after : Nat} {earlier : List Request}
    (paged : 0 < pagesize) (bounded : env < 2 ^ 64) (below : limit < 2 ^ 64)
    (ran : creates shift pagesize env limit earlier = some after) : after < 2 ^ 64 := by
  induction earlier generalizing limit with
  | nil =>
    obtain rfl := Option.some.inj ran
    exact below
  | cons request earlier induction =>
    simp only [creates, Option.bind_eq_bind, Option.bind_eq_some_iff] at ran
    obtain ⟨result, returned, rest⟩ := ran
    obtain ⟨-, itemSize, -, -, raises⟩ := create_inv paged returned
    exact induction (raised_lt bounded below raises) rest

/-- Memory pool sizing after any earlier calls: a call gives a pool that serves its request
exactly where a page holds a pointer, sixteen pages fit in a word, and the limit has room for a
least common multiple of two items, for two paged items, or for one of fewer than sixteen pages. -/
theorem create_serves_iff (shift : Bool) {pagesize env limit : Nat} (earlier : List Request)
    (page : ∃ power, pagesize = 2 ^ power) (power : PowerOrZero request.alignment)
    (small : 256 * (request.itemSize + request.alignment) * pagesize < 2 ^ 64)
    (bounded : env < 2 ^ 64) (ran : creates shift pagesize env 0 earlier = some limit) :
    (∃ sizing after, create shift pagesize env limit request = some (sizing, after) ∧
        sizing.Serves request) ↔
      8 ≤ pagesize ∧ (0 < request.itemSize + request.alignment ∨ pagesize < 2 ^ 60) ∧
        request.Roomy pagesize (request.ceiling env limit) := by
  have paged : 0 < pagesize := by
    obtain ⟨power, rfl⟩ := page
    exact Nat.two_pow_pos power
  have below : limit < 2 ^ 64 := creates_lt paged bounded (by decide) ran
  have within : request.unit * 2 < 2 ^ 64 → request.ceiling env limit < 2 ^ 64 := by
    intro fits
    simp only [ceiling]
    split_ifs <;> omega
  constructor
  · rintro ⟨sizing, after, returned, serves⟩
    obtain ⟨asserted, itemSize, adjusts, product, -⟩ := create_inv paged returned
    have asks : 0 < request.itemSize + request.alignment ∨ pagesize < 2 ^ 60 := by
      by_contra! large
      have nothing : request.itemSize + request.alignment = 0 := by omega
      have unit := request.unit_nothing nothing
      rw [adjusted_eq power (by omega), unit] at adjusts
      obtain rfl := Option.some.inj adjusts
      omega
    have arithmetic := request.bounded power paged small asks page
    obtain ⟨counted, items, made, -, two⟩ :=
      create_spec shift arithmetic power asserted (within arithmetic.doubles)
    rw [made] at returned
    obtain ⟨rfl, -⟩ := Prod.mk.inj (Option.some.inj returned)
    exact ⟨by omega, asks, two.mp serves.two⟩
  · rintro ⟨eight, asks, roomy⟩
    have asserted : pagesize % 8 = 0 := by
      obtain ⟨power, rfl⟩ := page
      have three : 3 ≤ power := by
        by_contra few
        have : 2 ^ power ≤ 2 ^ 2 := Nat.pow_le_pow_right (by decide) (by omega)
        omega
      exact Nat.mod_eq_zero_of_dvd (Nat.pow_dvd_pow 2 three)
    have arithmetic := request.bounded power paged small asks page
    obtain ⟨counted, items, made, grows, two⟩ :=
      create_spec shift arithmetic power asserted (within arithmetic.doubles)
    have low := request.le_unit
    refine ⟨_, _, made, ?_, ?_, request.effective_dvd_unit, ?_, two.mpr roomy⟩
    · exact Nat.le_trans (Nat.le_max_right _ _) low
    · exact Nat.le_trans (Nat.le_max_left _ _) low
    · rw [Nat.mul_comm]
      exact Nat.mul_le_mul_right items grows

theorem create_serves_paged :
    ∃ sizing after, create false 4096 8192 8192 ⟨48, 0⟩ = some (sizing, after) ∧
      sizing.Serves ⟨48, 0⟩ :=
  (create_serves_iff false [⟨1000, 64⟩] ⟨12, by decide⟩ (.inl rfl) (by decide) (by decide)
    (by decide +kernel)).mpr ⟨by decide, by decide, .inr (.inl (by decide))⟩

/-- With a limit under a page the same items get a block of one. -/
theorem create_one_item :
    ¬∃ sizing after, create false 4096 64 0 ⟨48, 0⟩ = some (sizing, after) ∧
      sizing.Serves ⟨48, 0⟩ := by
  have made : create false 4096 64 0 ⟨48, 0⟩ = some (⟨48, 16, 4096, 1⟩, 96) := by decide +kernel
  rintro ⟨sizing, after, returned, serves⟩
  rw [made] at returned
  obtain ⟨rfl, -⟩ := Prod.mk.inj (Option.some.inj returned)
  exact absurd serves.two (by decide)

end Request

end Qthreads.Mpool
