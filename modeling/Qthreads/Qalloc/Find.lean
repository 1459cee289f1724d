import Qthreads.Qalloc.Search

namespace Qthreads.Qalloc

open Lib

variable {array : List Byte} {count i s start byte : Nat} {left : Int}

def Blocked (array : List Byte) (count s : Nat) : Prop :=
  ∃ place, s ≤ place ∧ place < s + count ∧ place < 8 * array.length ∧ bit array place = true

/-- What is asked of a search: a run of zero bits is found and set and nothing else, or there is none
and nothing happens. -/
structure Finds (array : List Byte) (count : Nat) (result : List Byte × Nat) : Prop where
  found : (∃ start, ZeroRun array start count) →
    ZeroRun array result.2 count ∧ Written array result.1 result.2 count true
  nothing : (¬∃ start, ZeroRun array start count) → result = (array, sizeMax)

/-- The bits from some start to the end of the bitmap are zero, no run begins before, and the
run from there on ends with the bitmap or up to seven bits behind it. -/
def RunsOff (array : List Byte) (count : Nat) : Prop :=
  ∃ start < 8 * array.length, (∀ i, start ≤ i → i < 8 * array.length → bit array i = false) ∧
    (∀ s < start, ¬ZeroRun array s count) ∧ 8 * array.length ≤ start + count ∧
    start + count ≤ 8 * array.length + 7 ∧ ¬(count = 8 ∧ start + count = 8 * array.length)

def Searched (array : List Byte) (count : Nat) : Option (List Byte × Nat) → Prop
  | none => RunsOff array count
  | some result => ¬RunsOff array count ∧ Finds array count result

def Ready (array : List Byte) (count : Nat) : Stage → Nat → Prop
  | .one, byte => ∀ s < 8 * byte, Blocked array count s
  | .two start left, byte => byte ≤ array.length ∧ start < 8 * byte ∧
      (∀ s < start, Blocked array count s) ∧
      (∀ i, start ≤ i → i < 8 * byte → bit array i = false) ∧
      left + 8 * byte = count + start ∧ 8 ≤ left
  | .three start left, byte => byte < array.length ∧ start < 8 * (byte + 1) ∧
      (∀ s < start, Blocked array count s) ∧
      (∀ i, start ≤ i → i < 8 * (byte + 1) → bit array i = false) ∧
      left + 8 * (byte + 1) = count + start ∧ 0 ≤ left ∧ left < 8 ∧ ¬(count = 8 ∧ left = 0)

theorem Blocked.not_run (blocked : Blocked array count s) : ¬ZeroRun array s count := by
  obtain ⟨place, low, high, -, set⟩ := blocked
  intro run
  rw [run.zero place low high] at set
  cases set

theorem exists_bit (inside : byte < array.length) (nonzero : array[byte] ≠ 0) :
    ∃ place, 8 * byte ≤ place ∧ place < 8 * (byte + 1) ∧ bit array place = true := by
  by_contra! never
  refine nonzero (BitVec.eq_of_getMsbD_eq fun j below => ?_)
  have zero := never (8 * byte + j) (by omega) (by omega)
  rw [bit_eq_getElem inside (by omega)] at zero
  have rest : (8 * byte + j) % 8 = j := by omega
  rw [rest] at zero
  simpa using zero

theorem blocked_here (place : Nat) (low : s ≤ place) (high : place < s + count)
    (inside : place < 8 * array.length) (set : bit array place = true) : Blocked array count s :=
  ⟨place, low, high, inside, set⟩

theorem Ready.odd (ready : Ready array count .one byte) (many : 8 ≤ count) (inside : byte < array.length)
    (odd : array[byte] &&& 1 ≠ 0) : Ready array count .one (byte + 1) := by
  intro s less
  by_cases earlier : s < 8 * byte
  · exact ready s earlier
  · refine blocked_here (8 * byte + 7) (by omega) (by omega) (by omega) ?_
    rw [bit_eq_getElem inside (by omega), show (8 * byte + 7) % 8 = 7 by omega]
    exact odd_last odd

theorem Ready.candidate (ready : Ready array count .one byte) (many : 8 ≤ count)
    (inside : byte < array.length) (even : array[byte] &&& 1 = 0) :
    (∀ s < byte * 8 + (8 - available array[byte]), Blocked array count s) ∧
      ∀ i, byte * 8 + (8 - available array[byte]) ≤ i → i < 8 * (byte + 1) → bit array i = false := by
  obtain ⟨one, eight, zero, before⟩ := available_spec even
  constructor
  · intro s less
    by_cases earlier : s < 8 * byte
    · exact ready s earlier
    · have part : available array[byte] < 8 := by omega
      refine blocked_here (8 * byte + (7 - available array[byte])) (by omega) (by omega) (by omega) ?_
      rw [bit_eq_getElem inside (by omega),
        show (8 * byte + (7 - available array[byte])) % 8 = 7 - available array[byte] by omega]
      exact before part
  · intro i low high
    rw [bit_eq_getElem inside (by omega)]
    exact zero _ (by omega) (by omega)

theorem searched_found {after : List Byte}
    (run : ZeroRun array start count) (written : Written array after start count true)
    (room : start + count < 8 * array.length ∨ count = 8) : Searched array count (some (after, start)) := by
  constructor
  · rintro ⟨other, inside, -, first, low, high, apart⟩
    have order : other ≤ start := by
      by_contra later
      exact first start (by omega) run
    have := run.inside
    omega
  · exact ⟨fun _ => ⟨run, written⟩, fun absent => absurd ⟨start, run⟩ absent⟩

theorem searched_nothing (never : ∀ s, ¬ZeroRun array s count) (stays : ¬RunsOff array count) :
    Searched array count (some (array, sizeMax)) :=
  ⟨stays, fun ⟨start, run⟩ => absurd run (never start), fun _ => rfl⟩

theorem Ready.passed (ready : Ready array count .one byte) (many : 8 ≤ count)
    (past : array.length ≤ byte) : Searched array count (some (array, sizeMax)) := by
  refine searched_nothing (fun s run => ?_) ?_
  · have := run.inside
    exact (ready s (by omega)).not_run run
  · rintro ⟨start, inside, zero, -, -⟩
    obtain ⟨place, low, -, within, set⟩ := ready start (by omega)
    rw [zero place low within] at set
    cases set

theorem Ready.short (ready : Ready array count (.two start left) byte) (past : array.length ≤ byte) :
    Searched array count (some (array, sizeMax)) := by
  obtain ⟨within, order, blocked, zero, sum, eight⟩ := ready
  refine searched_nothing (fun s run => ?_) ?_
  · by_cases earlier : s < start
    · exact (blocked s earlier).not_run run
    · have := run.inside
      omega
  · rintro ⟨other, inside, zeros, -, -, high, -⟩
    by_cases earlier : other < start
    · obtain ⟨place, low, -, short, set⟩ := blocked other earlier
      rw [zeros place low short] at set
      cases set
    · omega

theorem Ready.beyond (ready : Ready array count (.three start left) byte)
    (past : ¬byte + 1 < array.length) : Searched array count none := by
  obtain ⟨within, order, blocked, zero, sum, low, high, apart⟩ := ready
  have last : byte + 1 = array.length := by omega
  refine ⟨start, by omega, fun i from_ upTo => zero i from_ (by omega), fun s earlier =>
    (blocked s earlier).not_run, by omega, by omega, ?_⟩
  rintro ⟨eight, ends⟩
  exact apart ⟨eight, by omega⟩

theorem Ready.broken (ready : Ready array count (.two start left) byte) (inside : byte < array.length)
    (nonzero : array[byte] ≠ 0) : Ready array count .one byte := by
  obtain ⟨within, order, blocked, zero, sum, eight⟩ := ready
  obtain ⟨place, low, high, set⟩ := exists_bit inside nonzero
  intro s less
  by_cases earlier : s < start
  · exact blocked s earlier
  · exact blocked_here place (by omega) (by omega) (by omega) set

theorem Ready.longer (ready : Ready array count (.two start left) byte) (inside : byte < array.length)
    (empty : array[byte] = 0) : ∀ i, start ≤ i → i < 8 * (byte + 1) → bit array i = false := by
  obtain ⟨within, order, blocked, zero, sum, eight⟩ := ready
  intro i low high
  by_cases earlier : i < 8 * byte
  · exact zero i low earlier
  · rw [bit_eq_getElem inside (by omega), empty]
    simp

theorem Ready.ends (ready : Ready array count (.three start left) byte) (inside : byte + 1 < array.length)
    (set : array[byte + 1] &&& (((0xff00#32 >>> left.toNat) &&& 0xff#32).setWidth 8) ≠ 0) :
    Ready array count .one (byte + 1) := by
  obtain ⟨within, order, blocked, zero, sum, low, high, apart⟩ := ready
  have bits := mt (topPart_zero (show left.toNat < 8 by omega)).mpr set
  push Not at bits
  obtain ⟨j, less, one⟩ := bits
  intro s below
  by_cases earlier : s < start
  · exact blocked s earlier
  · refine blocked_here (8 * (byte + 1) + j) (by omega) (by omega) (by omega) ?_
    rw [bit_eq_getElem inside (by omega), show (8 * (byte + 1) + j) % 8 = j by omega]
    simpa using one

theorem Ready.found (ready : Ready array count (.three start left) byte)
    (inside : byte + 1 < array.length)
    (free : array[byte + 1] &&& (((0xff00#32 >>> left.toNat) &&& 0xff#32).setWidth 8) = 0)
    (positive : 0 < count) :
    Searched array count (.some (markbits array start (start + count - 1), start)) := by
  obtain ⟨within, order, -, zero, sum, low, high, apart⟩ := ready
  have bits := (topPart_zero (show left.toNat < 8 by omega)).mp free
  have run : ZeroRun array start count := by
    refine ⟨by omega, fun i from_ upTo => ?_⟩
    by_cases earlier : i < 8 * (byte + 1)
    · exact zero i from_ earlier
    · rw [bit_eq_getElem inside (by omega)]
      exact bits _ (by omega)
  exact searched_found run (markbits_written positive run.inside) (.inl (by omega))

section

variable (ready : Ready array count .one byte) (many : 8 ≤ count) (inside : byte < array.length)
  (even : array[byte] &&& 1 = 0)
include ready many inside even

theorem Ready.whole (done : (count : Int) - available array[byte] = 0) :
    Searched array count (some (array.set byte 0xff, byte * 8 + (8 - available array[byte]))) := by
  obtain ⟨-, zero⟩ := ready.candidate many inside even
  obtain ⟨one, eight, -⟩ := available_spec even
  have all : available array[byte] = 8 := by omega
  have eightBits : count = 8 := by omega
  rw [all] at zero ⊢
  refine searched_found ⟨by omega, fun i low high => zero i low (by omega)⟩ ⟨by simp, ?_⟩
    (.inr eightBits)
  intro i
  rw [bit_set inside]
  by_cases here : i / 8 = byte
  · rw [if_pos here, if_pos (by omega)]
    have ones : ∀ j < 8, (0xff : Byte).getMsbD j = true := by decide
    exact ones _ (mod_lt i)
  · rw [if_neg here, if_neg (by omega)]

theorem Ready.nearly
    (more : (count : Int) - available array[byte] ≠ 0) (few : (count : Int) - available array[byte] < 8) :
    Ready array count (.three (byte * 8 + (8 - available array[byte]))
      (count - available array[byte])) byte := by
  obtain ⟨blocked, zero⟩ := ready.candidate many inside even
  obtain ⟨one, eight, -⟩ := available_spec even
  exact ⟨inside, by omega, blocked, zero, by omega, by omega, few, by omega⟩

theorem Ready.begins (more : ¬(count : Int) - available array[byte] < 8) :
    Ready array count (.two (byte * 8 + (8 - available array[byte]))
      (count - available array[byte])) (byte + 1) := by
  obtain ⟨blocked, zero⟩ := ready.candidate many inside even
  obtain ⟨one, eight, -⟩ := available_spec even
  exact ⟨inside, by omega, blocked, zero, by omega, by omega⟩

end

theorem findmarkMany_searched (stage : Stage) (byte : Nat) (many : 8 ≤ count) (fits : count < 2 ^ 63)
    (ready : Ready array count stage byte) :
    Searched array count (findmarkMany array count stage byte) := by
  have same : signed count = count := if_pos fits
  fun_induction findmarkMany array count stage byte
  case case1 byte inside value odd induction => exact induction (ready.odd many inside odd)
  case case2 byte inside value even nonzero startbit leftToFind done =>
    exact ready.whole many inside (not_not.mp even) (by rw [← same]; exact done)
  case case3 byte inside value even nonzero startbit leftToFind more few induction =>
    refine induction ?_
    simp only [leftToFind, same] at more few ⊢
    exact ready.nearly many inside (not_not.mp even) more few
  case case4 byte inside value even nonzero startbit leftToFind more enough induction =>
    refine induction ?_
    simp only [leftToFind, same] at enough ⊢
    exact ready.begins many inside (not_not.mp even) enough
  case case5 byte inside value even notZero induction =>
    have positive := (available_spec (not_not.mp even)).1
    omega
  case case6 byte past => exact ready.passed many (Nat.le_of_not_lt past)
  case case7 byte startbit leftToFind inside empty few induction =>
    have longer := ready.longer inside empty
    obtain ⟨within, order, blocked, zero, sum, eight⟩ := ready
    exact induction ⟨inside, by omega, blocked, longer, by omega, by omega, few, by omega⟩
  case case8 byte startbit leftToFind inside empty enough induction =>
    have longer := ready.longer inside empty
    obtain ⟨within, order, blocked, zero, sum, eight⟩ := ready
    exact induction ⟨inside, by omega, blocked, longer, by omega, by omega⟩
  case case9 byte startbit leftToFind inside nonzero induction => exact induction (ready.broken inside nonzero)
  case case10 byte startbit leftToFind past => exact ready.short (Nat.le_of_not_lt past)
  case case11 byte startbit leftToFind inside negative =>
    obtain ⟨-, -, -, -, -, low, -⟩ := ready
    omega
  case case12 byte startbit leftToFind inside _ set induction => exact induction (ready.ends inside set)
  case case13 byte startbit leftToFind inside _ free =>
    exact ready.found inside (not_not.mp free) (by omega)
  case case14 byte startbit leftToFind past => exact ready.beyond past

theorem slide_none (array : List Byte) (byte count rounds bit : Nat) {mask : Byte} (nonzero : mask ≠ 0) :
    slide array byte count (rounds + 1) mask bit = .some none := by
  rw [slide, if_neg nonzero]
  rfl

theorem findmarkFew_eq (few : 1 ≤ count ∧ count < 8) (byte : Nat) :
    findmarkFew array count byte = some (array, sizeMax) := by
  have mask : (((0xff00#32 >>> count) &&& 0xff#32).setWidth 8 : Byte) ≠ 0 := by
    have all : ∀ k : Fin 8, 1 ≤ k.val →
        (((0xff00#32 >>> k.val) &&& 0xff#32).setWidth 8 : Byte) ≠ 0 := by decide
    exact all ⟨count, few.2⟩ few.1
  fun_induction findmarkFew array count byte with
  | case1 byte _ _ absent => rw [slide_none _ _ _ _ _ mask] at absent; cases absent
  | case2 byte _ _ found same => rw [slide_none _ _ _ _ _ mask] at same; cases same
  | case3 byte _ _ _ induction => exact induction
  | case4 => rfl

def AllOdd (array : List Byte) (byte : Nat) : Prop :=
  ∀ k, ∀ inside : k < array.length, byte ≤ k → array[k] &&& 1 ≠ 0

theorem findmarkMany_negative (huge : 2 ^ 63 ≤ count) (fits : count < 2 ^ 64) (byte : Nat) :
    (AllOdd array byte → findmarkMany array count .one byte = some (array, sizeMax)) ∧
      (¬AllOdd array byte → findmarkMany array count .one byte = none) := by
  have negative : signed count = count - 2 ^ 64 := if_neg (by omega)
  induction rest : array.length - byte generalizing byte with
  | zero =>
    have passed : findmarkMany array count .one byte = some (array, sizeMax) := by
      rw [findmarkMany, dif_neg (by omega)]
    refine ⟨fun _ => passed, fun even => absurd ?_ even⟩
    intro k inside low
    omega
  | succ rest induction =>
    have inside : byte < array.length := by omega
    obtain ⟨all, present⟩ := induction (byte + 1) (by omega)
    by_cases odd : array[byte] &&& 1 ≠ 0
    · have next : findmarkMany array count .one byte = findmarkMany array count .one (byte + 1) := by
        rw [findmarkMany, dif_pos inside]
        exact if_pos odd
      have same : AllOdd array byte ↔ AllOdd array (byte + 1) := by
        constructor
        · exact fun all k within low => all k within (by omega)
        · intro all k within low
          rcases Nat.lt_or_eq_of_le low with later | rfl
          · exact all k within later
          · exact odd
      rw [next, same]
      exact ⟨all, present⟩
    · have spec := available_spec (not_not.mp odd)
      have fails : findmarkMany array count .one byte = none := by
        rw [findmarkMany, dif_pos inside, if_neg odd, if_pos (by omega)]
        simp only [negative]
        rw [if_neg (by omega), if_pos (by omega), findmarkMany]
        split_ifs <;> first | rfl | omega
      exact ⟨fun all => absurd (all byte inside (Nat.le_refl _)) odd, fun _ => fails⟩

theorem slot_spec {value : Byte} (open_ : value ≠ 0xff) :
    ∃ k < 8, ((List.range 8).find? fun k => value &&& (0x80#8 >>> k) = 0) = some k ∧
      value.getMsbD k = false ∧ ∀ j < k, value.getMsbD j = true := by
  have all : ∀ value : Byte, value ≠ 0xff →
      ∃ k < 8, ((List.range 8).find? fun k => value &&& (0x80#8 >>> k) = 0) = some k ∧
        value.getMsbD k = false ∧ ∀ j < k, value.getMsbD j = true := by
    decide +kernel
  exact all value open_

theorem oneMask (byte : Byte) {k : Nat} (low : k < 8) : ∀ j < 8,
    (byte ||| (0x80#8 >>> k)).getMsbD j = if j = k then true else byte.getMsbD j := by
  have all : ∀ k j : Fin 8, (0x80#8 >>> k.val).getMsbD j = decide (j.val = k.val) := by decide
  intro j below
  rw [BitVec.getMsbD_or, show (0x80#8 >>> k).getMsbD j = _ from all ⟨k, low⟩ ⟨j, below⟩]
  split_ifs with here <;> simp [here]

theorem firstOpen_spec {bytes : Nat} (inside : bytes ≤ array.length) (i : Nat) (order : i ≤ bytes) :
    ∃ last, firstOpen array bytes i = some last ∧ i ≤ last ∧ last ≤ bytes ∧
      (∀ k, i ≤ k → k < last → array[k]? = some 0xff) ∧
      (last < bytes → ∃ value, array[last]? = some value ∧ value ≠ 0xff) := by
  induction rest : bytes - i generalizing i with
  | zero =>
    refine ⟨i, by rw [firstOpen, if_neg (by omega)], Nat.le_refl i, order, ?_, ?_⟩ <;> omega
  | succ rest induction =>
    have within : i < array.length := by omega
    by_cases full : array[i] = 0xff
    · obtain ⟨last, found, low, high, all, present⟩ := induction (i + 1) (by omega) (by omega)
      refine ⟨last, ?_, by omega, high, ?_, present⟩
      · rw [firstOpen, if_pos (by omega), List.getElem?_eq_getElem within]
        simp only [if_pos full, found]
      · intro k from_ upTo
        rcases Nat.lt_or_eq_of_le from_ with later | rfl
        · exact all k later upTo
        · rw [List.getElem?_eq_getElem within, full]
    · refine ⟨i, ?_, Nat.le_refl i, order, by omega, fun _ => ⟨_, List.getElem?_eq_getElem within, full⟩⟩
      rw [firstOpen, if_pos (by omega), List.getElem?_eq_getElem within]
      simp only [if_neg full]

/-- What is asked of a search for one bit: the first zero bit is found and set, or there is none and
nothing happens. -/
structure FindsOne (array : List Byte) (bits : Nat) (result : List Byte × Nat) : Prop where
  found : (∃ i < bits / 8 * 8, bit array i = false) → result.2 < bits / 8 * 8 ∧
    bit array result.2 = false ∧ (∀ i < result.2, bit array i = true) ∧
      Written array result.1 result.2 1 true
  nothing : (¬∃ i < bits / 8 * 8, bit array i = false) → result = (array, bits / 8 * 8 + 8)

theorem full_bit {k : Nat} (full : array[k]? = some 0xff) (place : i / 8 = k) : bit array i = true := by
  obtain ⟨inside, same⟩ := List.getElem?_eq_some_iff.mp full
  have ones : ∀ j < 8, (0xff : Byte).getMsbD j = true := by decide
  rw [bit_eq_getElem inside place, same]
  exact ones _ (mod_lt i)

theorem findmarkBit_finds {bits : Nat} (inside : bits / 8 ≤ array.length) :
    ∃ result, findmarkBit array bits = some result ∧ FindsOne array bits result := by
  obtain ⟨last, opened, -, high, full, present⟩ := firstOpen_spec inside 0 (Nat.zero_le _)
  have before : ∀ i < last * 8, bit array i = true := fun i less =>
    full_bit (full (i / 8) (Nat.zero_le _) (by omega)) rfl
  simp only [findmarkBit, opened, Option.bind_eq_bind, Option.bind_some]
  by_cases nothing : last = bits / 8
  · rw [if_pos nothing]
    refine ⟨_, rfl, ?_, fun _ => rfl⟩
    rintro ⟨i, less, zero⟩
    rw [before i (by omega)] at zero
    cases zero
  · obtain ⟨value, found, open_⟩ := present (by omega)
    obtain ⟨within, same⟩ := List.getElem?_eq_some_iff.mp found
    obtain ⟨k, low, slot, zero, first⟩ := slot_spec open_
    rw [if_neg nothing, found, Option.bind_some, slot]
    have zeroBit : bit array (last * 8 + k) = false := by
      rw [bit_eq_getElem within (by omega), same, show (last * 8 + k) % 8 = k by omega]
      exact zero
    refine ⟨_, rfl, fun _ => ⟨by show last * 8 + k < _; omega, zeroBit, ?_, ?_, ?_⟩, ?_⟩
    · intro i less
      by_cases earlier : i < last * 8
      · exact before i earlier
      · rw [bit_eq_getElem within (by omega), same]
        exact first _ (by omega)
    · simp
    · intro i
      rw [bit_modify_if (fun byte => oneMask byte low) within]
      refine if_congr ?_ rfl rfl
      change _ ↔ last * 8 + k ≤ i ∧ i < last * 8 + k + 1
      omega
    · exact fun absent => absurd ⟨_, by omega, zeroBit⟩ absent

structure Exact (array : List Byte) (count : Nat) : Prop where
  many : ∃ result, findmarkBits array count = some result ∧ Finds array count result
  one : ∀ bits, bits / 8 ≤ array.length →
    ∃ result, findmarkBit array bits = some result ∧ FindsOne array bits result
  restores : ∀ start count, 1 ≤ count → ZeroRun array start count →
    unmarkbits (markbits array start (start + count - 1)) start count = array

/-- When the search for some bits is right: a few bits are never found, many are not looked for
behind the end, and a count that is negative as a `long int` needs a bit that is set at the end of
each byte. -/
def Searchable (array : List Byte) (count : Nat) : Prop :=
  if count < 8 then ¬∃ start, ZeroRun array start count
  else if count < 2 ^ 63 then ¬RunsOff array count
  else AllOdd array 0

theorem findmarkBits_iff (positive : 1 ≤ count) (fits : count < 2 ^ 64) :
    (∃ result, findmarkBits array count = .some result ∧ Finds array count result) ↔
      Searchable array count := by
  rw [findmarkBits, Searchable]
  by_cases few : count < 8
  · rw [if_pos few, if_pos few, findmarkFew_eq ⟨positive, few⟩]
    constructor
    · rintro ⟨result, same, finds⟩ run
      obtain rfl := Option.some.inj same
      have written := (finds.found run).2.bits
      have zero := (finds.found run).1
      have set := written sizeMax
      rw [if_pos ⟨Nat.le_refl _, by show sizeMax < sizeMax + count; omega⟩, zero.zero _ (Nat.le_refl _)
        (by show sizeMax < sizeMax + count; omega)] at set
      cases set
    · exact fun absent => ⟨_, rfl, fun run => absurd run absent, fun _ => rfl⟩
  · rw [if_neg few, if_neg few]
    by_cases short : count < 2 ^ 63
    · have searched := findmarkMany_searched .one 0 (by omega) short
        (show Ready array count .one 0 from fun s less => by omega)
      rw [if_pos short]
      cases ended : findmarkMany array count .one 0 with
      | none =>
        rw [ended] at searched
        exact iff_of_false (fun found => by cases found.choose_spec.1) (not_not.mpr searched)
      | some result =>
        rw [ended] at searched
        exact iff_of_true ⟨result, rfl, searched.2⟩ searched.1
    · obtain ⟨all, even⟩ := @findmarkMany_negative array count (by omega) fits 0
      rw [if_neg short]
      by_cases odd : AllOdd array 0
      · rw [all odd]
        refine iff_of_true ⟨_, rfl, ?_, fun _ => rfl⟩ odd
        rintro ⟨start, run⟩
        exfalso
        have within := run.inside
        have inside : start / 8 < array.length := by omega
        have last := run.zero (start / 8 * 8 + 7) (by omega) (by omega)
        rw [bit_eq_getElem inside (by omega), show (start / 8 * 8 + 7) % 8 = 7 by omega,
          odd_last (odd _ inside (Nat.zero_le _))] at last
        cases last
      · rw [even odd]
        exact iff_of_false (fun found => by cases found.choose_spec.1) odd

/-- The block bitmap search is sound and complete exactly where it is `Searchable`. -/
theorem exact_iff (atLeast : 2 ≤ count) (fits : count < 2 ^ 64) :
    Exact array count ↔ Searchable array count := by
  rw [← findmarkBits_iff (by omega) fits]
  constructor
  · exact fun exact => exact.many
  · exact fun many => ⟨many, fun _ inside => findmarkBit_finds inside, fun start count one run =>
      unmarkbits_markbits one run⟩

theorem exact_ten : Exact [0x00, 0xf0, 0x00, 0x03] 10 := by
  refine (exact_iff (by decide) (by decide)).mpr ?_
  rw [Searchable, if_neg (by decide), if_pos (by decide)]
  rintro ⟨start, inside, zero, -⟩
  exact absurd (zero 31 (Nat.le_of_lt_succ inside) (by decide)) (by decide)

/-- Two zero bytes, and two bits wanted. -/
theorem findmarkBits_few : ¬Exact [0, 0] 2 := by
  intro exact
  have searchable := (findmarkBits_iff (by decide) (by decide)).mp exact.many
  rw [Searchable, if_pos (by decide)] at searchable
  refine searchable ⟨0, by decide, fun i _ upTo => ?_⟩
  have first : i = 0 ∨ i = 1 := by omega
  rcases first with rfl | rfl <;> decide

end Qthreads.Qalloc
