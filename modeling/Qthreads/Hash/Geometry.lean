import Mathlib.Tactic.Ring
import Mathlib.Data.Nat.Log
import Qthreads.Lib.Probe
import Qthreads.Hash.Table

namespace Qthreads.Hash

open Qthreads.Lib

namespace Machine

variable (machine : Machine)

theorem bucketsize_eq : machine.bucketsize = 2 ^ machine.lineBits := by
  rw [bucketsize, linesize]
  omega

theorem minEntries_eq : machine.minEntries = 2 ^ (machine.pageBits - 3) := by
  have large := machine.pageBits_ge
  have split : machine.pageBits = machine.pageBits - 3 + 3 := by omega
  rw [minEntries, pagesize]
  conv_lhs => rw [split, Nat.pow_add]
  omega

theorem minEntries_large : 512 ≤ machine.minEntries := by
  rw [minEntries_eq]
  have large := machine.pageBits_ge
  calc 512 = 2 ^ 9 := by decide
    _ ≤ 2 ^ (machine.pageBits - 3) := Nat.pow_le_pow_right (by decide) (by omega)

end Machine

theorem encompassing_spec (k fuel exponent : Nat) (enough : k ≤ 2 ^ (exponent + fuel))
    (least : ∀ smaller < exponent, 2 ^ smaller < k) :
    ∃ bits, encompassing k fuel (2 ^ exponent) = 2 ^ bits ∧ k ≤ 2 ^ bits ∧
      ∀ smaller < bits, 2 ^ smaller < k := by
  induction fuel generalizing exponent with
  | zero => exact ⟨exponent, rfl, enough, least⟩
  | succ fuel ih =>
    rw [encompassing]
    by_cases more : 2 ^ exponent < k
    · have shifted : 2 ^ exponent <<< 1 = 2 ^ (exponent + 1) := by
        rw [Nat.shiftLeft_eq, Nat.pow_one, Nat.pow_succ]
      rw [if_pos more, shifted]
      refine ih (exponent + 1) ?_ ?_
      · rw [Nat.add_assoc, Nat.add_comm 1 fuel]
        exact enough
      · intro smaller below
        rcases Nat.lt_succ_iff_lt_or_eq.mp below with lower | rfl
        · exact least smaller lower
        · exact more
    · rw [if_neg more]
      exact ⟨exponent, rfl, Nat.le_of_not_lt more, least⟩

theorem encompassingPowerOfTwo_spec (k : Nat) :
    ∃ bits, encompassingPowerOfTwo k = 2 ^ bits ∧ k ≤ 2 ^ bits ∧
      ∀ smaller < bits, 2 ^ smaller < k := by
  have start := encompassing_spec k k 0
  rw [Nat.zero_add, Nat.pow_zero] at start
  exact start Nat.lt_two_pow_self.le nofun

theorem encompassingPowerOfTwo_pow (bits : Nat) : encompassingPowerOfTwo (2 ^ bits) = 2 ^ bits := by
  obtain ⟨found, same, enough, least⟩ := encompassingPowerOfTwo_spec (2 ^ bits)
  have upper : ¬ bits < found := fun below => Nat.lt_irrefl _ (least bits below)
  have lower : bits ≤ found := (Nat.pow_le_pow_iff_right (by decide)).mp enough
  rw [same, Nat.le_antisymm (Nat.le_of_not_lt upper) lower]

theorem roundEntries_pow {machine : Machine} {bits : Nat} (large : machine.minEntries ≤ 2 ^ bits) :
    machine.roundEntries (2 ^ bits) = 2 ^ bits := by
  have divides : machine.minEntries ∣ 2 ^ bits := by
    rw [machine.minEntries_eq] at large ⊢
    exact Nat.pow_dvd_pow 2 ((Nat.pow_le_pow_iff_right (by decide)).mp large)
  rw [Machine.roundEntries, Nat.mod_eq_zero_of_dvd divides, if_neg (fun differs => differs rfl),
    encompassingPowerOfTwo_pow]

variable {entries : Nat}

theorem roundEntries_spec (machine : Machine) (positive : 0 < entries) :
    ∃ bits, machine.roundEntries entries = 2 ^ bits ∧ machine.minEntries ≤ 2 ^ bits ∧
      entries ≤ 2 ^ bits := by
  have large := machine.minEntries_large
  have rest := Nat.mod_lt entries (show machine.minEntries > 0 by omega)
  rw [Machine.roundEntries]
  obtain ⟨bits, same, enough, -⟩ := encompassingPowerOfTwo_spec
    (if entries % machine.minEntries ≠ 0 then
      entries + (machine.minEntries - entries % machine.minEntries) else entries)
  refine ⟨bits, same, ?_⟩
  split at enough
  · have below := Nat.mod_le entries machine.minEntries
    omega
  · rename_i whole
    have least := Nat.le_of_dvd positive (Nat.dvd_of_mod_eq_zero (not_not.mp whole))
    omega

theorem nearestFloat_near (scaled : Nat) :
    (2 ^ 23 - 1) * scaled ≤ 2 ^ 23 * nearestFloat scaled ∧
      2 ^ 23 * nearestFloat scaled ≤ (2 ^ 23 + 1) * scaled := by
  simp only [nearestFloat]
  generalize sized : Nat.log2 scaled + 1 - 24 = drop
  have parts := Nat.div_add_mod scaled (2 ^ drop)
  have small := Nat.mod_lt scaled (Nat.two_pow_pos drop)
  have fits : drop = 0 ∨ 2 ^ 23 * 2 ^ drop ≤ scaled := by
    rcases Nat.eq_zero_or_pos drop with isZero | positive
    · exact .inl isZero
    · right
      have nonzero : scaled ≠ 0 := by
        intro zero
        rw [zero, Nat.log2_zero] at sized
        omega
      calc 2 ^ 23 * 2 ^ drop = 2 ^ (23 + drop) := (Nat.pow_add 2 23 drop).symm
        _ = 2 ^ Nat.log2 scaled := by congr 1; omega
        _ ≤ scaled := Nat.log2_self_le nonzero
  have up : (scaled / 2 ^ drop + 1) * 2 ^ drop = 2 ^ drop * (scaled / 2 ^ drop) + 2 ^ drop := by
    ring
  rw [up, Nat.mul_comm (scaled / 2 ^ drop)]
  rcases fits with zero | larger
  · subst zero
    split <;> omega
  · split <;> omega

theorem trigger_near {ratio entries : Nat} (small : 2 ^ 23 < ratio) (below : ratio < 2 ^ 24)
    (large : 512 ≤ entries) :
    entries * ratio ≤ 2 ^ 24 * (trigger ratio entries + 2) + entries * 2 ∧
      2 ^ 24 * trigger ratio entries ≤ entries * ratio + entries * 2 := by
  have near := nearestFloat_near (entries * ratio - 2 ^ 24)
  have floor := Nat.div_add_mod (nearestFloat (entries * ratio - 2 ^ 24)) (2 ^ 24)
  have rest := Nat.mod_lt (nearestFloat (entries * ratio - 2 ^ 24)) (Nat.two_pow_pos 24)
  have product : entries * ratio ≤ entries * 2 ^ 24 := Nat.mul_le_mul_left entries below.le
  have least : 512 * 2 ^ 23 ≤ entries * ratio := Nat.mul_le_mul large small.le
  rw [trigger]
  omega

theorem growTrigger_near (large : 512 ≤ entries) :
    64 * entries ≤ 100 * (growTrigger entries + 2) ∧ 100 * growTrigger entries ≤ 66 * entries := by
  have near := trigger_near (by decide : 2 ^ 23 < 10905190) (by decide) large
  rw [growTrigger]
  omega

theorem tidyTrigger_near (large : 512 ≤ entries) :
    79 * entries ≤ 100 * (tidyTrigger entries + 2) ∧ 100 * tidyTrigger entries ≤ 81 * entries := by
  have near := trigger_near (by decide : 2 ^ 23 < 13421773) (by decide) large
  rw [tidyTrigger]
  omega

theorem and_mask (value line bits : Nat) :
    value &&& Nat.ldiff (2 ^ bits - 1) (2 ^ line - 1) =
      value % 2 ^ bits / 2 ^ line * 2 ^ line := by
  apply Nat.eq_of_testBit_eq
  intro i
  rw [Nat.testBit_and, Nat.testBit_ldiff, Nat.testBit_two_pow_sub_one,
    Nat.testBit_two_pow_sub_one, Nat.testBit_mul_two_pow, Nat.testBit_div_two_pow,
    Nat.testBit_mod_two_pow]
  by_cases high : line ≤ i
  · rw [Nat.sub_add_cancel high]
    by_cases low : i < bits <;> simp [high, low, Nat.not_lt.mpr high]
  · simp [high, Nat.lt_of_not_le high]

theorem or_bucketsize (quotient line : Nat) :
    quotient * 2 ^ line ||| 2 ^ line = (quotient ||| 1) * 2 ^ line := by
  have one : 2 ^ line = 1 <<< line := by rw [Nat.shiftLeft_eq, Nat.one_mul]
  rw [← Nat.shiftLeft_eq, ← Nat.shiftLeft_eq, Nat.shiftLeft_or_distrib]
  conv_lhs => rw [one]

/-- The buckets after its first one that a search comes by in a table of `2 ^ bits` entries with
`2 ^ line` in a bucket. -/
def probes (bits line : Nat) (hashed : UInt64) : List Nat :=
  let mask := Nat.ldiff (2 ^ bits - 1) (2 ^ line - 1)
  let step := (((hashed >>> 16) ||| (hashed <<< 16)).toNat &&& mask) ||| 2 ^ line
  Table.bucketsAfter mask step (hashed.toNat &&& mask) (2 ^ bits) (hashed.toNat &&& mask)

theorem bucketsAfter_eq {mask line count odd start : Nat}
    (masked : ∀ value, value &&& mask = value / 2 ^ line % 2 ^ count * 2 ^ line)
    (isOdd : odd % 2 = 1) (inside : start < 2 ^ count) (fuel turn : Nat) (before : turn < 2 ^ count)
    (enough : 2 ^ count ≤ turn + fuel) :
    Table.bucketsAfter mask (odd * 2 ^ line) (start * 2 ^ line) fuel
        (Probe.place count odd start turn * 2 ^ line) =
      (List.range' (turn + 1) (2 ^ count - turn)).map
        fun turn => Probe.place count odd start turn * 2 ^ line := by
  have next (turn : Nat) : (Probe.place count odd start turn * 2 ^ line + odd * 2 ^ line) &&& mask =
      Probe.place count odd start (turn + 1) * 2 ^ line := by
    rw [masked, ← Nat.add_mul, Nat.mul_div_cancel _ (Nat.two_pow_pos _), Probe.place_succ]
  induction fuel generalizing turn with
  | zero => omega
  | succ fuel ih =>
    simp only [Table.bucketsAfter, next]
    obtain ⟨left, rest⟩ : ∃ left, 2 ^ count - turn = left + 1 := ⟨2 ^ count - turn - 1, by omega⟩
    rw [rest, List.range'_succ, List.map_cons]
    by_cases last : turn + 1 = 2 ^ count
    · rw [last, Probe.place_full inside, if_neg (not_not_intro rfl), show left = 0 by omega]
      rfl
    · have going : Probe.place count odd start (turn + 1) * 2 ^ line ≠ start * 2 ^ line := by
        intro back
        have home := Nat.eq_of_mul_eq_mul_right (Nat.two_pow_pos _) back
        exact last (Probe.place_eq_start isOdd inside (by omega) (by omega) home)
      rw [if_pos going, ih (turn + 1) (by omega) (by omega),
        show left = 2 ^ count - (turn + 1) by omega]

/-- A search comes by every bucket once, at last by the one it began with. -/
structure Round (bits line : Nat) (buckets : List Nat) (home : Nat) : Prop where
  count : buckets.length = 2 ^ (bits - line)
  once : buckets.Nodup
  all : ∀ bucket, bucket ∈ buckets ↔ ∃ place < 2 ^ (bits - line), bucket = place * 2 ^ line
  back : buckets.getLast? = some home

theorem probes_round {bits line : Nat} (few : line ≤ bits) (hashed : UInt64) :
    Round bits line (probes bits line hashed)
      (hashed.toNat &&& Nat.ldiff (2 ^ bits - 1) (2 ^ line - 1)) := by
  have masked (value : Nat) : value &&& Nat.ldiff (2 ^ bits - 1) (2 ^ line - 1) =
      value / 2 ^ line % 2 ^ (bits - line) * 2 ^ line := by
    have total : 2 ^ bits = 2 ^ (bits - line) * 2 ^ line := by
      rw [← Nat.pow_add, Nat.sub_add_cancel few]
    rw [and_mask, total, Nat.mul_comm, Nat.mod_mul_left_div_self, Nat.mul_comm]
  have inside : hashed.toNat / 2 ^ line % 2 ^ (bits - line) < 2 ^ (bits - line) :=
    Nat.mod_lt _ (Nat.two_pow_pos _)
  have fuel : 2 ^ (bits - line) ≤ 2 ^ bits := Nat.pow_le_pow_right (by decide) (Nat.sub_le ..)
  rw [probes]
  simp only [masked, or_bucketsize]
  generalize hashed.toNat / 2 ^ line % 2 ^ (bits - line) = start at inside
  have isOdd (value : Nat) : (value ||| 1) % 2 = 1 := Nat.or_mod_two_eq_one.mpr (.inr rfl)
  generalize ((hashed >>> 16 ||| hashed <<< 16).toNat / 2 ^ line % 2 ^ (bits - line)) = value
  have listed := bucketsAfter_eq masked (isOdd value) inside (2 ^ bits) 0 (Nat.two_pow_pos _)
    (by omega)
  have first : Probe.place (bits - line) (value ||| 1) start 0 = start := by
    rw [Probe.place, Nat.zero_mul, Nat.add_zero, Nat.mod_eq_of_lt inside]
  rw [first, Nat.sub_zero] at listed
  rw [listed]
  have positive := Nat.two_pow_pos line
  refine ⟨by rw [List.length_map, List.length_range'], ?_, ?_, ?_⟩
  · refine (List.nodup_map_iff_inj_on List.nodup_range').mpr ?_
    intro turn here later there same
    rw [List.mem_range'_1] at here there
    have equal := Nat.eq_of_mul_eq_mul_right positive same
    rcases Nat.le_total turn later with order | order
    · exact Probe.place_inj (isOdd value) order (by omega) equal
    · exact (Probe.place_inj (isOdd value) order (by omega) equal.symm).symm
  · intro bucket
    rw [List.mem_map]
    constructor
    · rintro ⟨turn, -, rfl⟩
      exact ⟨_, Nat.mod_lt _ (Nat.two_pow_pos _), rfl⟩
    · rintro ⟨place, low, rfl⟩
      obtain ⟨turn, moved, round, arrived⟩ := Probe.place_covers (isOdd value) inside low
      exact ⟨turn, List.mem_range'_1.mpr ⟨by omega, by omega⟩, by rw [arrived]⟩
  · obtain ⟨left, whole⟩ : ∃ left, 2 ^ (bits - line) = left + 1 :=
      ⟨2 ^ (bits - line) - 1, by have := Nat.two_pow_pos (bits - line); omega⟩
    rw [whole, List.range'_concat, List.map_append, List.map_singleton, List.getLast?_concat,
      Nat.one_mul, show 0 + 1 + left = 2 ^ (bits - line) by omega, Probe.place_full inside]

structure Table.Sized (machine : Machine) (table : Table) : Prop where
  power : ∃ bits, table.numEntries = 2 ^ bits
  large : machine.minEntries ≤ table.numEntries
  mask : table.mask = Nat.ldiff (table.numEntries - 1) machine.bucketmask
  grow : table.growSize = growTrigger table.numEntries
  tidy : table.tidyUpSize = tidyTrigger table.numEntries

def Table.Masked (machine : Machine) (table : Table) (count : Nat) : Prop :=
  ∀ value, value &&& table.mask =
    value / 2 ^ machine.lineBits % 2 ^ count * 2 ^ machine.lineBits

theorem internalCreate_sized (machine : Machine) (positive : 0 < entries) :
    (machine.internalCreate entries).Sized machine := by
  obtain ⟨bits, same, least, -⟩ := roundEntries_spec machine positive
  refine ⟨⟨bits, same⟩, ?_, rfl, rfl, rfl⟩
  simp only [Machine.internalCreate, same]
  exact least

namespace Table.Sized

variable {machine : Machine} {table : Table}

theorem congr {other : Table} (sized : table.Sized machine)
    (entries : other.numEntries = table.numEntries) (mask : other.mask = table.mask)
    (grow : other.growSize = table.growSize) (tidy : other.tidyUpSize = table.tidyUpSize) :
    other.Sized machine :=
  ⟨entries ▸ sized.power, entries ▸ sized.large, by rw [mask, entries, sized.mask],
    by rw [grow, entries, sized.grow], by rw [tidy, entries, sized.tidy]⟩

theorem buckets (sized : table.Sized machine) :
    ∃ count, table.numEntries = 2 ^ count * 2 ^ machine.lineBits ∧
      table.Masked machine count := by
  obtain ⟨bits, power⟩ := sized.power
  have few : machine.lineBits ≤ bits := by
    have large := machine.minEntries_large
    have least := sized.large
    rw [power] at least
    have nine : 2 ^ 9 ≤ 2 ^ bits := by omega
    have more := (Nat.pow_le_pow_iff_right (by decide)).mp nine
    have short := machine.lineBits_le
    omega
  have total : 2 ^ bits = 2 ^ (bits - machine.lineBits) * 2 ^ machine.lineBits := by
    rw [← Nat.pow_add, Nat.sub_add_cancel few]
  refine ⟨bits - machine.lineBits, power.trans total, ?_⟩
  intro value
  rw [sized.mask, power, Machine.bucketmask, machine.bucketsize_eq, and_mask, total, Nat.mul_comm,
    Nat.mod_mul_left_div_self, Nat.mul_comm]

variable {count : Nat}

theorem home_lt (key : UInt64) (masked : table.Masked machine count) :
    ∃ start < 2 ^ count, table.home key = start * 2 ^ machine.lineBits :=
  ⟨_, Nat.mod_lt _ (Nat.two_pow_pos count), masked _⟩

theorem step_odd (key : UInt64) (masked : table.Masked machine count) :
    ∃ odd, odd % 2 = 1 ∧ table.step machine key = odd * 2 ^ machine.lineBits := by
  rw [Table.step, masked, machine.bucketsize_eq, or_bucketsize]
  exact ⟨_, Nat.or_mod_two_eq_one.mpr (.inr rfl), rfl⟩

theorem next (start odd : Nat) (masked : table.Masked machine count) (turn : Nat) :
    (Probe.place count odd start turn * 2 ^ machine.lineBits + odd * 2 ^ machine.lineBits) &&&
      table.mask = Probe.place count odd start (turn + 1) * 2 ^ machine.lineBits := by
  rw [masked, ← Nat.add_mul, Nat.mul_div_cancel _ (Nat.two_pow_pos _), Probe.place_succ]

theorem mem_bucketsAfter {count start odd : Nat} (isOdd : odd % 2 = 1) (inside : start < 2 ^ count)
    (masked : table.Masked machine count)
    (fuel turn target : Nat) (after : turn < target) (round : target ≤ 2 ^ count)
    (enough : target ≤ turn + fuel) :
    Probe.place count odd start target * 2 ^ machine.lineBits ∈
      bucketsAfter table.mask (odd * 2 ^ machine.lineBits) (start * 2 ^ machine.lineBits) fuel
        (Probe.place count odd start turn * 2 ^ machine.lineBits) := by
  induction fuel generalizing turn with
  | zero => omega
  | succ fuel ih =>
    simp only [Table.bucketsAfter, next start odd masked]
    by_cases now : target = turn + 1
    · rw [now]
      exact List.mem_cons_self
    · have going : Probe.place count odd start (turn + 1) * 2 ^ machine.lineBits ≠
          start * 2 ^ machine.lineBits := by
        intro back
        have home := Nat.eq_of_mul_eq_mul_right (Nat.two_pow_pos _) back
        have whole := Probe.place_eq_start isOdd inside (by omega) (by omega) home
        omega
      rw [if_pos going]
      exact List.mem_cons_of_mem _ (ih (turn + 1) (by omega) (by omega))

theorem bucketsAfter_lt (masked : table.Masked machine count) (step quit fuel bucket : Nat) :
    ∀ other ∈ bucketsAfter table.mask step quit fuel bucket,
      ∃ place < 2 ^ count, other = place * 2 ^ machine.lineBits := by
  induction fuel generalizing bucket with
  | zero => nofun
  | succ fuel ih =>
    intro other found
    rw [Table.bucketsAfter, List.mem_cons] at found
    rcases found with rfl | found
    · exact ⟨_, Nat.mod_lt _ (Nat.two_pow_pos count), masked _⟩
    · split at found
      · exact ih _ other found
      · cases found

theorem mem_slots {slot bucket : Nat} :
    slot ∈ machine.slots bucket ↔ bucket ≤ slot ∧ slot < bucket + 2 ^ machine.lineBits := by
  simp only [Machine.slots, List.mem_map, List.mem_range, machine.bucketsize_eq]
  constructor
  · intro found
    obtain ⟨i, short, rfl⟩ := found
    omega
  · intro inside
    exact ⟨slot - bucket, by omega, by omega⟩

theorem slots_lt {count place slot : Nat} (inside : place < 2 ^ count)
    (found : slot ∈ machine.slots (place * 2 ^ machine.lineBits)) :
    slot < 2 ^ count * 2 ^ machine.lineBits := by
  have upper : (place + 1) * 2 ^ machine.lineBits ≤ 2 ^ count * 2 ^ machine.lineBits :=
    Nat.mul_le_mul_right _ inside
  rw [Nat.succ_mul] at upper
  have range := mem_slots.mp found
  omega

theorem path_lt (sized : table.Sized machine) (key : UInt64) :
    ∀ slot ∈ table.path machine key, slot < table.numEntries := by
  intro slot found
  obtain ⟨count, total, masked⟩ := sized.buckets
  rw [total]
  rcases List.mem_append.mp found with first | later
  · obtain ⟨start, inside, same⟩ := home_lt key masked
    rw [same] at first
    exact slots_lt inside first
  · obtain ⟨bucket, listed, first⟩ := List.mem_flatMap.mp later
    obtain ⟨place, inside, rfl⟩ := bucketsAfter_lt masked _ _ _ _ bucket listed
    exact slots_lt inside first

theorem path_covers (sized : table.Sized machine) (key : UInt64) {slot : Nat}
    (inside : slot < table.numEntries) : slot ∈ table.path machine key := by
  obtain ⟨count, total, masked⟩ := sized.buckets
  obtain ⟨start, first, home⟩ := home_lt key masked
  obtain ⟨odd, isOdd, step⟩ := step_odd key masked
  have positive := Nat.two_pow_pos machine.lineBits
  have bucket : slot / 2 ^ machine.lineBits < 2 ^ count := by
    rw [Nat.div_lt_iff_lt_mul positive, ← total]
    exact inside
  obtain ⟨turn, moved, round, arrived⟩ := Probe.place_covers isOdd first bucket
  have begin_ : Probe.place count odd start 0 = start := by
    rw [Probe.place, Nat.zero_mul, Nat.add_zero, Nat.mod_eq_of_lt first]
  have fuel : 2 ^ count ≤ table.numEntries := by
    rw [total]
    exact Nat.le_mul_of_pos_right _ positive
  have listed := mem_bucketsAfter isOdd first masked table.numEntries 0 turn moved round (by omega)
  rw [arrived, begin_, ← home, ← step] at listed
  refine List.mem_append_right _ (List.mem_flatMap.mpr ⟨_, listed, mem_slots.mpr ?_⟩)
  have parts := Nat.div_add_mod slot (2 ^ machine.lineBits)
  have rest := Nat.mod_lt slot positive
  rw [Nat.mul_comm] at parts
  omega

end Table.Sized

end Qthreads.Hash
