import Mathlib.Data.Finset.Prod

namespace Qthreads.Lib

open Function (update update_eq_self)

variable {α : Type*}

def raised (places : Finset α) (flags : α → Bool) : Nat := {place ∈ places | flags place = true}.card

variable {places : Finset α} {flags : α → Bool} {place : α}

theorem raised_pos (inside : place ∈ places) (high : flags place = true) : 0 < raised places flags :=
  Finset.card_pos.mpr ⟨place, Finset.mem_filter.mpr ⟨inside, high⟩⟩

theorem raised_le : raised places flags ≤ places.card := Finset.card_filter_le _ _

theorem raised_all (high : ∀ place ∈ places, flags place = true) : raised places flags = places.card := by
  rw [raised, Finset.filter_true_of_mem high]

variable [DecidableEq α]

theorem raised_update_true (inside : place ∈ places) :
    raised places (update flags place true) =
      raised places (update flags place false) + 1 := by
  have others : {other ∈ places | update flags place true other = true} =
      insert place {other ∈ places | update flags place false other = true} := by
    ext other
    by_cases same : other = place
    · subst same
      simp [inside]
    · simp [same]
  have out : place ∉ {other ∈ places | update flags place false other = true} := by
    simp
  rw [raised, others, Finset.card_insert_of_notMem out, raised]

theorem raised_raise (inside : place ∈ places) (low : flags place = false) :
    raised places (update flags place true) = raised places flags + 1 := by
  rw [raised_update_true inside, ← low, update_eq_self]

theorem raised_lower (inside : place ∈ places) (high : flags place = true) :
    raised places (update flags place false) + 1 = raised places flags := by
  rw [← raised_update_true inside, ← high, update_eq_self]

def casFlag (flags : α → Bool) (place : α) (oldval newval : Bool) : α → Bool :=
  if flags place = oldval then update flags place newval else flags

section Counter

variable {count : UInt64}

theorem count_raise_iff (inside : place ∈ places) (few : places.card < 2 ^ 64)
    (counted : count.toNat = raised places flags) :
    (count + 1).toNat = raised places (casFlag flags place false true) ↔ flags place = false := by
  rw [UInt64.toNat_add, show UInt64.toNat 1 = 1 from rfl, casFlag]
  cases flag : flags place with
  | false =>
    have more := raised_raise inside flag
    have most : raised places (update flags place true) ≤ places.card := raised_le
    rw [if_pos rfl, more, counted, Nat.mod_eq_of_lt (by omega)]
    exact ⟨fun _ => rfl, fun _ => rfl⟩
  | true =>
    have most : raised places flags ≤ places.card := raised_le
    rw [if_neg (show true ≠ false from nofun), ← counted]
    constructor
    · intro same
      omega
    · nofun

theorem count_lower_iff (inside : place ∈ places) (counted : count.toNat = raised places flags) :
    (count - 1).toNat = raised places (casFlag flags place true false) ↔ flags place = true := by
  have less := count.toNat_lt
  rw [UInt64.toNat_sub, show UInt64.toNat 1 = 1 from rfl, casFlag]
  cases flag : flags place with
  | false =>
    rw [if_neg Bool.false_ne_true, ← counted]
    constructor
    · intro same
      omega
    · nofun
  | true =>
    have fewer := raised_lower inside flag
    rw [if_pos rfl]
    constructor
    · exact fun _ => rfl
    · intro _
      omega

end Counter

theorem card_numbered {columns rows count : Nat} (fits : count ≤ columns * rows) :
    {place ∈ Finset.range columns ×ˢ Finset.range rows | place.2 * columns + place.1 < count}.card =
      count := by
  rcases Nat.eq_zero_or_pos columns with rfl | positive
  · rw [Nat.zero_mul] at fits
    simp only [Finset.range_zero, Finset.empty_product, Finset.filter_empty, Finset.card_empty]
    omega
  · refine (Finset.card_nbij' (fun place => place.2 * columns + place.1)
      (fun number => (number % columns, number / columns)) ?_ ?_ ?_ ?_).trans (Finset.card_range count)
    · intro place inside
      simp only [Finset.coe_filter, Set.mem_ofPred_eq] at inside
      exact Finset.mem_coe.mpr (Finset.mem_range.mpr inside.2)
    · intro number inside
      have less := Finset.mem_range.mp (Finset.mem_coe.mp inside)
      have row : number / columns < rows := Nat.div_lt_of_lt_mul (Nat.lt_of_lt_of_le less fits)
      simp only [Finset.coe_filter, Finset.mem_product, Finset.mem_range, Set.mem_ofPred_eq,
        Nat.div_add_mod']
      exact ⟨⟨Nat.mod_lt _ positive, row⟩, less⟩
    · intro place inside
      simp only [Finset.coe_filter, Finset.mem_product, Finset.mem_range, Set.mem_ofPred_eq] at inside
      refine Prod.ext ?_ ?_
      · change (place.2 * columns + place.1) % columns = place.1
        rw [Nat.mul_add_mod', Nat.mod_eq_of_lt inside.1.1]
      · change (place.2 * columns + place.1) / columns = place.2
        rw [Nat.mul_comm, Nat.mul_add_div positive, Nat.div_eq_of_lt inside.1.1, Nat.add_zero]
    · intro number _
      exact Nat.div_add_mod' number columns

end Qthreads.Lib
