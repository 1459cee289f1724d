import Mathlib.Data.Nat.Find
import Qthreads.Qarray.Striders

namespace Qthreads.Qarray

open Lib

variable {n : Nat} {a : Qarray n} {startat stopat : Nat}

variable {α β : Type}

theorem mapM_eq_some_iff {f : α → Option β} {list : List α} {results : List β} :
    list.mapM f = some results ↔ List.Forall₂ (fun x y => f x = some y) list results := by
  induction list generalizing results with
  | nil =>
    rw [List.mapM_nil, List.forall₂_nil_left_iff]
    exact ⟨fun same => (Option.some.inj same).symm, fun same => by rw [same]; rfl⟩
  | cons first rest ih =>
    rw [List.mapM_cons, List.forall₂_cons_left_iff]
    constructor
    · intro mapped
      obtain ⟨result, head, mapped⟩ := Option.bind_eq_some_iff.mp mapped
      obtain ⟨others, tail, same⟩ := Option.bind_eq_some_iff.mp mapped
      exact ⟨result, others, head, ih.mp tail, (Option.some.inj same).symm⟩
    · rintro ⟨result, others, head, tail, rfl⟩
      simp [head, ih.mpr tail]

theorem mapM_eq_some {f : α → Option β} {g : α → β} {list : List α}
    (each : ∀ x ∈ list, f x = some (g x)) : list.mapM f = some (list.map g) := by
  refine mapM_eq_some_iff.mpr (List.forall₂_map_right_iff.mpr ?_)
  exact List.forall₂_same.mpr each

theorem exists_result {R : α → β → Prop} {list : List α} {results : List β}
    (each : List.Forall₂ R list results) {x : α} (member : x ∈ list) : ∃ y ∈ results, R x y := by
  induction each with
  | nil => cases member
  | cons head _ ih =>
    cases member with
    | head => exact ⟨_, List.mem_cons_self, head⟩
    | tail _ later =>
      obtain ⟨y, listed, related⟩ := ih later
      exact ⟨y, List.mem_cons_of_mem _ listed, related⟩

theorem exists_argument {R : α → β → Prop} {list : List α} {results : List β}
    (each : List.Forall₂ R list results) {y : β} (member : y ∈ results) : ∃ x ∈ list, R x y :=
  exists_result each.flip member

theorem indices_flatten (lists : List (List (Nat × Nat))) :
    indices lists.flatten = (lists.map indices).flatten := by
  induction lists with
  | nil => rfl
  | cons first rest ih =>
    rw [List.flatten_cons, List.map_cons, List.flatten_cons, ← ih]
    exact List.flatMap_append

theorem iterate_eq {α : Type} {strider : Nat → Option (List α)} {g : Nat → List α} {sheps : List Nat}
    {waits : Nat} (order : startat ≤ stopat) (forks : a.forks startat stopat = some (sheps, waits))
    (each : ∀ shep ∈ sheps, strider shep = some (g shep)) :
    a.iterate strider startat stopat = some ⟨(sheps.map g).flatten, sheps.length, waits⟩ := by
  simp [iterate, order, forks, mapM_eq_some each]

theorem iterate_eq_some {α : Type} {strider : Nat → Option (List α)} {now : Outcome α}
    (iterated : a.iterate strider startat stopat = some now) :
    ∃ sheps waits done, a.forks startat stopat = some (sheps, waits) ∧
      List.Forall₂ (fun shep did => strider shep = some did) sheps done ∧ now.done = done.flatten := by
  simp only [iterate] at iterated
  split at iterated
  next =>
      obtain ⟨⟨sheps, waits⟩, forks, iterated⟩ := Option.bind_eq_some_iff.mp iterated
      obtain ⟨done, each, same⟩ := Option.bind_eq_some_iff.mp iterated
      refine ⟨sheps, waits, done, forks, mapM_eq_some_iff.mp each, ?_⟩
      cases same
      rfl
  next => cases iterated

theorem right_of (sheps : List Nat) (e g : Nat → List (Nat × Nat)) (order : startat ≤ stopat)
    (forks : a.forks startat stopat = some (sheps, sheps.length))
    (elements : ∀ shep ∈ sheps, a.strider shep startat stopat = some (indices (e shep)))
    (loops : ∀ shep ∈ sheps, a.loopStrider shep startat stopat = some (g shep))
    (visited : Tiles (sheps.map e).flatten startat stopat)
    (tiles : Tiles (sheps.map g).flatten startat stopat) : a.Right startat stopat := by
  have partitions : Partitions (a.iterLoop startat stopat) startat stopat :=
    ⟨_, iterate_eq order forks loops, rfl, tiles⟩
  have done : (sheps.map fun shep => indices (e shep)).flatten = indices (sheps.map e).flatten := by
    rw [indices_flatten, List.map_map]
    rfl
  have iterated := iterate_eq order forks elements
  rw [done] at iterated
  refine ⟨⟨_, iterated, rfl, indices_nodup visited.apart, ?_⟩, partitions, partitions, partitions⟩
  intro i
  exact mem_indices.trans (visited.covers i)

theorem advance_contiguous {shep max count : Nat} (together : ¬ Scattered a) : ∃ result,
    a.advance shep max count = some result ∧
      Advances (fun _ => True) a.segmentSize max count result := by
  refine ⟨some (count + a.segmentSize), ?_, 0, by simp, fun _ => trivial, ?_⟩
  · cases type : a.distType with
    | fixedFields => simp only [advance, type]
    | allSame home => simp only [advance, type]
    | fixedHash =>
      rw [Scattered, type] at together
      exact absurd trivial together
    | dist owners =>
      rw [Scattered, type] at together
      exact absurd trivial together
  · intro i positive few
    omega

theorem walk_contiguous (shep : Nat) (together : ¬ Scattered a) (less : startat < stopat) :
    ∃ ranges, a.walk shep stopat (stopat + 1) startat = some ranges ∧ Tiles ranges startat stopat := by
  obtain ⟨ranges, walked, windows⟩ := walk_windows shep (fun _ => True) less trivial
    (fun _ _ _ => advance_contiguous together) (show stopat - startat < stopat + 1 by omega)
  exact ⟨ranges, walked, windows.tiles a.segment fun _ _ => trivial⟩

variable {home : Fin n}

theorem fits_allSame (type : a.distType = .allSame home) :
    a.Fits startat stopat ↔ startat < stopat := by
  rw [Fits, type]

theorem right_allSame (type : a.distType = .allSame home) (less : startat < stopat) :
    a.Right startat stopat := by
  have together : ¬ Scattered a := by
    rw [Scattered, type]
    exact id
  obtain ⟨ranges, walked, tiles⟩ := walk_contiguous home together less
  refine right_of [home.val] (fun _ => ranges) (fun _ => [(startat, stopat)]) (Nat.le_of_lt less)
    ?_ ?_ ?_ ?_ ?_
  · simp [forks, type]
  · intro shep member
    rw [List.mem_singleton.mp member]
    simp [strider, type, walked]
  · intro shep member
    rw [List.mem_singleton.mp member]
    simp [loopStrider, type, less]
  · simpa using tiles
  · simpa using Tiles.single less

theorem not_right_allSame (type : a.distType = .allSame home)
    (right : a.Right startat stopat) : startat < stopat := by
  by_contra order
  obtain ⟨now, iterated, -⟩ := right.loop
  obtain ⟨sheps, waits, done, forked, each, -⟩ := iterate_eq_some iterated
  simp only [forks, type, Option.some.injEq, Prod.mk.injEq] at forked
  obtain ⟨rfl, -⟩ := forked
  obtain ⟨did, others, strode, -⟩ := List.forall₂_cons_left_iff.mp each
  simp [loopStrider, type, order] at strode

section Stripes

variable {seg later shep : Nat}

def stripe (a : Qarray n) (seg : Nat) : Nat :=
  if seg / (a.segsPerShep + 1) < a.extras then seg / (a.segsPerShep + 1)
  else (seg - a.extras) / a.segsPerShep

theorem owner_stripe (type : a.distType = .fixedFields) (index : Nat) :
    a.owner index = a.stripe (index / a.segmentSize) := by
  simp only [owner, shepofSegidx, type, stripe]

theorem stripe_mono (order : seg ≤ later) : a.stripe seg ≤ a.stripe later := by
  have long := Nat.div_le_div_right (c := a.segsPerShep + 1) order
  simp only [stripe]
  split
  next early =>
      split
      next => exact long
      next late =>
          have beyond : a.extras * (a.segsPerShep + 1) ≤ later :=
            (Nat.le_div_iff_mul_le (Nat.succ_pos _)).mp (Nat.le_of_not_lt late)
          refine Nat.le_trans (Nat.le_of_lt early) ?_
          rw [Nat.le_div_iff_mul_le segsPerShep_pos]
          rw [Nat.mul_succ] at beyond
          omega
  next late =>
      split
      next early => exact absurd (Nat.lt_of_le_of_lt long early) late
      next => exact Nat.div_le_div_right (Nat.sub_le_sub_right order _)

theorem stripe_start (mine : a.stripe seg = shep) : shep * a.segsPerShep ≤ seg := by
  rw [← mine]
  simp only [stripe]
  split
  next =>
      have whole := Nat.div_mul_le_self seg (a.segsPerShep + 1)
      rw [Nat.mul_succ] at whole
      exact Nat.le_trans (Nat.le_add_right _ _) whole
  next =>
      have whole := Nat.div_mul_le_self (seg - a.extras) a.segsPerShep
      omega

theorem stripe_le (less : seg < (shep + 1) * a.segsPerShep) : a.stripe seg ≤ shep := by
  have short : seg / a.segsPerShep < shep + 1 := (Nat.div_lt_iff_lt_mul segsPerShep_pos).mpr less
  simp only [stripe]
  split
  next =>
      have longer := Nat.div_le_div_left (Nat.le_succ a.segsPerShep) segsPerShep_pos (a := seg)
      exact Nat.le_trans longer (Nat.le_of_lt_succ short)
  next =>
      have fewer := Nat.div_le_div_right (c := a.segsPerShep) (Nat.sub_le seg a.extras)
      omega

end Stripes

section

variable (type : a.distType = .fixedFields)
include type

theorem owner_mono {index later : Nat} (order : index ≤ later) : a.owner index ≤ a.owner later := by
  rw [owner_stripe type, owner_stripe type]
  exact stripe_mono (Nat.div_le_div_right order)

theorem owner_last (less : startat < stopat)
    (short : stopat < (a.owner startat + 1) * a.segmentSize * a.segsPerShep) :
    a.owner (stopat - 1) = a.owner startat := by
  refine Nat.le_antisymm ?_ (owner_mono type (Nat.le_sub_one_of_lt less))
  rw [owner_stripe type (stopat - 1)]
  refine stripe_le ?_
  rw [Nat.div_lt_iff_lt_mul a.segment]
  rw [Nat.mul_right_comm] at short
  omega

theorem length_le_stripe (short : stopat < (a.owner startat + 1) * a.segmentSize * a.segsPerShep) :
    stopat ≤ startat + a.segmentSize * a.segsPerShep := by
  have start := stripe_start (owner_stripe type startat).symm
  have first : a.owner startat * a.segsPerShep * a.segmentSize ≤ startat :=
    (Nat.le_div_iff_mul_le a.segment).mp start
  rw [Nat.add_mul, Nat.add_mul, Nat.one_mul, Nat.mul_right_comm] at short
  omega

theorem forks_fixedFields (first : startat < a.count)
    (positive : 0 < stopat) (inside : stopat ≤ a.count) :
    a.forks startat stopat = some (List.range' (a.owner startat)
      (a.owner (stopat - 1) + 1 - a.owner startat), a.owner (stopat - 1) + 1 - a.owner startat) := by
  have less : stopat - 1 < a.count := by omega
  have same := before_eq positive (Nat.lt_of_le_of_lt inside a.addressable)
  simp [forks, type, shepof_eq first, same, shepof_eq less]

theorem loopStrider_fixedFields {shep : Nat}
    (first : startat < a.count) (positive : 0 < stopat) (inside : stopat ≤ a.count)
    (least : a.owner startat ≤ shep) (most : shep ≤ a.owner (stopat - 1)) :
    a.loopStrider shep startat stopat =
      let count := if shep ≠ a.owner startat then shep * a.segmentSize * a.segsPerShep else startat
      let last := (shep + 1) * a.segmentSize * a.segsPerShep - 1
      let max := if stopat > last then last else stopat
      if count < max then some [(count, max)] else none := by
  have less : stopat - 1 < a.count := by omega
  have same := before_eq positive (Nat.lt_of_le_of_lt inside a.addressable)
  simp [loopStrider, type, shepof_eq first, same, shepof_eq less, Nat.not_lt.mpr least,
    Nat.not_lt.mpr most]

theorem strider_fixedFields (less : startat < stopat) (inside : stopat ≤ a.count)
    (short : stopat < (a.owner startat + 1) * a.segmentSize * a.segsPerShep) :
    a.strider (a.owner startat) startat stopat =
      (a.walk (a.owner startat) stopat (stopat + 1) startat).map indices := by
  have first : startat < a.count := Nat.lt_of_lt_of_le less inside
  have last : stopat - 1 < a.count := by omega
  have same := before_eq (Nat.zero_lt_of_lt less) (Nat.lt_of_le_of_lt inside a.addressable)
  have length := length_le_stripe type short
  have max (segs : Nat) (enough : a.segsPerShep ≤ segs) :
      (if stopat > startat + (a.segmentSize * segs - 1) then startat + (a.segmentSize * segs - 1) + 1
        else stopat) = stopat := by
    have product := Nat.mul_le_mul_left a.segmentSize enough
    split <;> omega
  have all : (if stopat > startat + (a.segmentSize *
      (if a.owner startat < a.extras then a.segsPerShep + 1 else a.segsPerShep) - 1)
      then startat + (a.segmentSize *
        (if a.owner startat < a.extras then a.segsPerShep + 1 else a.segsPerShep) - 1) + 1
      else stopat) = stopat := by
    refine max _ ?_
    split
    next => exact Nat.le_succ _
    next => exact Nat.le_refl _
  simp only [strider, type, shepof_eq first, same, shepof_eq last, owner_last type less short,
    Option.bind_eq_bind, Option.bind_some, Nat.lt_irrefl, gt_iff_lt, or_self, if_false, ne_eq,
    not_true_eq_false]
  simp only [gt_iff_lt] at all
  rw [all]

theorem right_fixedFields (inside : stopat ≤ a.count)
    (fits : a.Fits startat stopat) : a.Right startat stopat := by
  rw [Fits, type] at fits
  rcases fits with ⟨less, short⟩ | ⟨rfl, positive, first, differs⟩
  · have together : ¬ Scattered a := by
      rw [Scattered, type]
      exact id
    have first : startat < a.count := Nat.lt_of_lt_of_le less inside
    have positive : 0 < stopat := Nat.zero_lt_of_lt less
    have last := owner_last type less short
    obtain ⟨ranges, walked, tiles⟩ := walk_contiguous (a.owner startat) together less
    refine right_of [a.owner startat] (fun _ => ranges) (fun _ => [(startat, stopat)])
      (Nat.le_of_lt less) ?_ ?_ ?_ ?_ ?_
    · rw [forks_fixedFields type first positive inside, last, Nat.add_sub_cancel_left]
      rfl
    · intro shep member
      rw [List.mem_singleton.mp member, strider_fixedFields type less inside short, walked]
      rfl
    · intro shep member
      rw [List.mem_singleton.mp member]
      rw [loopStrider_fixedFields type first positive inside (Nat.le_refl _) (Nat.le_of_eq last.symm)]
      have early : ¬ stopat > (a.owner startat + 1) * a.segmentSize * a.segsPerShep - 1 := by omega
      simp [early, less]
    · simpa using tiles
    · simpa using Tiles.single less
  · have zero : a.owner (startat - 1) + 1 - a.owner startat = 0 := Nat.sub_eq_zero_of_le differs
    have nothing : Tiles [] startat startat := by
      refine ⟨by rintro _ ⟨⟩, .nil, fun i => ⟨?_, ?_⟩⟩
      · rintro ⟨range, member, -⟩
        cases member
      · rintro ⟨least, less⟩
        omega
    refine right_of [] (fun _ => []) (fun _ => []) (Nat.le_refl _) ?_ (by rintro _ ⟨⟩)
      (by rintro _ ⟨⟩) nothing nothing
    rw [forks_fixedFields type first positive inside, zero]
    rfl

end

variable {ranges : List (Nat × Nat)}

/-- A range that goes beyond the short stripe of its first shepherd: the first strider gets something
only if the range begins before the last element of that stripe, and no strider gets this element. -/
theorem fixedFields_missed {shep : Nat} (type : a.distType = .fixedFields)
    (less : startat < stopat) (inside : stopat ≤ a.count)
    (long : ¬stopat < (a.owner startat + 1) * a.segmentSize * a.segsPerShep)
    (least : a.owner startat ≤ shep) (most : shep ≤ a.owner (stopat - 1))
    (strode : a.loopStrider shep startat stopat = some ranges) :
    (shep = a.owner startat →
      startat < (a.owner startat + 1) * a.segmentSize * a.segsPerShep - 1) ∧
    ∀ range ∈ ranges, ¬(range.1 ≤ (a.owner startat + 1) * a.segmentSize * a.segsPerShep - 1 ∧
      (a.owner startat + 1) * a.segmentSize * a.segsPerShep - 1 < range.2) := by
  have size : 0 < (a.owner startat + 1) * a.segmentSize * a.segsPerShep :=
    Nat.mul_pos (Nat.mul_pos (Nat.succ_pos _) a.segment) segsPerShep_pos
  rw [loopStrider_fixedFields type (Nat.lt_of_lt_of_le less inside) (Nat.zero_lt_of_lt less) inside
    least most] at strode
  simp only at strode
  obtain ⟨early, same⟩ := Option.ite_none_right_eq_some.mp strode
  obtain rfl := Option.some.inj same
  constructor
  · rintro rfl
    simp only [ne_eq, not_true_eq_false, if_false] at early
    rwa [if_pos (show stopat > (a.owner startat + 1) * a.segmentSize * a.segsPerShep - 1 by omega)]
      at early
  · intro range member
    rw [List.mem_singleton.mp member]
    rintro ⟨lower, upper⟩
    by_cases mine : shep = a.owner startat
    · subst mine
      simp only at upper
      split at upper <;> omega
    · simp only [if_pos mine] at lower
      have more : (a.owner startat + 1) * a.segmentSize * a.segsPerShep ≤
          shep * a.segmentSize * a.segsPerShep :=
        Nat.mul_le_mul_right _ (Nat.mul_le_mul_right _ (by omega))
      omega

theorem fits_fixedFields (type : a.distType = .fixedFields) (order : startat ≤ stopat)
    (inside : stopat ≤ a.count) (right : a.Right startat stopat) : a.Fits startat stopat := by
  obtain ⟨now, iterated, -, tiles⟩ := right.loop
  obtain ⟨sheps, waits, done, forked, each, flat⟩ := iterate_eq_some iterated
  have bounds : startat < a.count ∧ 0 < stopat := by
    simp only [forks, type] at forked
    obtain ⟨startShep, first, forked⟩ := Option.bind_eq_some_iff.mp forked
    obtain ⟨stopShep, last, -⟩ := Option.bind_eq_some_iff.mp forked
    refine ⟨(shepof_eq_some first).1, ?_⟩
    by_contra zero
    obtain rfl : stopat = 0 := Nat.eq_zero_of_not_pos zero
    have far := (shepof_eq_some last).1
    have addressable := a.addressable
    simp only [before] at far
    omega
  obtain ⟨first, positive⟩ := bounds
  rw [forks_fixedFields type first positive inside] at forked
  simp only [Option.some.injEq, Prod.mk.injEq] at forked
  obtain ⟨rfl, -⟩ := forked
  rw [Fits, type]
  rcases Nat.lt_or_eq_of_le order with less | rfl
  · refine .inl ⟨less, ?_⟩
    by_contra long
    -- The element at the end of the short stripe of the first shepherd is in no range.
    have ascending := owner_mono type (Nat.le_sub_one_of_lt less)
    have listed : a.owner startat ∈ List.range' (a.owner startat)
        (a.owner (stopat - 1) + 1 - a.owner startat) := by
      rw [List.mem_range'_1]
      omega
    obtain ⟨did, -, strode⟩ := exists_result each listed
    have early := (fixedFields_missed type less inside long (Nat.le_refl _) ascending strode).1 rfl
    obtain ⟨range, member, inRange⟩ :=
      (tiles.covers ((a.owner startat + 1) * a.segmentSize * a.segsPerShep - 1)).mpr
        ⟨Nat.le_of_lt early, by omega⟩
    rw [flat] at member
    obtain ⟨other, listed, member⟩ := List.mem_flatten.mp member
    obtain ⟨shep, forked, strode⟩ := exists_argument each listed
    rw [List.mem_range'_1] at forked
    exact (fixedFields_missed type less inside long forked.1 (by omega) strode).2 range member inRange
  · refine .inr ⟨rfl, positive, first, ?_⟩
    by_contra same
    have listed : a.owner startat ∈ List.range' (a.owner startat)
        (a.owner (startat - 1) + 1 - a.owner startat) := by
      rw [List.mem_range'_1]
      omega
    obtain ⟨did, -, strode⟩ := exists_result each listed
    rw [loopStrider_fixedFields type first positive inside (Nat.le_refl _) (Nat.le_of_not_lt same)]
      at strode
    simp only [ne_eq, not_true_eq_false, if_false] at strode
    obtain ⟨less, -⟩ := Option.ite_none_right_eq_some.mp strode
    split at less <;> omega

theorem fits_scattered (scattered : Scattered a) : a.Fits startat stopat ↔
    startat < stopat ∧ (stopat - startat < a.segmentSize ∨ a.segmentSize ∣ startat ∨
      ∀ i, startat ≤ i → i < stopat → a.owner i = a.owner startat) := by
  cases type : a.distType with
  | fixedHash => rw [Fits, type]
  | dist owners => rw [Fits, type]
  | fixedFields =>
    rw [Scattered, type] at scattered
    exact scattered.elim
  | allSame home =>
    rw [Scattered, type] at scattered
    exact scattered.elim

theorem forks_scattered (scattered : Scattered a) : a.forks startat stopat =
    if stopat - startat < a.segmentSize then (a.shepof startat).map fun shep => ([shep], 1)
    else some (List.range n, n) := by
  cases type : a.distType with
  | fixedHash =>
    simp only [forks, type]
    cases a.shepof startat <;> rfl
  | dist owners =>
    simp only [forks, type]
    cases a.shepof startat <;> rfl
  | fixedFields =>
    rw [Scattered, type] at scattered
    exact scattered.elim
  | allSame home =>
    rw [Scattered, type] at scattered
    exact scattered.elim

theorem right_small (scattered : Scattered a) (less : startat < stopat) (inside : stopat ≤ a.count)
    (small : stopat - startat < a.segmentSize) : a.Right startat stopat := by
  obtain ⟨ranges, elements, loops, windows⟩ :=
    scattered_windows scattered (a.owner startat) less inside
  rw [base, if_pos rfl] at windows
  have tiles : Tiles ranges startat stopat := by
    refine windows.tiles a.segment ?_
    intro i within
    cases i with
    | zero => simp
    | succ i =>
      rw [Nat.add_mul] at within
      omega
  refine right_of [a.owner startat] (fun _ => ranges) (fun _ => ranges) (Nat.le_of_lt less)
    ?_ ?_ ?_ ?_ ?_
  · rw [forks_scattered scattered, if_pos small, shepof_eq (Nat.lt_of_lt_of_le less inside)]
    rfl
  · intro shep member
    rw [List.mem_singleton.mp member]
    exact elements
  · intro shep member
    rw [List.mem_singleton.mp member]
    exact loops
  · simpa using tiles
  · simpa using tiles

theorem windows_from_start {shep : Nat}
    (windows : Windows (a.owner · = shep) a.segmentSize stopat (a.base shep startat) ranges)
    (even : a.segmentSize ∣ startat ∨ ∀ i, startat ≤ i → i < stopat → a.owner i = a.owner startat) :
    Windows (a.owner · = shep) a.segmentSize stopat startat ranges := by
  by_cases mine : a.owner startat = shep
  · rwa [base, if_pos mine] at windows
  · rw [base, if_neg mine] at windows
    rcases even with aligned | same
    · rw [Nat.mod_eq_zero_of_dvd aligned, Nat.sub_zero] at windows
      rw [show startat + a.segmentSize = startat + 1 * a.segmentSize by rw [Nat.one_mul]] at windows
      refine windows.skip ?_
      intro i early _
      obtain rfl : i = 0 := by omega
      simpa using mine
    · have empty : ranges = [] := by
        refine List.eq_nil_iff_forall_not_mem.mpr fun range member => ?_
        obtain ⟨i, start, less, owned, -⟩ := windows.each range member
        have inside : startat ≤ range.1 := by omega
        exact mine ((same range.1 inside less).symm.trans owned)
      subst empty
      refine .nil ?_
      intro i within owned
      exact mine ((same _ (Nat.le_add_right _ _) within).symm.trans owned)

theorem scattered_tiles {ranges : Nat → List (Nat × Nat)} (inside : stopat ≤ a.count)
    (windows : ∀ shep, Windows (a.owner · = shep) a.segmentSize stopat (a.base shep startat)
      (ranges shep))
    (even : a.segmentSize ∣ startat ∨ ∀ i, startat ≤ i → i < stopat → a.owner i = a.owner startat) :
    Tiles ((List.range n).map ranges).flatten startat stopat := by
  refine tiles_flatten (fun shep place => a.owner place = shep) a.segment ?_ ?_ ?_
  · intro shep _
    exact windows_from_start (windows shep) even
  · intro shep other place first second
    exact first.symm.trans second
  · intro i within
    exact ⟨_, owner_lt (Nat.lt_of_lt_of_le within inside), rfl⟩

theorem right_scattered (scattered : Scattered a) (inside : stopat ≤ a.count)
    (fits : a.Fits startat stopat) : a.Right startat stopat := by
  obtain ⟨less, cases⟩ := (fits_scattered scattered).mp fits
  by_cases small : stopat - startat < a.segmentSize
  · exact right_small scattered less inside small
  have even := cases.resolve_left small
  choose ranges elements loops windows using
    fun shep => scattered_windows scattered shep less inside
  have tiles := scattered_tiles inside windows even
  refine right_of (List.range n) ranges ranges (Nat.le_of_lt less) ?_ ?_ ?_ tiles tiles
  · rw [forks_scattered scattered, if_neg small, List.length_range]
  · exact fun shep _ => elements shep
  · exact fun shep _ => loops shep

/-- The segment after some that are all of the first shepherd is worked on twice when it is another
shepherd's and the range begins within a segment. -/
theorem window_twice {k : Nat} {mine theirs : List (Nat × Nat)}
    (first : Windows (a.owner · = a.owner startat) a.segmentSize stopat startat mine)
    (other : Windows (a.owner · = a.owner (startat + (a.segmentSize - startat % a.segmentSize) +
        k * a.segmentSize)) a.segmentSize stopat
      (startat + (a.segmentSize - startat % a.segmentSize)) theirs)
    (ragged : startat % a.segmentSize ≠ 0)
    (within : startat + (a.segmentSize - startat % a.segmentSize) + k * a.segmentSize < stopat)
    (same : a.owner (startat + k * a.segmentSize) = a.owner startat) :
    ∃ range ∈ mine, ∃ next ∈ theirs, range ≠ next ∧ ¬ Apart range next := by
  have offset := Nat.mod_lt startat a.segment
  refine ⟨_, first.all k (by omega) same, _, other.all k within rfl, ?_, ?_⟩
  · intro equal
    have starts := congrArg Prod.fst equal
    simp only at starts
    omega
  · rintro (before | before)
    · simp only at before
      omega
    · simp only at before
      omega

theorem boundary (a : Qarray n) (startat k : Nat) :
    startat + (a.segmentSize - startat % a.segmentSize) + k * a.segmentSize =
      (startat / a.segmentSize + 1 + k) * a.segmentSize := by
  have offset := Nat.mod_lt startat a.segment
  have whole := Nat.div_add_mod startat a.segmentSize
  rw [Nat.mul_comm] at whole
  rw [Nat.add_mul, Nat.add_mul, Nat.one_mul]
  omega

theorem owner_const
    (same : ∀ k, startat + (a.segmentSize - startat % a.segmentSize) + k * a.segmentSize < stopat →
      a.owner (startat + (a.segmentSize - startat % a.segmentSize) + k * a.segmentSize) =
        a.owner startat)
    {i : Nat} (least : startat ≤ i) (less : i < stopat) : a.owner i = a.owner startat := by
  rcases Nat.lt_or_eq_of_le (Nat.div_le_div_right (c := a.segmentSize) least) with later | first
  · have position : startat / a.segmentSize + 1 + (i / a.segmentSize - startat / a.segmentSize - 1) =
        i / a.segmentSize := by
      rw [Nat.sub_sub]
      exact Nat.add_sub_cancel' later
    have owned := same (i / a.segmentSize - startat / a.segmentSize - 1)
    rw [boundary, position] at owned
    have below := Nat.div_mul_le_self i a.segmentSize
    rw [← owned (Nat.lt_of_le_of_lt below less), owner, owner, Nat.mul_div_cancel _ a.segment]
  · rw [owner, owner, first]

theorem loopStrider_empty (scattered : Scattered a) (inside : startat < a.count) :
    a.loopStrider (a.owner startat) startat startat = none := by
  have found : a.find (a.owner startat) startat startat = some (some startat) := by
    simp [find, seek, shepof_eq inside]
  cases type : a.distType with
  | fixedHash => simp [loopStrider, type, found]
  | dist owners => simp [loopStrider, type, found]
  | fixedFields =>
    rw [Scattered, type] at scattered
    exact scattered.elim
  | allSame home =>
    rw [Scattered, type] at scattered
    exact scattered.elim

theorem less_of_right (scattered : Scattered a) (order : startat ≤ stopat)
    (right : a.Right startat stopat) : startat < stopat := by
  refine Nat.lt_of_le_of_ne order ?_
  rintro rfl
  obtain ⟨now, iterated, -⟩ := right.loop
  obtain ⟨sheps, waits, done, forked, each, -⟩ := iterate_eq_some iterated
  rw [forks_scattered scattered, Nat.sub_self, if_pos a.segment] at forked
  obtain ⟨shep, owned, same⟩ := Option.map_eq_some_iff.mp forked
  cases same
  obtain ⟨inside, rfl⟩ := shepof_eq_some owned
  obtain ⟨did, -, strode⟩ := exists_result each List.mem_cons_self
  rw [loopStrider_empty scattered inside] at strode
  cases strode

theorem scattered_overlap (scattered : Scattered a) (less : startat < stopat)
    (inside : stopat ≤ a.count) (ragged : ¬a.segmentSize ∣ startat)
    (mixed : ¬∀ i, startat ≤ i → i < stopat → a.owner i = a.owner startat) :
    ∃ place mine theirs, startat ≤ place ∧ place < stopat ∧
      a.loopStrider (a.owner startat) startat stopat = some mine ∧
      a.loopStrider (a.owner place) startat stopat = some theirs ∧
      ∃ range ∈ mine, ∃ next ∈ theirs, range ≠ next ∧ ¬Apart range next := by
  have offset : startat % a.segmentSize ≠ 0 := fun zero => ragged (Nat.dvd_of_mod_eq_zero zero)
  -- The first boundary in the range that is another shepherd's.
  have other : ∃ k, startat + (a.segmentSize - startat % a.segmentSize) + k * a.segmentSize < stopat ∧
      a.owner (startat + (a.segmentSize - startat % a.segmentSize) + k * a.segmentSize) ≠
        a.owner startat := by
    by_contra absent
    refine mixed fun i least less => owner_const (fun k within => ?_) least less
    by_contra differs
    exact absent ⟨k, within, differs⟩
  classical
  obtain ⟨within, differs⟩ := Nat.find_spec other
  have earlier := fun k => Nat.find_min other (m := k)
  generalize Nat.find other = k at within differs earlier
  have same : a.owner (startat + k * a.segmentSize) = a.owner startat := by
    cases k with
    | zero => rw [Nat.zero_mul, Nat.add_zero]
    | succ k =>
      have before := earlier k (Nat.lt_succ_self k)
      rw [Nat.add_mul] at within
      have owned : a.owner (startat + (a.segmentSize - startat % a.segmentSize) +
          k * a.segmentSize) = a.owner startat := by
        by_contra differs
        exact before ⟨by omega, differs⟩
      rw [← owned, boundary, owner, owner, Nat.add_mul_div_right _ _ a.segment,
        Nat.mul_div_cancel _ a.segment]
      congr 1
      omega
  obtain ⟨mine, -, loops, first⟩ := scattered_windows scattered (a.owner startat) less inside
  obtain ⟨theirs, -, also, second⟩ := scattered_windows scattered
    (a.owner (startat + (a.segmentSize - startat % a.segmentSize) + k * a.segmentSize)) less inside
  rw [base, if_pos rfl] at first
  rw [base, if_neg (Ne.symm differs)] at second
  exact ⟨_, mine, theirs, by omega, within, loops, also, window_twice first second offset within same⟩

theorem fits_of_right_scattered (scattered : Scattered a) (order : startat ≤ stopat)
    (inside : stopat ≤ a.count) (right : a.Right startat stopat) : a.Fits startat stopat := by
  have less := less_of_right scattered order right
  refine (fits_scattered scattered).mpr ⟨less, ?_⟩
  by_contra bad
  obtain ⟨large, ragged, mixed⟩ : ¬ stopat - startat < a.segmentSize ∧ ¬ a.segmentSize ∣ startat ∧
      ¬ ∀ i, startat ≤ i → i < stopat → a.owner i = a.owner startat := by
    simpa only [not_or] using bad
  obtain ⟨place, mine, theirs, least, within, loops, also, range, listed, next, following, distinct,
    overlap⟩ := scattered_overlap scattered less inside ragged mixed
  obtain ⟨now, iterated, -, tiles⟩ := right.loop
  obtain ⟨sheps, waits, done, forked, each, flat⟩ := iterate_eq_some iterated
  rw [forks_scattered scattered, if_neg large] at forked
  cases forked
  have inDone {shep : Nat} {ranges : List (Nat × Nat)} {range : Nat × Nat} (few : shep < n)
      (strode : a.loopStrider shep startat stopat = some ranges) (member : range ∈ ranges) :
      range ∈ now.done := by
    obtain ⟨did, done, strode'⟩ := exists_result each (List.mem_range.mpr few)
    rw [strode] at strode'
    cases strode'
    rw [flat]
    exact List.mem_flatten.mpr ⟨_, done, member⟩
  refine overlap (tiles.apart.forall ?_ ?_ distinct)
  · exact inDone (owner_lt (Nat.lt_of_lt_of_le less inside)) loops listed
  · exact inDone (owner_lt (Nat.lt_of_lt_of_le within inside)) also following

theorem right_iff_fits (a : Qarray n) (order : startat ≤ stopat) (inside : stopat ≤ a.count) :
    a.Right startat stopat ↔ a.Fits startat stopat := by
  cases type : a.distType with
  | allSame home =>
    rw [fits_allSame type]
    exact ⟨not_right_allSame type, right_allSame type⟩
  | fixedFields => exact ⟨fits_fixedFields type order inside, right_fixedFields type inside⟩
  | fixedHash =>
    have scattered : Scattered a := by
      rw [Scattered, type]
      trivial
    exact ⟨fits_of_right_scattered scattered order inside, right_scattered scattered inside⟩
  | dist owners =>
    have scattered : Scattered a := by
      rw [Scattered, type]
      trivial
    exact ⟨fits_of_right_scattered scattered order inside, right_scattered scattered inside⟩

def ten (distType : Distribution 2) : Qarray 2 := ⟨10, 4, distType, Nat.two_pos, by decide, by decide⟩

theorem right_aligned : (ten .fixedHash).Right 4 10 :=
  (right_iff_fits (ten .fixedHash) (by decide) (by decide)).mpr ⟨by decide, .inr (.inl (by decide))⟩

/-- From within a segment on, an element is visited twice and another never; with a stripe for each
shepherd a range loses an element; and an empty range fails an assertion. -/
theorem visits_wrongly : ¬ (ten .fixedHash).Right 1 10 ∧ ¬ (ten .fixedFields).Right 0 10 ∧
    ¬ (ten (.allSame 0)).Right 5 5 := by
  refine ⟨?_, ?_, ?_⟩
  · intro right
    obtain ⟨now, iterated, -, once, -⟩ := right.iter
    have twice : (ten .fixedHash).iter 1 10 = some ⟨[1, 2, 3, 4, 9, 4, 5, 6, 7], 2, 2⟩ := by decide
    cases iterated.symm.trans twice
    exact absurd once (by decide)
  · intro right
    obtain ⟨now, iterated, -, tiles⟩ := right.loop
    have lost : (ten .fixedFields).iterLoop 0 10 = some ⟨[(0, 3), (4, 7)], 2, 2⟩ := by decide
    cases iterated.symm.trans lost
    obtain ⟨range, member, least, less⟩ := (tiles.covers 3).mpr (by decide)
    simp only [List.mem_cons, List.not_mem_nil, or_false] at member
    rcases member with rfl | rfl
    · exact absurd less (by decide)
    · exact absurd least (by decide)
  · intro right
    obtain ⟨now, iterated, -⟩ := right.loop
    have fails : (ten (.allSame 0)).iterLoop 5 5 = none := by decide
    cases iterated.symm.trans fails

end Qthreads.Qarray
