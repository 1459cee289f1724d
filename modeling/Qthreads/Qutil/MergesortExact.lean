import Qthreads.Qutil.DrfExact
import Qthreads.Qutil.Merge

namespace Qthreads.Qutil

open Lib

variable {α : Type} [LinearOrder α] {length chunksize fuel : Nat} {array : Nat → α}

theorem presortThreads_spec (small : length < 2 ^ 61) {i : Nat} :
    i < presortThreads length 10 ↔ i * 10 < length := by
  have product : sizeT (length / 10 * 10) = length / 10 * 10 := sizeT_of_lt (by omega)
  have rest : sizeSub length (length / 10 * 10) = length - length / 10 * 10 :=
    sizeSub_of_le (by omega) (by omega)
  have next : sizeT (length / 10 + 1) = length / 10 + 1 := sizeT_of_lt (by omega)
  rw [presortThreads]
  rw [product, rest, next]
  split <;> omega

theorem presortArgs_spec (small : length < 2 ^ 61) {i : Nat} (inside : i * 10 < length) :
    (presortArgs length 10 i).firstStart = i * 10 ∧
      (presortArgs length 10 i).firstStop = min ((i + 1) * 10) length - 1 := by
  have next : sizeT (i + 1) = i + 1 := sizeT_of_lt (by omega)
  have product : sizeT ((i + 1) * 10) = (i + 1) * 10 := sizeT_of_lt (by omega)
  have stop : sizeSub ((i + 1) * 10) 1 = (i + 1) * 10 - 1 := sizeSub_of_le (by omega) (by omega)
  have last : sizeSub length 1 = length - 1 := sizeSub_of_le (by omega) (by omega)
  refine ⟨sizeT_of_lt (by omega), ?_⟩
  rw [presortArgs]
  simp only
  rw [next, product, stop, last]
  split <;> omega

def presortSpec (α : Type) [LinearOrder α] (length : Nat) : TaskSpec α MergesortArgs where
  touches args i := args.firstStart ≤ i ∧ i ≤ args.firstStop
  ready args _ :=
    args.firstStart ≤ args.firstStop ∧ args.firstStop < length ∧
      args.firstStop < args.firstStart + 10
  done args array := Ascending args.firstStart (args.firstStop + 1) array
  readyCongr := fun _ ready => ready
  doneCongr := by
    intro args first second same ascending x y lower less upper
    rw [same x ⟨lower, by omega⟩, same y ⟨by omega, by omega⟩]
    exact ascending x y lower less upper

theorem presort_works (small : length < 2 ^ 61) (enough : 21 < fuel) :
    (presortSpec α length).Works length (mergesortPresort fuel length) := by
  intro array args ⟨order, inside, few⟩
  have count : sizeT (sizeSub args.firstStop args.firstStart + 1) =
      args.firstStop - args.firstStart + 1 := by
    rw [sizeSub_of_le order (by omega), sizeT_of_lt (by omega)]
  obtain ⟨sorted, is, sorts⟩ :=
    (drfQsort_sorts (by omega : args.firstStop - args.firstStart + 1 < 2 ^ 32)).1 α _
      (fun i => array (args.firstStart + i)) fuel (by omega)
  refine ⟨splice args.firstStart (args.firstStop - args.firstStart + 1) array sorted, ?_, ?_, ?_, ?_⟩
  · rw [mergesortPresort, count]
    rw [if_pos (by omega), is]
    rfl
  · exact sorts.rearranged.splice.widen (Nat.zero_le _) (by omega)
  · intro i out
    refine splice_outside ?_ _ _
    have apart : ¬ (args.firstStart ≤ i ∧ i ≤ args.firstStop) := out
    omega
  · intro x y lower less upper
    rw [splice_inside lower (by omega), splice_inside (by omega) (by omega)]
    exact sorts.ascending _ _ (Nat.zero_le _) (by omega) (by omega)

def Runs (length chunksize : Nat) (array : Nat → α) : Prop :=
  ∀ k x y, k * chunksize ≤ x → x < y → y < (k + 1) * chunksize → y < length → array x ≤ array y

theorem presort_runs (small : length < 2 ^ 61) (enough : 21 < fuel)
    (schedule : Schedule MergesortArgs) (array : Nat → α) :
    ∃ after, runAll (mergesortPresort fuel length)
        (schedule.order 0 ((List.range (presortThreads length 10)).map (presortArgs length 10)))
        array = some after ∧
      Rearranged 0 length array after ∧ Runs length 10 after := by
  let chunks := (List.range (presortThreads length 10)).map (presortArgs length 10)
  have perm := schedule.all 0 chunks
  have inside : ∀ i ∈ List.range (presortThreads length 10), i * 10 < length := fun i listed =>
    (presortThreads_spec small).mp (List.mem_range.mp listed)
  have apart : chunks.Pairwise (presortSpec α length).Apart := by
    refine List.pairwise_map.mpr ((List.pairwise_lt_range).imp_of_mem ?_)
    intro first second firstListed secondListed less i ⟨_, upper⟩ ⟨lower, _⟩
    rw [(presortArgs_spec small (inside first firstListed)).2] at upper
    rw [(presortArgs_spec small (inside second secondListed)).1] at lower
    omega
  have symm : ∀ {first second}, (presortSpec α length).Apart first second →
      (presortSpec α length).Apart second first :=
    fun apart i second first => apart i first second
  obtain ⟨after, ran, rearranged, -, done⟩ :=
    (presort_works (α := α) small enough).runAll ((perm.pairwise_iff symm).mpr apart) array (by
        intro args listed
        obtain ⟨i, iListed, rfl⟩ := List.mem_map.mp (perm.mem_iff.mp listed)
        obtain ⟨start, stop⟩ := presortArgs_spec small (inside i iListed)
        have first := inside i iListed
        refine ⟨?_, ?_, ?_⟩
        · rw [start, stop]
          omega
        · rw [stop]
          omega
        · rw [start, stop]
          omega)
  refine ⟨after, ran, rearranged, ?_⟩
  intro k x y lower less upper yInside
  have kInside : k * 10 < length := by omega
  obtain ⟨start, stop⟩ := presortArgs_spec small kInside
  have listed : presortArgs length 10 k ∈ schedule.order 0 chunks :=
    perm.mem_iff.mpr (List.mem_map.mpr
      ⟨k, List.mem_range.mpr ((presortThreads_spec small).mpr kInside), rfl⟩)
  have ascending := done _ listed
  refine ascending x y ?_ less ?_
  · rw [start]
    exact lower
  · rw [stop]
    omega

theorem mergeArgs_spec (small : length < 2 ^ 61) (positive : 0 < chunksize) (fits : chunksize ≤ length)
    {i : Nat} (inside : i < length - chunksize) :
    (mergeArgs length chunksize i).firstStart = i ∧
      (mergeArgs length chunksize i).firstStop = i + chunksize - 1 ∧
      (mergeArgs length chunksize i).secondStart = i + chunksize ∧
      (mergeArgs length chunksize i).secondStop = min (i + 2 * chunksize) length - 1 := by
  have double : sizeT (2 * chunksize) = 2 * chunksize := sizeT_of_lt (by omega)
  have middle : sizeT (i + chunksize) = i + chunksize := sizeT_of_lt (by omega)
  have stop : sizeT (i + 2 * chunksize) = i + 2 * chunksize := sizeT_of_lt (by omega)
  have beforeMiddle : sizeSub (i + chunksize) 1 = i + chunksize - 1 :=
    sizeSub_of_le (by omega) (by omega)
  have beforeStop : sizeSub (i + 2 * chunksize) 1 = i + 2 * chunksize - 1 :=
    sizeSub_of_le (by omega) (by omega)
  have last : sizeSub length 1 = length - 1 := sizeSub_of_le (by omega) (by omega)
  rw [mergeArgs]
  simp only [double, middle, stop, beforeMiddle, beforeStop, last, true_and]
  split <;> omega

theorem mergeThreads_spec (small : length < 2 ^ 61) (fits : 10 ≤ length) {t : Nat}
    (inside : t * 20 < length - 10) : t < mergeThreads length 10 := by
  have rest : sizeSub length 10 = length - 10 := sizeSub_of_le fits (by omega)
  have double : sizeT (2 * 10) = 20 := sizeT_of_lt (by omega)
  have product : sizeT (20 * ((length - 10) / 20)) = 20 * ((length - 10) / 20) :=
    sizeT_of_lt (by omega)
  have left : sizeSub (length - 10) (20 * ((length - 10) / 20)) =
      length - 10 - 20 * ((length - 10) / 20) := sizeSub_of_le (by omega) (by omega)
  have next : sizeT ((length - 10) / 20 + 1) = (length - 10) / 20 + 1 := sizeT_of_lt (by omega)
  rw [mergeThreads]
  rw [rest, double, product, left, next]
  split <;> omega

structure MergesortArgs.Adjacent (args : MergesortArgs) (length : Nat) : Prop where
  first : args.firstStart ≤ args.firstStop
  adjacent : args.secondStart = args.firstStop + 1
  second : args.secondStart ≤ args.secondStop
  inside : args.secondStop < length

def mergeSpec (α : Type) [LinearOrder α] (length : Nat) : TaskSpec α MergesortArgs where
  touches args i := args.firstStart ≤ i ∧ i ≤ args.secondStop
  ready args array :=
    args.Adjacent length ∧ Ascending args.firstStart args.secondStart array ∧
      Ascending args.secondStart (args.secondStop + 1) array
  done args array := Ascending args.firstStart (args.secondStop + 1) array
  readyCongr := by
    intro args first second same ⟨adjacent, left, right⟩
    have facts := adjacent.adjacent
    have order := adjacent.first
    have last := adjacent.second
    refine ⟨adjacent, ?_, ?_⟩
    · intro x y lower less upper
      rw [same x ⟨lower, by omega⟩, same y ⟨by omega, by omega⟩]
      exact left x y lower less upper
    · intro x y lower less upper
      rw [same x ⟨by omega, by omega⟩, same y ⟨by omega, by omega⟩]
      exact right x y lower less upper
  doneCongr := by
    intro args first second same ascending x y lower less upper
    rw [same x ⟨lower, by omega⟩, same y ⟨by omega, by omega⟩]
    exact ascending x y lower less upper

theorem merge_works (small : length < 2 ^ 61) (enough : length < fuel) :
    (mergeSpec α length).Works length (mergesortInner length fuel) := by
  intro array args ⟨adjacent, left, right⟩
  obtain ⟨first, next, second, inside⟩ := adjacent
  have merging : Merging args.firstStart (args.secondStop + 1) array array args.firstStart
      args.secondStart := by
    refine ⟨Nat.le_refl _, by omega, by omega, ?_, left, right, ?_, .refl _ _ array⟩
    · intro x y lower less upper
      omega
    · intro x y xLower xUpper
      omega
  obtain ⟨after, ran, rearranged, ascending⟩ := merging.loop inside (by omega)
    (by omega) (Nat.succ_pos _) (by omega : args.secondStop + 1 - args.firstStart < fuel)
  refine ⟨after, ?_, rearranged.widen (Nat.zero_le _) inside, ?_, ascending⟩
  · have stop : args.secondStart - 1 = args.firstStop := by omega
    rw [stop] at ran
    exact ran
  · intro i out
    have apart : ¬ (args.firstStart ≤ i ∧ i ≤ args.secondStop) := out
    exact rearranged.outside (by omega)

theorem mergeSegments_spec {allocated fuel i t : Nat} (small : length < 2 ^ 61)
    (positive : 0 < chunksize) (fits : chunksize ≤ length)
    (room : ∀ t, t * (2 * chunksize) < length - chunksize → t < allocated)
    (start : i = t * (2 * chunksize)) (enough : length - i < fuel) :
    ∃ segments, mergeSegments length chunksize allocated fuel i t = some segments ∧
      (segments ≠ [] → t + segments.length ≤ allocated) ∧
      (∀ args, args ∈ segments ↔ ∃ k, t ≤ k ∧ k * (2 * chunksize) < length - chunksize ∧
        args = mergeArgs length chunksize (k * (2 * chunksize))) ∧
      segments.Pairwise fun first second => first.secondStop < second.firstStart := by
  have rest : sizeSub length chunksize = length - chunksize := sizeSub_of_le fits (by omega)
  induction fuel generalizing i t with
  | zero => exact absurd enough (Nat.not_lt_zero _)
  | succ fuel ih =>
    rw [mergeSegments, rest]
    by_cases more : i < length - chunksize
    · have free : t < allocated := room t (start ▸ more)
      have double : sizeT (2 * chunksize) = 2 * chunksize := sizeT_of_lt (by omega)
      have stop : sizeT (i + 2 * chunksize) = i + 2 * chunksize := sizeT_of_lt (by omega)
      have few : t ≤ i := start ▸ Nat.le_mul_of_pos_right t (by omega)
      have next : sizeT (t + 1) = t + 1 := sizeT_of_lt (by omega)
      have step : i + 2 * chunksize = (t + 1) * (2 * chunksize) := by
        rw [start, Nat.succ_mul t]
      obtain ⟨segments, is, count, listed, ordered⟩ := ih step (by omega)
      refine ⟨mergeArgs length chunksize i :: segments, ?_, ?_, ?_, ?_⟩
      · rw [if_pos more, if_pos free, double, stop, next, is]
        rfl
      · intro _
        rw [List.length_cons]
        by_cases empty : segments = []
        · rw [empty, List.length_nil]
          exact free
        · have below := count empty
          omega
      · intro args
        rw [List.mem_cons, listed]
        constructor
        · rintro (same | ⟨k, above, inside, same⟩)
          · exact ⟨t, Nat.le_refl t, start ▸ more, start ▸ same⟩
          · exact ⟨k, Nat.le_of_succ_le above, inside, same⟩
        · intro ⟨k, above, inside, same⟩
          by_cases first : k = t
          · left
            rw [same, first, ← start]
          · exact .inr ⟨k, by omega, inside, same⟩
      · refine List.pairwise_cons.mpr ⟨?_, ordered⟩
        intro args later
        obtain ⟨k, above, inside, same⟩ := (listed args).mp later
        have own := (mergeArgs_spec small positive fits more).2.2.2
        have other := (mergeArgs_spec small positive fits inside).1
        have apart : (t + 1) * (2 * chunksize) ≤ k * (2 * chunksize) :=
          Nat.mul_le_mul_right _ above
        rw [own, same, other]
        omega
    · rw [if_neg more]
      refine ⟨[], rfl, fun nonempty => absurd rfl nonempty, ?_, .nil⟩
      intro args
      constructor
      · intro member
        cases member
      · intro ⟨k, above, inside, _⟩
        have apart : t * (2 * chunksize) ≤ k * (2 * chunksize) := Nat.mul_le_mul_right _ above
        omega

/-- The segments of a round lie apart in the array, are two sorted runs each, and have a place. -/
structure MergeRound.Proper (length allocated : Nat) (round : MergeRound α) : Prop where
  few : round.segments.length ≤ allocated
  ready : ∀ args ∈ round.segments, args.Adjacent length ∧
    Ascending args.firstStart args.secondStart round.array ∧
    Ascending args.secondStart (args.secondStop + 1) round.array
  apart : round.segments.Pairwise fun first second => first.secondStop < second.firstStart

section

variable (runs : Runs length chunksize array) (small : length < 2 ^ 61)
include runs small

theorem Runs.ready (positive : 0 < chunksize) (fits : chunksize ≤ length) {k : Nat}
    (inside : k * (2 * chunksize) < length - chunksize) :
    (mergeSpec α length).ready (mergeArgs length chunksize (k * (2 * chunksize))) array := by
  obtain ⟨firstStart, firstStop, secondStart, secondStop⟩ := mergeArgs_spec small positive fits inside
  have even : 2 * k * chunksize = k * (2 * chunksize) := by rw [Nat.mul_comm 2 k, Nat.mul_assoc]
  have odd : (2 * k + 1) * chunksize = k * (2 * chunksize) + chunksize := by
    rw [Nat.succ_mul, even]
  have next : (2 * k + 1 + 1) * chunksize = k * (2 * chunksize) + 2 * chunksize := by
    rw [Nat.succ_mul, odd]
    omega
  refine ⟨⟨?_, ?_, ?_, ?_⟩, ?_, ?_⟩
  · rw [firstStart, firstStop]
    omega
  · rw [secondStart, firstStop]
    omega
  · rw [secondStart, secondStop]
    omega
  · rw [secondStop]
    omega
  · intro x y lower less upper
    rw [firstStart] at lower
    rw [secondStart] at upper
    exact runs (2 * k) x y (by omega) less (by omega) (by omega)
  · intro x y lower less upper
    rw [secondStart] at lower
    rw [secondStop] at upper
    exact runs (2 * k + 1) x y (by omega) less (by omega) (by omega)

theorem Runs.merge {allocated : Nat} (positive : 0 < chunksize) (fits : chunksize ≤ length)
    (room : ∀ t, t * (2 * chunksize) < length - chunksize → t < allocated)
    (enough : length < fuel) (schedule : Schedule MergesortArgs) :
    ∃ segments after, mergeSegments length chunksize allocated fuel 0 0 = some segments ∧
      MergeRound.Proper length allocated ⟨array, segments⟩ ∧
      runAll (mergesortInner length fuel) (schedule.order chunksize segments) array =
        Option.some after ∧
      Rearranged 0 length array after ∧ Runs length (chunksize * 2) after := by
  obtain ⟨segments, is, count, listed, ordered⟩ :=
    mergeSegments_spec small positive fits room (Nat.zero_mul _).symm
      (Nat.lt_of_le_of_lt (Nat.sub_le _ _) enough)
  have perm := schedule.all chunksize segments
  have ready : ∀ args ∈ segments, (mergeSpec α length).ready args array := by
    intro args member
    obtain ⟨k, -, inside, rfl⟩ := (listed args).mp member
    exact runs.ready small positive fits inside
  have apart : segments.Pairwise (mergeSpec α length).Apart :=
    ordered.imp fun less i ⟨_, upper⟩ ⟨lower, _⟩ => by omega
  have symm : ∀ {first second}, (mergeSpec α length).Apart first second →
      (mergeSpec α length).Apart second first :=
    fun apart i second first => apart i first second
  obtain ⟨after, ran, rearranged, frame, done⟩ :=
    (merge_works (α := α) small enough).runAll ((perm.pairwise_iff symm).mpr apart) array
      fun args member => ready args (perm.mem_iff.mp member)
  refine ⟨segments, after, is, ⟨?_, ready, ordered⟩, ran, rearranged, ?_⟩
  · by_cases empty : segments = []
    · rw [empty]
      exact Nat.zero_le _
    · have below := count empty
      rw [Nat.zero_add] at below
      exact below
  · intro k x y lower less upper yInside
    have double : k * (chunksize * 2) = k * (2 * chunksize) := by rw [Nat.mul_comm chunksize]
    have next : (k + 1) * (chunksize * 2) = k * (2 * chunksize) + 2 * chunksize := by
      rw [Nat.succ_mul, double]
      omega
    by_cases inside : k * (2 * chunksize) < length - chunksize
    · obtain ⟨firstStart, -, -, secondStop⟩ := mergeArgs_spec small positive fits inside
      have member := (listed _).mpr ⟨k, Nat.zero_le k, inside, rfl⟩
      refine done _ (perm.mem_iff.mpr member) x y ?_ less ?_
      · rw [firstStart]
        omega
      · rw [secondStop]
        omega
    · -- A last run without a partner is as it was.
      have untouched : ∀ z, k * (2 * chunksize) ≤ z → after z = array z := by
        intro z zLower
        refine frame z fun args member ⟨touchedLower, touchedUpper⟩ => ?_
        obtain ⟨t, -, tInside, rfl⟩ := (listed args).mp (perm.mem_iff.mp member)
        have secondStop := (mergeArgs_spec small positive fits tInside).2.2.2
        rw [secondStop] at touchedUpper
        have less : t < k := by
          by_contra notLess
          have above : k * (2 * chunksize) ≤ t * (2 * chunksize) :=
            Nat.mul_le_mul_right _ (Nat.le_of_not_lt notLess)
          omega
        have apart : (t + 1) * (2 * chunksize) ≤ k * (2 * chunksize) := Nat.mul_le_mul_right _ less
        rw [Nat.succ_mul] at apart
        omega
      have even : 2 * k * chunksize = k * (2 * chunksize) := by
        rw [Nat.mul_comm 2 k, Nat.mul_assoc]
      have odd : (2 * k + 1) * chunksize = k * (2 * chunksize) + chunksize := by
        rw [Nat.succ_mul, even]
      rw [untouched x (by omega), untouched y (by omega)]
      exact runs (2 * k) x y (by omega) less (by omega) yInside

theorem Runs.rounds {rounds : Nat}
    (ten : 10 ≤ chunksize) (least : 10 ≤ length) (enough : length < fuel)
    (steps : length + 1 - chunksize < rounds) (schedule : Schedule MergesortArgs) :
    ∃ log after, mergeRounds fuel length (mergeThreads length 10) schedule rounds chunksize array =
        some (log, after) ∧
      Sorts length array after ∧
      ∀ round ∈ log, round.Proper length (mergeThreads length 10) := by
  induction rounds generalizing chunksize array with
  | zero => exact absurd steps (Nat.not_lt_zero _)
  | succ rounds ih =>
    rw [mergeRounds]
    by_cases fits : chunksize ≤ length
    · have room : ∀ t, t * (2 * chunksize) < length - chunksize → t < mergeThreads length 10 := by
        intro t inside
        have more : t * 20 ≤ t * (2 * chunksize) := Nat.mul_le_mul_left _ (by omega)
        exact mergeThreads_spec small least (by omega)
      obtain ⟨segments, merged, is, proper, ran, rearranged, doubled⟩ :=
        runs.merge small (by omega) fits room enough schedule
      have double : sizeT (chunksize * 2) = chunksize * 2 := sizeT_of_lt (by omega)
      obtain ⟨log, after, rest, sorts, propers⟩ := ih doubled (by omega) (by omega)
      refine ⟨⟨array, segments⟩ :: log, after, ?_, ⟨sorts.ascending, ?_⟩, ?_⟩
      · rw [if_pos fits, is]
        simp only [Option.bind_eq_bind, Option.bind_some, ran, double, rest]
        rfl
      · exact rearranged.trans sorts.rearranged
      · intro round member
        cases List.mem_cons.mp member with
        | inl same =>
          rw [same]
          exact proper
        | inr later => exact propers round later
    · rw [if_neg fits]
      refine ⟨[], array, rfl, ⟨?_, .refl 0 length array⟩, nofun⟩
      intro x y _ less yInside
      exact runs 0 x y (by omega) less (by omega) yInside

end

/-- For an array of doubles, whose size is a `size_t`. -/
theorem qutilMergesort_sorts (fits : 8 * length < 2 ^ 64) (schedule : Schedule MergesortArgs)
    (array : Nat → α) (enough : length + 22 < fuel) :
    ∃ rounds after, qutilMergesort fuel schedule array length = some (rounds, after) ∧
      Sorts length array after ∧
      ∀ round ∈ rounds, round.Proper length (mergeThreads length 10) := by
  have small : length < 2 ^ 61 := by omega
  obtain ⟨presorted, ran, rearranged, runs⟩ := presort_runs small (by omega : 21 < fuel) schedule array
  rw [qutilMergesort]
  simp only [Option.bind_eq_bind, ran, Option.bind_some]
  by_cases least : 10 ≤ length
  · rw [if_pos least]
    obtain ⟨log, after, is, sorts, propers⟩ :=
      runs.rounds small (Nat.le_refl 10) least (by omega : length < fuel)
        (by omega : length + 1 - 10 < fuel) schedule
    exact ⟨log, after, is, ⟨sorts.ascending, rearranged.trans sorts.rearranged⟩, propers⟩
  · rw [if_neg least]
    refine ⟨[], presorted, rfl, ⟨?_, rearranged⟩, nofun⟩
    intro x y _ less upper
    exact runs 0 x y (by omega) less (by omega) upper

theorem qutilMergesort_sorts_twenty :
    ∃ rounds after, qutilMergesort 43 ⟨fun _ tasks => tasks, fun _ tasks => .refl tasks⟩
        (fun i => 20 - i) 20 = some (rounds, after) ∧
      Sorts 20 (fun i => 20 - i) after ∧
      ∀ round ∈ rounds, round.Proper 20 (mergeThreads 20 10) :=
  qutilMergesort_sorts (by decide) _ _ (by decide)

end Qthreads.Qutil
