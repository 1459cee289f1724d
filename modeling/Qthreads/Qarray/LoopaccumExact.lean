import Mathlib.Data.Finset.Card
import Qthreads.Lib.Merge
import Qthreads.Qarray.Exact
import Qthreads.Qarray.Loopaccum

namespace Qthreads

open Lib

variable {retsize : Nat}

namespace Accumulation

variable {work : Accumulation retsize}

instance : Std.Associative work.acc := ⟨work.associative⟩

instance : Std.Commutative work.acc := ⟨work.commutative⟩

theorem accumulate_eq (ranges : List (Nat × Nat)) :
    work.accumulate ranges =
      combine work.acc (ranges.map fun range => some (work.func range.1 range.2)) := by
  cases ranges with
  | nil => rfl
  | cons first rest =>
    have all := combine_some work.acc (work.func first.1 first.2)
      (rest.map fun range => work.func range.1 range.2)
    rw [List.foldl_map, List.map_map] at all
    exact all.symm

theorem combine_accumulate {lists : List (List (Nat × Nat))} {start stop : Nat}
    (tiles : Tiles lists.flatten start stop) (less : start < stop) :
    combine work.acc (lists.map work.accumulate) = some (work.func start stop) := by
  rw [← tiles.combine work.splits less, List.map_flatten, combine_flatten, List.map_map]
  congr 1
  exact List.map_congr_left fun ranges _ => accumulate_eq ranges

end Accumulation

namespace Partials

variable {partials : Partials retsize} {i j : Nat}

def slot (partials : Partials retsize) (i : Nat) : Value retsize :=
  if i = 0 then partials.ret else partials.read ((i - 1) * retsize)

theorem slot_put (value : Value retsize) :
    (partials.put i value).slot j = if j = i then value else partials.slot j := by
  by_cases first : i = 0
  · subst first
    rw [put, if_pos rfl]
    by_cases also : j = 0
    · rw [slot, if_pos also, if_pos also]
    · rw [slot, if_neg also, if_neg also, slot, if_neg also]
      rfl
  · rw [put, if_neg first]
    by_cases same : j = i
    · subst same
      rw [if_pos rfl, slot, if_neg first]
      funext k
      have less := k.isLt
      have inside : (j - 1) * retsize ≤ (j - 1) * retsize + k ∧
          (j - 1) * retsize + k < (j - 1) * retsize + retsize := ⟨Nat.le_add_right _ _, by omega⟩
      rw [read]
      dsimp only
      rw [dif_pos inside]
      congr 1
      exact Fin.ext (Nat.add_sub_cancel_left _ _)
    · rw [if_neg same, slot, slot]
      split
      · rfl
      · rename_i other
        funext k
        have less := k.isLt
        have apart : ¬((i - 1) * retsize ≤ (j - 1) * retsize + k ∧
            (j - 1) * retsize + k < (i - 1) * retsize + retsize) := by
          rcases Nat.lt_or_gt_of_ne (show i - 1 ≠ j - 1 by omega) with before | behind
          · have step := Nat.mul_le_mul_right retsize (Nat.succ_le_of_lt before)
            rw [Nat.succ_mul] at step
            omega
          · have step := Nat.mul_le_mul_right retsize (Nat.succ_le_of_lt behind)
            rw [Nat.succ_mul] at step
            omega
        rw [read]
        dsimp only
        rw [dif_neg apart]
        rfl

variable {strider : Nat → Option (Option (Value retsize))}

theorem spawn_eq {slots : List Nat} {left : Nat → Option (Value retsize)} (once : slots.Nodup)
    (each : ∀ i ∈ slots, strider i = some (left i)) :
    ∃ after, spawn strider slots partials = some after ∧
      ∀ j, after.slot j = if j ∈ slots then (left j).getD (partials.slot j) else partials.slot j := by
  induction slots generalizing partials with
  | nil => exact ⟨partials, rfl, fun j => (if_neg List.not_mem_nil).symm⟩
  | cons i rest ih =>
    obtain ⟨fresh, later⟩ := List.nodup_cons.mp once
    have others : ∀ i ∈ rest, strider i = some (left i) :=
      fun i member => each i (List.mem_cons_of_mem _ member)
    have here := each i List.mem_cons_self
    cases result : left i with
    | none =>
      obtain ⟨after, ran, places⟩ := @ih partials later others
      refine ⟨after, by simp only [spawn, here, result, Option.bind_eq_bind, Option.bind_some, ran],
        fun j => ?_⟩
      rw [places]
      by_cases same : j = i
      · subst same
        rw [if_neg fresh, if_pos List.mem_cons_self, result, Option.getD_none]
      · simp only [List.mem_cons, same, false_or]
    | some value =>
      obtain ⟨after, ran, places⟩ := @ih (partials.put i value) later others
      refine ⟨after, by simp only [spawn, here, result, Option.bind_eq_bind, Option.bind_some, ran],
        fun j => ?_⟩
      rw [places, slot_put]
      by_cases same : j = i
      · subst same
        rw [if_neg fresh, if_pos rfl, if_pos List.mem_cons_self, result, Option.getD_some]
      · simp only [List.mem_cons, same, false_or, if_false]

theorem spawn_each {slots : List Nat}
    {after : Partials retsize} (ran : spawn strider slots partials = some after) :
    ∀ i ∈ slots, ∃ left, strider i = some left := by
  induction slots generalizing partials with
  | nil => exact nofun
  | cons i rest ih =>
    cases result : strider i with
    | none => simp [spawn, result] at ran
    | some left =>
      intro j member
      rcases List.mem_cons.mp member with rfl | later
      · exact ⟨left, result⟩
      · cases left with
        | none => exact ih (by simpa [spawn, result] using ran) j later
        | some value => exact ih (by simpa [spawn, result] using ran) j later

theorem gather_slots (acc : Value retsize → Value retsize → Value retsize) {n : Nat} (pos : 0 < n) :
    partials.gather acc (fun i => (i - 1) * retsize) n =
      ((List.range' 1 (n - 1)).map partials.slot).foldl acc (partials.slot 0) := by
  obtain ⟨count, rfl⟩ : ∃ count, n = count + 1 := ⟨n - 1, by omega⟩
  rw [gather, List.range_eq_range', List.range'_succ, List.foldl_cons, if_neg (Nat.lt_irrefl 0),
    List.foldl_map]
  refine List.foldl_ext _ _ _ fun ret i member => ?_
  have positive := (List.mem_range'_1.mp member).1
  rw [if_pos (by omega), slot, if_neg (by omega)]

theorem gatherMarked_slots (acc : Value retsize → Value retsize → Value retsize)
    (marked : Nat → Bool) (n : Nat) :
    partials.gatherMarked acc marked n =
      match (List.range n).filter marked with
      | [] => none
      | first :: rest => some ((rest.map partials.slot).foldl acc (partials.slot first)) := by
  induction n with
  | zero => rfl
  | succ n ih =>
    rw [gatherMarked, List.range_succ, List.foldl_append, List.filter_append]
    rw [gatherMarked] at ih
    rw [ih]
    cases wanted : marked n with
    | false => simp [wanted]
    | true =>
      cases before : (List.range n).filter marked with
      | nil =>
        simp only [List.foldl_cons, List.foldl_nil, wanted, if_true, List.nil_append,
          List.filter_cons_of_pos, List.filter_nil, List.map_nil, slot]
        split <;> split <;> first | rfl | omega
      | cons first rest =>
        have later : 0 < n := by
          have member : first ∈ (List.range n).filter marked := by
            rw [before]
            exact List.mem_cons_self
          have less := List.mem_range.mp (List.mem_of_mem_filter member)
          omega
        simp [wanted, List.filter_cons_of_pos, slot, show n ≠ 0 by omega]

end Partials

namespace Qarray

variable {n : Nat} {a : Qarray n} {startat stopat : Nat} {work : Accumulation retsize}

theorem iterLoopaccum_scattered (scattered : Scattered a) (order : startat ≤ stopat)
    (memory : Nat → Byte) (ret : Value retsize) :
    a.iterLoopaccum work memory ret startat stopat =
      if ceilRatio a.count a.segmentSize / n > (stopat - startat) / a.segmentSize then
        (a.markSheps stopat (stopat + 1) (startat / a.segmentSize * a.segmentSize)
          (fun _ => false) 0).bind fun marked =>
            (Partials.spawn (fun shep => a.loopaccumStrider work shep startat stopat)
              ((List.range n).filter marked) ⟨ret, fun _ => 0⟩).map fun partials =>
                (partials.gatherMarked work.acc marked n).getD partials.ret
      else
        (Partials.spawn (fun shep => a.loopaccumStrider work shep startat stopat) (List.range n)
          ⟨ret, fun _ => 0⟩).map fun partials =>
            partials.gather work.acc (fun i => (i - 1) * retsize) n := by
  cases type : a.distType with
  | fixedFields =>
    rw [Scattered, type] at scattered
    exact scattered.elim
  | allSame home =>
    rw [Scattered, type] at scattered
    exact scattered.elim
  | fixedHash =>
    simp only [iterLoopaccum, if_pos order, type, Option.bind_eq_bind, Option.pure_def]
    simp only [Option.map_eq_bind]
    rfl
  | dist owners =>
    simp only [iterLoopaccum, if_pos order, type, Option.bind_eq_bind, Option.pure_def]
    simp only [Option.map_eq_bind]
    rfl

theorem markSheps_exact {rounds idx countMarked : Nat} {marked : Nat → Bool}
    (inside : stopat ≤ a.count)
    (counted : countMarked = ((Finset.range n).filter fun shep => marked shep = true).card)
    (enough : stopat - idx < rounds) :
    ∃ after, a.markSheps stopat rounds idx marked countMarked = some after ∧
      ∀ shep < n, after shep = true ↔ marked shep = true ∨
        ∃ k, idx + k * a.segmentSize < stopat ∧ a.owner (idx + k * a.segmentSize) = shep := by
  induction rounds generalizing idx countMarked marked with
  | zero => omega
  | succ rounds ih =>
    by_cases less : idx < stopat
    · have segment := a.segment
      have within := Nat.lt_of_lt_of_le less inside
      have real := owner_lt within
      have recounted : (if marked (a.owner idx) then countMarked else countMarked + 1) =
          ((Finset.range n).filter fun shep => (shep == a.owner idx || marked shep) = true).card := by
        split
        · rename_i already
          rw [counted]
          congr 1
          refine Finset.filter_congr fun shep _ => ?_
          simp only [Bool.or_eq_true, beq_iff_eq]
          refine ⟨.inr, ?_⟩
          rintro (rfl | mark)
          · exact already
          · exact mark
        · rename_i fresh
          have grown : ((Finset.range n).filter fun shep =>
              (shep == a.owner idx || marked shep) = true) =
              insert (a.owner idx) ((Finset.range n).filter fun shep => marked shep = true) := by
            ext shep
            simp only [Finset.mem_filter, Finset.mem_insert, Finset.mem_range, Bool.or_eq_true,
              beq_iff_eq]
            constructor
            · rintro ⟨low, same | mark⟩
              · exact .inl same
              · exact .inr ⟨low, mark⟩
            · rintro (rfl | ⟨low, mark⟩)
              · exact ⟨real, .inl rfl⟩
              · exact ⟨low, .inr mark⟩
          rw [grown, Finset.card_insert_of_notMem (by simp [fresh]), counted]
      have first : ∀ shep, (∃ k, idx + k * a.segmentSize < stopat ∧
          a.owner (idx + k * a.segmentSize) = shep) ↔ shep = a.owner idx ∨
          ∃ k, idx + a.segmentSize + k * a.segmentSize < stopat ∧
            a.owner (idx + a.segmentSize + k * a.segmentSize) = shep := by
        have place (k : Nat) : idx + a.segmentSize + k * a.segmentSize =
            idx + (k + 1) * a.segmentSize := by
          rw [Nat.add_mul]
          omega
        intro shep
        constructor
        · rintro ⟨k, low, owned⟩
          cases k with
          | zero => exact .inl (by rw [← owned, Nat.zero_mul, Nat.add_zero])
          | succ k => exact .inr ⟨k, by rw [place]; exact low, by rw [place]; exact owned⟩
        · rintro (rfl | ⟨k, low, owned⟩)
          · exact ⟨0, by rw [Nat.zero_mul]; exact less, by rw [Nat.zero_mul, Nat.add_zero]⟩
          · exact ⟨k + 1, by rw [← place]; exact low, by rw [← place]; exact owned⟩
      rw [markSheps, if_pos less, shepof_eq within]
      simp only [Option.bind_eq_bind, Option.bind_some]
      by_cases all : (if marked (a.owner idx) then countMarked else countMarked + 1) = n
      · rw [if_pos all]
        refine ⟨_, rfl, fun shep low => ?_⟩
        have every := Finset.eq_of_subset_of_card_le (Finset.filter_subset
          (fun shep => (shep == a.owner idx || marked shep) = true) (Finset.range n))
          (by rw [Finset.card_range, ← recounted, all])
        have here := (Finset.mem_filter.mp (every ▸ Finset.mem_range.mpr low)).2
        refine iff_of_true here ?_
        simp only [Bool.or_eq_true, beq_iff_eq] at here
        rcases here with same | mark
        · exact .inr ((first shep).mpr (.inl same))
        · exact .inl mark
      · rw [if_neg all]
        obtain ⟨after, marks, spec⟩ := ih recounted (show stopat - (idx + a.segmentSize) < rounds by
          omega)
        refine ⟨after, marks, fun shep low => ?_⟩
        rw [spec shep low, first shep]
        simp only [Bool.or_eq_true, beq_iff_eq]
        exact or_left_comm.symm.trans or_assoc.symm |>.symm
    · refine ⟨marked, by rw [markSheps, if_neg less], fun shep _ => ?_⟩
      refine ⟨.inl, ?_⟩
      rintro (mark | ⟨k, low, -⟩)
      · exact mark
      · omega

def Owns (a : Qarray n) (startat stopat shep : Nat) : Prop :=
  ∃ i, startat ≤ i ∧ i < stopat ∧ a.owner i = shep

theorem markSheps_owns (less : startat < stopat) (inside : stopat ≤ a.count) :
    ∃ marked, a.markSheps stopat (stopat + 1) (startat / a.segmentSize * a.segmentSize)
        (fun _ => false) 0 = some marked ∧
      ∀ shep < n, marked shep = true ↔ a.Owns startat stopat shep := by
  obtain ⟨marked, marks, spec⟩ := @markSheps_exact n a stopat (stopat + 1)
    (startat / a.segmentSize * a.segmentSize) 0 (fun _ => false) inside (by simp) (by omega)
  refine ⟨marked, marks, fun shep low => ?_⟩
  have below := Nat.div_mul_le_self startat a.segmentSize
  rw [spec shep low, or_iff_right Bool.false_ne_true]
  constructor
  · rintro ⟨k, before, owned⟩
    cases k with
    | zero =>
      refine ⟨startat, Nat.le_refl _, less, ?_⟩
      rw [← owned, Nat.zero_mul, Nat.add_zero, owner, owner, Nat.mul_div_cancel _ a.segment]
    | succ k =>
      refine ⟨_, ?_, before, owned⟩
      have whole := Nat.div_add_mod startat a.segmentSize
      have rest := Nat.mod_lt startat a.segment
      rw [Nat.mul_comm] at whole
      rw [Nat.add_mul]
      omega
  · rintro ⟨i, least, before, owned⟩
    have order := Nat.div_le_div_right (c := a.segmentSize) least
    have start := Nat.div_mul_le_self i a.segmentSize
    have place : startat / a.segmentSize * a.segmentSize +
        (i / a.segmentSize - startat / a.segmentSize) * a.segmentSize =
          i / a.segmentSize * a.segmentSize := by
      rw [← Nat.add_mul, Nat.add_sub_cancel' order]
    refine ⟨i / a.segmentSize - startat / a.segmentSize, by omega, ?_⟩
    rw [place, ← owned, owner, owner, Nat.mul_div_cancel _ a.segment]

section Together

variable {ranges : Nat → List (Nat × Nat)}

theorem owns_iff {shep : Nat} (less : startat < stopat)
    (windows : Windows (a.owner · = shep) a.segmentSize stopat (a.base shep startat) (ranges shep))
    (even : a.segmentSize ∣ startat ∨ ∀ i, startat ≤ i → i < stopat → a.owner i = a.owner startat) :
    ranges shep ≠ [] ↔ a.Owns startat stopat shep := by
  have started := windows_from_start windows even
  constructor
  · intro nonempty
    obtain ⟨range, member⟩ := List.exists_mem_of_ne_nil _ nonempty
    obtain ⟨i, start, low, owned, -⟩ := started.each range member
    exact ⟨range.1, by omega, low, owned⟩
  · rintro ⟨i, least, low, owned⟩
    rcases even with aligned | same
    · obtain ⟨first, rfl⟩ := aligned
      have start := Nat.div_mul_le_self i a.segmentSize
      have order : first ≤ i / a.segmentSize := by
        rw [Nat.le_div_iff_mul_le a.segment, Nat.mul_comm]
        exact least
      have place : a.segmentSize * first + (i / a.segmentSize - first) * a.segmentSize =
          i / a.segmentSize * a.segmentSize := by
        rw [Nat.mul_comm, ← Nat.add_mul, Nat.add_sub_cancel' order]
      have listed := started.all (i / a.segmentSize - first) (by omega) (by
        rw [place, ← owned, owner, owner, Nat.mul_div_cancel _ a.segment])
      exact List.ne_nil_of_mem listed
    · have listed := started.all 0 (by omega) (by
        rw [Nat.zero_mul, Nat.add_zero, ← same i least low]
        exact owned)
      exact List.ne_nil_of_mem listed

variable {partials : Partials retsize}

theorem spawned_slots {slots : List Nat}
    {first : Nat} {others : List Nat} (once : slots.Nodup) (shape : slots = first :: others)
    (loops : ∀ shep, a.loopStrider shep startat stopat = some (ranges shep))
    (nonempty : ∀ shep ∈ slots, ranges shep ≠ []) :
    ∃ after, Partials.spawn (fun shep => a.loopaccumStrider work shep startat stopat) slots partials =
        some after ∧
      combine work.acc (slots.map fun shep => work.accumulate (ranges shep)) =
        some ((others.map after.slot).foldl work.acc (after.slot first)) := by
  obtain ⟨after, ran, places⟩ := @Partials.spawn_eq _ partials
    (fun shep => a.loopaccumStrider work shep startat stopat) slots
    (fun shep => work.accumulate (ranges shep)) once
    (fun shep _ => by rw [loopaccumStrider, loops]; rfl)
  refine ⟨after, ran, ?_⟩
  subst shape
  refine combine_map_some work.acc fun shep member => ?_
  rw [places, if_pos member]
  obtain ⟨range, rest, cons⟩ := List.exists_cons_of_ne_nil (nonempty shep member)
  rw [cons]
  rfl

theorem accumulates_scattered (scattered : Scattered a) (less : startat < stopat)
    (inside : stopat ≤ a.count)
    (even : a.segmentSize ∣ startat ∨ ∀ i, startat ≤ i → i < stopat → a.owner i = a.owner startat)
    (few : (stopat - startat) / a.segmentSize < ceilRatio a.count a.segmentSize / n ∨
      ∀ shep < n, a.Owns startat stopat shep) : a.Accumulates retsize startat stopat := by
  intro work memory ret
  choose ranges elements loops windows using
    fun shep => scattered_windows scattered shep less inside
  have tiles := scattered_tiles inside windows even
  have whole := work.combine_accumulate tiles less
  rw [List.map_map] at whole
  have owns := fun shep => owns_iff less (windows shep) even
  rw [iterLoopaccum_scattered scattered (Nat.le_of_lt less)]
  split
  · obtain ⟨marked, marks, spec⟩ := markSheps_owns less inside
    have first : a.owner startat ∈ (List.range n).filter marked := by
      have low := owner_lt (Nat.lt_of_lt_of_le less inside)
      rw [List.mem_filter, List.mem_range]
      exact ⟨low, (spec _ low).mpr ⟨startat, Nat.le_refl _, less, rfl⟩⟩
    obtain ⟨head, rest, shape⟩ := List.exists_cons_of_ne_nil (List.ne_nil_of_mem first)
    obtain ⟨after, ran, gathered⟩ := @spawned_slots _ n a startat stopat work ranges
      ⟨ret, fun _ => 0⟩ _ head rest (List.nodup_range.filter marked) shape loops (by
        intro shep member
        rw [List.mem_filter, List.mem_range] at member
        exact (owns shep).mpr ((spec shep member.1).mp member.2))
    have all := combine_filter work.acc marked (work.accumulate ∘ ranges) (List.range n) (by
      intro shep member unmarked
      have empty : ranges shep = [] := by
        by_contra nonempty
        have mark := (spec shep (List.mem_range.mp member)).mpr ((owns shep).mp nonempty)
        rw [unmarked] at mark
        cases mark
      rw [Function.comp_apply, empty]
      rfl)
    rw [marks, Option.bind_some, ran, Option.map_some, Partials.gatherMarked_slots, shape]
    exact gathered.symm.trans (all.symm.trans whole)
  · rename_i many
    have every := few.resolve_left many
    have shape : List.range n = 0 :: List.range' 1 (n - 1) := by
      have cons : List.range' 0 (n - 1 + 1) = 0 :: List.range' 1 (n - 1) := List.range'_succ
      rw [List.range_eq_range', ← cons, Nat.sub_add_cancel a.sheps]
    obtain ⟨after, ran, gathered⟩ := @spawned_slots _ n a startat stopat work ranges
      ⟨ret, fun _ => 0⟩ _ 0 _ List.nodup_range shape loops (by
        intro shep member
        exact (owns shep).mpr (every shep (List.mem_range.mp member)))
    rw [ran, Option.map_some, Partials.gather_slots work.acc a.sheps]
    exact gathered.symm.trans whole

theorem spawn_single {strider : Nat → Option (Option (Value retsize))}
    (whole : strider 0 = some (some (work.func startat stopat))) :
    Partials.spawn strider [0] partials = some (partials.put 0 (work.func startat stopat)) := by
  simp only [Partials.spawn, whole, Option.bind_eq_bind, Option.bind_some]

theorem accumulates_allSame {home : Fin n} (type : a.distType = .allSame home)
    (less : startat < stopat) : a.Accumulates retsize startat stopat := by
  intro work memory ret
  have loops : a.loopStrider home startat stopat = some [(startat, stopat)] := by
    simp [loopStrider, type, less]
  have single := @spawn_single _ startat stopat work ⟨ret, memory⟩
    (fun _ => a.loopaccumStrider work home startat stopat) (by
      rw [loopaccumStrider, loops]
      rfl)
  simp only [iterLoopaccum, if_pos (Nat.le_of_lt less), type, single]
  rfl

theorem accumulates_fixedFields (type : a.distType = .fixedFields) (less : startat < stopat)
    (inside : stopat ≤ a.count)
    (short : stopat < (a.owner startat + 1) * a.segmentSize * a.segsPerShep) :
    a.Accumulates retsize startat stopat := by
  intro work memory ret
  have first : startat < a.count := Nat.lt_of_lt_of_le less inside
  have positive : 0 < stopat := Nat.zero_lt_of_lt less
  have last := owner_last type less short
  have early : ¬ stopat > (a.owner startat + 1) * a.segmentSize * a.segsPerShep - 1 := by omega
  have loops : a.loopStrider (a.owner startat) startat stopat = some [(startat, stopat)] := by
    rw [loopStrider_fixedFields type first positive inside (Nat.le_refl _) (Nat.le_of_eq last.symm)]
    simp [early, less]
  have single := @spawn_single _ startat stopat work ⟨ret, memory⟩
    (fun i => a.loopaccumStrider work (a.owner startat + i) startat stopat) (by
      rw [Nat.add_zero, loopaccumStrider, loops]
      rfl)
  have same := before_eq positive (Nat.lt_of_le_of_lt inside a.addressable)
  have slots : List.range 1 = [0] := rfl
  simp only [iterLoopaccum, if_pos (Nat.le_of_lt less), type, shepof_eq first, same,
    shepof_eq (show stopat - 1 < a.count by omega), last, Option.bind_eq_bind, Option.bind_some,
    Nat.add_sub_cancel_left, slots, single]
  rfl

end Together

end Qarray

def tally (retsize count : Nat) : Value retsize := fun _ => BitVec.ofNat 8 (min count 2)

theorem tally_add (count more : Nat) :
    (fun k => BitVec.ofNat 8 (min ((tally retsize count k).toNat + (tally retsize more k).toNat) 2)) =
      tally retsize (count + more) := by
  funext k
  simp only [tally, BitVec.toNat_ofNat]
  congr 1
  omega

theorem tally_injective (positive : 0 < retsize) {count more : Nat}
    (same : tally retsize count = tally retsize more) : min count 2 = min more 2 := by
  have value := congrArg BitVec.toNat (congrFun same ⟨0, positive⟩)
  simp only [tally, BitVec.toNat_ofNat] at value
  omega

def Accumulation.counting (retsize element : Nat) : Accumulation retsize where
  func start stop := tally retsize (if start ≤ element ∧ element < stop then 1 else 0)
  acc x y := fun k => BitVec.ofNat 8 (min ((x k).toNat + (y k).toNat) 2)
  associative := by
    intro x y z
    funext k
    simp only [BitVec.toNat_ofNat]
    congr 1
    omega
  commutative := by
    intro x y
    funext k
    rw [Nat.add_comm]
  splits := by
    intro start middle stop before behind
    rw [tally_add]
    congr 1
    split_ifs <;> omega

def Accumulation.conjunction (retsize : Nat) : Accumulation retsize where
  func _ _ := fun _ => 0xff
  acc x y := fun k => x k &&& y k
  associative := by
    intro x y z
    funext k
    exact BitVec.and_assoc ..
  commutative := by
    intro x y
    funext k
    exact BitVec.and_comm ..
  splits := by
    intro start middle stop _ _
    funext k
    change (0xff : Byte) = 0xff &&& 0xff
    decide

namespace Accumulation

def covers (element : Nat) (range : Nat × Nat) : Bool := range.1 ≤ element ∧ element < range.2

theorem counting_func (element : Nat) (range : Nat × Nat) :
    (counting retsize element).func range.1 range.2 =
      tally retsize (if covers element range then 1 else 0) := by
  change tally retsize _ = _
  congr 1
  rw [covers]
  simp only [decide_eq_true_eq]

theorem counting_rounds (element count : Nat) (ranges : List (Nat × Nat)) :
    ranges.foldl (fun myret range => (counting retsize element).acc myret
      ((counting retsize element).func range.1 range.2)) (tally retsize count) =
        tally retsize (count + ranges.countP (covers element)) := by
  induction ranges generalizing count with
  | nil => rfl
  | cons first rest ih =>
    rw [List.foldl_cons, counting_func, List.countP_cons, Nat.add_comm (rest.countP _),
      ← Nat.add_assoc, ← ih]
    congr 1
    exact tally_add ..

theorem counting_accumulate (element : Nat) (ranges : List (Nat × Nat)) :
    ((counting retsize element).accumulate ranges).getD (tally retsize 0) =
      tally retsize (ranges.countP (covers element)) := by
  cases ranges with
  | nil => rfl
  | cons first rest =>
    rw [accumulate, Option.getD_some, counting_func, counting_rounds, List.countP_cons,
      Nat.add_comm]

theorem counting_fold (element count : Nat) (slots : List Nat) (each : Nat → Nat) :
    (slots.map fun i => tally retsize (each i)).foldl (counting retsize element).acc
      (tally retsize count) = tally retsize (count + (slots.map each).sum) := by
  induction slots generalizing count with
  | nil => rfl
  | cons first rest ih =>
    rw [List.map_cons, List.foldl_cons, List.map_cons, List.sum_cons, ← Nat.add_assoc, ← ih]
    congr 1
    exact tally_add ..

theorem conjunction_fold (start : Value retsize) (values : List (Value retsize)) (k : Fin retsize)
    (zero : start k = 0 ∨ ∃ value ∈ values, value k = 0) :
    values.foldl (conjunction retsize).acc start k = 0 := by
  induction values generalizing start with
  | nil =>
    rcases zero with zero | ⟨value, member, -⟩
    · exact zero
    · cases member
  | cons first rest ih =>
    refine ih _ ?_
    rcases zero with zero | ⟨value, member, zero⟩
    · left
      change start k &&& first k = 0
      rw [zero]
      exact BitVec.zero_and
    · rcases List.mem_cons.mp member with rfl | later
      · left
        change start k &&& value k = 0
        rw [zero]
        exact BitVec.and_zero
      · exact .inr ⟨value, later, zero⟩

end Accumulation

theorem two_le_countP {α : Type} {wanted : α → Bool} {list : List α} {x y : α} (first : x ∈ list)
    (second : y ∈ list) (differ : x ≠ y) (good : wanted x = true) (also : wanted y = true) :
    2 ≤ list.countP wanted := by
  rw [List.countP_eq_length_filter]
  by_contra few
  have one : (list.filter wanted).length ≤ 1 := by omega
  have here := List.mem_filter.mpr ⟨first, good⟩
  have there := List.mem_filter.mpr ⟨second, also⟩
  match shape : list.filter wanted with
  | [] =>
    rw [shape] at here
    cases here
  | [only] =>
    rw [shape, List.mem_singleton] at here there
    exact differ (here.trans there.symm)
  | _ :: _ :: _ =>
    rw [shape, List.length_cons, List.length_cons] at one
    omega

namespace Qarray

variable {n : Nat} {a : Qarray n} {startat stopat : Nat} {work : Accumulation retsize}

section Apart

variable {ranges : Nat → List (Nat × Nat)} {element : Nat}

theorem counting_slots {slots : List Nat} (once : slots.Nodup)
    (loops : ∀ shep, a.loopStrider shep startat stopat = some (ranges shep)) :
    ∃ after, Partials.spawn (fun shep =>
        a.loopaccumStrider (.counting retsize element) shep startat stopat) slots
          ⟨tally retsize 0, fun _ => 0⟩ = some after ∧
      ∀ shep ∈ slots, after.slot shep =
        tally retsize ((ranges shep).countP (Accumulation.covers element)) := by
  obtain ⟨after, ran, places⟩ := @Partials.spawn_eq _ ⟨tally retsize 0, fun _ => 0⟩
    (fun shep => a.loopaccumStrider (.counting retsize element) shep startat stopat) slots
    (fun shep => (Accumulation.counting retsize element).accumulate (ranges shep)) once
    (fun shep _ => by rw [loopaccumStrider, loops]; rfl)
  refine ⟨after, ran, fun shep member => ?_⟩
  have blank : (⟨tally retsize 0, fun _ => 0⟩ : Partials retsize).slot shep = tally retsize 0 := by
    rw [Partials.slot]
    split <;> rfl
  rw [places, if_pos member, blank]
  exact Accumulation.counting_accumulate element (ranges shep)

theorem counting_result (scattered : Scattered a) (less : startat < stopat)
    (inside : stopat ≤ a.count)
    (loops : ∀ shep, a.loopStrider shep startat stopat = some (ranges shep)) :
    ∃ slots : List Nat, (∀ shep < n, a.Owns startat stopat shep → shep ∈ slots) ∧
      a.iterLoopaccum (.counting retsize element) (fun _ => 0) (tally retsize 0) startat stopat =
        some (tally retsize
          ((slots.map ranges).flatten.countP (Accumulation.covers element))) := by
  have total : ∀ (first : Nat) (rest : List Nat) (after : Partials retsize),
      (∀ shep ∈ first :: rest, after.slot shep =
        tally retsize ((ranges shep).countP (Accumulation.covers element))) →
      (rest.map after.slot).foldl (Accumulation.counting retsize element).acc (after.slot first) =
        tally retsize
          (((first :: rest).map ranges).flatten.countP (Accumulation.covers element)) := by
    intro first rest after places
    rw [places first List.mem_cons_self,
      List.map_congr_left fun shep member => places shep (List.mem_cons_of_mem _ member),
      Accumulation.counting_fold, List.countP_flatten, List.map_cons, List.map_cons, List.sum_cons,
      List.map_map]
    rfl
  rw [iterLoopaccum_scattered scattered (Nat.le_of_lt less)]
  split
  · obtain ⟨marked, marks, spec⟩ := markSheps_owns less inside
    have wanted : ∀ shep < n, a.Owns startat stopat shep → shep ∈ (List.range n).filter marked :=
      fun shep low owns => List.mem_filter.mpr ⟨List.mem_range.mpr low, (spec shep low).mpr owns⟩
    refine ⟨_, wanted, ?_⟩
    have first := wanted _ (owner_lt (Nat.lt_of_lt_of_le less inside))
      ⟨startat, Nat.le_refl _, less, rfl⟩
    obtain ⟨after, ran, places⟩ :=
      @counting_slots retsize _ _ _ _ _ element _ (List.nodup_range.filter marked) loops
    obtain ⟨head, rest, shape⟩ := List.exists_cons_of_ne_nil (List.ne_nil_of_mem first)
    rw [marks, Option.bind_some, ran, Option.map_some, Partials.gatherMarked_slots]
    rw [shape] at places ⊢
    exact congrArg some (total head rest after places)
  · refine ⟨_, fun shep low _ => List.mem_range.mpr low, ?_⟩
    obtain ⟨after, ran, places⟩ :=
      @counting_slots retsize _ _ _ _ _ element _ List.nodup_range loops
    have shape : List.range n = 0 :: List.range' 1 (n - 1) := by
      have cons : List.range' 0 (n - 1 + 1) = 0 :: List.range' 1 (n - 1) := List.range'_succ
      rw [List.range_eq_range', ← cons, Nat.sub_add_cancel a.sheps]
    rw [ran, Option.map_some, Partials.gather_slots _ a.sheps]
    rw [shape] at places ⊢
    exact congrArg some (total _ _ after places)

theorem even_of_accumulates (positive : 0 < retsize) (scattered : Scattered a) (less : startat < stopat)
    (inside : stopat ≤ a.count) (right : a.Accumulates retsize startat stopat) :
    a.segmentSize ∣ startat ∨ ∀ i, startat ≤ i → i < stopat → a.owner i = a.owner startat := by
  by_contra bad
  obtain ⟨ragged, mixed⟩ := not_or.mp bad
  obtain ⟨place, mine, theirs, least, within, mineLoops, theirLoops, range, listed, next, following,
    differ, overlap⟩ := scattered_overlap scattered less inside ragged mixed
  choose ranges elements loops windows using
    fun shep => scattered_windows scattered shep less inside
  cases (loops _).symm.trans mineLoops
  cases (loops _).symm.trans theirLoops
  have proper : ∀ {shep range}, range ∈ ranges shep → range.1 < range.2 := by
    intro shep range member
    obtain ⟨i, -, low, -, stop⟩ := (windows shep).each range member
    have segment := a.segment
    omega
  have one := proper listed
  have two := proper following
  obtain ⟨slots, wanted, result⟩ := @counting_result retsize n a startat stopat ranges
    (max range.1 next.1) scattered less inside loops
  have spawned : ∀ place, startat ≤ place → place < stopat →
      ranges (a.owner place) ∈ slots.map ranges := by
    intro place least within
    exact List.mem_map_of_mem (wanted _ (owner_lt (Nat.lt_of_lt_of_le within inside))
      ⟨place, least, within, rfl⟩)
  have twice := @two_le_countP _ (Accumulation.covers (max range.1 next.1)) _ _ _
    (List.mem_flatten.mpr ⟨_, spawned startat (Nat.le_refl _) less, listed⟩)
    (List.mem_flatten.mpr ⟨_, spawned place least within, following⟩) differ
    (by
      simp only [Apart] at overlap
      simp only [Accumulation.covers, decide_eq_true_eq]
      omega)
    (by
      simp only [Apart] at overlap
      simp only [Accumulation.covers, decide_eq_true_eq]
      omega)
  rw [right] at result
  have same := tally_injective positive (Option.some.inj result)
  split at same <;> omega

theorem owns_of_accumulates (positive : 0 < retsize) (scattered : Scattered a) (less : startat < stopat)
    (inside : stopat ≤ a.count)
    (even : a.segmentSize ∣ startat ∨ ∀ i, startat ≤ i → i < stopat → a.owner i = a.owner startat)
    (many : ¬(stopat - startat) / a.segmentSize < ceilRatio a.count a.segmentSize / n)
    (right : a.Accumulates retsize startat stopat) : ∀ shep < n, a.Owns startat stopat shep := by
  intro shep low
  by_contra without
  choose ranges elements loops windows using
    fun shep => scattered_windows scattered shep less inside
  have empty : ranges shep = [] := by
    by_contra range
    exact without ((owns_iff less (windows shep) even).mp range)
  have result := right (.conjunction retsize) (fun _ => 0) (fun _ => 0)
  obtain ⟨after, ran, places⟩ := @Partials.spawn_eq retsize ⟨fun _ => 0, fun _ => 0⟩
    (fun shep => a.loopaccumStrider (.conjunction retsize) shep startat stopat) (List.range n)
    (fun shep => (Accumulation.conjunction retsize).accumulate (ranges shep)) List.nodup_range
    (fun shep _ => by rw [loopaccumStrider, loops]; rfl)
  have zero : after.slot shep ⟨0, positive⟩ = 0 := by
    rw [places, if_pos (List.mem_range.mpr low), empty]
    change (⟨fun _ => 0, fun _ => 0⟩ : Partials retsize).slot shep ⟨0, positive⟩ = 0
    rw [Partials.slot]
    split <;> rfl
  rw [iterLoopaccum_scattered scattered (Nat.le_of_lt less), if_neg many, ran, Option.map_some,
    Partials.gather_slots _ a.sheps] at result
  have value := congrFun (Option.some.inj result) ⟨0, positive⟩
  rw [Accumulation.conjunction_fold] at value
  · exact absurd value (show ¬(0 : Byte) = 0xff by decide)
  · by_cases first : shep = 0
    · subst first
      exact .inl zero
    · exact .inr ⟨_, List.mem_map_of_mem (List.mem_range'_1.mpr ⟨by omega, by omega⟩), zero⟩

theorem spawn_zero {strider : Nat → Option (Option (Value retsize))} {slots : List Nat}
    {after : Partials retsize}
    (zero : ∀ i ∈ slots, ∀ value, strider i = some (some value) → value = fun _ => 0)
    (ran : Partials.spawn strider slots ⟨fun _ => 0, fun _ => 0⟩ = some after) :
    after = ⟨fun _ => 0, fun _ => 0⟩ := by
  induction slots with
  | nil => exact (Option.some.inj ran).symm
  | cons i rest ih =>
    have later := ih fun i member => zero i (List.mem_cons_of_mem _ member)
    cases result : strider i with
    | none => simp [Partials.spawn, result] at ran
    | some left =>
      cases left with
      | none => exact later (by simpa [Partials.spawn, result] using ran)
      | some value =>
        have same : (⟨fun _ => 0, fun _ => 0⟩ : Partials retsize).put i value =
            ⟨fun _ => 0, fun _ => 0⟩ := by
          rw [zero i List.mem_cons_self value result, Partials.put]
          split
          · rfl
          · simp
        have onward : Partials.spawn strider rest
            ((⟨fun _ => 0, fun _ => 0⟩ : Partials retsize).put i value) = some after := by
          simpa [Partials.spawn, result] using ran
        rw [same] at onward
        exact later onward

theorem short_of_accumulates (positive : 0 < retsize) (type : a.distType = .fixedFields)
    (less : startat < stopat) (inside : stopat ≤ a.count)
    (right : a.Accumulates retsize startat stopat) :
    stopat < (a.owner startat + 1) * a.segmentSize * a.segsPerShep := by
  by_contra long
  have first : startat < a.count := Nat.lt_of_lt_of_le less inside
  have ascending := owner_mono type (Nat.le_sub_one_of_lt less)
  have same := before_eq (Nat.zero_lt_of_lt less) (Nat.lt_of_le_of_lt inside a.addressable)
  have result := right
    (.counting retsize ((a.owner startat + 1) * a.segmentSize * a.segsPerShep - 1)) (fun _ => 0)
    (fun _ => 0)
  simp only [iterLoopaccum, if_pos (Nat.le_of_lt less), type, shepof_eq first, same,
    shepof_eq (show stopat - 1 < a.count by omega), Option.bind_eq_bind, Option.bind_some] at result
  obtain ⟨after, ran, gathered⟩ := Option.bind_eq_some_iff.mp result
  obtain ⟨left, strode⟩ := Partials.spawn_each ran 0 (List.mem_range.mpr (by omega))
  rw [Nat.add_zero] at strode
  obtain ⟨ranges, loops, -⟩ := Option.map_eq_some_iff.mp strode
  have early := (fixedFields_missed type less inside long (Nat.le_refl _) ascending loops).1 rfl
  have zeros := spawn_zero (by
    intro i member value strode
    obtain ⟨ranges, loops, accumulated⟩ := Option.map_eq_some_iff.mp strode
    have low := List.mem_range.mp member
    have missed := (fixedFields_missed type less inside long (Nat.le_add_right _ _) (by omega)
      loops).2
    have count := @Accumulation.counting_accumulate retsize
      ((a.owner startat + 1) * a.segmentSize * a.segsPerShep - 1) ranges
    rw [accumulated, Option.getD_some, List.countP_eq_zero.mpr] at count
    · exact count
    · intro range member covered
      exact missed range member (of_decide_eq_true covered)) ran
  have nothing : after.gather (Accumulation.counting retsize
      ((a.owner startat + 1) * a.segmentSize * a.segsPerShep - 1)).acc (fun i => i - 1)
        (a.owner (stopat - 1) + 1 - a.owner startat) = tally retsize 0 := by
    rw [zeros, Partials.gather]
    generalize List.range (a.owner (stopat - 1) + 1 - a.owner startat) = slots
    induction slots with
    | nil => rfl
    | cons i rest ih =>
      rw [List.foldl_cons]
      split
      · exact ih
      · exact ih
  rw [nothing] at gathered
  have value := tally_injective positive (Option.some.inj gathered)
  split at value <;> omega

end Apart

/-- The accumulation leaves the function's result on a range if and only if the range is one whose
partial results come together. -/
theorem accumulates_iff (a : Qarray n) (positive : 0 < retsize) (less : startat < stopat)
    (inside : stopat ≤ a.count) : a.Accumulates retsize startat stopat ↔ a.Gathers startat stopat := by
  have anywhere (scattered : Scattered a) : a.Accumulates retsize startat stopat ↔
      (a.segmentSize ∣ startat ∨ ∀ i, startat ≤ i → i < stopat → a.owner i = a.owner startat) ∧
        ((stopat - startat) / a.segmentSize < ceilRatio a.count a.segmentSize / n ∨
          ∀ shep < n, a.Owns startat stopat shep) := by
    constructor
    · intro right
      have even := even_of_accumulates positive scattered less inside right
      refine ⟨even, ?_⟩
      by_cases few : (stopat - startat) / a.segmentSize < ceilRatio a.count a.segmentSize / n
      · exact .inl few
      · exact .inr (owns_of_accumulates positive scattered less inside even few right)
    · rintro ⟨even, few⟩
      exact accumulates_scattered scattered less inside even few
  cases type : a.distType with
  | allSame home =>
    rw [Gathers, type]
    exact iff_of_true (accumulates_allSame type less) trivial
  | fixedFields =>
    rw [Gathers, type]
    exact ⟨short_of_accumulates positive type less inside,
      accumulates_fixedFields type less inside⟩
  | fixedHash =>
    rw [anywhere (by rw [Scattered, type]; trivial), Gathers, type]
    rfl
  | dist owners =>
    rw [anywhere (by rw [Scattered, type]; trivial), Gathers, type]
    rfl

theorem accumulates_aligned : (ten .fixedHash).Accumulates 2 4 10 := by
  refine (accumulates_iff (ten .fixedHash) (by decide) (by decide) (by decide)).mpr
    ⟨.inl (by decide), .inr ?_⟩
  intro shep low
  have cases : shep = 0 ∨ shep = 1 := by omega
  rcases cases with rfl | rfl
  · exact ⟨8, by decide, by decide, by decide⟩
  · exact ⟨4, by decide, by decide, by decide⟩

/-- A shepherd has nothing in the range; some element is counted twice; and with a stripe for each
shepherd an element is lost. -/
theorem accumulates_wrongly : ¬(ten .fixedHash).Accumulates 1 4 8 ∧
    ¬(ten .fixedHash).Accumulates 1 1 10 ∧ ¬(ten .fixedFields).Accumulates 1 0 10 := by
  have scattered : Scattered (ten .fixedHash) := trivial
  refine ⟨fun right => ?_, fun right => ?_, fun right => ?_⟩
  · obtain ⟨i, least, less, owned⟩ := owns_of_accumulates (by decide) scattered (by decide) (by decide)
      (.inl (by decide)) (by decide) right 0 (by decide)
    have only : ∀ i < 8, 4 ≤ i → (ten .fixedHash).owner i ≠ 0 := by decide
    exact only i less least owned
  · rcases even_of_accumulates (by decide) scattered (by decide) (by decide) right with aligned | same
    · exact absurd aligned (by decide)
    · exact absurd (same 4 (by decide) (by decide)) (by decide)
  · exact absurd (short_of_accumulates (by decide) rfl (by decide) (by decide) right) (by decide)

end Qarray

end Qthreads
