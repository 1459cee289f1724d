import Qthreads.Qsort.Partition

namespace Qthreads.Qsort

open Lib

variable {chunksize numthreads length jump : Nat}

def Jumps (chunksize numthreads jump : Nat) : Prop :=
  0 < chunksize ∧ 0 < numthreads ∧ jump + chunksize = chunksize * numthreads + 1

theorem jumps (chunk : 0 < chunksize) (threads : 0 < numthreads) :
    Jumps chunksize numthreads ((numthreads - 1) * chunksize + 1) := by
  refine ⟨chunk, threads, ?_⟩
  obtain ⟨others, rfl⟩ : ∃ others, numthreads = others + 1 := ⟨numthreads - 1, by omega⟩
  rw [Nat.add_sub_cancel, Nat.mul_comm others, Nat.mul_succ]
  omega

namespace Jumps

theorem next_inside {mega cell : Nat} (within : cell + 1 < chunksize) :
    next chunksize jump (chunksize * (numthreads * mega) + cell) =
      chunksize * (numthreads * mega) + (cell + 1) := by
  rw [next, Nat.add_assoc, if_pos]
  rw [Nat.mul_add_mod, Nat.mod_eq_of_lt within]
  omega

variable (jumps : Jumps chunksize numthreads jump)

include jumps

theorem stride : Stride (next chunksize jump) (back chunksize jump) := by
  obtain ⟨chunk, threads, jumpEq⟩ := jumps
  have room := Nat.le_mul_of_pos_right chunksize threads
  refine ⟨?_, ?_, ?_⟩
  · intro cell
    unfold next
    split <;> omega
  · intro cell
    unfold next
    by_cases within : (cell + 1) % chunksize ≠ 0
    · rw [if_pos within, back, if_pos within, if_neg (by omega), Nat.add_sub_cancel]
    · rw [if_neg within]
      have aligned : (cell + jump) % chunksize = 0 := by
        have moved : cell + jump + chunksize = cell + 1 + chunksize * numthreads := by omega
        rw [← Nat.add_mod_right, moved, Nat.add_mul_mod_self_left]
        omega
      rw [back, if_neg (by omega), if_neg (by omega), Nat.add_sub_cancel]
  · rw [back, if_neg (by rw [Nat.zero_mod]; omega), if_pos (by omega)]

theorem next_last (mega : Nat) :
    next chunksize jump (chunksize * (numthreads * mega) + (chunksize - 1)) =
      chunksize * (numthreads * (mega + 1)) := by
  obtain ⟨chunk, threads, jumpEq⟩ := jumps
  have last : chunksize - 1 + 1 = chunksize := Nat.sub_add_cancel chunk
  rw [next, Nat.add_assoc, last, if_neg]
  · rw [Nat.mul_succ, Nat.mul_add]
    omega
  · rw [Nat.mul_add_mod, Nat.mod_self]
    exact fun different => different rfl

theorem walked_iff {wall : Nat} : Walked (next chunksize jump) wall ↔
    ∃ mega cell, cell < chunksize ∧ wall = chunksize * (numthreads * mega) + cell := by
  constructor
  · rintro ⟨steps, rfl⟩
    induction steps with
    | zero => exact ⟨0, 0, jumps.1, rfl⟩
    | succ steps ih =>
      obtain ⟨mega, cell, inside, at_⟩ := ih
      rw [Function.iterate_succ_apply', at_]
      by_cases within : cell + 1 < chunksize
      · exact ⟨mega, cell + 1, within, next_inside within⟩
      · have last : cell = chunksize - 1 := by omega
        exact ⟨mega + 1, 0, jumps.1, last ▸ next_last jumps mega⟩
  · rintro ⟨mega, cell, inside, rfl⟩
    induction mega generalizing cell with
    | zero =>
      induction cell with
      | zero => exact .zero
      | succ cell ih =>
        rw [← next_inside inside]
        exact (ih (by omega)).succ
    | succ mega ih =>
      induction cell with
      | zero =>
        have before := ih (chunksize - 1) (Nat.sub_lt jumps.1 Nat.one_pos)
        rw [Nat.add_zero, ← next_last jumps mega]
        exact before.succ
      | succ cell inner =>
        rw [← next_inside inside]
        exact (inner (by omega)).succ

theorem visits_iff {args : Args} (own : args.jump = jump) {cell : Nat} :
    args.Visits chunksize cell ↔ ∃ mega inChunk, inChunk < chunksize ∧
      chunksize * (numthreads * mega) + inChunk < args.length ∧
      cell = args.offset + (chunksize * (numthreads * mega) + inChunk) := by
  unfold Args.Visits
  rw [own]
  constructor
  · rintro ⟨wall, walked, inside, rfl⟩
    obtain ⟨mega, inChunk, small, rfl⟩ := jumps.walked_iff.mp walked
    exact ⟨mega, inChunk, small, inside, rfl⟩
  · rintro ⟨mega, inChunk, small, inside, rfl⟩
    exact ⟨_, jumps.walked_iff.mpr ⟨mega, inChunk, small, rfl⟩, inside, rfl⟩

theorem dealt_iff {i cell : Nat} (listed : i < numthreads) : cell / chunksize % numthreads = i ↔
    ∃ mega inChunk, inChunk < chunksize ∧
      cell = i * chunksize + (chunksize * (numthreads * mega) + inChunk) := by
  obtain ⟨chunk, threads, -⟩ := jumps
  constructor
  · rintro rfl
    refine ⟨cell / chunksize / numthreads, cell % chunksize, Nat.mod_lt _ chunk, ?_⟩
    have whole := Nat.div_add_mod cell chunksize
    have turn := Nat.div_add_mod (cell / chunksize) numthreads
    calc cell = chunksize * (cell / chunksize) + cell % chunksize := whole.symm
      _ = chunksize * (numthreads * (cell / chunksize / numthreads) +
            cell / chunksize % numthreads) + cell % chunksize := by rw [turn]
      _ = _ := by rw [Nat.mul_add, Nat.mul_comm chunksize (cell / chunksize % numthreads)]; omega
  · rintro ⟨mega, inChunk, small, rfl⟩
    have sum : i * chunksize + (chunksize * (numthreads * mega) + inChunk) =
        inChunk + chunksize * (i + numthreads * mega) := by
      rw [Nat.mul_add, Nat.mul_comm i]
      omega
    rw [sum, Nat.add_mul_div_left _ _ chunk, Nat.div_eq_of_lt small, Nat.zero_add,
      Nat.add_mul_mod_self_left, Nat.mod_eq_of_lt listed]

end Jumps

def sliceLength (chunksize numthreads length i : Nat) : Nat :=
  let megachunkSize := chunksize * numthreads
  let extra := length % megachunkSize
  let megachunks := length / megachunkSize
  if extra = 0 then length - megachunkSize + chunksize
  else if i < (extra - 1) / chunksize then megachunkSize * megachunks + chunksize
  else if i = (extra - 1) / chunksize then length - i * chunksize
  else megachunkSize * (megachunks - 1) + chunksize

structure Fits (chunksize numthreads length i : Nat) (args : Args) : Prop where
  offset : args.offset = i * chunksize
  jump : args.jump = (numthreads - 1) * chunksize + 1
  inside : ∀ mega cell, cell < chunksize →
    (chunksize * (numthreads * mega) + cell < args.length ↔
      i * chunksize + (chunksize * (numthreads * mega) + cell) < length)
  last : ∃ mega cell, cell < chunksize ∧
    args.length = chunksize * (numthreads * mega) + cell + 1

theorem extra_bounds {extra : Nat} (chunk : 0 < chunksize) (nonzero : extra ≠ 0) :
    (extra - 1) / chunksize * chunksize < extra ∧
      extra ≤ (extra - 1) / chunksize * chunksize + chunksize := by
  have whole := Nat.div_add_mod (extra - 1) chunksize
  have part := Nat.mod_lt (extra - 1) chunk
  rw [Nat.mul_comm] at whole
  omega

theorem fits_full {i mega : Nat} (chunk : 0 < chunksize) (listed : i < numthreads)
    (lower : i * chunksize + chunksize + chunksize * numthreads * mega ≤ length)
    (upper : length ≤ i * chunksize + chunksize * numthreads * (mega + 1)) :
    Fits chunksize numthreads length i
      ⟨i * chunksize, chunksize * numthreads * mega + chunksize,
        (numthreads - 1) * chunksize + 1⟩ := by
  refine ⟨rfl, rfl, ?_, mega, chunksize - 1, Nat.sub_lt chunk Nat.one_pos, ?_⟩
  · intro other cell small
    have room := Nat.le_mul_of_pos_right chunksize (Nat.zero_lt_of_lt listed)
    rw [← Nat.mul_assoc]
    rw [Nat.mul_succ] at upper
    show chunksize * numthreads * other + cell < chunksize * numthreads * mega + chunksize ↔ _
    obtain less | more := Nat.lt_or_ge mega other
    · have step := Nat.mul_le_mul_left (chunksize * numthreads) less
      rw [Nat.mul_succ] at step
      omega
    · have step := Nat.mul_le_mul_left (chunksize * numthreads) more
      omega
  · show chunksize * numthreads * mega + chunksize = _
    rw [← Nat.mul_assoc]
    omega

theorem fits_rest {i cell : Nat} (mega : Nat) (small : cell < chunksize)
    (ends : length = i * chunksize + chunksize * numthreads * mega + cell + 1) :
    Fits chunksize numthreads length i
      ⟨i * chunksize, length - i * chunksize, (numthreads - 1) * chunksize + 1⟩ := by
  refine ⟨rfl, rfl, ?_, mega, cell, small, ?_⟩
  · intro other inChunk _
    show _ < length - i * chunksize ↔ _
    omega
  · show length - i * chunksize = _
    rw [← Nat.mul_assoc]
    omega

theorem sliceLength_fits (chunk : 0 < chunksize) {i : Nat} (listed : i < numthreads)
    (wide : (numthreads - 1) * chunksize < length) :
    Fits chunksize numthreads length i
      ⟨i * chunksize, sliceLength chunksize numthreads length i,
        (numthreads - 1) * chunksize + 1⟩ := by
  have many : (numthreads - 1) * chunksize + chunksize = chunksize * numthreads := by
    rw [← Nat.succ_mul, Nat.succ_eq_add_one, Nat.sub_add_cancel (Nat.zero_lt_of_lt listed),
      Nat.mul_comm]
  have upTo := Nat.mul_le_mul_right chunksize (Nat.le_sub_one_of_lt listed)
  have whole := Nat.div_add_mod length (chunksize * numthreads)
  have part := Nat.mod_lt length (show 0 < chunksize * numthreads by omega)
  have before (nonzero : length / (chunksize * numthreads) ≠ 0) :
      chunksize * numthreads * (length / (chunksize * numthreads) - 1 + 1) =
        chunksize * numthreads * (length / (chunksize * numthreads)) := by
    rw [Nat.sub_add_cancel (Nat.pos_of_ne_zero nonzero)]
  simp only [sliceLength]
  generalize length / (chunksize * numthreads) = megachunks at *
  generalize length % (chunksize * numthreads) = extra at *
  by_cases exact_ : extra = 0
  · have nonzero : megachunks ≠ 0 := by
      rintro rfl
      omega
    have count := before nonzero
    have steps := Nat.mul_add_one (chunksize * numthreads) (megachunks - 1)
    rw [if_pos exact_, show length - chunksize * numthreads + chunksize =
      chunksize * numthreads * (megachunks - 1) + chunksize by omega]
    exact fits_full chunk listed (by omega) (by omega)
  · obtain ⟨low, high⟩ := extra_bounds chunk exact_
    rw [if_neg exact_]
    have slots (first second : Nat) (less : first < second) :=
      Nat.add_one_mul first chunksize ▸ Nat.mul_le_mul_right chunksize less
    obtain less | same | more := Nat.lt_trichotomy i ((extra - 1) / chunksize)
    · have slot := slots _ _ less
      rw [if_pos less]
      refine fits_full chunk listed (by omega) ?_
      rw [Nat.mul_succ]
      omega
    · rw [if_neg (by omega), if_pos same]
      rw [← same] at low high
      exact fits_rest megachunks (show extra - i * chunksize - 1 < chunksize by omega) (by omega)
    · have slot := slots _ _ more
      have nonzero : megachunks ≠ 0 := by
        rintro rfl
        omega
      have count := before nonzero
      have steps := Nat.mul_add_one (chunksize * numthreads) (megachunks - 1)
      rw [if_neg (by omega), if_neg (by omega)]
      exact fits_full chunk listed (by omega) (by omega)

theorem slicesFrom_whole (whole : length % (chunksize * numthreads) = 0)
    (large : chunksize * numthreads ≤ length) (room : length + chunksize * numthreads < sizeRange)
    (threads : 0 < numthreads) (left i megachunks : Nat) :
    slicesFrom chunksize numthreads length left i megachunks =
      (List.range' i left).map fun i =>
        ⟨i * chunksize, sliceLength chunksize numthreads length i,
          (numthreads - 1) * chunksize + 1⟩ := by
  induction left generalizing i with
  | zero => rfl
  | succ left ih =>
    have chunk := Nat.le_mul_of_pos_right chunksize threads
    have mine : (length + (sizeRange - chunksize * numthreads) + chunksize) % sizeRange =
        sliceLength chunksize numthreads length i := by
      rw [sliceLength, if_pos whole, show length + (sizeRange - chunksize * numthreads) +
        chunksize = length - chunksize * numthreads + chunksize + sizeRange by omega,
        Nat.add_mod_right]
      exact Nat.mod_eq_of_lt (by omega)
    rw [slicesFrom, if_neg (fun nonzero => nonzero whole), mine, ih, List.range'_succ, List.map_cons]

theorem slicesFrom_extra (chunk : 0 < chunksize) (ragged : length % (chunksize * numthreads) ≠ 0)
    (wide : (numthreads - 1) * chunksize < length)
    (room : length + chunksize * numthreads < sizeRange) (left i : Nat)
    (count : i + left = numthreads) :
    slicesFrom chunksize numthreads length left i
        (if i ≤ (length % (chunksize * numthreads) - 1) / chunksize
          then length / (chunksize * numthreads) else length / (chunksize * numthreads) - 1) =
      (List.range' i left).map fun i =>
        ⟨i * chunksize, sliceLength chunksize numthreads length i,
          (numthreads - 1) * chunksize + 1⟩ := by
  induction left generalizing i with
  | zero => rfl
  | succ left ih =>
    have listed : i < numthreads := by omega
    have many : (numthreads - 1) * chunksize + chunksize = chunksize * numthreads := by
      rw [← Nat.succ_mul, Nat.succ_eq_add_one, Nat.sub_add_cancel (Nat.zero_lt_of_lt listed),
        Nat.mul_comm]
    have upTo := Nat.mul_le_mul_right chunksize (Nat.le_sub_one_of_lt listed)
    have whole := Nat.div_add_mod length (chunksize * numthreads)
    have part := Nat.mod_lt length (show 0 < chunksize * numthreads by omega)
    have further := ih (i + 1) (by omega)
    have own : sliceLength chunksize numthreads length i =
      if i < (length % (chunksize * numthreads) - 1) / chunksize
        then chunksize * numthreads * (length / (chunksize * numthreads)) + chunksize
      else if i = (length % (chunksize * numthreads) - 1) / chunksize
        then length - i * chunksize
      else chunksize * numthreads * (length / (chunksize * numthreads) - 1) + chunksize := if_neg ragged
    obtain ⟨low, high⟩ := extra_bounds chunk ragged
    have slots (first second : Nat) (less : first < second) :=
      Nat.add_one_mul first chunksize ▸ Nat.mul_le_mul_right chunksize less
    rw [slicesFrom, if_pos ragged, List.range'_succ, List.map_cons, own]
    dsimp only
    clear own ih
    generalize length / (chunksize * numthreads) = megachunks at *
    generalize length % (chunksize * numthreads) = extra at *
    have steps := Nat.mul_add_one (chunksize * numthreads) (megachunks - 1)
    have small (mega : Nat) (within : chunksize * numthreads * mega ≤ length) :
        (mega * (chunksize * numthreads) + chunksize) % sizeRange =
            chunksize * numthreads * mega + chunksize ∧
          (chunksize * numthreads * mega + chunksize + i * chunksize) % sizeRange =
            chunksize * numthreads * mega + chunksize + i * chunksize := by
      rw [Nat.mul_comm mega]
      exact ⟨Nat.mod_eq_of_lt (by omega), Nat.mod_eq_of_lt (by omega)⟩
    obtain less | same | more := Nat.lt_trichotomy i ((extra - 1) / chunksize)
    · have slot := slots _ _ less
      obtain ⟨mine, reach⟩ := small megachunks (by omega)
      rw [if_pos (Nat.le_of_lt less), if_pos less, mine, reach, if_neg (by omega)]
      rw [if_pos (by omega)] at further
      rw [further]
    · obtain ⟨mine, reach⟩ := small megachunks (by omega)
      have rest : (length + (sizeRange - i * chunksize)) % sizeRange = length - i * chunksize := by
        rw [show length + (sizeRange - i * chunksize) = length - i * chunksize + sizeRange by omega,
          Nat.add_mod_right]
        exact Nat.mod_eq_of_lt (by omega)
      rw [← same] at low high
      rw [if_pos (Nat.le_of_eq same), if_neg (Nat.not_lt.mpr (Nat.le_of_eq same.symm)),
        if_pos same, mine, reach, if_pos (by omega), rest]
      cases left with
      | zero => rfl
      | succ left =>
        have nonzero : megachunks ≠ 0 := by
          rintro rfl
          have below := Nat.mul_le_mul_right chunksize (show i + 1 ≤ numthreads - 1 by omega)
          rw [Nat.add_one_mul] at below
          omega
        have bound : megachunks ≤ chunksize * numthreads * megachunks :=
          Nat.le_mul_of_pos_left megachunks (by omega)
        have less : (megachunks + (sizeRange - 1)) % sizeRange = megachunks - 1 := by
          rw [show megachunks + (sizeRange - 1) = megachunks - 1 + sizeRange by omega,
            Nat.add_mod_right]
          exact Nat.mod_eq_of_lt (by omega)
        rw [if_neg (by omega)] at further
        rw [less, further]
    · have slot := slots _ _ more
      have nonzero : megachunks ≠ 0 := by
        rintro rfl
        omega
      rw [Nat.sub_add_cancel (Nat.pos_of_ne_zero nonzero)] at steps
      obtain ⟨mine, reach⟩ := small (megachunks - 1) (by omega)
      rw [if_neg (Nat.not_le.mpr more), if_neg (Nat.not_lt.mpr (Nat.le_of_lt more)),
        if_neg (Nat.ne_of_gt more), mine, reach, if_neg (by omega)]
      rw [if_neg (by omega)] at further
      rw [further]

theorem slices_eq (chunk : 0 < chunksize) (threads : 0 < numthreads)
    (wide : (numthreads - 1) * chunksize < length)
    (room : length + chunksize * numthreads < sizeRange) :
    slices chunksize numthreads length = (List.range numthreads).map fun i =>
      ⟨i * chunksize, sliceLength chunksize numthreads length i,
        (numthreads - 1) * chunksize + 1⟩ := by
  rw [slices, List.range_eq_range']
  by_cases whole : length % (chunksize * numthreads) = 0
  · have large := Nat.le_of_dvd (Nat.zero_lt_of_lt wide) (Nat.dvd_of_mod_eq_zero whole)
    exact slicesFrom_whole whole large room threads numthreads 0 _
  · have all := slicesFrom_extra chunk whole wide room numthreads 0 (Nat.zero_add _)
    rw [if_pos (Nat.zero_le _)] at all
    exact all

theorem slices_get (chunk : 0 < chunksize) (threads : 0 < numthreads)
    (wide : (numthreads - 1) * chunksize < length)
    (room : length + chunksize * numthreads < sizeRange) {i : Nat} {args : Args} :
    (slices chunksize numthreads length)[i]? = some args ↔ i < numthreads ∧
      args = ⟨i * chunksize, sliceLength chunksize numthreads length i,
        (numthreads - 1) * chunksize + 1⟩ := by
  rw [slices_eq chunk threads wide room, List.getElem?_map]
  by_cases listed : i < numthreads
  · rw [List.getElem?_range listed, Option.map_some, Option.some.injEq]
    exact ⟨fun same => ⟨listed, same.symm⟩, fun same => same.2.symm⟩
  · rw [List.getElem?_eq_none (by rw [List.length_range]; omega)]
    exact ⟨nofun, fun same => absurd same.1 listed⟩

theorem Fits.visits_iff {i : Nat} {args : Args} (fits : Fits chunksize numthreads length i args)
    (chunk : 0 < chunksize) (listed : i < numthreads) {cell : Nat} :
    args.Visits chunksize cell ↔ cell < length ∧ cell / chunksize % numthreads = i := by
  have own := jumps chunk (Nat.zero_lt_of_lt listed)
  rw [own.visits_iff fits.jump, own.dealt_iff listed, fits.offset]
  constructor
  · rintro ⟨mega, inChunk, small, inside, rfl⟩
    exact ⟨(fits.inside mega inChunk small).mp inside, mega, inChunk, small, rfl⟩
  · rintro ⟨inside, mega, inChunk, small, rfl⟩
    exact ⟨mega, inChunk, small, (fits.inside mega inChunk small).mpr inside, rfl⟩

/-- Every cell of the window is in exactly one slice, and the slices stay in the window. -/
structure Covers (chunksize length : Nat) (tasks : List Args) : Prop where
  once : ∀ cell, cell < length →
    ∃! i : Nat, ∃ args : Args, tasks[i]? = some args ∧ args.Visits chunksize cell
  inside : ∀ args ∈ tasks, ∀ cell, args.Visits chunksize cell → cell < length

theorem slices_cover (chunk : 0 < chunksize) (threads : 0 < numthreads)
    (wide : (numthreads - 1) * chunksize < length)
    (room : length + chunksize * numthreads < sizeRange) :
    Covers chunksize length (slices chunksize numthreads length) := by
  have each {i : Nat} {args : Args}
      (found : (slices chunksize numthreads length)[i]? = some args) (cell : Nat) :
      args.Visits chunksize cell ↔ cell < length ∧ cell / chunksize % numthreads = i := by
    obtain ⟨listed, rfl⟩ := (slices_get chunk threads wide room).mp found
    exact (sliceLength_fits chunk listed wide).visits_iff chunk listed
  constructor
  · intro cell inside
    have listed := Nat.mod_lt (cell / chunksize) threads
    have found := (slices_get chunk threads wide room).mpr ⟨listed, rfl⟩
    refine ⟨_, ⟨_, found, (each found cell).mpr ⟨inside, rfl⟩⟩, ?_⟩
    intro other ⟨args, otherFound, visits⟩
    exact ((each otherFound cell).mp visits).2.symm
  · intro args member cell visits
    obtain ⟨i, found⟩ := List.mem_iff_getElem?.mp member
    exact ((each found cell).mp visits).1

theorem below_mod {mega part : Nat} (down : Nat) (below : part < down * mega)
    (room : down * mega ≤ sizeRange) (few : down ≤ sizeRange) :
    ((sizeRange - down) * mega + part) % sizeRange = sizeRange - (down * mega - part) := by
  obtain ⟨less, rfl⟩ : ∃ less, mega = less + 1 := by
    cases mega with
    | zero => exact absurd below (Nat.not_lt_zero part)
    | succ less => exact ⟨less, rfl⟩
  have turns : (sizeRange - down) * (less + 1) + part =
      sizeRange - (down * (less + 1) - part) + sizeRange * less := by
    have split := Nat.mul_le_mul_right (less + 1) few
    rw [Nat.sub_mul]
    have turn := Nat.mul_add_one sizeRange less
    omega
  rw [turns, Nat.add_mul_mod_self_left]
  exact Nat.mod_eq_of_lt (by omega)

theorem slicesFrom_below (chunk : 0 < chunksize) (short : length ≤ (numthreads - 1) * chunksize)
    (ragged : length % (chunksize * numthreads) ≠ 0)
    (room : length + numthreads * (chunksize * numthreads) < sizeRange)
    (left i down : Nat) (count : i + (left + 1) = numthreads) (pos : 0 < down) (few : down ≤ i)
    (far : length ≤ (i + 1 - down) * chunksize) :
    ∃ args ∈ slicesFrom chunksize numthreads length (left + 1) i (sizeRange - down),
      args.offset = (numthreads - 1) * chunksize ∧
        args.jump = (numthreads - 1) * chunksize + 1 ∧ 0 < args.length := by
  have positive : 0 < length := by
    refine Nat.pos_of_ne_zero ?_
    rintro rfl
    exact ragged (Nat.zero_mod _)
  have many : (numthreads - 1) * chunksize + chunksize = chunksize * numthreads := by
    rw [← Nat.add_one_mul, Nat.sub_add_cancel (by omega), Nat.mul_comm]
  have bounds (down : Nat) (pos : 0 < down) (few : down ≤ numthreads) :
      chunksize * numthreads ≤ down * (chunksize * numthreads) ∧
        length + down * (chunksize * numthreads) < sizeRange ∧ down < sizeRange ∧
        ((sizeRange - down) * (chunksize * numthreads) + chunksize) % sizeRange =
          sizeRange - (down * (chunksize * numthreads) - chunksize) := by
    have own := Nat.le_mul_of_pos_left (chunksize * numthreads) pos
    have most := Nat.mul_le_mul_right (chunksize * numthreads) few
    have fewer : down ≤ down * (chunksize * numthreads) := Nat.le_mul_of_pos_right down (by omega)
    exact ⟨own, by omega, by omega, below_mod down (by omega) (by omega) (by omega)⟩
  induction left generalizing i down with
  | zero =>
    obtain ⟨own, most, small, mine⟩ := bounds down pos (by omega)
    have last : i = numthreads - 1 := by omega
    rw [slicesFrom, if_pos ragged]
    dsimp only
    rw [mine]
    subst last
    obtain once | more := Nat.eq_or_lt_of_le pos
    · subst once
      have turn : sizeRange - (1 * (chunksize * numthreads) - chunksize) +
          (numthreads - 1) * chunksize = sizeRange := by omega
      rw [turn, Nat.mod_self, if_neg (by omega)]
      refine ⟨_, List.mem_singleton.mpr rfl, rfl, rfl, ?_⟩
      show 0 < sizeRange - (1 * (chunksize * numthreads) - chunksize)
      omega
    · have two := Nat.mul_le_mul_right (chunksize * numthreads) (show 2 ≤ down from more)
      have less : length < (numthreads - 1) * chunksize := by
        have fewerSlots := Nat.mul_le_mul_right chunksize
          (show numthreads - 1 + 1 - down + 1 ≤ numthreads - 1 by omega)
        rw [Nat.add_one_mul] at fewerSlots
        omega
      rw [Nat.mod_eq_of_lt (by omega), if_pos (by omega)]
      refine ⟨_, List.mem_singleton.mpr rfl, rfl, rfl, ?_⟩
      show 0 < (length + (sizeRange - (numthreads - 1) * chunksize)) % sizeRange
      rw [Nat.mod_eq_of_lt (by omega)]
      omega
  | succ left ih =>
    obtain ⟨own, most, small, mine⟩ := bounds down pos (by omega)
    have lower := Nat.mul_le_mul_right chunksize (show i + 1 ≤ numthreads - 1 by omega)
    rw [Nat.add_one_mul] at lower
    have next : (sizeRange - down + (sizeRange - 1)) % sizeRange = sizeRange - (down + 1) := by
      rw [show sizeRange - down + (sizeRange - 1) = sizeRange - (down + 1) + sizeRange by omega,
        Nat.add_mod_right]
      exact Nat.mod_eq_of_lt (by omega)
    rw [slicesFrom, if_pos ragged]
    dsimp only
    rw [mine, Nat.mod_eq_of_lt (by omega), if_pos (by omega), next]
    obtain ⟨args, member, is⟩ := ih (i + 1) (down + 1) (by omega) (Nat.succ_pos down) (by omega)
      (by rw [Nat.add_sub_add_right]; exact far)
    exact ⟨args, List.mem_cons_of_mem _ member, is⟩

theorem slicesFrom_first (chunk : 0 < chunksize)
    (short : length ≤ (numthreads - 1) * chunksize) (positive : 0 < length)
    (room : length + numthreads * (chunksize * numthreads) < sizeRange) (left i : Nat)
    (count : i + (left + 1) = numthreads) (within : i * chunksize < length) :
    ∃ args ∈ slicesFrom chunksize numthreads length (left + 1) i 0,
      args.offset = (numthreads - 1) * chunksize ∧
        args.jump = (numthreads - 1) * chunksize + 1 ∧ 0 < args.length := by
  have many : (numthreads - 1) * chunksize + chunksize = chunksize * numthreads := by
    rw [← Nat.add_one_mul, Nat.sub_add_cancel (by omega), Nat.mul_comm]
  have ragged : length % (chunksize * numthreads) ≠ 0 := by
    rw [Nat.mod_eq_of_lt (by omega)]
    omega
  have most : chunksize * numthreads ≤ numthreads * (chunksize * numthreads) :=
    Nat.le_mul_of_pos_left _ (by omega)
  induction left generalizing i with
  | zero =>
    rw [show i = numthreads - 1 by omega] at within
    omega
  | succ left ih =>
    have next := Nat.add_one_mul i chunksize
    have reach : (chunksize + i * chunksize) % sizeRange = chunksize + i * chunksize :=
      Nat.mod_eq_of_lt (by omega)
    rw [slicesFrom, if_pos ragged]
    dsimp only
    rw [Nat.zero_mul, Nat.zero_add, Nat.mod_eq_of_lt (show chunksize < sizeRange by omega), reach]
    by_cases last : length ≤ chunksize + i * chunksize
    · rw [if_pos last, Nat.zero_add, Nat.mod_eq_of_lt (show sizeRange - 1 < sizeRange by omega)]
      obtain ⟨args, member, is⟩ := slicesFrom_below chunk short ragged room left (i + 1) 1
        (by omega) Nat.one_pos (by omega) (by rw [Nat.add_sub_cancel]; omega)
      exact ⟨args, List.mem_cons_of_mem _ member, is⟩
    · rw [if_neg last]
      obtain ⟨args, member, is⟩ := ih (i + 1) (by omega) (by omega)
      exact ⟨args, List.mem_cons_of_mem _ member, is⟩

theorem slices_escape (chunk : 0 < chunksize) (threads : 0 < numthreads)
    (short : length ≤ (numthreads - 1) * chunksize) (positive : 0 < length)
    (room : length + numthreads * (chunksize * numthreads) < sizeRange) :
    ¬ Covers chunksize length (slices chunksize numthreads length) := by
  obtain ⟨left, rfl⟩ : ∃ left, numthreads = left + 1 := ⟨numthreads - 1, by omega⟩
  have many : (left + 1 - 1) * chunksize + chunksize = chunksize * (left + 1) := by
    rw [← Nat.add_one_mul, Nat.add_sub_cancel, Nat.mul_comm]
  intro covers
  obtain ⟨args, member, offset, jump, long⟩ :=
    slicesFrom_first chunk short positive room left 0 (Nat.zero_add _) (by omega)
  have zero : length / (chunksize * (left + 1)) = 0 := Nat.div_eq_of_lt (by omega)
  have listed : args ∈ slices chunksize (left + 1) length := by
    rw [slices, zero]
    exact member
  have inside := covers.inside args listed args.offset ⟨0, .zero, long, rfl⟩
  omega

end Qthreads.Qsort
