import Qthreads.Nottingham.Holds

namespace Qthreads.Nottingham.Queue

open Lib
open Function (update update_of_ne update_self)

variable {q : Queue} {tasks : List Task} {t : Task}

theorem Holds.window_update (holds : q.Holds tasks) (full : q.Full tasks) (entry : Entry)
    (more : tasks.length + 1 < q.size) :
    Window (slots (update q.base q.nextindex entry)) q.size (ringAt q.size q.bottom 1)
      (tasks.map some) := by
  rw [slots_update]
  refine full.update _ holds.start_lt ?_
  intro i less
  rw [List.length_map] at less
  rw [ringAt_ringAt, holds.nextindex_eq]
  exact ringAt_ne (by omega) more (by omega)

theorem Holds.place (holds : q.Holds tasks) (full : q.Full tasks) (more : tasks.length + 1 < q.size) :
    (q.place t q.nextindex).Holds (tasks ++ [t]) where
  power := holds.power
  room := holds.room
  bottom := holds.bottom
  fits := by
    rw [List.length_append]
    exact more
  index := by
    rw [List.length_append]
    exact holds.nextindex_eq
  value := by
    intro _
    rw [List.getLast?_concat]
    rfl
  window := by
    rw [List.dropLast_concat]
    exact holds.window_update full _ more
  plain := by
    intro i less
    by_cases top : i = q.nextindex
    · subst top
      simp only [Queue.place, update_self]
      exact holds.plain _ less
    · simp only [Queue.place, update_of_ne top]
      exact holds.plain i less
  behind := .inl fun _ => by simp only [Queue.place, slots, update_self]

theorem Settled.push (settled : q.Settled tasks) (more : tasks.length + 1 < q.size) :
    Holds { q with
      top := ⟨some t, q.nextindex, (q.base q.nextindex).counter + 1⟩
      empty := false } (tasks ++ [t]) where
  power := settled.power
  room := settled.room
  bottom := settled.bottom
  fits := by
    rw [List.length_append]
    exact more
  index := by
    rw [List.length_append]
    exact settled.nextindex_eq
  value := by
    intro _
    rw [List.getLast?_concat]
  window := by
    rw [List.dropLast_concat]
    exact settled.full
  plain := settled.plain
  behind := .inr rfl

theorem Settled.last (settled : q.Settled tasks) (nonempty : tasks ≠ []) :
    slots q.base q.top.index = q.top.value := by
  have value := settled.value nonempty
  obtain ⟨front, last, rfl⟩ := (List.eq_nil_or_concat' tasks).resolve_left nonempty
  have full := settled.full
  rw [Full, List.map_append] at full
  have slot := ((Window.snoc_iff settled.start_lt).mp full).2
  rw [List.length_map, ringAt_ringAt, Nat.add_comm] at slot
  rw [value, List.getLast?_concat, ← slot, settled.index, List.length_append]
  rfl

theorem resize_base {i : Nat} (bottom : q.bottom < q.size) (less : i < q.size) :
    q.resize.base i = q.base (ringAt q.size q.bottom i) := by
  simp only [resize, if_pos less]
  split
  next early => rw [ringAt, Nat.mod_eq_of_lt (by omega)]
  next late =>
      rw [ringAt]
      have wrapped : q.bottom + i = i - (q.size - q.bottom) + q.size := by omega
      rw [wrapped, Nat.add_mod_right, Nat.mod_eq_of_lt (by omega)]

theorem Settled.resize (settled : q.Settled tasks) (all : tasks.length + 1 = q.size)
    (small : q.size < 2 ^ 31) : q.resize.Holds tasks ∧ q.resize.Full tasks ∧
      q.resize.size = q.size * 2 ∧ q.resize.nextindex = q.size := by
  have size : q.resize.size = q.size * 2 := if_neg (by omega)
  have bottom : q.resize.bottom = 0 := rfl
  have zeroth (i : Nat) (less : i < q.size * 2) : ringAt (q.size * 2) 0 i = i := by
    rw [ringAt, Nat.zero_add, Nat.mod_eq_of_lt less]
  have index : q.resize.top.index = tasks.length := by
    rw [show q.resize.top.index = q.size - 1 from rfl]
    omega
  have room := settled.room
  have full : q.resize.Full tasks := by
    rw [Full, size, bottom, zeroth 1 (by omega), Window.iff_get (by omega)]
    intro i value found
    have less := (List.getElem?_eq_some_iff.mp found).1
    rw [List.length_map] at less
    have old := (Window.iff_get settled.start_lt).mp settled.full i value found
    rw [ringAt_ringAt] at old
    rw [ringAt, Nat.mod_eq_of_lt (by omega), slots, resize_base settled.bottom (by omega)]
    exact old
  have top : q.resize.base q.resize.top.index = q.base q.top.index := by
    rw [index, resize_base settled.bottom (by omega), settled.index]
  refine ⟨⟨?_, ?_, ?_, ?_, ?_, ?_, ?_, ?_, ?_⟩, full, size, ?_⟩
  · obtain ⟨j, -, power⟩ := settled.power
    refine ⟨j + 1, ?_, ?_⟩
    · rw [power] at small
      exact (Nat.pow_lt_pow_iff_right (by decide)).mp small
    · rw [size, power, Nat.pow_succ]
  · rw [size]
    omega
  · rw [bottom, size]
    omega
  · rw [size]
    omega
  · rw [index, size, bottom, zeroth _ (by omega)]
  · exact settled.value
  · rcases List.eq_nil_or_concat' tasks with rfl | ⟨front, last, rfl⟩
    · trivial
    · rw [List.dropLast_concat]
      rw [Full, List.map_append] at full
      refine ((Window.append_iff ?_).mp full).1
      rw [size, bottom, zeroth 1 (by omega)]
      omega
  · intro i less
    by_cases old : i < q.size
    · rw [resize_base settled.bottom old]
      exact settled.plain _ (ringAt_lt (by omega))
    · simp only [Queue.resize, if_neg old, if_neg (show ¬ i < q.size - q.bottom by omega)]
      rfl
  · exact .inl fun nonempty => (congrArg Entry.value top).trans (settled.last nonempty)
  · rw [nextindex, index, size, Nat.mod_eq_of_lt (by omega), all]

section

variable (holds : q.Holds tasks)
include holds

theorem Holds.marked (empty : Bool) : Holds { q with empty } tasks :=
  ⟨holds.power, holds.room, holds.bottom, holds.fits, holds.index, holds.value, holds.window,
    holds.plain, holds.behind⟩

theorem Holds.enqueue (fits : q.nextindex = q.bottom → q.size < 2 ^ 31) :
    (q.enqueue t).Holds (tasks ++ [t]) := by
  have settled := holds.finish
  have limit : q.finish.nextindex = q.finish.bottom → q.finish.size < 2 ^ 31 := by
    simpa only [nextindex, finish_top, finish_size, finish_bottom] using fits
  simp only [Queue.enqueue]
  by_cases crowded : q.finish.nextindex = q.finish.bottom
  · rw [if_pos crowded]
    have again := settled.toHolds.finish
    have still : q.finish.finish.nextindex = q.finish.finish.bottom := by
      simpa only [nextindex, finish_top, finish_size, finish_bottom] using crowded
    have all := again.full_iff.mp still
    have small : q.finish.finish.size < 2 ^ 31 := by
      rw [finish_size]
      exact limit crowded
    obtain ⟨held, full, size, next⟩ := again.resize all small
    simp only [resizeAndEnqueue, if_pos still]
    have placed := held.place (t := t) full (by
      rw [size]
      have room := again.room
      omega)
    rw [next, finish_size] at placed
    exact placed.marked false
  · rw [if_neg crowded]
    have more : tasks.length + 1 < q.finish.size :=
      Nat.lt_of_le_of_ne settled.fits fun all => crowded (settled.full_iff.mpr all)
    exact settled.push more

theorem Holds.ringAt_apart {i : Nat} (least : 0 < i) (most : i + 1 < q.size) :
    ringAt q.size q.bottom i ≠ q.bottom ∧ ringAt q.size q.bottom i ≠ down q.size q.bottom := by
  have positive : 0 < q.size := Nat.lt_of_le_of_lt (Nat.zero_le _) holds.bottom
  constructor
  · intro same
    have zero := ringAt_inj (by omega) positive (same.trans (ringAt_zero holds.bottom).symm)
    omega
  · rw [down_eq holds.power]
    exact ringAt_ne (by omega) (by omega) (by omega)

theorem Holds.ringAt_down (i : Nat) :
    ringAt q.size (down q.size q.bottom) (i + 1) = ringAt q.size q.bottom i := by
  have room := holds.room
  rw [down_eq holds.power, ringAt_ringAt, show q.size - 1 + (i + 1) = i + q.size by omega, ringAt,
    ringAt, ← Nat.add_assoc, Nat.add_mod_right]

theorem Holds.lower (nonempty : tasks ≠ []) (more : tasks.length + 1 < q.size)
    {base : Nat → Entry} (value : (base q.bottom).value = some t)
    (others : ∀ i, i ≠ q.bottom → i ≠ down q.size q.bottom → base i = q.base i)
    (plain : ∀ i < q.size, (base i).index = 0) (empty : Bool) :
    Holds { q with base, bottom := down q.size q.bottom, empty } (t :: tasks) := by
  have length : 0 < tasks.length := List.length_pos_iff.mpr nonempty
  have top := holds.ringAt_apart length (by omega)
  rw [← holds.index] at top
  refine ⟨holds.power, holds.room, ?_, more, ?_, ?_, ?_, plain, ?_⟩
  · exact Nat.mod_lt _ (Nat.lt_of_le_of_lt (Nat.zero_le _) holds.bottom)
  · exact holds.index.trans (holds.ringAt_down tasks.length).symm
  · intro _
    rw [List.getLast?_cons_of_ne_nil nonempty]
    exact holds.value nonempty
  · rw [List.dropLast_cons_of_ne_nil nonempty, List.map_cons, holds.ringAt_down 0,
      ringAt_zero holds.bottom]
    refine ⟨value, ?_⟩
    refine (Window.iff_get holds.start_lt).mpr ?_
    intro i task found
    have less := (List.getElem?_eq_some_iff.mp found).1
    rw [List.length_map, List.length_dropLast] at less
    have old := (Window.iff_get holds.start_lt).mp holds.window i task found
    have apart := holds.ringAt_apart (show 0 < 1 + i by omega) (by omega)
    rw [ringAt_ringAt] at old ⊢
    simp only [slots, others _ apart.1 apart.2]
    exact old
  · simp only [slots, others _ top.1 top.2]
    rcases holds.behind with last | ahead
    · exact .inl fun _ => last nonempty
    · exact .inr ahead

theorem Holds.putBelow (nonempty : tasks ≠ []) (more : tasks.length + 1 < q.size) :
    (q.putBelow t).Holds (t :: tasks) := by
  have apart : q.bottom ≠ down q.size q.bottom := by
    rw [down_eq holds.power]
    intro same
    have crowded := ringAt_inj (by omega) (by omega) ((ringAt_zero holds.bottom).trans same)
    omega
  refine holds.lower nonempty more ?_ ?_ ?_ false
  · rw [update_of_ne apart, update_self]
  · intro i old new
    rw [update_of_ne new, update_of_ne old]
  · intro i less
    by_cases new : i = down q.size q.bottom
    · rw [new, update_self]
      exact holds.plain _ (new ▸ less)
    · rw [update_of_ne new]
      by_cases old : i = q.bottom
      · rw [old, update_self]
        exact holds.plain _ holds.bottom
      · rw [update_of_ne old]
        exact holds.plain i less

theorem Holds.enqueueYielded
    (fits : q.nextindex = q.bottom → q.size < 2 ^ 31) : (q.enqueueYielded t).Holds (t :: tasks) := by
  have settled := holds.finish
  have limit : q.finish.nextindex = q.finish.bottom → q.finish.size < 2 ^ 31 := by
    simpa only [nextindex, finish_top, finish_size, finish_bottom] using fits
  simp only [Queue.enqueueYielded]
  by_cases empty : q.finish.top.index = q.finish.bottom
  · rw [if_pos empty]
    obtain rfl := settled.empty_iff.mp empty
    exact settled.toHolds.place settled.full settled.room
  · rw [if_neg empty]
    have nonempty : tasks ≠ [] := fun vacant => empty (settled.empty_iff.mpr vacant)
    by_cases crowded : q.finish.nextindex = q.finish.bottom
    · rw [if_pos crowded]
      obtain ⟨held, -, size, -⟩ := settled.resize (settled.full_iff.mp crowded) (limit crowded)
      refine held.putBelow nonempty ?_
      have room := settled.room
      rw [size, settled.full_iff.mp crowded]
      omega
    · rw [if_neg crowded]
      refine settled.toHolds.putBelow nonempty ?_
      exact Nat.lt_of_le_of_ne settled.fits fun all => crowded (settled.full_iff.mpr all)

end

theorem Settled.pop {front : List Task} (settled : q.Settled (front ++ [t])) (counter : UInt32) :
    Holds { q with
      top := ⟨(q.base (down q.size q.top.index)).value, down q.size q.top.index, counter⟩ } front := by
  have fits := settled.fits
  rw [List.length_append, List.length_singleton] at fits
  have below : down q.size q.top.index = ringAt q.size q.bottom front.length := by
    rw [down_eq settled.power, settled.index, ringAt_ringAt, List.length_append,
      List.length_singleton, show front.length + 1 + (q.size - 1) = front.length + q.size by omega,
      ringAt, ringAt, ← Nat.add_assoc, Nat.add_mod_right]
  have full := settled.full
  rw [Full, List.map_append] at full
  have window := ((Window.append_iff settled.start_lt).mp full).1
  refine ⟨settled.power, settled.room, settled.bottom, Nat.lt_of_succ_lt fits, below, ?_, ?_,
    settled.plain, .inl fun _ => rfl⟩
  · intro nonempty
    obtain ⟨others, last, rfl⟩ := (List.eq_nil_or_concat' front).resolve_left nonempty
    rw [List.map_append] at window
    have slot := ((Window.snoc_iff settled.start_lt).mp window).2
    rw [List.length_map, ringAt_ringAt] at slot
    rw [List.getLast?_concat, ← slot, below, List.length_append, Nat.add_comm]
    rfl
  · rcases List.eq_nil_or_concat' front with rfl | ⟨others, last, rfl⟩
    · trivial
    · rw [List.dropLast_concat]
      rw [List.map_append] at window
      exact ((Window.append_iff settled.start_lt).mp window).1

variable {worker : Option Nat}

theorem Holds.getThread {after : Queue} (holds : q.Holds tasks)
    (got : q.getThread worker = some (t, after)) :
    ∃ front, tasks = front ++ [t] ∧ after.Holds front := by
  simp only [Queue.getThread] at got
  by_cases empty : q.top.index = q.bottom
  · rw [if_pos empty] at got
    cases got
  · rw [if_neg empty] at got
    have nonempty : tasks ≠ [] := fun vacant => empty (holds.empty_iff.mpr vacant)
    obtain ⟨front, last, rfl⟩ := (List.eq_nil_or_concat' tasks).resolve_left nonempty
    have value := holds.value nonempty
    rw [List.getLast?_concat] at value
    rw [value] at got
    simp only at got
    split at got
    · cases got
    · cases got
      exact ⟨front, rfl, holds.finish.pop _⟩

def popped (q : Queue) : Queue :=
  let previndex := down q.finish.size q.finish.top.index
  let belowtop := q.finish.base previndex
  { q.finish with top := ⟨belowtop.value, previndex, belowtop.counter + 1⟩ }

theorem getThread_eq (differ : q.top.index ≠ q.bottom)
    (value : q.top.value = some t) (mine : t.realMccoy = true → worker = some 0) :
    q.getThread worker = some (t, q.popped) := by
  have free : ¬ (t.realMccoy = true ∧ worker ≠ some 0) := by
    rintro ⟨mccoy, other⟩
    exact other (mine mccoy)
  simp only [Queue.getThread, if_neg differ, value, if_neg free, popped]

theorem Holds.getThread_exists {front : List Task} (holds : q.Holds (front ++ [t]))
    (mine : t.realMccoy = true → worker = some 0) :
    ∃ after, q.getThread worker = some (t, after) := by
  have present : ¬ q.top.index = q.bottom := by
    rw [holds.empty_iff]
    exact List.concat_ne_nil t front
  have value := holds.value (List.concat_ne_nil t front)
  rw [List.getLast?_concat] at value
  exact ⟨_, getThread_eq present value mine⟩

end Qthreads.Nottingham.Queue
