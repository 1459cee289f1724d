import Qthreads.Nottingham.Queue

namespace Qthreads.Nottingham

open Lib
open Function (update update_of_ne update_self)

def slots (base : Nat → Entry) (i : Nat) : Option Task := (base i).value

theorem slots_update (base : Nat → Entry) (i : Nat) (entry : Entry) :
    slots (update base i entry) = update (slots base) i entry.value := by
  funext j
  by_cases same : j = i
  · subst same
    rw [slots, update_self, update_self]
  · rw [slots, update_of_ne same, update_of_ne same, slots]

namespace Queue

variable {q : Queue} {tasks : List Task}

/-- The tasks lie behind the bottom, up to the slot of the top, whose entry has the last of them.  The
slot of the top has this task too, or its counter is one behind the one of the entry. -/
structure Holds (q : Queue) (tasks : List Task) : Prop where
  power : ∃ j, j ≤ 31 ∧ q.size = 2 ^ j
  room : 2 ≤ q.size
  bottom : q.bottom < q.size
  fits : tasks.length < q.size
  index : q.top.index = ringAt q.size q.bottom tasks.length
  value : tasks ≠ [] → q.top.value = tasks.getLast?
  window : Window (slots q.base) q.size (ringAt q.size q.bottom 1) (tasks.dropLast.map some)
  plain : ∀ i < q.size, (q.base i).index = 0
  behind : (tasks ≠ [] → slots q.base q.top.index = q.top.value) ∨
    q.top.counter = (q.base q.top.index).counter + 1

def Full (q : Queue) (tasks : List Task) : Prop :=
  Window (slots q.base) q.size (ringAt q.size q.bottom 1) (tasks.map some)

theorem new_holds : new.Holds [] where
  power := ⟨10, by decide, rfl⟩
  room := by decide
  bottom := by decide
  fits := by decide
  index := rfl
  value := fun nonempty => absurd rfl nonempty
  window := trivial
  plain := fun _ _ => rfl
  behind := .inl fun nonempty => absurd rfl nonempty

theorem down_eq {size i : Nat} (power : ∃ j, j ≤ 31 ∧ size = 2 ^ j) :
    down size i = ringAt size i (size - 1) := by
  obtain ⟨j, small, rfl⟩ := power
  have divides : 2 ^ j ∣ 2 ^ 32 := Nat.pow_dvd_pow 2 (by omega)
  have positive : 0 < 2 ^ j := Nat.two_pow_pos j
  have less : 2 ^ j ≤ 2 ^ 32 := Nat.le_of_dvd (by decide) divides
  obtain ⟨k, multiple⟩ := Nat.dvd_sub divides (Nat.dvd_refl (2 ^ j))
  rw [down, Nat.mod_mod_of_dvd _ divides, ringAt]
  have split : i + (2 ^ 32 - 1) = i + (2 ^ j - 1) + 2 ^ j * k := by
    rw [← multiple]
    omega
  rw [split, Nat.add_mul_mod_self_left]

namespace Holds

variable (holds : q.Holds tasks)

include holds

theorem top_lt : q.top.index < q.size := by
  rw [holds.index]
  exact ringAt_lt (Nat.lt_of_lt_of_le Nat.zero_lt_two holds.room)

theorem start_lt : ringAt q.size q.bottom 1 < q.size :=
  ringAt_lt (Nat.lt_of_lt_of_le Nat.zero_lt_two holds.room)

theorem empty_iff : q.top.index = q.bottom ↔ tasks = [] := by
  rw [holds.index]
  constructor
  · intro same
    have room : 0 < q.size := Nat.lt_of_le_of_lt (Nat.zero_le _) holds.bottom
    have zero := ringAt_inj holds.fits room (same.trans (ringAt_zero holds.bottom).symm)
    exact List.length_eq_zero_iff.mp zero
  · rintro rfl
    exact ringAt_zero holds.bottom

theorem full_iff : q.nextindex = q.bottom ↔ tasks.length + 1 = q.size := by
  have next : q.nextindex = ringAt q.size q.bottom (tasks.length + 1) := by
    rw [nextindex, holds.index]
    exact ringAt_ringAt
  rw [next]
  exact ringAt_succ_eq_start_iff holds.bottom holds.fits

theorem nextindex_eq : q.nextindex = ringAt q.size q.bottom (tasks.length + 1) := by
  rw [nextindex, holds.index]
  exact ringAt_ringAt

theorem full (last : tasks ≠ [] → slots q.base q.top.index = q.top.value) : q.Full tasks := by
  rcases List.eq_nil_or_concat' tasks with rfl | ⟨front, t, rfl⟩
  · trivial
  · have window := holds.window
    have value := holds.value (List.concat_ne_nil t front)
    rw [List.dropLast_concat] at window
    rw [List.getLast?_concat] at value
    rw [Full, List.map_append]
    refine (Window.snoc_iff holds.start_lt).mpr ⟨window, ?_⟩
    rw [List.length_map, ringAt_ringAt, ← value, ← last (List.concat_ne_nil t front), holds.index,
      List.length_append, Nat.add_comm]
    rfl

end Holds

@[simp] theorem finish_top : q.finish.top = q.top := by
  simp only [finish]
  split
  · rfl
  · split
    · rfl
    · split <;> rfl

@[simp] theorem finish_size : q.finish.size = q.size := by
  simp only [finish]
  split
  · rfl
  · split
    · rfl
    · split <;> rfl

@[simp] theorem finish_bottom : q.finish.bottom = q.bottom := by
  simp only [finish]
  split
  · rfl
  · split
    · rfl
    · split <;> rfl

def written (q : Queue) : Queue :=
  { q with base := update q.base q.top.index { q.top with index := 0 } }

theorem finish_cases : q.finish = q ∨ q.finish = q.written := by
  simp only [finish]
  split
  · exact .inl rfl
  · split
    · exact .inl rfl
    · split
      · exact .inr rfl
      · exact .inl rfl

theorem finish_of_behind (ahead : q.top.counter = (q.base q.top.index).counter + 1)
    (plain : (q.base q.top.index).index = 0) :
    q.finish = q.written := by
  have back : q.top.counter - 1 = (q.base q.top.index).counter := by
    rw [ahead, UInt32.add_sub_cancel]
  have differs : (q.base q.top.index).counter ≠ q.top.counter := by
    rw [ahead]
    intro same
    have numbers := congrArg UInt32.toNat same
    have less := (q.base q.top.index).counter.toNat_lt
    rw [UInt32.toNat_add, show UInt32.toNat 1 = 1 from rfl] at numbers
    omega
  have whole : q.base q.top.index = ⟨(q.base q.top.index).value, 0, q.top.counter - 1⟩ := by
    rw [back, ← plain]
  simp only [finish]
  rw [if_neg, if_neg differs, if_pos whole]
  · rfl
  rw [back]
  exact UInt32.lt_irrefl _

structure Settled (q : Queue) (tasks : List Task) : Prop extends q.Holds tasks where
  full : q.Full tasks

theorem Holds.settled (holds : q.Holds tasks)
    (last : tasks ≠ [] → slots q.base q.top.index = q.top.value) : q.Settled tasks :=
  ⟨holds, holds.full last⟩

theorem Holds.written (holds : q.Holds tasks) : q.written.Settled tasks := by
  have window : Window (slots (update q.base q.top.index { q.top with index := 0 })) q.size
      (ringAt q.size q.bottom 1) (tasks.dropLast.map some) := by
    rw [slots_update]
    refine holds.window.update _ holds.start_lt ?_
    intro i less
    rw [List.length_map, List.length_dropLast] at less
    rw [ringAt_ringAt, holds.index]
    have fits := holds.fits
    exact ringAt_ne (by omega) fits (by omega)
  have last : slots q.written.base q.top.index = q.top.value := by
    simp only [Queue.written, slots, update_self]
  have held : q.written.Holds tasks := by
    refine ⟨holds.power, holds.room, holds.bottom, holds.fits, holds.index, holds.value, window, ?_,
      .inl fun _ => last⟩
    intro i less
    by_cases top : i = q.top.index
    · subst top
      simp only [Queue.written, update_self]
    · simp only [Queue.written, update_of_ne top]
      exact holds.plain i less
  exact held.settled fun _ => last

theorem Holds.finish (holds : q.Holds tasks) : q.finish.Settled tasks := by
  rcases holds.behind with last | ahead
  · rcases @finish_cases q with same | written
    · rw [same]
      exact holds.settled last
    · rw [written]
      exact holds.written
  · rw [finish_of_behind ahead (holds.plain _ holds.top_lt)]
    exact holds.written

end Queue

end Qthreads.Nottingham
