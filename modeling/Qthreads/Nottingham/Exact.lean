import Qthreads.Nottingham.Ends

namespace Qthreads.Nottingham

open Lib
open Function (update update_of_ne update_self)

namespace Deque

variable {chunksize : Nat} {t : Task} {tasks rest : List Task}

def passed : Nat → List Task → Nat
  | 0, _ => 0
  | _, [] => 0
  | _, [_] => 0
  | chunksize + 1, t :: next :: rest =>
    if t.stealable then passed chunksize (next :: rest)
    else passed (chunksize + 1) (next :: rest) + 1

@[simp] theorem steal_nil : steal chunksize [] = ([], []) := by
  cases chunksize <;> rfl

@[simp] theorem steal_zero : steal 0 tasks = ([], tasks) := by
  cases tasks <;> rfl

theorem steal_none (never : ∀ t ∈ tasks, t.stealable = false) : steal chunksize tasks = ([], tasks) := by
  induction tasks with
  | nil => exact steal_nil
  | cons t rest ih =>
    cases chunksize with
    | zero => rfl
    | succ chunksize =>
      have first := never t List.mem_cons_self
      have later := ih fun u member => never u (List.mem_cons_of_mem t member)
      simp [steal, first, later]

theorem steal_cons (wanted : 0 < chunksize) (can : t.stealable = true) :
    steal chunksize (t :: rest) =
      (t :: (steal (chunksize - 1) rest).1, (steal (chunksize - 1) rest).2) := by
  obtain ⟨k, rfl⟩ := Nat.exists_eq_add_of_lt wanted
  exact if_pos can

theorem steal_cons_not (wanted : 0 < chunksize) (cannot : t.stealable = false) :
    steal chunksize (t :: rest) = ((steal chunksize rest).1, t :: (steal chunksize rest).2) := by
  obtain ⟨k, rfl⟩ := Nat.exists_eq_add_of_lt wanted
  exact if_neg (Bool.eq_false_iff.mp cannot)

theorem passed_cons (wanted : 0 < chunksize) (nonempty : rest ≠ []) (can : t.stealable = true) :
    passed chunksize (t :: rest) = passed (chunksize - 1) rest := by
  obtain ⟨k, rfl⟩ := Nat.exists_eq_add_of_lt wanted
  obtain ⟨next, others, rfl⟩ := List.exists_cons_of_ne_nil nonempty
  exact if_pos can

theorem passed_cons_not (wanted : 0 < chunksize) (nonempty : rest ≠ []) (cannot : t.stealable = false) :
    passed chunksize (t :: rest) = passed chunksize rest + 1 := by
  obtain ⟨k, rfl⟩ := Nat.exists_eq_add_of_lt wanted
  obtain ⟨next, others, rfl⟩ := List.exists_cons_of_ne_nil nonempty
  exact if_neg (Bool.eq_false_iff.mp cannot)

end Deque

namespace Queue

variable {q : Queue} {t : Task} {tasks rest : List Task} {chunksize : Nat}

theorem Settled.marked (settled : q.Settled tasks) (empty : Bool) : Settled { q with empty } tasks :=
  ⟨settled.toHolds.marked empty, settled.full⟩

theorem Settled.take (settled : q.Settled (t :: rest)) (nonempty : rest ≠ []) :
    (q.base (ringAt q.size q.bottom 1)).value = some t ∧ Settled { q with
      base := update q.base (ringAt q.size q.bottom 1) (q.cleared (ringAt q.size q.bottom 1))
      bottom := ringAt q.size q.bottom 1 } rest := by
  have fits := settled.fits
  rw [List.length_cons] at fits
  have length : 0 < rest.length := List.length_pos_iff.mpr nonempty
  have later (i : Nat) : ringAt q.size (ringAt q.size q.bottom 1) i = ringAt q.size q.bottom (1 + i) :=
    ringAt_ringAt
  have index : q.top.index = ringAt q.size (ringAt q.size q.bottom 1) rest.length := by
    rw [later, settled.index, List.length_cons, Nat.add_comm]
  have top : q.top.index ≠ ringAt q.size q.bottom 1 := by
    rw [index, later]
    exact ringAt_ne (by omega) (by omega) (by omega)
  have full : Window (slots (update q.base (ringAt q.size q.bottom 1)
      (q.cleared (ringAt q.size q.bottom 1)))) q.size (ringAt q.size (ringAt q.size q.bottom 1) 1)
      (rest.map Option.some) := by
    rw [slots_update]
    refine settled.full.2.update _ (ringAt_lt (by omega)) ?_
    intro i less
    rw [List.length_map] at less
    rw [ringAt_ringAt, later]
    exact ringAt_ne (by omega) (by omega) (by omega)
  have entry : update q.base (ringAt q.size q.bottom 1)
      (q.cleared (ringAt q.size q.bottom 1)) q.top.index = q.base q.top.index :=
    update_of_ne top _ _
  refine ⟨settled.full.1, ⟨settled.power, settled.room, settled.start_lt, Nat.lt_of_succ_lt fits,
    index, ?_, ?_, ?_, .inl fun _ => ?_⟩, full⟩
  · intro _
    rw [settled.value (List.cons_ne_nil t rest), List.getLast?_cons_of_ne_nil nonempty]
  · rcases List.eq_nil_or_concat' rest with rfl | ⟨front, last, rfl⟩
    · trivial
    · rw [List.dropLast_concat]
      rw [List.map_append] at full
      exact ((Window.append_iff (ringAt_lt (by omega))).mp full).1
  · intro i less
    by_cases here : i = ringAt q.size q.bottom 1
    · simp only [here, update_self]
      exact settled.plain _ settled.start_lt
    · simp only [update_of_ne here]
      exact settled.plain i less
  · simp only [slots, entry]
    exact settled.last (List.cons_ne_nil t rest)

theorem Settled.takeTop (settled : q.Settled [t]) : Settled { q with
    base := update q.base q.top.index (q.cleared q.top.index)
    top := { q.top with value := none, counter := (q.cleared q.top.index).counter }
    bottom := q.top.index
    empty := true } [] := by
  have positive : 0 < q.size := Nat.lt_of_le_of_lt (Nat.zero_le _) settled.bottom
  refine ⟨⟨settled.power, settled.room, settled.top_lt, positive, ?_, nofun, trivial, ?_,
    .inl nofun⟩, trivial⟩
  · exact (ringAt_zero settled.top_lt).symm
  · intro i less
    by_cases here : i = q.top.index
    · simp only [here, update_self]
      exact settled.plain _ settled.top_lt
    · simp only [update_of_ne here]
      exact settled.plain i less

structure Scanned (chunksize : Nat) (tasks : List Task) (now : Scan) (rest : List Task) : Prop where
  settled : now.queue.Settled rest
  current : now.current = ringAt now.queue.size now.queue.bottom 1
  room : rest.length + now.kept.length < now.queue.size
  result : Deque.steal chunksize tasks =
    (now.stolen ++ (Deque.steal (chunksize - now.stolen.length) rest).1,
      now.kept ++ (Deque.steal (chunksize - now.stolen.length) rest).2)
  passed : Deque.passed chunksize tasks =
    now.kept.length + Deque.passed (chunksize - now.stolen.length) rest

structure Left (chunksize : Nat) (tasks : List Task) (now : Scan) (rest : List Task) : Prop where
  settled : now.queue.Settled rest
  room : rest.length + now.kept.length < now.queue.size
  result : Deque.steal chunksize tasks = (now.stolen, now.kept ++ rest)

namespace Scanned

variable {now after : Scan} {rounds : Nat}

theorem stop (scanned : Scanned chunksize tasks now rest) (enough : ¬ now.stolen.length < chunksize) :
    Left chunksize tasks now rest where
  settled := scanned.settled
  room := scanned.room
  result := by
    have result := scanned.result
    rw [Nat.sub_eq_zero_of_le (Nat.le_of_not_lt enough), Deque.steal_zero, List.append_nil] at result
    exact result

theorem exhausted (scanned : Scanned chunksize tasks now []) :
    Left chunksize tasks { now with queue := { now.queue with empty := true } } [] where
  settled := scanned.settled.marked true
  room := scanned.room
  result := by
    have result := scanned.result
    rw [Deque.steal_nil, List.append_nil] at result
    exact result

theorem single (scanned : Scanned chunksize tasks now [t]) (wanted : now.stolen.length < chunksize)
    (can : t.stealable = true) : Left chunksize tasks
      ⟨{ now.queue with
          base := update now.queue.base now.queue.top.index
            (now.queue.cleared now.queue.top.index)
          top := { now.queue.top with
            value := none, counter := (now.queue.cleared now.queue.top.index).counter }
          bottom := now.queue.top.index
          empty := true }, now.current, now.stolen ++ [t], now.kept⟩ [] where
  settled := scanned.settled.takeTop
  room := Nat.lt_of_le_of_lt (Nat.add_le_add_right (Nat.zero_le _) _) scanned.room
  result := by
    have result := scanned.result
    rw [Deque.steal_cons (Nat.sub_pos_of_lt wanted) can, Deque.steal_nil] at result
    exact result

theorem single_not (scanned : Scanned chunksize tasks now [t]) (wanted : now.stolen.length < chunksize)
    (cannot : t.stealable = false) :
    Left chunksize tasks { now with queue := { now.queue with empty := true } } [t] where
  settled := scanned.settled.marked true
  room := scanned.room
  result := by
    have result := scanned.result
    rw [Deque.steal_cons_not (Nat.sub_pos_of_lt wanted) cannot, Deque.steal_nil, List.append_nil]
      at result
    exact result

def lifted (q : Queue) (current : Nat) : Queue :=
  { q with base := update q.base current (q.cleared current), bottom := current }

theorem more (scanned : Scanned chunksize tasks now (t :: rest)) (nonempty : rest ≠ [])
    (wanted : now.stolen.length < chunksize) (can : t.stealable = true) :
    Scanned chunksize tasks ⟨lifted now.queue now.current, (now.current + 1) % now.queue.size,
      now.stolen ++ [t], now.kept⟩ rest where
  settled := by
    rw [lifted, scanned.current]
    exact (scanned.settled.take nonempty).2
  current := rfl
  room := Nat.lt_of_succ_lt (by
    have room := scanned.room
    rwa [List.length_cons, Nat.add_right_comm] at room)
  result := by
    have result := scanned.result
    rw [Deque.steal_cons (Nat.sub_pos_of_lt wanted) can] at result
    rw [result, List.length_append, List.append_assoc, Nat.sub_sub]
    rfl
  passed := by
    rw [scanned.passed, Deque.passed_cons (Nat.sub_pos_of_lt wanted) nonempty can, List.length_append,
      Nat.sub_sub]
    rfl

theorem more_not (scanned : Scanned chunksize tasks now (t :: rest)) (nonempty : rest ≠ [])
    (wanted : now.stolen.length < chunksize) (cannot : t.stealable = false) :
    Scanned chunksize tasks ⟨lifted now.queue now.current, (now.current + 1) % now.queue.size,
      now.stolen, now.kept ++ [t]⟩ rest where
  settled := by
    rw [lifted, scanned.current]
    exact (scanned.settled.take nonempty).2
  current := rfl
  room := by
    have room := scanned.room
    rw [List.length_cons, Nat.add_right_comm] at room
    rw [List.length_append]
    exact room
  result := by
    have result := scanned.result
    rw [Deque.steal_cons_not (Nat.sub_pos_of_lt wanted) cannot] at result
    rw [result, List.append_assoc]
    rfl
  passed := by
    rw [scanned.passed, Deque.passed_cons_not (Nat.sub_pos_of_lt wanted) nonempty cannot,
      List.length_append, List.length_singleton, Nat.add_assoc, Nat.add_comm 1]

section

variable (scanned : Scanned chunksize tasks now rest)
include scanned

theorem round (rounds : Nat) :
    (∃ after last, scan chunksize (rounds + 1) now = some after ∧ Left chunksize tasks after last) ∨
    (∃ next more, more.length + 1 = rest.length ∧ more ≠ [] ∧ Scanned chunksize tasks next more ∧
      scan chunksize (rounds + 1) now = scan chunksize rounds next) ∨
    scan chunksize (rounds + 1) now = none ∧ stealBufferLength < Deque.passed chunksize tasks := by
  obtain ⟨q, current, stolen, kept⟩ := now
  have settled : q.Settled rest := scanned.settled
  have here : current = ringAt q.size q.bottom 1 := scanned.current
  by_cases wanted : stolen.length < chunksize
  · cases rest with
    | nil =>
      have at_ : q.bottom = q.top.index := (settled.empty_iff.mpr rfl).symm
      refine .inl ⟨_, [], ?_, scanned.exhausted⟩
      simp only [scan, if_pos wanted, if_pos at_]
    | cons t more =>
      have away : ¬ q.bottom = q.top.index :=
        fun same => List.cons_ne_nil t more (settled.empty_iff.mp same.symm)
      cases more with
      | nil =>
        have at_ : current = q.top.index := here.trans settled.index.symm
        have value : q.top.value = some t := settled.value (List.cons_ne_nil t [])
        cases can : t.stealable with
        | true =>
          refine .inl ⟨_, [], ?_, scanned.single wanted can⟩
          simp only [scan, if_pos wanted, if_neg away, value, can, if_true, at_]
        | false =>
          refine .inl ⟨_, [t], ?_, scanned.single_not wanted can⟩
          simp only [scan, if_pos wanted, if_neg away, if_pos at_, value, can, Bool.false_eq_true,
            if_false]
      | cons next others =>
        have nonempty : next :: others ≠ [] := List.cons_ne_nil next others
        have under : ¬ current = q.top.index := by
          rw [here, settled.index]
          have fits := settled.fits
          simp only [List.length_cons] at fits
          exact ringAt_ne (by omega) (by omega) (by simp only [List.length_cons]; omega)
        have value : (q.base current).value = some t := by
          rw [here]
          exact (settled.take nonempty).1
        cases can : t.stealable with
        | true =>
          refine .inr (.inl ⟨_, next :: others, rfl, nonempty, scanned.more nonempty wanted can, ?_⟩)
          simp only [scan, if_pos wanted, if_neg away, if_neg under, value, can, if_true, lifted]
        | false =>
          by_cases long : kept.length = stealBufferLength
          · refine .inr (.inr ⟨?_, ?_⟩)
            · simp only [scan, if_pos wanted, if_neg away, if_neg under, value, can,
                Bool.false_eq_true, if_false, if_pos long]
            · rw [scanned.passed, Deque.passed_cons_not (Nat.sub_pos_of_lt wanted) nonempty can, long]
              omega
          · refine .inr (.inl ⟨_, next :: others, rfl, nonempty, scanned.more_not nonempty wanted can, ?_⟩)
            simp only [scan, if_pos wanted, if_neg away, if_neg under, value, can,
              Bool.false_eq_true, if_false, if_neg long, lifted]
  · refine .inl ⟨_, rest, ?_, scanned.stop wanted⟩
    simp only [scan, if_neg wanted]

theorem left
    (done : scan chunksize rounds now = some after) : ∃ last, Left chunksize tasks after last := by
  induction rounds generalizing now rest with
  | zero => cases done
  | succ rounds ih =>
    rcases scanned.round rounds with ⟨other, last, ended, left⟩ | ⟨next, more, -, -, onward, same⟩ |
      ⟨failed, -⟩
    · rw [ended] at done
      cases done
      exact ⟨last, left⟩
    · rw [same] at done
      exact ih onward done
    · rw [failed] at done
      cases done

theorem ends (positive : 0 < rounds)
    (enough : rest.length ≤ rounds) (short : Deque.passed chunksize tasks ≤ stealBufferLength) :
    ∃ after, scan chunksize rounds now = some after := by
  induction rounds generalizing now rest with
  | zero => cases positive
  | succ rounds ih =>
    rcases scanned.round rounds with ⟨other, last, ended, -⟩ | ⟨next, more, fewer, nonempty, onward, same⟩ |
      ⟨-, long⟩
    · exact ⟨other, ended⟩
    · rw [same]
      have length := List.length_pos_iff.mpr nonempty
      exact ih onward (by omega) (by omega)
    · exact absurd short (Nat.not_le.mpr long)

end

end Scanned

theorem Holds.scanned (holds : q.Holds tasks) : Scanned chunksize tasks
    ⟨q.finish, (q.finish.bottom + 1) % q.size, [], []⟩ tasks where
  settled := holds.finish
  current := by
    rw [finish_size]
    rfl
  room := holds.finish.fits
  result := rfl
  passed := (Nat.zero_add _).symm

theorem Holds.putBack (holds : q.Holds rest) (nonempty : rest ≠ []) (kept : List Task)
    (room : rest.length + kept.length < q.size) :
    (Queue.putBack kept q).Holds (kept.reverse ++ rest) := by
  induction kept generalizing q rest with
  | nil => exact holds
  | cons t others ih =>
    rw [List.length_cons] at room
    have lower : Holds { q with
        base := update q.base q.bottom { q.base q.bottom with value := some t }
        bottom := down q.size q.bottom } (t :: rest) := by
      refine holds.lower nonempty (by omega) ?_ ?_ ?_ q.empty
      · rw [update_self]
      · intro i old _
        exact update_of_ne old _ _
      · intro i less
        by_cases old : i = q.bottom
        · simp only [old, update_self]
          exact holds.plain _ holds.bottom
        · rw [update_of_ne old]
          exact holds.plain i less
    have all := ih lower (List.cons_ne_nil t rest) (by
      rw [List.length_cons]
      simp only
      omega)
    rw [List.reverse_cons, List.append_assoc]
    exact all

theorem Settled.enqueueUnstealable (settled : q.Settled rest) (kept : List Task)
    (room : rest.length + kept.length < q.size) : (q.enqueueUnstealable kept).Holds (kept ++ rest) := by
  rcases List.eq_nil_or_concat' kept with rfl | ⟨front, t, rfl⟩
  · exact settled.toHolds
  · have backwards : (front ++ [t]).reverse = t :: front.reverse := by
      rw [List.reverse_append]
      rfl
    rw [Queue.enqueueUnstealable, if_neg (List.concat_ne_nil t front)]
    by_cases empty : q.top.index = q.bottom
    · obtain rfl := settled.empty_iff.mp empty
      rw [if_pos empty, backwards, List.getLast?_concat, Queue.putBack]
      have first : Holds { q with
          base := update q.base q.bottom { q.base q.bottom with value := some t }
          top := { q.top with value := some t }
          bottom := down q.size q.bottom } [t] := by
        refine ⟨settled.power, settled.room, ?_, settled.room, ?_, fun _ => rfl, trivial, ?_, ?_⟩
        · exact Nat.mod_lt _ (Nat.lt_of_le_of_lt (Nat.zero_le _) settled.bottom)
        · rw [List.length_singleton]
          simp only [empty]
          rw [settled.toHolds.ringAt_down 0, ringAt_zero settled.bottom]
        · intro i less
          by_cases old : i = q.bottom
          · simp only [old, update_self]
            exact settled.plain _ settled.bottom
          · simp only [update_of_ne old]
            exact settled.plain i less
        · exact .inl fun _ => by simp only [empty, slots, update_self]
      have all := first.putBack (List.cons_ne_nil t []) front.reverse (by
        rw [List.length_append] at room
        rw [List.length_reverse]
        simp only [List.length_singleton, List.length_nil] at room ⊢
        omega)
      rw [List.reverse_reverse] at all
      rw [List.append_nil]
      exact all
    · rw [if_neg empty]
      have nonempty : rest ≠ [] := fun vacant => empty (settled.empty_iff.mpr vacant)
      have all := settled.toHolds.putBack nonempty (front ++ [t]).reverse (by rwa [List.length_reverse])
      rwa [List.reverse_reverse] at all

theorem Holds.contents (holds : q.Holds tasks) : q.contents = tasks.map some := by
  rcases List.eq_nil_or_concat' tasks with rfl | ⟨front, t, rfl⟩
  · rw [Queue.contents, if_pos (holds.empty_iff.mpr rfl)]
    rfl
  · have nonempty : front ++ [t] ≠ [] := List.concat_ne_nil t front
    have value := holds.value nonempty
    have window := holds.window
    have fits := holds.fits
    have bottom := holds.bottom
    rw [List.getLast?_concat] at value
    rw [List.dropLast_concat] at window
    rw [List.length_append, List.length_singleton] at fits
    have count : (q.top.index + q.size - q.bottom) % q.size = front.length + 1 := by
      have index := holds.index
      rw [List.length_append, List.length_singleton, ringAt] at index
      rw [index]
      by_cases wraps : q.bottom + (front.length + 1) < q.size
      · rw [Nat.mod_eq_of_lt wraps, show q.bottom + (front.length + 1) + q.size - q.bottom =
          front.length + 1 + q.size by omega, Nat.add_mod_right, Nat.mod_eq_of_lt fits]
      · have once : (q.bottom + (front.length + 1)) % q.size =
            q.bottom + (front.length + 1) - q.size := by
          rw [Nat.mod_eq_sub_mod (Nat.le_of_not_lt wraps), Nat.mod_eq_of_lt (by omega)]
        rw [once, Nat.mod_eq_of_lt (by omega)]
        omega
    rw [Queue.contents, if_neg fun same => nonempty (holds.empty_iff.mp same), count, value,
      List.map_append, Nat.add_sub_cancel]
    congr 1
    refine List.ext_getElem? fun i => ?_
    by_cases less : i < front.length
    · have slot := (Window.iff_get holds.start_lt).mp window i (Option.some front[i]) (by
        rw [List.getElem?_map, List.getElem?_eq_getElem less]
        rfl)
      rw [ringAt_ringAt, Nat.add_comm] at slot
      rw [List.getElem?_map, List.getElem?_map, List.getElem?_range less,
        List.getElem?_eq_getElem less]
      exact congrArg Option.some slot
    · rw [List.getElem?_eq_none (by simpa using less), List.getElem?_eq_none (by simpa using less)]

section

variable (holds : q.Holds tasks)
include holds

theorem Holds.steal_none (marked : q.Marked (.dequeueSteal chunksize []))
    (empty : q.empty = true) : Deque.steal chunksize tasks = ([], tasks) := by
  refine Deque.steal_none fun t member => ?_
  refine marked empty t ?_
  rw [holds.contents]
  exact List.mem_map_of_mem member

theorem Holds.dequeueSteal {stolen : List Task} {after : Queue}
    (marked : q.Marked (.dequeueSteal chunksize stolen))
    (done : q.dequeueSteal chunksize = some (stolen, after)) :
    ∃ left, Deque.steal chunksize tasks = (stolen, left) ∧ after.Holds left := by
  cases empty : q.empty with
  | true =>
    rw [Queue.dequeueSteal, if_pos empty] at done
    cases done
    exact ⟨tasks, holds.steal_none marked empty, holds⟩
  | false =>
    rw [Queue.dequeueSteal, if_neg (Bool.eq_false_iff.mp empty)] at done
    cases ended : scan chunksize q.size ⟨q.finish, (q.finish.bottom + 1) % q.size, [], []⟩ with
    | none =>
      rw [ended] at done
      cases done
    | some found =>
      obtain ⟨queue, current, taken, kept⟩ := found
      rw [ended] at done
      cases done
      obtain ⟨last, left⟩ := holds.scanned.left ended
      exact ⟨kept ++ last, left.result, left.settled.enqueueUnstealable kept left.room⟩

theorem Holds.dequeueSteal_exists (short : Deque.passed chunksize tasks ≤ stealBufferLength) :
    ∃ stolen after, q.dequeueSteal chunksize = some (stolen, after) := by
  cases empty : q.empty with
  | true => exact ⟨[], q, if_pos empty⟩
  | false =>
    obtain ⟨found, ended⟩ := holds.scanned.ends (Nat.lt_of_lt_of_le Nat.zero_lt_two holds.room)
      (Nat.le_of_lt holds.fits) short
    rw [Queue.dequeueSteal, if_neg (Bool.eq_false_iff.mp empty), ended]
    exact ⟨_, _, rfl⟩

theorem Holds.step {label : Label} {after : Queue} (fits : q.Fits label)
    (marked : q.Marked label) (step : q.Step label after) :
    ∃ left, Deque.Step tasks label left ∧ after.Holds left := by
  cases label with
  | enqueue t =>
    cases step
    exact ⟨tasks ++ [t], rfl, holds.enqueue fits⟩
  | enqueueYielded t =>
    cases step
    exact ⟨t :: tasks, rfl, holds.enqueueYielded fits⟩
  | getThread worker t => exact holds.getThread step
  | dequeueSteal chunksize stolen => exact holds.dequeueSteal marked step

theorem Holds.run {labels : List Label} {last : Queue}
    (run : Run (Guarded (fun q label => q.Fits label ∧ q.Marked label) Step) q labels last) :
    ∃ left, Run Deque.Step tasks labels left ∧ last.Holds left :=
  run.simulates (fun _ _ _ _ holds taken => holds.step taken.1.1 taken.1.2 taken.2) holds

end

end Queue

open Queue

/-- While nothing is to be stolen from a queue that is marked empty and has a task that can be stolen,
every run is one of the sequence, the ring holds what the sequence does, and the operations that take
tasks come to an end. -/
theorem deque_unless_wrongly_marked {labels : List Label} {last : Queue}
    (run : Run (Guarded (fun q label => q.Fits label ∧ q.Marked label) Step) new labels last) :
    ∃ tasks, Run Deque.Step [] labels tasks ∧ last.contents = tasks.map some ∧
      (∀ worker front t, tasks = front ++ [t] → (t.realMccoy = true → worker = some 0) →
        ∃ after, last.Step (.getThread worker t) after) ∧
      ∀ chunksize, Deque.passed chunksize tasks ≤ stealBufferLength →
        ∃ stolen after, last.Step (.dequeueSteal chunksize stolen) after := by
  obtain ⟨tasks, abstract, holds⟩ := new_holds.run run
  refine ⟨tasks, abstract, holds.contents, ?_, fun _ short => holds.dequeueSteal_exists short⟩
  rintro worker front t rfl mine
  exact holds.getThread_exists mine

def freeTask : Task := ⟨1, false, false, false, false⟩

def Task.numbered (t : Task) (id : Nat) : Task := { t with id }

/-- Three tasks are enqueued, the last one is popped, and of the two others the first is stolen. -/
theorem deque_unless_wrongly_marked_stolen : ∃ (last : Queue) (tasks : List Task),
    Run Deque.Step [] [.enqueue freeTask, .enqueue (freeTask.numbered 2),
        .enqueue (freeTask.numbered 3), .getThread none (freeTask.numbered 3),
        .dequeueSteal 1 [freeTask]] tasks ∧
      last.contents = tasks.map some ∧
      (∀ worker front t, tasks = front ++ [t] → (t.realMccoy = true → worker = some 0) →
        ∃ after, last.Step (.getThread worker t) after) ∧
      ∀ chunksize, Deque.passed chunksize tasks ≤ stealBufferLength →
        ∃ stolen after, last.Step (.dequeueSteal chunksize stolen) after :=
  ⟨_, deque_unless_wrongly_marked <|
    .cons ⟨⟨fun _ => by decide, trivial⟩, rfl⟩ <| .cons ⟨⟨fun _ => by decide, trivial⟩, rfl⟩ <|
    .cons ⟨⟨fun _ => by decide, trivial⟩, rfl⟩ <| .cons ⟨⟨trivial, trivial⟩, rfl⟩ <|
    .cons ⟨⟨(by decide : 1 ≤ stealBufferLength), fun empty => absurd empty (by decide)⟩, rfl⟩ <| .nil _⟩

/-- A task that comes as a yielded one to an empty queue cannot be stolen, since the queue stays marked
empty. -/
theorem hides_yielded_task :
    ∃ last, Run (Guarded Fits Step) new [.enqueueYielded freeTask, .dequeueSteal 1 []] last ∧
      ¬ ∃ tasks, Run Deque.Step [] [.enqueueYielded freeTask, .dequeueSteal 1 []] tasks := by
  refine ⟨new.enqueueYielded freeTask,
    .cons ⟨fun _ => by decide, rfl⟩ (.cons ⟨Nat.zero_le _, rfl⟩ (.nil _)), ?_⟩
  rintro ⟨tasks, run⟩
  cases run with
  | cons first rest =>
    cases first
    cases rest with
    | cons second _ =>
      have taken : (Deque.steal 1 [freeTask]).1 = [] := congrArg Prod.fst second
      exact absurd taken (by decide)

end Qthreads.Nottingham
