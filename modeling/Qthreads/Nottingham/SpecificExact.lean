import Qthreads.Nottingham.Specific

namespace Qthreads.Nottingham

open Lib

namespace Queue

variable {ret : Task → Nat} {q : Queue} {t last : Task} {tasks front back : List Task} {value : Nat}

theorem ringAt_cases {size start i : Nat} (inside : start < size) (less : i ≤ size) :
    start + i < size ∧ ringAt size start i = start + i ∨
      size ≤ start + i ∧ ringAt size start i = start + i - size := by
  by_cases wraps : start + i < size
  · exact .inl ⟨wraps, Nat.mod_eq_of_lt wraps⟩
  · refine .inr ⟨Nat.le_of_not_lt wraps, ?_⟩
    rw [ringAt, Nat.mod_eq_sub_mod (Nat.le_of_not_lt wraps), Nat.mod_eq_of_lt (by omega)]

theorem Holds.down_top (holds : q.Holds tasks) (positive : 0 < q.top.index) :
    down q.size q.top.index = q.top.index - 1 := by
  have less := holds.top_lt
  rw [down_eq holds.power]
  have back := @ringAt_cases q.size q.top.index (q.size - 1) less (by omega)
  omega

theorem Holds.sees {label : Label} {after : Queue} (holds : q.Holds tasks) (fits : q.Fits label)
    (step : q.Step label after) : ∃ left, Deque.Sees tasks label left ∧ after.Holds left := by
  have settle (marked : q.Marked label) : ∃ left, Deque.Sees tasks label left ∧ after.Holds left := by
    obtain ⟨left, done, held⟩ := holds.step fits marked step
    exact ⟨left, .inl done, held⟩
  cases label with
  | enqueue t => exact settle trivial
  | enqueueYielded t => exact settle trivial
  | getThread worker t => exact settle trivial
  | dequeueSteal chunksize stolen =>
    cases empty : q.empty with
    | false => exact settle fun marked => absurd marked (by rw [empty]; nofun)
    | true =>
      obtain ⟨rfl, rfl⟩ := Prod.mk.inj (Option.some.inj ((if_pos empty).symm.trans step))
      exact ⟨tasks, .inr ⟨⟨chunksize, rfl⟩, rfl⟩, holds⟩

theorem Holds.sees_run {labels : List Label} {last : Queue} (holds : q.Holds tasks)
    (run : Run (Guarded Fits Step) q labels last) :
    ∃ left, Run Deque.Sees tasks labels left ∧ last.Holds left :=
  run.simulates (fun _ _ _ _ holds taken => holds.sees taken.1 taken.2) holds

theorem Holds.behaves (holds : q.Holds tasks) : q.Behaves tasks := by
  intro labels last run
  obtain ⟨left, served, held⟩ := holds.sees_run run
  refine ⟨left, served, ?_, fun chunksize short => held.dequeueSteal_exists short, ?_⟩
  · rintro worker front t rfl mine
    exact held.getThread_exists mine
  · intro chunksize stolen after marked step
    obtain ⟨rest, stole, -⟩ := held.dequeueSteal marked step
    rw [stole]

theorem Settled.slot (settled : q.Settled tasks) {i : Nat} (at_ : tasks[i]? = some t) :
    (q.base (ringAt q.size q.bottom (i + 1))).value = some t := by
  have slot := (Window.iff_get settled.start_lt).mp settled.full i (some t) (by
    rw [List.getElem?_map, at_]
    rfl)
  rw [ringAt_ringAt, Nat.add_comm] at slot
  exact slot

theorem Settled.search_next {rounds : Nat} (settled : q.Settled (front ++ t :: (back ++ [last]))) :
    q.search ret value (rounds + 1) (ringAt q.size q.bottom (front.length + 1)) =
      if ret t = value then some (some t, q.takeOut (ringAt q.size q.bottom (front.length + 1)))
      else q.search ret value rounds (ringAt q.size q.bottom ((front ++ [t]).length + 1)) := by
  have fits := settled.fits
  simp only [List.length_append, List.length_cons, List.length_nil] at fits
  have under : ¬ ringAt q.size q.bottom (front.length + 1) = q.top.index := by
    rw [settled.index]
    simp only [List.length_append, List.length_cons, List.length_nil]
    exact ringAt_ne (by omega) (by omega) (by omega)
  have slot := @Settled.slot _ t _ settled front.length (by simp)
  have next : (ringAt q.size q.bottom (front.length + 1) + 1) % q.size =
      ringAt q.size q.bottom ((front ++ [t]).length + 1) := by
    rw [List.length_append]
    exact ringAt_ringAt
  rw [search, if_neg under, slot]
  simp only [next]

theorem Settled.search_none {late : List Task} {rounds : Nat}
    (settled : q.Settled (front ++ (late ++ [last]))) (other : ∀ u ∈ late, ret u ≠ value)
    (enough : late.length < rounds) :
    q.search ret value rounds (ringAt q.size q.bottom (front.length + 1)) = some (none, q) := by
  obtain ⟨rounds, rfl⟩ := Nat.exists_eq_succ_of_ne_zero (Nat.ne_of_gt (Nat.zero_lt_of_lt enough))
  induction late generalizing front rounds with
  | nil =>
    have top : ringAt q.size q.bottom (front.length + 1) = q.top.index := by
      rw [settled.index, List.nil_append, List.length_append]
      rfl
    rw [search, if_pos top]
  | cons u rest ih =>
    have more := Nat.lt_of_succ_lt_succ enough
    obtain ⟨rounds, rfl⟩ := Nat.exists_eq_succ_of_ne_zero (Nat.ne_of_gt (Nat.zero_lt_of_lt more))
    have whole : front ++ (u :: rest ++ [last]) = (front ++ [u]) ++ (rest ++ [last]) := by simp
    rw [settled.search_next, if_neg (other u List.mem_cons_self)]
    exact ih (whole ▸ settled) (fun v member => other v (List.mem_cons_of_mem _ member)) rounds more

theorem Settled.search_some {early : List Task} {rounds : Nat}
    (settled : q.Settled (front ++ (early ++ t :: (back ++ [last]))))
    (other : ∀ u ∈ early, ret u ≠ value) (wanted : ret t = value) (enough : early.length < rounds) :
    q.search ret value rounds (ringAt q.size q.bottom (front.length + 1)) =
      some (some t, q.takeOut (ringAt q.size q.bottom (front.length + early.length + 1))) := by
  obtain ⟨rounds, rfl⟩ := Nat.exists_eq_succ_of_ne_zero (Nat.ne_of_gt (Nat.zero_lt_of_lt enough))
  induction early generalizing front rounds with
  | nil =>
    rw [List.nil_append] at settled
    rw [settled.search_next, if_pos wanted]
    rfl
  | cons u rest ih =>
    have more := Nat.lt_of_succ_lt_succ enough
    obtain ⟨rounds, rfl⟩ := Nat.exists_eq_succ_of_ne_zero (Nat.ne_of_gt (Nat.zero_lt_of_lt more))
    have below : q.Settled (front ++ u :: (rest ++ t :: back ++ [last])) := by
      simpa using settled
    have whole : front ++ (u :: rest ++ t :: (back ++ [last])) =
        (front ++ [u]) ++ (rest ++ t :: (back ++ [last])) := by simp
    have found := ih (whole ▸ settled) (fun v member => other v (List.mem_cons_of_mem _ member))
      rounds more
    have count : (front ++ [u]).length + rest.length = front.length + (u :: rest).length := by
      simp only [List.length_append, List.length_cons, List.length_nil]
      omega
    rw [below.search_next, if_neg (other u List.mem_cons_self), found, count]

section

variable (settled : q.Settled (front ++ t :: (back ++ [last])))
include settled

theorem Settled.top_value : q.top.value = some last := by
  rw [settled.value (by simp), ← List.cons_append, ← List.append_assoc, List.getLast?_concat]

theorem Settled.kept_slot {i : Nat} {u : Task} (at_ : (front ++ back)[i]? = some u) :
    i < front.length ∧ (q.base (ringAt q.size q.bottom (i + 1))).value = some u ∨
      front.length ≤ i ∧ i < front.length + back.length ∧
        (q.base (ringAt q.size q.bottom (i + 2))).value = some u := by
  by_cases early : i < front.length
  · rw [List.getElem?_append_left early] at at_
    refine .inl ⟨early, settled.slot ?_⟩
    rw [List.getElem?_append_left early]
    exact at_
  · have less := (List.getElem?_eq_some_iff.mp at_).1
    rw [List.length_append] at less
    rw [List.getElem?_append_right (Nat.le_of_not_lt early)] at at_
    refine .inr ⟨Nat.le_of_not_lt early, less, settled.slot ?_⟩
    rw [List.getElem?_append_right (by omega), Nat.sub_add_comm (Nat.le_of_not_lt early),
      List.getElem?_cons_succ, List.getElem?_append_left (by omega)]
    exact at_

theorem Settled.takeOut_below (below : ringAt q.size q.bottom (front.length + 1) < q.top.index) :
    let after := q.takeOut (ringAt q.size q.bottom (front.length + 1))
    (after.top = { q.top with index := q.top.index - 1 } ∧ after.bottom = q.bottom ∧
      after.size = q.size ∧ after.base (q.top.index - 1) = q.base (q.top.index - 1)) ∧
    ((q.top.counter = (q.base (q.top.index - 1)).counter + 1 ∨
      (q.base (q.top.index - 1)).value = q.top.value) → after.Holds (front ++ (back ++ [last]))) := by
  have fits := settled.fits
  have index := settled.index
  have inside := settled.bottom
  simp only [List.length_append, List.length_cons, List.length_nil, Nat.zero_add] at fits index
  have here := @ringAt_cases q.size q.bottom (front.length + 1) inside (by omega)
  have there := @ringAt_cases q.size q.bottom (front.length + (back.length + 1 + 1)) inside (by omega)
  rw [← index] at there
  have apart : q.top.index = ringAt q.size q.bottom (front.length + 1) + back.length + 1 := by omega
  have lower := settled.down_top (by omega)
  have same : slideDown q.base (ringAt q.size q.bottom (front.length + 1))
      (q.top.index - ringAt q.size q.bottom (front.length + 1) - 1) (q.top.index - 1) =
        q.base (q.top.index - 1) := if_neg (by omega)
  rw [takeOut, if_pos below, lower]
  refine ⟨⟨rfl, rfl, rfl, same⟩, fun caught => ⟨settled.power, settled.room, inside, ?_, ?_, ?_, ?_, ?_, ?_⟩⟩
  · simp only [List.length_append, List.length_cons, List.length_nil, Nat.zero_add]
    omega
  · simp only [List.length_append, List.length_cons, List.length_nil, Nat.zero_add]
    have next := @ringAt_cases q.size q.bottom (front.length + (back.length + 1)) inside (by omega)
    omega
  · intro _
    rw [← List.append_assoc, List.getLast?_concat]
    exact settled.top_value
  · rw [← List.append_assoc, List.dropLast_concat]
    refine (Window.iff_get settled.start_lt).mpr fun i task found => ?_
    rw [List.getElem?_map] at found
    obtain ⟨u, at_, rfl⟩ := Option.map_eq_some_iff.mp found
    rw [ringAt_ringAt, Nat.add_comm 1]
    obtain ⟨early, slot⟩ | ⟨late, less, slot⟩ := settled.kept_slot at_
    · have at' := @ringAt_cases q.size q.bottom (i + 1) inside (by omega)
      simp only [slots, slideDown]
      rw [if_neg (by omega)]
      exact slot
    · have at' := @ringAt_cases q.size q.bottom (i + 1) inside (by omega)
      have next := @ringAt_cases q.size q.bottom (i + 2) inside (by omega)
      have shifted : ringAt q.size q.bottom (i + 1) + 1 = ringAt q.size q.bottom (i + 2) := by omega
      simp only [slots, slideDown]
      rw [if_pos (by omega), shifted]
      exact slot
  · intro i less
    simp only [slideDown]
    split
    · exact settled.plain _ (by have := settled.top_lt; omega)
    · exact settled.plain i less
  · simp only [slots, same]
    rcases caught with ahead | carried
    · exact .inr ahead
    · exact .inl fun _ => carried

theorem Settled.takeOut_above (above : ¬ ringAt q.size q.bottom (front.length + 1) < q.top.index) :
    (q.takeOut (ringAt q.size q.bottom (front.length + 1))).Holds (front ++ (back ++ [last])) := by
  have fits := settled.fits
  have index := settled.index
  have inside := settled.bottom
  have whole := settled.last (by simp)
  simp only [List.length_append, List.length_cons, List.length_nil, Nat.zero_add] at fits index
  have here := @ringAt_cases q.size q.bottom (front.length + 1) inside (by omega)
  have there := @ringAt_cases q.size q.bottom (front.length + (back.length + 1 + 1)) inside (by omega)
  rw [← index] at there
  have next : (q.bottom + 1) % q.size = q.bottom + 1 := Nat.mod_eq_of_lt (by omega)
  rw [takeOut, if_neg above]
  refine ⟨settled.power, settled.room, Nat.mod_lt _ (by omega), ?_, ?_, ?_, ?_, ?_, ?_⟩
  · simp only [List.length_append, List.length_cons, List.length_nil, Nat.zero_add]
    omega
  · simp only [List.length_append, List.length_cons, List.length_nil, Nat.zero_add]
    refine index.trans ?_
    rw [show (q.bottom + 1) % q.size = ringAt q.size q.bottom 1 from rfl, ringAt_ringAt]
    congr 1
    omega
  · intro _
    rw [← List.append_assoc, List.getLast?_concat]
    exact settled.top_value
  · rw [← List.append_assoc, List.dropLast_concat]
    refine (Window.iff_get (ringAt_lt (Nat.zero_lt_of_lt inside))).mpr fun i task found => ?_
    rw [List.getElem?_map] at found
    obtain ⟨u, at_, rfl⟩ := Option.map_eq_some_iff.mp found
    have place : ringAt q.size (ringAt q.size ((q.bottom + 1) % q.size) 1) i =
        ringAt q.size q.bottom (i + 2) := by
      rw [show (q.bottom + 1) % q.size = ringAt q.size q.bottom 1 from rfl, ringAt_ringAt, ringAt_ringAt]
      congr 1
      omega
    simp only [place]
    obtain ⟨early, slot⟩ | ⟨late, less, slot⟩ := settled.kept_slot at_
    · have at' := @ringAt_cases q.size q.bottom (i + 1) inside (by omega)
      have next := @ringAt_cases q.size q.bottom (i + 2) inside (by omega)
      have shifted : ringAt q.size q.bottom (i + 2) - 1 = ringAt q.size q.bottom (i + 1) := by omega
      simp only [slots, slideUp]
      rw [if_pos (by omega), shifted]
      exact slot
    · have next := @ringAt_cases q.size q.bottom (i + 2) inside (by omega)
      simp only [slots, slideUp]
      rw [if_neg (by omega)]
      exact slot
  · intro i less
    simp only [slideUp]
    split
    · exact settled.plain _ (by simp only at less; omega)
    · exact settled.plain i less
  · refine .inl fun _ => ?_
    simp only [slots, slideUp]
    rw [if_neg (by omega)]
    exact whole

end

theorem finish_base {i : Nat} (away : i ≠ q.top.index) : q.finish.base i = q.base i := by
  rcases @finish_cases q with same | written
  · rw [same]
  · rw [written]
    exact Function.update_of_ne away ..

theorem finish_of_stale (stale : q.top.counter ≠ (q.base q.top.index).counter + 1) : q.finish = q := by
  simp only [finish]
  split
  · rfl
  · split
    · rfl
    · refine if_neg fun same => stale ?_
      have back := congrArg Entry.counter same
      simp only at back
      rw [back, UInt32.sub_add_cancel]

theorem Holds.specific_none (holds : q.Holds tasks) (other : ∀ u ∈ tasks, ret u ≠ value) :
    q.dequeueSpecific ret value = some (none, q.finish) := by
  have settled := holds.finish
  rcases List.eq_nil_or_concat' tasks with rfl | ⟨front, last, rfl⟩
  · exact if_pos (settled.empty_iff.mpr rfl).symm
  · have present : ¬ q.finish.bottom = q.finish.top.index :=
      fun same => List.concat_ne_nil last front (settled.empty_iff.mp same.symm)
    have top : q.finish.top.value = some last := by
      rw [settled.value (List.concat_ne_nil last front), List.getLast?_concat]
    have fits := settled.fits
    rw [List.length_append] at fits
    have known := @Settled.search_none ret q.finish last [] value front q.finish.size settled
      (fun u member => other u (List.mem_append_left _ member)) (by omega)
    simp only [dequeueSpecific, if_neg present, top,
      if_neg (other last (List.mem_append_right _ List.mem_cons_self))]
    exact known

theorem Holds.specific_top (holds : q.Holds (front ++ [last])) (wanted : ret last = value) :
    ∃ after, q.dequeueSpecific ret value = some (some last, after) ∧ after.Holds front := by
  have settled := holds.finish
  have present : ¬ q.finish.bottom = q.finish.top.index :=
    fun same => List.concat_ne_nil last front (settled.empty_iff.mp same.symm)
  have top : q.finish.top.value = some last := by
    rw [settled.value (List.concat_ne_nil last front), List.getLast?_concat]
  simp only [dequeueSpecific, if_neg present, top, if_pos wanted]
  exact ⟨_, rfl, settled.pop _⟩

theorem Holds.specific_some (holds : q.Holds (front ++ t :: (back ++ [last])))
    (first : ∀ u ∈ front, ret u ≠ value) (wanted : ret t = value) (other : ret last ≠ value) :
    q.dequeueSpecific ret value =
      some (some t, q.finish.takeOut (ringAt q.finish.size q.finish.bottom (front.length + 1))) := by
  have settled := holds.finish
  have nonempty : front ++ t :: (back ++ [last]) ≠ [] := by simp
  have present : ¬ q.finish.bottom = q.finish.top.index :=
    fun same => nonempty (settled.empty_iff.mp same.symm)
  have fits := settled.fits
  rw [List.length_append] at fits
  have found := @Settled.search_some ret q.finish t last [] back value front q.finish.size settled first
    wanted (by omega)
  rw [List.length_nil, Nat.zero_add, Nat.zero_add] at found
  simp only [dequeueSpecific, if_neg present, settled.top_value, if_neg other]
  exact found

theorem Holds.catches (holds : q.Holds (front ++ t :: (back ++ [last])))
    (first : ∀ u ∈ front, ret u ≠ value) (wanted : ret t = value) (other : ret last ≠ value)
    (caught : q.Catches ret value)
    (below : ringAt q.finish.size q.finish.bottom (front.length + 1) < q.finish.top.index) :
    q.finish.top.counter = (q.finish.base (q.finish.top.index - 1)).counter + 1 ∨
      (q.finish.base (q.finish.top.index - 1)).value = q.finish.top.value := by
  rw [finish_size, finish_bottom, finish_top] at below
  rw [finish_top, finish_base (by omega)]
  exact caught front t back last holds.contents first wanted other below

theorem Deque.specific_cases (ret : Task → Nat) (value : Nat) (tasks : List Task) :
    (∀ u ∈ tasks, ret u ≠ value) ∨ (∃ front last, tasks = front ++ [last] ∧ ret last = value) ∨
      ∃ front t back last, tasks = front ++ t :: (back ++ [last]) ∧ (∀ u ∈ front, ret u ≠ value) ∧
        ret t = value ∧ ret last ≠ value := by
  rcases List.eq_nil_or_concat' tasks with rfl | ⟨below, last, rfl⟩
  · exact .inl nofun
  · by_cases wanted : ret last = value
    · exact .inr (.inl ⟨below, last, rfl, wanted⟩)
    · cases found : below.find? fun u => ret u = value with
      | none =>
        refine .inl fun u member => ?_
        rcases List.mem_append.mp member with inside | top
        · simpa using List.find?_eq_none.mp found u inside
        · rw [List.mem_singleton.mp top]
          exact wanted
      | some t =>
        obtain ⟨same, front, back, rfl, first⟩ := List.find?_eq_some_iff_append.mp found
        refine .inr (.inr ⟨front, t, back, last, ?_, ?_, ?_, wanted⟩)
        · rw [List.append_assoc]
          rfl
        · simpa using first
        · simpa using same

theorem Holds.dequeueSpecific (holds : q.Holds tasks) (caught : q.Catches ret value) :
    ∃ t after left, q.dequeueSpecific ret value = some (t, after) ∧
      Deque.Removes ret value tasks t left ∧ after.Holds left := by
  rcases Deque.specific_cases ret value tasks with
    other | ⟨front, last, rfl, wanted⟩ | ⟨front, t, back, last, rfl, first, wanted, other⟩
  · exact ⟨none, _, tasks, holds.specific_none other, ⟨other, rfl⟩, holds.finish.toHolds⟩
  · obtain ⟨after, ran, held⟩ := holds.specific_top wanted
    refine ⟨some last, after, front, ran, ⟨wanted, front, [], rfl, ?_⟩, held⟩
    rw [List.append_nil]
  · refine ⟨some t, _, front ++ (back ++ [last]), holds.specific_some first wanted other,
      ⟨wanted, front, back ++ [last], rfl, rfl⟩, ?_⟩
    by_cases below : ringAt q.finish.size q.finish.bottom (front.length + 1) < q.finish.top.index
    · exact (holds.finish.takeOut_below below).2 (holds.catches first wanted other caught below)
    · exact holds.finish.takeOut_above below

theorem Behaves.popped {u : Task} (behaves : q.Behaves (front ++ [last])) (differ : q.top.index ≠ q.bottom)
    (room : q.nextindex ≠ q.bottom) (back : down q.size q.nextindex = q.top.index)
    (away : q.top.index ≠ q.nextindex) (slot : (q.base q.top.index).value = some u)
    (stale : q.top.counter ≠ (q.base q.top.index).counter + 1) : u = last := by
  have still := finish_of_stale stale
  obtain ⟨pushed, enqueued, top, base, bottom, size⟩ : ∃ pushed, q.enqueue freeTask = pushed ∧
      pushed.top = ⟨Option.some freeTask, q.nextindex, (q.base q.nextindex).counter + 1⟩ ∧
      pushed.base = q.base ∧ pushed.bottom = q.bottom ∧ pushed.size = q.size := by
    refine ⟨_, rfl, ?_, ?_, ?_, ?_⟩ <;> simp only [enqueue, still, if_neg room]
  have full : pushed.top.index ≠ pushed.bottom := by
    rw [top, bottom]
    exact room
  have below : down pushed.finish.size pushed.finish.top.index = q.top.index := by
    rw [finish_size, finish_top, size, top]
    exact back
  have kept : pushed.finish.base q.top.index = q.base q.top.index := by
    rw [finish_base, base]
    rw [top]
    exact away
  have index : pushed.popped.top.index = q.top.index := below
  have value : pushed.popped.top.value = some u := by
    simp only [Queue.popped, below, kept, slot]
  have left : pushed.popped.top.index ≠ pushed.popped.bottom := by
    rw [index, show pushed.popped.bottom = q.bottom from finish_bottom.trans bottom]
    exact differ
  have first : pushed.getThread (Option.some 0) = some (freeTask, pushed.popped) :=
    getThread_eq full (congrArg Entry.value top) fun _ => rfl
  have second : pushed.popped.getThread (Option.some 0) = some (u, pushed.popped.popped) :=
    getThread_eq left value fun _ => rfl
  obtain ⟨tasks, served, -⟩ := behaves
    [.enqueue freeTask, .getThread (Option.some 0) freeTask, .getThread (Option.some 0) u] _ <|
      .cons ⟨fun nothing => absurd nothing room, enqueued.symm⟩ <|
        .cons ⟨trivial, first⟩ <| .cons ⟨trivial, second⟩ <| .nil _
  rcases served with _ | ⟨⟨push⟩ | ⟨⟨_, ⟨⟩⟩, _⟩, _ | ⟨⟨pop⟩ | ⟨⟨_, ⟨⟩⟩, _⟩, _ | ⟨⟨again⟩ | ⟨⟨_, ⟨⟩⟩, _⟩, _⟩⟩⟩
  have whole : _ = front ++ [last] ++ [freeTask] := push
  have one : _ = _ ++ [freeTask] := pop
  have two : _ = _ ++ [u] := again
  rw [whole] at one
  rw [← (List.append_inj' one rfl).1] at two
  exact (List.cons.inj (List.append_inj' two rfl).2).1.symm

theorem Holds.catches_of_removes (holds : q.Holds tasks) (removes : q.RemovesSpecific ret value tasks) :
    q.Catches ret value := by
  intro front t back last whole first wanted other below
  rw [holds.contents] at whole
  obtain rfl := (List.map_injective_iff.mpr (Option.some_injective _)) whole
  obtain ⟨found, after, left, ran, taken, behaves⟩ := removes
  have settled := holds.finish
  have took : some (found, after) = _ := ran.symm.trans (holds.specific_some first wanted other)
  obtain ⟨rfl, rfl⟩ := Prod.mk.inj (Option.some.inj took)
  have under : ringAt q.finish.size q.finish.bottom (front.length + 1) < q.finish.top.index := by
    rw [finish_size, finish_bottom, finish_top]
    exact below
  obtain ⟨⟨top, bottom, size, slot⟩, -⟩ := settled.takeOut_below under
  rw [finish_top] at top slot
  replace bottom := bottom.trans finish_bottom
  replace size := size.trans finish_size
  rw [finish_base (i := q.top.index - 1) (by omega)] at slot
  have fits := holds.fits
  have index := holds.index
  have inside := holds.bottom
  have value := holds.value (by simp)
  rw [← List.cons_append, ← List.append_assoc, List.getLast?_concat] at value
  simp only [List.length_append, List.length_cons, List.length_nil, Nat.zero_add] at fits index
  have here := @ringAt_cases q.size q.bottom (front.length + (back.length + 1 + 1)) inside (by omega)
  have prev := @ringAt_cases q.size q.bottom (front.length + back.length + 1) inside (by omega)
  rw [← index] at here
  have one_less : ringAt q.size q.bottom (front.length + back.length + 1) = q.top.index - 1 := by omega
  obtain ⟨u, at_⟩ : ∃ u, (front ++ t :: (back ++ [last]))[front.length + back.length]? = some u := by
    refine ⟨_, List.getElem?_eq_getElem ?_⟩
    simp only [List.length_append, List.length_cons, List.length_nil]
    omega
  have carried := settled.slot at_
  rw [finish_size, finish_bottom, one_less, finish_base (by omega)] at carried
  by_cases stale : q.top.counter = (q.base (q.top.index - 1)).counter + 1
  · exact .inl stale
  obtain ⟨early, late, split, rfl⟩ := taken.2
  obtain ⟨others, rfl⟩ : ∃ others, late = others ++ [last] := by
    rcases List.eq_nil_or_concat' late with rfl | ⟨others, final, rfl⟩
    · have same := congrArg List.getLast? split
      rw [← List.cons_append, ← List.append_assoc, List.getLast?_concat, List.getLast?_concat] at same
      cases same
      exact absurd taken.1 other
    · have same := congrArg List.getLast? split
      rw [← List.cons_append, ← List.append_assoc, List.getLast?_concat, ← List.cons_append,
        ← List.append_assoc, List.getLast?_concat] at same
      cases same
      exact ⟨others, rfl⟩
  rw [← List.append_assoc] at behaves
  have next : (q.finish.takeOut
      (ringAt q.finish.size q.finish.bottom (front.length + 1))).nextindex = q.top.index := by
    rw [nextindex, top, size, show q.top.index - 1 + 1 = q.top.index by omega]
    exact Nat.mod_eq_of_lt holds.top_lt
  have lower := holds.down_top (by omega)
  have same : u = last := by
    refine behaves.popped ?_ ?_ ?_ ?_ ?_ ?_
    · rw [top, bottom]
      simp only
      omega
    · rw [next, bottom]
      omega
    · rw [next, top, size]
      exact lower
    · rw [next, top]
      simp only
      omega
    · rw [top]
      simp only
      rw [slot]
      exact carried
    · rw [top]
      simp only
      rw [slot]
      exact stale
  right
  rw [carried, value, same]

theorem Holds.removesSpecific_iff (holds : q.Holds tasks) :
    q.RemovesSpecific ret value tasks ↔ q.Catches ret value := by
  refine ⟨holds.catches_of_removes, fun caught => ?_⟩
  obtain ⟨t, after, left, ran, removes, held⟩ := holds.dequeueSpecific caught
  exact ⟨t, after, left, ran, removes, held.behaves⟩

theorem Holds.calls {call : Call} {after : Queue} (holds : q.Holds tasks) (allowed : q.Allowed ret call)
    (called : q.Calls ret call after) : ∃ left, Deque.Calls ret tasks call left ∧ after.Holds left := by
  cases call with
  | other label => exact holds.sees allowed called
  | dequeueSpecific value t =>
    obtain ⟨found, next, left, ran, removes, held⟩ := holds.dequeueSpecific allowed
    cases Option.some.inj (ran.symm.trans called)
    exact ⟨left, removes, held⟩

theorem Holds.calls_run {calls : List Call} {last : Queue} (holds : q.Holds tasks)
    (run : Run (Guarded (Allowed ret) (Calls ret)) q calls last) :
    ∃ left, Run (Deque.Calls ret) tasks calls left ∧ last.Holds left :=
  run.simulates (fun _ _ _ _ holds taken => holds.calls taken.1 taken.2) holds

end Queue

open Queue

/-- In every queue that calls which meet the condition lead to, a specific task is taken out and the
others are left if and only if the call meets the condition too. -/
theorem removes_specific_iff_catches {ret : Task → Nat} {calls : List Call} {q : Queue}
    (run : Run (Guarded (Allowed ret) (Calls ret)) new calls q) :
    ∃ tasks, Run (Deque.Calls ret) [] calls tasks ∧ q.contents = tasks.map some ∧
      ∀ value, q.RemovesSpecific ret value tasks ↔ q.Catches ret value := by
  obtain ⟨tasks, served, holds⟩ := new_holds.calls_run run
  exact ⟨tasks, served, holds.contents, fun _ => holds.removesSpecific_iff⟩

def yieldedTask (id : Nat) : Task := ⟨id, true, false, false, false⟩

/-- Of three yielded tasks, which come to slots at the end of the array, the middle one is taken out;
the task at the top lies at the start of the array. -/
theorem removes_specific_iff_catches_between :
    ∃ q, Run (Guarded (Allowed Task.id) (Calls Task.id)) new
      [.other (.enqueue freeTask), .other (.enqueueYielded (yieldedTask 2)),
        .other (.enqueueYielded (yieldedTask 3)), .other (.enqueueYielded (yieldedTask 4))] q ∧
      q.RemovesSpecific Task.id 3 [yieldedTask 4, yieldedTask 3, yieldedTask 2, freeTask] := by
  have run : Run (Guarded (Allowed Task.id) (Calls Task.id)) new
      [.other (.enqueue freeTask), .other (.enqueueYielded (yieldedTask 2)),
        .other (.enqueueYielded (yieldedTask 3)), .other (.enqueueYielded (yieldedTask 4))] _ :=
    .cons ⟨fun _ => by decide, rfl⟩ <| .cons ⟨fun _ => by decide, rfl⟩ <|
      .cons ⟨fun _ => by decide, rfl⟩ <| .cons ⟨fun _ => by decide, rfl⟩ <| .nil _
  obtain ⟨tasks, -, whole, iff⟩ := removes_specific_iff_catches run
  have four : [yieldedTask 4, yieldedTask 3, yieldedTask 2, freeTask].map some = tasks.map some := by
    rw [← whole]
    decide
  obtain rfl := (List.map_injective_iff.mpr (Option.some_injective _)) four
  refine ⟨_, run, (iff 3).mpr fun front t back last split before found differs above => ?_⟩
  rw [whole] at split
  have split := (List.map_injective_iff.mpr (Option.some_injective _)) split
  rcases front with _ | ⟨first, _ | ⟨second, rest⟩⟩
  · obtain ⟨same, -⟩ := List.cons.inj split
    rw [← same] at found
    cases found
  · have beyond : ¬ 1023 < 1 := by decide
    exact absurd above beyond
  · obtain ⟨-, later⟩ := List.cons.inj split
    obtain ⟨same, -⟩ := List.cons.inj later
    exact absurd (congrArg Task.id same.symm) (before second (by simp))

/-- A task that was taken out is popped, and the one above it is lost. -/
theorem pops_specific_again : ∃ q, Run (Guarded (Allowed Task.id) (Calls Task.id)) new
    [.other (.enqueue ⟨1, false, false, false, false⟩), .other (.enqueue ⟨2, false, false, false, false⟩)]
      q ∧ q.contents = [some ⟨1, false, false, false, false⟩, some ⟨2, false, false, false, false⟩] ∧
        ¬ q.RemovesSpecific Task.id 1
          [⟨1, false, false, false, false⟩, ⟨2, false, false, false, false⟩] := by
  refine ⟨_, .cons ⟨fun _ => by decide, rfl⟩ <| .cons ⟨fun _ => by decide, rfl⟩ <| .nil _,
    by decide, ?_⟩
  rintro ⟨t, after, left, ran, taken, behaves⟩
  cases Option.some.inj ran
  obtain ⟨-, front, back, split, rfl⟩ := taken
  have left : front ++ back = [⟨2, false, false, false, false⟩] := by
    rcases front with _ | ⟨first, _ | ⟨second, rest⟩⟩
    · exact (List.cons.inj split).2.symm
    · cases split
    · have lengths := congrArg List.length split
      simp only [List.length_append, List.length_cons, List.length_nil] at lengths
      omega
  rw [left] at behaves
  have same := @Behaves.popped _ ⟨2, false, false, false, false⟩ [] ⟨1, false, false, false, false⟩ behaves
    (by decide) (by decide) (by decide) (by decide) (by decide) (by decide)
  exact absurd same (by decide)

end Qthreads.Nottingham
