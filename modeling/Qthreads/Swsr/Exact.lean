import Qthreads.Swsr.Machine

namespace Qthreads.Swsr

open Lib

structure Inv (s : State) (inside : List Elem) : Prop where
  room : 2 ≤ s.queue.size
  head : s.queue.head < s.queue.size
  fits : inside.length < s.queue.size
  tail : s.queue.tail = ringAt s.queue.size s.queue.head inside.length
  window : Window s.queue.elements s.queue.size s.queue.head inside
  whole : s.enqueued = s.taken ++ inside
  waits : ∀ n ∈ s.waited, n = 0
  refusals : ∀ n ∈ s.refused, n = s.queue.size - 1

def Writer.Knows (q : Queue) (inside : List Elem) : Writer → Prop
  | idle => True
  | test _ cur => cur = q.tail
  | spin _ cur => cur = q.tail
  | retest _ cur => cur = q.tail
  | store _ cur => cur = q.tail ∧ inside.length + 1 < q.size
  | publish elem cur => cur = q.tail ∧ inside.length + 1 < q.size ∧ q.elements cur = elem

def Reader.Knows (q : Queue) (inside : List Elem) : Reader → Prop
  | idle => True
  | test cur => cur = q.head
  | spin cur => cur = q.head
  | retest cur => cur = q.head
  | load cur => cur = q.head ∧ inside ≠ []
  | advance cur item => cur = q.head ∧ inside.head? = some item
  | empty _ => True

structure Good (s : State) (inside : List Elem) : Prop extends Inv s inside where
  writer : s.writer.Knows s.queue inside
  reader : s.reader.Knows s.queue inside

namespace Inv

variable {s : State} {inside : List Elem}

section

variable (inv : Inv s inside)
include inv

theorem tail_lt : s.queue.tail < s.queue.size := by
  rw [inv.tail]
  exact ringAt_lt (Nat.lt_of_le_of_lt (Nat.zero_le _) inv.head)

theorem stored_eq : s.stored = inside.length := by
  rw [State.stored, inv.whole, List.length_append, Nat.add_sub_cancel_left]

theorem full_iff : s.queue.next s.queue.tail = s.queue.head ↔ inside.length + 1 = s.queue.size := by
  rw [Queue.next, inv.tail, ringAt_ringAt]
  exact ringAt_succ_eq_start_iff inv.head inv.fits

theorem empty_iff : s.queue.head = s.queue.tail ↔ inside = [] := by
  rw [inv.tail]
  constructor
  · intro same
    have room : 0 < s.queue.size := Nat.lt_of_le_of_lt (Nat.zero_le _) inv.head
    have nothing := ringAt_inj room inv.fits ((ringAt_zero inv.head).trans same)
    exact List.length_eq_zero_iff.mp nothing.symm
  · rintro rfl
    exact (ringAt_zero inv.head).symm

theorem single_iff : s.queue.next s.queue.head = s.queue.tail ↔ inside.length = 1 := by
  rw [inv.tail, Queue.next]
  constructor
  · intro same
    exact (ringAt_inj inv.room inv.fits same).symm
  · intro one
    rw [one]

theorem fifo : s.Fifo where
  order := by
    rw [inv.whole, List.filter_append]
    exact List.prefix_append _ _
  fromQueue := by
    rw [inv.whole]
    exact List.prefix_append _ _
  waits := inv.waits
  refusals := inv.refusals
  head := inv.head
  tail := inv.tail_lt

end

end Inv

namespace Good

variable {s : State} {inside : List Elem}

theorem initial {q : Queue} (empty : q.head = 0 ∧ q.tail = 0) (room : 2 ≤ q.size) :
    Good (.initial q) [] where
  room := room
  head := by
    rw [State.initial, empty.1]
    exact Nat.lt_of_lt_of_le Nat.zero_lt_two room
  fits := Nat.lt_of_lt_of_le Nat.zero_lt_two room
  tail := by
    rw [State.initial, empty.1, empty.2]
    exact (ringAt_zero (Nat.lt_of_lt_of_le Nat.zero_lt_two room)).symm
  window := trivial
  whole := rfl
  waits := nofun
  refusals := nofun
  writer := trivial
  reader := trivial

theorem moved (good : Good s inside) {writer : Writer} {reader : Reader} {answers : List Bool}
    (writerKnows : writer.Knows s.queue inside) (readerKnows : reader.Knows s.queue inside) :
    Good { s with writer, reader, answers } inside :=
  ⟨⟨good.room, good.head, good.fits, good.tail, good.window, good.whole, good.waits, good.refusals⟩,
    writerKnows, readerKnows⟩

theorem store (good : Good s inside) {elem : Elem} {cur : Nat} (at_ : s.writer = .store elem cur) :
    Good { s with
      queue := { s.queue with elements := Function.update s.queue.elements cur elem }
      writer := .publish elem cur } inside := by
  have knows := good.writer
  rw [at_] at knows
  obtain ⟨rfl, room⟩ := knows
  refine ⟨⟨good.room, good.head, good.fits, good.tail, ?_, good.whole, good.waits, good.refusals⟩,
    ⟨rfl, room, Function.update_self ..⟩, ?_⟩
  · refine good.window.update elem good.head ?_
    intro i less
    rw [good.tail]
    exact ringAt_ne (Nat.lt_trans less good.fits) good.fits (Nat.ne_of_lt less)
  · have reader := good.reader
    cases at_ : s.reader with
    | idle => trivial
    | test cur => rwa [at_] at reader
    | spin cur => rwa [at_] at reader
    | retest cur => rwa [at_] at reader
    | load cur => rwa [at_] at reader
    | advance cur item => rwa [at_] at reader
    | empty cur => trivial

theorem publish (good : Good s inside) {elem : Elem} {cur : Nat}
    (at_ : s.writer = .publish elem cur) :
    Good { s with
      queue := { s.queue with tail := s.queue.next cur }
      writer := .idle
      enqueued := s.enqueued ++ [elem] } (inside ++ [elem]) := by
  have knows := good.writer
  rw [at_] at knows
  obtain ⟨rfl, room, stored⟩ := knows
  rw [good.tail] at stored
  refine ⟨⟨good.room, good.head, ?_, ?_, ?_, ?_, good.waits, good.refusals⟩, trivial, ?_⟩
  · rw [List.length_append]
    exact room
  · rw [Queue.next, good.tail, ringAt_ringAt, List.length_append]
    rfl
  · exact (Window.snoc_iff good.head).mpr ⟨good.window, stored⟩
  · rw [good.whole, List.append_assoc]
  · have reader := good.reader
    cases at_ : s.reader with
    | idle => trivial
    | test cur => rwa [at_] at reader
    | spin cur => rwa [at_] at reader
    | retest cur => rwa [at_] at reader
    | load cur =>
      rw [at_] at reader
      exact ⟨reader.1, List.append_ne_nil_of_left_ne_nil reader.2 _⟩
    | advance cur item =>
      rw [at_] at reader
      refine ⟨reader.1, ?_⟩
      rw [List.head?_append, reader.2]
      rfl
    | empty cur => trivial

theorem advance (good : Good s inside) {cur : Nat} {item : Elem}
    (at_ : s.reader = .advance cur item) :
    Good { s with
      queue := { s.queue with head := s.queue.next cur }
      reader := .idle
      taken := s.taken ++ [item] } inside.tail := by
  have knows := good.reader
  rw [at_] at knows
  obtain ⟨rfl, first⟩ := knows
  obtain ⟨rest, rfl⟩ : ∃ rest, inside = item :: rest := List.head?_eq_some_iff.mp first
  have less : rest.length < s.queue.size := Nat.lt_of_succ_lt good.fits
  refine ⟨⟨good.room, ringAt_lt (Nat.lt_of_lt_of_le Nat.zero_lt_two good.room), less, ?_,
    good.window.2, ?_, good.waits, good.refusals⟩, ?_, trivial⟩
  · rw [good.tail, Queue.next, ringAt_ringAt, Nat.add_comm]
    rfl
  · rw [good.whole, List.append_assoc]
    rfl
  · have writer := good.writer
    cases at_ : s.writer with
    | idle => trivial
    | test elem cur => rwa [at_] at writer
    | spin elem cur => rwa [at_] at writer
    | retest elem cur => rwa [at_] at writer
    | store elem cur =>
      rw [at_] at writer
      exact ⟨writer.1, Nat.lt_of_succ_lt writer.2⟩
    | publish elem cur =>
      rw [at_] at writer
      exact ⟨writer.1, Nat.lt_of_succ_lt writer.2.1, writer.2.2⟩

variable {after : State}

theorem write (good : Good s inside) (wrote : s.write s.writer = some after) :
    ∃ inside', Good after inside' := by
  have knows := good.writer
  cases at_ : s.writer with
  | idle =>
    rw [at_] at wrote
    cases wrote
  | test elem cur =>
    rw [at_] at wrote knows
    obtain rfl : cur = s.queue.tail := knows
    simp only [State.write, Option.some.injEq] at wrote
    by_cases full : s.queue.next s.queue.tail = s.queue.head
    · rw [if_neg (not_not.mpr full)] at wrote
      subst wrote
      have last := good.full_iff.mp full
      refine ⟨inside, ⟨good.room, good.head, good.fits, good.tail, good.window, good.whole,
        good.waits, ?_⟩, trivial, good.reader⟩
      intro n member
      rcases List.mem_append.mp member with old | new
      · exact good.refusals n old
      · rw [List.mem_singleton.mp new, good.stored_eq, ← last, Nat.add_sub_cancel]
    · rw [if_pos full] at wrote
      subst wrote
      have room : inside.length + 1 < s.queue.size :=
        Nat.lt_of_le_of_ne good.fits fun same => full (good.full_iff.mpr same)
      exact ⟨inside, good.moved ⟨rfl, room⟩ good.reader⟩
  | spin elem cur =>
    rw [at_] at wrote knows
    obtain rfl : cur = s.queue.tail := knows
    simp only [State.write, Option.some.injEq] at wrote
    by_cases full : s.queue.next s.queue.tail = s.queue.head
    · rw [if_pos full] at wrote
      subst wrote
      exact ⟨inside, good⟩
    · rw [if_neg full] at wrote
      subst wrote
      exact ⟨inside, good.moved rfl good.reader⟩
  | retest elem cur =>
    rw [at_] at wrote knows
    obtain rfl : cur = s.queue.tail := knows
    simp only [State.write, Option.some.injEq] at wrote
    by_cases full : s.queue.next s.queue.tail = s.queue.head
    · rw [if_neg (not_not.mpr full)] at wrote
      subst wrote
      exact ⟨inside, good.moved rfl good.reader⟩
    · rw [if_pos full] at wrote
      subst wrote
      have room : inside.length + 1 < s.queue.size :=
        Nat.lt_of_le_of_ne good.fits fun same => full (good.full_iff.mpr same)
      exact ⟨inside, good.moved ⟨rfl, room⟩ good.reader⟩
  | store elem cur =>
    rw [at_] at wrote
    cases wrote
    exact ⟨inside, good.store at_⟩
  | publish elem cur =>
    rw [at_] at wrote
    cases wrote
    exact ⟨inside ++ [elem], good.publish at_⟩

theorem read (good : Good s inside) (ample : s.Waiting → 2 ≤ s.stored)
    (did : s.read s.reader = some after) : ∃ inside', Good after inside' := by
  have knows := good.reader
  have passes : s.Waiting → s.queue.next s.queue.head ≠ s.queue.tail ∧ inside ≠ [] := by
    intro waiting
    have many := ample waiting
    rw [good.stored_eq] at many
    refine ⟨fun same => ?_, ?_⟩
    · rw [good.single_iff.mp same] at many
      exact absurd many (by decide)
    · rintro rfl
      exact absurd many (by decide)
  cases at_ : s.reader with
  | idle =>
    rw [at_] at did
    cases did
  | test cur =>
    rw [at_] at did knows
    obtain rfl : cur = s.queue.head := knows
    cases did
    by_cases nothing : s.queue.head = s.queue.tail
    · rw [if_pos nothing]
      exact ⟨inside, good.moved good.writer trivial⟩
    · rw [if_neg nothing]
      exact ⟨inside, good.moved good.writer ⟨rfl, fun empty => nothing (good.empty_iff.mpr empty)⟩⟩
  | spin cur =>
    obtain ⟨passed, -⟩ := passes ⟨cur, .inl at_⟩
    rw [at_] at did knows
    obtain rfl : cur = s.queue.head := knows
    simp only [State.read, if_neg passed, Option.some.injEq] at did
    subst did
    exact ⟨inside, good.moved good.writer rfl⟩
  | retest cur =>
    obtain ⟨passed, occupied⟩ := passes ⟨cur, .inr at_⟩
    rw [at_] at did knows
    obtain rfl : cur = s.queue.head := knows
    simp only [State.read, if_pos passed, Option.some.injEq] at did
    subst did
    exact ⟨inside, good.moved good.writer ⟨rfl, occupied⟩⟩
  | load cur =>
    rw [at_] at did knows
    obtain ⟨rfl, nonempty⟩ := knows
    cases did
    obtain ⟨first, rest, rfl⟩ := List.exists_cons_of_ne_nil nonempty
    refine ⟨first :: rest, good.moved good.writer ⟨rfl, ?_⟩⟩
    rw [good.window.1]
    rfl
  | advance cur item =>
    rw [at_] at did
    cases did
    exact ⟨inside.tail, good.advance at_⟩
  | empty cur =>
    rw [at_] at did
    cases did
    exact ⟨inside, good.moved good.writer trivial⟩

theorem step {label : Label} (good : Good s inside) (ample : s.Ample label)
    (step : s.Step label after) : ∃ inside', Good after inside' := by
  cases label with
  | write => exact good.write step
  | read => exact good.read (ample rfl) step
  | enqueue elem =>
    obtain ⟨-, ⟨⟩⟩ := Option.ite_none_right_eq_some.mp step
    exact ⟨inside, good.moved rfl good.reader⟩
  | enqueueBlocking elem =>
    obtain ⟨-, ⟨⟩⟩ := Option.ite_none_right_eq_some.mp step
    exact ⟨inside, good.moved rfl good.reader⟩
  | dequeue =>
    obtain ⟨-, ⟨⟩⟩ := Option.ite_none_right_eq_some.mp step
    exact ⟨inside, good.moved good.writer rfl⟩
  | dequeueBlocking =>
    obtain ⟨-, ⟨⟩⟩ := Option.ite_none_right_eq_some.mp step
    exact ⟨inside, good.moved good.writer rfl⟩
  | isEmpty =>
    obtain ⟨-, ⟨⟩⟩ := Option.ite_none_right_eq_some.mp step
    exact ⟨inside, good.moved good.writer trivial⟩

theorem run {first last : State} {labels : List Label}
    (run : Run (Guarded State.Ample State.Step) first labels last) (start : ∃ inside, Good first inside) :
    ∃ inside, Good last inside := by
  induction run with
  | nil => exact start
  | cons taken _ ih =>
    obtain ⟨inside, good⟩ := start
    exact ih (good.step taken.1 taken.2)

end Good

variable {elements : Nat}

theorem create_eq {memory : Nat → Elem} {q : Queue}
    (made : create elements memory = some q) : q = ⟨0, 0, roundedSize elements, memory⟩ := by
  obtain ⟨-, ⟨⟩⟩ := Option.ite_none_left_eq_some.mp made
  rfl

/-- A requested size that is not rounded up to nothing is rounded up to some cache lines. -/
theorem roundedSize_room (fits : elements ≤ 2 ^ 64 - 64) : 2 ≤ roundedSize elements := by
  simp only [roundedSize]
  split <;> split <;> simp only [cachelineWidth] at * <;> omega

theorem roundedSize_fits (range : elements < 2 ^ 64)
    (room : 0 < roundedSize elements) : elements ≤ 2 ^ 64 - 64 := by
  by_contra large
  have kept : ¬ elements * 8 % 2 ^ 64 < cachelineWidth := by
    simp only [cachelineWidth]
    omega
  have ragged : ¬ elements % cachelineWidth = 0 := by
    simp only [cachelineWidth]
    omega
  simp only [roundedSize, if_neg kept, if_neg ragged] at room
  simp only [cachelineWidth] at room
  omega

/-- The ring is a bounded FIFO queue in every run in which a blocking dequeue makes its tests while
there are two elements or more, just if the requested size is not rounded up to nothing. -/
theorem fifo_iff_fits {elements : Nat} {memory : Nat → Elem} {q : Queue} (range : elements < 2 ^ 64)
    (made : create elements memory = some q) :
    (∀ labels last, Run (Guarded State.Ample State.Step) (.initial q) labels last → last.Fifo) ↔
      elements ≤ 2 ^ 64 - 64 := by
  constructor
  · intro always
    have now := always [] _ (.nil _)
    rw [create_eq made] at now
    exact roundedSize_fits range now.head
  · intro fits labels last run
    have start : Good (.initial q) [] := by
      rw [create_eq made]
      exact .initial ⟨rfl, rfl⟩ (roundedSize_room fits)
    obtain ⟨inside, good⟩ := Good.run run ⟨[], start⟩
    exact good.fifo

def sevens : Queue := ⟨0, 0, 64, fun _ => 7⟩

theorem fifo_with_two_elements : create 1 (fun _ => 7) = some sevens ∧
    ∃ last, Run (Guarded State.Ample State.Step) (.initial sevens)
        [.enqueue 5, .write, .write, .write, .enqueueBlocking 6, .write, .write, .write, .write,
          .dequeueBlocking, .read, .read, .read, .read] last ∧
      last.taken = [5] ∧ last.Fifo := by
  have run : ∃ last, Run (Guarded State.Ample State.Step) (.initial sevens)
        [.enqueue 5, .write, .write, .write, .enqueueBlocking 6, .write, .write, .write, .write,
          .dequeueBlocking, .read, .read, .read, .read] last ∧ last.taken = [5] :=
    ⟨_, .cons ⟨nofun, rfl⟩ <| .cons ⟨nofun, rfl⟩ <| .cons ⟨nofun, rfl⟩ <| .cons ⟨nofun, rfl⟩ <|
      .cons ⟨nofun, rfl⟩ <| .cons ⟨nofun, rfl⟩ <| .cons ⟨nofun, rfl⟩ <| .cons ⟨nofun, rfl⟩ <|
      .cons ⟨nofun, rfl⟩ <| .cons ⟨nofun, rfl⟩ <| .cons ⟨fun _ _ => by decide, rfl⟩ <|
      .cons ⟨fun _ _ => by decide, rfl⟩ <| .cons ⟨fun _ _ => by decide, rfl⟩ <|
      .cons ⟨fun _ _ => by decide, rfl⟩ <| .nil _, rfl⟩
  obtain ⟨last, run, took⟩ := run
  have made : create 1 (fun _ => 7) = some sevens := rfl
  have fifo := (fifo_iff_fits (by decide) made).mpr (by decide)
  exact ⟨made, last, run, took, fifo _ _ run⟩

/-- A blocking dequeue takes what was in the memory out of an empty queue. -/
theorem takes_from_empty : ∃ last, Run State.Step (.initial sevens)
    [.dequeueBlocking, .read, .read, .read, .read] last ∧ ¬ last.Fifo := by
  refine ⟨_, .cons rfl <| .cons rfl <| .cons rfl <| .cons rfl <| .cons rfl <| .nil _, ?_⟩
  intro fifo
  exact absurd fifo.fromQueue (by decide)

end Qthreads.Swsr
