import Qthreads.Tqueue.Types

namespace Qthreads.Tqueue

open Lib

structure Nodes.Hold (nodes : Nodes) (first : Option Node) (tasks : List Task) (list : List Node) :
    Prop where
  chain : Chain nodes.next first list none
  once : list.Nodup
  live : ∀ node ∈ list, nodes.allocated node = true
  threads : list.map nodes.thread = tasks

variable {nodes : Nodes} {first : Option Node} {tasks : List Task} {list : List Node} {node : Node}
  {t : Task}

theorem Nodes.Hold.fresh (hold : nodes.Hold first tasks list) (unused : nodes.allocated node = false) :
    node ∉ list := by
  intro member
  have live := hold.live node member
  rw [unused] at live
  cases live

theorem Nodes.Hold.alloc (hold : nodes.Hold first tasks list)
    (unused : nodes.allocated node = false) : (nodes.alloc node t).Hold first tasks list := by
  have apart : ∀ other ∈ list, other ≠ node := fun other member same =>
    hold.fresh unused (same ▸ member)
  refine ⟨?_, hold.once, ?_, ?_⟩
  · exact hold.chain.congr fun other member => Function.update_of_ne (apart other member) ..
  · intro other member
    simpa [Nodes.alloc, apart other member] using hold.live other member
  · rw [← hold.threads]
    apply List.map_congr_left
    intro other member
    exact Function.update_of_ne (apart other member) ..

theorem Nodes.Hold.push {last : Node} (hold : nodes.Hold first tasks list)
    (ends : list.getLast? = some last) (unused : nodes.allocated node = false) :
    ((nodes.alloc node t).setNext last (some node)).Hold first (tasks ++ [t]) (list ++ [node]) := by
  have outside := hold.fresh unused
  have kept := hold.alloc (t := t) unused
  have differs : node ≠ last := by
    rintro rfl
    exact outside (List.mem_of_getLast? ends)
  refine ⟨?_, ?_, ?_, ?_⟩
  · refine Chain.append.mpr ⟨some node, kept.chain.relink hold.once ends (some node), rfl, ?_⟩
    simp [Nodes.alloc, Nodes.setNext, Chain, differs]
  · simp only [List.nodup_append]
    refine ⟨hold.once, by simp, ?_⟩
    rintro a before b after rfl
    rw [List.mem_singleton] at after
    exact outside (after ▸ before)
  · intro other member
    rcases List.mem_append.mp member with before | after
    · exact kept.live other before
    · rw [List.mem_singleton] at after
      simp [Nodes.setNext, Nodes.alloc, after]
  · rw [List.map_append, ← kept.threads]
    simp [Nodes.setNext, Nodes.alloc]

theorem Nodes.hold_single (nodes : Nodes) (node : Node) (t : Task) :
    (nodes.alloc node t).Hold (some node) [t] [node] := by
  refine ⟨⟨rfl, ?_⟩, by simp, ?_, ?_⟩
  · simp [Nodes.alloc, Chain]
  · simp [Nodes.alloc]
  · simp [Nodes.alloc]

variable {item : Task}

theorem Nodes.Hold.pop {rest : List Node} {later : List Task}
    (hold : nodes.Hold first (item :: later) (node :: rest)) :
    first = some node ∧ nodes.thread node = item ∧
      (nodes.free node).Hold (nodes.next node) later rest := by
  have outside := (List.nodup_cons.mp hold.once).1
  have threads := hold.threads
  simp only [List.map_cons, List.cons.injEq] at threads
  refine ⟨hold.chain.1, threads.1, hold.chain.2, (List.nodup_cons.mp hold.once).2, ?_, threads.2⟩
  intro other member
  have differs : other ≠ node := fun same => outside (same ▸ member)
  simpa [Nodes.free, differs] using hold.live other (List.mem_cons_of_mem _ member)

theorem Nodes.Hold.setNext {next : Option Node} (hold : nodes.Hold first tasks list)
    (outside : node ∉ list) : (nodes.setNext node next).Hold first tasks list := by
  refine ⟨hold.chain.congr ?_, hold.once, hold.live, hold.threads⟩
  intro other member
  have apart : other ≠ node := by
    rintro rfl
    exact outside member
  exact Function.update_of_ne apart ..

def Nosync.Holds (q : Nosync) (tasks : List Task) : Prop :=
  ∃ list, q.nodes.Hold q.head tasks list ∧ (list ≠ [] → q.tail = list.getLast?)

def Nemesis.Holds (q : Nemesis) (tasks : List Task) : Prop :=
  ∃ list, q.nodes.Hold (q.shadowHead.or q.head) tasks list ∧ q.tail = list.getLast? ∧
    (q.shadowHead ≠ none → q.head = none)

theorem Nosync.takes : Takes Nosync.dequeue Nosync.Holds where
  empty := by
    rintro q ⟨list, hold, ends⟩
    have vacant : list = [] := List.map_eq_nil_iff.mp hold.threads
    subst vacant
    have head : q.head = .none := hold.chain
    refine ⟨q, ?_, [], hold, ends⟩
    simp [Nosync.dequeue, head]
  first := by
    rintro q item rest ⟨list, hold, ends⟩
    cases list with
    | nil => cases hold.threads
    | cons node later =>
      obtain ⟨head, thread, popped⟩ := hold.pop
      refine ⟨⟨q.nodes.free node, q.nodes.next node, q.tail⟩, ?_, later, popped, ?_⟩
      · simp [Nosync.dequeue, head, thread]
      · intro more
        rw [ends (by simp)]
        cases later with
        | nil => exact absurd rfl more
        | cons second others => rfl

theorem Nosync.Holds.enqueue {q : Nosync} (holds : q.Holds tasks)
    (unused : q.nodes.allocated node = false) (whole : ¬ (q.head = none ∧ q.tail ≠ none)) :
    (q.enqueue node t).Holds (tasks ++ [t]) := by
  obtain ⟨list, hold, ends⟩ := holds
  cases tail : q.tail with
  | none =>
    have empty : list = [] := by
      by_contra nonempty
      have last := ends nonempty
      rw [tail] at last
      exact nonempty (List.getLast?_eq_none_iff.mp last.symm)
    subst empty
    have threads : tasks = [] := hold.threads.symm
    refine ⟨[node], ?_, ?_⟩
    · simpa [Nosync.enqueue, tail, threads] using Nodes.hold_single q.nodes node t
    · simp [Nosync.enqueue, tail]
  | some last =>
    have nonempty : list ≠ [] := by
      rintro rfl
      have head : q.head = .none := hold.chain
      exact whole ⟨head, by simp [tail]⟩
    have ends' : list.getLast? = .some last := (ends nonempty).symm.trans tail
    refine ⟨list ++ [node], ?_, ?_⟩
    · simpa [Nosync.enqueue, tail] using hold.push ends' unused
    · simp [Nosync.enqueue, tail]

variable {q : Nemesis}

theorem Nemesis.Holds.enqueue (holds : q.Holds tasks)
    (unused : q.nodes.allocated node = false) : (q.enqueue node t).Holds (tasks ++ [t]) := by
  obtain ⟨list, hold, ends, private_⟩ := holds
  cases tail : q.tail with
  | none =>
    have empty : list = [] := List.getLast?_eq_none_iff.mp (ends.symm.trans tail)
    subst empty
    have threads : tasks = [] := hold.threads.symm
    have front : q.shadowHead.or q.head = .none := hold.chain
    have shadow : q.shadowHead = .none := by
      cases found : q.shadowHead with
      | none => rfl
      | some other => simp [found] at front
    refine ⟨[node], ?_, ?_, ?_⟩
    · simpa [Nemesis.enqueue, tail, threads, shadow] using Nodes.hold_single q.nodes node t
    · simp [Nemesis.enqueue, tail]
    · simp [Nemesis.enqueue, tail, shadow]
  | some last =>
    have ends' : list.getLast? = some last := ends.symm.trans tail
    refine ⟨list ++ [node], ?_, ?_, ?_⟩
    · simpa [Nemesis.enqueue, tail] using hold.push ends' unused
    · simp [Nemesis.enqueue, tail]
    · simpa [Nemesis.enqueue, tail] using private_

theorem Nemesis.takeOff_holds {rest : List Task} {dequeued : Node}
    {later : List Node} (hold : q.nodes.Hold (some dequeued) (item :: rest) (dequeued :: later))
    (ends : q.tail = (dequeued :: later).getLast?) (head : q.head = none) :
    ∃ after, q.takeOff dequeued = some (some item, after) ∧ after.Holds rest ∧
      after.length = q.length := by
  obtain ⟨-, thread, popped⟩ := hold.pop
  have outside := (List.nodup_cons.mp hold.once).1
  cases later with
  | nil =>
    have null : q.nodes.next dequeued = none := popped.chain
    have tail : q.tail = some dequeued := ends
    refine ⟨q.finish dequeued, ?_, ⟨[], ?_, rfl, by simp [Nemesis.finish]⟩, rfl⟩
    · simp [Nemesis.takeOff, null, tail, thread]
    · rw [null] at popped
      simpa [Nemesis.finish, head] using popped
  | cons second others =>
    have next : q.nodes.next dequeued = some second := popped.chain.1
    refine ⟨q.advance dequeued second, ?_, ⟨second :: others, ?_, ends, ?_⟩, rfl⟩
    · simp [Nemesis.takeOff, next, thread]
    · rw [next] at popped
      exact popped.setNext outside
    · exact fun _ => head

theorem Nemesis.takes (length : Nat) :
    Takes Nemesis.dequeue fun q tasks => q.Holds tasks ∧ q.length = length where
  empty := by
    rintro q ⟨⟨list, hold, ends, private_⟩, same⟩
    have vacant : list = [] := List.map_eq_nil_iff.mp hold.threads
    subst vacant
    have front : q.shadowHead.or q.head = .none := hold.chain
    refine ⟨q, ?_, ⟨[], hold, ends, private_⟩, same⟩
    cases shadow : q.shadowHead with
    | none =>
      have head : q.head = .none := by simpa [shadow] using front
      simp [Nemesis.dequeue, shadow, head]
    | some other => simp [shadow] at front
  first := by
    rintro q item rest ⟨⟨list, hold, ends, private_⟩, same⟩
    cases list with
    | nil => cases hold.threads
    | cons node later =>
      have front := hold.chain.1
      rw [front] at hold
      cases shadow : q.shadowHead with
      | some dequeued =>
        obtain rfl : dequeued = node := by simpa [shadow] using front
        have head := private_ (by simp [shadow])
        obtain ⟨after, taken, holds, kept⟩ := Nemesis.takeOff_holds hold ends head
        exact ⟨after, by simpa [Nemesis.dequeue, shadow] using taken, holds, kept.trans same⟩
      | none =>
        have head : q.head = some node := by simpa [shadow] using front
        obtain ⟨after, taken, holds, kept⟩ :=
          Nemesis.takeOff_holds (q := q.adopt) hold ends rfl
        exact ⟨after, by simpa [Nemesis.dequeue, shadow, head] using taken, holds, kept.trans same⟩

def Queue.Holds (tasks : List Task) : Queue → Prop
  | .nosync q => q.Holds tasks
  | .nemesis q => q.Holds tasks
  | .nemesisLength q => q.Holds tasks ∧ q.length = tasks.length
  | .capped q => tasks = [] ∧ q.membercount = 0 ∧ q.busy = 0

/-- A join does what it should: not on a list that was emptied, whose tail is still set, and on no
capped queue. -/
def Queue.Joinable : Queue → Prop
  | .nosync q => ¬ (q.head = none ∧ q.tail ≠ none)
  | .capped _ => False
  | _ => True

def Whole (s : State) : Label → Prop
  | .join _ _ => s.queue.Joinable
  | _ => True

theorem Nemesis.Holds.setLength {length : Nat} (holds : q.Holds tasks) :
    (q.setLength length).Holds tasks := holds

variable {queue : Queue}

theorem Queue.Holds.enqueue (holds : queue.Holds tasks) (unused : queue.Unused node)
    (joinable : queue.Joinable) :
    ∃ after, queue.enqueue node t = some after ∧ after.Holds (tasks ++ [t]) := by
  cases queue with
  | nosync q => exact ⟨_, rfl, Nosync.Holds.enqueue holds unused joinable⟩
  | nemesis q => exact ⟨_, rfl, Nemesis.Holds.enqueue holds unused⟩
  | nemesisLength q =>
    refine ⟨_, rfl, (Nemesis.Holds.enqueue holds.1 unused).setLength, ?_⟩
    simp [Nemesis.setLength, holds.2]
  | capped q => cases joinable

theorem Queue.Holds.dequeue (holds : queue.Holds (item :: tasks)) :
    ∃ after, queue.dequeue = some (some item, after) ∧ after.Holds tasks := by
  cases queue with
  | nosync q =>
    obtain ⟨after, taken, kept⟩ := Nosync.takes.first q item tasks holds
    exact ⟨.nosync after, by simp [Queue.dequeue, taken], kept⟩
  | nemesis q =>
    obtain ⟨after, taken, kept, -⟩ := (Nemesis.takes q.length).first q item tasks ⟨holds, rfl⟩
    exact ⟨.nemesis after, by simp [Queue.dequeue, taken], kept⟩
  | nemesisLength q =>
    obtain ⟨after, taken, kept, same⟩ := (Nemesis.takes q.length).first q item tasks ⟨holds.1, rfl⟩
    refine ⟨.nemesisLength (after.setLength (after.length - 1)), by simp [Queue.dequeue, taken],
      kept.setLength, ?_⟩
    simp [Nemesis.setLength, same, holds.2]
  | capped q => cases holds.1

theorem Queue.Holds.dequeueAll (holds : queue.Holds tasks) {fuel : Nat}
    (enough : tasks.length < fuel) :
    ∃ after, queue.dequeueAll fuel = some (tasks, after) ∧ after.Holds [] := by
  cases queue with
  | nosync q =>
    obtain ⟨after, drained, kept⟩ := Nosync.takes.drain holds enough
    exact ⟨.nosync after, by simp [Queue.dequeueAll, drained], kept⟩
  | nemesis q =>
    obtain ⟨after, drained, kept, -⟩ := (Nemesis.takes q.length).drain ⟨holds, rfl⟩ enough
    exact ⟨.nemesis after, by simp [Queue.dequeueAll, drained], kept⟩
  | nemesisLength q =>
    obtain ⟨after, taken, kept, same⟩ := (Nemesis.takes q.length).takeMany ⟨holds.1, rfl⟩
    rw [← holds.2] at taken
    refine ⟨.nemesisLength (after.setLength (after.length - q.length)),
      by simp [Queue.dequeueAll, taken], kept.setLength, ?_⟩
    simp [Nemesis.setLength, same]
  | capped q =>
    obtain ⟨empty, zero, free⟩ := holds
    subst empty
    refine ⟨.capped ⟨fun i => if i < q.membercount then .none else q.members i, 0, q.maxmembers, q.busy⟩,
      ?_, rfl, rfl, free⟩
    simp [Queue.dequeueAll, Capped.releaseAll, Capped.copied, free, zero]

theorem Queue.Holds.dequeueAll_eq {queue after : Queue} {found : List Task} {fuel : Nat}
    (holds : queue.Holds tasks) (taken : queue.dequeueAll fuel = some (found, after)) :
    found = tasks ∧ after.Holds [] := by
  cases queue with
  | nosync q =>
    simp only [Queue.dequeueAll, Option.map_eq_some_iff] at taken
    obtain ⟨result, drained, same⟩ := taken
    cases same
    exact Nosync.takes.drain_unique holds drained
  | nemesis q =>
    simp only [Queue.dequeueAll, Option.map_eq_some_iff] at taken
    obtain ⟨result, drained, same⟩ := taken
    cases same
    obtain ⟨all, kept, -⟩ := (Nemesis.takes q.length).drain_unique ⟨holds, rfl⟩ drained
    exact ⟨all, kept⟩
  | nemesisLength q =>
    obtain ⟨other, again, kept⟩ :=
      (show (Queue.nemesisLength q).Holds tasks from holds).dequeueAll (Nat.lt_succ_self _)
    have same := again.symm.trans taken
    cases same
    exact ⟨rfl, kept⟩
  | capped q =>
    obtain ⟨other, again, kept⟩ :=
      (show (Queue.capped q).Holds tasks from holds).dequeueAll (Nat.lt_succ_self _)
    have same := again.symm.trans taken
    cases same
    exact ⟨rfl, kept⟩

structure Exact (s : State) : Prop where
  holds : s.queue.Holds s.waiting
  launched : s.launched = s.expected

theorem Exact.step {s after : State} {label : Label} (exact_ : Exact s) (whole : Whole s label)
    (taken : Step s label after) : Exact after := by
  obtain ⟨holds, launched⟩ := exact_
  cases taken with
  | @join t node queue called enqueued =>
    obtain ⟨other, again, kept⟩ := holds.enqueue (t := t) called.1 whole
    cases again.symm.trans enqueued
    exact ⟨kept, launched⟩
  | @releaseOne shep t queue called dequeued =>
    cases waiting : s.waiting with
    | nil => exact absurd waiting called
    | cons item rest =>
      rw [waiting] at holds
      obtain ⟨other, again, kept⟩ := holds.dequeue
      cases again.symm.trans dequeued
      exact ⟨kept, by simp [launched]⟩
  | releaseAll fuel taken =>
    obtain ⟨rfl, kept⟩ := holds.dequeueAll_eq taken
    exact ⟨kept, by simp [launched]⟩

theorem start_exact (nodes : Nodes) (members : Nat → Option Task) (flags length : Nat) :
    Exact (start (.create nodes members flags length)) := by
  have nothing : nodes.Hold none [] [] := ⟨rfl, List.nodup_nil, by simp, rfl⟩
  refine ⟨?_, rfl⟩
  simp only [start, Queue.create]
  split
  · exact ⟨[], nothing, rfl, by simp⟩
  · split
    · exact ⟨⟨[], nothing, rfl, by simp⟩, rfl⟩
    · split
      · exact ⟨rfl, rfl, rfl⟩
      · exact ⟨[], nothing, by simp⟩

def Queue.Counted : Queue → Prop
  | .nemesisLength _ => True
  | .capped _ => True
  | _ => False

/-- The launches are those of a queue that is first in, first out, the length is right, and every
call that is in order returns. -/
structure Released (s : State) : Prop where
  launched : s.launched = s.expected
  length : s.queue.Counted → s.queue.length = s.waiting.length
  returns : ∀ label, Called s label → Whole s label → ∃ after, Step s label after

theorem Exact.released {s : State} (exact_ : Exact s) : Released s := by
  obtain ⟨holds, launched⟩ := exact_
  refine ⟨launched, ?_, ?_⟩
  · intro counted
    cases queue : s.queue with
    | nosync q => simp [queue, Queue.Counted] at counted
    | nemesis q => simp [queue, Queue.Counted] at counted
    | nemesisLength q =>
      rw [queue] at holds
      exact holds.2
    | capped q =>
      rw [queue] at holds
      simp [Queue.length, holds.2.1, holds.1]
  · intro label called whole
    cases label with
    | join t node =>
      obtain ⟨after, enqueued, -⟩ := holds.enqueue (t := t) called.1 whole
      exact ⟨_, .join called enqueued⟩
    | releaseOne shep =>
      cases waiting : s.waiting with
      | nil => exact absurd waiting called
      | cons item rest =>
        rw [waiting] at holds
        obtain ⟨after, dequeued, -⟩ := holds.dequeue
        exact ⟨_, .releaseOne called dequeued⟩
    | releaseAll shep =>
      obtain ⟨after, drained, -⟩ := holds.dequeueAll (Nat.lt_succ_self _)
      exact ⟨_, .releaseAll _ drained⟩

theorem queue_releases_exactly (nodes : Nodes) (members : Nat → Option Task) (flags length : Nat)
    {labels : List Label} {last : State}
    (run : Run (Guarded Whole Step) (start (.create nodes members flags length)) labels last) :
    Released last := by
  have exact_ : Exact last :=
    run.preserves (fun _ _ _ before taken => before.step taken.1 taken.2)
      (start_exact nodes members flags length)
  exact exact_.released

def unusedNodes : Nodes := ⟨fun _ => none, fun _ => ⟨0, false, 0, none⟩, fun _ => false⟩

theorem queue_releases_exactly_twice : ∃ last,
    Run (Guarded Whole Step) (start (.create unusedNodes (fun _ => none) 4 0))
      [.join ⟨7, false, 0, none⟩ 0, .releaseOne 1, .join ⟨7, false, 0, none⟩ 0, .releaseAll 2] last ∧
      last.launched = [⟨⟨7, false, 0, none⟩, 1⟩, ⟨⟨7, false, 0, none⟩, 2⟩] ∧ Released last := by
  obtain ⟨last, run, launched⟩ : ∃ last,
      Run (Guarded Whole Step) (start (.create unusedNodes (fun _ => none) 4 0))
        [.join ⟨7, false, 0, none⟩ 0, .releaseOne 1, .join ⟨7, false, 0, none⟩ 0, .releaseAll 2] last ∧
        last.launched = [⟨⟨7, false, 0, none⟩, 1⟩, ⟨⟨7, false, 0, none⟩, 2⟩] :=
    ⟨_, .cons ⟨trivial, .join ⟨rfl, trivial⟩ rfl⟩ <| .cons ⟨trivial, .releaseOne (List.cons_ne_nil _ _) rfl⟩ <|
      .cons ⟨trivial, .join ⟨rfl, trivial⟩ rfl⟩ <| .cons ⟨trivial, .releaseAll 0 rfl⟩ <| .nil _, rfl⟩
  exact ⟨last, run, launched, queue_releases_exactly _ _ _ _ run⟩

/-- The second task to join a list without synchronisation is not launched, and no task can join a
capped queue. -/
theorem queue_drops : (∃ last,
    Run Step (start (.create unusedNodes (fun _ => none) 1 0))
      [.join ⟨7, false, 0, none⟩ 0, .releaseOne 1, .join ⟨8, false, 0, none⟩ 0, .releaseAll 2] last ∧
      last.launched = [⟨⟨7, false, 0, none⟩, 1⟩] ∧
      last.expected = [⟨⟨7, false, 0, none⟩, 1⟩, ⟨⟨8, false, 0, none⟩, 2⟩]) ∧
    Called (start (.create unusedNodes (fun _ => none) 8 1)) (.join ⟨7, false, 0, none⟩ 0) ∧
    ¬ ∃ after, Step (start (.create unusedNodes (fun _ => none) 8 1)) (.join ⟨7, false, 0, none⟩ 0) after := by
  refine ⟨⟨_, .cons (.join ⟨rfl, trivial⟩ rfl) <| .cons (.releaseOne (List.cons_ne_nil _ _) rfl) <|
    .cons (.join ⟨rfl, trivial⟩ rfl) <| .cons (.releaseAll 1 rfl) <| .nil _, rfl, rfl⟩, ⟨trivial, ?_⟩, ?_⟩
  · exact Nat.zero_lt_one
  · rintro ⟨after, taken⟩
    cases taken with
    | join called enqueued => cases enqueued

end Qthreads.Tqueue
