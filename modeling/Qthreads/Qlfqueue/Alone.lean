import Qthreads.Qlfqueue.Exact

namespace Qthreads.Qlfqueue

open Lib
open Function (update update_comm)

abbrev Solo (strict : Bool) (t : Nat) := Run (Config.Alone (Allowed strict) t)

variable {s raw : Shared} {strict : Bool} {t elem p : Nat} {node head tail n : Node} {pc next : Pc}
  {label : Label} {labels : List Label}

theorem solo {last : Shared × Pc} (plain : ∀ node, label ≠ .alloc node)
    (act : Act t s pc label raw next) (rest : Solo strict t (raw.observe, next) labels last) :
    Solo strict t (s, pc) (label :: labels) last :=
  .cons ⟨fun _ node same => absurd same (plain node), raw, act, rfl⟩ rest

theorem solo_alloc {last : Shared × Pc}
    (unwatched : strict = true → ∀ thread, s.watches thread ≠ some node) (pool : s.status node = .pool)
    (rest : Solo strict t ((s.setStatus node (.fresh t)).observe, .eInit elem node) labels last) :
    Solo strict t (s, .eAlloc elem) (.alloc node :: labels) last := by
  refine .cons ⟨?_, _, .alloc node pool, rfl⟩ rest
  intro isStrict other same
  cases same
  exact unwatched isStrict

namespace Shared

def prepare (s : Shared) (t elem : Nat) (node : Node) : Shared :=
  ((((s.begin t).observe.setStatus node (.fresh t)).observe.fill node elem none).setStatus node
    (.own t)).observe

def hold (s : Shared) (t : Nat) (node : Node) : Shared :=
  (s.observe.setSlot0 t (some node)).observe.observe

def push (s : Shared) (t elem : Nat) (tail node : Node) : Shared :=
  (((s.observe.link tail node elem).observe.swing node).observe.setSlot0 t none).observe

def enqueueAlone (s : Shared) (t elem : Nat) (node : Node) : Shared :=
  ((s.prepare t elem node).hold t s.tail).push t elem s.tail node

def look (s : Shared) (t : Nat) : Shared := ((s.begin t).observe.hold t s.head).observe.observe

def take (s : Shared) (t : Nat) (head next : Node) : Shared :=
  ((s.setSlot1 t (some next)).observe.observe.remove t head next (s.value next)).observe

def leave (s : Shared) (t : Nat) (head : Node) : Shared :=
  (((s.setStatus head (.retired t)).observe.setSlot0 t none).observe.setSlot1 t none).observe.observe

def dequeueAlone (s : Shared) (t : Nat) (next : Node) : Shared :=
  ((s.look t).take t s.head next).leave t s.head

-- proved by unfolding: to unify the two sides field by field takes far longer
@[simp] theorem prepare_tail : (s.prepare t elem node).tail = s.tail := by
  simp only [prepare, observe, setStatus, fill, begin]

@[simp] theorem prepare_next : (s.prepare t elem node).next = update s.next node none := by
  simp only [prepare, observe, setStatus, fill, begin]

@[simp] theorem hold_tail : (s.hold t node).tail = s.tail := by
  simp only [hold, observe, setSlot0]

@[simp] theorem hold_next : (s.hold t node).next = s.next := by
  simp only [hold, observe, setSlot0]

@[simp] theorem begin_head : (s.begin t).observe.head = s.head := by
  simp only [observe, begin]

@[simp] theorem begin_tail : (s.begin t).observe.tail = s.tail := by
  simp only [observe, begin]

@[simp] theorem begin_next : (s.begin t).observe.next = s.next := by
  simp only [observe, begin]

@[simp] theorem look_head : (s.look t).head = s.head := by
  simp only [look, hold, observe, setSlot0, begin]

theorem enqueueAlone_slots {other : Nat} (differs : other ≠ t) :
    (s.enqueueAlone t elem node).slot0 other = s.slot0 other ∧
      (s.enqueueAlone t elem node).slot1 other = s.slot1 other := by
  simp [enqueueAlone, prepare, hold, push, observe, setStatus, setSlot0, fill, begin, link, swing,
    differs]

theorem dequeueAlone_slots {other : Nat} (differs : other ≠ t) :
    (s.dequeueAlone t n).slot0 other = s.slot0 other ∧
      (s.dequeueAlone t n).slot1 other = s.slot1 other := by
  simp [dequeueAlone, look, take, leave, hold, observe, setStatus, setSlot0, setSlot1, begin, remove,
    differs]

end Shared

theorem solo_prepare (nonzero : elem ≠ 0)
    (unwatched : strict = true → ∀ thread, s.watches thread ≠ some node)
    (pool : s.status node = .pool) :
    Solo strict t (s, .idle) [.call, .alloc node, .go] (s.prepare t elem node, .eLoop elem node) :=
  solo nofun (.enqueue elem nonzero) <| solo_alloc unwatched pool <| solo nofun .init <| .nil _

theorem solo_hold :
    Solo strict t (s, .eLoop elem node) [.go, .go, .go] (s.hold t s.tail, .eNext elem node s.tail) :=
  solo nofun .eTail <| solo nofun .eHazard <| solo nofun (.eCheck rfl) <| .nil _

theorem solo_push (here : s.tail = tail) (null : s.next tail = none) :
    Solo strict t (s, .eNext elem node tail) [.go, .go, .go, .go] (s.push t elem tail node, .idle) :=
  solo nofun (.eLast null) <| solo nofun (.link null) <| solo nofun (.eSwing here) <|
    solo nofun .eClear <| .nil _

theorem solo_enqueue (nonzero : elem ≠ 0)
    (unwatched : strict = true → ∀ thread, s.watches thread ≠ some node)
    (pool : s.status node = .pool) (last : s.next s.tail = none) (differs : s.tail ≠ node) :
    ∃ labels, Solo strict t (s, .idle) labels (s.enqueueAlone t elem node, .idle) := by
  have prepared := solo_prepare (t := t) nonzero unwatched pool
  have held : Solo strict t (s.prepare t elem node, .eLoop elem node) [.go, .go, .go]
      ((s.prepare t elem node).hold t (s.prepare t elem node).tail,
        .eNext elem node (s.prepare t elem node).tail) := solo_hold
  rw [Shared.prepare_tail] at held
  have here : ((s.prepare t elem node).hold t s.tail).tail = s.tail := by simp
  have null : ((s.prepare t elem node).hold t s.tail).next s.tail = none := by simp [differs, last]
  exact ⟨_, (prepared.append held).append (solo_push here null)⟩

theorem solo_enter : Solo strict t (s, .dLoop) [.go, .go, .go] (s.hold t s.head, .dTail s.head) :=
  solo nofun .dHead <| solo nofun .dHazard <| solo nofun (.dCheck rfl) <| .nil _

theorem solo_read :
    Solo strict t (s, .dTail n) [.go, .go] (s.observe.observe, .dHazard1 n s.tail (s.next n)) :=
  solo nofun .dTail <| solo nofun .dNext <| .nil _

theorem solo_look : ∃ labels, Solo strict t (s, .idle) labels
    (s.look t, .dHazard1 s.head s.tail (s.next s.head)) := by
  have called : Solo strict t (s, .idle) [.call] ((s.begin t).observe, .dLoop) :=
    solo nofun .dequeue <| .nil _
  have entered : Solo strict t ((s.begin t).observe, .dLoop) [.go, .go, .go]
      ((s.begin t).observe.hold t (s.begin t).observe.head, .dTail (s.begin t).observe.head) :=
    solo_enter
  rw [Shared.begin_head] at entered
  have read : Solo strict t ((s.begin t).observe.hold t s.head, .dTail s.head) [.go, .go]
      (s.look t, .dHazard1 s.head ((s.begin t).observe.hold t s.head).tail
        (((s.begin t).observe.hold t s.head).next s.head)) := solo_read
  rw [Shared.hold_tail, Shared.hold_next, Shared.begin_tail, Shared.begin_next] at read
  exact ⟨_, (called.append entered).append read⟩

theorem solo_take (differs : head ≠ tail) (here : s.head = head) :
    Solo strict t (s, .dHazard1 head tail (some n)) [.go, .go, .go]
      (s.take t head n, .dRelease head (s.value n)) :=
  solo nofun (.dAhead differs) <| solo nofun .dValue <| solo nofun (.remove here) <| .nil _

theorem solo_leave :
    Solo strict t (s, .dRelease head p) [.go, .go, .go, .go] (s.leave t head, .idle) :=
  solo nofun .release <| solo nofun .dClear0 <| solo nofun .dClear1 <| solo nofun .dReturn <| .nil _

theorem solo_dequeue (pointed : s.next s.head = some n) (differs : s.head ≠ s.tail) :
    ∃ labels, Solo strict t (s, .idle) labels (s.dequeueAlone t n, .idle) := by
  obtain ⟨labels, looked⟩ : ∃ labels, Solo strict t (s, .idle) labels
      (s.look t, .dHazard1 s.head s.tail (s.next s.head)) := solo_look
  rw [pointed] at looked
  have took := looked.append (solo_take differs Shared.look_head)
  exact ⟨_, took.append solo_leave⟩

def pair (zero one : Pc) : Nat → Pc :=
  update (update (fun _ => .idle) 0 zero) 1 one

theorem pair_comm (zero one : Pc) :
    pair zero one = update (update (fun _ => .idle) 1 one) 0 zero :=
  update_comm (by decide) ..

theorem pair_idle : pair .idle .idle = fun _ => .idle := by
  simp [pair]

theorem run_zero (one : Pc) {first last : Shared × Pc} (alone : Solo strict 0 first labels last) :
    Run (Config.Step (Allowed strict)) ⟨first.1, pair first.2 one⟩
      (labels.map fun label => (0, label)) ⟨last.1, pair last.2 one⟩ := by
  rw [pair_comm, pair_comm]
  exact Config.run_alone alone _

theorem run_one (zero : Pc) {first last : Shared × Pc} (alone : Solo strict 1 first labels last) :
    Run (Config.Step (Allowed strict)) ⟨first.1, pair zero first.2⟩
      (labels.map fun label => (1, label)) ⟨last.1, pair zero last.2⟩ :=
  Config.run_alone alone _

theorem run_allowed {first last : Config} {labels : List (Nat × Label)}
    (run : Run (Config.Step (Allowed false)) first labels last) : Run Step first labels last := by
  refine run.mono fun before label after taken => ?_
  cases taken with
  | move acted => exact .move acted.2

theorem run_guarded {first last : Config} {labels : List (Nat × Label)}
    (run : Run (Config.Step (Allowed true)) first labels last) :
    Run (Guarded HeadsKept Step) first labels last := by
  refine run.mono fun before label after taken => ?_
  cases taken with
  | move acted => exact ⟨acted.1 rfl, .move acted.2⟩

theorem qlfqueue_linearizable_one_out : ∃ labels last,
    Run (Guarded HeadsKept Step) (start 0) labels last ∧ last.shared.enqueued = [5, 6] ∧
      last.shared.dequeued = [5] ∧ last.tasks 0 = .emptied false ∧ Linear last ∧ Answers last := by
  obtain ⟨_, one⟩ : ∃ labels, Solo true 1 ((Shared.create 0).observe, .idle) labels
      ((Shared.create 0).observe.enqueueAlone 1 5 1, .idle) :=
    solo_enqueue (by decide) (fun _ _ => nofun) rfl rfl (by decide)
  obtain ⟨_, two⟩ : ∃ labels, Solo true 1 ((Shared.create 0).observe.enqueueAlone 1 5 1, .idle) labels
      (((Shared.create 0).observe.enqueueAlone 1 5 1).enqueueAlone 1 6 2, .idle) :=
    solo_enqueue (by decide) (fun _ _ => nofun) rfl rfl (by decide)
  obtain ⟨_, out⟩ : ∃ labels, Solo true 1
      (((Shared.create 0).observe.enqueueAlone 1 5 1).enqueueAlone 1 6 2, .idle) labels
      ((((Shared.create 0).observe.enqueueAlone 1 5 1).enqueueAlone 1 6 2).dequeueAlone 1 1, .idle) :=
    solo_dequeue rfl (by decide)
  have asked : Solo true 0
      ((((Shared.create 0).observe.enqueueAlone 1 5 1).enqueueAlone 1 6 2).dequeueAlone 1 1, .idle)
      [.call, .go, .go, .go, .go] (_, .emptied false) :=
    solo (by rintro _ ⟨⟩) .empty <| solo (by rintro _ ⟨⟩) .mHead <| solo (by rintro _ ⟨⟩)
      .mTail <| solo (by rintro _ ⟨⟩) .mNext <|
      solo (by rintro _ ⟨⟩) (.mAnswer rfl) <| .nil _
  have run := run_guarded ((((run_one .idle one).append (run_one .idle two)).append
    (run_one .idle out)).append (run_zero .idle asked))
  rw [pair_idle] at run
  exact ⟨_, _, run, rfl, rfl, rfl, qlfqueue_linearizable run⟩

/-! Thread 0 asks whether the queue is empty.  While it does, the node that it has read as the head is
dequeued, freed and enqueued again, and then becomes the head once more. -/

def headRead : Shared :=
  ((((Shared.create 0).observe.enqueueAlone 1 5 1).enqueueAlone 1 6 2 |>.begin 0).observe.watch 0
    (some 0)).observe

def headLast : Shared :=
  ((headRead.dequeueAlone 1 1).setStatus 0 .pool).observe.enqueueAlone 1 7 0

def headAgain : Shared :=
  ((headLast.observe.observe.dequeueAlone 1 2).enqueueAlone 1 8 3).dequeueAlone 1 0

theorem run_headRead : ∃ labels, Run (Config.Step (Allowed false)) (start 0) labels
    ⟨headRead, pair (.mTail 0) .idle⟩ := by
  obtain ⟨_, one⟩ : ∃ labels, Solo false 1 ((Shared.create 0).observe, .idle) labels
      ((Shared.create 0).observe.enqueueAlone 1 5 1, .idle) :=
    solo_enqueue (by decide) nofun rfl rfl (by decide)
  obtain ⟨_, two⟩ : ∃ labels, Solo false 1 ((Shared.create 0).observe.enqueueAlone 1 5 1, .idle) labels
      (((Shared.create 0).observe.enqueueAlone 1 5 1).enqueueAlone 1 6 2, .idle) :=
    solo_enqueue (by decide) nofun rfl rfl (by decide)
  have asked : Solo false 0 (((Shared.create 0).observe.enqueueAlone 1 5 1).enqueueAlone 1 6 2, .idle)
      [.call, .go] (headRead, .mTail 0) :=
    solo nofun .empty <| solo nofun .mHead <| .nil _
  have run := ((run_one .idle one).append (run_one .idle two)).append (run_zero .idle asked)
  rw [pair_idle] at run
  exact ⟨_, run⟩

theorem run_headLast : ∃ labels, Run (Config.Step (Allowed false)) ⟨headRead, pair (.mTail 0) .idle⟩
    labels ⟨headLast.observe.observe, pair (.mCheck 0 0 none) .idle⟩ := by
  obtain ⟨_, taken⟩ : ∃ labels, Solo false 1 (headRead, .idle) labels
      (headRead.dequeueAlone 1 1, .idle) := solo_dequeue rfl (by decide)
  have freed : Solo false 1 (headRead.dequeueAlone 1 1, .idle) [.free 0]
      (((headRead.dequeueAlone 1 1).setStatus 0 .pool).observe, .idle) := by
    refine solo (by rintro _ ⟨⟩) (.free 0 rfl fun other differs => ?_) <| .nil _
    simp [headRead, Shared.observe, Shared.begin, Shared.watch, Shared.create,
      Shared.dequeueAlone_slots differs, Shared.enqueueAlone_slots differs]
  obtain ⟨_, reused⟩ : ∃ labels, Solo false 1
      (((headRead.dequeueAlone 1 1).setStatus 0 .pool).observe, .idle) labels (headLast, .idle) :=
    solo_enqueue (by decide) (by rintro ⟨⟩) rfl rfl (by decide)
  have looked : Solo false 0 (headLast, .mTail 0) [.go, .go]
      (headLast.observe.observe, .mCheck 0 0 none) :=
    solo (by rintro _ ⟨⟩) .mTail <| solo (by rintro _ ⟨⟩) .mNext <| .nil _
  exact ⟨_, (((run_one _ taken).append (run_one _ freed)).append (run_one _ reused)).append
    (run_zero _ looked)⟩

theorem run_headAgain : ∃ labels, Run (Config.Step (Allowed false))
    ⟨headLast.observe.observe, pair (.mCheck 0 0 none) .idle⟩ labels
    ⟨headAgain, pair (.mCheck 0 0 none) .idle⟩ := by
  obtain ⟨_, taken⟩ : ∃ labels, Solo false 1 (headLast.observe.observe, .idle) labels
      (headLast.observe.observe.dequeueAlone 1 2, .idle) := solo_dequeue rfl (by decide)
  obtain ⟨_, more⟩ : ∃ labels, Solo false 1 (headLast.observe.observe.dequeueAlone 1 2, .idle) labels
      ((headLast.observe.observe.dequeueAlone 1 2).enqueueAlone 1 8 3, .idle) :=
    solo_enqueue (by decide) nofun rfl rfl (by decide)
  obtain ⟨_, again⟩ : ∃ labels, Solo false 1
      ((headLast.observe.observe.dequeueAlone 1 2).enqueueAlone 1 8 3, .idle) labels
      (headAgain, .idle) := solo_dequeue rfl (by decide)
  exact ⟨_, ((run_one _ taken).append (run_one _ more)).append (run_one _ again)⟩

/-- Four elements go in and three come out, with a node that comes from the pool again. -/
theorem linear_of_run_reused : ∃ labels last,
    Run Step (start 0) labels last ∧ last.shared.enqueued = [5, 6, 7, 8] ∧
      last.shared.dequeued = [5, 6, 7] ∧ Linear last := by
  obtain ⟨_, read⟩ := run_headRead
  obtain ⟨_, reused⟩ := run_headLast
  obtain ⟨_, again⟩ := run_headAgain
  have run := run_allowed ((read.append reused).append again)
  exact ⟨_, _, run, rfl, rfl, linear_of_run run⟩

/-- The queue had elements all along, and the answer is that it is empty. -/
theorem qlfqueue_empty_wrong : ∃ labels last, Run Step (start 0) labels last ∧
    last.tasks 0 = .emptied true ∧ last.shared.sawEmpty 0 = false ∧ ¬ Answers last := by
  obtain ⟨_, read⟩ := run_headRead
  obtain ⟨_, reused⟩ := run_headLast
  obtain ⟨_, again⟩ := run_headAgain
  have answered : Solo false 0 (headAgain, .mCheck 0 0 none) [.go]
      ((headAgain.watch 0 none).observe, .emptied true) := solo nofun (.mAnswer rfl) <| .nil _
  have unseen : (headAgain.watch 0 none).observe.sawEmpty 0 = false := by decide
  have run := run_allowed (((read.append reused).append again).append (run_zero .idle answered))
  refine ⟨_, _, run, rfl, unseen, fun answers => ?_⟩
  have saw := (answers 0 true rfl).1 rfl
  rw [unseen] at saw
  cases saw

end Qthreads.Qlfqueue
