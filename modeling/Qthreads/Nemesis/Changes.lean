import Qthreads.Nemesis.Invariant

namespace Qthreads.Nemesis

open Lib
open Tqueue (Node Task)
open Function (update update_of_ne update_self)

variable {s : Shared} {consumer me t : Nat} {n node prev : Node} {task : Task}

theorem update_of_mem {Value : Type} {words : Node → Value} {value : Value} {list : List Node}
    (absent : node ∉ list) (inside : n ∈ list) : update words node value n = words n := by
  apply update_of_ne
  rintro rfl
  exact absent inside

theorem Good.pending_not_first (good : Good s) (pending : s.stage n = .pending t) :
    s.front ≠ .atHead → s.order.head? ≠ some n := by
  intro moved first
  have fronted := good.fronted
  unfold Fronted at fronted
  cases front : s.front with
  | atHead => exact moved front
  | moving =>
    rw [front] at fronted
    obtain ⟨m, there, _⟩ := fronted
    grind [First]
  | atShadow =>
    rw [front] at fronted
    obtain ⟨m, there, _⟩ := fronted
    grind [First]
  | cut =>
    rw [front] at fronted
    obtain ⟨m, there, _⟩ := fronted
    grind [First]

variable {stage : Stage}

theorem Good.setStage (good : Good s) (outside : ¬ Queued (s.stage n))
    (stays : ¬ Queued stage) : Good (s.setStage n stage) := by
  have absent : n ∉ s.order := fun inside => outside ((good.member n).mp inside)
  have same : ∀ m ∈ s.order, (s.setStage n stage).stage m = s.stage m := by
    intro m inside
    exact update_of_mem absent inside
  have firstSame : ∀ m, s.order.head? = some m → (s.setStage n stage).stage m = s.stage m :=
    fun m first => same m (List.mem_of_mem_head? first)
  constructor
  case once => exact good.once
  case tail => exact good.tail
  case member =>
    intro m
    by_cases here : m = n
    · subst here
      simp only [Shared.setStage, update_self]
      exact iff_of_false absent stays
    · simp only [Shared.setStage, update_of_ne here]
      exact good.member m
  case links =>
    intro a b adjacent
    rw [same b adjacent.right_mem]
    exact good.links a b adjacent
  case last => exact good.last
  case fronted =>
    have fronted := good.fronted
    unfold Fronted First at fronted ⊢
    simp only [Shared.setStage] at firstSame ⊢
    cases front : s.front with
    | atHead => grind
    | moving => grind
    | atShadow => grind
    | cut => grind
  case fifo => exact good.fifo

theorem Good.fill (good : Good s) (outside : ¬ Queued (s.stage node)) : Good (s.fill node task) := by
  have absent : node ∉ s.order := fun inside => outside ((good.member node).mp inside)
  have same : ∀ m ∈ s.order, (s.fill node task).next m = s.next m := by
    intro m inside
    exact update_of_mem absent inside
  constructor
  case once => exact good.once
  case tail => exact good.tail
  case member => exact good.member
  case links =>
    intro a b adjacent
    rw [same a adjacent.left_mem]
    exact good.links a b adjacent
  case last =>
    intro m last
    rw [same m (List.mem_of_getLast? last)]
    exact good.last m last
  case fronted => exact good.fronted
  case fifo =>
    have threads : s.order.map (s.fill node task).thread = s.order.map s.thread := by
      apply List.map_congr_left
      intro m inside
      exact update_of_mem absent inside
    exact good.fifo.trans (congrArg (s.taken ++ ·) threads.symm)

theorem Good.swap (good : Good s) (fresh : s.stage node = .fresh me) (empty : s.next node = none) :
    Good (s.swap me node) := by
  have absent : node ∉ s.order := by
    intro inside
    have queued := (good.member node).mp inside
    rw [fresh] at queued
    exact queued
  have same : ∀ m ∈ s.order, (s.swap me node).stage m = s.stage m := by
    intro m inside
    exact update_of_mem absent inside
  have pending : (s.swap me node).stage node = .pending me := update_self ..
  constructor
  case once =>
    exact List.Nodup.append good.once (List.nodup_singleton node) (by simpa using absent)
  case tail =>
    simp only [Shared.swap]
    rw [List.getLast?_concat]
  case member =>
    intro m
    by_cases here : m = node
    · subst here
      rw [pending]
      simp only [Shared.swap, Queued, List.mem_append, List.mem_singleton, or_true]
    · simp only [Shared.swap, update_of_ne here, List.mem_append, List.mem_singleton, here,
        or_false]
      exact good.member m
  case links =>
    intro a b adjacent
    rcases Adjacent.append_iff.mp adjacent with before | ⟨last, rfl⟩
    · rw [same b before.right_mem]
      exact good.links a b before
    · rw [pending]
      exact good.last a last
  case last =>
    intro m last
    simp only [Shared.swap] at last
    rw [List.getLast?_concat] at last
    cases last
    exact empty
  case fronted =>
    have fronted := good.fronted
    unfold Fronted First at fronted ⊢
    have firstSame : ∀ m, s.order.head? = some m → (s.swap me node).stage m = s.stage m :=
      fun m first => same m (List.mem_of_mem_head? first)
    have front : (s.swap me node).front = s.front := rfl
    have heads : (s.swap me node).order.head? = s.order.head?.or (some node) := by
      simp only [Shared.swap, List.head?_append, List.head?_cons]
    have head : (s.swap me node).head = s.head := rfl
    have shadow : (s.swap me node).shadowHead = s.shadowHead := rfl
    have nonempty : (s.swap me node).order ≠ [] := by simp [Shared.swap]
    rw [front, heads, head, shadow]
    cases place : s.front with
    | atHead =>
      rw [place] at fronted
      cases list : s.order with
      | nil => simp_all
      | cons first rest => simp_all
    | moving => grind
    | atShadow => grind
    | cut => grind
  case fifo =>
    simp only [Shared.swap, List.map_append, List.map_cons, List.map_nil]
    rw [good.fifo, List.append_assoc]

theorem Good.storeHead (good : Good s) (pending : s.stage node = .pending me)
    (first : s.order.head? = some node) : Good (s.storeHead node) := by
  have inside : node ∈ s.order := List.mem_of_mem_head? first
  constructor
  case once => exact good.once
  case tail => exact good.tail
  case member =>
    intro m
    by_cases here : m = node
    · subst here
      simp only [Shared.storeHead, update_self]
      exact iff_of_true inside trivial
    · simp only [Shared.storeHead, update_of_ne here]
      exact good.member m
  case links =>
    intro a b adjacent
    have other : b ≠ node := fun same => Adjacent.ne_head good.once (same ▸ first) adjacent
    simp only [Shared.storeHead, update_of_ne other]
    exact good.links a b adjacent
  case last => exact good.last
  case fronted =>
    have fronted := good.fronted
    have waiting := good.pending_not_first pending
    unfold Fronted First at fronted ⊢
    simp only [Shared.storeHead]
    cases place : s.front with
    | atHead => grind
    | moving => exact absurd first (waiting (by simp [place]))
    | atShadow => exact absurd first (waiting (by simp [place]))
    | cut => exact absurd first (waiting (by simp [place]))
  case fifo => exact good.fifo

theorem Good.link (good : Good s) (pending : s.stage node = .pending me)
    (adjacent : Adjacent s.order prev node) : Good (s.link prev node) := by
  constructor
  case once => exact good.once
  case tail => exact good.tail
  case member =>
    intro m
    by_cases here : m = node
    · subst here
      simp only [Shared.link, update_self]
      exact iff_of_true adjacent.right_mem trivial
    · simp only [Shared.link, update_of_ne here]
      exact good.member m
  case links =>
    intro a b next
    by_cases same : b = node
    · subst same
      have left : a = prev := Adjacent.left_unique good.once next adjacent
      simp only [Shared.link, left, update_self, if_true]
    · have left : a ≠ prev := by
        rintro rfl
        exact same (Adjacent.right_unique good.once next adjacent)
      simp only [Shared.link, update_of_ne left, update_of_ne same]
      exact good.links a b next
  case last =>
    intro m last
    have other : m ≠ prev := by
      rintro rfl
      exact Adjacent.ne_getLast good.once last adjacent
    simp only [Shared.link, update_of_ne other]
    exact good.last m last
  case fronted =>
    have fronted := good.fronted
    unfold Fronted First at fronted ⊢
    have other : ∀ m, s.order.head? = some m → (s.link prev node).stage m = s.stage m := by
      intro m first
      exact update_of_ne
        (fun same => Adjacent.ne_head good.once (same ▸ first) adjacent) ..
    simp only [Shared.link] at other ⊢
    cases place : s.front with
    | atHead => grind
    | moving => grind
    | atShadow => grind
    | cut => grind
  case fifo => exact good.fifo

theorem Good.adopt (good : Good s) (front : s.front = .atHead) (present : s.head ≠ none) :
    Good s.adopt := by
  have fronted := good.fronted
  unfold Fronted at fronted
  rw [front] at fronted
  obtain ⟨_, empty, linked⟩ := fronted
  refine ⟨good.once, good.tail, good.member, good.links, good.last, ?_, good.fifo⟩
  cases list : s.order with
  | nil => exact absurd (empty list) present
  | cons n rest =>
    have first : s.order.head? = .some n := by rw [list, List.head?_cons]
    have head := linked n first
    by_cases there : s.stage n = .linked
    · rw [if_pos there] at head
      exact ⟨n, ⟨first, there⟩, head, head⟩
    · rw [if_neg there] at head
      exact absurd head present

theorem Good.clearHead (good : Good s) (front : s.front = .moving) : Good s.clearHead := by
  have fronted := good.fronted
  unfold Fronted at fronted
  rw [front] at fronted
  obtain ⟨n, first, _, shadow⟩ := fronted
  exact ⟨good.once, good.tail, good.member, good.links, good.last, ⟨n, first, rfl, shadow⟩, good.fifo⟩

theorem Good.clearShadow (good : Good s) (front : s.front = .atShadow) : Good s.clearShadow := by
  have fronted := good.fronted
  unfold Fronted at fronted
  rw [front] at fronted
  obtain ⟨n, first, head, _⟩ := fronted
  exact ⟨good.once, good.tail, good.member, good.links, good.last, ⟨n, first, head, rfl⟩, good.fifo⟩

theorem Good.unlink (good : Good s) (held : s.stage n = .held) : Good (s.unlink n) := by
  have absent : n ∉ s.order := by
    intro inside
    have queued := (good.member n).mp inside
    rw [held] at queued
    exact queued
  refine ⟨good.once, good.tail, good.member, ?_, ?_, good.fronted, good.fifo⟩
  · intro a b adjacent
    exact (update_of_mem absent adjacent.left_mem).trans (good.links a b adjacent)
  · intro m last
    exact (update_of_mem absent (List.mem_of_getLast? last)).trans (good.last m last)

variable {after : Shared}

section

variable (good : Good s)
include good

theorem Good.takeOff (first : s.order.head? = some n)
    (order : after.order = s.order.tail) (tail : after.tail = s.order.tail.getLast?)
    (next : after.next = s.next) (thread : after.thread = s.thread)
    (stage : after.stage = update s.stage n .held)
    (swapped : after.swapped = s.swapped) (taken : after.taken = s.taken ++ [s.thread n])
    (fronted : Fronted after) : Good after := by
  obtain ⟨rest, list⟩ : ∃ rest, s.order = n :: rest := List.head?_eq_some_iff.mp first
  have once := good.once
  rw [list, List.nodup_cons] at once
  rw [list, List.tail_cons] at order tail
  have last : ∀ m, rest.getLast? = some m → s.order.getLast? = some m := by
    intro m last
    rw [list, List.getLast?_cons, last, Option.getD_some]
  constructor
  case once => exact order ▸ once.2
  case tail => rw [tail, order]
  case member =>
    intro m
    rw [order, stage]
    by_cases here : m = n
    · subst here
      rw [update_self]
      exact iff_of_false once.1 id
    · rw [update_of_ne here, ← good.member m, list, List.mem_cons]
      simp only [here, false_or]
  case links =>
    intro a b adjacent
    rw [order] at adjacent
    rw [next, stage, update_of_mem once.1 adjacent.right_mem]
    exact good.links a b (list ▸ .inr adjacent)
  case last =>
    intro m there
    rw [order] at there
    rw [next]
    exact good.last m (last m there)
  case fronted => exact fronted
  case fifo =>
    rw [swapped, taken, order, thread, good.fifo, list, List.map_cons, List.append_assoc]
    rfl

theorem Good.second (first : s.order.head? = some n) (present : s.next n ≠ none) :
    ∃ m, s.order.tail.head? = .some m ∧ s.next n = .some m ∧ s.stage m = .linked ∧ m ≠ n := by
  obtain ⟨rest, list⟩ : ∃ rest, s.order = n :: rest := List.head?_eq_some_iff.mp first
  have once := good.once
  rw [list, List.nodup_cons] at once
  cases behind : rest with
  | nil =>
    have last : s.order.getLast? = .some n := by rw [list, behind, List.getLast?_singleton]
    exact absurd (good.last n last) present
  | cons m rest' =>
    have adjacent : Adjacent s.order n m := by
      rw [list, behind]
      exact .inl ⟨rfl, rfl⟩
    have link := good.links n m adjacent
    have other : m ≠ n := by
      rintro rfl
      exact once.1 (behind ▸ List.mem_cons_self ..)
    by_cases there : s.stage m = .linked
    · rw [if_pos there] at link
      exact ⟨m, by rw [list, List.tail_cons, behind, List.head?_cons], link, there, other⟩
    · rw [if_neg there] at link
      exact absurd link present

theorem Good.advance (front : s.front = .atShadow ∨ s.front = .cut)
    (first : s.order.head? = some n) (present : s.next n ≠ none) : Good (s.advance n) := by
  obtain ⟨m, second, link, linked, other⟩ := good.second first present
  have tail : s.tail = s.order.tail.getLast? := by
    obtain ⟨rest, list⟩ : ∃ rest, s.order = n :: rest := List.head?_eq_some_iff.mp first
    rw [good.tail, list, List.tail_cons]
    rw [list, List.tail_cons] at second
    cases rest with
    | nil => cases second
    | cons m rest => rw [List.getLast?_cons_cons]
  have head : s.head = none := by
    have fronted := good.fronted
    unfold Fronted at fronted
    rcases front with shadow | cut
    · rw [shadow] at fronted
      obtain ⟨_, _, head, _⟩ := fronted
      exact head
    · rw [cut] at fronted
      obtain ⟨_, _, head, _⟩ := fronted
      exact head
  refine good.takeOff first rfl tail rfl rfl rfl rfl rfl ⟨m, ⟨second, ?_⟩, head, link⟩
  exact (update_of_ne other ..).trans linked

theorem Good.alone (first : s.order.head? = some n) (tail : s.tail = some n) : s.order = [n] := by
  obtain ⟨rest, list⟩ : ∃ rest, s.order = n :: rest := List.head?_eq_some_iff.mp first
  have last := good.tail.symm.trans tail
  have once := good.once
  rw [list] at last once ⊢
  cases rest with
  | nil => rfl
  | cons m rest =>
    rw [List.getLast?_cons_cons] at last
    exact absurd (List.mem_of_getLast? last) (List.nodup_cons.mp once).1

theorem Good.finish (front : s.front = .cut) (first : s.order.head? = some n)
    (tail : s.tail = some n) : Good (s.finish n) := by
  have list := good.alone first tail
  have fronted := good.fronted
  unfold Fronted at fronted
  rw [front] at fronted
  obtain ⟨_, _, head, shadow⟩ := fronted
  refine good.takeOff first rfl (by rw [list]; rfl) rfl rfl rfl rfl rfl ⟨shadow, fun _ => head, ?_⟩
  intro m there
  have present : s.order.tail.head? = some m := there
  rw [list] at present
  cases present

theorem Good.record (result : Result) : Good (s.record result) := by
  have same : ∀ returned, Good { s with returned := returned } := fun _ =>
    ⟨good.once, good.tail, good.member, good.links, good.last, good.fronted, good.fifo⟩
  cases result with
  | enqueued => exact good
  | dequeued t =>
    cases t with
    | none => exact good
    | some t => exact same _

end

theorem Steady.of_stage (changed : after.stage = update s.stage n stage)
    (before : s.stage n ≠ .fresh t ∧ s.stage n ≠ .pending t)
    (notMine : stage ≠ .fresh t ∧ stage ≠ .pending t)
    (next : ∀ m, s.stage m = .fresh t → after.next m = s.next m)
    (thread : ∀ m, s.stage m = .fresh t → after.thread m = s.thread m)
    (first : ∀ m, s.stage m = .pending t → s.order.head? = some m → after.order.head? = some m)
    (adjacent : ∀ a m, s.stage m = .pending t → Adjacent s.order a m → Adjacent after.order a m) :
    Steady t s after := by
  refine ⟨?_, ?_, next, thread, first, adjacent⟩
  · intro m
    rw [changed]
    by_cases same : m = n
    · subst same
      rw [update_self]
      exact iff_of_false notMine.1 before.1
    · rw [update_of_ne same]
  · intro m
    rw [changed]
    by_cases same : m = n
    · subst same
      rw [update_self]
      exact iff_of_false notMine.2 before.2
    · rw [update_of_ne same]

theorem held_of_stage
    (changed : after.stage = update s.stage n stage) (before : s.stage n ≠ .held)
    (later : stage ≠ .held) : ∀ m, after.stage m = .held ↔ s.stage m = .held := by
  intro m
  rw [changed]
  by_cases same : m = n
  · subst same
    rw [update_self]
    exact iff_of_false later before
  · rw [update_of_ne same]

end Qthreads.Nemesis
