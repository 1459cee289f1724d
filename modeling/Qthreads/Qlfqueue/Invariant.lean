import Qthreads.Lib.Chain
import Qthreads.Qlfqueue.Machine

namespace Qthreads.Qlfqueue

open Lib

def Visible : Status → Prop
  | .linked => True
  | .removed _ => True
  | .retired _ => True
  | _ => False

def Unused : Status → Prop
  | .fresh _ => False
  | .own _ => False
  | _ => True

structure Sound (s : Shared) : Prop where
  chain : Chain s.next (some s.head) s.nodes none
  once : s.nodes.Nodup
  tail : s.tail ∈ s.nodes
  linked : ∀ n, n ∈ s.nodes ↔ s.status n = .linked
  gone : ∀ n, Visible (s.status n) → s.status n ≠ .linked → s.next n ≠ none
  fifo : s.dequeued ++ s.contents = s.enqueued
  nonzero : ∀ v ∈ s.enqueued, v ≠ 0

structure Good (s : Shared) : Prop extends Sound s where
  sawEmpty : ∀ t, s.contents = [] → s.sawEmpty t = true
  sawSome : ∀ t, s.contents ≠ [] → s.sawSome t = true

variable {s after : Shared} {strict : Bool} {t me : Nat} {n : Node} {pc : Pc}

def Kept (s : Shared) (t : Nat) (n : Node) : Prop :=
  Visible (s.status n) ∧ s.status n ≠ .retired t

def Held (s : Shared) (t : Nat) (n : Node) : Prop := s.slot0 t = some n ∧ Kept s t n

def First (s : Shared) (n : Node) : Prop := n = s.head ∨ s.status n ≠ .linked

def Ready (s : Shared) (t : Nat) (elem : Nat) (n : Node) : Prop :=
  elem ≠ 0 ∧ s.status n = .own t ∧ s.value n = elem ∧ s.next n = none

def Watched (s : Shared) (t : Nat) (n : Node) : Prop :=
  s.watches t = some n ∧ Unused (s.status n) ∧ First s n

def Own (strict : Bool) (t : Nat) (s : Shared) : Pc → Prop
  | .eAlloc elem => elem ≠ 0
  | .eInit elem n => elem ≠ 0 ∧ s.status n = .fresh t
  | .eLoop elem n | .eHazard elem n _ => Ready s t elem n
  | .eCheck elem n tail => Ready s t elem n ∧ s.slot0 t = some tail
  | .eNext elem n tail | .eCas elem n tail => Ready s t elem n ∧ Held s t tail
  | .eHelp elem n tail next => Ready s t elem n ∧ Held s t tail ∧ s.next tail = some next
  | .eSwing n tail => Held s t tail ∧ s.next tail = some n
  | .dCheck head => s.slot0 t = some head
  | .dTail head => Held s t head ∧ First s head
  | .dNext head tail => Held s t head ∧ First s head ∧ (tail ≠ head → s.head = head → s.tail ≠ head)
  | .dHazard1 head tail next => Held s t head ∧ First s head ∧
      (tail ≠ head → s.head = head → s.tail ≠ head) ∧ (next = none → s.sawEmpty t = true) ∧
      (next ≠ none → s.next head = next)
  | .dHelp head next => Held s t head ∧ s.next head = some next
  | .dValue head next => Held s t head ∧ First s head ∧ (s.head = head → s.tail ≠ head) ∧
      s.next head = some next
  | .dCas head next p => Held s t head ∧ First s head ∧ (s.head = head → s.tail ≠ head) ∧
      s.next head = some next ∧ (s.head = head → s.value next = p)
  | .dRelease head p => s.status head = .removed t ∧ p ≠ 0
  | .dClear0 p | .dClear1 p => p ≠ 0
  | .dequeued result => (result = none → s.sawEmpty t = true) ∧ result ≠ some 0
  | .mTail head => strict = true → Watched s t head
  | .mNext head tail => strict = true → Watched s t head ∧
      (s.head = head → head ≠ tail → s.sawSome t = true)
  | .mCheck head tail next => strict = true → Watched s t head ∧
      (s.head = head → head ≠ tail → s.sawSome t = true) ∧
      (s.head = head → next = none → s.sawEmpty t = true) ∧
      (s.head = head → next ≠ none → s.sawSome t = true)
  | .emptied answer => strict = true → (answer = true → s.sawEmpty t = true) ∧
      (answer = false → s.sawSome t = true)
  | _ => True

theorem Visible.unused {status : Status} (visible : Visible status) : Unused status := by
  cases status with
  | fresh thread => exact visible
  | own thread => exact visible
  | _ => trivial

structure Steady (strict : Bool) (t : Nat) (s after : Shared) : Prop where
  slot0 : after.slot0 t = s.slot0 t
  watches : after.watches t = s.watches t
  sawEmpty : s.sawEmpty t = true → after.sawEmpty t = true
  sawSome : s.sawSome t = true → after.sawSome t = true
  fresh : ∀ n, s.status n = .fresh t → after.status n = .fresh t
  own : ∀ n, s.status n = .own t →
    after.status n = .own t ∧ after.value n = s.value n ∧ after.next n = s.next n
  removed : ∀ n, s.status n = .removed t → after.status n = .removed t
  kept : ∀ n, s.slot0 t = some n → Kept s t n → Kept after t n
  watched : strict = true → ∀ n, s.watches t = some n → Unused (s.status n) →
    Unused (after.status n)
  next : ∀ n x, Visible (s.status n) → s.next n = some x → after.next n = some x
  first : ∀ n, First s n → Unused (s.status n) → First after n
  back : ∀ n, First s n → Unused (s.status n) → after.head = n → s.head = n
  tail : ∀ n, s.head = n → after.head = n → s.tail ≠ n → after.tail ≠ n
  value : ∀ n, s.status n = .linked → after.value n = s.value n

namespace Steady

variable (steady : Steady strict t s after)

include steady

theorem ready {elem : Nat} (ready : Ready s t elem n) : Ready after t elem n := by
  obtain ⟨nonzero, status, value, next⟩ := ready
  obtain ⟨status', value', next'⟩ := steady.own n status
  exact ⟨nonzero, status', value'.trans value, next'.trans next⟩

theorem held (held : Held s t n) : Held after t n :=
  ⟨steady.slot0.trans held.1, steady.kept n held.1 held.2⟩

theorem heldFirst (held : Held s t n) (first : First s n) : First after n :=
  steady.first n first held.2.1.unused

theorem tailPassed (held : Held s t n) (first : First s n) (passed : s.head = n → s.tail ≠ n) :
    after.head = n → after.tail ≠ n := by
  intro here
  have before := steady.back n first held.2.1.unused here
  exact steady.tail n before here (passed before)

theorem heldNext {x : Node} (held : Held s t n) (next : s.next n = some x) :
    after.next n = some x :=
  steady.next n x held.2.1 next

theorem keepsWatch (isStrict : strict = true) (watched : Watched s t n) : Watched after t n := by
  obtain ⟨watches, unused, first⟩ := watched
  exact ⟨steady.watches.trans watches, steady.watched isStrict n watches unused,
    steady.first n first unused⟩

end Steady

theorem Sound.nonempty (sound : Sound s) : ∃ rest, s.nodes = s.head :: rest := by
  have chain := sound.chain
  cases shape : s.nodes with
  | nil =>
    have tail := sound.tail
    rw [shape] at tail
    cases tail
  | cons first rest =>
    rw [shape] at chain
    cases chain.1
    exact ⟨rest, rfl⟩

theorem Sound.second {x : Node} (sound : Sound s) (next : s.next s.head = some x) :
    ∃ rest, s.nodes = s.head :: x :: rest := by
  obtain ⟨rest, shape⟩ := sound.nonempty
  have chain := sound.chain
  rw [shape] at chain
  have later := chain.2
  rw [next] at later
  cases rest with
  | nil => cases later
  | cons second others =>
    cases later.1
    exact ⟨others, shape⟩

theorem Own.stable (sound : Sound s) (steady : Steady strict t s after) (own : Own strict t s pc) :
    Own strict t after pc := by
  cases pc with
  | eAlloc elem => exact own
  | eInit elem n => exact ⟨own.1, steady.fresh n own.2⟩
  | eLoop elem n => exact steady.ready own
  | eHazard elem n tail => exact steady.ready own
  | eCheck elem n tail => exact ⟨steady.ready own.1, steady.slot0.trans own.2⟩
  | eNext elem n tail => exact ⟨steady.ready own.1, steady.held own.2⟩
  | eCas elem n tail => exact ⟨steady.ready own.1, steady.held own.2⟩
  | eHelp elem n tail next =>
    obtain ⟨ready, held, next⟩ := own
    exact ⟨steady.ready ready, steady.held held, steady.heldNext held next⟩
  | eSwing n tail => exact ⟨steady.held own.1, steady.heldNext own.1 own.2⟩
  | dCheck head => exact steady.slot0.trans own
  | dTail head => exact ⟨steady.held own.1, steady.heldFirst own.1 own.2⟩
  | dNext head tail =>
    obtain ⟨held, first, passed⟩ := own
    exact ⟨steady.held held, steady.heldFirst held first,
      fun differs => steady.tailPassed held first (passed differs)⟩
  | dHazard1 head tail next =>
    obtain ⟨held, first, passed, null, present⟩ := own
    refine ⟨steady.held held, steady.heldFirst held first,
      fun differs => steady.tailPassed held first (passed differs),
      fun isNull => steady.sawEmpty (null isNull), fun isSome => ?_⟩
    have pointed := present isSome
    cases next with
    | none => exact absurd rfl isSome
    | some x => exact steady.heldNext held pointed
  | dHelp head next => exact ⟨steady.held own.1, steady.heldNext own.1 own.2⟩
  | dValue head next =>
    obtain ⟨held, first, passed, pointed⟩ := own
    exact ⟨steady.held held, steady.heldFirst held first, steady.tailPassed held first passed,
      steady.heldNext held pointed⟩
  | dCas head next p =>
    obtain ⟨held, first, passed, pointed, value⟩ := own
    refine ⟨steady.held held, steady.heldFirst held first, steady.tailPassed held first passed,
      steady.heldNext held pointed, fun here => ?_⟩
    have before := steady.back head first held.2.1.unused here
    rw [← before] at pointed
    obtain ⟨rest, shape⟩ := sound.second pointed
    have inside : s.status next = .linked := by
      rw [← sound.linked, shape]
      simp
    exact (steady.value next inside).trans (value before)
  | dRelease head p => exact ⟨steady.removed head own.1, own.2⟩
  | dClear0 p => exact own
  | dClear1 p => exact own
  | dequeued result => exact ⟨fun null => steady.sawEmpty (own.1 null), own.2⟩
  | mTail head => exact fun isStrict => steady.keepsWatch isStrict (own isStrict)
  | mNext head tail =>
    intro isStrict
    obtain ⟨watched, ahead⟩ := own isStrict
    refine ⟨steady.keepsWatch isStrict watched, fun here differs => ?_⟩
    exact steady.sawSome (ahead (steady.back head watched.2.2 watched.2.1 here) differs)
  | mCheck head tail next =>
    intro isStrict
    obtain ⟨watched, ahead, null, present⟩ := own isStrict
    have back := steady.back head watched.2.2 watched.2.1
    exact ⟨steady.keepsWatch isStrict watched,
      fun here differs => steady.sawSome (ahead (back here) differs),
      fun here isNull => steady.sawEmpty (null (back here) isNull),
      fun here isSome => steady.sawSome (present (back here) isSome)⟩
  | emptied answer =>
    intro isStrict
    obtain ⟨yes, no⟩ := own isStrict
    exact ⟨fun isYes => steady.sawEmpty (yes isYes), fun isNo => steady.sawSome (no isNo)⟩
  | _ => trivial

end Qthreads.Qlfqueue
