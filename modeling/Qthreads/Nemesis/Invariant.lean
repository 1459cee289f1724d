import Qthreads.Lib.Adjacent
import Qthreads.Nemesis.Machine

namespace Qthreads.Nemesis

open Lib
open Tqueue (Node Task)

def Queued : Stage → Prop
  | .pending _ => True
  | .linked => True
  | _ => False

def First (s : Shared) (n : Node) : Prop := s.order.head? = some n ∧ s.stage n = .linked

def Fronted (s : Shared) : Prop :=
  match s.front with
  | .atHead => s.shadowHead = none ∧ (s.order = [] → s.head = none) ∧
      ∀ n, s.order.head? = some n → s.head = if s.stage n = .linked then some n else none
  | .moving => ∃ n, First s n ∧ s.head = some n ∧ s.shadowHead = some n
  | .atShadow => ∃ n, First s n ∧ s.head = none ∧ s.shadowHead = some n
  | .cut => ∃ n, First s n ∧ s.head = none ∧ s.shadowHead = none

structure Good (s : Shared) : Prop where
  once : s.order.Nodup
  tail : s.tail = s.order.getLast?
  member : ∀ n, n ∈ s.order ↔ Queued (s.stage n)
  links : ∀ a b, Adjacent s.order a b → s.next a = if s.stage b = .linked then some b else none
  last : ∀ n, s.order.getLast? = some n → s.next n = none
  fronted : Fronted s
  fifo : s.swapped = s.taken ++ s.order.map s.thread

namespace Pc

def fresh : Pc → Option Node
  | eFill _ node => some node
  | eSwap node => some node
  | _ => none

def pending : Pc → Option Node
  | eHead node => some node
  | eLink _ node => some node
  | _ => none

def held : Pc → Option Node
  | dUnlink dequeued => some dequeued
  | dThread dequeued => some dequeued
  | dFree dequeued _ => some dequeued
  | _ => none

def inHand (s : Shared) : Pc → List Task
  | dUnlink dequeued => [s.thread dequeued]
  | dThread dequeued => [s.thread dequeued]
  | dFree _ retval => [retval]
  | done (.dequeued (some t)) => [t]
  | _ => []

def dequeues : Pc → Bool
  | idle => false
  | done .enqueued => false
  | eAlloc _ => false
  | eFill _ _ => false
  | eSwap _ => false
  | eHead _ => false
  | eLink _ _ => false
  | _ => true

end Pc

def Place (s : Shared) : Pc → Prop
  | .eSwap node => s.next node = none
  | .eHead node => s.order.head? = some node
  | .eLink prev node => Adjacent s.order prev node
  | _ => True

def Consumes (s : Shared) : Pc → Prop
  | .dHead => s.front = .atHead
  | .dAdopt => s.front = .atHead ∧ s.head ≠ none
  | .dClear => s.front = .moving
  | .dTake => s.front = .atShadow
  | .dNext n | .dLast n => s.front = .atShadow ∧ s.order.head? = some n
  | .dStep n => s.front = .atShadow ∧ s.order.head? = some n ∧ s.next n ≠ none
  | .dCas n => s.front = .cut ∧ s.order.head? = some n
  | .dSpin n => s.front = .cut ∧ s.order.head? = some n ∧ s.tail ≠ some n
  | .dSpun n => s.front = .cut ∧ s.order.head? = some n ∧ s.next n ≠ none
  | _ => s.front = .atHead ∨ s.front = .atShadow

structure Own (consumer me : Nat) (s : Shared) (pc : Pc) : Prop where
  fresh : ∀ n, s.stage n = .fresh me ↔ pc.fresh = some n
  pending : ∀ n, s.stage n = .pending me ↔ pc.pending = some n
  place : Place s pc
  dequeuing : pc.dequeues = true → me = consumer
  consumes : me = consumer → Consumes s pc
  held : me = consumer → ∀ n, s.stage n = .held ↔ pc.held = some n
  taken : me = consumer → s.taken = s.returned ++ pc.inHand s

variable {s after : Shared} {consumer me t : Nat} {n node prev : Node} {pc : Pc}

structure Steady (t : Nat) (s after : Shared) : Prop where
  fresh : ∀ n, after.stage n = .fresh t ↔ s.stage n = .fresh t
  pending : ∀ n, after.stage n = .pending t ↔ s.stage n = .pending t
  next : ∀ n, s.stage n = .fresh t → after.next n = s.next n
  thread : ∀ n, s.stage n = .fresh t → after.thread n = s.thread n
  first : ∀ n, s.stage n = .pending t → s.order.head? = some n → after.order.head? = some n
  adjacent : ∀ a n, s.stage n = .pending t → Adjacent s.order a n → Adjacent after.order a n

structure Undisturbed (s after : Shared) : Prop where
  held : ∀ n, after.stage n = .held ↔ s.stage n = .held
  thread : ∀ n, s.stage n = .held → after.thread n = s.thread n
  front : after.front = s.front
  head : s.head ≠ none → after.head ≠ none
  first : ∀ n, s.order.head? = some n → after.order.head? = some n
  next : ∀ n ∈ s.order, s.next n ≠ none → after.next n ≠ none
  tail : ∀ n ∈ s.order, s.tail ≠ some n → after.tail ≠ some n
  taken : after.taken = s.taken
  returned : after.returned = s.returned

theorem Steady.place (steady : Steady t s after) (own : Own consumer t s pc) : Place after pc := by
  cases pc with
  | eSwap node =>
    have mine : s.stage node = .fresh t := (own.fresh node).mpr rfl
    have empty : s.next node = none := own.place
    exact (steady.next node mine).trans empty
  | eHead node => exact steady.first node ((own.pending node).mpr rfl) own.place
  | eLink prev node => exact steady.adjacent prev node ((own.pending node).mpr rfl) own.place
  | _ => trivial

theorem Undisturbed.consumes (undisturbed : Undisturbed s after) (here : Consumes s pc) :
    Consumes after pc := by
  have inside : ∀ {n}, s.order.head? = some n → n ∈ s.order := List.mem_of_mem_head?
  cases pc with
  | dHead => exact undisturbed.front.trans here
  | dAdopt => exact ⟨undisturbed.front.trans here.1, undisturbed.head here.2⟩
  | dClear => exact undisturbed.front.trans here
  | dTake => exact undisturbed.front.trans here
  | dNext n => exact ⟨undisturbed.front.trans here.1, undisturbed.first n here.2⟩
  | dLast n => exact ⟨undisturbed.front.trans here.1, undisturbed.first n here.2⟩
  | dStep n =>
    exact ⟨undisturbed.front.trans here.1, undisturbed.first n here.2.1,
      undisturbed.next n (inside here.2.1) here.2.2⟩
  | dCas n => exact ⟨undisturbed.front.trans here.1, undisturbed.first n here.2⟩
  | dSpin n =>
    exact ⟨undisturbed.front.trans here.1, undisturbed.first n here.2.1,
      undisturbed.tail n (inside here.2.1) here.2.2⟩
  | dSpun n =>
    exact ⟨undisturbed.front.trans here.1, undisturbed.first n here.2.1,
      undisturbed.next n (inside here.2.1) here.2.2⟩
  | _ => exact here.imp undisturbed.front.trans undisturbed.front.trans

theorem Undisturbed.inHand (undisturbed : Undisturbed s after)
    (held : ∀ n, s.stage n = .held ↔ pc.held = some n) : pc.inHand after = pc.inHand s := by
  cases pc with
  | dUnlink n => exact congrArg (fun t => [t]) (undisturbed.thread n ((held n).mpr rfl))
  | dThread n => exact congrArg (fun t => [t]) (undisturbed.thread n ((held n).mpr rfl))
  | done result =>
    cases result with
    | enqueued => rfl
    | dequeued t => cases t <;> rfl
  | _ => rfl

theorem Own.stable (own : Own consumer t s pc) (steady : Steady t s after)
    (undisturbed : t = consumer → Undisturbed s after) : Own consumer t after pc where
  fresh := fun n => (steady.fresh n).trans (own.fresh n)
  pending := fun n => (steady.pending n).trans (own.pending n)
  place := steady.place own
  dequeuing := own.dequeuing
  consumes := fun mine => (undisturbed mine).consumes (own.consumes mine)
  held := fun mine n => ((undisturbed mine).held n).trans (own.held mine n)
  taken := by
    intro mine
    rw [(undisturbed mine).taken, (undisturbed mine).returned, (undisturbed mine).inHand
      (own.held mine), own.taken mine]

theorem Steady.refl (t : Nat) (s : Shared) : Steady t s s :=
  ⟨fun _ => .rfl, fun _ => .rfl, fun _ _ => rfl, fun _ _ => rfl, fun _ _ => id, fun _ _ _ => id⟩

theorem Undisturbed.refl (s : Shared) : Undisturbed s s :=
  ⟨fun _ => .rfl, fun _ _ => rfl, rfl, id, fun _ => id, fun _ _ => id, fun _ _ => id, rfl, rfl⟩

end Qthreads.Nemesis
