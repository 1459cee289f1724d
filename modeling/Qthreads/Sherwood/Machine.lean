import Mathlib.Algebra.BigOperators.Group.Finset.Basic
import Mathlib.Data.Fintype.Basic
import Qthreads.Sherwood.Queues

namespace Qthreads.Sherwood

open Lib

variable (Q C H : Type)

/-- Queues, the caches of the workers, and what each thief holds in `stolen`. -/
structure State where
  heap : Heap
  queues : Q → Queue
  caches : C → Cache
  stolen : H → Option Nat

inductive Op where
  | enqueue (q : Q) (t : Task) (node : Nat)
  | enqueueYielded (q : Q) (t : Task) (node : Nat)
  | privateEnqueue (c : C) (t : Task) (node : Nat)
  | privateEnqueueYielded (c : C) (t : Task) (node : Nat)
  | enqueueCache (q : Q) (c : C)
  | getThread (q : Q) (qc : Option C)
  | dequeueSteal (thief : H) (v : Q) (stealChunksize seen : Int) (locked : Bool)
  | enqueueMultiple (thief : H) (q : Q)
  | takeStolen (thief : H)
  | dequeueSpecific (q : Q) (value : Nat)

inductive Place where
  | queue (q : Q)
  | cache (c : C)
  | deck (c : C)
  | stolen (thief : H)
deriving DecidableEq

variable {Q C H} [DecidableEq Q] [DecidableEq C] [DecidableEq H]

namespace State

variable (s : State Q C H)

def setQueue (heap : Heap) (q : Q) (queue : Queue) : State Q C H :=
  { s with heap, queues := Function.update s.queues q queue }

def setCache (heap : Heap) (c : C) (cache : Cache) : State Q C H :=
  { s with heap, caches := Function.update s.caches c cache }

def setStolen (thief : H) (node : Option Nat) : State Q C H :=
  { s with stolen := Function.update s.stolen thief node }

/-- `t = node->value; FREE_TQNODE(node);` -/
def take (node : Nat) : Option Task × State Q C H :=
  (some (s.heap.value node), { s with heap := s.heap.free node })

end State

def Op.apply (s : State Q C H) : Op Q C H → Option (Option Task × State Q C H)
  | enqueue q t node => (Sherwood.enqueue s.heap (s.queues q) node t).map fun (heap, queue) =>
    (none, s.setQueue heap q queue)
  | enqueueYielded q t node =>
    (Sherwood.enqueueYielded s.heap (s.queues q) node t).map fun (heap, queue) =>
      (none, s.setQueue heap q queue)
  | privateEnqueue c t node =>
    (Sherwood.privateEnqueue s.heap (s.caches c) node t).map fun (heap, cache) =>
      (none, s.setCache heap c cache)
  | privateEnqueueYielded c t node =>
    (Sherwood.enqueueYielded s.heap (s.caches c).toQueue node t).map fun (heap, queue) =>
      (none, s.setCache heap c ⟨queue, (s.caches c).onDeck⟩)
  | enqueueCache q c =>
    (Sherwood.enqueueCache s.heap (s.queues q) (s.caches c)).map fun (heap, queue, cache) =>
      (none, (s.setQueue heap q queue).setCache heap c cache)
  | getThread q qc =>
    (Sherwood.getThread s.heap (s.queues q) (qc.map s.caches)).map fun (node, heap, queue, cache) =>
      let s := s.setQueue heap q queue
      let s := match qc, cache with
        | some c, some cache => s.setCache heap c cache
        | _, _ => s
      match node with
      | none => (none, s)
      | some node => s.take node
  | dequeueSteal thief v stealChunksize seen locked =>
    (Sherwood.dequeueSteal s.heap (s.queues v) stealChunksize seen locked).map
      fun (first, heap, queue) => (none, (s.setQueue heap v queue).setStolen thief first)
  | enqueueMultiple thief q => do
      let first ← s.stolen thief
      let surplus ← s.heap.next first
      let heap := (s.heap.setNext first none).setPrev surplus none
      let (heap, queue) ← Sherwood.enqueueMultiple heap (s.queues q) surplus
      return (none, s.setQueue heap q queue)
  | takeStolen thief => (s.stolen thief).map fun node => (s.setStolen thief none).take node
  | dequeueSpecific q value =>
    (Sherwood.dequeueSpecific s.heap (s.queues q) value).map fun (node, heap, queue) =>
      (node.map heap.value, s.setQueue heap q queue)

/-- What a call relies on: a new node is in no list, `assert(cache->on_deck)`, a thief steals when
it has nothing, puts the surplus into a queue if there is one, and runs the task it is left
with. -/
def Op.Legal (s : State Q C H) : Op Q C H → Prop
  | enqueue _ _ node => node ∉ s.heap.allocated
  | enqueueYielded _ _ node => node ∉ s.heap.allocated
  | privateEnqueue _ _ node => node ∉ s.heap.allocated
  | privateEnqueueYielded _ _ node => node ∉ s.heap.allocated
  | enqueueCache _ c => (s.caches c).onDeck ≠ none
  | getThread _ _ => True
  | dequeueSteal thief _ _ _ _ => s.stolen thief = none
  | enqueueMultiple thief _ => (s.stolen thief).bind s.heap.next ≠ none
  | takeStolen thief => ∃ node, s.stolen thief = some node ∧ s.heap.next node = none
  | dequeueSpecific _ _ => True

instance Op.decidableLegal (s : State Q C H) : (op : Op Q C H) → Decidable (op.Legal s)
  | enqueue _ _ node => inferInstanceAs (Decidable (node ∉ s.heap.allocated))
  | enqueueYielded _ _ node => inferInstanceAs (Decidable (node ∉ s.heap.allocated))
  | privateEnqueue _ _ node => inferInstanceAs (Decidable (node ∉ s.heap.allocated))
  | privateEnqueueYielded _ _ node => inferInstanceAs (Decidable (node ∉ s.heap.allocated))
  | enqueueCache _ c => inferInstanceAs (Decidable ((s.caches c).onDeck ≠ none))
  | getThread _ _ => inferInstanceAs (Decidable True)
  | dequeueSteal thief _ _ _ _ => inferInstanceAs (Decidable (s.stolen thief = none))
  | enqueueMultiple thief _ =>
    inferInstanceAs (Decidable ((s.stolen thief).bind s.heap.next ≠ none))
  | takeStolen thief =>
    match held : s.stolen thief with
    | none => .isFalse fun ⟨_, other, _⟩ => Option.some_ne_none _ (other.symm.trans held)
    | some node => decidable_of_iff (s.heap.next node = none)
        ⟨fun single => ⟨node, held, single⟩, fun ⟨_, other, single⟩ =>
          (Option.some.inj (held.symm.trans other)).symm ▸ single⟩
  | dequeueSpecific _ _ => inferInstanceAs (Decidable True)

def walk (next : Nat → Option Nat) : Nat → Option Nat → List Nat
  | 0, _ => []
  | _ + 1, none => []
  | fuel + 1, some node => node :: walk next fuel (next node)

namespace State

variable (s : State Q C H)

def start : Place Q C H → Option Nat
  | .queue q => (s.queues q).head
  | .cache c => (s.caches c).head
  | .deck c => (s.caches c).onDeck
  | .stolen thief => s.stolen thief

def nodes (place : Place Q C H) : List Nat := walk s.heap.next s.heap.fuel (s.start place)

def tasks (place : Place Q C H) : List Task := (s.nodes place).map s.heap.value

end State

end Qthreads.Sherwood
