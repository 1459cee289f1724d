import Qthreads.Sherwood.SpawnCache
import Qthreads.Tqueue.Filters

namespace Qthreads.Sherwood

open Lib Links

inductive Cursor where
  | head
  | tail
  | next (node : Nat)
  | prev (node : Nat)

def Cursor.store (heap : Heap) (q : Queue) (target : Option Nat) : Cursor → Heap × Queue
  | head => (heap, { q with head := target })
  | tail => (heap, { q with tail := target })
  | next node => (heap.setNext node target, q)
  | prev node => (heap.setPrev node target, q)

/-- `lp` for a node: `&q->head` or `&(node->prev->next)`. -/
def lpOf (heap : Heap) (q : Queue) (node : Option Nat) : Option Cursor :=
  if q.head = node then some .head
  else node.bind fun node => (heap.prev node).map .next

/-- `*lp = node->next; *rp = node->prev;`, with the counters, and `FREE_TQNODE`. -/
def cutNode (heap : Heap) (q : Queue) (lp rp : Cursor) (node : Nat) : Heap × Queue :=
  let (heap, q) := lp.store heap q (heap.next node)
  let (heap, q) := rp.store heap q (heap.prev node)
  (heap.free node, q.counted (-1) (-heap.weight node))

/-- The loop over a list; `guarded` is the `if (node)` that only `qt_threadqueue_filter` has.  Also
the tasks that were asked about, the latest first. -/
def filterLoop (guarded : Bool) (f : Filter Task) : Nat → List Task → Heap → Queue → Cursor → Cursor →
    Option Nat → Option (List Task × Heap × Queue)
  | _, asked, heap, q, _, _, none => some (asked, heap, q)
  | 0, _, _, _, _, _, some _ => none
  | fuel + 1, asked, heap, q, lp, rp, some node =>
    let t := heap.value node
    match f asked t with
    | .ignoreAndContinue =>
      if guarded = true ∧ heap.prev node = none then
        filterLoop guarded f fuel (t :: asked) heap q lp (.prev node) none
      else do
        let lp ← lpOf heap q (heap.prev node)
        filterLoop guarded f fuel (t :: asked) heap q lp (.prev node) (heap.prev node)
    | .ignoreAndStop => some (t :: asked, heap, q)
    | .removeAndContinue => do
        let (heap, q) := cutNode heap q lp rp node
        let lp ← lpOf heap q (heap.prev node)
        filterLoop guarded f fuel (t :: asked) heap q lp rp (heap.prev node)
    | .removeAndStop =>
      let (heap, q) := cutNode heap q lp rp node
      some (t :: asked, heap, q)

def filterList (guarded : Bool) (f : Filter Task) (asked : List Task) (heap : Heap) (q : Queue) :
    Option (List Task × Heap × Queue) :=
  if 0 < q.qlength then do
    let lp ← lpOf heap q q.tail
    filterLoop guarded f heap.fuel asked heap q lp .tail q.tail
  else
    some (asked, heap, q)

def filter (f : Filter Task) (heap : Heap) (q : Queue) : Option (List Task × Heap × Queue) :=
  filterList true f [] heap q

/-- From `fixup_on_deck` on. -/
def fixupOnDeck (heap : Heap) (c : Cache) : Heap × Cache :=
  match c.onDeck with
  | none => refillDeck heap c
  | some _ => (heap, c)

def privateFilter (f : Filter Task) (heap : Heap) (c : Cache) :
    Option (List Task × Heap × Cache) :=
  let rest (asked : List Task) (heap : Heap) (onDeck : Option Nat) :=
    (filterList false f asked heap c.toQueue).map fun (asked, heap, q) =>
      (asked, fixupOnDeck heap ⟨q, onDeck⟩)
  match c.onDeck with
  | none => rest [] heap none
  | some n =>
    let t := heap.value n
    match f [] t with
    | .ignoreAndContinue => rest [t] heap (some n)
    | .ignoreAndStop => some ([t], heap, c)
    | .removeAndContinue => rest [t] (heap.free n) none
    | .removeAndStop => some ([t], fixupOnDeck (heap.free n) { c with onDeck := none })

variable {Q C H : Type} [DecidableEq Q] [DecidableEq C] [DecidableEq H]

namespace State

variable (s : State Q C H)

def filter (f : Filter Task) (q : Q) : Option (List Task × State Q C H) :=
  (Sherwood.filter f s.heap (s.queues q)).map fun (asked, heap, queue) =>
    (asked.reverse, s.setQueue heap q queue)

def privateFilter (f : Filter Task) (c : C) : Option (List Task × State Q C H) :=
  (Sherwood.privateFilter f s.heap (s.caches c)).map fun (asked, heap, cache) =>
    (asked.reverse, s.setCache heap c cache)

def newest (q : Q) : List Task := (s.tasks (.queue q)).reverse

def newestCached (c : C) : List Task := s.tasks (.deck c) ++ (s.tasks (.cache c)).reverse

/-- The filter follows no `NULL`, asks about the tasks from the newest on up to the first stop, and
leaves well-formed lists without those that are to be removed. -/
def Filters (f : Filter Task) (q : Q) : Prop :=
  ∃ after lists, s.filter f q = some (f.sieve.asks [] (s.newest q), after) ∧ Holds after lists ∧
    after.tasks = Function.update s.tasks (.queue q) (f.sieve.kept [] (s.newest q)).reverse

def FiltersCache (f : Filter Task) (c : C) : Prop :=
  ∃ after lists, s.privateFilter f c = some (f.sieve.asks [] (s.newestCached c), after) ∧
    Holds after lists ∧ after.newestCached c = f.sieve.kept [] (s.newestCached c) ∧
    ∀ place, place ≠ .cache c → place ≠ .deck c → after.tasks place = s.tasks place

def Trips (f : Filter Task) (q : Q) : Prop :=
  f.sieve.Exhausts [] (s.newest q) ∧ f.sieve.RemovesLast [] (s.newest q) ∧
    f.sieve.kept [] (s.newest q) ≠ []

def Stays (f : Filter Task) (c : C) : Prop :=
  ∃ t, s.tasks (.deck c) = [t] ∧ f.sieve.removes [] t = false

/-- No answer is to stop and a task of the list stays, or the one on deck goes and two of the list
stay. -/
def TripsCache (f : Filter Task) (c : C) : Prop :=
  s.Stays f c ∧ f.sieve.Exhausts [] (s.newestCached c) ∧
      2 ≤ (f.sieve.kept [] (s.newestCached c)).length ∨
    ¬ s.Stays f c ∧ (f.sieve.Exhausts [] (s.newestCached c) ∧
        f.sieve.kept [] (s.newestCached c) ≠ [] ∨
      2 ≤ (f.sieve.kept [] (s.newestCached c)).length)

end State

end Qthreads.Sherwood
