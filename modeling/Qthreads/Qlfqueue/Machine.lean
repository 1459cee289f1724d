import Qthreads.Lib.Tasks

namespace Qthreads.Qlfqueue

open Function (update)

/-! `qlfqueue.c`

Every read of a shared word, every write of a hazard slot and every compare-and-swap is a step of
its own.  Nodes are told by their address, so that a node that was freed may come back from the
pool as another one. -/

abbrev Node := Nat

/-- Where a node is: in the pool, allocated and not filled in yet, filled in, in the queue, taken
off it by a thread, or on the list of nodes the thread wants to free. -/
inductive Status where
  | pool
  | fresh (thread : Nat)
  | own (thread : Nat)
  | linked
  | removed (thread : Nat)
  | retired (thread : Nat)
deriving DecidableEq

/-- The queue, its nodes and the hazard slots.  The fields from `status` on are not words the code
reads: `nodes` are the nodes from the head to the last one, `enqueued` and `dequeued` the elements
in the order of the compare-and-swaps that put them in and took them out, `watches` is the head
`qlfqueue_empty` works with, `took` the element that the call of a thread has taken out, and
`sawEmpty` and `sawSome` tell whether the queue had no element, and some element, at a moment of
the call. -/
structure Shared where
  head : Node
  tail : Node
  next : Node → Option Node
  value : Node → Nat
  slot0 : Nat → Option Node
  slot1 : Nat → Option Node
  status : Node → Status
  nodes : List Node
  enqueued : List Nat
  dequeued : List Nat
  watches : Nat → Option Node
  took : Nat → Option Nat
  sawEmpty : Nat → Bool
  sawSome : Nat → Bool

inductive Pc where
  | idle
  -- `qlfqueue_enqueue`
  | eAlloc (elem : Nat)
  | eInit (elem : Nat) (node : Node)
  | eLoop (elem : Nat) (node : Node)
  | eHazard (elem : Nat) (node tail : Node)
  | eCheck (elem : Nat) (node tail : Node)
  | eNext (elem : Nat) (node tail : Node)
  | eHelp (elem : Nat) (node tail next : Node)
  | eCas (elem : Nat) (node tail : Node)
  | eSwing (node tail : Node)
  | eClear
  -- `qlfqueue_dequeue`
  | dLoop
  | dHazard (head : Node)
  | dCheck (head : Node)
  | dTail (head : Node)
  | dNext (head tail : Node)
  | dHazard1 (head tail : Node) (next : Option Node)
  | dHelp (head next : Node)
  | dValue (head next : Node)
  | dCas (head next : Node) (p : Nat)
  | dRelease (head : Node) (p : Nat)
  | dClear0 (p : Nat)
  | dClear1 (p : Nat)
  | dequeued (result : Option Nat)
  -- `qlfqueue_empty`
  | mLoop
  | mTail (head : Node)
  | mNext (head tail : Node)
  | mCheck (head tail : Node) (next : Option Node)
  | emptied (answer : Bool)

namespace Shared

variable (s : Shared)

def contents : List Nat := s.nodes.tail.map s.value

/-- The queue as `qlfqueue_create` leaves it. -/
def create (head : Node) : Shared where
  head := head
  tail := head
  next := fun _ => none
  value := fun _ => 0
  slot0 := fun _ => none
  slot1 := fun _ => none
  status := fun node => if node = head then .linked else .pool
  nodes := [head]
  enqueued := []
  dequeued := []
  watches := fun _ => none
  took := fun _ => none
  sawEmpty := fun _ => false
  sawSome := fun _ => false

def observe : Shared :=
  { s with
    sawEmpty := fun thread => s.sawEmpty thread || s.contents.isEmpty
    sawSome := fun thread => s.sawSome thread || !s.contents.isEmpty }

def begin (me : Nat) : Shared :=
  { s with
    took := update s.took me none
    sawEmpty := update s.sawEmpty me false
    sawSome := update s.sawSome me false }

def setStatus (node : Node) (status : Status) : Shared :=
  { s with status := update s.status node status }

def setSlot0 (me : Nat) (node : Option Node) : Shared :=
  { s with slot0 := update s.slot0 me node }

def setSlot1 (me : Nat) (node : Option Node) : Shared :=
  { s with slot1 := update s.slot1 me node }

def fill (node : Node) (value : Nat) (next : Option Node) : Shared :=
  { s with
    value := update s.value node value
    next := update s.next node next }

/-- The compare-and-swap of `tail->next`. -/
def link (tail node : Node) (elem : Nat) : Shared :=
  { s with
    next := update s.next tail (some node)
    status := update s.status node .linked
    nodes := s.nodes ++ [node]
    enqueued := s.enqueued ++ [elem] }

/-- The compare-and-swap of `q->head`. -/
def remove (me : Nat) (head next : Node) (p : Nat) : Shared :=
  { s with
    head := next
    status := update s.status head (.removed me)
    nodes := s.nodes.tail
    dequeued := s.dequeued ++ [p]
    took := update s.took me (some p) }

def swing (next : Node) : Shared := { s with tail := next }

def watch (me : Nat) (node : Option Node) : Shared :=
  { s with watches := update s.watches me node }

end Shared

inductive Label where
  | call
  | go
  | alloc (node : Node)
  | free (node : Node)

inductive Act (me : Nat) : Shared → Pc → Label → Shared → Pc → Prop where
  | enqueue {s : Shared} (elem : Nat) : elem ≠ 0 →
      Act me s .idle .call (s.begin me) (.eAlloc elem)
  | alloc {s : Shared} {elem : Nat} (node : Node) : s.status node = .pool →
      Act me s (.eAlloc elem) (.alloc node) (s.setStatus node (.fresh me)) (.eInit elem node)
  | init {s : Shared} {elem : Nat} {node : Node} :
      Act me s (.eInit elem node) .go ((s.fill node elem none).setStatus node (.own me))
        (.eLoop elem node)
  | eTail {s : Shared} {elem : Nat} {node : Node} :
      Act me s (.eLoop elem node) .go s (.eHazard elem node s.tail)
  | eHazard {s : Shared} {elem : Nat} {node tail : Node} :
      Act me s (.eHazard elem node tail) .go (s.setSlot0 me (some tail)) (.eCheck elem node tail)
  | eCheck {s : Shared} {elem : Nat} {node tail : Node} : tail = s.tail →
      Act me s (.eCheck elem node tail) .go s (.eNext elem node tail)
  | eRetry {s : Shared} {elem : Nat} {node tail : Node} : tail ≠ s.tail →
      Act me s (.eCheck elem node tail) .go s (.eLoop elem node)
  | eLast {s : Shared} {elem : Nat} {node tail : Node} : s.next tail = none →
      Act me s (.eNext elem node tail) .go s (.eCas elem node tail)
  | eBehind {s : Shared} {elem : Nat} {node tail next : Node} : s.next tail = some next →
      Act me s (.eNext elem node tail) .go s (.eHelp elem node tail next)
  | eHelp {s : Shared} {elem : Nat} {node tail next : Node} : s.tail = tail →
      Act me s (.eHelp elem node tail next) .go (s.swing next) (.eLoop elem node)
  | eHelpFail {s : Shared} {elem : Nat} {node tail next : Node} : s.tail ≠ tail →
      Act me s (.eHelp elem node tail next) .go s (.eLoop elem node)
  | link {s : Shared} {elem : Nat} {node tail : Node} : s.next tail = none →
      Act me s (.eCas elem node tail) .go (s.link tail node elem) (.eSwing node tail)
  | linkFail {s : Shared} {elem : Nat} {node tail : Node} : s.next tail ≠ none →
      Act me s (.eCas elem node tail) .go s (.eLoop elem node)
  | eSwing {s : Shared} {node tail : Node} : s.tail = tail →
      Act me s (.eSwing node tail) .go (s.swing node) .eClear
  | eSwingFail {s : Shared} {node tail : Node} : s.tail ≠ tail →
      Act me s (.eSwing node tail) .go s .eClear
  | eClear {s : Shared} : Act me s .eClear .go (s.setSlot0 me none) .idle
  | dequeue {s : Shared} : Act me s .idle .call (s.begin me) .dLoop
  | dHead {s : Shared} : Act me s .dLoop .go s (.dHazard s.head)
  | dHazard {s : Shared} {head : Node} :
      Act me s (.dHazard head) .go (s.setSlot0 me (some head)) (.dCheck head)
  | dCheck {s : Shared} {head : Node} : head = s.head →
      Act me s (.dCheck head) .go s (.dTail head)
  | dRetry {s : Shared} {head : Node} : head ≠ s.head → Act me s (.dCheck head) .go s .dLoop
  | dTail {s : Shared} {head : Node} : Act me s (.dTail head) .go s (.dNext head s.tail)
  | dNext {s : Shared} {head tail : Node} :
      Act me s (.dNext head tail) .go s (.dHazard1 head tail (s.next head))
  | dNull {s : Shared} {head tail : Node} :
      Act me s (.dHazard1 head tail none) .go (s.setSlot1 me none) (.dequeued none)
  | dBehind {s : Shared} {head tail next : Node} : head = tail →
      Act me s (.dHazard1 head tail (some next)) .go (s.setSlot1 me (some next)) (.dHelp head next)
  | dAhead {s : Shared} {head tail next : Node} : head ≠ tail →
      Act me s (.dHazard1 head tail (some next)) .go (s.setSlot1 me (some next)) (.dValue head next)
  | dHelp {s : Shared} {head next : Node} : s.tail = head →
      Act me s (.dHelp head next) .go (s.swing next) .dLoop
  | dHelpFail {s : Shared} {head next : Node} : s.tail ≠ head →
      Act me s (.dHelp head next) .go s .dLoop
  | dValue {s : Shared} {head next : Node} :
      Act me s (.dValue head next) .go s (.dCas head next (s.value next))
  | remove {s : Shared} {head next : Node} {p : Nat} : s.head = head →
      Act me s (.dCas head next p) .go (s.remove me head next p) (.dRelease head p)
  | removeFail {s : Shared} {head next : Node} {p : Nat} : s.head ≠ head →
      Act me s (.dCas head next p) .go s .dLoop
  -- `hazardous_release_node`
  | release {s : Shared} {head : Node} {p : Nat} :
      Act me s (.dRelease head p) .go (s.setStatus head (.retired me)) (.dClear0 p)
  | dClear0 {s : Shared} {p : Nat} :
      Act me s (.dClear0 p) .go (s.setSlot0 me none) (.dClear1 p)
  | dClear1 {s : Shared} {p : Nat} :
      Act me s (.dClear1 p) .go (s.setSlot1 me none) (.dequeued (some p))
  | dReturn {s : Shared} {result : Option Nat} : Act me s (.dequeued result) .go s .idle
  | empty {s : Shared} : Act me s .idle .call (s.begin me) .mLoop
  | mHead {s : Shared} : Act me s .mLoop .go (s.watch me (some s.head)) (.mTail s.head)
  | mTail {s : Shared} {head : Node} : Act me s (.mTail head) .go s (.mNext head s.tail)
  | mNext {s : Shared} {head tail : Node} :
      Act me s (.mNext head tail) .go s (.mCheck head tail (s.next head))
  | mAnswer {s : Shared} {head tail : Node} {next : Option Node} : head = s.head →
      Act me s (.mCheck head tail next) .go (s.watch me none)
        (.emptied (decide (head = tail) && next.isNone))
  | mRetry {s : Shared} {head tail : Node} {next : Option Node} : head ≠ s.head →
      Act me s (.mCheck head tail next) .go (s.watch me none) .mLoop
  | mReturn {s : Shared} {answer : Bool} : Act me s (.emptied answer) .go s .idle
  -- a scan frees a node the thread has retired and no other thread holds
  | free {s : Shared} {pc : Pc} (node : Node) : s.status node = .retired me →
      (∀ other, other ≠ me → s.slot0 other ≠ some node ∧ s.slot1 other ≠ some node) →
      Act me s pc (.free node) (s.setStatus node .pool) pc
  -- the pool and `memset` write into nodes that are not filled in
  | scribble {s : Shared} {pc : Pc} (node : Node) (value : Nat) (next : Option Node) :
      (s.status node = .pool ∨ ∃ thread, s.status node = .fresh thread) →
      Act me s pc .go (s.fill node value next) pc

def Observed (me : Nat) (s : Shared) (pc : Pc) (label : Label) (after : Shared) (next : Pc) : Prop :=
  ∃ raw, Act me s pc label raw next ∧ after = raw.observe

abbrev Config := Lib.Config Shared Pc

abbrev Step : Config → Nat × Label → Config → Prop := Lib.Config.Step Observed

end Qthreads.Qlfqueue
