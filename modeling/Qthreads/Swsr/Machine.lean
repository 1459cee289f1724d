import Qthreads.Lib.Ring
import Qthreads.Lib.Run

namespace Qthreads.Swsr

open Lib

/-! `qswsrqueue.c`

One writer and one reader.  Each read and each write of a field that both use is a step of its
own; what a call computes from its own values belongs to the step before. -/

/-- The elements are pointers, and 0 is `NULL`. -/
abbrev Elem := Nat

/-- `struct qswsrqueue_s`; `size` and `size2` are never different. -/
structure Queue where
  head : Nat
  tail : Nat
  size : Nat
  elements : Nat → Elem

def cachelineWidth : Nat := 64

/-- The size that is made of a requested one, in the 64 bits of a `size_t`. -/
def roundedSize (elements : Nat) : Nat :=
  let elements := if elements * 8 % 2 ^ 64 < cachelineWidth then cachelineWidth / 8 else elements
  if elements % cachelineWidth = 0 then elements
  else (elements + (cachelineWidth - elements % cachelineWidth)) % 2 ^ 64

/-- `qswsrqueue_create`, in memory that has anything in it. -/
def create (elements : Nat) (memory : Nat → Elem) : Option Queue :=
  if roundedSize elements > 2 ^ 32 - 1 then none else some ⟨0, 0, roundedSize elements, memory⟩

/-- The cell behind another one: `(index + 1) % q->size`. -/
def Queue.next (q : Queue) (index : Nat) : Nat := ringAt q.size index 1

inductive Writer where
  | idle
  /-- `if (next_tail != q->head)` in `qswsrqueue_enqueue` -/
  | test (elem : Elem) (cur : Nat)
  /-- `while (next_tail == q->head)` in `qswsrqueue_enqueue_blocking` -/
  | spin (elem : Elem) (cur : Nat)
  /-- `if (next_tail != q->head)` in `qswsrqueue_enqueue_blocking` -/
  | retest (elem : Elem) (cur : Nat)
  /-- `q->elements[cur_tail] = elem;` -/
  | store (elem : Elem) (cur : Nat)
  /-- `q->tail = next_tail;` -/
  | publish (elem : Elem) (cur : Nat)
deriving DecidableEq

inductive Reader where
  | idle
  /-- `if (cur_head == q->tail)` in `qswsrqueue_dequeue` -/
  | test (cur : Nat)
  /-- `while (next_head == q->tail)` in `qswsrqueue_dequeue_blocking` -/
  | spin (cur : Nat)
  /-- `if (next_head != q->tail)` in `qswsrqueue_dequeue_blocking` -/
  | retest (cur : Nat)
  /-- `item = q->elements[cur_head];` -/
  | load (cur : Nat)
  /-- `q->head = next_head;` -/
  | advance (cur : Nat) (item : Elem)
  /-- `q->head == q->tail` in `qswsrqueue_empty` -/
  | empty (cur : Nat)
deriving DecidableEq

/-- The queue and its two users; what was put into it and taken out of it; what
`qswsrqueue_empty` returned; and how many elements there were when an enqueue failed and when a
blocking dequeue went on waiting. -/
structure State where
  queue : Queue
  writer : Writer
  reader : Reader
  enqueued : List Elem
  taken : List Elem
  answers : List Bool
  refused : List Nat
  waited : List Nat

inductive Label where
  | enqueue (elem : Elem)
  | enqueueBlocking (elem : Elem)
  | write
  | dequeue
  | dequeueBlocking
  | isEmpty
  | read

namespace State

variable (s : State)

def stored : Nat := s.enqueued.length - s.taken.length

def write : Writer → Option State
  | .idle => none
  | .test elem cur => some <|
      if s.queue.next cur ≠ s.queue.head then { s with writer := .store elem cur }
      else { s with writer := .idle, refused := s.refused ++ [s.stored] }
  | .spin elem cur => some <|
      if s.queue.next cur = s.queue.head then s else { s with writer := .retest elem cur }
  | .retest elem cur => some <|
      if s.queue.next cur ≠ s.queue.head then { s with writer := .store elem cur }
      else { s with writer := .spin elem cur }
  | .store elem cur => some
      { s with
        queue := { s.queue with elements := Function.update s.queue.elements cur elem }
        writer := .publish elem cur }
  | .publish elem cur => some
      { s with
        queue := { s.queue with tail := s.queue.next cur }
        writer := .idle
        enqueued := s.enqueued ++ [elem] }

def read : Reader → Option State
  | .idle => none
  | .test cur => some { s with reader := if cur = s.queue.tail then .idle else .load cur }
  | .spin cur => some <|
      if s.queue.next cur = s.queue.tail then { s with waited := s.waited ++ [s.stored] }
      else { s with reader := .retest cur }
  | .retest cur => some <|
      if s.queue.next cur ≠ s.queue.tail then { s with reader := .load cur }
      else { s with reader := .spin cur, waited := s.waited ++ [s.stored] }
  | .load cur => some { s with reader := .advance cur (s.queue.elements cur) }
  | .advance cur item => some
      { s with
        queue := { s.queue with head := s.queue.next cur }
        reader := .idle
        taken := s.taken ++ [item] }
  | .empty cur => some
      { s with reader := .idle, answers := s.answers ++ [decide (cur = s.queue.tail)] }

def next : Label → Option State
  | .enqueue elem => if s.writer = .idle then some { s with writer := .test elem s.queue.tail } else none
  | .enqueueBlocking elem =>
    if s.writer = .idle then some { s with writer := .spin elem s.queue.tail } else none
  | .write => s.write s.writer
  | .dequeue => if s.reader = .idle then some { s with reader := .test s.queue.head } else none
  | .dequeueBlocking => if s.reader = .idle then some { s with reader := .spin s.queue.head } else none
  | .isEmpty => if s.reader = .idle then some { s with reader := .empty s.queue.head } else none
  | .read => s.read s.reader

def initial (q : Queue) : State := ⟨q, .idle, .idle, [], [], [], [], []⟩

def Step (before : State) (label : Label) (after : State) : Prop := before.next label = some after

/-- The reader is about to compare `next_head` with the tail. -/
def Waiting : Prop := ∃ cur, s.reader = .spin cur ∨ s.reader = .retest cur

def Ample (label : Label) : Prop := label = .read → s.Waiting → 2 ≤ s.stored

/-- A bounded queue: what comes out is what went in, in this order; a blocking dequeue goes on
waiting only while there is nothing; an enqueue fails only when there is no room. -/
structure Fifo : Prop where
  order : s.taken.filter (· ≠ 0) <+: s.enqueued.filter (· ≠ 0)
  fromQueue : s.taken <+: s.enqueued
  waits : ∀ n ∈ s.waited, n = 0
  refusals : ∀ n ∈ s.refused, n = s.queue.size - 1
  head : s.queue.head < s.queue.size
  tail : s.queue.tail < s.queue.size

end State

end Qthreads.Swsr
