import Mathlib.Logic.Function.Basic

namespace Qthreads.Mpool

open Function (update update_of_ne update_self update_idem)

/-! `mpool.c`

A pool whose memory is blocks of items.  What the user writes into a live item is free; the
first two words of an item that is not live are its `next` and its `block_tail`. -/

/-- The sizes `qt_mpool_create_aligned` settles on, and the pointers that fit in a page. -/
structure Sizes where
  itemSize : Nat
  allocSize : Nat
  itemsPerAlloc : Nat
  pagePtrs : Nat
  fits : itemsPerAlloc * itemSize ≤ allocSize
  two : 2 ≤ itemsPerAlloc
  room : 2 ≤ pagePtrs

/-- `qt_mpool_create_aligned` keeps the item size it had before it may round it up to pages, and
counts the items of a block by the rounded size. -/
def Sizes.settled (itemSize rounded allocSize pagePtrs : Nat) (grown : itemSize ≤ rounded)
    (two : 2 ≤ allocSize / rounded) (room : 2 ≤ pagePtrs) : Sizes where
  itemSize := itemSize
  allocSize := allocSize
  itemsPerAlloc := allocSize / rounded
  pagePtrs := pagePtrs
  fits := Nat.le_trans (Nat.mul_le_mul_left _ grown) (Nat.div_mul_le_self allocSize rounded)
  two := two
  room := room

abbrev Item := Nat × Nat

/-- `threadlocal_cache_s`; a pointer without a value is `NULL`. -/
structure Cache where
  cache : Option Item
  count : Nat
  block : Option Nat
  i : Nat

inductive Word where
  | null
  | block (p : Nat)
  | page (p : Nat)

/-- Where a thread is in `qt_mpool_alloc` or `qt_mpool_free`, with the variables it needs. -/
inductive Place where
  | idle
  | pull
  | took (cache : Item)
  | grow
  | record (p : Nat)
  | fill (p : Nat)
  | push (n toglobal : Item) (cnt : Nat)
  | pushed (n : Item) (cnt : Nat)

/-- The pool, its threads, and which items were handed out and are in use. -/
structure State where
  next : Item → Option Item
  blockTail : Item → Option Item
  caches : Nat → Cache
  places : Nat → Place
  reusePool : Option Item
  pages : Nat → Nat → Word
  allocList : Word
  allocListPos : Nat
  blocks : Nat
  pageCount : Nat
  carved : Item → Bool
  live : Item → Bool

namespace State

/-- `qt_mpool_create`: one empty list page. -/
def create : State where
  next := fun _ => none
  blockTail := fun _ => none
  caches := fun _ => ⟨none, 0, none, 0⟩
  places := fun _ => .idle
  reusePool := none
  pages := fun _ _ => .null
  allocList := .page 0
  allocListPos := 0
  blocks := 0
  pageCount := 1
  carved := fun _ => false
  live := fun _ => false

variable (sizes : Sizes) (s : State) (thread : Nat)

def goto (place : Place) : State := { s with places := update s.places thread place }

def settle (cache : Cache) : State :=
  { s with
    caches := update s.caches thread cache
    places := update s.places thread .idle }

def hand (item : Item) : State :=
  { s with
    carved := update s.carved item true
    live := update s.live item true }

/-- `qt_mpool_alloc` up to a lock or its end. -/
def alloc : State :=
  let tc := s.caches thread
  match tc.cache with
  | some cache => (s.settle thread { tc with cache := s.next cache, count := tc.count - 1 }).hand cache
  | none =>
    match tc.block with
    | some block =>
      let ret := (block, tc.i)
      let i := tc.i + 1
      (s.settle thread { tc with
        block := if i = sizes.itemsPerAlloc then none else some block
        i := i }).hand ret
    | none => s.goto thread (if s.reusePool.isSome then .pull else .grow)

/-- `qt_mpool_free` up to the lock or its end; no result where an assertion fails. -/
def free (n : Item) : Option State :=
  let tc := s.caches thread
  let linked := match tc.cache with
    | some cache =>
      if tc.count ≠ 0 then
        some { s with
          next := update s.next n (some cache)
          blockTail := update s.blockTail n (s.blockTail cache) }
      else none
    | none =>
      if tc.count = 0 then
        some { s with
          next := update s.next n none
          blockTail := update s.blockTail n (some n) }
      else none
  linked.bind fun s =>
    let s := { s with live := update s.live n false }
    let cnt := tc.count + 1
    if cnt ≥ sizes.itemsPerAlloc * 2 then
      match s.blockTail n with
      | none => none
      | some tail =>
        match s.next tail with
        | none => none
        | some toglobal =>
          let s := { s with next := update s.next tail none }
          if (s.blockTail toglobal).isSome then some (s.goto thread (.push n toglobal cnt))
          else none
    else
      let s := if cnt = sizes.itemsPerAlloc + 1 then
          { s with blockTail := update s.blockTail n (some n) }
        else s
      some (s.settle thread { tc with cache := some n, count := cnt })

def recordBlock (p : Nat) : Option State :=
  let s := if s.allocListPos = sizes.pagePtrs - 1 then
      { s with
        pages := update s.pages s.pageCount
          (update (fun _ => .null) (sizes.pagePtrs - 1) s.allocList)
        allocList := .page s.pageCount
        allocListPos := 0
        pageCount := s.pageCount + 1 }
    else s
  match s.allocList with
  | .page page => some { s with
      pages := update s.pages page
        (update (s.pages page) s.allocListPos (.block p))
      allocListPos := s.allocListPos + 1 }
  | _ => none

/-- The next step of a thread that is not idle: a section under a lock, or what follows it. -/
def advance : Option State :=
  let tc := s.caches thread
  match s.places thread with
  | .idle => none
  | .pull =>
    match s.reusePool with
    | some cache =>
      match s.blockTail cache with
      | none => none
      | some tail => some ({ s with
          reusePool := s.next tail
          next := update s.next tail none }.goto thread (.took cache))
    | none => some (s.goto thread .grow)
  | .took cache => some ((s.settle thread { tc with
      cache := s.next cache
      count := sizes.itemsPerAlloc - 1 }).hand cache)
  | .grow => some ({ s with blocks := s.blocks + 1 }.goto thread (.record s.blocks))
  | .record p => (s.recordBlock sizes p).map fun s => s.goto thread (.fill p)
  | .fill p => some ((s.settle thread { tc with block := some p, i := 1 }).hand (p, 0))
  | .push n toglobal cnt =>
    match s.blockTail toglobal with
    | none => none
    | some tail => some ({ s with
        next := update s.next tail s.reusePool
        reusePool := some toglobal }.goto thread (.pushed n cnt))
  | .pushed n cnt => some (s.settle thread { tc with
      cache := some n
      count := cnt - sizes.itemsPerAlloc })

/-- The inner loop of `qt_mpool_destroy`: the blocks of a page that are freed. -/
def freeBlocks (page : Nat → Word) : Nat → Nat → List Nat
  | 0, _ => []
  | left + 1, i =>
    match page i with
    | .block p => p :: freeBlocks page left (i + 1)
    | _ => []

/-- `qt_mpool_destroy`: the blocks and the list pages that are freed, in order.  The pages are at
most those that were allocated, or the loop does not end. -/
def destroy : Nat → Word → Option (List Nat × List Nat)
  | _, .null => some ([], [])
  | _, .block _ => none
  | 0, .page _ => none
  | left + 1, .page page =>
    (destroy left (s.pages page (sizes.pagePtrs - 1))).map fun later =>
      (freeBlocks (s.pages page) (sizes.pagePtrs - 1) 0 ++ later.1, page :: later.2)

section Fields

variable (s : State) (thread : Nat) (place : Place) (cache : Cache) (item : Item)

@[simp] theorem goto_next : (s.goto thread place).next = s.next := rfl
@[simp] theorem goto_blockTail : (s.goto thread place).blockTail = s.blockTail := rfl
@[simp] theorem goto_caches : (s.goto thread place).caches = s.caches := rfl
@[simp] theorem goto_reusePool : (s.goto thread place).reusePool = s.reusePool := rfl
@[simp] theorem goto_pages : (s.goto thread place).pages = s.pages := rfl
@[simp] theorem goto_allocList : (s.goto thread place).allocList = s.allocList := rfl
@[simp] theorem goto_allocListPos : (s.goto thread place).allocListPos = s.allocListPos := rfl
@[simp] theorem goto_pageCount : (s.goto thread place).pageCount = s.pageCount := rfl
@[simp] theorem goto_blocks : (s.goto thread place).blocks = s.blocks := rfl
@[simp] theorem goto_carved : (s.goto thread place).carved = s.carved := rfl
@[simp] theorem goto_live : (s.goto thread place).live = s.live := rfl
@[simp] theorem settle_next : (s.settle thread cache).next = s.next := rfl
@[simp] theorem settle_blockTail : (s.settle thread cache).blockTail = s.blockTail := rfl
@[simp] theorem settle_reusePool : (s.settle thread cache).reusePool = s.reusePool := rfl
@[simp] theorem settle_pages : (s.settle thread cache).pages = s.pages := rfl
@[simp] theorem settle_allocList : (s.settle thread cache).allocList = s.allocList := rfl
@[simp] theorem settle_allocListPos : (s.settle thread cache).allocListPos = s.allocListPos := rfl
@[simp] theorem settle_pageCount : (s.settle thread cache).pageCount = s.pageCount := rfl
@[simp] theorem settle_blocks : (s.settle thread cache).blocks = s.blocks := rfl
@[simp] theorem settle_carved : (s.settle thread cache).carved = s.carved := rfl
@[simp] theorem settle_live : (s.settle thread cache).live = s.live := rfl
@[simp] theorem hand_next : (s.hand item).next = s.next := rfl
@[simp] theorem hand_blockTail : (s.hand item).blockTail = s.blockTail := rfl
@[simp] theorem hand_caches : (s.hand item).caches = s.caches := rfl
@[simp] theorem hand_places : (s.hand item).places = s.places := rfl
@[simp] theorem hand_reusePool : (s.hand item).reusePool = s.reusePool := rfl
@[simp] theorem hand_pages : (s.hand item).pages = s.pages := rfl
@[simp] theorem hand_allocList : (s.hand item).allocList = s.allocList := rfl
@[simp] theorem hand_allocListPos : (s.hand item).allocListPos = s.allocListPos := rfl
@[simp] theorem hand_pageCount : (s.hand item).pageCount = s.pageCount := rfl
@[simp] theorem hand_blocks : (s.hand item).blocks = s.blocks := rfl
@[simp] theorem goto_places_self : (s.goto thread place).places thread = place :=
  update_self ..
@[simp] theorem settle_caches_self : (s.settle thread cache).caches thread = cache :=
  update_self ..
@[simp] theorem settle_places_self : (s.settle thread cache).places thread = .idle :=
  update_self ..

variable {other : Nat} (differs : other ≠ thread)

include differs

theorem goto_places_other : (s.goto thread place).places other = s.places other :=
  update_of_ne differs ..
theorem settle_caches_other : (s.settle thread cache).caches other = s.caches other :=
  update_of_ne differs ..
theorem settle_places_other : (s.settle thread cache).places other = s.places other :=
  update_of_ne differs ..

end Fields

section Record

variable {sizes : Sizes} {s : State} {page p : Nat}

theorem recordBlock_room (book : s.allocList = .page page)
    (room : s.allocListPos ≠ sizes.pagePtrs - 1) : s.recordBlock sizes p = some { s with
      pages := update s.pages page
        (update (s.pages page) s.allocListPos (.block p))
      allocListPos := s.allocListPos + 1 } := by
  simp only [recordBlock, if_neg room, book]

theorem recordBlock_full (full : s.allocListPos = sizes.pagePtrs - 1) :
    s.recordBlock sizes p = some { s with
      pages := update s.pages s.pageCount (update
        (update (fun _ => .null) (sizes.pagePtrs - 1) s.allocList) 0 (.block p))
      allocList := .page s.pageCount
      allocListPos := 1
      pageCount := s.pageCount + 1 } := by
  simp only [recordBlock, if_pos full, update_idem, update_self]

end Record

end State

inductive Label where
  | alloc (thread : Nat)
  | free (thread : Nat) (item : Item)
  | advance (thread : Nat)
  | write (item : Item) (next blockTail : Option Item)

/-- Threads allocate, free what is live, and finish what they began; the user writes into live
items. -/
inductive Step (sizes : Sizes) : State → Label → State → Prop where
  | alloc {s : State} {thread : Nat} (idle : s.places thread = .idle) :
      Step sizes s (.alloc thread) (s.alloc sizes thread)
  | free {s after : State} {thread : Nat} {item : Item} (idle : s.places thread = .idle)
      (live : s.live item = true) (done : s.free sizes thread item = some after) :
      Step sizes s (.free thread item) after
  | advance {s after : State} {thread : Nat} (done : s.advance sizes thread = some after) :
      Step sizes s (.advance thread) after
  | write {s : State} {item : Item} (live : s.live item = true) (next blockTail : Option Item) :
      Step sizes s (.write item next blockTail) { s with
        next := update s.next item next
        blockTail := update s.blockTail item blockTail }

end Qthreads.Mpool
