import Mathlib.Data.List.GetD
import Qthreads.Lib.Chain
import Qthreads.Mpool.Pool

namespace Qthreads.Mpool

open Lib
open Function (update update_of_ne update_self)

/-- Where an item is: still part of its block, in use, with a thread, or on the reuse list. -/
inductive Spot where
  | raw
  | live
  | cache (thread : Nat)
  | reuse
deriving DecidableEq

def Tailed (blockTail : Item → Option Item) (group : List Item) : Prop :=
  ∀ item ∈ group, blockTail item = group.getLast?

def Arranged (itemsPerAlloc : Nat) (next : Item → Option Item) (tc : Cache)
    (upper lower : List Item) : Place → Prop
  | .idle => Chain next tc.cache (upper ++ lower) none ∧
      tc.count = upper.length + lower.length ∧ lower.length ≤ itemsPerAlloc ∧
      upper.length < itemsPerAlloc ∧ (upper ≠ [] → lower.length = itemsPerAlloc)
  | .took cache => upper = [] ∧ lower.length = itemsPerAlloc ∧ Chain next (some cache) lower none
  | .push n toglobal cnt => upper.length = itemsPerAlloc ∧ lower.length = itemsPerAlloc ∧
      Chain next (some n) upper none ∧ Chain next (some toglobal) lower none ∧
      cnt = itemsPerAlloc * 2
  | .pushed n cnt => upper = [] ∧ lower.length = itemsPerAlloc ∧ Chain next (some n) lower none ∧
      cnt = itemsPerAlloc * 2
  | _ => upper = [] ∧ lower = [] ∧ tc.cache = none ∧ tc.count = 0

structure Owns (itemsPerAlloc : Nat) (next blockTail : Item → Option Item) (tc : Cache)
    (place : Place) (upper lower : List Item) : Prop where
  once : (upper ++ lower).Nodup
  upperTail : Tailed blockTail upper
  lowerTail : Tailed blockTail lower
  arranged : Arranged itemsPerAlloc next tc upper lower place

structure Threads (itemsPerAlloc : Nat) (s : State) (upper lower : Nat → List Item)
    (spot : Item → Spot) : Prop where
  owned : ∀ thread item, item ∈ upper thread ++ lower thread ↔ spot item = .cache thread
  owns : ∀ thread, Owns itemsPerAlloc s.next s.blockTail (s.caches thread) (s.places thread)
    (upper thread) (lower thread)

structure Pooled (itemsPerAlloc : Nat) (s : State) (groups : List (List Item))
    (spot : Item → Spot) : Prop where
  member : ∀ item, item ∈ groups.flatten ↔ spot item = .reuse
  once : groups.flatten.Nodup
  chain : Chain s.next s.reusePool groups.flatten none
  whole : ∀ group ∈ groups, group.length = itemsPerAlloc ∧ Tailed s.blockTail group

def Carves (tc : Cache) (place : Place) (block i : Nat) : Prop :=
  tc.block = some block ∧ tc.i = i ∨ (place = .record block ∨ place = .fill block) ∧ i = 0

def Blockless : Place → Prop
  | .pull => True
  | .took _ => True
  | .grow => True
  | .record _ => True
  | .fill _ => True
  | _ => False

structure Items (itemsPerAlloc : Nat) (s : State) (spot : Item → Spot) : Prop where
  live : ∀ item, s.live item = true ↔ spot item = .live
  carved : ∀ item, s.carved item = true ↔ spot item ≠ .raw
  inside : ∀ item, spot item ≠ .raw → item.1 < s.blocks ∧ item.2 < itemsPerAlloc
  blockless : ∀ thread, Blockless (s.places thread) → (s.caches thread).block = none
  carving : ∀ thread block i, Carves (s.caches thread) (s.places thread) block i →
    block < s.blocks ∧ i < itemsPerAlloc ∧ ∀ k, i ≤ k → spot (block, k) = .raw
  apart : ∀ thread other block i j, Carves (s.caches thread) (s.places thread) block i →
    Carves (s.caches other) (s.places other) block j → thread = other

variable {itemsPerAlloc : Nat} {s after : State} {thread : Nat} {upper lower : Nat → List Item}
  {groups : List (List Item)} {spot moved : Item → Spot} {item : Item} {group : List Item}

theorem Arranged.congr {next other : Item → Option Item} {tc : Cache} {high low : List Item}
    {place : Place} (arranged : Arranged itemsPerAlloc next tc high low place)
    (same : ∀ item ∈ high ++ low, other item = next item) :
    Arranged itemsPerAlloc other tc high low place := by
  have lowSame : ∀ item ∈ low, other item = next item := fun item member =>
    same item (List.mem_append_right _ member)
  have highSame : ∀ item ∈ high, other item = next item := fun item member =>
    same item (List.mem_append_left _ member)
  cases place with
  | idle => exact ⟨arranged.1.congr same, arranged.2⟩
  | took cache => exact ⟨arranged.1, arranged.2.1, arranged.2.2.congr lowSame⟩
  | push n toglobal cnt =>
    obtain ⟨highLength, lowLength, first, second, count⟩ := arranged
    exact ⟨highLength, lowLength, first.congr highSame, second.congr lowSame, count⟩
  | pushed n cnt =>
    obtain ⟨empty, length, chain, count⟩ := arranged
    exact ⟨empty, length, chain.congr lowSame, count⟩
  | pull => exact arranged
  | grow => exact arranged
  | record p => exact arranged
  | fill p => exact arranged

theorem Owns.congr {next nextAfter blockTail tailAfter : Item → Option Item} {tc : Cache}
    {place : Place} {high low : List Item}
    (owns : Owns itemsPerAlloc next blockTail tc place high low)
    (same : ∀ item ∈ high ++ low, nextAfter item = next item ∧ tailAfter item = blockTail item) :
    Owns itemsPerAlloc nextAfter tailAfter tc place high low where
  once := owns.once
  upperTail := by
    intro item member
    rw [(same item (List.mem_append_left _ member)).2]
    exact owns.upperTail item member
  lowerTail := by
    intro item member
    rw [(same item (List.mem_append_right _ member)).2]
    exact owns.lowerTail item member
  arranged := owns.arranged.congr fun item member => (same item member).1

theorem Threads.frame (threads : Threads itemsPerAlloc s upper lower spot) (thread : Nat)
    (high low : List Item)
    (caches : ∀ other, other ≠ thread → after.caches other = s.caches other)
    (places : ∀ other, other ≠ thread → after.places other = s.places other)
    (cells : ∀ other, other ≠ thread → ∀ item, spot item = .cache other →
      after.next item = s.next item ∧ after.blockTail item = s.blockTail item)
    (spots : ∀ other, other ≠ thread → ∀ item,
      (moved item = .cache other ↔ spot item = .cache other))
    (owned : ∀ item, item ∈ high ++ low ↔ moved item = .cache thread)
    (owns : Owns itemsPerAlloc after.next after.blockTail (after.caches thread)
      (after.places thread) high low) :
    Threads itemsPerAlloc after (update upper thread high)
      (update lower thread low) moved where
  owned := by
    intro other item
    by_cases same : other = thread
    · subst same
      rw [update_self, update_self]
      exact owned item
    · rw [update_of_ne same, update_of_ne same, threads.owned, spots other same]
  owns := by
    intro other
    by_cases same : other = thread
    · subst same
      rw [update_self, update_self]
      exact owns
    · rw [update_of_ne same, update_of_ne same, caches other same,
        places other same]
      exact (threads.owns other).congr fun item member =>
        cells other same item ((threads.owned other item).mp member)

theorem Pooled.frame (pooled : Pooled itemsPerAlloc s groups spot)
    (pool : after.reusePool = s.reusePool)
    (cells : ∀ item, spot item = .reuse →
      after.next item = s.next item ∧ after.blockTail item = s.blockTail item)
    (spots : ∀ item, moved item = .reuse ↔ spot item = .reuse) :
    Pooled itemsPerAlloc after groups moved where
  member := by
    intro item
    rw [pooled.member, spots]
  once := pooled.once
  chain := by
    rw [pool]
    refine pooled.chain.congr fun item member => ?_
    exact (cells item ((pooled.member item).mp member)).1
  whole := by
    intro group member
    obtain ⟨length, tailed⟩ := pooled.whole group member
    refine ⟨length, fun item inside => ?_⟩
    have pooled := (pooled.member item).mp (List.mem_flatten.mpr ⟨group, member, inside⟩)
    rw [(cells item pooled).2]
    exact tailed item inside

theorem Items.frame (items : Items itemsPerAlloc s spot) (thread : Nat)
    (caches : ∀ other, other ≠ thread → after.caches other = s.caches other)
    (places : ∀ other, other ≠ thread → after.places other = s.places other)
    (live : ∀ item, after.live item = true ↔ moved item = .live)
    (carved : ∀ item, after.carved item = true ↔ s.carved item = true)
    (raw : ∀ item, moved item = .raw ↔ spot item = .raw) (blocks : after.blocks = s.blocks)
    (blockless : Blockless (after.places thread) → (after.caches thread).block = none)
    (carves : ∀ block i, Carves (after.caches thread) (after.places thread) block i →
      Carves (s.caches thread) (s.places thread) block i) :
    Items itemsPerAlloc after moved := by
  have carving : ∀ other block i, Carves (after.caches other) (after.places other) block i →
      Carves (s.caches other) (s.places other) block i := by
    intro other block i here
    by_cases same : other = thread
    · subst same
      exact carves block i here
    · rw [caches other same, places other same] at here
      exact here
  refine ⟨live, ?_, ?_, ?_, ?_, ?_⟩
  · intro item
    rw [carved, items.carved, ne_eq, ne_eq, raw]
  · intro item out
    rw [blocks]
    exact items.inside item (fun inside => out ((raw item).mpr inside))
  · intro other here
    by_cases same : other = thread
    · subst same
      exact blockless here
    · rw [places other same] at here
      rw [caches other same]
      exact items.blockless other here
  · intro other block i here
    obtain ⟨known, bound, rest⟩ := items.carving other block i (carving _ _ _ here)
    exact ⟨blocks ▸ known, bound, fun k above => (raw _).mpr (rest k above)⟩
  · intro first second block i j here there
    exact items.apart first second block i j (carving _ _ _ here) (carving _ _ _ there)

variable {blockTail : Item → Option Item} {rest : List Item}

theorem Tailed.tail {first : Item}
    (tailed : Tailed blockTail (first :: rest)) : Tailed blockTail rest := by
  intro item member
  rw [tailed item (List.mem_cons_of_mem _ member)]
  cases rest with
  | nil => cases member
  | cons second others => rw [List.getLast?_cons_cons]

theorem Tailed.cons {first second : Item}
    (tailed : Tailed blockTail (second :: rest)) (here : blockTail first = blockTail second) :
    Tailed blockTail (first :: second :: rest) := by
  intro item member
  rw [List.getLast?_cons_cons]
  rcases List.mem_cons.mp member with rfl | later
  · rw [here]
    exact tailed second List.mem_cons_self
  · exact tailed item later

theorem Tailed.congr {blockTail other : Item → Option Item} (tailed : Tailed blockTail group)
    (same : ∀ item ∈ group, other item = blockTail item) : Tailed other group := by
  intro item member
  rw [same item member]
  exact tailed item member

theorem Tailed.last {first : Item} (tailed : Tailed blockTail (first :: rest)) :
    ∃ last, blockTail first = some last ∧ (first :: rest).getLast? = some last := by
  refine ⟨(first :: rest).getLast (List.cons_ne_nil _ _), ?_, List.getLast?_eq_some_getLast _⟩
  rw [tailed first List.mem_cons_self, List.getLast?_eq_some_getLast]

end Qthreads.Mpool
