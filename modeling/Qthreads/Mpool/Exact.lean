import Qthreads.Lib.Run
import Qthreads.Mpool.Conserve
import Qthreads.Mpool.Pages

namespace Qthreads.Mpool

open Lib

def Sizes.Covers (sizes : Sizes) (item : Item) (block byte : Nat) : Prop :=
  item.1 = block ∧ item.2 * sizes.itemSize ≤ byte ∧ byte < (item.2 + 1) * sizes.itemSize

/-- Where every item is: `spot` gives each one place, `cached` lists what each thread has, and
`groups` what is on the reuse list. -/
structure Placed (sizes : Sizes) (s : State) (spot : Item → Spot) (cached : Nat → List Item)
    (groups : List (List Item)) : Prop where
  carved : ∀ item, s.carved item = true ↔ spot item ≠ .raw
  live : ∀ item, s.live item = true ↔ spot item = .live
  cache : ∀ thread item, item ∈ cached thread ↔ spot item = .cache thread
  reuse : ∀ item, item ∈ groups.flatten ↔ spot item = .reuse
  inside : ∀ item block byte, s.live item = true → sizes.Covers item block byte →
    block < s.blocks ∧ byte < sizes.allocSize
  apart : ∀ item other block byte, s.live item = true → s.carved other = true →
    sizes.Covers item block byte → sizes.Covers other block byte → item = other
  counted : ∀ thread, s.places thread = .idle → (cached thread).Nodup ∧
    Chain s.next (s.caches thread).cache (cached thread) none ∧
    (s.caches thread).count = (cached thread).length ∧
    ∃ upper lower, cached thread = upper ++ lower ∧
      Tailed s.blockTail upper ∧ Tailed s.blockTail lower ∧
      lower.length ≤ sizes.itemsPerAlloc ∧ (upper ≠ [] → lower.length = sizes.itemsPerAlloc)
  pooled : groups.flatten.Nodup ∧ Chain s.next s.reusePool groups.flatten none ∧
    ∀ group ∈ groups, group.length = sizes.itemsPerAlloc ∧ Tailed s.blockTail group

/-- What the next step of a thread in `qt_mpool_alloc` returns, if it returns. -/
def State.returns (s : State) (thread : Nat) : Option Item :=
  let tc := s.caches thread
  match s.places thread with
  | .idle =>
    match tc.cache with
    | some cache => some cache
    | none => tc.block.map fun block => (block, tc.i)
  | .took cache => some cache
  | .fill p => some (p, 0)
  | _ => none

structure Asserted (sizes : Sizes) (s : State) : Prop where
  free : ∀ thread item, s.places thread = .idle → s.live item = true →
    s.free sizes thread item ≠ none
  advance : ∀ thread, s.places thread ≠ .idle → s.advance sizes thread ≠ none

/-- Every page is freed once, and every block that has been recorded. -/
structure Destroyed (sizes : Sizes) (s : State) (blocks pages : List Nat) : Prop where
  ends : s.destroy sizes s.pageCount s.allocList = some (blocks, pages)
  blocksOnce : blocks.Nodup
  pagesOnce : pages.Nodup
  everyBlock : ∀ block, block ∈ blocks ↔
    block < s.blocks ∧ ∀ thread, s.places thread ≠ .record block
  everyPage : ∀ page, page ∈ pages ↔ page < s.pageCount

variable {sizes : Sizes} {s after : State} {thread : Nat} {item : Item} {label : Label}
  {book : List (Nat × List Nat)}

structure Elsewhere (s after : State) (thread : Nat) : Prop where
  pages : after.pages = s.pages
  list : after.allocList = s.allocList
  position : after.allocListPos = s.allocListPos
  count : after.pageCount = s.pageCount
  blocks : after.blocks = s.blocks
  places : ∃ place, after.places = Function.update s.places thread place ∧
    ∀ block, place ≠ .record block

theorem Booked.elsewhere {pagePtrs : Nat} (booked : Booked pagePtrs s book)
    (step : Elsewhere s after thread) (was : ∀ block, s.places thread ≠ .record block) :
    Booked pagePtrs after book := by
  obtain ⟨place, moved, now⟩ := step.places
  refine booked.frame step.pages step.list step.position step.count step.blocks fun block => ?_
  rw [moved]
  exact places_update was now block

theorem elsewhere_goto {place : Place} (now : ∀ block, place ≠ .record block) :
    Elsewhere s (s.goto thread place) thread :=
  ⟨rfl, rfl, rfl, rfl, rfl, place, rfl, now⟩

theorem elsewhere_settle (cache : Cache) : Elsewhere s (s.settle thread cache) thread :=
  ⟨rfl, rfl, rfl, rfl, rfl, .idle, rfl, nofun⟩

theorem elsewhere_alloc : Elsewhere s (s.alloc sizes thread) thread := by
  unfold State.alloc
  simp only
  split
  · exact ⟨rfl, rfl, rfl, rfl, rfl, .idle, rfl, nofun⟩
  · split
    · exact ⟨rfl, rfl, rfl, rfl, rfl, .idle, rfl, nofun⟩
    · refine elsewhere_goto ?_
      split <;> nofun

theorem elsewhere_free (done : s.free sizes thread item = some after) :
    Elsewhere s after thread := by
  unfold State.free at done
  simp only [Option.bind_eq_some_iff] at done
  obtain ⟨linked, first, rest⟩ := done
  have same : linked.pages = s.pages ∧ linked.allocList = s.allocList ∧
      linked.allocListPos = s.allocListPos ∧ linked.pageCount = s.pageCount ∧
      linked.blocks = s.blocks ∧ linked.places = s.places := by
    split at first <;> split at first <;> cases first <;> exact ⟨rfl, rfl, rfl, rfl, rfl, rfl⟩
  obtain ⟨pages, list, position, count, blocks, places⟩ := same
  split at rest
  · split at rest
    · cases rest
    · split at rest
      · cases rest
      · split at rest
        · cases rest
          exact ⟨pages, list, position, count, blocks, _, congrArg (Function.update · thread _) places,
            nofun⟩
        · cases rest
  · cases rest
    split
    · exact ⟨pages, list, position, count, blocks, _, congrArg (Function.update · thread _) places,
        nofun⟩
    · exact ⟨pages, list, position, count, blocks, _, congrArg (Function.update · thread _) places,
        nofun⟩

theorem recorded_alone {itemsPerAlloc p : Nat} (conserved : Conserved itemsPerAlloc s)
    (place : s.places thread = .record p) :
    p < s.blocks ∧ ∀ other, s.places other = .record p → other = thread := by
  obtain ⟨upper, lower, groups, spot, threads, pooled, items⟩ := conserved
  have carves : ∀ other, s.places other = .record p →
      Carves (s.caches other) (s.places other) p 0 := fun other here => .inr ⟨.inl here, rfl⟩
  refine ⟨(items.carving thread p 0 (carves thread place)).1, fun other here => ?_⟩
  exact items.apart other thread p 0 0 (carves other here) (carves thread place)

theorem advance_booked (conserved : Conserved sizes.itemsPerAlloc s)
    (booked : Booked sizes.pagePtrs s book) (done : s.advance sizes thread = some after) :
    ∃ longer, Booked sizes.pagePtrs after longer := by
  cases place : s.places thread with
  | idle =>
    simp only [State.advance, place] at done
    cases done
  | pull =>
    have was : ∀ block, s.places thread ≠ .record block := by
      rw [place]
      rintro _ ⟨⟩
    simp only [State.advance, place] at done
    split at done
    · split at done
      · cases done
      · cases done
        exact ⟨book, booked.elsewhere ⟨rfl, rfl, rfl, rfl, rfl, _, rfl, by rintro _ ⟨⟩⟩ was⟩
    · cases done
      exact ⟨book, booked.elsewhere (elsewhere_goto (by rintro _ ⟨⟩)) was⟩
  | took cache =>
    simp only [State.advance, place] at done
    cases done
    refine ⟨book, booked.elsewhere ⟨rfl, rfl, rfl, rfl, rfl, _, rfl, by rintro _ ⟨⟩⟩ ?_⟩
    rw [place]
    rintro _ ⟨⟩
  | grow =>
    simp only [State.advance, place] at done
    cases done
    exact ⟨book, booked.grow place⟩
  | record p =>
    obtain ⟨known, alone⟩ := recorded_alone conserved place
    obtain ⟨page, list⟩ := booked.listPage
    by_cases full : s.allocListPos = sizes.pagePtrs - 1
    · simp only [State.advance, place, State.recordBlock_full full, Option.map_some] at done
      cases done
      exact booked.record_full place known alone sizes.room
    · simp only [State.advance, place, State.recordBlock_room list full, Option.map_some] at done
      cases done
      exact booked.record_room place known alone list full
  | fill p =>
    simp only [State.advance, place] at done
    cases done
    refine ⟨book, booked.elsewhere ⟨rfl, rfl, rfl, rfl, rfl, _, rfl, by rintro _ ⟨⟩⟩ ?_⟩
    rw [place]
    rintro _ ⟨⟩
  | push n toglobal cnt =>
    simp only [State.advance, place] at done
    split at done
    · cases done
    · cases done
      refine ⟨book, booked.elsewhere ⟨rfl, rfl, rfl, rfl, rfl, _, rfl, by rintro _ ⟨⟩⟩ ?_⟩
      rw [place]
      rintro _ ⟨⟩
  | pushed n cnt =>
    simp only [State.advance, place] at done
    cases done
    refine ⟨book, booked.elsewhere (elsewhere_settle _) ?_⟩
    rw [place]
    rintro _ ⟨⟩

def Sound (sizes : Sizes) (s : State) : Prop :=
  Conserved sizes.itemsPerAlloc s ∧ ∃ book, Booked sizes.pagePtrs s book

theorem sound_create : Sound sizes State.create := by
  have two := sizes.two
  refine ⟨⟨fun _ => [], fun _ => [], [], fun _ => .raw, ⟨by simp, fun thread => ?_⟩,
    ⟨by simp, List.nodup_nil, rfl, nofun⟩, ⟨by simp [State.create], by simp [State.create],
      fun _ out => absurd rfl out, nofun, ?_, ?_⟩⟩, [(0, [])], ?_⟩
  · exact ⟨List.nodup_nil, nofun, nofun, rfl, rfl, Nat.zero_le _, by simp; omega,
      fun nonempty => absurd rfl nonempty⟩
  · rintro thread block i (⟨held, -⟩ | ⟨record | fill, -⟩)
    · cases held
    · cases record
    · cases fill
  · rintro thread other block i j (⟨held, -⟩ | ⟨record | fill, -⟩)
    · cases held
    · cases record
    · cases fill
  · refine ⟨⟨rfl, Nat.zero_le _, fun _ _ => rfl, rfl⟩, rfl, rfl, List.nodup_nil, fun block => ?_⟩
    simp [State.create]

theorem sound_step (sound : Sound sizes s) (step : Step sizes s label after) :
    Sound sizes after := by
  obtain ⟨conserved, book, booked⟩ := sound
  have kept := conserved
  obtain ⟨upper, lower, groups, spot, threads, pooled, items⟩ := kept
  cases step with
  | alloc idle =>
    refine ⟨alloc threads pooled items rfl idle, book, booked.elsewhere elsewhere_alloc ?_⟩
    rw [idle]
    nofun
  | free idle live done =>
    obtain ⟨next, freed, stays⟩ := free threads pooled items rfl idle ((items.live _).mp live)
    rw [done] at freed
    cases freed
    refine ⟨stays, book, booked.elsewhere (elsewhere_free done) ?_⟩
    rw [idle]
    nofun
  | @advance _ thread done =>
    have busy : s.places thread ≠ .idle := by
      intro idle
      simp only [State.advance, idle] at done
      cases done
    obtain ⟨page, list⟩ := booked.listPage
    obtain ⟨next, advanced, stays⟩ := advance threads pooled items rfl list busy
    rw [done] at advanced
    cases advanced
    exact ⟨stays, advance_booked conserved booked done⟩
  | write live next blockTail =>
    exact ⟨write threads pooled items ((items.live _).mp live) next blockTail, book,
      booked.frame rfl rfl rfl rfl rfl fun _ => Iff.rfl⟩

theorem sound_run {labels : List Label} (run : Run (Step sizes) State.create labels s) :
    Sound sizes s :=
  run.preserves (fun _ _ _ sound step => sound_step sound step) sound_create

theorem covers_unique {other : Item} {block byte : Nat} (here : sizes.Covers item block byte)
    (there : sizes.Covers other block byte) : item = other := by
  obtain ⟨rfl, low, high⟩ := here
  obtain ⟨same, otherLow, otherHigh⟩ := there
  have notAbove : item.2 < other.2 + 1 := Nat.lt_of_mul_lt_mul_right (Nat.lt_of_le_of_lt low otherHigh)
  have notBelow : other.2 < item.2 + 1 := Nat.lt_of_mul_lt_mul_right (Nat.lt_of_le_of_lt otherLow high)
  exact Prod.ext same.symm (by omega)

theorem covers_inside {block byte : Nat} (bound : item.2 < sizes.itemsPerAlloc)
    (here : sizes.Covers item block byte) : byte < sizes.allocSize :=
  calc
    byte < (item.2 + 1) * sizes.itemSize := here.2.2
    _ ≤ sizes.itemsPerAlloc * sizes.itemSize := Nat.mul_le_mul_right _ bound
    _ ≤ sizes.allocSize := sizes.fits

theorem Conserved.placed (conserved : Conserved sizes.itemsPerAlloc s) :
    ∃ spot cached groups, Placed sizes s spot cached groups := by
  obtain ⟨upper, lower, groups, spot, threads, pooled, items⟩ := conserved
  refine ⟨spot, fun thread => upper thread ++ lower thread, groups, items.carved, items.live,
    threads.owned, pooled.member, ?_, ?_, ?_, pooled.once, pooled.chain, pooled.whole⟩
  · intro item block byte live here
    have out : spot item ≠ .raw := by
      rw [(items.live item).mp live]
      exact Spot.noConfusion
    obtain ⟨known, bound⟩ := items.inside item out
    exact ⟨here.1 ▸ known, covers_inside bound here⟩
  · intro item other block byte _ _ here there
    exact covers_unique here there
  · intro thread idle
    have owns := threads.owns thread
    have arranged := owns.arranged
    rw [idle] at arranged
    obtain ⟨chain, count, lowBound, highBound, whole⟩ := arranged
    refine ⟨owns.once, chain, ?_, upper thread, lower thread, rfl, owns.upperTail, owns.lowerTail,
      lowBound, whole⟩
    rw [List.length_append]
    exact count

theorem Conserved.fresh {itemsPerAlloc : Nat} (conserved : Conserved itemsPerAlloc s)
    (returns : s.returns thread = some item) : s.live item = false := by
  obtain ⟨upper, lower, groups, spot, threads, pooled, items⟩ := conserved
  suffices elsewhere : spot item ≠ .live by
    cases live : s.live item with
    | false => rfl
    | true => exact absurd ((items.live item).mp live) elsewhere
  have owns := threads.owns thread
  have arranged := owns.arranged
  have owned : item ∈ upper thread ++ lower thread → spot item ≠ .live := by
    intro member
    rw [(threads.owned thread item).mp member]
    exact Spot.noConfusion
  have cut : ∀ block i, Carves (s.caches thread) (s.places thread) block i →
      spot (block, i) ≠ .live := by
    intro block i carves
    rw [(items.carving thread block i carves).2.2 i (Nat.le_refl i)]
    exact Spot.noConfusion
  cases place : s.places thread with
  | idle =>
    rw [place] at arranged
    simp only [State.returns, place] at returns
    cases cache : (s.caches thread).cache with
    | some c =>
      simp only [cache] at returns
      cases returns
      refine owned ?_
      have chain := arranged.1
      rw [cache] at chain
      exact List.mem_of_mem_head? chain.head.symm
    | none =>
      simp only [cache, Option.map_eq_some_iff] at returns
      obtain ⟨block, held, rfl⟩ := returns
      exact cut block _ (.inl ⟨held, rfl⟩)
  | took cache =>
    rw [place] at arranged
    simp only [State.returns, place] at returns
    cases returns
    refine owned (List.mem_append_right _ ?_)
    exact List.mem_of_mem_head? arranged.2.2.head.symm
  | fill p =>
    simp only [State.returns, place] at returns
    cases returns
    exact cut p 0 (.inr ⟨.inr place, rfl⟩)
  | pull => simp [State.returns, place] at returns
  | grow => simp [State.returns, place] at returns
  | record p => simp [State.returns, place] at returns
  | push n toglobal cnt => simp [State.returns, place] at returns
  | pushed n cnt => simp [State.returns, place] at returns

theorem Sound.asserted (sound : Sound sizes s) : Asserted sizes s := by
  obtain ⟨⟨upper, lower, groups, spot, threads, pooled, items⟩, book, booked⟩ := sound
  constructor
  · intro thread item idle live failed
    obtain ⟨after, freed, -⟩ := free threads pooled items rfl idle ((items.live item).mp live)
    rw [failed] at freed
    cases freed
  · intro thread busy failed
    obtain ⟨page, list⟩ := booked.listPage
    obtain ⟨after, advanced, -⟩ := advance threads pooled items rfl list busy
    rw [failed] at advanced
    cases advanced

theorem Booked.destroyed (booked : Booked sizes.pagePtrs s book) :
    Destroyed sizes s (book.flatMap Prod.snd) (List.range s.pageCount).reverse where
  ends := booked.destroy
  blocksOnce := booked.once
  pagesOnce := List.nodup_reverse.mpr List.nodup_range
  everyBlock := booked.member
  everyPage := by simp

/-- Whatever the threads do, every item cut from a block is in one place, an item that is returned
was not in use, the groups are whole, no assertion fails, and the pool is destroyed exactly. -/
theorem mpool_exact (sizes : Sizes) {labels : List Label} {s : State}
    (run : Run (Step sizes) State.create labels s) :
    (∃ spot cached groups, Placed sizes s spot cached groups) ∧
    (∀ thread item, s.returns thread = some item → s.live item = false) ∧ Asserted sizes s ∧
    ∃ blocks pages, Destroyed sizes s blocks pages := by
  have sound := sound_run run
  obtain ⟨conserved, book, booked⟩ := sound
  exact ⟨conserved.placed, fun _ _ returns => conserved.fresh returns,
    Sound.asserted ⟨conserved, book, booked⟩, _, _, booked.destroyed⟩

def twoItems : Sizes := .settled 16 16 32 2 (by decide) (by decide) (by decide)

/-- Two threads use a block each, one of them frees all four items, and the group it freed first
goes to the reuse list. -/
theorem mpool_exact_two_threads :
    ∃ labels s, Run (Step twoItems) State.create labels s ∧
      s.blocks = 2 ∧ s.pageCount = 2 ∧ s.reusePool = some (1, 0) ∧
      (∃ spot cached groups, Placed twoItems s spot cached groups) ∧
      (∀ thread item, s.returns thread = some item → s.live item = false) ∧
      Asserted twoItems s ∧ ∃ blocks pages, Destroyed twoItems s blocks pages := by
  have run : ∃ s, Run (Step twoItems) State.create
      [.alloc 0, .advance 0, .advance 0, .advance 0, .alloc 0,
        .alloc 1, .advance 1, .advance 1, .advance 1, .alloc 1,
        .free 0 (1, 1), .free 0 (1, 0), .free 0 (0, 0), .free 0 (0, 1), .advance 0, .advance 0] s ∧
      s.blocks = 2 ∧ s.pageCount = 2 ∧ s.reusePool = some (1, 0) :=
    ⟨_, .cons (.alloc rfl) <| .cons (.advance rfl) <| .cons (.advance rfl) <|
      .cons (.advance rfl) <| .cons (.alloc rfl) <| .cons (.alloc rfl) <| .cons (.advance rfl) <|
      .cons (.advance rfl) <| .cons (.advance rfl) <| .cons (.alloc rfl) <|
      .cons (.free rfl rfl rfl) <| .cons (.free rfl rfl rfl) <| .cons (.free rfl rfl rfl) <|
      .cons (.free rfl rfl rfl) <| .cons (.advance rfl) <| .cons (.advance rfl) <| .nil _,
      rfl, rfl, rfl⟩
  obtain ⟨s, run, blocks, pages, pool⟩ := run
  exact ⟨_, s, run, blocks, pages, pool, mpool_exact twoItems run⟩

end Qthreads.Mpool
