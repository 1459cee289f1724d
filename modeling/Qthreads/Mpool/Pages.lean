import Mathlib.Data.List.Nodup
import Mathlib.Data.List.Range
import Qthreads.Mpool.Pool

namespace Qthreads.Mpool

open Function (update update_of_ne update_self)

/-- What the pages hold, from the one in use to the oldest: each with its blocks in the first
words, nothing after them, and the link to the page before it in the last word. -/
def Book (pagePtrs : Nat) (pages : Nat → Nat → Word) : Word → List (Nat × List Nat) → Prop
  | list, [] => list = .null
  | list, (page, held) :: older => list = .page page ∧ held.length ≤ pagePtrs - 1 ∧
      (∀ i, i < pagePtrs - 1 → pages page i = (held[i]?.map Word.block).getD .null) ∧
      Book pagePtrs pages (pages page (pagePtrs - 1)) older

structure Booked (pagePtrs : Nat) (s : State) (book : List (Nat × List Nat)) : Prop where
  listed : Book pagePtrs s.pages s.allocList book
  position : book.head?.map (fun entry => entry.2.length) = some s.allocListPos
  order : book.map Prod.fst = (List.range s.pageCount).reverse
  once : (book.flatMap Prod.snd).Nodup
  member : ∀ block, block ∈ book.flatMap Prod.snd ↔
    block < s.blocks ∧ ∀ thread, s.places thread ≠ .record block

variable {sizes : Sizes} {pagePtrs : Nat} {s after : State} {thread page p : Nat}
  {book : List (Nat × List Nat)} {pages other : Nat → Nat → Word} {list : Word}

theorem freeBlocks_eq {words : Nat → Word} {held : List Nat} {left i : Nat}
    (bound : held.length ≤ left)
    (holds : ∀ k, k < left → words (i + k) = (held[k]?.map Word.block).getD .null) :
    State.freeBlocks words left i = held := by
  induction left generalizing i held with
  | zero =>
    cases held with
    | nil => rfl
    | cons block rest =>
      rw [List.length_cons] at bound
      omega
  | succ left ih =>
    have first := holds 0 (Nat.succ_pos left)
    cases held with
    | nil =>
      simp only [Nat.add_zero, List.getElem?_nil, Option.map_none, Option.getD_none] at first
      simp [State.freeBlocks, first]
    | cons block rest =>
      simp only [Nat.add_zero, List.getElem?_cons_zero, Option.map_some, Option.getD_some]
        at first
      have later : State.freeBlocks words left (i + 1) = rest := by
        refine ih (Nat.le_of_succ_le_succ bound) fun k below => ?_
        have word := holds (k + 1) (Nat.succ_lt_succ below)
        rw [List.getElem?_cons_succ] at word
        rw [Nat.add_assoc, Nat.add_comm 1 k]
        exact word
      simp [State.freeBlocks, first, later]

theorem Book.destroy (listed : Book sizes.pagePtrs s.pages list book) :
    s.destroy sizes book.length list = some (book.flatMap Prod.snd, book.map Prod.fst) := by
  induction book generalizing list with
  | nil =>
    rw [(listed : list = .null)]
    rfl
  | cons entry older ih =>
    obtain ⟨page, held⟩ := entry
    obtain ⟨rfl, bound, words, later⟩ := listed
    have blocks : State.freeBlocks (s.pages page) (sizes.pagePtrs - 1) 0 = held := by
      refine freeBlocks_eq bound fun k below => ?_
      rw [Nat.zero_add]
      exact words k below
    simp [State.destroy, ih later, blocks]

theorem Booked.destroy (booked : Booked sizes.pagePtrs s book) :
    s.destroy sizes s.pageCount s.allocList =
      some (book.flatMap Prod.snd, (List.range s.pageCount).reverse) := by
  have length : book.length = s.pageCount := by
    have same := congrArg List.length booked.order
    rw [List.length_map, List.length_reverse, List.length_range] at same
    exact same
  rw [← booked.order, ← length]
  exact booked.listed.destroy

theorem Booked.listPage (booked : Booked pagePtrs s book) : ∃ page, s.allocList = .page page := by
  have position := booked.position
  cases book with
  | nil => cases position
  | cons entry older => exact ⟨entry.1, booked.listed.1⟩

theorem Book.congr (listed : Book pagePtrs pages list book)
    (same : ∀ page ∈ book.map Prod.fst, other page = pages page) :
    Book pagePtrs other list book := by
  induction book generalizing list with
  | nil => exact listed
  | cons entry older ih =>
    obtain ⟨page, held⟩ := entry
    obtain ⟨here, bound, words, later⟩ := listed
    have first : other page = pages page := same page (by simp)
    refine ⟨here, bound, ?_, ?_⟩
    · rw [first]
      exact words
    · rw [first]
      exact ih later fun page member => same page (by simp [member])

theorem Booked.frame (booked : Booked pagePtrs s book) (pages : after.pages = s.pages)
    (list : after.allocList = s.allocList) (position : after.allocListPos = s.allocListPos)
    (count : after.pageCount = s.pageCount) (blocks : after.blocks = s.blocks)
    (places : ∀ block, (∀ thread, after.places thread ≠ .record block) ↔
      ∀ thread, s.places thread ≠ .record block) : Booked pagePtrs after book where
  listed := by
    rw [pages, list]
    exact booked.listed
  position := by
    rw [position]
    exact booked.position
  order := by
    rw [count]
    exact booked.order
  once := booked.once
  member := by
    intro block
    rw [blocks, places]
    exact booked.member block

theorem places_update {place : Place} (was : ∀ block, s.places thread ≠ .record block)
    (now : ∀ block, place ≠ .record block) (block : Nat) :
    (∀ other, update s.places thread place other ≠ .record block) ↔
      ∀ other, s.places other ≠ .record block := by
  refine forall_congr' fun other => ?_
  by_cases same : other = thread
  · subst same
    simp [was, now]
  · rw [update_of_ne same]

section

variable (booked : Booked pagePtrs s book)
include booked

theorem Booked.grow (place : s.places thread = .grow) :
    Booked pagePtrs ({ s with blocks := s.blocks + 1 }.goto thread (.record s.blocks)) book where
  listed := booked.listed
  position := booked.position
  order := booked.order
  once := booked.once
  member := by
    intro block
    rw [booked.member]
    constructor
    · rintro ⟨bound, nobody⟩
      refine ⟨Nat.lt_succ_of_lt bound, fun other here => ?_⟩
      by_cases same : other = thread
      · subst same
        rw [State.goto_places_self] at here
        cases here
        exact Nat.lt_irrefl _ bound
      · rw [State.goto_places_other _ thread _ same] at here
        exact nobody other here
    · rintro ⟨bound, nobody⟩
      have differs : block ≠ s.blocks := by
        rintro rfl
        exact nobody thread (State.goto_places_self ..)
      refine ⟨by simp only [State.goto_blocks] at bound; omega, fun other here => ?_⟩
      by_cases same : other = thread
      · subst same
        rw [place] at here
        cases here
      · refine nobody other ?_
        rw [State.goto_places_other _ thread _ same]
        exact here

section

variable (place : s.places thread = .record p) (known : p < s.blocks)
  (alone : ∀ other, s.places other = .record p → other = thread)
include place known alone

theorem Booked.member_record
    (block : Nat) : (block = p ∨ block ∈ book.flatMap Prod.snd) ↔ block < s.blocks ∧
      ∀ other, (s.goto thread (.fill p)).places other ≠ .record block := by
  rw [booked.member]
  constructor
  · rintro (rfl | ⟨bound, nobody⟩)
    · refine ⟨known, fun other here => ?_⟩
      by_cases same : other = thread
      · subst same
        rw [State.goto_places_self] at here
        cases here
      · rw [State.goto_places_other _ thread _ same] at here
        exact same (alone other here)
    · refine ⟨bound, fun other here => ?_⟩
      by_cases same : other = thread
      · subst same
        rw [State.goto_places_self] at here
        cases here
      · rw [State.goto_places_other _ thread _ same] at here
        exact nobody other here
  · rintro ⟨bound, nobody⟩
    by_cases here : block = p
    · exact .inl here
    · refine .inr ⟨bound, fun other there => ?_⟩
      by_cases same : other = thread
      · subst same
        rw [place] at there
        cases there
        exact here rfl
      · refine nobody other ?_
        rw [State.goto_places_other _ thread _ same]
        exact there

theorem Booked.record_room
    (list : s.allocList = .page page) (room : s.allocListPos ≠ pagePtrs - 1) :
    ∃ longer, Booked pagePtrs ({ s with
      pages := update s.pages page
        (update (s.pages page) s.allocListPos (.block p))
      allocListPos := s.allocListPos + 1 }.goto thread (.fill p)) longer := by
  have moved := booked.member_record place known alone
  obtain ⟨listed, position, order, once, member⟩ := booked
  cases book with
  | nil => cases position
  | cons entry older =>
    obtain ⟨first, held⟩ := entry
    obtain ⟨here, bound, words, later⟩ := listed
    rw [list] at here
    cases here
    have length : held.length = s.allocListPos := Option.some.inj position
    have distinct : page ∉ older.map Prod.fst := by
      have nodup : ((page, held) :: older |>.map Prod.fst).Nodup := by
        rw [order, List.nodup_reverse]
        exact List.nodup_range
      exact (List.nodup_cons.mp nodup).1
    have fresh : p ∉ held ++ older.flatMap Prod.snd := by
      intro inside
      exact ((member p).mp inside).2 thread place
    refine ⟨(page, held ++ [p]) :: older, ⟨list, ?_, ?_, ?_⟩, ?_, order, ?_, ?_⟩
    · rw [List.length_append, List.length_singleton]
      omega
    · intro i below
      simp only [State.goto_pages]
      rw [update_self]
      by_cases same : i = s.allocListPos
      · subst same
        rw [update_self, ← length]
        simp
      · rw [update_of_ne same, words i below]
        rcases Nat.lt_or_gt_of_ne same with less | more
        · rw [List.getElem?_append_left (by omega)]
        · rw [List.getElem?_eq_none (by omega), List.getElem?_eq_none (by simp; omega)]
    · simp only [State.goto_pages]
      rw [update_self, update_of_ne (Ne.symm room)]
      refine later.congr fun other inside => update_of_ne ?_ ..
      rintro rfl
      exact distinct inside
    · simp [length]
    · simp only [List.flatMap_cons, List.append_assoc, List.singleton_append]
      exact (List.nodup_middle).mpr (List.nodup_cons.mpr ⟨fresh, once⟩)
    · intro block
      refine Iff.trans ?_ (moved block)
      simp only [List.flatMap_cons, List.mem_append, List.mem_singleton]
      tauto

theorem Booked.record_full (two : 2 ≤ pagePtrs) : ∃ longer, Booked pagePtrs ({ s with
      pages := update s.pages s.pageCount (update
        (update (fun _ => .null) (pagePtrs - 1) s.allocList) 0 (.block p))
      allocList := .page s.pageCount
      allocListPos := 1
      pageCount := s.pageCount + 1 }.goto thread (.fill p)) longer := by
  have moved := booked.member_record place known alone
  obtain ⟨listed, -, order, once, member⟩ := booked
  have fresh : p ∉ book.flatMap Prod.snd := fun inside => ((member p).mp inside).2 thread place
  have newest : s.pageCount ∉ book.map Prod.fst := by
    rw [order]
    simp
  refine ⟨(s.pageCount, [p]) :: book, ⟨rfl, ?_, ?_, ?_⟩, rfl, ?_, ?_, ?_⟩
  · rw [List.length_singleton]
    omega
  · intro i below
    simp only [State.goto_pages]
    rw [update_self]
    cases i with
    | zero => rw [update_self]; rfl
    | succ i =>
      rw [update_of_ne (Nat.succ_ne_zero i), update_of_ne (by omega)]
      rfl
  · simp only [State.goto_pages]
    rw [update_self, update_of_ne (by omega), update_self]
    refine listed.congr fun other inside => update_of_ne ?_ ..
    rintro rfl
    exact newest inside
  · rw [List.map_cons, order, State.goto_pageCount, List.range_succ, List.reverse_append]
    rfl
  · rw [List.flatMap_cons, List.singleton_append]
    exact List.nodup_cons.mpr ⟨fresh, once⟩
  · intro block
    rw [List.flatMap_cons, List.singleton_append, List.mem_cons]
    exact moved block

end

end

end Qthreads.Mpool
