import Mathlib.Data.List.FinRange
import Mathlib.Data.List.Pairwise
import Qthreads.Lib.Dll

namespace Qthreads.Qdqueue

open Lib Links
open Function (update update_of_ne update_self)

variable {n : Nat}

/-- `struct qdqueue_adheap_s`, with the fields of the entries of `heap` by their index. -/
structure Ads (n : Nat) extends Links (Fin n) where
  inheap : Fin n → Bool
  shep : Fin n → Fin n
  generation : Fin n → Nat
  first : Option (Fin n)

/-- `qdqueue_adstruct_t` -/
structure Ad (n : Nat) where
  shep : Fin n
  generation : Nat

namespace Ads

variable (ads : Ads n)

def pop : Option (Ad n) × Ads n :=
  match ads.first with
  | none => (none, ads)
  | some tmp =>
    let links := match ads.next tmp with
      | none => ads.toLinks
      | some first => ads.toLinks.setPrev first none
    (some ⟨ads.shep tmp, ads.generation tmp⟩,
      { ads with
        toLinks := links
        inheap := update ads.inheap tmp false
        first := ads.next tmp })

def find (shep : Fin n) : Option (Fin n) :=
  (List.finRange n).find? fun i => decide (ads.shep i = shep)

def before (i : Fin n) : Option (Fin n) :=
  (List.finRange n).reverse.find? fun j => decide (j < i) && ads.inheap j

def insertAfter (i j : Fin n) : Ads n :=
  let links := ((ads.toLinks.setNext i (ads.next j)).setPrev i (some j)).setNext j (some i)
  { ads with
    toLinks := match ads.next j with
      | none => links
      | some later => links.setPrev later (some i) }

def insert (i : Fin n) : Option (Ads n) :=
  let ads := { ads with inheap := update ads.inheap i true }
  match ads.first with
  | none => some
      { ads with toLinks := (ads.toLinks.setPrev i none).setNext i none, first := some i }
  | some first =>
    if i < first then some
      { ads with
        toLinks := ((ads.toLinks.setNext i (some first)).setPrev i none).setPrev first (some i)
        first := some i }
    else if first < i then (ads.before i).map (ads.insertAfter i)
    else some ads

/-- `qdqueue_adheap_push`; it does not return if the shepherd has no entry. -/
def push (shep : Fin n) (gen : Nat) : Option (Ads n) :=
  (ads.find shep).bind fun i =>
    if ads.generation i < gen ∨ gen = 0 then
      let ads :=
        if gen ≠ 0 then { ads with generation := update ads.generation i gen } else ads
      if ads.inheap i then some ads else ads.insert i
    else some ads

/-- The list has just the entries that are marked, by their index, and is linked both ways. -/
structure Listed (order : List (Fin n)) : Prop where
  ascending : order.Pairwise (· < ·)
  marked : ∀ i, ads.inheap i = true ↔ i ∈ order
  first : ads.first = order.head?
  linked : ads.toLinks.Segment none order none

end Ads

namespace Ads.Listed

variable {ads : Ads n} {order : List (Fin n)} {i : Fin n}

theorem nodup (listed : ads.Listed order) : order.Nodup :=
  listed.ascending.imp ne_of_lt

theorem length_le (listed : ads.Listed order) : order.length ≤ n := by
  have few := (List.subperm_of_subset listed.nodup fun i _ => List.mem_finRange i).length_le
  rwa [List.length_finRange] at few

theorem pop_nil (listed : ads.Listed []) : ads.pop = (none, ads) := by
  have absent : ads.first = none := listed.first
  simp only [pop, absent]

theorem pop_cons {rest : List (Fin n)} (listed : ads.Listed (i :: rest)) :
    ∃ after, ads.pop = (some ⟨ads.shep i, ads.generation i⟩, after) ∧ after.Listed rest ∧
      after.shep = ads.shep := by
  have first : ads.first = some i := listed.first
  have once := List.nodup_cons.mp listed.nodup
  have ascending := (List.pairwise_cons.mp listed.ascending).2
  obtain ⟨-, next, later⟩ := listed.linked
  rw [Option.or_none] at next
  have marked : ∀ j, update ads.inheap i false j = true ↔ j ∈ rest := by
    intro j
    by_cases same : j = i
    · rw [same, update_self]
      exact ⟨nofun, fun member => absurd member once.1⟩
    · rw [update_of_ne same, listed.marked, List.mem_cons]
      exact or_iff_right same
  cases rest with
  | nil =>
    rw [List.head?_nil] at next
    simp only [pop, first, next]
    exact ⟨_, rfl, ⟨ascending, marked, rfl, trivial⟩, rfl⟩
  | cons second rest =>
    rw [List.head?_cons] at next
    simp only [pop, first, next]
    exact ⟨_, rfl, ⟨ascending, marked, rfl, later.setPrev_first once.2 rfl none⟩, rfl⟩

theorem split (ascending : order.Pairwise (· < ·)) (absent : i ∉ order) :
    ∃ front back, order = front ++ back ∧ (∀ j ∈ front, j < i) ∧ ∀ j ∈ back, i < j := by
  induction order with
  | nil => exact ⟨[], [], rfl, nofun, nofun⟩
  | cons first rest ih =>
    obtain ⟨least, later⟩ := List.pairwise_cons.mp ascending
    have differs : first ≠ i := fun same => absent (same ▸ List.mem_cons_self)
    rcases lt_or_gt_of_ne differs with less | greater
    · obtain ⟨front, back, rfl, low, high⟩ :=
        ih later fun member => absent (List.mem_cons_of_mem _ member)
      refine ⟨first :: front, back, rfl, ?_, high⟩
      intro j member
      rcases List.mem_cons.mp member with rfl | inside
      · exact less
      · exact low j inside
    · refine ⟨[], first :: rest, rfl, nofun, ?_⟩
      intro j member
      rcases List.mem_cons.mp member with rfl | inside
      · exact greater
      · exact greater.trans (least j inside)

variable {front back : List (Fin n)}

theorem ascending_insert (ascending : (front ++ back).Pairwise (· < ·))
    (low : ∀ j ∈ front, j < i) (high : ∀ j ∈ back, i < j) :
    (front ++ i :: back).Pairwise (· < ·) := by
  obtain ⟨early, late, across⟩ := List.pairwise_append.mp ascending
  refine List.pairwise_append.mpr ⟨early, List.pairwise_cons.mpr ⟨high, late⟩, ?_⟩
  intro j first k second
  rcases List.mem_cons.mp second with rfl | inside
  · exact low j first
  · exact across j first k inside

theorem marked_insert (listed : ads.Listed (front ++ back)) (j : Fin n) :
    update ads.inheap i true j = true ↔ j ∈ front ++ i :: back := by
  rw [List.mem_append, List.mem_cons]
  by_cases same : j = i
  · rw [same, update_self]
    exact ⟨fun _ => .inr (.inl rfl), fun _ => rfl⟩
  · rw [update_of_ne same, listed.marked, List.mem_append]
    exact or_congr_right (or_iff_right same).symm

theorem before_eq {marks : Fin n → Bool} {j : Fin n} (ads : Ads n) (same : ads.inheap = marks)
    (less : j < i) (inside : marks j = true) (last : ∀ k, k < i → marks k = true → k ≤ j) :
    ads.before i = some j := by
  obtain ⟨front, back, whole⟩ := List.append_of_mem (List.mem_reverse.mpr (List.mem_finRange j))
  rw [before, same]
  refine List.find?_eq_some_iff_append.mpr ⟨by rw [decide_eq_true less, inside]; rfl, front, back,
    whole, ?_⟩
  intro k member
  have descending : (List.finRange n).reverse.Pairwise (· > ·) :=
    List.pairwise_reverse.mpr (List.pairwise_lt_finRange n)
  rw [whole] at descending
  have above := (List.pairwise_append.mp descending).2.2 k member j List.mem_cons_self
  rw [Bool.not_eq_true', Bool.and_eq_false_iff]
  by_cases low : k < i
  · right
    by_contra marked
    exact absurd (last k low (Bool.eq_true_of_not_eq_false marked)) (not_le.mpr above)
  · exact .inl (decide_eq_false low)

theorem linked_insertAfter {links : Links (Fin n)} {j : Fin n}
    (linked : links.Segment none (front ++ back) none) (once : (front ++ i :: back).Nodup)
    (last : front.getLast? = some j) :
    (match links.next j with
      | none => ((links.setNext i (links.next j)).setPrev i (some j)).setNext j (some i)
      | some later => (((links.setNext i (links.next j)).setPrev i (some j)).setNext j
          (some i)).setPrev later (some i)).Segment none (front ++ i :: back) none := by
  obtain ⟨early, late⟩ := Segment.append.mp linked
  rw [Option.or_none] at early
  rw [last, Option.some_or] at late
  have next : links.next j = back.head? := early.next_last last
  obtain ⟨frontOnce, restOnce, apart⟩ := List.nodup_append.mp once
  obtain ⟨iOutside, backOnce⟩ := List.nodup_cons.mp restOnce
  have inFront : j ∈ front := List.mem_of_getLast? last
  have iFront : i ∉ front := fun member => apart i member i List.mem_cons_self rfl
  have jBack : j ∉ back := fun member => apart j inFront j (List.mem_cons_of_mem _ member) rfl
  have jNotI : i ≠ j := fun same => iFront (same ▸ inFront)
  rw [next]
  have front' : (((links.setNext i back.head?).setPrev i (some j)).setNext j (some i)).Segment none
      front (some i) :=
    ((early.setNext_other iFront _).setPrev_other iFront _).setNext_last frontOnce last _
  have back' : (((links.setNext i back.head?).setPrev i (some j)).setNext j (some i)).Segment (some j)
      back none :=
    ((late.setNext_other iOutside _).setPrev_other iOutside _).setNext_other jBack _
  have prev : (((links.setNext i back.head?).setPrev i (some j)).setNext j (some i)).prev i =
      some j := update_self ..
  have nextI : (((links.setNext i back.head?).setPrev i (some j)).setNext j (some i)).next i =
      back.head? := by
    simp only [setNext, setPrev, update_of_ne jNotI, update_self]
  generalize ((links.setNext i back.head?).setPrev i (some j)).setNext j (some i) = changed at *
  cases back with
  | nil =>
    refine Segment.append.mpr ⟨front', ?_⟩
    rw [last]
    exact ⟨prev, nextI, trivial⟩
  | cons later rest =>
    have laterFront : later ∉ front := fun member =>
      apart later member later (List.mem_cons_of_mem _ List.mem_cons_self) rfl
    have laterNotI : i ≠ later := fun same => iOutside (same ▸ List.mem_cons_self)
    refine Segment.append.mpr ⟨front'.setPrev_other laterFront _, ?_⟩
    rw [last]
    refine ⟨?_, nextI, back'.setPrev_first backOnce rfl _⟩
    exact (update_of_ne laterNotI ..).trans prev

theorem insert_spec (listed : ads.Listed order) (absent : i ∉ order) :
    ∃ after order', ads.insert i = some after ∧ after.Listed order' ∧ after.shep = ads.shep ∧
      order'.length = order.length + 1 := by
  obtain ⟨front, back, rfl, low, high⟩ := split listed.ascending absent
  have ascending := ascending_insert listed.ascending low high
  have once : (front ++ i :: back).Nodup := ascending.imp ne_of_lt
  have marked := fun j => listed.marked_insert (i := i) j
  have length : (front ++ i :: back).length = (front ++ back).length + 1 := by
    rw [List.length_append, List.length_append, List.length_cons, Nat.add_assoc]
  have first := listed.first
  cases front with
  | nil =>
    cases back with
    | nil =>
      have missing : ads.first = none := first
      simp only [Ads.insert, missing]
      exact ⟨_, [i], rfl, ⟨ascending, marked, rfl,
        update_self .., update_self .., trivial⟩, rfl, rfl⟩
    | cons second rest =>
      have starts : ads.first = some second := first
      have less : i < second := high second List.mem_cons_self
      simp only [Ads.insert, starts, if_pos less]
      obtain ⟨outside, backOnce⟩ := List.nodup_cons.mp once
      have differs : i ≠ second := ne_of_lt less
      refine ⟨_, i :: second :: rest, rfl, ⟨ascending, marked, rfl, ?_, ?_, ?_⟩, rfl, length⟩
      · exact (update_of_ne differs ..).trans (update_self ..)
      · exact update_self ..
      · exact ((listed.linked.setNext_other outside _).setPrev_other outside _).setPrev_first
          backOnce rfl _
  | cons start front =>
    have starts : ads.first = some start := first
    have less : start < i := low start List.mem_cons_self
    obtain ⟨j, last⟩ : ∃ j, (start :: front).getLast? = some j :=
      ⟨_, List.getLast?_eq_some_getLast (List.cons_ne_nil _ _)⟩
    have inFront : j ∈ start :: front := List.mem_of_getLast? last
    have latest : ∀ k, k < i → update ads.inheap i true k = true → k ≤ j := by
      intro k small mark
      rcases List.mem_append.mp ((marked k).mp mark) with early | late
      · obtain ⟨rest, whole⟩ := List.getLast?_eq_some_iff.mp last
        rw [whole] at early
        have sorted := (List.pairwise_append.mp listed.ascending).1
        rw [whole] at sorted
        rcases List.mem_append.mp early with before | same
        · exact le_of_lt ((List.pairwise_append.mp sorted).2.2 k before j (List.mem_singleton.mpr rfl))
        · exact le_of_eq (List.mem_singleton.mp same)
      · rcases List.mem_cons.mp late with same | beyond
        · exact absurd small (same ▸ lt_irrefl _)
        · exact absurd (high k beyond) (not_lt.mpr (le_of_lt small))
    have found : ({ ads with inheap := update ads.inheap i true } : Ads n).before i =
        some j :=
      before_eq _ rfl (low j inFront) ((marked j).mpr (List.mem_append_left _ inFront)) latest
    rw [starts] at found
    have linked := linked_insertAfter listed.linked once last
    simp only [Ads.insert, starts, if_neg (not_lt.mpr (le_of_lt less)), if_pos less, found,
      Option.map_some]
    exact ⟨_, _, rfl, ⟨ascending, marked, rfl, linked⟩, rfl, length⟩

theorem push_spec (listed : ads.Listed order) (shep : Fin n) (gen : Nat)
    (entry : ∃ i, ads.shep i = shep) :
    ∃ after order', ads.push shep gen = some after ∧ after.Listed order' ∧ after.shep = ads.shep ∧
      order'.length ≤ order.length + 1 := by
  have found : ∃ i, ads.find shep = some i := by
    obtain ⟨i, same⟩ := entry
    exact Option.isSome_iff_exists.mp
      (List.find?_isSome.mpr ⟨i, List.mem_finRange i, decide_eq_true same⟩)
  obtain ⟨i, found⟩ := found
  rw [push, found, Option.bind_some]
  by_cases newer : ads.generation i < gen ∨ gen = 0
  · rw [if_pos newer]
    have aged : ∀ generation, ({ ads with generation } : Ads n).Listed order := fun _ =>
      ⟨listed.ascending, listed.marked, listed.first, listed.linked⟩
    have same : ∃ generation, (if gen ≠ 0 then
        ({ ads with generation := update ads.generation i gen } : Ads n) else ads) =
          { ads with generation } := by
      by_cases zero : gen ≠ 0
      · exact ⟨_, if_pos zero⟩
      · exact ⟨ads.generation, if_neg zero⟩
    obtain ⟨generation, same⟩ := same
    simp only [same]
    by_cases inside : ads.inheap i = true
    · rw [if_pos inside]
      exact ⟨_, order, rfl, aged generation, rfl, Nat.le_succ _⟩
    · rw [if_neg inside]
      have absent : i ∉ order := fun member => inside ((listed.marked i).mpr member)
      obtain ⟨after, order', put, listed', sheps, length⟩ := (aged generation).insert_spec absent
      exact ⟨after, order', put, listed', sheps, Nat.le_of_eq length⟩
  · rw [if_neg newer]
    exact ⟨ads, order, rfl, listed, rfl, Nat.le_succ _⟩

end Ads.Listed

end Qthreads.Qdqueue
