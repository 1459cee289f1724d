import Mathlib.Algebra.Group.Int.Defs
import Mathlib.Data.List.FinRange
import Mathlib.Data.List.Induction
import Mathlib.Data.List.Pairwise
import Mathlib.Data.List.Perm.Basic

namespace Qthreads.Qdqueue

variable {n : Nat}

def others (shep : Fin n) : List (Fin n) := (List.finRange n).filter (· ≠ shep)

def intMin : Int := -2 ^ 31

def intMax : Int := 2 ^ 31 - 1

/-- `maxdist`, more than any distance. -/
def maxDist (distances : Fin n → Int) : Int :=
  (List.finRange n).foldl
    (fun maxdist i => if maxdist ≤ distances i then distances i + 1 else maxdist) 0

/-- `mindist` and `count`, after one more shepherd was looked at. -/
def nearer (distances : Fin n → Int) (lastdist : Int) (found : Int × Nat) (j : Fin n) : Int × Nat :=
  if lastdist < distances j ∧ distances j < found.1 then (distances j, 1)
  else if distances j = found.1 then (found.1, found.2 + 1)
  else found

/-- As many as `count` are picked, each at random out of those that are left. -/
def draw {α : Type} (random : Nat → Nat) : Nat → Nat → List α → List α
  | 0, _, _ => []
  | count + 1, i, list =>
    match list[random i % (count + 1)]? with
    | none => []
    | some a => a :: draw random count (i + 1) (list.eraseIdx (random i % (count + 1)))

/-- The outer loop of `qdqueue_internal_sortedsheps`.  It does not return when an assertion fails
or it has gone round too often. -/
def sortFrom (random : Nat → Nat) (shep : Fin n) (distances : Fin n → Int) :
    Nat → List (Fin n) → Int → Option (List (Fin n))
  | 0, all, _ => if all.length < n - 1 then none else some all
  | fuel + 1, all, lastdist =>
    if all.length < n - 1 then
      let found := (others shep).foldl (nearer distances lastdist) (maxDist distances, 0)
      let thisdist := ((others shep).filter (distances · = found.1)).take found.2
      if found.2 = 0 ∨ thisdist.length ≠ found.2 then none
      else sortFrom random shep distances fuel (all ++ draw random found.2 all.length thisdist)
        found.1
    else some all

def sortedSheps (random : Nat → Nat) (shep : Fin n) (distances : Fin n → Int) :
    Option (List (Fin n)) :=
  sortFrom random shep distances n [] intMin

def getNeighbors (random : Nat → Nat) (shep : Fin n) (distances : Fin n → Int) : List (Fin n) :=
  let mindist := (others shep).foldl
    (fun mindist i => if mindist > distances i then distances i else mindist) intMax
  let temp := (others shep).filter (distances · < mindist + 10)
  draw random temp.length 0 temp

theorem mem_others {shep j : Fin n} : j ∈ others shep ↔ j ≠ shep := by
  simp [others]

theorem others_length (shep : Fin n) : (others shep).length = n - 1 := by
  have erased : others shep = (List.finRange n).erase shep := by
    rw [(List.nodup_finRange n).erase_eq_filter]
    exact List.filter_congr fun j _ => by rw [Bool.eq_iff_iff]; simp
  rw [erased, List.length_erase_of_mem (List.mem_finRange shep), List.length_finRange]

theorem lt_maxDist (distances : Fin n → Int) (i : Fin n) : distances i < maxDist distances := by
  have bound : ∀ list : List (Fin n), ∀ i ∈ list, distances i < list.foldl
      (fun maxdist i => if maxdist ≤ distances i then distances i + 1 else maxdist) 0 := by
    intro list
    induction list using List.reverseRecOn with
    | nil => exact nofun
    | append_singleton front last ih =>
      intro i member
      rw [List.foldl_append, List.foldl_cons, List.foldl_nil]
      rcases List.mem_append.mp member with early | late
      · have less := ih i early
        split <;> omega
      · rw [List.mem_singleton.mp late]
        split <;> omega
  exact bound _ i (List.mem_finRange i)

theorem draw_perm {α : Type} (random : Nat → Nat) (count i : Nat) (list : List α)
    (all : list.length = count) : (draw random count i list).Perm list := by
  induction count generalizing i list with
  | zero =>
    rw [List.length_eq_zero_iff.mp all]
    rfl
  | succ count ih =>
    have inside : random i % (count + 1) < list.length := by
      rw [all]
      exact Nat.mod_lt _ (Nat.succ_pos _)
    rw [draw, List.getElem?_eq_getElem inside]
    have rest := ih (i + 1) (list.eraseIdx (random i % (count + 1))) (by
      rw [List.length_eraseIdx_of_lt inside, all, Nat.add_sub_cancel])
    exact (rest.cons _).trans (List.getElem_cons_eraseIdx_perm inside)

section Nearest

variable {distances : Fin n → Int} {lastdist bound : Int}

def Nearest (distances : Fin n → Int) (lastdist bound : Int) (list : List (Fin n))
    (found : Int × Nat) : Prop :=
  (found = (bound, 0) ∧ ∀ j ∈ list, distances j ≤ lastdist) ∨
    (lastdist < found.1 ∧ 0 < found.2 ∧ found.1 < bound ∧
      (∀ j ∈ list, lastdist < distances j → found.1 ≤ distances j) ∧
      found.2 = (list.filter (distances · = found.1)).length)

theorem Nearest.snoc {list : List (Fin n)} {found : Int × Nat} {j : Fin n}
    (nearest : Nearest distances lastdist bound list found) (below : distances j < bound) :
    Nearest distances lastdist bound (list ++ [j]) (nearer distances lastdist found j) := by
  obtain ⟨mindist, count⟩ := found
  rcases nearest with ⟨nothing, near⟩ | ⟨beyond, positive, less, least, counted⟩
  · cases nothing
    by_cases far : lastdist < distances j
    · right
      rw [nearer, if_pos ⟨far, below⟩]
      refine ⟨far, Nat.one_pos, below, ?_, ?_⟩
      · intro k member farther
        rcases List.mem_append.mp member with early | late
        · exact absurd farther (Int.not_lt.mpr (near k early))
        · rw [List.mem_singleton.mp late]
      · have empty : list.filter (distances · = distances j) = [] := by
          refine List.filter_eq_nil_iff.mpr ?_
          intro k early same
          have equal := of_decide_eq_true same
          exact absurd (near k early) (Int.not_le.mpr (equal ▸ far))
        rw [List.filter_append, empty]
        simp
    · left
      have other : ¬ distances j = bound := Int.ne_of_lt below
      rw [nearer, if_neg (fun both => far both.1), if_neg other]
      refine ⟨rfl, ?_⟩
      intro k member
      rcases List.mem_append.mp member with early | late
      · exact near k early
      · rw [List.mem_singleton.mp late]
        exact Int.not_lt.mp far
  · right
    by_cases closer : lastdist < distances j ∧ distances j < mindist
    · rw [nearer, if_pos closer]
      refine ⟨closer.1, Nat.one_pos, below, ?_, ?_⟩
      · intro k member farther
        rcases List.mem_append.mp member with early | late
        · exact Int.le_of_lt (Int.lt_of_lt_of_le closer.2 (least k early farther))
        · rw [List.mem_singleton.mp late]
      · have empty : list.filter (distances · = distances j) = [] := by
          refine List.filter_eq_nil_iff.mpr ?_
          intro k early same
          have equal := of_decide_eq_true same
          have far : lastdist < distances k := equal ▸ closer.1
          exact absurd (least k early far) (Int.not_le.mpr (equal ▸ closer.2))
        rw [List.filter_append, empty]
        simp
    · have least' : ∀ k ∈ list ++ [j], lastdist < distances k → mindist ≤ distances k := by
        intro k member farther
        rcases List.mem_append.mp member with early | late
        · exact least k early farther
        · rw [List.mem_singleton.mp late] at farther ⊢
          exact Int.not_lt.mp fun less => closer ⟨farther, less⟩
      by_cases same : distances j = mindist
      · rw [nearer, if_neg closer, if_pos same]
        refine ⟨beyond, Nat.succ_pos _, less, least', ?_⟩
        rw [List.filter_append, List.length_append, ← counted]
        simp [same]
      · rw [nearer, if_neg closer, if_neg same]
        refine ⟨beyond, positive, less, least', ?_⟩
        rw [List.filter_append, List.length_append, ← counted]
        simp [same]

theorem nearest_foldl (list : List (Fin n)) (below : ∀ j, distances j < bound) :
    Nearest distances lastdist bound list (list.foldl (nearer distances lastdist) (bound, 0)) := by
  induction list using List.reverseRecOn with
  | nil => exact .inl ⟨rfl, nofun⟩
  | append_singleton front last ih =>
    rw [List.foldl_append]
    exact ih.snoc (below last)

end Nearest

structure SortedTo (shep : Fin n) (distances : Fin n → Int) (lastdist : Int) (all : List (Fin n)) :
    Prop where
  perm : all.Perm ((others shep).filter (distances · ≤ lastdist))
  sorted : all.Pairwise (distances · ≤ distances ·)

section Rounds

variable {shep : Fin n} {distances : Fin n → Int} {lastdist mindist : Int} {all more : List (Fin n)}

theorem SortedTo.append (sorted : SortedTo shep distances lastdist all) (beyond : lastdist < mindist)
    (least : ∀ j ∈ others shep, lastdist < distances j → mindist ≤ distances j)
    (perm : more.Perm ((others shep).filter (distances · = mindist))) :
    SortedTo shep distances mindist (all ++ more) := by
  have far : ∀ k ∈ more, distances k = mindist := by
    intro k member
    exact of_decide_eq_true (List.mem_filter.mp (perm.mem_iff.mp member)).2
  constructor
  · have split := List.filter_append_perm (distances · ≤ lastdist)
      ((others shep).filter (distances · ≤ mindist))
    rw [List.filter_filter, List.filter_filter] at split
    have early : (others shep).filter (fun j => decide (distances j ≤ lastdist) &&
        decide (distances j ≤ mindist)) = (others shep).filter (distances · ≤ lastdist) := by
      refine List.filter_congr fun j _ => ?_
      rw [← Bool.decide_and, decide_eq_decide]
      omega
    have late : (others shep).filter (fun j => (!decide (distances j ≤ lastdist)) &&
        decide (distances j ≤ mindist)) = (others shep).filter (distances · = mindist) := by
      refine List.filter_congr fun j member => ?_
      have bound := least j member
      rw [← decide_not, ← Bool.decide_and, decide_eq_decide]
      omega
    rw [early, late] at split
    exact (sorted.perm.append perm).trans split
  · refine List.pairwise_append.mpr ⟨sorted.sorted, ?_, ?_⟩
    · refine List.Pairwise.imp_of_mem (R := fun _ _ => True) ?_ (List.pairwise_of_forall fun _ _ => trivial)
      intro a b first second _
      rw [far a first, far b second]
    · intro a first b second
      have near := of_decide_eq_true (List.mem_filter.mp (sorted.perm.mem_iff.mp first)).2
      rw [far b second]
      exact Int.le_trans near (Int.le_of_lt beyond)

theorem SortedTo.full (sorted : SortedTo shep distances lastdist all)
    (full : ¬ all.length < n - 1) : all.Perm (others shep) := by
  have sub : ((others shep).filter (distances · ≤ lastdist)).Sublist (others shep) :=
    List.filter_sublist
  have long : (others shep).length ≤ ((others shep).filter (distances · ≤ lastdist)).length := by
    rw [← sorted.perm.length_eq, others_length]
    exact Nat.not_lt.mp full
  have whole := sub.eq_of_length_le long
  have perm := sorted.perm
  rw [whole] at perm
  exact perm

theorem sortFrom_spec (random : Nat → Nat) (fuel : Nat)
    (sorted : SortedTo shep distances lastdist all) (enough : n - 1 ≤ all.length + fuel) :
    ∃ last, sortFrom random shep distances fuel all lastdist = some last ∧
      last.Perm (others shep) ∧ last.Pairwise (distances · ≤ distances ·) := by
  induction fuel generalizing all lastdist with
  | zero =>
    have full : ¬ all.length < n - 1 := Nat.not_lt.mpr enough
    exact ⟨all, if_neg full, sorted.full full, sorted.sorted⟩
  | succ fuel ih =>
    by_cases short : all.length < n - 1
    · have nearest : Nearest distances lastdist (maxDist distances) (others shep) _ :=
        nearest_foldl (others shep) (lt_maxDist distances)
      rw [sortFrom, if_pos short]
      generalize (others shep).foldl (nearer distances lastdist) (maxDist distances, 0) = found at *
      rcases nearest with ⟨-, near⟩ | ⟨beyond, positive, -, least, counted⟩
      · have whole : (others shep).filter (distances · ≤ lastdist) = others shep :=
          List.filter_eq_self.mpr fun j member => decide_eq_true (near j member)
        have length := sorted.perm.length_eq
        rw [whole, others_length] at length
        exact absurd short (by omega)
      · have thisdist : ((others shep).filter (distances · = found.1)).take found.2 =
            (others shep).filter (distances · = found.1) := by
          rw [counted]
          exact List.take_length
        have assertions : ¬ (found.2 = 0 ∨
            ((others shep).filter (distances · = found.1)).length ≠ found.2) := by
          rintro (isZero | differs)
          · exact absurd isZero (Nat.ne_of_gt positive)
          · exact differs counted.symm
        have perm := draw_perm random found.2 all.length _ counted.symm
        simp only [thisdist, if_neg assertions]
        have next := sorted.append beyond least perm
        have longer : n - 1 ≤ (all ++ draw random found.2 all.length
            ((others shep).filter (distances · = found.1))).length + fuel := by
          rw [List.length_append, perm.length_eq, ← counted]
          omega
        exact ih next longer
    · exact ⟨all, by rw [sortFrom, if_neg short], sorted.full short, sorted.sorted⟩

theorem sortedSheps_spec (random : Nat → Nat) (above : ∀ j, intMin < distances j) :
    ∃ all, sortedSheps random shep distances = some all ∧ all.Perm (others shep) ∧
      all.Pairwise (distances · ≤ distances ·) := by
  have empty : (others shep).filter (distances · ≤ intMin) = [] := by
    refine List.filter_eq_nil_iff.mpr ?_
    intro j _ low
    exact absurd (above j) (Int.not_lt.mpr (of_decide_eq_true low))
  have start : SortedTo shep distances intMin [] := ⟨by rw [empty], .nil⟩
  exact sortFrom_spec random n start (by omega)

end Rounds

end Qthreads.Qdqueue
