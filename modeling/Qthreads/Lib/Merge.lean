import Mathlib.Data.List.Perm.Basic
import Qthreads.Lib.Tiles

namespace Qthreads.Lib

/-! Results that are combined by an operation that need not have a neutral element: there may be no
result. -/

section Combine

variable {α : Type} (op : α → α → α)

def combine (results : List (Option α)) : Option α := results.foldr (Option.merge op) none

@[simp] theorem combine_nil : combine op [] = none := rfl

theorem combine_cons (result : Option α) (rest : List (Option α)) :
    combine op (result :: rest) = result.merge op (combine op rest) := rfl

theorem combine_filter (wanted : Nat → Bool) (f : Nat → Option α) (list : List Nat)
    (absent : ∀ x ∈ list, wanted x = false → f x = .none) :
    combine op (list.map f) = combine op ((list.filter wanted).map f) := by
  induction list with
  | nil => rfl
  | cons first rest ih =>
    have same := ih fun x member => absent x (List.mem_cons_of_mem _ member)
    rw [List.map_cons, combine_cons, same]
    cases this : wanted first with
    | true => rw [List.filter_cons_of_pos this, List.map_cons, combine_cons]
    | false =>
      rw [List.filter_cons_of_neg (by rw [this]; exact Bool.false_ne_true),
        absent first List.mem_cons_self this, Option.merge_none_left]

variable [Std.Associative op]

theorem combine_append (first second : List (Option α)) :
    combine op (first ++ second) = (combine op first).merge op (combine op second) := by
  induction first with
  | nil => rw [List.nil_append, combine_nil, Option.merge_none_left]
  | cons result rest ih =>
    rw [List.cons_append, combine_cons, combine_cons, ih]
    exact ((inferInstance : Std.Associative (Option.merge op)).assoc ..).symm

theorem combine_flatten (lists : List (List (Option α))) :
    combine op lists.flatten = combine op (lists.map (combine op)) := by
  induction lists with
  | nil => rfl
  | cons first rest ih =>
    rw [List.flatten_cons, combine_append, List.map_cons, combine_cons, ih]

theorem combine_some (first : α) (rest : List α) :
    combine op (some first :: rest.map some) = some (rest.foldl op first) := by
  induction rest generalizing first with
  | nil => rfl
  | cons second rest ih =>
    rw [List.foldl_cons, ← ih, List.map_cons, combine_cons, combine_cons, combine_cons,
      ← Option.merge_some_some]
    exact ((inferInstance : Std.Associative (Option.merge op)).assoc ..).symm

theorem combine_map_some {first : Nat} {rest : List Nat} {results : Nat → Option α} {f : Nat → α}
    (there : ∀ x ∈ first :: rest, results x = some (f x)) :
    combine op ((first :: rest).map results) = some ((rest.map f).foldl op (f first)) := by
  rw [← combine_some, List.map_congr_left there, List.map_cons, List.map_map]
  rfl

theorem combine_perm [Std.Commutative op] {results others : List (Option α)}
    (perm : results.Perm others) : combine op results = combine op others :=
  perm.foldr_op_eq

end Combine

section Tiles

variable {range : Nat × Nat} {ranges others : List (Nat × Nat)} {start stop : Nat}

theorem Tiles.perm (perm : ranges.Perm others) (tiles : Tiles ranges start stop) :
    Tiles others start stop where
  nonempty := fun range member => tiles.nonempty range (perm.mem_iff.mpr member)
  apart := (perm.pairwise_iff fun apart => Or.symm apart).mp tiles.apart
  covers := by
    intro i
    rw [← tiles.covers i]
    constructor
    · rintro ⟨range, member, inside⟩
      exact ⟨range, perm.mem_iff.mpr member, inside⟩
    · rintro ⟨range, member, inside⟩
      exact ⟨range, perm.mem_iff.mp member, inside⟩

theorem Tiles.within (tiles : Tiles ranges start stop) (member : range ∈ ranges) :
    start ≤ range.1 ∧ range.2 ≤ stop := by
  have less := tiles.nonempty range member
  have first := (tiles.covers range.1).mp ⟨range, member, Nat.le_refl _, less⟩
  have last := (tiles.covers (range.2 - 1)).mp ⟨range, member, by omega, by omega⟩
  omega

theorem Tiles.rest (tiles : Tiles (range :: ranges) start stop) (first : range.1 = start) :
    Tiles ranges range.2 stop where
  nonempty := fun other member => tiles.nonempty other (List.mem_cons_of_mem _ member)
  apart := (List.pairwise_cons.mp tiles.apart).2
  covers := by
    intro i
    have apart := (List.pairwise_cons.mp tiles.apart).1
    constructor
    · rintro ⟨other, member, least, less⟩
      have bounds := tiles.within (List.mem_cons_of_mem _ member)
      rcases apart other member with before | behind <;> omega
    · rintro ⟨least, less⟩
      have nonempty := tiles.nonempty range List.mem_cons_self
      obtain ⟨other, member, inside⟩ := (tiles.covers i).mpr ⟨by omega, less⟩
      rcases List.mem_cons.mp member with rfl | later
      · omega
      · exact ⟨other, later, inside⟩

theorem Tiles.combine {α : Type} {op : α → α → α} [Std.Associative op] [Std.Commutative op]
    {f : Nat → Nat → α} (splits : ∀ start middle stop, start < middle → middle < stop →
      f start stop = op (f start middle) (f middle stop))
    (tiles : Tiles ranges start stop) (less : start < stop) :
    Lib.combine op (ranges.map fun range => some (f range.1 range.2)) = some (f start stop) := by
  induction parts : ranges.length generalizing ranges start with
  | zero =>
    obtain ⟨range, member, -⟩ := (tiles.covers start).mpr ⟨Nat.le_refl _, less⟩
    rw [List.length_eq_zero_iff.mp parts] at member
    cases member
  | succ parts ih =>
    obtain ⟨range, member, least, more⟩ := (tiles.covers start).mpr ⟨Nat.le_refl _, less⟩
    have bounds := tiles.within member
    have perm := List.perm_cons_erase member
    have rest := (tiles.perm perm).rest (by omega)
    have first : range.1 = start := by omega
    rw [combine_perm op (perm.map _), List.map_cons, combine_cons, first]
    rcases Nat.lt_or_eq_of_le bounds.2 with inside | all
    · rw [ih rest inside (by rw [List.length_erase_of_mem member]; omega), Option.merge_some_some,
        ← splits start range.2 stop more inside]
    · have empty : ranges.erase range = [] := by
        refine List.eq_nil_iff_forall_not_mem.mpr fun other listed => ?_
        have fewer := rest.nonempty other listed
        have after := rest.within listed
        omega
      rw [empty, List.map_nil, combine_nil, Option.merge_none_right, all]

end Tiles

end Qthreads.Lib
