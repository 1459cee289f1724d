import Mathlib.Data.List.Sort
import Mathlib.Data.List.Perm.Basic

namespace Qthreads.Hazard

open Function (update update_of_ne update_apply)

def hazardPtrsPerShep : Nat := 2

/-- The threads with hazard pointers: the workers and the registered external threads. -/
inductive Owner where
  | worker (i j : Nat)
  | external (n : Nat)
deriving DecidableEq

abbrev Slots := Owner → Fin 2 → UInt64

structure Layout where
  nshepherds : Nat
  nworkerspershep : Nat
  nshepherdsActive : Nat
  nworkersActive : Nat

/-- `hazard_freelist_entry_t`. -/
structure Entry where
  freefunc : Nat
  ptr : UInt64
deriving DecidableEq

/-- `void_cmp`: a difference of 64 bits, returned as an `int`. -/
def voidCmp (a b : UInt64) : Int32 := (a - b).toUInt32.toInt32

/-- What the C standard asks of a comparison function, on the elements of a list. -/
structure Consistent (cmp : UInt64 → UInt64 → Int32) (list : List UInt64) : Prop where
  signs : ∀ x ∈ list, ∀ y ∈ list, cmp x y < 0 ↔ 0 < cmp y x
  trans : ∀ x ∈ list, ∀ y ∈ list, ∀ z ∈ list, cmp x y ≤ 0 → cmp y z ≤ 0 → cmp x z ≤ 0

/-- `qsort`: some order of the elements, the right one for a comparison that is one. -/
structure Qsort where
  sort : (UInt64 → UInt64 → Int32) → List UInt64 → List UInt64
  perm : ∀ cmp list, (sort cmp list).Perm list
  sorted : ∀ cmp list, Consistent cmp list → (sort cmp list).Pairwise fun x y => cmp x y ≤ 0

/-- The loop of `binary_search`; no result where it reads outside of the list or never ends. -/
def searchLoop (list : List UInt64) (findme : UInt64) : Nat → Nat → Nat → Nat → Option Bool
  | 0, _, _, _ => none
  | fuel + 1, min, max, curs =>
    match list[curs]? with
    | none => none
    | some here =>
      if here = findme then some true
      else
        let max := if here > findme then curs else max
        let min := if here < findme then curs else min
        if max = min + 1 then some (here == findme)
        else searchLoop list findme fuel min max ((max + min) / 2)

def binarySearch (list : List UInt64) (findme : UInt64) (len : Nat) : Option Bool :=
  searchLoop list findme (len + 1) 0 len (len / 2)

def sweep {Node : Type} (ptr : Node → UInt64) (plist : List UInt64) (numHps : Nat) :
    List Node → Option (List Node × List Node)
  | [] => some ([], [])
  | entry :: rest =>
    if ptr entry = 0 then some ([], [])
    else
      match binarySearch plist (ptr entry) numHps, sweep ptr plist numHps rest with
      | some true, some (freed, kept) => some (freed, entry :: kept)
      | some false, some (freed, kept) => some (entry :: freed, kept)
      | _, _ => none

namespace Layout

variable (layout : Layout) (slots : Slots) (externals : List Nat) (me : Nat × Nat)

def numHps : Nat := layout.nworkersActive * hazardPtrsPerShep

def scanned : Nat :=
  layout.nshepherdsActive * layout.nworkerspershep * hazardPtrsPerShep

def place (i j : Nat) (which : Fin 2) : Nat :=
  i * layout.nworkerspershep * hazardPtrsPerShep + j * hazardPtrsPerShep + which

/-- The worker that a word of `plist` belongs to. -/
def workerOf (k : Nat) : Nat × Nat :=
  (k / 2 / layout.nworkerspershep, k / 2 % layout.nworkerspershep)

/-- What is copied to a word of `plist` for a worker: nothing for the worker that scans. -/
def wordOf (k : Nat) : UInt64 :=
  if layout.workerOf k = me then 0
  else slots (.worker (layout.workerOf k).1 (layout.workerOf k).2) (.ofNat 2 k)

/-- The writes to `plist`, word by word; every external thread is copied to the same place. -/
def writes : List (Nat × UInt64) :=
  ((List.range layout.scanned).map fun k => (k, layout.wordOf slots me k)) ++
    externals.flatMap fun n =>
      [(layout.scanned, slots (.external n) 0), (layout.scanned + 1, slots (.external n) 1)]

end Layout

def fill (memory : Nat → UInt64) : List (Nat × UInt64) → Nat → UInt64
  | [] => memory
  | write :: rest => fill (update memory write.1 write.2) rest

def Layout.collected (layout : Layout) (plist : Nat → UInt64) : List UInt64 :=
  (List.range layout.numHps).map plist

/-- A pass of `hazardous_scan` over slots that nobody changes meanwhile. -/
def scanPass (qsort : Qsort) (layout : Layout) (slots : Slots) (externals : List Nat)
    (garbage : Nat → UInt64) (me : Nat × Nat) (freelist : List Entry) :
    Option (List Entry × List Entry) :=
  let plist := fill garbage (layout.writes slots externals me)
  sweep Entry.ptr (qsort.sort voidCmp (layout.collected plist)) layout.numHps freelist

def Layout.hazards (layout : Layout) (slots : Slots) (externals : List Nat) (me : Nat × Nat) :
    List UInt64 :=
  (List.range (layout.nshepherds * layout.nworkerspershep * hazardPtrsPerShep)).map
      (layout.wordOf slots me) ++
    externals.flatMap fun n => [slots (.external n) 0, slots (.external n) 1]

/-- The free function is called exactly on the entries in nobody else's slot, the others are
kept in order, and `plist` is written inside of its allocation only. -/
def ScanExact (qsort : Qsort) (layout : Layout) (slots : Slots) (externals : List Nat)
    (hzptrListLen : Nat) (garbage : Nat → UInt64) (me : Nat × Nat) (freelist : List Entry) : Prop :=
  (∀ write ∈ layout.writes slots externals me, write.1 < layout.numHps + hzptrListLen) ∧
    scanPass qsort layout slots externals garbage me freelist =
      some (freelist.filter (·.ptr ∉ layout.hazards slots externals me),
        freelist.filter (·.ptr ∈ layout.hazards slots externals me))

/-- The words that are collected are those that are searched, and the scanning worker is one of
those whose slots are collected. -/
structure Layout.Aligned (layout : Layout) (me : Nat × Nat) : Prop where
  counts : layout.nworkersActive = layout.nshepherdsActive * layout.nworkerspershep
  exist : layout.nshepherdsActive ≤ layout.nshepherds
  shepherd : me.1 < layout.nshepherdsActive
  worker : me.2 < layout.nworkerspershep

/-- `void_cmp` tells the smaller of two addresses. -/
def Ordered (list : List UInt64) : Prop :=
  ∀ x ∈ list, ∀ y ∈ list, x < y → voidCmp x y < 0 ∧ 0 < voidCmp y x

def Layout.workerWords (layout : Layout) (slots : Slots) (me : Nat × Nat) : List UInt64 :=
  (List.range layout.scanned).map (layout.wordOf slots me)

def Layout.Covered (layout : Layout) (slots : Slots) (externals : List Nat) (me : Nat × Nat)
    (freelist : List Entry) : Prop :=
  ∀ entry ∈ freelist, entry.ptr ∈ layout.hazards slots externals me →
    entry.ptr ∈ layout.workerWords slots me

theorem voidCmp_self (x : UInt64) : voidCmp x x = 0 := by
  rw [voidCmp, UInt64.sub_self]
  rfl

section Ordered

variable {list : List UInt64} {x y : UInt64}

section

variable (ordered : Ordered list) (first : x ∈ list) (second : y ∈ list)
include ordered first second

theorem Ordered.lt_iff : voidCmp x y < 0 ↔ x < y := by
  constructor
  · intro negative
    by_contra notLess
    rcases UInt64.lt_or_eq_of_le (UInt64.not_lt.mp notLess) with greater | equal
    · exact Int32.lt_irrefl (Int32.lt_trans negative (ordered y second x first greater).2)
    · rw [equal, voidCmp_self] at negative
      exact Int32.lt_irrefl negative
  · intro less
    exact (ordered x first y second less).1

theorem Ordered.pos_iff : 0 < voidCmp x y ↔ y < x := by
  constructor
  · intro positive
    by_contra notLess
    rcases UInt64.lt_or_eq_of_le (UInt64.not_lt.mp notLess) with greater | equal
    · exact Int32.lt_irrefl (Int32.lt_trans positive (ordered x first y second greater).1)
    · rw [equal, voidCmp_self] at positive
      exact Int32.lt_irrefl positive
  · intro less
    exact (ordered y second x first less).2

theorem Ordered.le_iff : voidCmp x y ≤ 0 ↔ x ≤ y := by
  rw [← Int32.not_lt, ordered.pos_iff first second, UInt64.not_lt]

end

theorem Ordered.consistent (ordered : Ordered list) : Consistent voidCmp list where
  signs := by
    intro x first y second
    rw [ordered.lt_iff first second, ordered.pos_iff second first]
  trans := by
    intro x first y second z third
    rw [ordered.le_iff first second, ordered.le_iff second third, ordered.le_iff first third]
    exact UInt64.le_trans

theorem Ordered.sorted (ordered : Ordered list) (qsort : Qsort) :
    (qsort.sort voidCmp list).Pairwise (· ≤ ·) := by
  have members := fun z => (qsort.perm voidCmp list).mem_iff (a := z)
  refine (qsort.sorted voidCmp list ordered.consistent).imp_of_mem ?_
  intro x y first second
  exact (ordered.le_iff ((members x).mp first) ((members y).mp second)).mp

end Ordered

section Search

variable {list : List UInt64} {findme : UInt64} {fuel min max : Nat}

theorem sorted_get (sorted : list.Pairwise (· ≤ ·)) {k l : Nat} {x y : UInt64} (le : k ≤ l)
    (first : list[k]? = some x) (second : list[l]? = some y) : x ≤ y := by
  obtain ⟨kInside, rfl⟩ := List.getElem?_eq_some_iff.mp first
  obtain ⟨lInside, rfl⟩ := List.getElem?_eq_some_iff.mp second
  rcases Nat.lt_or_eq_of_le le with less | equal
  · exact List.pairwise_iff_getElem.mp sorted k l kInside lInside less
  · subst equal
    exact UInt64.le_refl _

theorem searchLoop_spec (sorted : list.Pairwise (· ≤ ·)) (gap : min + 2 ≤ max)
    (inside : max ≤ list.length) (enough : max - min ≤ fuel)
    (small : ∀ k ≤ min, ∀ x, list[k]? = some x → x < findme)
    (large : ∀ k, max ≤ k → ∀ x, list[k]? = some x → findme < x) :
    searchLoop list findme fuel min max ((max + min) / 2) = some (decide (findme ∈ list)) := by
  induction fuel generalizing min max with
  | zero => omega
  | succ fuel ih =>
    obtain ⟨here, found⟩ : ∃ here, list[(max + min) / 2]? = some here :=
      ⟨_, List.getElem?_eq_getElem (by omega)⟩
    have between : min < (max + min) / 2 ∧ (max + min) / 2 < max := by omega
    have absent : ∀ low high, high = low + 1 →
        (∀ k ≤ low, ∀ x, list[k]? = some x → x < findme) →
        (∀ k, high ≤ k → ∀ x, list[k]? = some x → findme < x) → findme ∉ list := by
      intro low high next below above member
      obtain ⟨k, at_⟩ := List.mem_iff_getElem?.mp member
      rcases Nat.lt_or_ge low k with after | before
      · exact UInt64.lt_irrefl _ (above k (by omega) findme at_)
      · exact UInt64.lt_irrefl _ (below k before findme at_)
    rw [searchLoop, found]
    by_cases equal : here = findme
    · subst equal
      simp [List.mem_of_getElem? found]
    · simp only [equal, if_false]
      rcases UInt64.lt_or_lt_of_ne equal with less | greater
      · have notGreater : ¬ here > findme := UInt64.not_lt.mpr (UInt64.le_of_lt less)
        have smaller : ∀ k ≤ (max + min) / 2, ∀ x, list[k]? = some x → x < findme := by
          intro k before x at_
          exact UInt64.lt_of_le_of_lt (sorted_get sorted before at_ found) less
        simp only [if_neg notGreater, if_pos less]
        by_cases done : max = (max + min) / 2 + 1
        · rw [if_pos done]
          simp [equal, absent _ _ done smaller large]
        · rw [if_neg done]
          exact ih (by omega) inside (by omega) smaller large
      · have notLess : ¬ here < findme := UInt64.not_lt.mpr (UInt64.le_of_lt greater)
        have larger : ∀ k, (max + min) / 2 ≤ k → ∀ x, list[k]? = some x → findme < x := by
          intro k after x at_
          exact UInt64.lt_of_lt_of_le greater (sorted_get sorted after found at_)
        simp only [if_pos greater, if_neg notLess]
        by_cases done : (max + min) / 2 = min + 1
        · rw [if_pos done]
          simp [equal, absent _ _ done small larger]
        · rw [if_neg done]
          exact ih (by omega) (by omega) (by omega) small larger

theorem binarySearch_spec (sorted : list.Pairwise (· ≤ ·)) (two : 2 ≤ list.length)
    (first : ∀ x, list[0]? = some x → x < findme) :
    binarySearch list findme list.length = some (decide (findme ∈ list)) := by
  have middle : list.length / 2 = (list.length + 0) / 2 := rfl
  rw [binarySearch, middle]
  refine searchLoop_spec sorted (by omega) (Nat.le_refl _) (by omega) ?_ ?_
  · intro k zero x at_
    rw [Nat.le_zero.mp zero] at at_
    exact first x at_
  · intro k beyond x at_
    rw [List.getElem?_eq_none beyond] at at_
    cases at_

end Search

section Sweep

variable {Node : Type} {ptr : Node → UInt64} {freelist : List Node}

theorem sweep_spec {plist : List UInt64} {numHps : Nat}
    (nonNull : ∀ entry ∈ freelist, ptr entry ≠ 0)
    (search : ∀ entry ∈ freelist,
      binarySearch plist (ptr entry) numHps = some (decide (ptr entry ∈ plist))) :
    sweep ptr plist numHps freelist =
      some (freelist.filter (ptr · ∉ plist), freelist.filter (ptr · ∈ plist)) := by
  induction freelist with
  | nil => rfl
  | cons entry rest ih =>
    have later := ih (fun entry member => nonNull entry (List.mem_cons_of_mem _ member))
      (fun entry member => search entry (List.mem_cons_of_mem _ member))
    rw [sweep, if_neg (nonNull entry List.mem_cons_self), search entry List.mem_cons_self, later]
    by_cases found : ptr entry ∈ plist
    · simp [found]
    · simp [found]

theorem sweep_sorted (qsort : Qsort) {list : List UInt64}
    (ordered : Ordered list) (two : 2 ≤ list.length) (zero : 0 ∈ list)
    (nonNull : ∀ entry ∈ freelist, ptr entry ≠ 0) :
    sweep ptr (qsort.sort voidCmp list) list.length freelist =
      some (freelist.filter (ptr · ∉ list), freelist.filter (ptr · ∈ list)) := by
  have perm := qsort.perm voidCmp list
  have sorted := ordered.sorted qsort
  have least : ∀ x, (qsort.sort voidCmp list)[0]? = some x → x = 0 := by
    intro x first
    obtain ⟨k, at_⟩ := List.mem_iff_getElem?.mp (perm.mem_iff.mpr zero)
    have below := sorted_get sorted (Nat.zero_le k) first at_
    exact UInt64.le_zero_iff.mp below
  have members : ∀ x, x ∈ qsort.sort voidCmp list ↔ x ∈ list := fun x => perm.mem_iff
  have search : ∀ entry ∈ freelist, binarySearch (qsort.sort voidCmp list) (ptr entry)
      (qsort.sort voidCmp list).length = some (decide (ptr entry ∈ qsort.sort voidCmp list)) := by
    intro entry member
    refine binarySearch_spec sorted (by rw [perm.length_eq]; exact two) ?_
    intro x first
    rw [least x first]
    exact UInt64.pos_iff_ne_zero.mpr (nonNull entry member)
  have swept := sweep_spec nonNull search
  rw [perm.length_eq] at swept
  rw [swept]
  simp only [members]

end Sweep

theorem fill_append (memory : Nat → UInt64) (front back : List (Nat × UInt64)) :
    fill memory (front ++ back) = fill (fill memory front) back := by
  induction front generalizing memory with
  | nil => rfl
  | cons write rest ih => exact ih _

theorem fill_other {memory : Nat → UInt64} {writes : List (Nat × UInt64)} {k : Nat}
    (other : ∀ write ∈ writes, write.1 ≠ k) : fill memory writes k = memory k := by
  induction writes generalizing memory with
  | nil => rfl
  | cons write rest ih =>
    rw [fill, ih (fun later member => other later (List.mem_cons_of_mem _ member)),
      update_of_ne (Ne.symm (other write List.mem_cons_self))]

theorem fill_range (memory : Nat → UInt64) (value : Nat → UInt64) {n k : Nat} (inside : k < n) :
    fill memory ((List.range n).map fun k => (k, value k)) k = value k := by
  induction n with
  | zero => exact absurd inside (Nat.not_lt_zero k)
  | succ n ih =>
    rw [List.range_succ, List.map_append, fill_append, List.map_singleton, fill, fill,
      update_apply]
    split
    · rename_i last
      rw [last]
    · exact ih (by omega)

namespace Layout

variable {layout : Layout} {slots : Slots} {externals : List Nat} {me : Nat × Nat}

theorem workerOf_place {i j : Nat} (which : Fin 2) (worker : j < layout.nworkerspershep) :
    layout.workerOf (layout.place i j which) = (i, j) := by
  have half : layout.place i j which / 2 = layout.nworkerspershep * i + j := by
    rw [place, hazardPtrsPerShep, Nat.mul_comm i]
    omega
  have positive : 0 < layout.nworkerspershep := Nat.lt_of_le_of_lt (Nat.zero_le _) worker
  rw [workerOf, half, Nat.mul_add_div positive, Nat.div_eq_of_lt worker, Nat.mul_add_mod,
    Nat.mod_eq_of_lt worker, Nat.add_zero]

theorem place_which {i j : Nat} (which : Fin 2) : Fin.ofNat 2 (layout.place i j which) = which := by
  apply Fin.ext
  rw [Fin.val_ofNat, place, hazardPtrsPerShep]
  omega

theorem place_lt_scanned {i j : Nat} (which : Fin 2) (shepherd : i < layout.nshepherdsActive)
    (worker : j < layout.nworkerspershep) : layout.place i j which < layout.scanned := by
  have upTo : (i + 1) * layout.nworkerspershep ≤
      layout.nshepherdsActive * layout.nworkerspershep := Nat.mul_le_mul_right _ shepherd
  rw [Nat.add_mul, Nat.one_mul] at upTo
  rw [place, scanned, hazardPtrsPerShep]
  omega

theorem collected_writes (garbage : Nat → UInt64) (fits : layout.numHps = layout.scanned) :
    layout.collected (fill garbage (layout.writes slots externals me)) =
      layout.workerWords slots me := by
  rw [collected, workerWords, fits]
  apply List.map_congr_left
  intro k member
  have inside := List.mem_range.mp member
  rw [writes, fill_append, fill_other, fill_range _ _ inside]
  intro write external
  obtain ⟨n, -, two⟩ := List.mem_flatMap.mp external
  simp only [List.mem_cons, List.not_mem_nil, or_false] at two
  rcases two with rfl | rfl
  · exact Nat.ne_of_gt inside
  · exact Nat.ne_of_gt (Nat.lt_succ_of_lt inside)

namespace Aligned

variable (aligned : layout.Aligned me)

include aligned

theorem numHps_eq : layout.numHps = layout.scanned := by
  rw [numHps, scanned, aligned.counts]

theorem zero_mem (slots : Slots) : 0 ∈ layout.workerWords slots me := by
  refine List.mem_map.mpr ⟨layout.place me.1 me.2 0,
    List.mem_range.mpr (place_lt_scanned 0 aligned.shepherd aligned.worker), ?_⟩
  rw [wordOf, if_pos (workerOf_place 0 aligned.worker)]

theorem two_le (slots : Slots) : 2 ≤ (layout.workerWords slots me).length := by
  have inside := place_lt_scanned 1 aligned.shepherd aligned.worker
  rw [workerWords, List.length_map, List.length_range]
  rw [place] at inside
  have one : ((1 : Fin 2) : Nat) = 1 := rfl
  omega

theorem workerWords_subset : layout.workerWords slots me ⊆ layout.hazards slots externals me := by
  intro x member
  obtain ⟨k, inside, rfl⟩ := List.mem_map.mp member
  refine List.mem_append_left _ (List.mem_map.mpr ⟨k, ?_, rfl⟩)
  rw [List.mem_range, scanned] at inside
  rw [List.mem_range]
  exact Nat.lt_of_lt_of_le inside
    (Nat.mul_le_mul_right _ (Nat.mul_le_mul_right _ aligned.exist))

theorem scanPass_eq (qsort : Qsort) (garbage : Nat → UInt64) {freelist : List Entry}
    (ordered : Ordered (layout.workerWords slots me))
    (nonNull : ∀ entry ∈ freelist, entry.ptr ≠ 0) :
    scanPass qsort layout slots externals garbage me freelist =
      some (freelist.filter (·.ptr ∉ layout.workerWords slots me),
        freelist.filter (·.ptr ∈ layout.workerWords slots me)) := by
  have length : (layout.workerWords slots me).length = layout.numHps := by
    rw [workerWords, List.length_map, List.length_range, aligned.numHps_eq]
  rw [scanPass]
  simp only [collected_writes garbage aligned.numHps_eq, ← length]
  exact sweep_sorted qsort ordered (aligned.two_le slots) (aligned.zero_mem slots) nonNull

theorem writes_inside (hzptrListLen : Nat) :
    (∀ write ∈ layout.writes slots externals me, write.1 < layout.numHps + hzptrListLen) ↔
      (externals ≠ [] → 2 ≤ hzptrListLen) := by
  rw [aligned.numHps_eq]
  constructor
  · intro inside nonempty
    obtain ⟨n, rest, rfl⟩ := List.exists_cons_of_ne_nil nonempty
    have last := inside (layout.scanned + 1, slots (.external n) 1)
      (List.mem_append_right _ (by simp))
    simp only at last
    omega
  · intro room write member
    rcases List.mem_append.mp member with worker | external
    · obtain ⟨k, inside, rfl⟩ := List.mem_map.mp worker
      have below := List.mem_range.mp inside
      simp only
      omega
    · obtain ⟨n, registered, two⟩ := List.mem_flatMap.mp external
      have enough := room (List.ne_nil_of_mem registered)
      simp only [List.mem_cons, List.not_mem_nil, or_false] at two
      rcases two with rfl | rfl <;> simp only <;> omega

end Aligned

end Layout

/-- Where the counts agree and the addresses can be told by `void_cmp`, a pass is exact if no
pointer is only in a slot that is not collected and there is room for an external thread. -/
theorem scanExact_iff (qsort : Qsort) {layout : Layout} {slots : Slots} {externals : List Nat}
    {me : Nat × Nat} {freelist : List Entry} (hzptrListLen : Nat) (garbage : Nat → UInt64)
    (aligned : layout.Aligned me) (ordered : Ordered (layout.workerWords slots me))
    (nonNull : ∀ entry ∈ freelist, entry.ptr ≠ 0) :
    ScanExact qsort layout slots externals hzptrListLen garbage me freelist ↔
      layout.Covered slots externals me freelist ∧ (externals ≠ [] → 2 ≤ hzptrListLen) := by
  rw [ScanExact, aligned.writes_inside, aligned.scanPass_eq qsort garbage ordered nonNull,
    and_comm, Option.some.injEq, Prod.mk.injEq]
  refine and_congr_left fun _ => ⟨?_, ?_⟩
  · rintro ⟨-, kept⟩ entry member held
    have inside : entry ∈ freelist.filter (·.ptr ∈ layout.hazards slots externals me) :=
      List.mem_filter.mpr ⟨member, decide_eq_true held⟩
    rw [← kept] at inside
    exact of_decide_eq_true (List.mem_filter.mp inside).2
  · intro covered
    have same : ∀ entry ∈ freelist, entry.ptr ∈ layout.workerWords slots me ↔
        entry.ptr ∈ layout.hazards slots externals me := fun entry member =>
      ⟨fun held => aligned.workerWords_subset held, covered entry member⟩
    constructor
    · exact List.filter_congr fun entry member => by simp only [same entry member]
    · exact List.filter_congr fun entry member => by simp only [same entry member]

structure Retired where
  entry : Entry
  held : Owner → Fin 2 → Bool

def Retired.ptr (node : Retired) : UInt64 := node.entry.ptr

def Retired.watch (owner : Owner) (which : Fin 2) (ptr : UInt64) (node : Retired) : Retired :=
  { node with held := fun other slot =>
      node.held other slot && !(other = owner && slot = which && ptr != node.ptr) }

/-- How far the first stage has come: the next word to copy, or the words of external threads
that are left with the place all of them are copied to. -/
inductive Stage where
  | workers (k : Nat)
  | externals (base : Nat) (rest : List (Nat × Fin 2))

structure Scan where
  numHps : Nat
  size : Nat
  stage : Stage
  plist : Nat → UInt64

structure State where
  layout : Layout
  externals : List Nat
  hzptrListLen : Nat
  slots : Slots
  lists : Nat × Nat → List Retired
  scans : Nat × Nat → Option Scan
  freed : List Retired
  written : List (Nat × Nat)

namespace State

def freelistMax (s : State) : Nat := s.layout.nshepherds * s.layout.nworkerspershep + 7

def start (layout : Layout) : State where
  layout := layout
  externals := []
  hzptrListLen := 0
  slots := fun _ _ => 0
  lists := fun _ => []
  scans := fun _ => none
  freed := []
  written := []

def setSlot (s : State) (owner : Owner) (which : Fin 2) (ptr : UInt64) : State :=
  { s with
    slots := update s.slots owner (update (s.slots owner) which ptr)
    lists := fun me => (s.lists me).map (Retired.watch owner which ptr) }

/-- The start of `hazardous_release_node`: the node is put on the list, and the slots of the
worker are cleared. -/
def release (s : State) (me : Nat × Nat) (entry : Entry) : State :=
  let node : Retired := ⟨entry, fun owner which =>
    owner ≠ .worker me.1 me.2 && s.slots owner which == entry.ptr⟩
  let listed := { s with lists := update s.lists me (s.lists me ++ [node]) }
  (listed.setSlot (.worker me.1 me.2) 0 0).setSlot (.worker me.1 me.2) 1 0

end State

def oneHeld (owner : Owner) (ptr : UInt64) : Slots :=
  fun other which => if other = owner ∧ which = 0 then ptr else 0

end Qthreads.Hazard
