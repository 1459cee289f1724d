import Qthreads.Dict.Buckets
import Qthreads.Dict.SpineIds

namespace Qthreads.Dict

open Lib

def Cell.chainOf : Cell → List Entry
  | chain head next => head :: next
  | _ => []

def chainsOf {length : Nat} (slots : Fin length → Cell) (i : Nat) : List Entry :=
  if inside : i < length then (slots ⟨i, inside⟩).chainOf else []

def Cell.spineAt (id : Nat) : Cell → Option (Fin 32 → Cell)
  | spine _ own elements =>
    if own = id then some elements
    else (List.finRange 32).findSome? fun i => (elements i).spineAt id
  | _ => none

def intMax : Int := 2 ^ 31 - 1

/-- `qt_dictionary_iterator`.  The entry `crt` points to stands with those behind it. -/
structure SpineIterator where
  crt : List Entry
  bkt : Int
  spineIndex : Nat
  baseIndex : Int

namespace SpineTrie

/-- What `h->spines[id]` points to, which may have been freed. -/
def spineAt (h : SpineTrie) (id : Nat) : Option (Fin 32 → Cell) :=
  (List.finRange 64).findSome? fun i => (h.base i).spineAt id

/-- The loop of `qt_dictionary_iterator_next` over the spines that are left. -/
def overSpines (h : SpineTrie) : Nat → SpineIterator → Option (Returned × SpineIterator)
  | 0, it => some (.null, { it with crt := [] })
  | room + 1, it =>
    match if h.spines.taken it.bkt.toNat then some (h.spineAt it.bkt.toNat) else none with
    | none =>
      if it.bkt < intMax then overSpines h room { it with bkt := it.bkt + 1 } else none
    | some none => none
    | some (some localE) =>
      match firstFull (chainsOf localE) it.spineIndex 32 with
      | some i => (chainsOf localE i).head?.map fun crt =>
        (.entry crt, { it with spineIndex := i + 1, crt := chainsOf localE i })
      | none =>
        if it.bkt < intMax then
          overSpines h room { it with spineIndex := 0, bkt := it.bkt + 1 }
        else none

/-- `qt_dictionary_iterator_next`; no result where an `int` is counted too far. -/
def iteratorNext (h : SpineTrie) (it : SpineIterator) : Option (Returned × SpineIterator) :=
  match it.crt with
  | _ :: next :: rest => some (.entry next, { it with crt := next :: rest })
  | _ =>
    if it.baseIndex < intMax then
      let baseIndex := it.baseIndex + 1
      match if baseIndex < 64 then firstFull (chainsOf h.base) baseIndex.toNat 64 else none with
      | some i => (chainsOf h.base i).head?.map fun crt =>
        (.entry crt, { it with baseIndex := i, crt := chainsOf h.base i })
      | none =>
        let bkt := if it.bkt < 0 then 0 else it.bkt
        h.overSpines (h.spines.maxspines - bkt.toNat) { it with baseIndex, bkt }
    else none

def iteration (h : SpineTrie) : Iteration SpineIterator where
  create := ⟨[], -1, 0, -1⟩
  next := h.iteratorNext
  finish := ⟨[], (h.spines.maxspines : Int).bmod (2 ^ 32), 0, -1⟩
  equals a b := a.crt.head?.map (·.addr) == b.crt.head?.map (·.addr) && a.bkt == b.bkt

end SpineTrie

variable {keys : KeyOps} {key other value : UInt64} {e later : Entry} {cell : Cell} {id depth low : Nat}
  {elements : Fin 32 → Cell}

theorem findSome_only {length : Nat} {α : Type} {f : Fin length → Option α} {i : Fin length} {x : α}
    (only : ∀ j, f j ≠ none → j = i) (here : f i = some x) :
    (List.finRange length).findSome? f = some x := by
  cases found : (List.finRange length).findSome? f with
  | none =>
    rw [List.findSome?_eq_none_iff] at found
    rw [found i (List.mem_finRange i)] at here
    cases here
  | some y =>
    obtain ⟨j, -, there⟩ := List.exists_of_findSome?_eq_some found
    cases only j (by rw [there]; nofun)
    rw [← there, here]

theorem nodup_sum {ι : Type} [Fintype ι] [DecidableEq ι] {f : ι → Multiset Nat}
    (nodup : (∑ i, f i).Nodup) {i j : ι} (first : id ∈ f i) (second : id ∈ f j) : j = i := by
  by_contra differ
  rw [← Finset.add_sum_erase Finset.univ f (Finset.mem_univ i), Multiset.nodup_add] at nodup
  exact Multiset.disjoint_left.mp nodup.2.2 first
    (Multiset.mem_sum.mpr ⟨j, Finset.mem_erase.mpr ⟨differ, Finset.mem_univ j⟩, second⟩)

theorem nodup_of_sum {ι : Type} [Fintype ι] [DecidableEq ι] {f : ι → Multiset Nat}
    (nodup : (∑ i, f i).Nodup) (i : ι) : (f i).Nodup := by
  rw [← Finset.add_sum_erase Finset.univ f (Finset.mem_univ i), Multiset.nodup_add] at nodup
  exact nodup.1

theorem Cell.spineAt_mem (found : cell.spineAt id = some elements) : id ∈ cell.ids := by
  induction cell with
  | empty => cases found
  | chain => cases found
  | spine count own inner ih =>
    rw [Cell.spineAt] at found
    rw [Cell.ids, Multiset.mem_add, Multiset.mem_singleton]
    split at found
    · rename_i same
      exact .inl same.symm
    · obtain ⟨i, -, deeper⟩ := List.exists_of_findSome?_eq_some found
      exact .inr (Multiset.mem_sum.mpr ⟨i, Finset.mem_univ i, ih i deeper⟩)

theorem Cell.spineAt_of_mem (member : id ∈ cell.ids) : (cell.spineAt id).isSome = true := by
  induction cell with
  | empty => exact absurd member (Multiset.notMem_zero id)
  | chain => exact absurd member (Multiset.notMem_zero id)
  | spine count own inner ih =>
    rw [Cell.spineAt]
    split
    · rfl
    · rename_i differ
      rw [Cell.ids, Multiset.mem_add, Multiset.mem_singleton] at member
      obtain ⟨i, -, inside⟩ := Multiset.mem_sum.mp (member.resolve_left fun same => differ same.symm)
      rw [List.findSome?_isSome_iff]
      exact ⟨i, List.mem_finRange i, ih i inside⟩

inductive Cell.Leads (id : Nat) (elements : Fin 32 → Cell) : Cell → Prop
  | here (count : Nat) : Leads id elements (.spine count id elements)
  | deeper (count own : Nat) (inner : Fin 32 → Cell) (i : Fin 32) (leads : Leads id elements (inner i)) :
      Leads id elements (.spine count own inner)

theorem Cell.Leads.mem (leads : cell.Leads id elements) : id ∈ cell.ids := by
  induction leads with
  | here => exact Multiset.mem_add.mpr (.inl (Multiset.mem_singleton_self id))
  | deeper count own inner i leads ih =>
    exact Multiset.mem_add.mpr (.inr (Multiset.mem_sum.mpr ⟨i, Finset.mem_univ i, ih⟩))

theorem Cell.Leads.found (leads : cell.Leads id elements) (nodup : cell.ids.Nodup) :
    cell.spineAt id = some elements := by
  induction leads with
  | here => rw [Cell.spineAt, if_pos rfl]
  | deeper count own inner i leads ih =>
    rw [Cell.ids, Multiset.nodup_add] at nodup
    obtain ⟨-, inside, apart⟩ := nodup
    have differ : own ≠ id := by
      rintro rfl
      exact Multiset.disjoint_left.mp apart (Multiset.mem_singleton_self own)
        (Multiset.mem_sum.mpr ⟨i, Finset.mem_univ i, leads.mem⟩)
    rw [Cell.spineAt, if_neg differ]
    refine findSome_only (fun j other => ?_) (ih (nodup_of_sum inside i))
    obtain ⟨elements, found⟩ := Option.ne_none_iff_exists'.mp other
    exact nodup_sum inside leads.mem (spineAt_mem found)

theorem Cell.leads_of_found (found : cell.spineAt id = some elements) : cell.Leads id elements := by
  induction cell with
  | empty => cases found
  | chain => cases found
  | spine count own inner ih =>
    rw [Cell.spineAt] at found
    split at found
    · rename_i same
      cases found
      rw [same]
      exact .here count
    · obtain ⟨i, -, deeper⟩ := List.exists_of_findSome?_eq_some found
      exact .deeper count own inner i (ih i deeper)

namespace SpineTrie

variable {h : SpineTrie}

theorem spineAt_leads (found : h.spineAt id = some elements) :
    ∃ i, (h.base i).Leads id elements := by
  obtain ⟨i, -, deeper⟩ := List.exists_of_findSome?_eq_some found
  exact ⟨i, Cell.leads_of_found deeper⟩

theorem leads_spineAt (tracks : h.spines.Tracks h.ids) {i : Fin 64}
    (leads : (h.base i).Leads id elements) : h.spineAt id = some elements := by
  refine findSome_only (fun j other => ?_) (leads.found (nodup_of_sum tracks.nodup i))
  obtain ⟨elements, found⟩ := Option.ne_none_iff_exists'.mp other
  exact nodup_sum tracks.nodup leads.mem (Cell.spineAt_mem found)

theorem leads_taken (tracks : h.spines.Tracks h.ids) {i : Fin 64}
    (leads : (h.base i).Leads id elements) :
    h.spines.taken id = true ∧ id < h.spines.maxspines := by
  have member : id ∈ h.ids := Multiset.mem_sum.mpr ⟨i, Finset.mem_univ i, leads.mem⟩
  exact ⟨(tracks.taken id).mpr member, tracks.below id member⟩

theorem taken_spineAt (tracks : h.spines.Tracks h.ids) (taken : h.spines.taken id = true) :
    ∃ elements, h.spineAt id = some elements := by
  obtain ⟨i, -, member⟩ := Multiset.mem_sum.mp ((tracks.taken id).mp taken)
  rw [← Option.isSome_iff_exists, spineAt, List.findSome?_isSome_iff]
  exact ⟨i, List.mem_finRange i, Cell.spineAt_of_mem member⟩

end SpineTrie

theorem mem_chainsOf {length : Nat} {slots : Fin length → Cell} {i : Nat} :
    e ∈ chainsOf slots i ↔ ∃ inside : i < length, e ∈ (slots ⟨i, inside⟩).chainOf := by
  rw [chainsOf]
  split
  · rename_i inside
    exact ⟨fun member => ⟨inside, member⟩, fun ⟨_, member⟩ => member⟩
  · rename_i outside
    exact ⟨nofun, fun ⟨inside, _⟩ => absurd inside outside⟩

theorem Cell.chainOf_has (member : e ∈ cell.chainOf) : cell.erase.Has e := by
  cases cell with
  | empty => cases member
  | chain head next => exact member
  | spine => cases member

theorem Cell.Leads.has (leads : cell.Leads id elements) {i : Fin 32}
    (member : e ∈ (elements i).chainOf) : cell.erase.Has e := by
  induction leads with
  | here => exact ⟨i, chainOf_has member⟩
  | deeper count own inner k leads ih => exact ⟨k, ih⟩

theorem Cell.has_cases (has : cell.erase.Has e) :
    e ∈ cell.chainOf ∨ ∃ id elements i, cell.Leads id elements ∧ e ∈ (elements i).chainOf := by
  induction cell with
  | empty => exact has.elim
  | chain head next => exact .inl has
  | spine count own inner ih =>
    obtain ⟨i, inside⟩ := has
    rcases ih i inside with here | ⟨id, elements, k, leads, member⟩
    · exact .inr ⟨own, inner, i, .here count, here⟩
    · exact .inr ⟨id, elements, k, .deeper count own inner i leads, member⟩

inductive Place where
  | base (i : Fin 64)
  | spine (id : Nat) (i : Fin 32)

def Cell.place (lkey : UInt64) : Nat → Place → Cell → Place
  | depth, _, spine _ id elements =>
    (elements (spineBucket lkey (depth + 1))).place lkey (depth + 1)
      (.spine id (spineBucket lkey (depth + 1)))
  | _, here, _ => here

theorem Cell.place_chain (member : e ∈ cell.chainOf) (lkey : UInt64) (here : Place) :
    cell.place lkey depth here = here := by
  cases cell with
  | empty => rfl
  | chain head next => rfl
  | spine => cases member

theorem bucket_of_has {count : Nat} {slots : Fin 32 → Slot}
    (wf : (Slot.spine count slots).WellFormed keys depth low) {i : Fin 32} (has : (slots i).Has e) :
    spineBucket e.hashedKey (depth + 1) = i := by
  obtain ⟨-, small, -, -, below⟩ := wf
  exact spineBucket_eq small ((below i).has_low has).2

theorem Cell.Leads.place (leads : cell.Leads id elements)
    (wf : cell.erase.WellFormed keys depth low) {i : Fin 32} (member : e ∈ (elements i).chainOf)
    (here : Place) : cell.place e.hashedKey depth here = .spine id i := by
  induction leads generalizing depth low here with
  | here count =>
    have bucket := bucket_of_has (i := i) wf (chainOf_has member)
    rw [Cell.place, bucket, Cell.place_chain member]
  | deeper count own inner k leads ih =>
    have bucket := bucket_of_has (i := k) wf (leads.has member)
    rw [Cell.place, bucket]
    exact ih (wf.2.2.2.2 k) _

end Qthreads.Dict
