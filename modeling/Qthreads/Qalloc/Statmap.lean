import Mathlib.Data.List.Perm.Basic
import Qthreads.Lib.Bytes
import Qthreads.Lib.Chain
import Qthreads.Lib.Run

namespace Qthreads.Qalloc

open Lib Lib.Bytes
open Function (update update_of_ne update_self)

/-! A pointer is the number of its address, and 0 is `NULL`.  The list heads and locks, which lie in
front of the items, are kept apart from the bytes behind them. -/

/-- What `qalloc_makestatmap` is called with.  The file is new, so that its bytes are 0, and was
mapped at `map`. -/
structure MapFile where
  map : Nat
  filesize : Nat
  itemsize : Nat
  streams : Nat
  /-- `sizeof(pthread_mutex_t)` -/
  mutexSize : Nat
  mapped : 0 < map
  room : map + filesize < 2 ^ 64
  sized : 0 < itemsize
  streamed : 0 < streams

/-- The fields of `struct mapinfo_s` that the allocator uses, and the bytes of the file. -/
structure StatMap where
  itemsize : Nat
  streamcount : Nat
  streams : Nat → Nat
  mem : Nat → UInt8

/-- The memory and `strms`, the last item of each stream. -/
abbrev Strms := (Nat → UInt8) × (Nat → Nat)

def Strms.link (state : Strms) (i address : Nat) : Strms :=
  (storeWord state.1 (state.2 i) address, update state.2 i address)

/-- The first `count` items of a row. -/
def Strms.linkSome (itemsize base count : Nat) (state : Strms) : Strms :=
  (List.range count).foldl (fun state i => state.link i (base + itemsize * i)) state

def linkRows (itemsize streams stop : Nat) : Nat → Nat → Strms → Option (Nat × Strms)
  | 0, _, _ => none
  | fuel + 1, base, state =>
    if base + itemsize * streams < stop then
      linkRows itemsize streams stop fuel (base + itemsize * streams)
        (state.linkSome itemsize base streams)
    else some (base, state)

def linkTail (itemsize streams stop base : Nat) (state : Strms) : Strms :=
  ((List.range streams).takeWhile fun i => base + itemsize * i < stop).foldl
    (fun state i => state.link i (base + itemsize * i)) state

namespace MapFile

variable (file : MapFile)

def header : Nat := (3 + file.streams) * 8 + file.mutexSize * file.streams

def base : Nat := file.map + file.header

def stop : Nat := file.map + file.filesize

def rounded : Nat := ((file.itemsize - 1) / 4 + 1) * 4

def item (index : Nat) : Nat := file.base + file.rounded * index

def makestatmap : Option StatMap :=
  (linkRows file.rounded file.streams file.stop (file.filesize + 1)
    (file.base + file.rounded * file.streams) (fun _ => 0, file.item)).map fun (base, state) =>
      { itemsize := file.rounded
        streamcount := file.streams
        streams := file.item
        mem := (linkTail file.rounded file.streams file.stop base state).1 }

end MapFile

namespace StatMap

/-- `*pointer`; nothing is at `NULL`. -/
def deref (m : StatMap) (pointer : Nat) : Option Nat :=
  if pointer = 0 then none else some (loadWord m.mem pointer)

/-- The loop over the streams; no result stands for a `NULL` that is dereferenced. -/
def statmallocFrom (firststream : Nat) : Nat → Nat → StatMap → Option (Nat × StatMap)
  | 0, _, _ => none
  | fuel + 1, stream, m =>
    let ret := m.streams stream
    match m.deref ret with
    | none => none
    | some head =>
      let m := { m with streams := update m.streams stream head }
      if ret = 0 then
        let stream := (stream + 1) % m.streamcount
        if stream = firststream then some (0, m) else statmallocFrom firststream fuel stream m
      else some (ret, m)

/-- `qalloc_statmalloc` of a thread -/
def statmalloc (m : StatMap) (me : Nat) : Option (Nat × StatMap) :=
  statmallocFrom (me % m.streamcount) m.streamcount (me % m.streamcount) m

def statfree (m : StatMap) (me block : Nat) : StatMap :=
  let stream := me % m.streamcount
  { m with
    mem := storeWord m.mem block (m.streams stream)
    streams := update m.streams stream block }

end StatMap

structure Linked (base size streams : Nat) (index : Nat) (state : Strms) : Prop where
  last : ∀ u < index, index ≤ u + streams → state.2 (u % streams) = base + size * u
  words : ∀ u, loadWord state.1 (base + size * u) =
    if u + streams < index then base + size * (u + streams) else 0

section Linking

variable {base size streams index stop : Nat} {state : Strms}

theorem size_apart (wide : 8 ≤ size) {u v : Nat} (other : u ≠ v) :
    base + size * u + 8 ≤ base + size * v ∨ base + size * v + 8 ≤ base + size * u := by
  rcases Nat.lt_or_gt_of_ne other with less | more
  · have row := Nat.mul_le_mul_left size (Nat.succ_le_of_lt less)
    rw [Nat.mul_succ] at row
    omega
  · have row := Nat.mul_le_mul_left size (Nat.succ_le_of_lt more)
    rw [Nat.mul_succ] at row
    omega

theorem Linked.link (linked : Linked base size streams index state) (wide : 8 ≤ size)
    (streamed : 0 < streams) (first : streams ≤ index) (fits : base + size * index < 2 ^ 64) :
    Linked base size streams (index + 1) (state.link (index % streams) (base + size * index)) := by
  obtain ⟨before, rfl⟩ := Nat.exists_eq_add_of_le' first
  have same : (before + streams) % streams = before % streams := Nat.add_mod_right _ _
  have place := linked.last before (by omega) (Nat.le_refl _)
  constructor
  · intro u below near
    simp only [Strms.link]
    by_cases newest : u = before + streams
    · rw [newest, update_self]
    · rw [update_of_ne]
      · exact linked.last u (by omega) (by omega)
      · intro equal
        have gap : (before + streams - u) % streams = 0 :=
          Nat.sub_mod_eq_zero_of_mod_eq equal.symm
        rw [Nat.mod_eq_of_lt (by omega)] at gap
        omega
  · intro u
    simp only [Strms.link, same, place]
    by_cases here : u = before
    · rw [here, loadWord_storeWord fits, if_pos (by omega)]
    · rw [loadWord_storeWord_apart (size_apart wide here), linked.words]
      by_cases more : u + streams < before + streams
      · rw [if_pos more, if_pos (by omega)]
      · rw [if_neg more, if_neg (by omega)]

theorem Linked.linkSome (linked : Linked base size streams index state) (wide : 8 ≤ size)
    (streamed : 0 < streams) (first : streams ≤ index) (whole : streams ∣ index) {count : Nat}
    (row : count ≤ streams) (fits : ∀ i < count, base + size * (index + i) < 2 ^ 64) :
    Linked base size streams (index + count) (state.linkSome size (base + size * index) count) := by
  induction count with
  | zero => exact linked
  | succ count ih =>
    have before := ih (by omega) (fun i below => fits i (by omega))
    have next := before.link wide streamed (by omega) (fits count (Nat.lt_succ_self _))
    have place : (index + count) % streams = count := by
      rw [Nat.add_mod, Nat.mod_eq_zero_of_dvd whole, Nat.zero_add, Nat.mod_mod,
        Nat.mod_eq_of_lt (by omega)]
    rw [place] at next
    rw [Strms.linkSome, List.range_succ, List.foldl_append, List.foldl_cons, List.foldl_nil,
      Nat.add_assoc base, ← Nat.mul_add]
    exact next

theorem linkRows_ends (item : 0 < size) (streamed : 0 < streams) {fuel base : Nat} (state : Strms)
    (pos : 0 < fuel) (enough : stop < base + fuel) :
    ∃ last, linkRows size streams stop fuel base state = some last := by
  induction fuel generalizing base state with
  | zero => cases pos
  | succ fuel ih =>
    rw [linkRows]
    by_cases more : base + size * streams < stop
    · have positive := Nat.mul_pos item streamed
      rw [if_pos more]
      exact ih _ (by omega) (by omega)
    · exact ⟨_, if_neg more⟩

theorem linkRows_spec (wide : 8 ≤ size) (streamed : 0 < streams) (fits : stop < 2 ^ 64)
    {fuel : Nat} {last : Nat × Strms} (linked : Linked base size streams index state)
    (first : streams ≤ index) (whole : streams ∣ index)
    (done : linkRows size streams stop fuel (base + size * index) state = some last) :
    ∃ final, last.1 = base + size * final ∧ index ≤ final ∧ streams ∣ final ∧
      Linked base size streams final last.2 ∧ stop ≤ base + size * (final + streams) ∧
      (final = index ∨ base + size * final < stop) := by
  induction fuel generalizing index state with
  | zero => cases done
  | succ fuel ih =>
    rw [linkRows, Nat.add_assoc, ← Nat.mul_add] at done
    by_cases more : base + size * (index + streams) < stop
    · rw [if_pos more] at done
      have next := linked.linkSome wide streamed first whole (Nat.le_refl _) (fun i below => by
        have row := Nat.mul_le_mul_left size (Nat.le_of_lt (Nat.add_lt_add_left below index))
        omega)
      obtain ⟨final, place, above, multiple, rest, ends, inside⟩ :=
        ih next (by omega) (Nat.dvd_add whole (Nat.dvd_refl _)) done
      refine ⟨final, place, by omega, multiple, rest, ends, .inr ?_⟩
      rcases inside with same | inside
      · rw [same]
        exact more
      · exact inside
    · rw [if_neg more] at done
      cases done
      exact ⟨index, rfl, Nat.le_refl _, whole, linked, Nat.not_lt.mp more, .inl rfl⟩

theorem tail_range (base size streams stop : Nat) :
    ∃ count ≤ streams, ((List.range streams).takeWhile fun i => base + size * i < stop) =
      List.range count ∧ (∀ i < count, base + size * i < stop) ∧
      (count = streams ∨ stop ≤ base + size * count) := by
  induction streams with
  | zero => exact ⟨0, Nat.le_refl _, rfl, nofun, .inl rfl⟩
  | succ streams ih =>
    obtain ⟨count, within, taken, inside, ends⟩ := ih
    rw [List.range_succ, List.takeWhile_append, taken, List.length_range, List.length_range]
    by_cases all : count = streams
    · rw [if_pos all]
      by_cases room : base + size * streams < stop
      · refine ⟨streams + 1, Nat.le_refl _, ?_, ?_, .inl rfl⟩
        · simp [List.range_succ, room]
        · intro i below
          rcases Nat.lt_succ_iff_lt_or_eq.mp below with early | rfl
          · exact inside i (all ▸ early)
          · exact room
      · refine ⟨streams, Nat.le_succ _, ?_, fun i below => inside i (all ▸ below),
          .inr (Nat.not_lt.mp room)⟩
        simp [room]
    · rw [if_neg all]
      exact ⟨count, by omega, rfl, inside, .inr (ends.resolve_left all)⟩

end Linking

namespace MapFile

variable {file : MapFile}

theorem rounded_spec (file : MapFile) :
    file.itemsize ≤ file.rounded ∧ 0 < file.rounded ∧ (8 ≤ file.rounded ↔ 4 < file.itemsize) := by
  have sized := file.sized
  rw [rounded]
  omega

theorem makestatmap_returns (file : MapFile) : ∃ m, file.makestatmap = some m := by
  have room := file.room
  obtain ⟨last, done⟩ := @linkRows_ends _ _ file.stop (rounded_spec file).2.1 file.streamed
    (file.filesize + 1) (file.base + file.rounded * file.streams)
    (fun _ => 0, file.item) (Nat.succ_pos _) (by rw [stop, base]; omega)
  exact ⟨_, by rw [makestatmap, done]; rfl⟩

theorem makestatmap_fields {m : StatMap} (made : file.makestatmap = some m) :
    m.itemsize = file.rounded ∧ m.streamcount = file.streams ∧ m.streams = file.item := by
  rw [makestatmap] at made
  obtain ⟨last, -, rfl⟩ := Option.map_eq_some_iff.mp made
  exact ⟨rfl, rfl, rfl⟩

structure Threaded (file : MapFile) (m : StatMap) (count : Nat) : Prop where
  fields : m.itemsize = file.rounded ∧ m.streamcount = file.streams ∧ m.streams = file.item
  first : file.streams ≤ count
  covers : file.stop ≤ file.item count
  starts : ∀ u < count, file.streams ≤ u → file.item u < file.stop
  words : ∀ u, loadWord m.mem (file.item u) =
    if u + file.streams < count then file.item (u + file.streams) else 0

theorem makestatmap_spec (wide : 8 ≤ file.rounded) {m : StatMap}
    (made : file.makestatmap = some m) : ∃ count, file.Threaded m count := by
  have fits : file.stop < 2 ^ 64 := file.room
  have start : Linked file.base file.rounded file.streams file.streams (fun _ => 0, file.item) := by
    constructor
    · intro u below _
      simp only [Nat.mod_eq_of_lt below]
      rfl
    · intro u
      rw [if_neg (by omega)]
      exact loadWord_zero
  rw [makestatmap] at made
  obtain ⟨last, done, rfl⟩ := Option.map_eq_some_iff.mp made
  obtain ⟨final, place, above, whole, linked, ends, inside⟩ :=
    linkRows_spec wide file.streamed fits start (Nat.le_refl _) (Nat.dvd_refl _) done
  obtain ⟨count, within, taken, room, rest⟩ :=
    tail_range (file.base + file.rounded * final) file.rounded file.streams file.stop
  have tail : linkTail file.rounded file.streams file.stop last.1 last.2 =
      last.2.linkSome file.rounded (file.base + file.rounded * final) count := by
    rw [linkTail, place, taken, Strms.linkSome]
  have linked' := linked.linkSome wide file.streamed above whole within (fun i below => by
    have near := room i below
    rw [Nat.mul_add, ← Nat.add_assoc]
    omega)
  refine ⟨final + count, ⟨rfl, rfl, rfl⟩, by omega, ?_, ?_, ?_⟩
  · rw [item]
    rcases rest with all | beyond
    · rw [all]
      exact ends
    · rw [Nat.mul_add, ← Nat.add_assoc]
      exact beyond
  · intro u below first
    rw [item]
    by_cases early : u < final
    · have row := Nat.mul_le_mul_left file.rounded (Nat.le_of_lt early)
      rcases inside with same | inside
      · omega
      · omega
    · obtain ⟨i, rfl⟩ := Nat.exists_eq_add_of_le (Nat.not_lt.mp early)
      have near := room i (by omega)
      rw [Nat.mul_add, ← Nat.add_assoc]
      exact near
  · intro u
    simp only [tail]
    exact linked'.words u

end MapFile

end Qthreads.Qalloc
