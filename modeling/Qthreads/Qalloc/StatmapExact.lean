import Mathlib.Data.List.Perm.Lattice
import Qthreads.Qalloc.Statmap

namespace Qthreads.Qalloc

open Lib Lib.Bytes
open Function (update update_of_ne update_self update_eq_self update_idem)

/-- A pointer that may be `NULL`. -/
def pointer (address : Nat) : Option Nat := if address = 0 then none else some address

def nextFree (mem : Nat → UInt8) (address : Nat) : Option Nat := pointer (loadWord mem address)

def Apart (size left right : Nat) : Prop := left + size ≤ right ∨ right + size ≤ left

def allOf (streams : Nat) (lists : Nat → List Nat) : List Nat := (List.range streams).flatMap lists

def Listed (m : StatMap) (lists : Nat → List Nat) : Prop :=
  ∀ i < m.streamcount, Chain (nextFree m.mem) (pointer (m.streams i)) (lists i) none

/-- The bytes of an item that are used: those asked for, and those of the pointer of its list. -/
def MapFile.need (file : MapFile) : Nat := max file.itemsize 8

structure FreeLists (file : MapFile) (m : StatMap) (lists : Nat → List Nat) : Prop where
  listed : Listed m lists
  apart : (allOf m.streamcount lists).Pairwise (Apart m.itemsize)
  large : file.itemsize ≤ m.itemsize
  holdsPointer : 8 ≤ m.itemsize
  inside : ∀ a ∈ allOf m.streamcount lists, file.map + file.header ≤ a ∧
    a + file.need ≤ file.map + file.filesize

theorem allOf_update_perm {streams i : Nat} (inside : i < streams) (lists : Nat → List Nat) (a : Nat) :
    (allOf streams (update lists i (a :: lists i))).Perm (a :: allOf streams lists) := by
  have general : ∀ cells : List Nat, cells.Nodup → i ∈ cells →
      (cells.flatMap (update lists i (a :: lists i))).Perm (a :: cells.flatMap lists) := by
    intro cells once member
    induction cells with
    | nil => cases member
    | cons cell cells ih =>
      obtain ⟨fresh, once⟩ := List.nodup_cons.mp once
      rw [List.flatMap_cons, List.flatMap_cons]
      by_cases here : cell = i
      · have same : cells.flatMap (update lists i (a :: lists i)) = cells.flatMap lists := by
          refine List.flatMap_congr fun other later => update_of_ne ?_ _ _
          rintro rfl
          exact fresh (here ▸ later)
        rw [here, update_self, same]
        rfl
      · have later := (List.mem_cons.mp member).resolve_left (Ne.symm here)
        rw [update_of_ne here]
        exact (List.Perm.append_left _ (ih once later)).trans List.perm_middle
  exact general _ List.nodup_range (List.mem_range.mpr inside)

theorem apart_symm {size left right : Nat} (apart : Apart size left right) : Apart size right left :=
  Or.symm apart

namespace MapFile

variable {file : MapFile} {m : StatMap} {count : Nat}

def perStream (file : MapFile) (count i : Nat) : Nat := (count - i - 1) / file.streams + 1

def freshList (file : MapFile) (count i : Nat) : List Nat :=
  (List.range' i (file.perStream count i) file.streams).map file.item

theorem perStream_spec {i : Nat} (inside : i < count) :
    i + file.streams * (file.perStream count i - 1) < count ∧
      count ≤ i + file.streams * file.perStream count i := by
  have division := Nat.div_add_mod (count - i - 1) file.streams
  have rest := Nat.mod_lt (count - i - 1) file.streamed
  rw [perStream, Nat.add_sub_cancel, Nat.mul_succ]
  omega

theorem item_pos (file : MapFile) (u : Nat) : 0 < file.item u := by
  have mapped := file.mapped
  rw [item, base]
  omega

theorem item_apart (file : MapFile) {u v : Nat} (less : u < v) :
    file.item u + file.rounded ≤ file.item v := by
  have row := Nat.mul_le_mul_left file.rounded (Nat.succ_le_of_lt less)
  rw [Nat.mul_succ] at row
  rw [item, item]
  omega

theorem strided_chain (threaded : file.Threaded m count) {length u : Nat} (positive : 0 < length)
    (inside : u + file.streams * (length - 1) < count) (ends : count ≤ u + file.streams * length) :
    Chain (nextFree m.mem) (some (file.item u))
      ((List.range' u length file.streams).map file.item) none := by
  induction length generalizing u with
  | zero => cases positive
  | succ length ih =>
    rw [List.range'_succ, List.map_cons]
    refine ⟨rfl, ?_⟩
    rw [nextFree, threaded.words]
    rw [Nat.add_sub_cancel] at inside
    by_cases last : length = 0
    · rw [last] at ends ⊢
      rw [if_neg (by omega)]
      rfl
    · obtain ⟨less, rfl⟩ : ∃ less, length = less + 1 := ⟨length - 1, by omega⟩
      rw [Nat.mul_succ] at inside ends
      rw [if_pos (by omega), pointer, if_neg (Nat.ne_of_gt (file.item_pos _))]
      refine ih (Nat.succ_pos _) ?_ ?_
      · rw [Nat.add_sub_cancel]
        omega
      · omega

theorem freshList_listed (threaded : file.Threaded m count) : Listed m (file.freshList count) := by
  intro i below
  obtain ⟨-, streamcount, streams⟩ := threaded.fields
  rw [streamcount] at below
  have inside := Nat.lt_of_lt_of_le below threaded.first
  obtain ⟨upper, ends⟩ := @perStream_spec file _ _ inside
  rw [streams, pointer, if_neg (Nat.ne_of_gt (file.item_pos i))]
  exact strided_chain threaded (Nat.succ_pos _) upper ends

theorem mem_strided {i u : Nat} (below : i < file.streams) (inside : i < count) :
    u ∈ List.range' i (file.perStream count i) file.streams ↔ u < count ∧ u % file.streams = i := by
  obtain ⟨upper, ends⟩ := @perStream_spec file _ _ inside
  rw [List.mem_range']
  constructor
  · rintro ⟨row, small, rfl⟩
    have less := Nat.mul_le_mul_left file.streams (Nat.le_sub_one_of_lt small)
    refine ⟨by omega, ?_⟩
    rw [Nat.add_mul_mod_self_left, Nat.mod_eq_of_lt below]
  · rintro ⟨small, place⟩
    have division := Nat.mod_add_div u file.streams
    rw [place] at division
    refine ⟨u / file.streams, ?_, division.symm⟩
    refine Nat.lt_of_mul_lt_mul_left (a := file.streams) ?_
    omega

theorem freshList_perm (threaded : file.Threaded m count) :
    (allOf file.streams (file.freshList count)).Perm ((List.range count).map file.item) := by
  have indices : ((List.range file.streams).flatMap fun i =>
      List.range' i (file.perStream count i) file.streams).Perm (List.range count) := by
    refine (List.perm_ext_iff_of_nodup ?_ List.nodup_range).mpr ?_
    · refine List.nodup_flatMap.mpr ⟨fun i _ => List.nodup_range' _ file.streamed, ?_⟩
      refine List.Pairwise.imp_of_mem ?_ (List.nodup_range (n := file.streams))
      intro i j first second differ u left right
      have one := List.mem_range.mp first
      have two := List.mem_range.mp second
      have enough := threaded.first
      have low := ((mem_strided one (by omega)).mp left).2
      have high := ((mem_strided two (by omega)).mp right).2
      exact differ (low.symm.trans high)
    · intro u
      rw [List.mem_flatMap, List.mem_range]
      have enough := threaded.first
      constructor
      · rintro ⟨i, member, inside⟩
        exact ((mem_strided (List.mem_range.mp member)
          (Nat.lt_of_lt_of_le (List.mem_range.mp member) enough)).mp inside).1
      · intro below
        have row := Nat.mod_lt u file.streamed
        exact ⟨u % file.streams, List.mem_range.mpr row,
          (mem_strided row (Nat.lt_of_lt_of_le row enough)).mpr ⟨below, rfl⟩⟩
  have mapped := indices.map file.item
  rw [List.map_flatMap] at mapped
  exact mapped

theorem need_le (wide : 4 < file.itemsize) : file.need ≤ file.rounded :=
  Nat.max_le.mpr ⟨(rounded_spec file).1, (rounded_spec file).2.2.mpr wide⟩

/-- The sizes for which no item is too small for a pointer or reaches behind the file: the file may
end in the bytes that only the rounding of the last item takes. -/
structure Fits (file : MapFile) : Prop where
  wide : 4 < file.itemsize
  room : file.header + file.rounded * (file.streams - 1) + file.need ≤ file.filesize
  tail : (file.filesize - file.header) % file.rounded = 0 ∨
    file.need ≤ (file.filesize - file.header) % file.rounded

theorem last_mod {last size : Nat} (before : file.rounded * last < size)
    (within : size ≤ file.rounded * (last + 1)) :
    size % file.rounded = 0 ∧ size = file.rounded * (last + 1) ∨
      size % file.rounded = size - file.rounded * last := by
  rw [Nat.mul_succ] at within ⊢
  rcases Nat.lt_or_eq_of_le within with less | rfl
  · refine .inr ?_
    have split : size = size - file.rounded * last + file.rounded * last := by omega
    rw [split, Nat.add_mul_mod_self_left, Nat.mod_eq_of_lt (by omega), Nat.add_sub_cancel]
  · refine .inl ⟨?_, rfl⟩
    rw [← Nat.mul_succ]
    exact Nat.mul_mod_right ..

theorem Fits.last_inside (fits : file.Fits) (threaded : file.Threaded m count) :
    file.item (count - 1) + file.need ≤ file.stop := by
  have room := fits.room
  have first := threaded.first
  have streamed := file.streamed
  have covers := threaded.covers
  rw [stop, item, base] at *
  by_cases more : file.streams < count
  · have starts := threaded.starts (count - 1) (by omega) (by omega)
    rw [stop, item, base] at starts
    have counted : count - 1 + 1 = count := by omega
    have need := need_le fits.wide
    have size := @last_mod file (count - 1) (file.filesize - file.header) (by omega)
      (by rw [counted]; omega)
    rcases size, fits.tail with ⟨⟨-, whole⟩ | rest, tail⟩
    · rw [Nat.mul_succ] at whole
      omega
    · rw [rest] at tail
      omega
  · rw [show count = file.streams by omega]
    omega

theorem Fits.freeLists (fits : file.Fits) (threaded : file.Threaded m count) :
    FreeLists file m (file.freshList count) := by
  obtain ⟨size, streamcount, -⟩ := threaded.fields
  have perm := freshList_perm threaded
  refine ⟨freshList_listed threaded, ?_, ?_, ?_, ?_⟩
  · rw [streamcount, perm.pairwise_iff fun apart => apart_symm apart, List.pairwise_map, size]
    exact List.pairwise_lt_range.imp fun less => .inl (item_apart file less)
  · rw [size]
    exact (rounded_spec file).1
  · rw [size]
    exact (rounded_spec file).2.2.mpr fits.wide
  · intro a member
    rw [streamcount, perm.mem_iff] at member
    obtain ⟨u, below, rfl⟩ := List.mem_map.mp member
    have last := fits.last_inside threaded
    have row := Nat.mul_le_mul_left file.rounded (Nat.le_sub_one_of_lt (List.mem_range.mp below))
    rw [stop, item, base] at last
    rw [item, base]
    omega

theorem fits_of_freeLists {lists : Nat → List Nat} (free : FreeLists file m lists)
    (made : file.makestatmap = some m) : file.Fits := by
  have size := (makestatmap_fields made).1
  have wide : 8 ≤ file.rounded := size ▸ free.holdsPointer
  obtain ⟨count, threaded⟩ := makestatmap_spec wide made
  obtain ⟨-, streamcount, -⟩ := threaded.fields
  have enough := threaded.first
  have streamed := file.streamed
  have covers := threaded.covers
  -- the lists of a map are given by its memory
  have last : file.item (count - 1) + file.need ≤ file.stop := by
    have row := Nat.mod_lt (count - 1) file.streamed
    have listed := free.listed ((count - 1) % file.streams) (by rw [streamcount]; exact row)
    have fresh := freshList_listed threaded ((count - 1) % file.streams)
      (by rw [streamcount]; exact row)
    have member : file.item (count - 1) ∈ lists ((count - 1) % file.streams) := by
      rw [listed.unique fresh]
      exact List.mem_map.mpr ⟨_, (mem_strided row (by omega)).mpr ⟨by omega, rfl⟩, rfl⟩
    exact (free.inside _ (List.mem_flatMap.mpr
      ⟨_, List.mem_range.mpr (by rw [streamcount]; exact row), member⟩)).2
  have asked := (rounded_spec file).2.2.mp wide
  have positive := Nat.le_max_right file.itemsize 8
  have row := Nat.mul_le_mul_left file.rounded (Nat.sub_le_sub_right enough 1)
  have counted : count - 1 + 1 = count := by omega
  rw [stop, item, base] at last covers
  rw [need] at last
  have size := @last_mod file (count - 1) (file.filesize - file.header) (by omega)
    (by rw [counted]; omega)
  refine ⟨asked, by rw [need]; omega, ?_⟩
  rw [need]
  rcases size with ⟨whole, -⟩ | rest
  · exact .inl whole
  · exact .inr (by omega)

end MapFile

namespace StatMap

variable {m : StatMap} {me : Nat}

theorem statmalloc_empty (empty : m.streams (me % m.streamcount) = 0) : m.statmalloc me = none := by
  have general : ∀ first fuel, statmallocFrom first fuel (me % m.streamcount) m = none := by
    intro first fuel
    cases fuel with
    | zero => rfl
    | succ fuel => simp only [statmallocFrom, deref, empty, if_true]
  exact general _ _

def popped (m : StatMap) (stream : Nat) : StatMap :=
  { m with streams := update m.streams stream (loadWord m.mem (m.streams stream)) }

theorem popped_streams (stream : Nat) :
    (m.popped stream).streams stream = loadWord m.mem (m.streams stream) :=
  update_self stream _ _

theorem popped_other {stream other : Nat} (differs : other ≠ stream) :
    (m.popped stream).streams other = m.streams other :=
  update_of_ne differs _ _

theorem statmalloc_head (streamed : 0 < m.streamcount)
    (occupied : m.streams (me % m.streamcount) ≠ 0) :
    m.statmalloc me = some (m.streams (me % m.streamcount), m.popped (me % m.streamcount)) := by
  have general : ∀ first fuel, statmallocFrom first (fuel + 1) (me % m.streamcount) m =
      some (m.streams (me % m.streamcount), m.popped (me % m.streamcount)) := by
    intro first fuel
    simp only [statmallocFrom, deref, if_neg occupied]
    rfl
  obtain ⟨fuel, size⟩ := Nat.exists_eq_add_of_le' streamed
  have answer := general (me % m.streamcount) fuel
  rw [← size] at answer
  exact answer

/-- A call comes back, and with `NULL` only where no stream has an item. -/
def Answers (m : StatMap) (me : Nat) : Prop :=
  ∃ ret after, m.statmalloc me = some (ret, after) ∧
    (ret = 0 ↔ ∀ i < m.streamcount, m.streams i = 0)

theorem answers_iff (streamed : 0 < m.streamcount) :
    m.Answers me ↔ m.streams (me % m.streamcount) ≠ 0 := by
  constructor
  · rintro ⟨ret, after, done, -⟩ empty
    rw [statmalloc_empty empty] at done
    cases done
  · intro occupied
    refine ⟨_, _, statmalloc_head streamed occupied, iff_of_false occupied ?_⟩
    intro empty
    exact occupied (empty _ (Nat.mod_lt _ streamed))

end StatMap

/-- What the threads do with a map: calls, and writes to items that were handed out. -/
inductive MapLabel where
  | malloc (me ret : Nat)
  | free (me block : Nat)
  | write (address : Nat) (byte : UInt8)

inductive MapStep (itemsize : Nat) :
    StatMap × List Nat → MapLabel → StatMap × List Nat → Prop where
  | malloc {m after : StatMap} {live : List Nat} {me ret : Nat} :
      m.statmalloc me = some (ret, after) →
      MapStep itemsize (m, live) (.malloc me ret) (after, if ret = 0 then live else ret :: live)
  | free {m : StatMap} {live : List Nat} {me block : Nat} : block ∈ live →
      MapStep itemsize (m, live) (.free me block) (m.statfree me block, live.erase block)
  | write {m : StatMap} {live : List Nat} {address block : Nat} {byte : UInt8} : block ∈ live →
      block ≤ address → address < block + itemsize →
      MapStep itemsize (m, live) (.write address byte)
        ({ m with mem := update m.mem address byte }, live)

theorem MapStep.take {itemsize me stream head : Nat} {m : StatMap} {live : List Nat}
    (streamed : 0 < m.streamcount) (own : me % m.streamcount = stream)
    (here : m.streams stream = head) (occupied : head ≠ 0) :
    MapStep itemsize (m, live) (.malloc me head) (m.popped stream, head :: live) := by
  subst own here
  have step := @MapStep.malloc itemsize m _ live me _ (StatMap.statmalloc_head streamed occupied)
  rw [if_neg occupied] at step
  exact step

structure Kept (size streams : Nat) (items : List Nat) (state : StatMap × List Nat) : Prop where
  fields : state.1.itemsize = size ∧ state.1.streamcount = streams
  lists : ∃ lists, Listed state.1 lists ∧ (state.2 ++ allOf streams lists).Perm items

section Keeping

variable {size streams : Nat} {items : List Nat} {m : StatMap} {live : List Nat}

variable {lists : Nat → List Nat}

theorem Listed.frame {mem : Nat → UInt8} {block : Nat}
    (listed : Listed m lists) (wide : 8 ≤ m.itemsize)
    (apart : (live ++ allOf m.streamcount lists).Pairwise (Apart m.itemsize)) (member : block ∈ live)
    (same : ∀ address, (address < block ∨ block + m.itemsize ≤ address) →
      mem address = m.mem address) : Listed { m with mem := mem } lists := by
  intro i below
  refine (listed i below).congr fun node inside => ?_
  have away := (List.pairwise_append.mp apart).2.2 block member node
    (List.mem_flatMap.mpr ⟨i, List.mem_range.mpr below, inside⟩)
  refine congrArg pointer (loadWord_congr fun byte small => same _ ?_)
  rcases away with before | behind
  · exact .inr (by omega)
  · exact .inl (by omega)

theorem Listed.push {stream block : Nat}
    (fits : m.streams stream < 2 ^ 64) (inside : stream < m.streamcount) (occupied : block ≠ 0)
    (frame : Listed { m with mem := storeWord m.mem block (m.streams stream) } lists) :
    Listed { m with
      mem := storeWord m.mem block (m.streams stream)
      streams := update m.streams stream block }
      (update lists stream (block :: lists stream)) := by
  intro i below
  show Chain _ (pointer (update m.streams stream block i)) _ none
  by_cases here : i = stream
  · rw [here, update_self, update_self, pointer, if_neg occupied]
    refine ⟨rfl, ?_⟩
    rw [nextFree, loadWord_storeWord fits]
    exact frame stream inside
  · rw [update_of_ne here, update_of_ne here]
    exact frame i below

theorem Listed.pop {stream : Nat} (listed : Listed m lists)
    (inside : stream < m.streamcount) (occupied : m.streams stream ≠ 0) :
    ∃ rest, lists stream = m.streams stream :: rest ∧
      Listed (m.popped stream) (update lists stream rest) := by
  have chain := listed stream inside
  rw [pointer, if_neg occupied] at chain
  cases first : lists stream with
  | nil =>
    rw [first] at chain
    cases chain
  | cons head rest =>
    rw [first] at chain
    obtain ⟨same, chain⟩ := chain
    cases same
    refine ⟨rest, rfl, ?_⟩
    intro i below
    show Chain _ (pointer (update m.streams stream _ i)) _ none
    by_cases here : i = stream
    · rw [here, update_self, update_self]
      exact chain
    · rw [update_of_ne here, update_of_ne here]
      exact listed i below

variable {label : MapLabel} {before after : StatMap × List Nat} {itemsize : Nat}

theorem Kept.step (kept : Kept size streams items before) (wide : 8 ≤ size)
    (asked : itemsize ≤ size) (streamed : 0 < streams) (apart : items.Pairwise (Apart size))
    (small : ∀ a ∈ items, 0 < a ∧ a < 2 ^ 64) (step : MapStep itemsize before label after) :
    Kept size streams items after := by
  obtain ⟨⟨rfl, rfl⟩, lists, listed, perm⟩ := kept
  have separate := (perm.pairwise_iff fun apart => apart_symm apart).mpr apart
  have inside := fun me => Nat.mod_lt me streamed
  cases step with
  | @malloc m after live me ret done =>
    dsimp only at *
    by_cases empty : m.streams (me % m.streamcount) = 0
    · rw [StatMap.statmalloc_empty empty] at done
      cases done
    · rw [StatMap.statmalloc_head streamed empty] at done
      cases done
      obtain ⟨rest, first, popped⟩ := listed.pop (inside me) empty
      refine ⟨⟨rfl, rfl⟩, _, popped, ?_⟩
      rw [if_neg empty, List.cons_append]
      refine List.Perm.trans ?_ perm
      have whole := allOf_update_perm (inside me)
        (update lists (me % m.streamcount) rest) (m.streams (me % m.streamcount))
      rw [update_self, update_idem, ← first, update_eq_self] at whole
      exact List.perm_middle.symm.trans (List.Perm.append_left live whole.symm)
  | @free m live me block member =>
    dsimp only at *
    have positive := small block (perm.mem_iff.mp (List.mem_append_left _ member))
    have fits : m.streams (me % m.streamcount) < 2 ^ 64 := by
      by_cases empty : m.streams (me % m.streamcount) = 0
      · rw [empty]
        exact Nat.two_pow_pos 64
      · obtain ⟨rest, first, -⟩ := listed.pop (inside me) empty
        refine (small _ (perm.mem_iff.mp (List.mem_append_right _ ?_))).2
        refine List.mem_flatMap.mpr ⟨_, List.mem_range.mpr (inside me), ?_⟩
        rw [first]
        exact List.mem_cons_self
    have frame : Listed
        { m with mem := storeWord m.mem block (m.streams (me % m.streamcount)) } lists := by
      refine listed.frame wide separate member ?_
      intro address away
      rw [storeWord, if_neg (by omega)]
    refine ⟨⟨rfl, rfl⟩, _, Listed.push fits (inside me) (Nat.ne_of_gt positive.1) frame, ?_⟩
    refine List.Perm.trans ?_ perm
    have whole := allOf_update_perm (inside me) lists block
    refine (List.Perm.append_left _ whole).trans (List.perm_middle.trans ?_)
    rw [← List.cons_append]
    exact List.Perm.append_right _ (List.perm_cons_erase member).symm
  | @write m live address block byte member lower upper =>
    dsimp only at *
    refine ⟨⟨rfl, rfl⟩, lists, listed.frame wide separate member ?_, perm⟩
    intro other away
    refine update_of_ne ?_ _ _
    omega

end Keeping

/-- What the allocator promises of a map that was made from a file, in a state of it and for the
next call of a thread. -/
structure Serves (file : MapFile) (m : StatMap) (state : StatMap × List Nat) (me : Nat) : Prop where
  made : ∃ lists, FreeLists file m lists ∧
    Kept m.itemsize m.streamcount (allOf m.streamcount lists) state
  live : state.2.Pairwise (Apart m.itemsize)
  answers : state.1.Answers me

/-- In each state of each run the promise holds for the next call of a thread where the sizes fit
and the thread's own stream has an item. -/
theorem statmap_iff (file : MapFile) : ∃ m, file.makestatmap = some m ∧
    ∀ labels state, Run (MapStep file.itemsize) (m, []) labels state → ∀ me,
      (Serves file m state me ↔ file.Fits ∧ state.1.streams (me % file.streams) ≠ 0) := by
  obtain ⟨m, made⟩ := file.makestatmap_returns
  refine ⟨m, made, ?_⟩
  intro labels state run me
  obtain ⟨size, streamcount, -⟩ := MapFile.makestatmap_fields made
  have streamed : 0 < m.streamcount := streamcount ▸ file.streamed
  constructor
  · rintro ⟨⟨lists, free, kept⟩, -, answers⟩
    have same := kept.fields.2
    have occupied := (StatMap.answers_iff (by rw [same]; exact streamed)).mp answers
    rw [same, streamcount] at occupied
    exact ⟨MapFile.fits_of_freeLists free made, occupied⟩
  · rintro ⟨fits, occupied⟩
    obtain ⟨count, threaded⟩ :=
      MapFile.makestatmap_spec ((MapFile.rounded_spec file).2.2.mpr fits.wide) made
    have free := fits.freeLists threaded
    have small : ∀ a ∈ allOf m.streamcount (file.freshList count), 0 < a ∧ a < 2 ^ 64 := by
      intro a member
      obtain ⟨lower, upper⟩ := free.inside a member
      have mapped := file.mapped
      have room := file.room
      have bytes := Nat.le_max_right file.itemsize 8
      rw [MapFile.need] at upper
      omega
    have kept : Kept m.itemsize m.streamcount (allOf m.streamcount (file.freshList count)) state :=
      run.preserves
      (fun _ _ _ kept step => kept.step free.holdsPointer free.large streamed free.apart small step)
      ⟨⟨rfl, rfl⟩, _, free.listed, List.Perm.refl _⟩
    have same := kept.fields.2
    obtain ⟨lists, -, perm⟩ := kept.lists
    refine ⟨⟨_, free, kept⟩, ?_, ?_⟩
    · have all := (perm.pairwise_iff fun apart => apart_symm apart).mpr free.apart
      exact (List.pairwise_append.mp all).1
    · refine (StatMap.answers_iff (by rw [same]; exact streamed)).mpr ?_
      rw [same, streamcount]
      exact occupied

def oneItem : MapFile := ⟨4096, 80, 8, 1, 40, by decide, by decide, Nat.succ_pos 7, Nat.one_pos⟩

def fourItems : MapFile := ⟨4096, 165, 9, 2, 40, by decide, by decide, Nat.succ_pos 8, Nat.two_pos⟩

/-- Two threads take an item each; the first one writes the last byte of its own, and the other one
frees it. -/
theorem statmap_reused : ∃ m labels state, fourItems.makestatmap = some m ∧
    Run (MapStep 9) (m, []) labels state ∧ labels.length = 4 ∧
    state.2 = [fourItems.item 1] ∧ Serves fourItems m state 0 := by
  obtain ⟨m, made, serves⟩ := statmap_iff fourItems
  obtain ⟨-, streamcount, streams⟩ := MapFile.makestatmap_fields made
  obtain ⟨count, threaded⟩ := MapFile.makestatmap_spec (by decide) made
  have several : 0 + 2 < count := by
    have covers := threaded.covers
    rw [MapFile.item, show fourItems.rounded = 12 from rfl, show fourItems.base = 4216 from rfl,
      show fourItems.stop = 4261 from rfl] at covers
    omega
  have words := threaded.words 0
  rw [show fourItems.streams = 2 from rfl, if_pos several] at words
  have two : m.streamcount = 2 := streamcount
  have positive (u : Nat) : fourItems.item u ≠ 0 := Nat.ne_of_gt (fourItems.item_pos u)
  have first : MapStep 9 (m, []) (.malloc 0 (fourItems.item 0)) (m.popped 0, _) :=
    .take (by rw [two]; decide) (by rw [two]) (by rw [streams]) (positive 0)
  have own : (m.popped 0).streams 1 = fourItems.item 1 :=
    (StatMap.popped_other (by decide)).trans (congrFun streams 1)
  have second : MapStep 9 (m.popped 0, [fourItems.item 0]) (.malloc 1 (fourItems.item 1))
      ((m.popped 0).popped 1, _) :=
    .take (by rw [StatMap.popped, two]; decide) (by rw [StatMap.popped, two]) own (positive 1)
  have live : fourItems.item 0 ∈ [fourItems.item 1, fourItems.item 0] :=
    List.mem_cons_of_mem _ List.mem_cons_self
  have third : MapStep 9 ((m.popped 0).popped 1, [fourItems.item 1, fourItems.item 0])
      (.write (fourItems.item 0 + 8) 7) _ := .write live (Nat.le_add_right ..) (by omega)
  have run := Run.cons first (.cons second (.cons third (.cons (@MapStep.free 9 _ _ 1 _ live)
    (.nil _))))
  have left : [fourItems.item 1, fourItems.item 0].erase (fourItems.item 0) =
      [fourItems.item 1] := by decide
  refine ⟨m, _, _, made, run, rfl, left, (serves _ _ run 0).mpr
    ⟨⟨by decide, by decide, by decide⟩, ?_⟩⟩
  have other : 0 ≠ 1 % m.streamcount := by
    rw [two]
    decide
  have head : (m.popped 0).streams 0 = fourItems.item 2 :=
    (StatMap.popped_streams 0).trans (by rw [streams, words])
  have kept : ((m.popped 0).popped 1).streams 0 = fourItems.item 2 :=
    (StatMap.popped_other (by decide)).trans head
  have freed : (((m.popped 0).popped 1).statfree 1 (fourItems.item 0)).streams 0 =
      fourItems.item 2 := (update_of_ne other _ _).trans kept
  exact fun empty => positive 2 (freed.symm.trans empty)

/-- After the only item was handed out, the next call dereferences `NULL`. -/
theorem exhausted_stops : ¬ ∀ m, oneItem.makestatmap = some m → ∀ labels state,
    Run (MapStep oneItem.itemsize) (m, []) labels state → Serves oneItem m state 0 := by
  intro serves
  obtain ⟨m, made⟩ := oneItem.makestatmap_returns
  obtain ⟨-, streamcount, streams⟩ := MapFile.makestatmap_fields made
  have head : m.streams (0 % m.streamcount) ≠ 0 := by
    rw [streams]
    exact Nat.ne_of_gt (oneItem.item_pos _)
  have first := StatMap.statmalloc_head (by rw [streamcount]; decide) head
  have one : MapStep 8 (m, []) (.malloc 0 _) (m.popped (0 % m.streamcount), _) :=
    .take (by rw [streamcount]; decide) rfl rfl head
  obtain ⟨⟨lists, free, kept⟩, -, answers⟩ := serves m made _ _ (.cons one (.nil _))
  have fits := MapFile.fits_of_freeLists free made
  obtain ⟨count, threaded⟩ :=
    MapFile.makestatmap_spec ((MapFile.rounded_spec oneItem).2.2.mpr fits.wide) made
  have single : ¬ 0 + 1 < count := fun more =>
    absurd (threaded.starts 1 more (Nat.le_refl 1)) (by decide)
  have words := threaded.words 0
  rw [show oneItem.streams = 1 from rfl, if_neg single] at words
  obtain ⟨ret, after, done, -⟩ := answers
  rw [StatMap.statmalloc_empty] at done
  · cases done
  · have next := StatMap.popped_streams (m := m) (0 % m.streamcount)
    rw [streams, Nat.zero_mod, words] at next
    exact next

end Qthreads.Qalloc
