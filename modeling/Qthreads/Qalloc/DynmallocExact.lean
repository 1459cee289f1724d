import Qthreads.Qalloc.Dynmap

namespace Qthreads.Qalloc

open Lib

section Chase

variable {length count : Nat} {Entries : Type} {header : Header length Entries}
  {chain : List (Header length Entries)} {lock : Nat → Lock}

/-- No bit that `qalloc_findmark_bit` looks at is zero. -/
def Header.Full (count : Nat) (header : Header length Entries) : Prop :=
  ∀ i < count / 8 * 8, bit header.bitmap i = true

theorem header_findmarkBit {bits offset : Nat} {bitmap : List Byte}
    (found : Qalloc.findmarkBit header.bitmap bits = some (bitmap, offset)) :
    ∃ marked, header.findmarkBit bits = some (marked, offset) ∧ marked.block = header.block ∧
      marked.bitmap = bitmap ∧ marked.entries = header.entries := by
  unfold Header.findmarkBit
  split
  · rename_i absent
    rw [found] at absent
    cases absent
  · rename_i other place same
    rw [found] at same
    cases same
    exact ⟨_, rfl, rfl, rfl, rfl⟩

section

variable (inside : count / 8 ≤ length)
include inside

theorem findmarkBit_full (full : header.Full count) :
    header.findmarkBit count = some (header, count / 8 * 8 + 8) := by
  obtain ⟨result, found, spec⟩ := findmarkBit_finds (by rw [header.sized]; exact inside)
  have nothing := spec.nothing (by
    rintro ⟨i, less, zero⟩
    rw [full i less] at zero
    cases zero)
  rw [nothing] at found
  obtain ⟨marked, marks, block, bitmap, entries⟩ := header_findmarkBit found
  rw [marks]
  obtain ⟨_, _, _, _⟩ := marked
  obtain ⟨_, _, _, _⟩ := header
  cases block
  cases bitmap
  cases entries
  rfl

theorem findmarkBit_open (full : ¬header.Full count) :
    ∃ marked offset, header.findmarkBit count = some (marked, offset) ∧ offset < count / 8 * 8 := by
  obtain ⟨⟨bitmap, offset⟩, found, spec⟩ :=
    findmarkBit_finds (by rw [header.sized]; exact inside)
  have zero : ∃ i < count / 8 * 8, bit header.bitmap i = false := by
    by_contra absent
    apply full
    intro i less
    by_contra set
    exact absent ⟨i, less, Bool.eq_false_iff.mpr set⟩
  obtain ⟨marked, marks, -⟩ := header_findmarkBit found
  exact ⟨marked, offset, marks, (spec.found zero).1⟩

theorem findmarkBit_some (header : Header length Entries) :
    ∃ marked offset, header.findmarkBit count = some (marked, offset) := by
  by_cases full : header.Full count
  · exact ⟨_, _, findmarkBit_full inside full⟩
  · obtain ⟨marked, offset, found, -⟩ := findmarkBit_open inside full
    exact ⟨marked, offset, found⟩

theorem chase_pass {rest : List (Header length Entries)}
    (distinct : ∀ i, lock (i + 1) ≠ lock i) (full : header.Full count) (place offset : Nat) :
    chase lock count place (header :: rest) [lock place] offset =
      (chase lock count (place + 1) rest (if rest.isEmpty then [] else [lock (place + 1)])
        (count / 8 * 8 + 8)).map fun chased => { chased with chain := header :: chased.chain } := by
  have passes : count / 8 * 8 + 8 > count := by omega
  rw [chase, findmarkBit_full inside full]
  cases rest with
  | nil =>
    simp only [if_pos passes, List.isEmpty_nil, if_true, Locks.release, List.erase_cons_head]
  | cons next others =>
    simp only [if_pos passes, List.isEmpty_cons, Bool.false_eq_true, if_false, Locks.acquire,
      List.mem_singleton, if_neg (distinct place), Locks.release,
      List.erase_cons_tail (not_beq_of_ne (distinct place)), List.erase_cons_head]

theorem chase_exact (distinct : ∀ i, lock (i + 1) ≠ lock i) (place offset : Nat) :
    ((∀ header ∈ chain, header.Full count) →
      ∃ last, chase lock count place chain (if chain.isEmpty then [] else [lock place]) offset =
          some ⟨chain, none, last, []⟩ ∧
        (chain = [] → last = offset) ∧ (chain ≠ [] → last = count / 8 * 8 + 8)) ∧
    ((∃ header ∈ chain, ¬header.Full count) →
      ∃ chased i, chase lock count place chain (if chain.isEmpty then [] else [lock place]) offset =
          some chased ∧ chased.place = some (place + i) ∧ chased.held = [lock (place + i)] ∧
        i < chased.chain.length) := by
  induction chain generalizing place offset with
  | nil => exact ⟨fun _ => ⟨offset, rfl, fun _ => rfl, fun occupied => absurd rfl occupied⟩, nofun⟩
  | cons header rest ih =>
    by_cases full : header.Full count
    · rw [List.isEmpty_cons, if_neg Bool.false_ne_true, chase_pass inside distinct full]
      obtain ⟨all, present⟩ := ih (place + 1) (count / 8 * 8 + 8)
      constructor
      · intro fulls
        obtain ⟨last, chased, empty, nonempty⟩ :=
          all fun header member => fulls header (List.mem_cons_of_mem _ member)
        refine ⟨last, by rw [chased]; rfl, nofun, fun _ => ?_⟩
        cases rest with
        | nil => exact empty rfl
        | cons next others => exact nonempty nofun
      · rintro ⟨other, member, opens⟩
        rcases List.mem_cons.mp member with rfl | later
        · exact absurd full opens
        · obtain ⟨chased, i, ran, there, held, within⟩ := present ⟨other, later, opens⟩
          refine ⟨{ chased with chain := header :: chased.chain }, i + 1, by rw [ran]; rfl, ?_, ?_,
            Nat.succ_lt_succ within⟩
          · rw [show place + (i + 1) = place + 1 + i by omega]
            exact there
          · rw [show place + (i + 1) = place + 1 + i by omega]
            exact held
    · obtain ⟨marked, found, marks, less⟩ := findmarkBit_open inside full
      refine ⟨fun fulls => absurd (fulls header List.mem_cons_self) full, fun _ => ?_⟩
      have stays : ¬found > count := by omega
      refine ⟨⟨marked :: rest, some place, found, [lock place]⟩, 0, ?_, rfl, rfl, Nat.succ_pos _⟩
      rw [List.isEmpty_cons, if_neg Bool.false_ne_true, chase, marks]
      simp only [if_neg stays]

end

theorem findEntry_exact (lock : Nat → Lock) (chain : List (Header length Entries)) {stream : Nat}
    (inside : count / 8 ≤ length)
    (distinct : ∀ i, lock (i + 1) ≠ lock i) (apart : ∀ i, lock i ≠ .stream stream) (offset : Nat) :
    ((∀ header ∈ chain, header.Full count) →
      ∃ last, findEntry lock count stream chain [] offset = some ⟨chain, none, last, []⟩ ∧
        (chain = [] → last = offset) ∧ (chain ≠ [] → last = count / 8 * 8 + 8)) ∧
    ((∃ header ∈ chain, ¬header.Full count) →
      ∃ chased i, findEntry lock count stream chain [] offset = some chased ∧
        chased.place = some i ∧ chased.held = [lock i] ∧ i < chased.chain.length) := by
  have locked : findEntry lock count stream chain [] offset =
      chase lock count 0 chain (if chain.isEmpty then [] else [lock 0]) offset := by
    cases chain with
    | nil =>
      simp only [findEntry, Locks.acquire, List.not_mem_nil, if_false, List.isEmpty_nil, if_true,
        Locks.release, List.erase_cons_head]
    | cons header rest =>
      simp only [findEntry, Locks.acquire, List.not_mem_nil, if_false, List.isEmpty_cons,
        Bool.false_eq_true, List.mem_singleton, if_neg (apart 0), Locks.release,
        List.erase_cons_tail (not_beq_of_ne (apart 0)), List.erase_cons_head]
  obtain ⟨full, opens⟩ := @chase_exact _ _ _ chain lock inside distinct 0 offset
  rw [locked]
  refine ⟨full, fun occurs => ?_⟩
  obtain ⟨chased, i, ran, place, held, within⟩ := opens occurs
  rw [Nat.zero_add] at place held
  exact ⟨chased, i, ran, place, held, within⟩

end Chase

namespace DynMap

variable {m : DynMap} {memory : Memory} {stream offset blocks ret : Nat}

def FullMap (m : DynMap) : Prop := ∀ i < 8 * m.bitmap.length, bit m.bitmap i = true

/-- No small block of the stream has a slice that `qalloc_findmark_bit` finds. -/
def SmallFull (m : DynMap) (stream : Nat) : Prop :=
  ∀ sb ∈ m.smallblocks stream, sb.Full smallblockSliceCount

def BigFull (m : DynMap) (stream : Nat) : Prop :=
  ∀ bbh ∈ m.bigblocks stream, bbh.Full bigblockEntryCount

theorem acquire_free (lock : Lock) : Locks.acquire [] lock = some [lock] := rfl

theorem release_only (lock : Lock) : Locks.release [lock] lock = [] := List.erase_cons_head ..

theorem markBlock_full (free : m.held = []) (full : m.FullMap) :
    m.markBlock = some (m, m.bitmap.length * 8 + 8) := by
  obtain ⟨result, found, spec⟩ :=
    findmarkBit_finds (show m.bitmap.length * 8 / 8 ≤ m.bitmap.length by omega)
  have size : m.bitmap.length * 8 / 8 * 8 = m.bitmap.length * 8 := by omega
  have nothing := spec.nothing (by
    rintro ⟨i, less, zero⟩
    rw [full i (by omega)] at zero
    cases zero)
  rw [nothing, size] at found
  obtain ⟨_, _, _, _, _, held⟩ := m
  cases free
  simp only [markBlock, markBlocks, acquire_free, found, Option.map_some, release_only]

theorem markBlock_open (free : m.held = []) (full : ¬m.FullMap) :
    ∃ bitmap first, m.markBlock = some ({ m with bitmap }, first) ∧ first < 8 * m.bitmap.length ∧
      bit m.bitmap first = false ∧ (∀ i < first, bit m.bitmap i = true) ∧
      Written m.bitmap bitmap first 1 true := by
  obtain ⟨⟨bitmap, first⟩, found, spec⟩ :=
    findmarkBit_finds (show m.bitmap.length * 8 / 8 ≤ m.bitmap.length by omega)
  have size : m.bitmap.length * 8 / 8 * 8 = 8 * m.bitmap.length := by omega
  rw [FullMap] at full
  push Not at full
  obtain ⟨i, less, zero⟩ := full
  obtain ⟨inside, zeroBit, before, written⟩ :=
    spec.found ⟨i, by omega, Bool.eq_false_iff.mpr zero⟩
  rw [size] at inside
  refine ⟨bitmap, first, ?_, inside, zeroBit, before, written⟩
  obtain ⟨_, _, _, _, _, held⟩ := m
  cases free
  simp only [markBlock, markBlocks, acquire_free, found, Option.map_some, release_only]

theorem pushing_free {lock : Lock} (apart : lock ≠ .stream stream) :
    pushing [] stream lock = some [lock] := by
  simp only [pushing, Locks.acquire, List.not_mem_nil, if_false, List.mem_singleton, if_neg apart,
    Option.map_some, Locks.release, List.erase_cons_tail (not_beq_of_ne apart),
    List.erase_cons_head]

theorem small_same (free : m.held = []) :
    { m with
      smallblocks := Function.update m.smallblocks stream (m.smallblocks stream)
      held := [] } = m := by
  rw [Function.update_eq_self, ← free]

theorem big_same (free : m.held = []) :
    { m with
      bigblocks := Function.update m.bigblocks stream (m.bigblocks stream)
      held := [] } = m := by
  rw [Function.update_eq_self, ← free]

theorem find_small (m : DynMap) (stream offset : Nat) :
    (m.SmallFull stream → ∃ last, findEntry (.small stream) smallblockSliceCount stream
        (m.smallblocks stream) [] offset = some ⟨m.smallblocks stream, none, last, []⟩) ∧
      (¬m.SmallFull stream → ∃ chased i, findEntry (.small stream) smallblockSliceCount stream
        (m.smallblocks stream) [] offset = some chased ∧ chased.place = some i ∧
          i < chased.chain.length) := by
  obtain ⟨full, opens⟩ := findEntry_exact (.small stream) (m.smallblocks stream)
    (show smallblockSliceCount / 8 ≤ 4 by decide) (fun i => by simp)
    (fun i => show Lock.small stream i ≠ .stream stream by simp) offset
  constructor
  · intro all
    obtain ⟨last, found, -⟩ := full all
    exact ⟨last, found⟩
  · intro present
    rw [SmallFull] at present
    push Not at present
    obtain ⟨chased, i, found, place, -, within⟩ := opens present
    exact ⟨chased, i, found, place, within⟩

theorem smallAttempt_fails (free : m.held = []) (full : m.SmallFull stream) (used : m.FullMap) :
    m.smallAttempt memory stream offset = some (.failed m (m.bitmap.length * 8 + 8)) := by
  obtain ⟨last, found⟩ := (m.find_small stream offset).1 full
  have passes : m.bitmap.length * 8 + 8 > m.bitmap.length * 8 := by omega
  rw [smallAttempt, free, found]
  dsimp only
  rw [small_same free, markBlock_full free used]
  simp only [if_pos passes]

theorem smallAttempt_works (free : m.held = []) (open_ : ¬(m.SmallFull stream ∧ m.FullMap)) :
    ∃ ret after, m.smallAttempt memory stream offset = some (.done ret after) ∧ ret ≠ .null := by
  rw [smallAttempt, free]
  by_cases taken : m.SmallFull stream
  · obtain ⟨last, found⟩ := (m.find_small stream offset).1 taken
    obtain ⟨bitmap, first, marks, inside, -, -, written⟩ :=
      markBlock_open free fun used => open_ ⟨taken, used⟩
    have low : ¬first > bitmap.length * 8 := by
      rw [written.length]
      omega
    rw [found]
    dsimp only
    rw [small_same free, marks]
    simp only [if_neg low, free, pushing_free (show Lock.small stream 0 ≠ .stream stream by simp),
      Option.map_some]
    exact ⟨_, _, rfl, nofun⟩
  · obtain ⟨chased, i, found, place, within⟩ := (m.find_small stream offset).2 taken
    rw [found]
    simp only [place, List.getElem?_eq_getElem within, Option.map_some]
    exact ⟨_, _, rfl, nofun⟩

theorem find_big (m : DynMap) (stream offset : Nat) :
    (m.BigFull stream → ∃ last, findEntry (.big stream) bigblockEntryCount stream
        (m.bigblocks stream) [] offset = some ⟨m.bigblocks stream, none, last, []⟩ ∧
          (m.bigblocks stream = [] → last = offset) ∧ (m.bigblocks stream ≠ [] → last = 168)) ∧
      (¬m.BigFull stream → ∃ chased i, findEntry (.big stream) bigblockEntryCount stream
        (m.bigblocks stream) [] offset = some chased ∧ chased.place = some i) := by
  obtain ⟨full, opens⟩ := findEntry_exact (.big stream) (m.bigblocks stream)
    (show bigblockEntryCount / 8 ≤ 20 by decide) (fun i => by simp)
    (fun i => show Lock.big stream i ≠ .stream stream by simp) offset
  constructor
  · exact full
  · intro present
    rw [BigFull] at present
    push Not at present
    obtain ⟨chased, i, found, place, -⟩ := opens present
    exact ⟨chased, i, found, place⟩

theorem bigAttempt_fails (free : m.held = []) (full : m.BigFull stream) (used : m.FullMap) :
    ∃ last, m.bigAttempt memory ret blocks stream offset = some (.failed m last) ∧
      (m.bigblocks stream = [] → last = offset) ∧ (m.bigblocks stream ≠ [] → last = 168) := by
  obtain ⟨last, found, empty, nonempty⟩ := (m.find_big stream offset).1 full
  have passes : m.bitmap.length * 8 + 8 > m.bitmap.length * 8 := by omega
  refine ⟨last, ?_, empty, nonempty⟩
  rw [bigAttempt, free, found]
  dsimp only
  rw [big_same free, markBlock_full free used]
  simp only [if_pos passes]

theorem bigAttempt_works (free : m.held = []) (open_ : ¬(m.BigFull stream ∧ m.FullMap)) :
    ∃ ret' after, m.bigAttempt memory ret blocks stream offset = some (.done ret' after) ∧
      ret' ≠ .null := by
  rw [bigAttempt, free]
  by_cases taken : m.BigFull stream
  · obtain ⟨last, found, -⟩ := (m.find_big stream offset).1 taken
    obtain ⟨bitmap, first, marks, inside, -, -, written⟩ :=
      markBlock_open free fun used => open_ ⟨taken, used⟩
    have low : ¬first > bitmap.length * 8 := by
      rw [written.length]
      omega
    rw [found]
    dsimp only
    rw [big_same free, marks]
    obtain ⟨marked, place, entry⟩ := findmarkBit_some
      (show bigblockEntryCount / 8 ≤ 20 by decide) (⟨first, List.replicate 20 0,
        List.length_replicate, memory.entries first⟩ : BigblockHeader)
    simp only [if_neg low, free, pushing_free (show Lock.big stream 0 ≠ .stream stream by simp),
      entry]
    exact ⟨_, _, rfl, nofun⟩
  · obtain ⟨chased, i, found, place⟩ := (m.find_big stream offset).2 taken
    rw [found]
    simp only [place]
    exact ⟨_, _, rfl, nofun⟩

section Streams

variable {attempt : DynMap → Nat → Nat → Option Attempt}
  {giveUp : DynMap → Nat → Option (Returned × DynMap)} {Blocked Empty : Nat → Prop} {last : Nat}

theorem stream_eq {n original k : Nat} (below : original < n) (inside : k ≤ n) :
    (original + k) % n = if original + k < n then original + k else original + k - n := by
  split
  · rename_i low
    exact Nat.mod_eq_of_lt low
  · rename_i high
    rw [Nat.mod_eq_sub_mod (Nat.le_of_not_lt high), Nat.mod_eq_of_lt (by omega)]

theorem all_streams {n original : Nat} (below : original < n) (P : Nat → Prop) :
    (∀ k < n, P ((original + k) % n)) ↔ ∀ stream < n, P stream := by
  constructor
  · intro all stream inside
    by_cases later : original ≤ stream
    · have here := all (stream - original) (by omega)
      rw [stream_eq below (by omega), if_pos (by omega)] at here
      rwa [show original + (stream - original) = stream by omega] at here
    · have here := all (stream + n - original) (by omega)
      rw [stream_eq below (by omega), if_neg (by omega)] at here
      rwa [show original + (stream + n - original) - n = stream by omega] at here
  · exact fun all k inside => all _ (Nat.mod_lt _ (by omega))

theorem overStreams_fails {original j left : Nat} (below : original < m.streamcount)
    (fails : ∀ stream offset, Blocked stream → ∃ next, attempt m stream offset =
      some (.failed m next) ∧ (Empty stream → next = offset) ∧ (¬Empty stream → next = last))
    (position : j + left + 1 = m.streamcount)
    (blocked : ∀ k, j ≤ k → k < m.streamcount → Blocked ((original + k) % m.streamcount))
    (offset : Nat) :
    ∃ final, overStreams attempt giveUp original (left + 1) m ((original + j) % m.streamcount)
        offset = giveUp m final ∧
      ((∀ k, j ≤ k → k < m.streamcount → Empty ((original + k) % m.streamcount)) →
        final = offset) ∧
      ((∃ k, j ≤ k ∧ k < m.streamcount ∧ ¬Empty ((original + k) % m.streamcount)) →
        final = last) := by
  have onward : ((original + j) % m.streamcount + 1) % m.streamcount =
      (original + (j + 1)) % m.streamcount := by
    rw [Nat.mod_add_mod, Nat.add_assoc]
  obtain ⟨next, failed, empty, nonempty⟩ :=
    fails ((original + j) % m.streamcount) offset (blocked j (Nat.le_refl j) (by omega))
  rw [overStreams, failed]
  dsimp only
  rw [onward, stream_eq below (by omega)]
  induction left generalizing j offset next with
  | zero =>
    rw [if_neg (by split <;> omega)]
    refine ⟨next, rfl, fun all => empty (all j (Nat.le_refl j) (by omega)), ?_⟩
    rintro ⟨k, lower, upper, present⟩
    cases show k = j by omega
    exact nonempty present
  | succ left ih =>
    rw [← stream_eq below (by omega), if_pos ⟨by omega, by
      rw [stream_eq below (by omega)]
      split <;> omega⟩]
    have further : ((original + (j + 1)) % m.streamcount + 1) % m.streamcount =
        (original + (j + 1 + 1)) % m.streamcount := by
      rw [Nat.mod_add_mod, Nat.add_assoc]
    obtain ⟨after, again, emptyAfter, nonemptyAfter⟩ :=
      fails ((original + (j + 1)) % m.streamcount) next (blocked (j + 1) (by omega) (by omega))
    obtain ⟨final, given, alls, somes⟩ := ih (by omega)
      (fun k lower upper => blocked k (by omega) upper) next further after again emptyAfter
      nonemptyAfter
    rw [overStreams, again]
    dsimp only
    rw [further, stream_eq below (by omega)]
    refine ⟨final, given, ?_, ?_⟩
    · intro all
      rw [alls fun k lower upper => all k (by omega) upper]
      exact empty (all j (Nat.le_refl j) (by omega))
    · rintro ⟨k, lower, upper, present⟩
      by_cases rest : ∃ k, j + 1 ≤ k ∧ k < m.streamcount ∧
          ¬Empty ((original + k) % m.streamcount)
      · exact somes rest
      · push Not at rest
        have here : k = j := by
          by_contra differ
          exact present (rest k (by omega) upper)
        subst here
        rw [alls rest]
        exact nonempty present

theorem overStreams_works {original j left : Nat} (below : original < m.streamcount)
    (fails : ∀ stream offset, Blocked stream → ∃ next, attempt m stream offset =
      some (.failed m next))
    (works : ∀ stream offset, ¬Blocked stream → ∃ ret after, attempt m stream offset =
      some (.done ret after) ∧ ret ≠ .null)
    (position : j + left + 1 = m.streamcount)
    (open_ : ∃ k, j ≤ k ∧ k < m.streamcount ∧ ¬Blocked ((original + k) % m.streamcount))
    (offset : Nat) :
    ∃ ret after, overStreams attempt giveUp original (left + 1) m
      ((original + j) % m.streamcount) offset = some (ret, after) ∧ ret ≠ .null := by
  induction left generalizing j offset with
  | zero =>
    obtain ⟨k, lower, upper, open_⟩ := open_
    cases show k = j by omega
    obtain ⟨ret, after, done, differ⟩ := works _ offset open_
    exact ⟨ret, after, by rw [overStreams, done], differ⟩
  | succ left ih =>
    by_cases here : Blocked ((original + j) % m.streamcount)
    · obtain ⟨next, failed⟩ := fails _ offset here
      have onward : ((original + j) % m.streamcount + 1) % m.streamcount =
          (original + (j + 1)) % m.streamcount := by
        rw [Nat.mod_add_mod, Nat.add_assoc]
      have more : m.streamcount > 1 ∧
          (original + (j + 1)) % m.streamcount ≠ original := by
        rw [stream_eq below (by omega)]
        refine ⟨by omega, ?_⟩
        split <;> omega
      obtain ⟨k, lower, upper, open_⟩ := open_
      have later : j + 1 ≤ k := by
        rcases Nat.lt_or_eq_of_le lower with less | rfl
        · exact less
        · exact absurd here open_
      obtain ⟨ret, after, done, differ⟩ := ih (by omega) ⟨k, later, upper, open_⟩ next
      refine ⟨ret, after, ?_, differ⟩
      rw [overStreams, failed]
      dsimp only
      rw [onward, if_pos more]
      exact done
    · obtain ⟨ret, after, done, differ⟩ := works _ offset here
      exact ⟨ret, after, by rw [overStreams, done], differ⟩

theorem loop_fails (Blocked Empty : Nat → Prop) (last : Nat) {original : Nat}
    (below : original < m.streamcount)
    (fails : ∀ stream offset, Blocked stream → ∃ next, attempt m stream offset =
      some (.failed m next) ∧ (Empty stream → next = offset) ∧ (¬Empty stream → next = last))
    (blocked : ∀ stream < m.streamcount, Blocked stream) (offset : Nat) :
    ∃ final, overStreams attempt giveUp original m.streamcount m original offset =
        giveUp m final ∧
      ((∀ stream < m.streamcount, Empty stream) → final = offset) ∧
      ((∃ stream < m.streamcount, ¬Empty stream) → final = last) := by
  obtain ⟨left, whole⟩ : ∃ left, m.streamcount = left + 1 := ⟨m.streamcount - 1, by omega⟩
  have begin_ : (original + 0) % m.streamcount = original := Nat.mod_eq_of_lt below
  obtain ⟨final, given, alls, somes⟩ := @overStreams_fails m attempt giveUp Blocked Empty last
    original 0 left below fails (by omega) (fun k _ upper => blocked _ (Nat.mod_lt _ m.streams))
    offset
  rw [begin_, ← whole] at given
  refine ⟨final, given, fun all => alls fun k _ _ => all _ (Nat.mod_lt _ m.streams), ?_⟩
  intro occurs
  apply somes
  by_contra absent
  push Not at absent
  obtain ⟨stream, inside, nonempty⟩ := occurs
  exact nonempty ((all_streams below Empty).mp (fun k upper => absent k (Nat.zero_le k) upper) stream
    inside)

theorem loop_works (Blocked : Nat → Prop) {original : Nat} (below : original < m.streamcount)
    (fails : ∀ stream offset, Blocked stream → ∃ next, attempt m stream offset =
      some (.failed m next))
    (works : ∀ stream offset, ¬Blocked stream → ∃ ret after, attempt m stream offset =
      some (.done ret after) ∧ ret ≠ .null)
    (open_ : ¬∀ stream < m.streamcount, Blocked stream) (offset : Nat) :
    ∃ ret after, overStreams attempt giveUp original m.streamcount m original offset =
      some (ret, after) ∧ ret ≠ .null := by
  obtain ⟨left, whole⟩ : ∃ left, m.streamcount = left + 1 := ⟨m.streamcount - 1, by omega⟩
  have occurs : ∃ k, 0 ≤ k ∧ k < m.streamcount ∧ ¬Blocked ((original + k) % m.streamcount) := by
    by_contra absent
    push Not at absent
    exact open_ ((all_streams below Blocked).mp fun k upper => absent k (Nat.zero_le k) upper)
  have begin_ : (original + 0) % m.streamcount = original := Nat.mod_eq_of_lt below
  have done := @overStreams_works m attempt giveUp Blocked original 0 left below fails works
    (by omega) occurs offset
  rw [begin_, ← whole] at done
  exact done

end Streams

def needed (size : Nat) : Nat := (size + 2047) / 2048

def AllTaken (m : DynMap) : Prop :=
  ∀ stream < m.streamcount, ∀ bbh ∈ m.bigblocks stream, ∀ i < bigblockEntryCount,
    bit bbh.bitmap i = true

/-- The map has no room for the size: for a slice, no slice and no block; for blocks, no run of as
many, or no entry and no block for another header beside the run. -/
def Short (m : DynMap) (size : Nat) : Prop :=
  if size ≤ 64 then
    m.FullMap ∧ ∀ stream < m.streamcount, ∀ sb ∈ m.smallblocks stream,
      ∀ i < smallblockSliceCount, bit sb.bitmap i = true
  else
    (∀ start, ¬ZeroRun m.bitmap start (needed size)) ∨
      (m.AllTaken ∧ ∀ start, ZeroRun m.bitmap start (needed size) →
        ∀ i < 8 * m.bitmap.length, bit m.bitmap i = false → start ≤ i ∧ i < start + needed size)

/-- The call returns, and where it returns `NULL` the map is as it was, with no lock held, and has
no room. -/
def FailsCleanly (memory : Memory) (m : DynMap) (me size : Nat) : Prop :=
  ∃ ret after, m.dynmalloc memory me size = some (ret, after) ∧
    (ret = .null → after = m ∧ m.Short size)

def Tight (m : DynMap) (count start : Nat) : Prop :=
  start + count ≤ 8 * m.bitmap.length ∧
    ∀ i < 8 * m.bitmap.length, bit m.bitmap i = false ↔ start ≤ i ∧ i < start + count

/-- Where the run is all that is free and no entry is, it begins at block 168, or there is no
header at all. -/
def RollsBack (m : DynMap) (count : Nat) : Prop :=
  ∀ start, m.Tight count start → m.AllTaken →
    start = 168 ∨ ∀ stream < m.streamcount, m.bigblocks stream = []

/-- When a call fails cleanly: a slice is not one of the last six of a small block; of blocks there
are not two to seven, the search for eight or more stays in the bitmap, and the roll-back has the
offset of the run. -/
def Sound (m : DynMap) (size : Nat) : Prop :=
  if size ≤ 64 then
    m.FullMap → (∀ stream < m.streamcount, m.SmallFull stream) →
      ∀ stream < m.streamcount, ∀ sb ∈ m.smallblocks stream,
        ∀ i, 24 ≤ i → i < smallblockSliceCount → bit sb.bitmap i = true
  else if ceilBlocks size = 0 then ∀ start, ¬(m.Tight 1 start ∧ m.AllTaken)
  else if ceilBlocks size = 1 then m.RollsBack 1
  else if ceilBlocks size < 8 then m.Short size
  else Searchable m.bitmap (ceilBlocks size) ∧ m.RollsBack (ceilBlocks size)

theorem clean_null {me size : Nat} (returns : m.dynmalloc memory me size = some (.null, m)) :
    FailsCleanly memory m me size ↔ m.Short size := by
  rw [FailsCleanly, returns]
  constructor
  · rintro ⟨ret, after, same, short⟩
    cases same
    exact (short rfl).2
  · exact fun short => ⟨.null, m, rfl, fun _ => ⟨rfl, short⟩⟩

/-- A small allocation fails cleanly if and only if it does not leave one of the last six slices
of a small block. -/
theorem small_iff (free : m.held = []) {me size : Nat} (small : size ≤ 64) :
    FailsCleanly memory m me size ↔ m.Sound size := by
  have below : me % m.streamcount < m.streamcount := Nat.mod_lt _ m.streams
  have fails : ∀ stream offset, m.SmallFull stream ∧ m.FullMap →
      smallAttempt memory m stream offset = some (.failed m (m.bitmap.length * 8 + 8)) :=
    fun stream offset blocked => smallAttempt_fails free blocked.1 blocked.2
  rw [Sound, if_pos small]
  by_cases blocked : ∀ stream < m.streamcount, m.SmallFull stream ∧ m.FullMap
  · have full : m.FullMap := (blocked 0 m.streams).2
    obtain ⟨final, given, -⟩ := loop_fails (fun stream => m.SmallFull stream ∧ m.FullMap)
      (fun _ => False) (m.bitmap.length * 8 + 8) below
      (fun stream offset blocked => ⟨_, fails stream offset blocked, False.elim, fun _ => rfl⟩)
      blocked 0
    rw [clean_null (by rw [dynmalloc, if_pos small, given]), Short, if_pos small]
    constructor
    · rintro ⟨-, slices⟩ - - stream inside sb member i - upper
      exact slices stream inside sb member i upper
    · intro rest
      refine ⟨full, fun stream inside sb member i upper => ?_⟩
      by_cases low : i < 24
      · exact (blocked stream inside).1 sb member i low
      · exact rest full (fun stream inside => (blocked stream inside).1) stream inside sb member i
          (by omega) upper
  · refine iff_of_true ?_ ?_
    · obtain ⟨ret, after, done, differ⟩ := loop_works
        (fun stream => m.SmallFull stream ∧ m.FullMap) below
        (fun stream offset blocked => ⟨_, fails stream offset blocked⟩)
        (fun stream offset => smallAttempt_works free) blocked 0
      exact ⟨ret, after, by rw [dynmalloc, if_pos small]; exact done, fun null => absurd null differ⟩
    · intro full slices
      exact absurd (fun stream inside => ⟨slices stream inside, full⟩) blocked

section Blocks

variable {count start size me : Nat} {bitmap : List Byte}

theorem Tight.run (tight : m.Tight count start) : ZeroRun m.bitmap start count :=
  ⟨tight.1, fun i low high => (tight.2 i (by have := tight.1; omega)).mpr ⟨low, high⟩⟩

variable {other : Nat}

theorem Tight.unique (positive : 0 < count) (first : m.Tight count start)
    (second : m.Tight count other) : start = other := by
  obtain ⟨room, zeros⟩ := first
  obtain ⟨space, others⟩ := second
  have here := (others start (by omega)).mp ((zeros start (by omega)).mpr (by omega))
  have there := (zeros other (by omega)).mp ((others other (by omega)).mpr (by omega))
  omega

theorem tight_short (big : ¬size ≤ 64) (tight : m.Tight (needed size) start) (taken : m.AllTaken) :
    m.Short size := by
  rw [Short, if_neg big]
  refine .inr ⟨taken, fun other run i inside zero => ?_⟩
  have positive : 0 < needed size := by
    rw [needed]
    omega
  have room := run.inside
  have first := (tight.2 other (by omega)).mp (run.zero other (Nat.le_refl _) (by omega))
  have last := (tight.2 (other + needed size - 1) (by omega)).mp
    (run.zero (other + needed size - 1) (by omega) (by omega))
  have here := (tight.2 i inside).mp zero
  omega

theorem full_short (big : ¬size ≤ 64) (full : m.FullMap) : m.Short size := by
  rw [Short, if_neg big]
  refine .inl fun start run => ?_
  have positive : 0 < needed size := by
    rw [needed]
    omega
  have room := run.inside
  have zero := run.zero start (Nat.le_refl _) (by omega)
  rw [full start (by omega)] at zero
  cases zero

theorem marked_full (run : ZeroRun m.bitmap start count)
    (written : Written m.bitmap bitmap start count true) :
    { m with bitmap }.FullMap ↔ m.Tight count start := by
  constructor
  · intro full
    refine ⟨run.inside, fun i inside => ⟨fun zero => ?_, fun range => run.zero i range.1 range.2⟩⟩
    by_contra outside
    have set := full i (by rw [written.length]; exact inside)
    rw [written.bits, if_neg outside, zero] at set
    cases set
  · rintro ⟨-, zeros⟩ i inside
    change bit bitmap i = true
    change i < 8 * bitmap.length at inside
    rw [written.length] at inside
    rw [written.bits]
    split
    · rfl
    · rename_i outside
      by_contra zero
      exact outside ((zeros i inside).mp (Bool.eq_false_iff.mpr zero))

theorem unmark_run (positive : 0 < count) (run : ZeroRun m.bitmap start count)
    (written : Written m.bitmap bitmap start count true) :
    unmarkbits bitmap start count = m.bitmap := by
  have room : start + count ≤ 8 * bitmap.length := by
    rw [written.length]
    exact run.inside
  have unmarked := unmarkbits_written positive room
  refine ext_bit (by rw [unmarked.length, written.length]) fun i => ?_
  rw [unmarked.bits, written.bits]
  split
  · rename_i range
    exact (run.zero i range.1 range.2).symm
  · rfl

theorem unmark_elsewhere (positive : 0 < count) (run : ZeroRun m.bitmap start count)
    (written : Written m.bitmap bitmap start count true)
    (inside : other + count ≤ 8 * bitmap.length) (differ : other ≠ start) :
    unmarkbits bitmap other count ≠ m.bitmap := by
  intro same
  have unmarked := unmarkbits_written positive inside
  obtain ⟨i, low, high, outside⟩ : ∃ i, start ≤ i ∧ i < start + count ∧
      ¬(other ≤ i ∧ i < other + count) := by
    by_cases before : start < other
    · exact ⟨start, by omega, by omega, by omega⟩
    · exact ⟨start + count - 1, by omega, by omega, by omega⟩
  have kept := unmarked.bits i
  rw [same, if_neg outside, written.bits, if_pos ⟨low, high⟩, run.zero i low high] at kept
  cases kept

theorem unmark_none (run : ZeroRun m.bitmap start 1)
    (written : Written m.bitmap bitmap start 1 true) (full : m.Tight 1 start)
    (positive : 0 < other) (inside : other < 8 * bitmap.length) :
    unmarkbits bitmap other 0 ≠ m.bitmap := by
  intro same
  have zeros := full.2
  by_cases aligned : other % 8 = 0
  · have ends : (other + 0 - 1) / 8 = other / 8 - 1 := by omega
    have apart : other / 8 ≠ (other + 0 - 1) / 8 := by omega
    have cleared : ∀ i, i / 8 = other / 8 → bit (unmarkbits bitmap other 0) i = false := by
      intro i here
      rw [unmarkbits]
      simp only [if_neg apart]
      rw [bit_modify _ (by rw [fill_length, List.length_modify]; omega), if_neg (by omega),
        fill_bit _ _ (by rw [List.length_modify]; omega), if_neg (by omega),
        bit_modify _ (by omega), if_pos here]
      have first : other - other / 8 * 8 = 0 := by omega
      have ones : ∀ j < 8, (lastPart 0).getMsbD j = true := by decide
      rw [first, BitVec.getMsbD_and, BitVec.getMsbD_not, ones _ (mod_lt i)]
      simp
    rw [same] at cleared
    have here := (zeros other (by rw [← written.length]; exact inside)).mp (cleared other rfl)
    have next := (zeros (other + 1) (by rw [← written.length]; omega)).mp
      (cleared (other + 1) (by omega))
    omega
  · have one : other / 8 = (other + 0 - 1) / 8 := by omega
    have nothing : bit (unmarkbits bitmap other 0) start = true := by
      have set : bit bitmap start = true := by
        rw [written.bits, if_pos ⟨Nat.le_refl _, by omega⟩]
      have masks : ∀ k : Fin 8, k.val ≠ 0 → lastPart k &&& firstPart (k - 1) = 0 := by decide
      have mask : lastPart (other - other / 8 * 8) &&&
          firstPart (other + 0 - 1 - (other + 0 - 1) / 8 * 8) = 0 := by
        have small := masks ⟨other % 8, mod_lt other⟩ aligned
        rw [show other - other / 8 * 8 = other % 8 by omega,
          show other + 0 - 1 - (other + 0 - 1) / 8 * 8 = other % 8 - 1 by omega]
        exact small
      rw [unmarkbits]
      simp only [if_pos one, mask]
      rw [bit_modify _ (by omega)]
      split
      · rename_i here
        rw [bit_eq_getElem (by omega) here] at set
        have whole : ~~~(0 : Byte) = BitVec.allOnes 8 := by decide
        rw [whole, BitVec.and_allOnes]
        exact set
      · exact set
    rw [same, run.zero start (Nat.le_refl _) (by omega)] at nothing
    cases nothing

theorem entry_loop (memory : Memory) (free : m.held = []) (run : ZeroRun m.bitmap start count)
    (written : Written m.bitmap bitmap start count true) (me blocks : Nat) :
    (m.Tight count start ∧ m.AllTaken →
      ∃ final, overStreams (bigAttempt memory start blocks) (rollBack blocks)
          (me % m.streamcount) m.streamcount { m with bitmap } (me % m.streamcount) start =
            rollBack blocks { m with bitmap } final ∧
        ((∀ stream < m.streamcount, m.bigblocks stream = []) → final = start) ∧
        ((∃ stream < m.streamcount, m.bigblocks stream ≠ []) → final = 168)) ∧
    (¬(m.Tight count start ∧ m.AllTaken) →
      ∃ ret after, overStreams (bigAttempt memory start blocks) (rollBack blocks)
          (me % m.streamcount) m.streamcount { m with bitmap } (me % m.streamcount) start =
            some (ret, after) ∧ ret ≠ .null) := by
  have below : me % m.streamcount < m.streamcount := Nat.mod_lt _ m.streams
  have same := marked_full run written
  have fails : ∀ stream offset, m.BigFull stream ∧ { m with bitmap }.FullMap →
      ∃ next, bigAttempt memory start blocks { m with bitmap } stream offset =
        some (.failed { m with bitmap } next) ∧
        (m.bigblocks stream = [] → next = offset) ∧ (m.bigblocks stream ≠ [] → next = 168) :=
    fun stream offset blocked => bigAttempt_fails free blocked.1 blocked.2
  constructor
  · rintro ⟨tight, taken⟩
    exact @loop_fails { m with bitmap } _ _ (fun stream => m.BigFull stream ∧ { m with bitmap }.FullMap)
      (fun stream => m.bigblocks stream = []) 168 _ below fails
      (fun stream inside => ⟨taken stream inside, same.mpr tight⟩) start
  · intro open_
    refine @loop_works { m with bitmap } _ _
      (fun stream => m.BigFull stream ∧ { m with bitmap }.FullMap) _ below
      (fun stream offset blocked => ?_) (fun stream offset opens => ?_) ?_ start
    · obtain ⟨next, failed, -⟩ := fails stream offset blocked
      exact ⟨next, failed⟩
    · exact @bigAttempt_works { m with bitmap } _ _ _ _ _ free opens
    · intro blocked
      exact open_ ⟨same.mp (blocked 0 m.streams).2, fun stream inside => (blocked stream inside).1⟩

theorem found_iff (free : m.held = []) (run : ZeroRun m.bitmap start (needed size))
    (written : Written m.bitmap bitmap start (needed size) true) (big : ¬size ≤ 64)
    (goes : m.dynmalloc memory me size =
      overStreams (bigAttempt memory start (needed size)) (rollBack (needed size))
        (me % m.streamcount) m.streamcount { m with bitmap } (me % m.streamcount) start) :
    FailsCleanly memory m me size ↔ m.RollsBack (needed size) := by
  have positive : 0 < needed size := by
    rw [needed]
    omega
  have room := run.inside
  obtain ⟨fails, works⟩ := entry_loop memory free run written me (needed size)
  by_cases past : m.Tight (needed size) start ∧ m.AllTaken
  · obtain ⟨final, given, empty, nonempty⟩ := fails past
    rw [given] at goes
    constructor
    · rintro ⟨ret, after, returns, short⟩ other tight -
      cases tight.unique positive past.1
      by_cases headers : ∃ stream < m.streamcount, m.bigblocks stream ≠ []
      · refine .inl ?_
        have last := nonempty headers
        subst last
        rw [goes, rollBack] at returns
        split at returns
        · rename_i inside
          cases returns
          by_contra differ
          exact unmark_elsewhere positive run written inside.2.2 (Ne.symm differ)
            (congrArg DynMap.bitmap (short rfl).1)
        · cases returns
      · push Not at headers
        exact .inr headers
    · intro rolls
      have last : final = start := by
        rcases rolls start past.1 past.2 with at_ | behind
        · by_cases headers : ∃ stream < m.streamcount, m.bigblocks stream ≠ []
          · rw [nonempty headers, at_]
          · push Not at headers
            exact empty headers
        · exact empty behind
      subst last
      have inside : final + needed size ≠ 0 ∧ final < 8 * bitmap.length ∧
          final + needed size ≤ 8 * bitmap.length := by
        rw [written.length]
        omega
      rw [rollBack, if_pos inside] at goes
      refine ⟨_, _, goes, fun _ => ⟨?_, tight_short big past.1 past.2⟩⟩
      dsimp only
      rw [unmark_run positive run written]
  · obtain ⟨ret, after, done, some_ret⟩ := works past
    refine iff_of_true ⟨ret, after, by rw [goes]; exact done, fun null => absurd null some_ret⟩ ?_
    intro other tight taken
    have zero := (tight.2 start (by omega)).mp (run.zero start (Nat.le_refl _) (by omega))
    have last := (tight.2 (start + needed size - 1) (by omega)).mp
      (run.zero (start + needed size - 1) (by omega) (by omega))
    cases show other = start by omega
    exact absurd ⟨tight, taken⟩ past

theorem wrapped_iff (free : m.held = []) (run : ZeroRun m.bitmap start 1)
    (written : Written m.bitmap bitmap start 1 true)
    (goes : m.dynmalloc memory me size =
      overStreams (bigAttempt memory start 0) (rollBack 0)
        (me % m.streamcount) m.streamcount { m with bitmap } (me % m.streamcount) start) :
    FailsCleanly memory m me size ↔ ∀ start, ¬(m.Tight 1 start ∧ m.AllTaken) := by
  have room := run.inside
  obtain ⟨fails, works⟩ := entry_loop memory free run written me 0
  by_cases past : m.Tight 1 start ∧ m.AllTaken
  · refine iff_of_false ?_ fun never => never start past
    obtain ⟨final, given, -⟩ := fails past
    rw [given, rollBack] at goes
    rintro ⟨ret, after, returns, short⟩
    rw [goes] at returns
    split at returns
    · rename_i inside
      cases returns
      exact unmark_none run written past.1 (by omega) inside.2.1
        (congrArg DynMap.bitmap (short rfl).1)
    · cases returns
  · obtain ⟨ret, after, done, some_ret⟩ := works past
    refine iff_of_true ⟨ret, after, by rw [goes]; exact done, fun null => absurd null some_ret⟩ ?_
    rintro other ⟨tight, taken⟩
    have zero := (tight.2 start (by omega)).mp (run.zero start (Nat.le_refl _) (by omega))
    cases show other = start by omega
    exact past ⟨tight, taken⟩

theorem ceilBlocks_needed (fits : size < 2 ^ 64) (nonzero : ceilBlocks size ≠ 0) :
    ceilBlocks size = needed size := by
  simp only [ceilBlocks, needed] at nonzero ⊢
  omega

theorem markBlocks_free (free : m.held = []) (search : List Byte → Option (List Byte × Nat)) :
    m.markBlocks search =
      (search m.bitmap).map fun found => ({ m with bitmap := found.1 }, found.2) := by
  obtain ⟨_, _, _, _, _, held⟩ := m
  cases free
  simp only [markBlocks, acquire_free, release_only]

def firstMark (m : DynMap) (size : Nat) : Option (DynMap × Nat) :=
  if ceilBlocks size > 1 then m.markBlocks fun bitmap => findmarkBits bitmap (ceilBlocks size)
  else m.markBlock

theorem dynmalloc_null (memory : Memory) (me : Nat) {offset : Nat} (big : ¬size ≤ 64)
    (marks : m.firstMark size = some (m, offset)) (beyond : offset > m.bitmap.length * 8) :
    m.dynmalloc memory me size = some (.null, m) := by
  rw [firstMark] at marks
  rw [dynmalloc, if_neg big]
  dsimp only
  rw [marks]
  exact if_pos beyond

theorem dynmalloc_goes (memory : Memory) (me : Nat) (big : ¬size ≤ 64)
    (marks : m.firstMark size = some ({ m with bitmap }, start))
    (inside : start < 8 * bitmap.length) :
    m.dynmalloc memory me size =
      overStreams (bigAttempt memory start (ceilBlocks size)) (rollBack (ceilBlocks size))
        (me % m.streamcount) m.streamcount { m with bitmap } (me % m.streamcount) start := by
  have low : ¬start > bitmap.length * 8 := by omega
  rw [firstMark] at marks
  rw [dynmalloc, if_neg big]
  dsimp only
  rw [marks]
  exact if_neg low

theorem dynmalloc_stuck (big : ¬size ≤ 64) (marks : m.firstMark size = none) :
    m.dynmalloc memory me size = none := by
  rw [firstMark] at marks
  rw [dynmalloc, if_neg big]
  dsimp only
  rw [marks]

theorem full_clean (free : m.held = []) (big : ¬size ≤ 64) (one : ¬ceilBlocks size > 1)
    (full : m.FullMap) : FailsCleanly memory m me size := by
  have marks : m.firstMark size = some (m, m.bitmap.length * 8 + 8) := by
    rw [firstMark, if_neg one]
    exact markBlock_full free full
  have null := dynmalloc_null memory me big marks (Nat.lt_add_of_pos_right (by decide))
  exact (clean_null null).mpr (full_short big full)

theorem full_not_tight (positive : 0 < count) (full : m.FullMap) : ¬m.Tight count start := by
  intro tight
  have room := tight.1
  have zero := tight.run.zero start (Nat.le_refl _) (by omega)
  rw [full start (by omega)] at zero
  cases zero

section

variable (free : m.held = []) (big : ¬size ≤ 64)
include free big

theorem one_iff (one : ceilBlocks size = 1) (same : ceilBlocks size = needed size) :
    FailsCleanly memory m me size ↔ m.RollsBack 1 := by
  have few : ¬ceilBlocks size > 1 := by omega
  by_cases full : m.FullMap
  · refine iff_of_true (full_clean free big few full) ?_
    intro start tight
    exact absurd tight (full_not_tight (by decide) full)
  · obtain ⟨bitmap, first, marks, inside, zero, -, written⟩ := markBlock_open free full
    have run : ZeroRun m.bitmap first 1 := by
      refine ⟨by omega, fun i low high => ?_⟩
      cases show i = first by omega
      exact zero
    have goes := dynmalloc_goes memory me big
      (by rw [firstMark, if_neg few]; exact marks) (by rw [written.length]; exact inside)
    rw [one.symm.trans same] at run written ⊢
    rw [same] at goes
    exact found_iff free run written big goes

theorem none_iff (isZero : ceilBlocks size = 0) :
    FailsCleanly memory m me size ↔ ∀ start, ¬(m.Tight 1 start ∧ m.AllTaken) := by
  have few : ¬ceilBlocks size > 1 := by omega
  by_cases full : m.FullMap
  · refine iff_of_true (full_clean free big few full) ?_
    rintro start ⟨tight, -⟩
    exact full_not_tight (by decide) full tight
  · obtain ⟨bitmap, first, marks, inside, zero, -, written⟩ := markBlock_open free full
    have run : ZeroRun m.bitmap first 1 := by
      refine ⟨by omega, fun i low high => ?_⟩
      cases show i = first by omega
      exact zero
    have goes := dynmalloc_goes memory me big
      (by rw [firstMark, if_neg few]; exact marks) (by rw [written.length]; exact inside)
    rw [isZero] at goes
    exact wrapped_iff free run written goes

theorem few_iff (several : 1 < ceilBlocks size)
    (few : ceilBlocks size < 8) (small : m.bitmap.length ≤ 2 ^ 49) :
    FailsCleanly memory m me size ↔ m.Short size := by
  have marks : m.firstMark size = some (m, sizeMax) := by
    rw [firstMark, if_pos several, markBlocks_free free, findmarkBits, if_pos few,
      findmarkFew_eq ⟨by omega, few⟩]
    rfl
  exact clean_null (dynmalloc_null memory me big marks (by rw [sizeMax]; omega))

theorem many_iff (many : ¬ceilBlocks size < 8)
    (same : ceilBlocks size = needed size) (small : m.bitmap.length ≤ 2 ^ 49) :
    FailsCleanly memory m me size ↔
      Searchable m.bitmap (ceilBlocks size) ∧ m.RollsBack (ceilBlocks size) := by
  have low : ceilBlocks size < 2 ^ 63 := by
    rw [ceilBlocks]
    omega
  have several : ceilBlocks size > 1 := by omega
  have searched := findmarkMany_searched .one 0 (by omega) low
    (show Ready m.bitmap (ceilBlocks size) .one 0 from fun s less => by omega)
  have searchable : Searchable m.bitmap (ceilBlocks size) ↔ ¬RunsOff m.bitmap (ceilBlocks size) := by
    rw [Searchable, if_neg many, if_pos low]
  rw [searchable]
  have marks : m.firstMark size = (findmarkMany m.bitmap (ceilBlocks size) .one 0).map
      fun found => ({ m with bitmap := found.1 }, found.2) := by
    rw [firstMark, if_pos several, markBlocks_free free, findmarkBits, if_neg many]
  cases ended : findmarkMany m.bitmap (ceilBlocks size) .one 0 with
  | none =>
    rw [ended] at searched marks
    refine iff_of_false ?_ fun sound => sound.1 searched
    rintro ⟨ret, after, returns, -⟩
    rw [dynmalloc_stuck big marks] at returns
    cases returns
  | some result =>
    rw [ended] at searched marks
    obtain ⟨stays, found, nothing⟩ := searched
    rw [and_iff_right stays]
    by_cases occurs : ∃ start, ZeroRun m.bitmap start (ceilBlocks size)
    · obtain ⟨run, written⟩ := found occurs
      have room := run.inside
      have goes := dynmalloc_goes memory me big marks
        (by rw [written.length]; omega)
      rw [same] at run written goes ⊢
      exact found_iff free run written big goes
    · cases nothing occurs
      have null := dynmalloc_null memory me big marks
        (by rw [sizeMax]; omega)
      refine iff_of_true ((clean_null null).mpr ?_) ?_
      · rw [Short, if_neg big, ← same]
        exact .inl fun start run => occurs ⟨start, run⟩
      · intro start tight
        exact absurd ⟨start, tight.run⟩ occurs

end

end Blocks

/-- A call fails cleanly if and only if it is `Sound`. -/
theorem dynmalloc_iff (memory : Memory) (m : DynMap) (me size : Nat) (free : m.held = [])
    (fits : size < 2 ^ 64) (small : m.bitmap.length ≤ 2 ^ 49) :
    FailsCleanly memory m me size ↔ m.Sound size := by
  by_cases slice : size ≤ 64
  · exact small_iff free slice
  · rw [Sound, if_neg slice]
    split_ifs with zero one few
    · exact none_iff free slice zero
    · exact one_iff free slice one (ceilBlocks_needed fits zero)
    · exact few_iff free slice (by omega) few small
    · exact many_iff free slice few (ceilBlocks_needed fits zero) small

def fresh : DynMap :=
  { streamcount := 2, streams := by decide, bitmap := [0, 0], smallblocks := fun _ => [],
    bigblocks := fun _ => [], held := [] }

def blank : Memory := ⟨fun _ => (0, 0), fun _ _ => (0, 0)⟩

/-- Block 168 is the only free one, and every entry of the only header is taken. -/
def crowded : DynMap :=
  { streamcount := 1, streams := by decide, bitmap := List.replicate 21 0xff ++ [0x7f]
    smallblocks := fun _ => []
    bigblocks := fun _ => [⟨0, List.replicate 20 0xff, rfl, fun _ => (0, 0)⟩], held := [] }

/-- The block is taken, and given back since there is no block for another header. -/
theorem dynmalloc_rolls_back : FailsCleanly blank crowded 0 2048 ∧
    (crowded.dynmalloc blank 0 2048).map Prod.fst = some .null := by
  refine ⟨(dynmalloc_iff blank crowded 0 2048 rfl (by decide) (by decide)).mpr ?_,
    by decide +kernel⟩
  rw [Sound, if_neg (by decide), if_neg (by decide), if_pos (by decide)]
  intro start tight _
  have only := (tight.2 168 (by decide)).mp (by decide)
  exact .inl (by omega)

/-- Two blocks of the sixteen are not found. -/
theorem dynmalloc_two : ¬FailsCleanly blank fresh 1 4096 := by
  have run : ZeroRun fresh.bitmap 0 (needed 4096) := by
    refine ⟨by decide, fun i _ upTo => ?_⟩
    have first : i = 0 ∨ i = 1 := by
      have : i < 2 := upTo
      omega
    rcases first with rfl | rfl <;> decide
  rw [few_iff rfl (by decide) (by decide) (by decide) (by decide), Short, if_neg (by decide)]
  rintro (never | ⟨-, rest⟩)
  · exact never 0 run
  · have here := rest 0 run 2 (by decide) (by decide)
    exact absurd here.2 (by decide)

end DynMap

end Qthreads.Qalloc
