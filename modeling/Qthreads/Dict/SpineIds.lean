import Qthreads.Dict.Spines
import Qthreads.Dict.TrieMap

namespace Qthreads.Dict

open Function (update update_of_ne update_self update_apply)

def Cell.ids : Cell → Multiset Nat
  | empty => 0
  | chain _ _ => 0
  | spine _ id elements => {id} + ∑ i, (elements i).ids

structure Spines.Tracks (s : Spines) (ids : Multiset Nat) : Prop where
  nodup : ids.Nodup
  taken : ∀ id, s.taken id = true ↔ id ∈ ids
  below : ∀ id ∈ ids, id < s.maxspines

variable {keys : KeyOps} {s left : Spines} {frame : Multiset Nat} {id depth low : Nat}
  {elements : Fin 32 → Cell} {cell : Cell}

theorem Spines.Tracks.allocate (tracks : s.Tracks frame)
    (allocated : s.allocate = some (id, left)) : left.Tracks ({id} + frame) := by
  obtain ⟨found, free, both⟩ := Option.map_eq_some_iff.mp allocated
  cases both
  have room := List.mem_range.mp (List.mem_of_find?_eq_some free)
  have unused : id ∉ frame := by
    intro member
    have used := (tracks.taken id).mpr member
    simp [used] at free
  refine ⟨?_, fun other => ?_, fun other member => ?_⟩
  · rw [Multiset.singleton_add]
    exact Multiset.nodup_cons.mpr ⟨unused, tracks.nodup⟩
  · rw [Multiset.singleton_add, Multiset.mem_cons, ← tracks.taken other]
    simp only [update_apply]
    by_cases same : other = id <;> simp [same]
  · rw [Multiset.singleton_add] at member
    rcases Multiset.mem_cons.mp member with rfl | older
    · exact room
    · have bound := tracks.below other older
      dsimp only
      split
      · omega
      · exact bound

theorem Spines.Tracks.deallocate (tracks : s.Tracks ({id} + frame)) :
    (s.deallocate id).Tracks frame := by
  have nodup := tracks.nodup
  rw [Multiset.singleton_add] at nodup
  obtain ⟨gone, nodup⟩ := Multiset.nodup_cons.mp nodup
  refine ⟨nodup, fun other => ?_, fun other member => ?_⟩
  · simp only [Spines.deallocate, update_apply]
    split
    · rename_i same
      rw [same]
      exact ⟨nofun, fun member => absurd member gone⟩
    · rename_i differ
      rw [tracks.taken other, Multiset.singleton_add, Multiset.mem_cons, or_iff_right differ]
  · exact tracks.below other (Multiset.mem_add.mpr (.inr member))

theorem ids_split (elements : Fin 32 → Cell) (bucket : Fin 32) :
    ∑ i, (elements i).ids =
      (elements bucket).ids + ∑ i ∈ Finset.univ.erase bucket, (elements i).ids :=
  (Finset.add_sum_erase Finset.univ _ (Finset.mem_univ bucket)).symm

theorem ids_update (elements : Fin 32 → Cell) (bucket : Fin 32) (cell : Cell) :
    ∑ i, (update elements bucket cell i).ids =
      cell.ids + ∑ i ∈ Finset.univ.erase bucket, (elements i).ids := by
  rw [ids_split _ bucket, update_self]
  congr 1
  apply Finset.sum_congr rfl
  intro i member
  rw [update_of_ne (Finset.ne_of_mem_erase member)]

theorem ids_ofChain (list : List Entry) : (Cell.ofChain list).ids = 0 := by
  cases list <;> rfl

theorem ids_lone {bucket : Fin 32} :
    ∑ i, (update (fun _ => Cell.empty) bucket cell i).ids = cell.ids := by
  rw [ids_update, Finset.sum_eq_zero, add_zero]
  exact fun _ _ => rfl

theorem upgradeCell_tracks {e head : Entry} {next : List Entry} {room : Nat}
    (made : upgradeCell e head next room depth s = some (cell, left)) (tracks : s.Tracks frame) :
    left.Tracks (cell.ids + frame) := by
  induction room generalizing depth s cell frame with
  | zero =>
    obtain ⟨id, first, taken, ⟨-, rfl, rfl⟩ | ⟨-, _, _, _, _, -, short, -⟩⟩ :=
      upgradeCell_cases made
    · have numbered := tracks.allocate taken
      rw [Cell.ids, ids_update, Finset.sum_eq_zero, Cell.ids, add_zero, add_zero]
      · exact numbered
      · intro i _
        rw [update_apply]
        split <;> rfl
    · cases short
  | succ room ih =>
    obtain ⟨id, first, taken, ⟨-, rfl, rfl⟩ | ⟨-, spare, second, _, inner, again, fits, pushed,
      rfl⟩⟩ := upgradeCell_cases made
    · have numbered := tracks.allocate taken
      rw [Cell.ids, ids_update, Finset.sum_eq_zero, Cell.ids, add_zero, add_zero]
      · exact numbered
      · intro i _
        rw [update_apply]
        split <;> rfl
    · cases fits
      have inside := ih pushed ((tracks.allocate taken).allocate again).deallocate
      rw [Cell.ids, ids_lone, add_assoc, add_left_comm]
      exact inside

theorem put_tracks {ifAbsent : Bool} {e : Entry} {placed : PlacedCell}
    (wf : cell.erase.WellFormed keys depth low)
    (put : cell.put keys ifAbsent e depth s = some placed) (tracks : s.Tracks (cell.ids + frame)) :
    placed.spines.Tracks (placed.cell.ids + frame) := by
  induction cell generalizing depth low s placed frame with
  | empty =>
    cases put
    exact tracks
  | chain head next =>
    rw [Cell.put] at put
    rw [Cell.ids, zero_add] at tracks
    split at put
    · obtain ⟨made, pushed, both⟩ := Option.map_eq_some_iff.mp put
      cases both
      exact upgradeCell_tracks pushed tracks
    · split at put
      · cases put
        rw [ids_ofChain, zero_add]
        exact tracks
      · cases put
        rw [Cell.ids, zero_add]
        exact tracks
  | spine count id elements ih =>
    obtain ⟨-, -, positive, -, below⟩ := wf
    rw [Cell.put] at put
    dsimp only at put
    split at put
    · obtain ⟨inner, deeper, both⟩ := Option.map_eq_some_iff.mp put
      cases both
      rw [Cell.ids, ids_split _ (spineBucket e.hashedKey (depth + 1)), add_assoc, add_assoc,
        add_left_comm] at tracks
      have inside := ih _ (below _) deeper tracks
      have kept : (if inner.added then count + 1 else count) ≠ 0 := by
        split <;> omega
      rw [Cell.countedAs, if_neg kept, Cell.ids, ids_update, add_assoc, add_assoc, add_left_comm]
      exact inside
    · cases put

theorem ids_none (zero : ∑ i, (elements i).erase.weight = 0) : ∑ i, (elements i).ids = 0 := by
  apply Finset.sum_eq_zero
  intro i inside
  have light := Finset.sum_eq_zero_iff.mp zero i inside
  cases cell : elements i with
  | empty => rfl
  | chain head next => rfl
  | spine count id inner =>
    rw [cell] at light
    cases light

theorem remove_tracks {key : UInt64} {removed : RemovedCell}
    (wf : cell.erase.WellFormed keys depth low) (bound : depth ≤ 6)
    (clear : cell.erase.RemoveClear keys (keys.hash key) key depth)
    (remove : cell.remove keys (keys.hash key) key depth s = some removed)
    (tracks : s.Tracks (cell.ids + frame)) :
    removed.spines.Tracks (removed.cell.ids + frame) := by
  induction cell generalizing depth low s removed frame with
  | empty =>
    cases remove
    exact tracks
  | chain head next =>
    rw [Cell.remove] at remove
    split at remove
    · split at remove
      · cases remove
        rw [ids_ofChain]
        exact tracks
      · cases remove
        exact tracks
    · cases remove
      exact tracks
  | spine count id elements ih =>
    obtain ⟨five, -, positive, total, below⟩ := wf
    rw [Cell.remove] at remove
    dsimp only at remove
    split at remove
    · obtain ⟨inner, deeper, both⟩ := Option.map_eq_some_iff.mp remove
      rw [Cell.ids, ids_split _ (spineBucket (keys.hash key) (depth + 1)), add_assoc, add_assoc,
        add_left_comm] at tracks
      have inside : inner.spines.Tracks ({id} + ((∑ i, (update elements
          (spineBucket (keys.hash key) (depth + 1)) inner.cell i).ids) + frame)) := by
        rw [ids_update, add_assoc, add_left_comm]
        exact ih _ (below _) (by omega) clear deeper tracks
      cases up : inner.up with
      | false =>
        rw [up, if_neg Bool.false_ne_true] at both
        cases both
        rw [Cell.ids, add_assoc]
        exact inside
      | true =>
        rw [up, if_pos rfl] at both
        cases both
        rw [Cell.countedAs]
        split
        · rename_i last
          obtain ⟨erased, gone, done⟩ := remove_done (below _) (by omega) clear
          have same := Cell.erase_remove deeper
          rw [gone] at same
          cases same
          have moved := weight_update (fun i => (elements i).erase)
            (spineBucket (keys.hash key) (depth + 1)) inner.cell.erase
          have lighter : inner.cell.erase.weight + inner.up.toNat =
              (elements (spineBucket (keys.hash key) (depth + 1))).erase.weight := done.weight
          rw [up, Bool.toNat_true] at lighter
          rw [← Cell.erase_update] at moved
          beta_reduce at moved total
          have nothing : ∑ i, (update elements
              (spineBucket (keys.hash key) (depth + 1)) inner.cell i).ids = 0 :=
            ids_none (by omega)
          rw [nothing, zero_add] at inside
          rw [Cell.ids, zero_add]
          exact inside.deallocate
        · rw [Cell.ids, add_assoc]
          exact inside
    · cases remove

namespace SpineTrie

variable {h after : SpineTrie} {map : FiniteMap}

def ids (h : SpineTrie) : Multiset Nat := ∑ i, (h.base i).ids

theorem base_split (base : Fin 64 → Cell) (bucket : Fin 64) :
    ∑ i, (base i).ids = (base bucket).ids + ∑ i ∈ Finset.univ.erase bucket, (base i).ids :=
  (Finset.add_sum_erase Finset.univ _ (Finset.mem_univ bucket)).symm

theorem base_update (base : Fin 64 → Cell) (bucket : Fin 64) (cell : Cell) :
    ∑ i, (update base bucket cell i).ids =
      cell.ids + ∑ i ∈ Finset.univ.erase bucket, (base i).ids := by
  rw [base_split _ bucket, update_self]
  congr 1
  apply Finset.sum_congr rfl
  intro i member
  rw [update_of_ne (Finset.ne_of_mem_erase member)]

section

variable (wf : h.erase.WellFormed keys)
include wf

theorem putHelper_tracks {key value answer : UInt64} {ifAbsent : Bool} (tracks : h.spines.Tracks h.ids)
    (put : h.putHelper keys key value ifAbsent = some (answer, after)) :
    after.spines.Tracks after.ids := by
  obtain ⟨placed, stored, both⟩ := Option.map_eq_some_iff.mp put
  cases both
  rw [ids, base_split _ (baseSpineBucket (keys.hash key))] at tracks
  rw [ids, base_update]
  exact put_tracks (wf.slots _) stored tracks

theorem remove_tracks {key : UInt64} {ret : Bool}
    (clear : (h.base (baseSpineBucket (keys.hash key))).erase.RemoveClear keys (keys.hash key) key 0)
    (tracks : h.spines.Tracks h.ids) (remove : h.remove keys key = some (ret, after)) :
    after.spines.Tracks after.ids := by
  obtain ⟨removed, unlinked, both⟩ := Option.map_eq_some_iff.mp remove
  cases freed : removed.freed with
  | none =>
    rw [freed] at both
    cases both
    exact tracks
  | some e =>
    rw [freed] at both
    cases both
    rw [ids, base_split _ (baseSpineBucket (keys.hash key))] at tracks
    rw [ids, base_update]
    exact Dict.remove_tracks (wf.slots _) (Nat.zero_le 6) clear unlinked tracks

theorem call_tracks {call : Call} {answer : UInt64}
    (clear : h.erase.Clear keys call) (tracks : h.spines.Tracks h.ids)
    (called : h.call keys call = some (answer, after)) : after.spines.Tracks after.ids := by
  cases call with
  | put key value => exact putHelper_tracks wf tracks called
  | putIfAbsent key value => exact putHelper_tracks wf tracks called
  | get key =>
    obtain ⟨value, -, both⟩ := Option.map_eq_some_iff.mp called
    cases both
    exact tracks
  | delete key =>
    simp only [SpineTrie.call, delete] at called
    split at called
    · rename_i removed
      cases called
      exact remove_tracks wf clear tracks removed
    · cases called

theorem calls_tracks {calls : List Call} {answers : List UInt64}
    (represents : ∀ key, h.erase.binding keys key = map key) (tracks : h.spines.Tracks h.ids)
    (clear : h.erase.ClearAll keys calls) (ran : h.calls keys calls = some (answers, after)) :
    after.erase.WellFormed keys ∧ after.spines.Tracks after.ids ∧
      ∀ key, after.erase.binding keys key = (map.calls keys calls).2 key := by
  induction calls generalizing h map answers with
  | nil =>
    cases ran
    exact ⟨wf, tracks, represents⟩
  | cons call rest ih =>
    simp only [calls] at ran
    obtain ⟨first, later⟩ := clear
    split at ran
    · cases ran
    · rename_i answer next called
      split at ran
      · cases ran
      · rename_i others last others_ran
        cases ran
        have erased := erase_call called
        obtain ⟨step, done, nextWf, nextMap⟩ := Trie.call_exact call wf represents first
        rw [erased] at done later
        cases done
        exact ih nextWf nextMap (call_tracks wf first tracks called) later others_ran

end

end SpineTrie

end Qthreads.Dict
