import Qthreads.Dict.BucketsMap
import Qthreads.Dict.ShavitIterator
import Qthreads.Dict.TrieIteration

namespace Qthreads.Dict

theorem SpineTrie.create_tracks (pageWords : Nat) (count numspines : UInt64) :
    (create pageWords (fun _ => .empty) count numspines).spines.Tracks
      (create pageWords (fun _ => .empty) count numspines).ids := by
  have zero : (create pageWords (fun _ => .empty) count numspines).ids = 0 :=
    Finset.sum_eq_zero fun _ _ => rfl
  rw [zero]
  exact ⟨Multiset.nodup_zero, fun id => ⟨nofun, fun member => absurd member (Multiset.notMem_zero id)⟩,
    fun id member => absurd member (Multiset.notMem_zero id)⟩

instance (h : SpineTrie) : Decidable h.FitsInt := inferInstanceAs (Decidable (_ ∧ _))

/-- After any calls the iterator of the buckets is exact if and only if a key is bound, that of the
split-ordered list if and only if its count is not 0 by wrapping round, and that of the trie
wherever the trie is a finite map and the counters of the iterator fit. -/
theorem iterators_exact (keys : KeyOps) (made : List Call) :
    ((Buckets.create.calls keys made).2.iteration.Exact keys
        (FiniteMap.calls keys (fun _ => none) made).2 ↔
      ∃ key, (FiniteMap.calls keys (fun _ => none) made).2 key ≠ none) ∧
    ((∀ call ∈ made, call.NonNull) →
      ∃ answers last, Dictionary.create.calls keys made = some (answers, last) ∧
        (last.iteration.Exact keys (FiniteMap.calls keys (fun _ => none) made).2 ↔
          (last.count = 0 → ∀ key, (FiniteMap.calls keys (fun _ => none) made).2 key = none))) ∧
    ∀ pageWords count numspines answers last,
      (SpineTrie.create pageWords (fun _ => .empty) count numspines).calls keys made =
        some (answers, last) →
      (Trie.create (fun _ => .empty) count).ClearAll keys made → last.FitsInt →
      last.iteration.Exact keys (FiniteMap.calls keys (fun _ => none) made).2 := by
  refine ⟨?_, fun nonNull => ?_, fun pageWords count numspines answers last ran clear fits => ?_⟩
  · have empty : ∀ key, Buckets.create.binding keys key = (fun _ => none : FiniteMap) key :=
      fun _ => rfl
    obtain ⟨-, wf, represents⟩ := Buckets.calls_exact made (Buckets.create_wf keys) empty
    exact Buckets.iteration_iff wf represents
  · have empty : Dictionary.create.Represents keys fun _ => none := fun _ => rfl
    obtain ⟨last, ran, wf, represents⟩ :=
      Dictionary.calls_exact made (Dictionary.create_wf keys) empty nonNull
    exact ⟨_, last, ran, Dictionary.iteration_iff wf represents⟩
  · have empty : ∀ key, (Trie.create (fun _ => .empty) count).binding keys key =
        (fun _ => none : FiniteMap) key := fun _ => rfl
    obtain ⟨wf, tracks, represents⟩ := SpineTrie.calls_tracks (Trie.create_wf keys count) empty
      (SpineTrie.create_tracks pageWords count numspines) clear ran
    exact SpineTrie.iteration_exact wf tracks represents fits

theorem iterators_exact_spines :
    let made : List Call := [.put 1 10, .put 65 11, .put 1065 12, .put 2049 13, .put 2 14,
      .delete 1065, .put 129 15, .putIfAbsent 2002 16]
    (Buckets.create.calls Trie.thousands made).2.iteration.Exact Trie.thousands
        (FiniteMap.calls Trie.thousands (fun _ => none) made).2 ∧
      (∃ answers last, Dictionary.create.calls Trie.thousands made = some (answers, last) ∧
        last.iteration.Exact Trie.thousands
          (FiniteMap.calls Trie.thousands (fun _ => none) made).2) ∧
      ∃ answers last, (SpineTrie.create 4 (fun _ => .empty) 0 0).calls Trie.thousands made =
          some (answers, last) ∧
        last.iteration.Exact Trie.thousands
          (FiniteMap.calls Trie.thousands (fun _ => none) made).2 := by
  intro made
  have nonNull : ∀ call ∈ made, call.NonNull := by decide +kernel
  have clear : (Trie.create (fun _ => .empty) 0).ClearAll Trie.thousands made := by decide +kernel
  have bound : (FiniteMap.calls Trie.thousands (fun _ => none) made).2 1 ≠ none := by
    decide +kernel
  have fits : ((SpineTrie.create 4 (fun _ => .empty) 0 0).calls Trie.thousands made).isSome = true ∧
      ∀ ran ∈ (SpineTrie.create 4 (fun _ => .empty) 0 0).calls Trie.thousands made,
        ran.2.FitsInt := by decide +kernel
  have counted : ∀ ran ∈ Dictionary.create.calls Trie.thousands made, ran.2.count ≠ 0 := by
    decide +kernel
  obtain ⟨buckets, split, spines⟩ := iterators_exact Trie.thousands made
  obtain ⟨answers, last, ran, exact⟩ := split nonNull
  obtain ⟨⟨results, trie⟩, run⟩ := Option.isSome_iff_exists.mp fits.1
  refine ⟨buckets.mpr ⟨1, bound⟩, ⟨answers, last, ran, exact.mpr fun zero => ?_⟩, results, trie, run,
    spines 4 0 0 results trie run clear (fits.2 _ run)⟩
  exact absurd zero (counted _ ran)

/-- The three dictionaries give the same answers to every sequence of calls that the trie is fit for. -/
theorem dictionaries_agree (keys : KeyOps) (made : List Call) (count : UInt64)
    (nonNull : ∀ call ∈ made, call.NonNull)
    (clear : (Trie.create (fun _ => .empty) count).ClearAll keys made) :
    (Dictionary.create.calls keys made).map Prod.fst = some (Buckets.create.calls keys made).1 ∧
      ((Trie.create (fun _ => .empty) count).calls keys made).map Prod.fst =
        some (Buckets.create.calls keys made).1 := by
  have empty : ∀ key, Buckets.create.binding keys key = (fun _ => none : FiniteMap) key :=
    fun _ => rfl
  obtain ⟨same, -⟩ := Buckets.calls_exact made (Buckets.create_wf keys) empty
  obtain ⟨list, ran, -⟩ :=
    @Dictionary.calls_exact keys _ (fun _ => none) made (Dictionary.create_wf keys) (fun _ => rfl)
      nonNull
  obtain ⟨trie, run, -⟩ := @Trie.calls_exact keys _ made (fun _ => none)
    (Trie.create_wf keys count) (fun _ => rfl) clear
  rw [ran, run, same]
  exact ⟨rfl, rfl⟩

theorem dictionaries_agree_collision :
    ((Trie.create (fun _ => .empty) 0).calls Trie.thousands [.put 1 10, .put 1001 11, .get 1]).map
      Prod.fst = some (Buckets.create.calls Trie.thousands [.put 1 10, .put 1001 11, .get 1]).1 :=
  (dictionaries_agree Trie.thousands _ 0 (by decide) (by decide +kernel)).2

/-- The first call on an empty dictionary runs into `assert(0)`. -/
theorem empty_asserts :
    Buckets.create.iteratorNext ⟨[], -1⟩ = none ∧
      ¬ (Buckets.create.calls Trie.thousands []).2.iteration.Exact Trie.thousands
        (FiniteMap.calls Trie.thousands (fun _ => none) []).2 := by
  have empty : Buckets.create.entriesFrom 0 = [] := by
    rw [List.eq_nil_iff_forall_not_mem]
    intro e member
    obtain ⟨j, -, -, inside⟩ := Lib.mem_fullCells.mp member
    cases inside
  refine ⟨Buckets.next_empty empty, fun exact => ?_⟩
  have unbound : ∀ key, Buckets.create.binding Trie.thousands key =
      (fun _ => none : FiniteMap) key := fun _ => rfl
  obtain ⟨key, bound⟩ :=
    (Buckets.iteration_iff (Buckets.create_wf Trie.thousands) unbound).mp exact
  exact bound rfl

end Qthreads.Dict
