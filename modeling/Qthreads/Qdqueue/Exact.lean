import Qthreads.Qdqueue.Queues

namespace Qthreads.Qdqueue

open Lib

variable {n : Nat} {α : Type} {distances : Fin n → Fin n → Int}

structure WellFormed (distances : Fin n → Fin n → Int) (s : State n α) : Prop where
  sheps : ∀ me, (s.allsheps me).Perm (others me)
  sorted : ∀ me, (s.allsheps me).Pairwise (distances me · ≤ distances me ·)
  listed : ∀ me, ∃ order, (s.ads me).Listed order
  entries : ∀ me shep, ∃ i, (s.ads me).shep i = shep

namespace WellFormed

variable {s : State n α}

theorem setAds (wellFormed : WellFormed distances s) {me : Fin n} {ads : Ads n}
    {order : List (Fin n)} (listed : ads.Listed order) (sheps : ads.shep = (s.ads me).shep) :
    WellFormed distances (s.setAds me ads) := by
  refine ⟨wellFormed.sheps, wellFormed.sorted, ?_, ?_⟩
  · intro shep
    by_cases same : shep = me
    · rw [same, State.setAds_self]
      exact ⟨order, listed⟩
    · rw [State.setAds_of_ne _ _ same]
      exact wellFormed.listed shep
  · intro shep
    by_cases same : shep = me
    · rw [same, State.setAds_self, sheps]
      exact wellFormed.entries me
    · rw [State.setAds_of_ne _ _ same]
      exact wellFormed.entries shep

end WellFormed

variable {me : Fin n}

theorem newAds_entries {allsheps : List (Fin n)} (perm : allsheps.Perm (others me))
    (shep : Fin n) : ∃ i, (newAds me allsheps).shep i = shep := by
  have member : shep ∈ me :: allsheps := by
    by_cases same : shep = me
    · exact List.mem_cons.mpr (.inl same)
    · exact List.mem_cons_of_mem _ (perm.mem_iff.mpr (mem_others.mpr same))
  have length : (me :: allsheps).length = n := by
    rw [List.length_cons, perm.length_eq, others_length]
    exact Nat.sub_add_cancel (Nat.lt_of_le_of_lt (Nat.zero_le _) me.isLt)
  obtain ⟨i, inside, found⟩ := List.mem_iff_getElem.mp member
  refine ⟨⟨i, length ▸ inside⟩, ?_⟩
  simp only [newAds, List.getElem?_eq_getElem inside, found, Option.getD_some]

theorem create_spec (random randomNear : Fin n → Nat → Nat)
    (above : ∀ me shep, intMin < distances me shep) :
    ∃ s : State n α, create distances random randomNear = some s ∧ WellFormed distances s ∧
      ∀ shep, s.theQ shep = [] := by
  have sortable : ∀ me, ∃ all, sortedSheps (random me) me (distances me) = some all ∧
      all.Perm (others me) ∧ all.Pairwise (distances me · ≤ distances me ·) :=
    fun me => sortedSheps_spec (random me) (above me)
  have made : ∀ me, (sortedSheps (random me) me (distances me)).isSome := by
    intro me
    obtain ⟨all, done, -⟩ := sortable me
    rw [done]
    rfl
  rw [create, if_pos made]
  refine ⟨_, rfl, ⟨?_, ?_, ?_, ?_⟩, fun _ => rfl⟩
  · intro me
    obtain ⟨all, done, perm, -⟩ := sortable me
    simp only [done, Option.getD_some]
    exact perm
  · intro me
    obtain ⟨all, done, -, sorted⟩ := sortable me
    simp only [done, Option.getD_some]
    exact sorted
  · intro me
    exact ⟨[], .nil, fun _ => ⟨nofun, nofun⟩, rfl, trivial⟩
  · intro me
    obtain ⟨all, done, perm, -⟩ := sortable me
    simp only [done, Option.getD_some]
    exact newAds_entries perm

theorem advertise_spec {generation : Nat} {s : State n α} (neighbors : List (Fin n))
    (wellFormed : WellFormed distances s) :
    ∃ after, s.advertise me generation neighbors = some after ∧ WellFormed distances after ∧
      after.theQ = s.theQ := by
  induction neighbors generalizing s with
  | nil => exact ⟨s, rfl, wellFormed, rfl⟩
  | cons neighbor rest ih =>
    obtain ⟨order, listed⟩ := wellFormed.listed neighbor
    obtain ⟨ads, order', pushed, listed', sheps, -⟩ :=
      listed.push_spec me generation (wellFormed.entries neighbor me)
    rw [State.advertise, pushed, Option.bind_some]
    exact ih (wellFormed.setAds listed' sheps)

theorem enqueue_spec {s : State n α} (wellFormed : WellFormed distances s) (there : Fin n)
    (elem : α) :
    ∃ after, s.enqueue there elem = some after ∧ WellFormed distances after ∧
      inAll after.theQ = elem ::ₘ inAll s.theQ := by
  have gained : inAll (Function.update s.theQ there (s.theQ there ++ [elem])) =
      elem ::ₘ inAll s.theQ := by
    have put : (↑(s.theQ there ++ [elem]) : Multiset α) = ↑(s.theQ there) + {elem} := by
      rw [← Multiset.coe_singleton, Multiset.coe_add]
    rw [inAll_gain put, add_comm, Multiset.singleton_add]
  have kept : WellFormed distances (s.setQ there (s.theQ there ++ [elem])) :=
    ⟨wellFormed.sheps, wellFormed.sorted, wellFormed.listed, wellFormed.entries⟩
  simp only [State.enqueue]
  by_cases first : (s.theQ there).isEmpty
  · rw [if_pos first]
    exact ⟨_, rfl, kept, gained⟩
  · rw [if_neg first]
    by_cases stale : s.lastAdIssued there ≤ s.lastAdConsumed there
    · rw [if_pos stale]
      have issued : WellFormed distances { s.setQ there (s.theQ there ++ [elem]) with
          lastAdIssued := Function.update s.lastAdIssued there (s.lastAdIssued there + 1) } :=
        ⟨wellFormed.sheps, wellFormed.sorted, wellFormed.listed, wellFormed.entries⟩
      obtain ⟨after, done, wellFormed', same⟩ := advertise_spec (s.neighbors there) issued
      refine ⟨after, done, wellFormed', ?_⟩
      rw [same]
      exact gained
    · rw [if_neg stale]
      exact ⟨_, rfl, kept, gained⟩

theorem consume_inAll {s : State n α} {shep : Fin n} {elem : α} {rest : List α} (me : Fin n)
    (queued : s.theQ shep = elem :: rest) :
    inAll s.theQ = elem ::ₘ inAll (s.consume me shep rest).theQ := by
  have lost : (↑(s.theQ shep) : Multiset α) = ↑rest + {elem} := by
    rw [queued, ← Multiset.cons_coe, add_comm, Multiset.singleton_add]
  rw [← inAll_loss lost, add_comm, Multiset.singleton_add]
  rfl

theorem scan_spec {s : State n α} (nothing : (s.ads me).first = none) (sheps : List (Fin n)) :
    (∃ elem rest shep, s.scan me sheps = .found elem rest shep ∧ s.theQ shep = elem :: rest) ∨
      s.scan me sheps = .nothing ∧ ∀ shep ∈ sheps, s.theQ shep = [] := by
  induction sheps with
  | nil => exact .inr ⟨rfl, nofun⟩
  | cons remote later ih =>
    cases queued : s.theQ remote with
    | cons elem rest =>
      refine .inl ⟨elem, rest, remote, ?_, queued⟩
      simp only [State.scan, queued]
    | nil =>
      have stays : ¬ (s.ads me).first ≠ none := not_not.mpr nothing
      have goOn : s.scan me later = s.scan me (remote :: later) →
          (∃ elem rest shep, s.scan me (remote :: later) = .found elem rest shep ∧
            s.theQ shep = elem :: rest) ∨
          s.scan me (remote :: later) = .nothing ∧ ∀ shep ∈ remote :: later, s.theQ shep = [] := by
        intro same
        rw [← same]
        rcases ih with found | ⟨lacking, empty⟩
        · exact .inl found
        · refine .inr ⟨lacking, ?_⟩
          intro shep member
          rcases List.mem_cons.mp member with rfl | inside
          · exact queued
          · exact empty shep inside
      cases hint : s.lastConsumed remote with
      | none =>
        refine goOn ?_
        simp only [State.scan, queued, hint, if_neg stays]
      | some lc =>
        by_cases own : lc = remote
        · refine goOn ?_
          simp only [State.scan, queued, hint, if_pos own, if_neg stays]
        · cases there : s.theQ lc with
          | nil =>
            refine goOn ?_
            simp only [State.scan, queued, hint, if_neg own, there, if_neg stays]
          | cons elem rest =>
            refine .inl ⟨elem, rest, lc, ?_, there⟩
            simp only [State.scan, queued, hint, if_neg own, there]

def State.hints (s : State n α) : Nat := (Finset.univ.filter fun shep => s.lastConsumed shep ≠ none).card

theorem hints_setLastConsumed {s : State n α} {shep lc : Fin n} (hint : s.lastConsumed shep = some lc) :
    (s.setLastConsumed shep none).hints + 1 = s.hints := by
  have present : shep ∈ Finset.univ.filter fun shep => s.lastConsumed shep ≠ none := by
    rw [Finset.mem_filter, hint]
    exact ⟨Finset.mem_univ _, Option.some_ne_none _⟩
  have erased : (Finset.univ.filter fun r => (s.setLastConsumed shep none).lastConsumed r ≠ none) =
      (Finset.univ.filter fun r => s.lastConsumed r ≠ none).erase shep := by
    ext r
    rw [Finset.mem_erase, Finset.mem_filter, Finset.mem_filter]
    by_cases same : r = shep
    · rw [same, State.setLastConsumed_self]
      exact ⟨fun inside => absurd rfl inside.2, fun inside => absurd rfl inside.1⟩
    · rw [State.setLastConsumed_of_ne _ _ same]
      exact ⟨fun inside => ⟨same, inside⟩, fun inside => inside.2⟩
  rw [State.hints, State.hints, erased, Finset.card_erase_add_one present]

theorem checkAds_spec {fuel : Nat} {s : State n α} {order : List (Fin n)}
    (wellFormed : WellFormed distances s) (own : s.theQ me = []) (listed : (s.ads me).Listed order)
    (enough : order.length + 2 * s.hints < fuel) :
    ∃ result after, State.checkAds me fuel s = some (result, after) ∧ WellFormed distances after ∧
      Bag.Step (inAll s.theQ) (.dequeue me result) (inAll after.theQ) := by
  induction fuel generalizing s order with
  | zero => exact absurd enough (Nat.not_lt_zero _)
  | succ fuel ih =>
    cases order with
    | nil =>
      rw [State.checkAds, listed.pop_nil]
      rcases scan_spec listed.first (s.allsheps me) with ⟨elem, rest, shep, found, queued⟩ |
        ⟨nothing, empty⟩
      · simp only [found]
        exact ⟨_, _, rfl,
          ⟨wellFormed.sheps, wellFormed.sorted, wellFormed.listed, wellFormed.entries⟩,
          consume_inAll me queued⟩
      · simp only [nothing]
        have zero : inAll s.theQ = 0 := by
          refine inAll_eq_zero_iff.mpr ?_
          intro shep
          by_cases same : shep = me
          · rw [same]
            exact own
          · exact empty shep ((wellFormed.sheps me).mem_iff.mpr (mem_others.mpr same))
        exact ⟨_, _, rfl, wellFormed, zero, zero⟩
    | cons i rest =>
      obtain ⟨ads, popped, listed', sheps⟩ := listed.pop_cons
      have kept := wellFormed.setAds listed' sheps
      have mine : ((s.setAds me ads).ads me).Listed rest := by
        rw [State.setAds_self]
        exact listed'
      have length : (i :: rest).length = rest.length + 1 := rfl
      rw [State.checkAds, popped]
      simp only
      cases hint : (s.setAds me ads).lastConsumed ((s.ads me).shep i) with
      | none => exact ih kept own mine (by change _ + 2 * s.hints < _; omega)
      | some lc =>
        by_cases working : lc = (s.ads me).shep i
        · simp only [if_pos working]
          have kept' : WellFormed distances ((s.setAds me ads).adConsumed
              ⟨(s.ads me).shep i, (s.ads me).generation i⟩) :=
            ⟨kept.sheps, kept.sorted, kept.listed, kept.entries⟩
          cases queued : ((s.setAds me ads).adConsumed
              ⟨(s.ads me).shep i, (s.ads me).generation i⟩).theQ ((s.ads me).shep i) with
          | cons elem later =>
            exact ⟨_, _, rfl, ⟨kept.sheps, kept.sorted, kept.listed, kept.entries⟩,
              consume_inAll me queued⟩
          | nil => exact ih kept' own mine (by change _ + 2 * s.hints < _; omega)
        · simp only [if_neg working]
          obtain ⟨ads', order', pushed, listed'', sheps', longer⟩ :=
            mine.push_spec lc 0 (kept.entries me lc)
          rw [pushed, Option.bind_some]
          have kept' := kept.setAds listed'' sheps'
          have mine' : (((s.setAds me ads).setAds me ads').ads me).Listed order' := by
            rw [State.setAds_self]
            exact listed''
          have fewer : (((s.setAds me ads).setAds me ads').setLastConsumed
              ((s.ads me).shep i) none).hints + 1 = s.hints := hints_setLastConsumed hint
          exact ih ⟨kept'.sheps, kept'.sorted, kept'.listed, kept'.entries⟩ own mine' (by omega)

theorem dequeue_spec {s : State n α} (wellFormed : WellFormed distances s) (me : Fin n) :
    ∃ result after, s.dequeue me = some (result, after) ∧ WellFormed distances after ∧
      Bag.Step (inAll s.theQ) (.dequeue me result) (inAll after.theQ) := by
  cases queued : s.theQ me with
  | cons elem rest =>
    simp only [State.dequeue, queued]
    exact ⟨_, _, rfl, ⟨wellFormed.sheps, wellFormed.sorted, wellFormed.listed, wellFormed.entries⟩,
      consume_inAll me queued⟩
  | nil =>
    obtain ⟨order, listed⟩ := wellFormed.listed me
    have hints : (s.setLastConsumed me none).hints ≤ n := by
      refine (Finset.card_filter_le _ _).trans ?_
      rw [Finset.card_univ, Fintype.card_fin]
    have length := listed.length_le
    simp only [State.dequeue, queued]
    exact checkAds_spec
      ⟨wellFormed.sheps, wellFormed.sorted, wellFormed.listed, wellFormed.entries⟩ queued listed
      (by omega)

/-- If there is an element, the caller of `qdqueue_empty` has one itself, or a shepherd has one that
took its last element from its own queue. -/
def Visible (before : State n α) : Call n α → Prop
  | .empty me _ => (∀ shep, before.theQ shep = []) ∨ before.theQ me ≠ [] ∨
      ∃ remote, before.lastConsumed remote = some remote ∧ before.theQ remote ≠ []
  | _ => True

theorem empty_eq_true_iff {s : State n α} (wellFormed : WellFormed distances s) (me : Fin n) :
    s.empty me = true ↔ s.theQ me = [] ∧
      ∀ remote, s.lastConsumed remote = some remote → s.theQ remote = [] := by
  simp only [State.empty, Bool.and_eq_true, List.isEmpty_iff, List.all_eq_true, Bool.not_eq_true',
    Bool.and_eq_false_iff, decide_eq_false_iff_not, Bool.not_eq_false']
  constructor
  · rintro ⟨own, all⟩
    refine ⟨own, ?_⟩
    intro remote working
    by_cases same : remote = me
    · rw [same]
      exact own
    · rcases all remote ((wellFormed.sheps me).mem_iff.mpr (mem_others.mpr same)) with idle | empty
      · exact absurd working idle
      · exact empty
  · rintro ⟨own, all⟩
    refine ⟨own, ?_⟩
    intro remote _
    by_cases working : s.lastConsumed remote = some remote
    · exact .inr (all remote working)
    · exact .inl working

/-- `qdqueue_empty` is right just if what it looks at shows it. -/
theorem empty_right_iff {s : State n α} (wellFormed : WellFormed distances s)
    {result : Bool} (returned : s.empty me = result) :
    (result = true ↔ inAll s.theQ = 0) ↔ Visible s (.empty me result) := by
  rw [← returned, empty_eq_true_iff wellFormed me, inAll_eq_zero_iff]
  constructor
  · intro right
    by_cases empty : s.theQ me = [] ∧ ∀ remote, s.lastConsumed remote = some remote → s.theQ remote = []
    · exact .inl (right.mp empty)
    · rcases not_and_or.mp empty with own | other
      · exact .inr (.inl own)
      · obtain ⟨remote, present⟩ := not_forall.mp other
        exact .inr (.inr ⟨remote, Classical.not_imp.mp present⟩)
  · rintro (nothing | own | ⟨remote, working, nonempty⟩)
    · exact ⟨fun _ => nothing, fun _ => ⟨nothing me, fun remote _ => nothing remote⟩⟩
    · exact ⟨fun both => absurd both.1 own, fun nothing => absurd (nothing me) own⟩
    · exact ⟨fun both => absurd (both.2 remote working) nonempty,
        fun nothing => absurd (nothing remote) nonempty⟩

variable {call : Call n α}

theorem step_spec {before after : State n α}
    (wellFormed : WellFormed distances before) (step : Step before call after) :
    WellFormed distances after ∧
      (Bag.Step (inAll before.theQ) call (inAll after.theQ) ↔ Visible before call) := by
  cases call with
  | enqueue there elem =>
    obtain ⟨after', done, kept, gained⟩ := enqueue_spec wellFormed there elem
    cases done.symm.trans step
    exact ⟨kept, fun _ => trivial, fun _ => gained⟩
  | dequeue me result =>
    obtain ⟨result', after', done, kept, took⟩ := dequeue_spec wellFormed me
    cases done.symm.trans step
    exact ⟨kept, fun _ => trivial, fun _ => took⟩
  | empty me result =>
    obtain ⟨returned, rfl⟩ := step
    refine ⟨wellFormed, ?_⟩
    rw [← empty_right_iff wellFormed returned]
    exact ⟨fun both => both.1, fun right => ⟨right, rfl⟩⟩

theorem bag_eq {before after : State n α} {bag : Multiset α}
    (wellFormed : WellFormed distances before) (step : Step before call after)
    (taken : Bag.Step (inAll before.theQ) call bag) : bag = inAll after.theQ := by
  have same := (step_spec wellFormed step).2
  cases call with
  | enqueue there elem => exact Eq.trans taken (Eq.symm (same.mpr trivial))
  | dequeue me result =>
    have took := same.mpr trivial
    cases result with
    | none => exact taken.2.trans took.2.symm
    | some elem => exact (Multiset.cons_inj_right elem).mp (Eq.trans (Eq.symm taken) took)
  | empty me result =>
    rw [taken.2, step.2]

theorem Step.deterministic {before after other : State n α}
    (step : Step before call after) (again : Step before call other) : other = after := by
  cases call with
  | enqueue there elem => exact Option.some.inj (again.symm.trans step)
  | dequeue me result => exact (Prod.mk.inj (Option.some.inj (again.symm.trans step))).2
  | empty me result => rw [again.2, step.2]

theorem run_spec {first last : State n α} {calls : List (Call n α)} (run : Run Step first calls last)
    (wellFormed : WellFormed distances first) :
    WellFormed distances last ∧
      ((∃ bag, Run Bag.Step (inAll first.theQ) calls bag) ↔
        Run (Guarded Visible Step) first calls last) := by
  induction run with
  | nil state => exact ⟨wellFormed, fun _ => .nil _, fun _ => ⟨_, .nil _⟩⟩
  | cons step _ ih =>
    obtain ⟨kept, right⟩ := step_spec wellFormed step
    obtain ⟨ended, later⟩ := ih kept
    refine ⟨ended, ?_, ?_⟩
    · rintro ⟨bag, run⟩
      cases run with
      | cons taken rest =>
        have same := bag_eq wellFormed step taken
        rw [same] at taken rest
        exact .cons ⟨right.mp taken, step⟩ (later.mp ⟨bag, rest⟩)
    · intro run
      cases run with
      | cons taken rest =>
        have same := step.deterministic taken.2
        subst same
        obtain ⟨bag, tail⟩ := later.mpr rest
        exact ⟨bag, .cons (right.mpr taken.1) tail⟩

/-- Neither is a distance the smallest number there is, nor does adding ten to it overflow. -/
def InRange (distance : Int) : Prop := intMin < distance ∧ distance + 10 ≤ intMax

/-- The queue can be made.  In every run the other shepherds are sorted by distance, the
advertisements are linked, and every call returns.  The queue is a bag just if `qdqueue_empty` is
called only when what it looks at shows whether there is an element. -/
theorem bag_iff_visible (distances : Fin n → Fin n → Int) (random randomNear : Fin n → Nat → Nat)
    (range : ∀ me shep, InRange (distances me shep)) :
    ∃ first : State n α, create distances random randomNear = some first ∧
      ∀ calls last, Run Step first calls last →
        WellFormed distances last ∧
          (∀ there elem, ∃ after, Step last (.enqueue there elem) after) ∧
          (∀ me, ∃ result after, Step last (.dequeue me result) after) ∧
          ((∃ bag, Run Bag.Step 0 calls bag) ↔ Run (Guarded Visible Step) first calls last) := by
  obtain ⟨first, made, wellFormed, empty⟩ :=
    create_spec (α := α) random randomNear fun me shep => (range me shep).1
  refine ⟨first, made, ?_⟩
  intro calls last run
  obtain ⟨kept, right⟩ := run_spec run wellFormed
  rw [inAll_eq_zero_iff.mpr empty] at right
  refine ⟨kept, ?_, ?_, right⟩
  · intro there elem
    obtain ⟨after, done, -⟩ := enqueue_spec kept there elem
    exact ⟨after, done⟩
  · intro me
    obtain ⟨result, after, done, -⟩ := dequeue_spec kept me
    exact ⟨result, after, done⟩

def pair : Option (State 2 Nat) := create (fun _ _ => 0) (fun _ _ => 0) (fun _ _ => 0)

theorem bag_of_two_sheps : ∃ first last, pair = some first ∧
    Run Step first [.enqueue 0 5, .enqueue 0 6, .dequeue 1 (some 5), .dequeue 0 (some 6),
      .dequeue 1 none, .empty 1 true] last ∧
    WellFormed (fun _ _ => 0) last ∧
    ∃ bag, Run Bag.Step 0 [.enqueue 0 5, .enqueue 0 6, .dequeue 1 (some 5), .dequeue 0 (some 6),
      .dequeue 1 none, .empty (1 : Fin 2) true] bag := by
  obtain ⟨first, made, always⟩ := bag_iff_visible (n := 2) (α := Nat) (fun _ _ => 0)
    (fun _ _ => 0) (fun _ _ => 0) fun _ _ => ⟨by decide, by decide⟩
  have guarded : ∃ last, Run (Guarded Visible Step) first [.enqueue 0 5, .enqueue 0 6,
      .dequeue 1 (some 5), .dequeue 0 (some 6), .dequeue 1 none, .empty 1 true] last := by
    cases made
    exact ⟨_, .cons ⟨trivial, rfl⟩ <| .cons ⟨trivial, rfl⟩ <| .cons ⟨trivial, rfl⟩ <|
      .cons ⟨trivial, rfl⟩ <| .cons ⟨trivial, rfl⟩ <| .cons ⟨.inl (by decide), rfl, rfl⟩ <| .nil _⟩
  obtain ⟨last, run⟩ := guarded
  have plain := run.mono fun _ _ _ step => step.2
  obtain ⟨wellFormed, -, -, right⟩ := always _ last plain
  exact ⟨first, last, made, plain, wellFormed, right.mpr run⟩

/-- An element at another shepherd that has not taken any is not seen. -/
theorem empty_with_an_element : ∃ first last, pair = some first ∧
    Run Step first [.enqueue 1 5, .empty 0 true] last ∧
    ¬ ∃ bag, Run Bag.Step 0 [.enqueue (1 : Fin 2) 5, .empty 0 true] bag := by
  refine ⟨_, _, rfl, .cons rfl <| .cons ⟨rfl, rfl⟩ <| .nil _, ?_⟩
  rintro ⟨bag, run⟩
  cases run with
  | cons put rest =>
    cases put
    cases rest with
    | cons wrong _ => exact absurd (wrong.1.mp rfl) (Multiset.cons_ne_zero)

end Qthreads.Qdqueue
