import Qthreads.Sherwood.Filter

namespace Qthreads.Sherwood

open Lib Links

variable {f : Filter Task} {heap : Heap} {q : Queue} {rest back : List Nat} {node : Nat}

def lpAt (rest : List Nat) : Cursor :=
  match rest.getLast? with
  | none => .head
  | some before => .next before

def rpAt (back : List Nat) : Cursor :=
  match back.head? with
  | none => .tail
  | some after => .prev after

theorem lpOf_node (shows : q.Shows heap (rest ++ [node] ++ back)) :
    lpOf heap q (some node) = some (lpAt rest) := by
  have first := head_first shows.once (rfl : [node].head? = some node)
  rw [← shows.head] at first
  obtain ⟨-, ⟨prev, -, -⟩, -⟩ := segment_parts shows.linked
  rw [lpOf, lpAt]
  cases before : rest.getLast? with
  | none => rw [if_pos (first.mpr before)]
  | some other =>
    rw [before] at prev first
    rw [if_neg (mt first.mp nofun), Option.bind_some, prev]
    rfl

theorem lpOf_none (shows : q.Shows heap rest) :
    lpOf heap q none = if rest = [] then some .head else none := by
  rw [lpOf, shows.head]
  cases rest with
  | nil => rfl
  | cons first others => rfl

theorem cutNode_eq (shows : q.Shows heap (rest ++ [node] ++ back)) :
    cutNode heap q (lpAt rest) (rpAt back) node =
      ((patch heap rest.getLast? back.head?).free node,
        { q with head := (rest ++ back).head?, tail := (rest ++ back).getLast? }.counted (-1)
          (-heap.weight node)) := by
  obtain ⟨-, ⟨prev, next, -⟩, -⟩ := segment_parts shows.linked
  have head := shows.head
  have tail := shows.tail
  rw [List.head?_nil, Option.none_or] at next
  rw [cutNode, lpAt, rpAt]
  cases before : rest.getLast? with
  | none =>
    have empty := List.getLast?_eq_none_iff.mp before
    subst empty
    cases after : back.head? with
    | none =>
      have nothing := List.head?_eq_none_iff.mp after
      subst nothing
      simp only [Cursor.store, next, prev, patch]
      rfl
    | some other =>
      rw [getLast?_middle after] at tail
      rw [after] at next
      simp only [Cursor.store, next, prev, patch, List.nil_append, after]
      rw [List.nil_append] at tail
      rw [← tail]
      rfl
  | some other =>
    rw [head?_middle before] at head
    cases after : back.head? with
    | none =>
      have nothing := List.head?_eq_none_iff.mp after
      subst nothing
      have prev' : (heap.setNext other (heap.next node)).prev node = some other := prev.trans before
      simp only [Cursor.store, prev', patch, List.append_nil, before] at head ⊢
      rw [← head, next]
      rfl
    | some follower =>
      rw [getLast?_middle after] at tail
      have prev' : (heap.setNext other (heap.next node)).prev node = some other := prev.trans before
      simp only [Cursor.store, prev', patch]
      rw [← head, ← tail, next, after]
      rfl

structure Sifted (heap after : Heap) (touched removed : List Nat) : Prop where
  frame : heap.Frame { after with allocated := heap.allocated } touched
  freed : after.allocated = heap.allocated.diff removed

namespace Sifted

variable {middle after : Heap} {touched fewer removed : List Nat}

theorem refl (heap : Heap) (touched : List Nat) : Sifted heap heap touched [] :=
  ⟨.refl heap touched, (List.diff_nil _).symm⟩

theorem cons (front : Sifted heap middle touched [node]) (behind : Sifted middle after fewer removed)
    (within : fewer ⊆ touched) : Sifted heap after touched (node :: removed) where
  frame := by
    have wide := behind.frame.mono within
    exact ⟨fun other outside => (front.frame.same other outside).trans (wide.same other outside),
      wide.stealable.trans front.frame.stealable, wide.value.trans front.frame.value, rfl⟩
  freed := by
    rw [behind.freed, front.freed, List.diff_cons, List.diff_cons, List.diff_nil]

end Sifted

theorem cutNode_shows (shows : q.Shows heap (rest ++ [node] ++ back)) :
    ∃ after queue, cutNode heap q (lpAt rest) (rpAt back) node = (after, queue) ∧
      Sifted heap after (rest ++ [node] ++ back) [node] ∧ queue.Shows after (rest ++ back) ∧
      after.prev node = rest.getLast? := by
  obtain ⟨early, -, late⟩ := segment_parts shows.linked
  have frame := patch_frame heap rest [node] back
  have lengths : q.qlength + -1 = (rest ++ back).length := by
    rw [shows.qlength]
    simp only [List.length_append, List.length_singleton]
    omega
  have counts : q.qlengthStealable + -heap.weight node = (rest ++ back).countP heap.stealable := by
    rw [shows.qlengthStealable, weight_eq]
    simp only [List.countP_append]
    omega
  refine ⟨_, _, cutNode_eq shows, ⟨⟨frame.same, frame.stealable, frame.value, rfl⟩, ?_⟩,
    ⟨⟨rfl, rfl, lengths, ?_⟩, patch_linked early late (nodup_rest shows.once),
      nodup_rest shows.once⟩, ?_⟩
  · show (patch heap rest.getLast? back.head?).allocated.erase node = _
    rw [frame.allocated, List.diff_cons, List.diff_nil]
  · show q.qlengthStealable + -heap.weight node =
      (rest ++ back).countP (patch heap rest.getLast? back.head?).stealable
    rw [frame.stealable]
    exact counts
  · exact (patch_run shows.linked shows.once).prev_first rfl

def Stuck (guarded : Bool) (f : Filter Task) (asked tasks : List Task) (back : List Nat) : Prop :=
  tasks ≠ [] ∧ f.sieve.Exhausts asked tasks ∧
    (guarded = true → f.sieve.RemovesLast asked tasks) ∧ (f.sieve.kept asked tasks ≠ [] ∨ back ≠ [])

structure Walked (f : Filter Task) (heap : Heap) (order back : List Nat) (asked : List Task)
    (outcome : List Task × Heap × Queue) (removed : List Nat) : Prop where
  asks : outcome.1 = (f.sieve.asks asked (order.map heap.value)).reverse ++ asked
  sifted : Sifted heap outcome.2.1 (order.reverse ++ back) removed
  shows : outcome.2.2.Shows outcome.2.1 ((f.sieve.keptBy heap.value asked order).reverse ++ back)
  parts : (removed ++ f.sieve.keptBy heap.value asked order).Perm order

variable {guarded : Bool} {asked : List Task} {order : List Nat} {t : Task} {more : List Task}

theorem Stuck.cons_keep (keeps : f.sieve.removes asked t = false) (goes : f.sieve.stops asked t = false) :
    Stuck guarded f asked (t :: more) back ↔
      if more = [] then guarded = false else Stuck guarded f (t :: asked) more (node :: back) := by
  have kept : f.sieve.kept asked (t :: more) = t :: f.sieve.kept (t :: asked) more := by
    simp only [Sieve.kept, Sieve.keptBy, id, keeps, goes]
    rfl
  rw [Stuck, kept]
  cases more with
  | nil =>
    rw [if_pos rfl]
    refine ⟨fun stuck => ?_, fun unguarded =>
      ⟨by rintro ⟨⟩, ⟨goes, trivial⟩, fun wrong => ?_, .inl (by rintro ⟨⟩)⟩⟩
    · by_contra wrong
      have removes : f.sieve.removes asked t = true := stuck.2.2.1 (Bool.eq_true_of_not_eq_false wrong)
      rw [keeps] at removes
      cases removes
    · rw [unguarded] at wrong
      cases wrong
  | cons next later =>
    rw [if_neg (List.cons_ne_nil _ _)]
    exact ⟨fun stuck => ⟨by rintro ⟨⟩, stuck.2.1.2, stuck.2.2.1, .inr (by rintro ⟨⟩)⟩,
      fun stuck => ⟨by rintro ⟨⟩, ⟨goes, stuck.2.1⟩, stuck.2.2.1, .inl (by rintro ⟨⟩)⟩⟩

theorem Stuck.cons_remove (removes : f.sieve.removes asked t = true)
    (goes : f.sieve.stops asked t = false) :
    Stuck guarded f asked (t :: more) back ↔
      if more = [] then back ≠ [] else Stuck guarded f (t :: asked) more back := by
  have kept : f.sieve.kept asked (t :: more) = f.sieve.kept (t :: asked) more := by
    simp only [Sieve.kept, Sieve.keptBy, id, removes, goes]
    rfl
  rw [Stuck, kept]
  cases more with
  | nil =>
    rw [if_pos rfl]
    refine ⟨fun stuck => stuck.2.2.2.resolve_left fun nonempty => nonempty rfl, fun nonempty =>
      ⟨by rintro ⟨⟩, ⟨goes, trivial⟩, fun _ => removes, .inr nonempty⟩⟩
  | cons next later =>
    rw [if_neg (List.cons_ne_nil _ _)]
    exact ⟨fun stuck => ⟨by rintro ⟨⟩, stuck.2.1.2, stuck.2.2⟩,
      fun stuck => ⟨by rintro ⟨⟩, ⟨goes, stuck.2.1⟩, stuck.2.2⟩⟩

theorem not_stuck_of_stop (halts : f.sieve.stops asked t = true) :
    ¬ Stuck guarded f asked (t :: more) back := by
  intro stuck
  have goes := stuck.2.1.1
  rw [halts] at goes
  cases goes

theorem rpAt_cons : rpAt (node :: back) = .prev node := rfl

variable {outcome : List Task × Heap × Queue}

theorem Walked.keep {removed : List Nat}
    (walked : Walked f heap order (node :: back) (heap.value node :: asked) outcome removed)
    (keeps : f.sieve.removes asked (heap.value node) = false)
    (goes : f.sieve.stops asked (heap.value node) = false) :
    Walked f heap (node :: order) back asked outcome removed := by
  have kept : f.sieve.keptBy heap.value asked (node :: order) =
      node :: f.sieve.keptBy heap.value (heap.value node :: asked) order := by
    simp only [Sieve.keptBy, keeps, goes]
    rfl
  have same : (node :: order).reverse ++ back = order.reverse ++ (node :: back) := by
    rw [List.reverse_cons, List.append_assoc]
    rfl
  refine ⟨?_, same ▸ walked.sifted, ?_, ?_⟩
  · rw [walked.asks, List.map_cons, Sieve.asks, goes, List.reverse_cons, List.append_assoc]
    rfl
  · rw [kept, List.reverse_cons, List.append_assoc]
    exact walked.shows
  · rw [kept]
    exact List.perm_middle.trans (walked.parts.cons node)

theorem Walked.remove {middle : Heap} {removed : List Nat}
    (cut : Sifted heap middle ((node :: order).reverse ++ back) [node])
    (walked : Walked f middle order back (heap.value node :: asked) outcome removed)
    (removes : f.sieve.removes asked (heap.value node) = true)
    (goes : f.sieve.stops asked (heap.value node) = false) :
    Walked f heap (node :: order) back asked outcome (node :: removed) := by
  have value : middle.value = heap.value := cut.frame.value
  have kept : f.sieve.keptBy heap.value asked (node :: order) =
      f.sieve.keptBy heap.value (heap.value node :: asked) order := by
    simp only [Sieve.keptBy, removes, goes]
    rfl
  have within : order.reverse ++ back ⊆ (node :: order).reverse ++ back := by
    intro other member
    rw [List.reverse_cons, List.append_assoc]
    rcases List.mem_append.mp member with early | late
    · exact List.mem_append_left _ early
    · exact List.mem_append_right _ (List.mem_cons_of_mem _ late)
  refine ⟨?_, cut.cons walked.sifted within, ?_, ?_⟩
  · rw [walked.asks, value, List.map_cons, Sieve.asks, goes, List.reverse_cons, List.append_assoc]
    rfl
  · have left := walked.shows
    rw [value] at left
    rw [kept]
    exact left
  · have parts := walked.parts
    rw [value] at parts
    rw [kept]
    exact parts.cons node

theorem filterLoop_none {fuel : Nat} {lp rp : Cursor} :
    filterLoop guarded f fuel asked heap q lp rp none = some (asked, heap, q) := by
  rw [filterLoop]

theorem filterLoop_walked {fuel : Nat} (shows : q.Shows heap (order.reverse ++ back))
    (enough : order.length ≤ fuel) :
    (Stuck guarded f asked (order.map heap.value) back →
      filterLoop guarded f fuel asked heap q (lpAt order.tail.reverse) (rpAt back) order.head? =
        none) ∧
    (¬ Stuck guarded f asked (order.map heap.value) back → ∃ outcome removed,
      filterLoop guarded f fuel asked heap q (lpAt order.tail.reverse) (rpAt back) order.head? =
        some outcome ∧ Walked f heap order back asked outcome removed) := by
  induction order generalizing back asked heap q fuel with
  | nil =>
    refine ⟨fun stuck => absurd rfl stuck.1, fun _ => ⟨(asked, heap, q), [], ?_, rfl,
      .refl heap _, shows, List.Perm.refl _⟩⟩
    rw [List.head?_nil, filterLoop]
  | cons node more ih =>
    obtain ⟨fuel, rfl⟩ : ∃ less, fuel = less + 1 := ⟨fuel - 1, by
      rw [List.length_cons] at enough
      omega⟩
    have less : more.length ≤ fuel := Nat.le_of_succ_le_succ enough
    have within := shows
    rw [List.reverse_cons] at shows
    obtain ⟨-, ⟨prev, -, -⟩, -⟩ := segment_parts shows.linked
    rw [List.getLast?_reverse] at prev
    have later : q.Shows heap (more.reverse ++ (node :: back)) := by
      rw [List.append_assoc] at shows
      exact shows
    rw [List.map_cons, List.head?_cons, List.tail_cons, filterLoop]
    cases answer : f asked (heap.value node) with
    | ignoreAndContinue =>
      obtain ⟨keeps, goes⟩ := Filter.keeps_goes answer
      rw [@Stuck.cons_keep f back node guarded asked _ _ keeps goes]
      cases more with
      | nil =>
        rw [List.map_nil, if_pos rfl]
        simp only [List.head?_nil] at prev
        cases guarded with
        | true =>
          simp only [prev, and_self, if_true, filterLoop]
          exact ⟨nofun, fun _ => ⟨(heap.value node :: asked, heap, q), [], rfl,
            Walked.keep ⟨rfl, .refl heap _, within, List.Perm.refl _⟩ keeps goes⟩⟩
        | false =>
          have null : lpOf heap q none = none := by
            rw [lpOf_none within, if_neg (by simp)]
          simp only [prev, null, Bool.false_eq_true, false_and, if_false]
          exact ⟨fun _ => rfl, fun never => absurd trivial never⟩
      | cons next rest =>
        rw [List.map_cons, if_neg (List.cons_ne_nil _ _)]
        rw [List.head?_cons] at prev
        have lp : lpOf heap q (some next) = some (lpAt rest.reverse) := by
          refine lpOf_node (?_ : q.Shows heap (rest.reverse ++ [next] ++ (node :: back)))
          rw [List.reverse_cons] at later
          exact later
        obtain ⟨trips, walks⟩ := @ih heap q (node :: back) (heap.value node :: asked) fuel later less
        rw [rpAt_cons] at trips walks
        rw [prev, if_neg (fun both => nomatch both.2), lp]
        refine ⟨trips, fun clear => ?_⟩
        obtain ⟨outcome, removed, ran, walked⟩ := walks clear
        exact ⟨outcome, removed, ran, walked.keep keeps goes⟩
    | ignoreAndStop =>
      obtain ⟨keeps, halts⟩ := Filter.keeps_halts answer
      refine ⟨fun stuck => absurd stuck (not_stuck_of_stop halts), fun _ =>
        ⟨_, [], rfl, ?_, .refl heap _, ?_, ?_⟩⟩
      · simp only [List.map_cons, Sieve.asks, halts, if_true, List.reverse_singleton,
          List.singleton_append]
      · simp only [Sieve.keptBy, keeps, halts, if_true]
        exact within
      · simp only [Sieve.keptBy, keeps, halts, if_true]
        exact List.Perm.refl _
    | removeAndContinue =>
      obtain ⟨removes, goes⟩ := Filter.removes_goes answer
      obtain ⟨middle, queue, cut, sifted, left, before⟩ := cutNode_shows shows
      rw [List.getLast?_reverse] at before
      have touched : Sifted heap middle ((node :: more).reverse ++ back) [node] := by
        rw [List.reverse_cons]
        exact sifted
      rw [Stuck.cons_remove removes goes]
      simp only [cut, before]
      cases more with
      | nil =>
        rw [List.map_nil, if_pos rfl, List.head?_nil, lpOf_none left]
        refine ⟨fun nonempty => by rw [List.reverse_nil, List.nil_append, if_neg nonempty]; rfl, fun clear => ?_⟩
        have nothing : back = [] := not_not.mp clear
        rw [nothing] at left touched ⊢
        refine ⟨(heap.value node :: asked, middle, queue), [node], ?_, Walked.remove touched
          ⟨rfl, .refl middle _, left, List.Perm.refl _⟩ removes goes⟩
        exact filterLoop_none
      | cons next rest =>
        rw [List.map_cons, if_neg (List.cons_ne_nil _ _), List.head?_cons]
        have lp : lpOf middle queue (some next) = some (lpAt rest.reverse) := by
          refine lpOf_node (?_ : queue.Shows middle (rest.reverse ++ [next] ++ back))
          rw [List.reverse_cons] at left
          exact left
        obtain ⟨trips, walks⟩ := @ih middle queue back (heap.value node :: asked) fuel left less
        rw [sifted.frame.value] at trips walks
        simp only [lp]
        refine ⟨trips, fun clear => ?_⟩
        obtain ⟨outcome, removed, ran, walked⟩ := walks clear
        exact ⟨outcome, _, ran, walked.remove touched removes goes⟩
    | removeAndStop =>
      obtain ⟨removes, halts⟩ := Filter.removes_halts answer
      obtain ⟨middle, queue, cut, sifted, left, -⟩ := cutNode_shows shows
      simp only [cut]
      refine ⟨fun stuck => absurd stuck (not_stuck_of_stop halts), fun _ =>
        ⟨_, [node], rfl, ?_, ?_, ?_, ?_⟩⟩
      · simp only [List.map_cons, Sieve.asks, halts, if_true, List.reverse_singleton,
          List.singleton_append]
      · rw [List.reverse_cons]
        exact sifted
      · simp only [Sieve.keptBy, removes, halts, if_true]
        exact left
      · simp only [Sieve.keptBy, removes, halts, if_true]
        exact List.Perm.refl _

end Qthreads.Sherwood
