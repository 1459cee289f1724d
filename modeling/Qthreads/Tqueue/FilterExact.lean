import Qthreads.Tqueue.ReadyExact

namespace Qthreads.Tqueue

open Lib
open Function (update_of_ne update_self update_eq_self)

variable {nodes : Nodes} {first : Option Node} {tasks : List Task} {list front order : List Node}
  {node curs : Node} {t : Task} {kind : Kind} {f : Filter Task} {asked : List Task}

theorem Nodes.Hold.shown (hold : nodes.Hold first tasks list) :
    nodes.Hold first (list.map nodes.thread) list :=
  hold.threads ▸ hold

variable {w : Sifting}

theorem Sifting.unlink_hold (hold : w.nodes.Hold w.first tasks (front ++ curs :: order)) :
    (w.unlink front.getLast? curs).nodes.Hold (w.unlink front.getLast? curs).first
      ((front ++ order).map w.nodes.thread) (front ++ order) := by
  obtain ⟨middle, early, start, late⟩ := Chain.append.mp hold.chain
  have once := hold.once
  obtain ⟨frontOnce, restOnce, apart⟩ := List.nodup_append.mp once
  obtain ⟨outside, orderOnce⟩ := List.nodup_cons.mp restOnce
  have left : (front ++ order).Nodup := List.nodup_append.mpr
    ⟨frontOnce, orderOnce, fun a before b after => apart a before b (List.mem_cons_of_mem _ after)⟩
  have live : ∀ other ∈ front ++ order, other ≠ curs ∧ w.nodes.allocated other = true := by
    intro other member
    rcases List.mem_append.mp member with before | after
    · exact ⟨apart other before curs List.mem_cons_self,
        hold.live other (List.mem_append_left _ before)⟩
    · refine ⟨?_, hold.live other (List.mem_append_right _ (List.mem_cons_of_mem _ after))⟩
      rintro rfl
      exact outside after
  cases ends : front.getLast? with
  | none =>
    have empty := List.getLast?_eq_none_iff.mp ends
    subst empty
    refine ⟨late, left, fun other member => ?_, rfl⟩
    exact (update_of_ne (live other member).1 ..).trans (live other member).2
  | some last =>
    have lastIn := List.mem_of_getLast? ends
    refine ⟨Chain.append.mpr ⟨w.nodes.next curs, ?_, ?_⟩, left, fun other member => ?_, rfl⟩
    · exact early.relink frontOnce ends _
    · refine late.congr fun other member => update_of_ne ?_ ..
      rintro rfl
      exact apart other lastIn other (List.mem_cons_of_mem _ member) rfl
    · exact (update_of_ne (live other member).1 ..).trans (live other member).2

theorem Sifting.unlink_thread {ptr : Option Node} :
    (w.unlink ptr curs).nodes.thread = w.nodes.thread := by
  cases ptr <;> rfl

theorem Sifting.unlink_first (nonempty : front ≠ []) :
    (w.unlink front.getLast? curs).first = w.first := by
  cases ends : front.getLast? with
  | none => exact absurd (List.getLast?_eq_none_iff.mp ends) nonempty
  | some last => rfl

theorem getLast?_cut {α : Type} {front rest : List α} {x : α} (nonempty : rest ≠ []) :
    (front ++ x :: rest).getLast? = (front ++ rest).getLast? := by
  rw [List.getLast?_append_of_ne_nil _ (List.cons_ne_nil _ _),
    List.getLast?_append_of_ne_nil _ nonempty]
  exact List.getLast?_cons_of_ne_nil nonempty

theorem Sifting.unlink_tail (hold : w.nodes.Hold w.first tasks (front ++ curs :: order))
    (tail : w.tail = (front ++ curs :: order).getLast?) :
    (w.unlink front.getLast? curs).tail = (front ++ order).getLast? := by
  obtain ⟨middle, -, -, late⟩ := Chain.append.mp hold.chain
  have next := late.head
  cases order with
  | nil =>
    rw [List.append_nil]
    exact if_pos next
  | cons following others =>
    have pointed : ¬ w.nodes.next curs = none := by
      rw [next]
      nofun
    rw [← getLast?_cut (List.cons_ne_nil following others), ← tail]
    exact if_neg pointed

structure Walked (f : Filter Task) (w : Sifting) (front order : List Node) (asked : List Task)
    (outcome : List Task × Sifting) : Prop where
  asks : outcome.1 = (f.sieve.asks asked (order.map w.nodes.thread)).reverse ++ asked
  hold : outcome.2.nodes.Hold outcome.2.first
    ((front ++ f.sieve.keptBy w.nodes.thread asked order).map w.nodes.thread)
    (front ++ f.sieve.keptBy w.nodes.thread asked order)
  first : front ≠ [] → outcome.2.first = w.first
  tail : w.tail = (front ++ order).getLast? →
    outcome.2.tail = (front ++ f.sieve.keptBy w.nodes.thread asked order).getLast?

variable {fuel : Nat}

theorem filterLoop_none {ptr : Option Node} :
    filterLoop f fuel asked w ptr none = some (asked, w) := by
  rw [filterLoop]

theorem filterLoop_walked
    (hold : w.nodes.Hold w.first tasks (front ++ order)) (enough : order.length ≤ fuel) :
    ∃ outcome, filterLoop f fuel asked w front.getLast? order.head? = some outcome ∧
      Walked f w front order asked outcome := by
  induction order generalizing front asked w fuel tasks with
  | nil =>
    exact ⟨(asked, w), filterLoop_none, rfl, hold.shown, fun _ => rfl, fun tail => tail⟩
  | cons curs rest ih =>
    obtain ⟨fuel, rfl⟩ : ∃ less, fuel = less + 1 := ⟨fuel - 1, by
      rw [List.length_cons] at enough
      omega⟩
    have less : rest.length ≤ fuel := Nat.le_of_succ_le_succ enough
    have whole : front ++ curs :: rest = (front ++ [curs]) ++ rest := by
      rw [List.append_assoc]
      rfl
    obtain ⟨middle, -, -, late⟩ := Chain.append.mp hold.chain
    have next := late.head
    have cut := Sifting.unlink_hold hold
    have thread := @Sifting.unlink_thread curs w front.getLast?
    rw [List.head?_cons, filterLoop, next]
    cases answer : f asked (w.nodes.thread curs) with
    | ignoreAndContinue =>
      obtain ⟨keeps, goes⟩ := Filter.keeps_goes answer
      rw [whole] at hold
      obtain ⟨outcome, ran, walked⟩ := @ih _ (front ++ [curs]) (w.nodes.thread curs :: asked) w fuel
        hold less
      rw [List.getLast?_concat] at ran
      have kept : front ++ f.sieve.keptBy w.nodes.thread asked (curs :: rest) = (front ++ [curs]) ++
          f.sieve.keptBy w.nodes.thread (w.nodes.thread curs :: asked) rest := by
        simp only [Sieve.keptBy, keeps, goes, Bool.false_eq_true, if_false, List.append_assoc,
          List.singleton_append]
      refine ⟨outcome, ran, ?_, ?_, fun _ => walked.first (by simp), ?_⟩
      · rw [walked.asks, List.map_cons, Sieve.asks, goes, List.reverse_cons, List.append_assoc]
        rfl
      · rw [kept]
        exact walked.hold
      · rw [kept, whole]
        exact walked.tail
    | ignoreAndStop =>
      obtain ⟨keeps, halts⟩ := Filter.keeps_halts answer
      have kept : f.sieve.keptBy w.nodes.thread asked (curs :: rest) = curs :: rest := by
        simp only [Sieve.keptBy, keeps, halts, if_true, Bool.false_eq_true, if_false]
      refine ⟨_, rfl, ?_, ?_, fun _ => rfl, ?_⟩
      · simp only [List.map_cons, Sieve.asks, halts, if_true, List.reverse_singleton,
          List.singleton_append]
      · rw [kept]
        exact hold.shown
      · rw [kept]
        exact fun tail => tail
    | removeAndContinue =>
      obtain ⟨removes, goes⟩ := Filter.removes_goes answer
      obtain ⟨outcome, ran, walked⟩ := @ih _ front (w.nodes.thread curs :: asked)
        (w.unlink front.getLast? curs) fuel cut less
      have kept : f.sieve.keptBy w.nodes.thread asked (curs :: rest) =
          f.sieve.keptBy w.nodes.thread (w.nodes.thread curs :: asked) rest := by
        simp only [Sieve.keptBy, removes, goes, Bool.false_eq_true, if_false, if_true]
      obtain ⟨asks, left, first, tail⟩ := walked
      rw [thread] at asks left tail
      refine ⟨outcome, ran, ?_, ?_, fun nonempty => ?_, fun ends => ?_⟩
      · rw [asks, List.map_cons, Sieve.asks, goes, List.reverse_cons, List.append_assoc]
        rfl
      · rw [kept]
        exact left
      · rw [first nonempty, Sifting.unlink_first nonempty]
      · rw [kept]
        exact tail (Sifting.unlink_tail hold ends)
    | removeAndStop =>
      obtain ⟨removes, halts⟩ := Filter.removes_halts answer
      have kept : f.sieve.keptBy w.nodes.thread asked (curs :: rest) = rest := by
        simp only [Sieve.keptBy, removes, halts, if_true]
      refine ⟨_, rfl, ?_, ?_, fun nonempty => ?_, fun ends => ?_⟩
      · simp only [List.map_cons, Sieve.asks, halts, if_true, List.reverse_singleton,
          List.singleton_append]
      · rw [kept]
        exact cut
      · exact Sifting.unlink_first nonempty
      · rw [kept]
        exact Sifting.unlink_tail hold ends

theorem Lifo.Holds.filter {q : Lifo} (holds : q.Holds tasks) (enough : tasks.length < fuel) :
    ∃ asked after, q.filter f fuel = some (asked, after) ∧ asked.reverse = f.sieve.asks [] tasks ∧
      after.Holds (f.sieve.kept [] tasks) := by
  obtain ⟨list, hold⟩ := holds
  have threads := hold.threads
  have short : list.length ≤ fuel := by
    rw [← List.length_map (f := q.nodes.thread), threads]
    exact Nat.le_of_lt enough
  have start : q.stack = list.head? := hold.chain.head
  obtain ⟨⟨asked, w⟩, ran, walked⟩ := @filterLoop_walked tasks [] list f []
    ⟨q.nodes, q.stack, none⟩ fuel hold short
  have asks := walked.asks
  have left := walked.hold
  simp only [List.nil_append, Sieve.keptBy_map, threads] at asks left
  refine ⟨asked, ⟨w.nodes, w.first⟩, ?_, ?_, _, left⟩
  · rw [Lifo.filter, start]
    rw [List.getLast?_nil, start] at ran
    rw [ran]
    rfl
  · rw [asks, List.append_nil, List.reverse_reverse]

theorem Fifo.Holds.filter {q : Fifo} (holds : q.Holds tasks) (enough : tasks.length < fuel) :
    ∃ asked after, q.filter f fuel = some (asked, after) ∧ asked.reverse = f.sieve.asks [] tasks ∧
      after.Holds (f.sieve.kept [] tasks) := by
  obtain ⟨old, list, hold, ends⟩ := holds
  have threads := hold.threads
  rw [List.map_cons, List.cons.injEq] at threads
  have short : list.length ≤ fuel := by
    rw [← List.length_map (f := q.nodes.thread), threads.2]
    exact Nat.le_of_lt enough
  have start : q.nodes.next q.head = list.head? := hold.tail.chain.head
  obtain ⟨⟨asked, w⟩, ran, walked⟩ := @filterLoop_walked (old :: tasks) [q.head] list f []
    ⟨q.nodes, some q.head, some q.tail⟩ fuel hold short
  have asks := walked.asks
  have left := walked.hold
  have first : w.first = some q.head := walked.first (List.cons_ne_nil _ _)
  have tail : w.tail = (q.head :: f.sieve.keptBy q.nodes.thread [] list).getLast? := walked.tail ends.symm
  simp only [List.singleton_append, List.map_cons, Sieve.keptBy_map, threads, first] at asks left
  rw [List.getLast?_singleton, ← start] at ran
  cases last : (q.head :: f.sieve.keptBy q.nodes.thread [] list).getLast? with
  | none => cases List.getLast?_eq_none_iff.mp last
  | some node =>
    rw [last] at tail
    refine ⟨asked, ⟨w.nodes, q.head, node⟩, ?_, ?_, old, _, left, last⟩
    · rw [Fifo.filter, ran]
      simp only [Option.bind_eq_bind, Option.bind_some, tail]
      rfl
    · rw [asks, List.append_nil, List.reverse_reverse]

namespace Nemesis

variable {q : Nemesis} {head tail : Option Node}

structure Draining (q : Nemesis) (head tail : Option Node) (front order : List Node) : Prop where
  done : q.nodes.Hold head (front.map q.nodes.thread) front
  rest : q.nodes.Hold (q.shadowHead.or q.head) (order.map q.nodes.thread) order
  last : tail = front.getLast?
  ends : q.tail = order.getLast?
  hidden : q.shadowHead ≠ none → q.head = none
  once : (front ++ order).Nodup

theorem takeSt_eq (rest : q.nodes.Hold (some curs) tasks (curs :: order))
    (ends : q.tail = (curs :: order).getLast?) :
    (q.takeSt curs).head = q.head ∧ (q.takeSt curs).shadowHead = order.head? ∧
      (q.takeSt curs).tail = order.getLast? ∧
      (q.takeSt curs).nodes = q.nodes.setNext curs none := by
  have next : q.nodes.next curs = order.head? := rest.chain.2.head
  cases order with
  | nil =>
    rw [List.head?_nil] at next
    have tail : q.tail = some curs := ends
    have same : q.nodes.setNext curs none = q.nodes := by
      rw [Nodes.setNext, ← next, update_eq_self]
    rw [takeSt, next, same]
    exact ⟨rfl, rfl, if_pos tail, rfl⟩
  | cons following others =>
    rw [List.head?_cons] at next
    rw [takeSt, next]
    rw [List.getLast?_cons_cons] at ends
    exact ⟨rfl, rfl, ends, rfl⟩

theorem Draining.take (draining : Draining q head tail front (curs :: order)) :
    ∃ after, q.dequeueSt = (some curs, after) ∧ Draining after head tail front order ∧
      after.head = none ∧ after.nodes.Hold (some curs) [q.nodes.thread curs] [curs] ∧
      after.nodes.thread = q.nodes.thread := by
  obtain ⟨done, rest, last, ends, hidden, once⟩ := draining
  obtain ⟨frontOnce, restOnce, apart⟩ := List.nodup_append.mp once
  have outside := (List.nodup_cons.mp restOnce).1
  have start := rest.chain.1
  have off : curs ∉ front := fun member => apart curs member curs List.mem_cons_self rfl
  have finish (before : Nemesis) (ran : q.dequeueSt = (some curs, before.takeSt curs))
      (nodes : before.nodes = q.nodes) (top : before.head = none) (tail_ : before.tail = q.tail) :
      ∃ after, q.dequeueSt = (some curs, after) ∧ Draining after head tail front order ∧
        after.head = none ∧ after.nodes.Hold (some curs) [q.nodes.thread curs] [curs] ∧
        after.nodes.thread = q.nodes.thread := by
    rw [start] at rest
    rw [← nodes] at rest
    obtain ⟨head', shadow', tail', nodes'⟩ := takeSt_eq rest (tail_.trans ends)
    rw [nodes] at rest nodes'
    have front' : (q.nodes.setNext curs none).Hold head (front.map q.nodes.thread) front :=
      done.setNext off
    have rest' : (q.nodes.setNext curs none).Hold (q.nodes.next curs)
        (order.map q.nodes.thread) order :=
      rest.tail.setNext outside
    have first : (order.head?).or none = q.nodes.next curs := by
      rw [Option.or_none]
      exact rest.chain.2.head.symm
    refine ⟨_, ran, ⟨?_, ?_, last, tail', fun _ => head'.trans top, ?_⟩, head'.trans top, ?_, ?_⟩
    · rw [nodes']
      exact front'
    · rw [nodes', shadow', head', top, first]
      exact rest'
    · exact List.nodup_append.mpr ⟨frontOnce, (List.nodup_cons.mp restOnce).2,
        fun a before b after => apart a before b (List.mem_cons_of_mem _ after)⟩
    · rw [nodes']
      refine ⟨⟨rfl, update_self ..⟩, List.nodup_singleton _, fun other member => ?_, rfl⟩
      rw [List.mem_singleton.mp member]
      exact rest.live curs List.mem_cons_self
    · rw [nodes']
      rfl
  cases shadow : q.shadowHead with
  | some retval =>
    rw [shadow] at start
    cases Option.some.inj start
    exact finish q (by rw [dequeueSt, shadow]) rfl (hidden (by rw [shadow]; nofun)) rfl
  | none =>
    rw [shadow, Option.none_or] at start
    exact finish q.adopt (by rw [dequeueSt, shadow, start]) rfl rfl rfl

theorem Draining.keep (draining : Draining q head tail front order)
    (alone : q.nodes.Hold (some curs) [t] [curs]) (outside : curs ∉ front ++ order) :
    let (nodes, head', tail') := putBack q.nodes head tail (some curs) (some curs)
    Draining { q with nodes } head' tail' (front ++ [curs]) order ∧ nodes.thread = q.nodes.thread := by
  obtain ⟨done, rest, last, ends, hidden, once⟩ := draining
  have off : curs ∉ front := fun member => outside (List.mem_append_left _ member)
  have apart := (List.nodup_append.mp once).2.2
  have longer : (front ++ [curs] ++ order).Nodup := by
    rw [List.append_assoc]
    refine List.nodup_middle.mpr (List.nodup_cons.mpr ⟨outside, once⟩)
  cases before : front.getLast? with
  | none =>
    have empty := List.getLast?_eq_none_iff.mp before
    subst empty
    rw [before] at last
    subst last
    exact ⟨⟨alone.shown, rest, rfl, ends, hidden, longer⟩, rfl⟩
  | some prev =>
    rw [before] at last
    subst last
    have prevIn := List.mem_of_getLast? before
    have prevOff : prev ∉ [curs] := fun member => off (List.mem_singleton.mp member ▸ prevIn)
    have prevRest : prev ∉ order := fun member => apart prev prevIn prev member rfl
    refine ⟨⟨?_, rest.setNext prevRest, (List.getLast?_concat ..).symm, ends, hidden, longer⟩, rfl⟩
    refine ⟨Chain.append.mpr ⟨some curs, done.chain.relink done.once before _, ?_⟩,
      (List.nodup_append.mp longer).1, ?_, rfl⟩
    · exact (alone.setNext prevOff).chain
    · intro other member
      rcases List.mem_append.mp member with early | single
      · exact done.live other early
      · exact alone.live other single

theorem Draining.drop (draining : Draining q head tail front order) (outside : curs ∉ front ++ order) :
    Draining { q with nodes := q.nodes.free curs } head tail front order := by
  have live : ∀ other ∈ front ++ order, (q.nodes.free curs).allocated other = q.nodes.allocated other := by
    intro other member
    refine update_of_ne ?_ ..
    rintro rfl
    exact outside member
  obtain ⟨done, rest, last, ends, hidden, once⟩ := draining
  refine ⟨⟨done.chain, done.once, fun other member => ?_, rfl⟩,
    ⟨rest.chain, rest.once, fun other member => ?_, rfl⟩, last, ends, hidden, once⟩
  · exact (live other (List.mem_append_left _ member)).trans (done.live other member)
  · exact (live other (List.mem_append_right _ member)).trans (rest.live other member)

theorem filterLoop_drained {fuel : Nat} (draining : Draining q head tail front order)
    (enough : order.length < fuel) : ∃ after head' tail' left,
    Nemesis.filterLoop f fuel asked q head tail =
      some ((f.sieve.asks asked (order.map q.nodes.thread)).reverse ++ asked, after, head', tail') ∧
    Draining after head' tail' (front ++ f.sieve.heldBy q.nodes.thread asked order) left ∧
    after.head = none ∧ after.nodes.thread = q.nodes.thread := by
  induction order generalizing q head tail front asked fuel with
  | nil =>
    obtain ⟨fuel, rfl⟩ := Nat.exists_eq_succ_of_ne_zero (Nat.ne_of_gt enough)
    have start : q.shadowHead.or q.head = none := draining.rest.chain
    have shadow : q.shadowHead = none := (Option.or_eq_none_iff.mp start).1
    have top : q.head = none := (Option.or_eq_none_iff.mp start).2
    refine ⟨q, head, tail, [], ?_, ?_, top, rfl⟩
    · rw [Nemesis.filterLoop, dequeueSt, shadow, top]
      rfl
    · rw [Sieve.heldBy, List.append_nil]
      exact draining
  | cons curs rest ih =>
    obtain ⟨fuel, rfl⟩ := Nat.exists_eq_succ_of_ne_zero (Nat.ne_of_gt (Nat.zero_lt_of_lt enough))
    have less : rest.length < fuel := Nat.lt_of_succ_lt_succ enough
    have outside : curs ∉ front ++ rest := (List.nodup_cons.mp (List.nodup_middle.mp draining.once)).1
    obtain ⟨after, taken, left, top, alone, thread⟩ := draining.take
    have kept := left.keep alone outside
    have dropped := left.drop outside
    rw [Nemesis.filterLoop, taken]
    simp only [thread]
    rcases put : putBack after.nodes head tail (some curs) (some curs) with ⟨nodes, head', tail'⟩
    rw [put] at kept
    obtain ⟨kept, same⟩ := kept
    rw [thread] at same
    cases answer : f asked (q.nodes.thread curs) with
    | ignoreAndContinue =>
      obtain ⟨keeps, goes⟩ := Filter.keeps_goes answer
      obtain ⟨last, head'', tail'', others, ran, drained, absent, thread'⟩ :=
        @ih _ (q.nodes.thread curs :: asked) _ _ _ fuel kept less
      simp only [same] at ran drained thread'
      refine ⟨last, head'', tail'', others, ?_, ?_, absent, thread'⟩
      · simp only [ran, List.map_cons, Sieve.asks, goes, Bool.false_eq_true, if_false,
          List.reverse_cons, List.append_assoc, List.singleton_append]
      · simp only [Sieve.heldBy, keeps, goes, Bool.false_eq_true, if_false]
        rw [List.append_assoc] at drained
        exact drained
    | ignoreAndStop =>
      obtain ⟨keeps, halts⟩ := Filter.keeps_halts answer
      refine ⟨{ after with nodes }, head', tail', rest, ?_, ?_, top, same⟩
      · simp only [List.map_cons, Sieve.asks, halts, if_true, List.reverse_singleton,
          List.singleton_append]
      · simp only [Sieve.heldBy, keeps, halts, Bool.false_eq_true, if_false, if_true]
        exact kept
    | removeAndContinue =>
      obtain ⟨removes, goes⟩ := Filter.removes_goes answer
      obtain ⟨last, head'', tail'', others, ran, drained, absent, thread'⟩ :=
        @ih _ (q.nodes.thread curs :: asked) _ _ _ fuel dropped less
      have freed : (after.nodes.free curs).thread = q.nodes.thread := thread
      simp only [freed] at ran drained thread'
      refine ⟨last, head'', tail'', others, ?_, ?_, absent, thread'⟩
      · simp only [ran, List.map_cons, Sieve.asks, goes, Bool.false_eq_true, if_false,
          List.reverse_cons, List.append_assoc, List.singleton_append]
      · simp only [Sieve.heldBy, removes, goes, Bool.false_eq_true, if_false, if_true]
        exact drained
    | removeAndStop =>
      obtain ⟨removes, halts⟩ := Filter.removes_halts answer
      refine ⟨{ after with nodes := after.nodes.free curs }, head, tail, rest, ?_, ?_, top, thread⟩
      · simp only [List.map_cons, Sieve.asks, halts, if_true, List.reverse_singleton,
          List.singleton_append]
      · simp only [Sieve.heldBy, removes, halts, if_true, List.append_nil]
        exact dropped

theorem Holds.filter {fuel : Nat} (holds : q.Holds tasks) (enough : tasks.length < fuel) :
    ∃ asked after, q.filter f fuel = some (asked, after) ∧ asked.reverse = f.sieve.asks [] tasks ∧
      after.Holds (f.sieve.heldBy id [] tasks) := by
  obtain ⟨list, hold, ends, hidden⟩ := holds
  have threads := hold.threads
  have short : list.length < fuel := by
    rw [← List.length_map (f := q.nodes.thread), threads]
    exact enough
  have start : Draining q none none [] list :=
    ⟨⟨rfl, List.nodup_nil, nofun, rfl⟩, hold.shown, rfl, ends, hidden, hold.once⟩
  obtain ⟨after, head, tail, left, ran, drained, top, thread⟩ :=
    @filterLoop_drained [] list f [] q none none fuel start short
  rw [List.append_nil] at ran
  refine ⟨(f.sieve.asks [] (list.map q.nodes.thread)).reverse,
    { after with head, tail, shadowHead := none }, ?_, ?_, ?_⟩
  · rw [Nemesis.filter, ran]
    simp only [Option.map_some, top]
  · rw [List.reverse_reverse, threads]
  · refine ⟨_, ?_, drained.last, fun never => absurd rfl never⟩
    have done := drained.done
    rw [List.nil_append, thread, Sieve.heldBy_map, threads] at done
    exact done

end Nemesis

def left (f : Filter Task) (tasks : List Task) : Kind → List Task
  | .nemesis => f.sieve.heldBy id [] tasks
  | _ => f.sieve.kept [] tasks

theorem Ready.Holds.filter {q : Ready} (holds : q.Holds kind tasks)
    (enough : tasks.length < fuel) : ∃ after,
      q.filter f fuel = some (f.sieve.asks [] tasks, after) ∧ after.Holds kind (left f tasks kind) := by
  match kind, q, holds with
  | .nemesis, .nemesis q, holds =>
    obtain ⟨asked, after, ran, asks, kept⟩ := Nemesis.Holds.filter holds enough
    exact ⟨.nemesis after, by rw [Ready.filter, ran, ← asks]; rfl, kept⟩
  | .lifo, .lifo q, holds =>
    obtain ⟨asked, after, ran, asks, kept⟩ := Lifo.Holds.filter holds enough
    exact ⟨.lifo after, by rw [Ready.filter, ran, ← asks]; rfl, kept⟩
  | .mutexfifo, .mutexfifo q, holds =>
    obtain ⟨asked, after, ran, asks, kept⟩ := Fifo.Holds.filter holds enough
    exact ⟨.mutexfifo after, by rw [Ready.filter, ran, ← asks]; rfl, kept⟩
  | .mtsfifo, .mtsfifo q, holds =>
    obtain ⟨asked, after, ran, asks, kept⟩ := Fifo.Holds.filter holds enough
    exact ⟨.mtsfifo after, by rw [Ready.filter, ran, ← asks]; rfl, kept⟩

theorem left_eq_kept_iff (f : Filter Task) (tasks : List Task) (kind : Kind) :
    left f tasks kind = f.sieve.kept [] tasks ↔ (kind = .nemesis → f.sieve.unasked [] tasks = []) := by
  cases kind with
  | nemesis =>
    rw [left, Sieve.kept_eq, List.self_eq_append_right]
    exact ⟨fun empty _ => empty, fun nothing => nothing rfl⟩
  | lifo => exact iff_of_true rfl nofun
  | mutexfifo => exact iff_of_true rfl nofun
  | mtsfifo => exact iff_of_true rfl nofun

/-- A filter of a queue that enqueues and dequeues have led to takes out exactly what it should,
but for a `NEMESIS` queue with tasks behind a stop. -/
theorem filters_iff_all_asked {labels : List (Call × Option Task)} {q : Ready}
    (run : Run Ready.Step (Ready.new nodes node t kind) labels q) : ∃ tasks,
    Run kind.Serves [] labels tasks ∧
      ∀ f : Filter Task, q.Filters kind tasks f ↔
        (kind = .nemesis → f.sieve.unasked [] tasks = []) := by
  obtain ⟨tasks, served, holds⟩ := (Ready.new_holds nodes node t kind).run run
  refine ⟨tasks, served, fun f => ?_⟩
  rw [← left_eq_kept_iff]
  constructor
  · intro filters
    obtain ⟨after, ran, behaves⟩ := filters (tasks.length + 1) (Nat.lt_succ_self _)
    obtain ⟨next, again, kept⟩ := @Ready.Holds.filter tasks kind f _ q holds (Nat.lt_succ_self _)
    cases Option.some.inj (ran.symm.trans again)
    exact kept.behaves.unique behaves
  · intro same fuel enough
    obtain ⟨after, ran, kept⟩ := @Ready.Holds.filter tasks kind f _ q holds enough
    exact ⟨after, ran, (same ▸ kept).behaves⟩

/-- A `NEMESIS` queue that one task was put into twice. -/
theorem filters_iff_all_asked_twice : ∃ q,
    Run Ready.Step (Ready.new unusedNodes 0 ⟨0, false, 0, none⟩ .nemesis)
      [(.enqueue ⟨1, false, 0, none⟩ 1, none), (.enqueue ⟨1, false, 0, none⟩ 2, none)] q ∧
      q.Filters .nemesis [⟨1, false, 0, none⟩, ⟨1, false, 0, none⟩] fun _ _ => .removeAndContinue := by
  obtain ⟨q, run⟩ : ∃ q, Run Ready.Step (Ready.new unusedNodes 0 ⟨0, false, 0, none⟩ .nemesis)
      [(.enqueue ⟨1, false, 0, none⟩ 1, none), (.enqueue ⟨1, false, 0, none⟩ 2, none)] q :=
    ⟨_, .cons ⟨rfl, 0, rfl⟩ <| .cons ⟨rfl, 0, rfl⟩ <| .nil _⟩
  obtain ⟨tasks, served, iff⟩ := filters_iff_all_asked run
  have queued : tasks = [⟨1, false, 0, none⟩, ⟨1, false, 0, none⟩] := by
    rcases served with _ | ⟨first, _ | ⟨second, _ | _⟩⟩
    cases (Prod.mk.inj first).2
    exact (Prod.mk.inj second).2.symm
  subst queued
  exact ⟨q, run, (iff _).mpr fun _ => rfl⟩

/-- The task behind a stop is lost. -/
theorem nemesis_forgets_behind_stop : ∃ q,
    Run Ready.Step (Ready.new unusedNodes 0 ⟨0, false, 0, none⟩ .nemesis)
      [(.enqueue ⟨1, false, 0, none⟩ 1, none), (.enqueue ⟨2, false, 0, none⟩ 2, none)] q ∧
      ¬ q.Filters .nemesis [⟨1, false, 0, none⟩, ⟨2, false, 0, none⟩] fun _ _ => .ignoreAndStop := by
  refine ⟨_, .cons ⟨rfl, 0, rfl⟩ <| .cons ⟨rfl, 0, rfl⟩ <| .nil _, fun filters => ?_⟩
  obtain ⟨after, ran, behaves⟩ := filters 3 (Nat.lt_succ_self _)
  cases Option.some.inj ran
  obtain ⟨⟨left, served⟩, -⟩ := behaves [(.dequeue, some ⟨1, false, 0, none⟩), (.dequeue, none)] _
    (.cons ⟨trivial, 0, rfl⟩ <| .cons ⟨trivial, 0, rfl⟩ <| .nil _)
  rcases served with _ | ⟨first, _ | ⟨second, _⟩⟩
  cases (Prod.mk.inj first).2
  cases (Prod.mk.inj second).1

end Qthreads.Tqueue
