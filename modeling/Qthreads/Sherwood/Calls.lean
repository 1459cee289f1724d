import Qthreads.Sherwood.Steal

namespace Qthreads.Sherwood

open Lib Links

variable {heap : Heap} {q : Queue} {c : Cache} {nodes others : List Nat} {node : Nat} {t : Task}

theorem nodup_snoc (once : nodes.Nodup) (outside : node ∉ nodes) : (nodes ++ [node]).Nodup := by
  refine List.nodup_append.mpr ⟨once, List.nodup_singleton _, ?_⟩
  rintro a member b single rfl
  cases List.mem_singleton.mp single
  exact outside member

theorem enqueue_shows (shows : q.Shows (heap.alloc node t) nodes) (outside : node ∉ nodes) :
    ∃ after queue, enqueue heap q node t = some (after, queue) ∧
      (heap.alloc node t).Frame after (nodes ++ [node]) ∧ queue.Shows after (nodes ++ [node]) := by
  have nodeIn : node ∈ nodes ++ [node] := List.mem_append_right _ (List.mem_singleton.mpr rfl)
  have alone : ((heap.alloc node t).setNext node none).toLinks.Segment (heap.prev node) [node] none :=
    ⟨rfl, Function.update_self .., trivial⟩
  have ready : q.Shows ((heap.alloc node t).setNext node none) nodes :=
    ⟨shows.toReads, shows.linked.setNext_other outside _, shows.once⟩
  have ends : [node].getLast? = some node := rfl
  obtain ⟨after, queue, ran, frame, linked⟩ :=
    linkAtTail_shows ready alone (nodup_snoc shows.once outside) rfl ends
  refine ⟨after, queue.counted 1 (after.weight node), ?_,
    (Heap.Frame.setNext _ none nodeIn).trans frame, ?_⟩
  · simp only [enqueue, ran, Option.bind_eq_bind, Option.bind_some]
    rfl
  · rw [weight_eq, frame.stealable]
    exact linked

theorem enqueueYielded_shows (shows : q.Shows (heap.alloc node t) nodes) (outside : node ∉ nodes) :
    ∃ after queue, enqueueYielded heap q node t = some (after, queue) ∧
      (heap.alloc node t).Frame after (node :: nodes) ∧ queue.Shows after (node :: nodes) := by
  obtain ⟨after, queue, ran, frame, linked⟩ := linkAtHead_shows shows outside
  refine ⟨after, queue.counted 1 (after.weight node), ?_, frame, ?_⟩
  · simp only [enqueueYielded, ran, Option.bind_eq_bind, Option.bind_some]
    rfl
  · rw [weight_eq, frame.stealable, ← weight_eq]
    exact linked

theorem lengths_pos {list : List Nat} (nonempty : list ≠ []) :
    ∃ first last, list.head? = some first ∧ list.getLast? = some last := by
  cases list with
  | nil => exact absurd rfl nonempty
  | cons start rest => exact ⟨start, _, rfl, List.getLast?_eq_some_getLast (List.cons_ne_nil _ _)⟩

theorem qlength_zero (shows : q.Shows heap nodes) : q.qlength = 0 ↔ nodes = [] := by
  rw [shows.qlength, ← List.length_eq_zero_iff]
  omega

theorem new_shows (heap : Heap) : Queue.new.Shows heap [] :=
  ⟨⟨rfl, rfl, rfl, rfl⟩, trivial, List.nodup_nil⟩

theorem privateEnqueue_shows (cached : c.toQueue.Shows (heap.alloc node t) others)
    (deck : (heap.alloc node t).toLinks.Segment none c.onDeck.toList none)
    (once : (node :: (others ++ c.onDeck.toList)).Nodup) :
    ∃ after cache, privateEnqueue heap c node t = some (after, cache) ∧
      (heap.alloc node t).Frame after (node :: (others ++ c.onDeck.toList)) ∧
      cache.toQueue.Shows after (others ++ c.onDeck.toList) ∧ cache.onDeck = some node ∧
      after.toLinks.Segment none [node] none := by
  obtain ⟨outside, onceRest⟩ := List.nodup_cons.mp once
  have start : (heap.alloc node t).Frame
      (((heap.alloc node t).setNext node none).setPrev node none) [node] :=
    (Heap.Frame.setNext _ none List.mem_cons_self).trans (.setPrev _ none List.mem_cons_self)
  have alone : (((heap.alloc node t).setNext node none).setPrev node none).toLinks.Segment none
      [node] none := ⟨Function.update_self .., Function.update_self .., trivial⟩
  have away : ∀ other ∈ others ++ c.onDeck.toList, other ∉ [node] := by
    intro other member single
    cases List.mem_singleton.mp single
    exact outside member
  have ready : c.toQueue.Shows (((heap.alloc node t).setNext node none).setPrev node none) others :=
    ⟨cached.toReads, start.segment cached.linked fun other member =>
      away other (List.mem_append_left _ member), cached.once⟩
  have within : [node] ⊆ node :: (others ++ c.onDeck.toList) :=
    List.cons_subset_cons _ (List.nil_subset _)
  cases onDeck : c.onDeck with
  | none =>
    rw [onDeck] at within
    refine ⟨_, { c with onDeck := some node }, by simp only [privateEnqueue, onDeck],
      start.mono within, ?_, rfl, alone⟩
    simpa only [Option.toList_none, List.append_nil] using ready
  | some tmp =>
    simp only [onDeck, Option.toList_some] at deck onceRest away within outside
    have deck := start.segment deck fun other member =>
      away other (List.mem_append_right _ member)
    have ends : [tmp].getLast? = some tmp := rfl
    obtain ⟨after, queue, ran, frame, linked⟩ := linkAtTail_shows ready deck onceRest rfl ends
    refine ⟨after, ⟨queue.counted 1 (after.weight tmp), some node⟩, ?_,
      (start.mono within).trans (frame.mono (List.subset_cons_self _ _)), ?_, rfl, ?_⟩
    · simp only [privateEnqueue, onDeck, ran, Option.map_some]
    · rw [weight_eq, frame.stealable]
      exact linked
    · refine frame.segment alone fun other single member => ?_
      cases List.mem_singleton.mp single
      exact outside member

structure Pushed (heap after : Heap) (queue : Queue) (cache : Cache) (nodes others : List Nat) :
    Prop where
  frame : heap.Frame after (nodes ++ others)
  queue : queue.Shows after (nodes ++ others)
  cache : cache.toQueue.Shows after []

section

variable (shows : q.Shows heap nodes)
include shows

theorem pushCache_shows (cached : c.toQueue.Shows heap others) (once : (nodes ++ others).Nodup) :
    ∃ after queue cache, pushCache heap q c = some (after, queue, cache) ∧
      Pushed heap after queue cache nodes others ∧ cache.onDeck = c.onDeck := by
  by_cases empty : others = []
  · subst empty
    have less : ¬ 0 < c.qlength := by
      rw [(qlength_zero cached).mpr rfl]
      exact Int.lt_irrefl 0
    refine ⟨heap, q, c, by simp only [pushCache, if_neg less], ⟨.refl heap _, ?_, cached⟩, rfl⟩
    rw [List.append_nil]
    exact shows
  · have pos : 0 < c.qlength := by
      have positive := mt (qlength_zero cached).mp empty
      rw [cached.qlength] at positive ⊢
      omega
    obtain ⟨first, last, starts, ends⟩ := lengths_pos empty
    have head : c.head = some first := cached.head.trans starts
    have tail : c.tail = some last := cached.tail.trans ends
    obtain ⟨after, queue, ran, frame, linked⟩ :=
      linkAtTail_shows shows cached.linked once starts ends
    refine ⟨after, queue.counted c.qlength c.qlengthStealable, ⟨.new, c.onDeck⟩, ?_,
      ⟨frame, ?_, new_shows after⟩, rfl⟩
    · simp only [pushCache, if_pos pos, head, tail, ran, Option.bind_eq_bind, Option.bind_some]
      rfl
    · rw [cached.qlength, cached.qlengthStealable]
      exact linked

theorem enqueueCache_shows (cached : c.toQueue.Shows heap others)
    (deck : c.onDeck = some node) (alone : heap.toLinks.Segment none [node] none)
    (once : (nodes ++ (node :: others)).Nodup) :
    ∃ after queue cache, enqueueCache heap q c = some (after, queue, cache) ∧
      Pushed heap after queue cache nodes (node :: others) ∧ cache.onDeck = none := by
  obtain ⟨nodesOnce, othersOnce, apart⟩ := List.nodup_append.mp once
  have outside : node ∉ nodes := fun member => apart node member node List.mem_cons_self rfl
  have nodeIn : node ∈ nodes ++ node :: others := List.mem_append_right _ List.mem_cons_self
  have finish : ∀ middle last, heap.Frame middle (nodes ++ node :: others) →
      q.Shows middle nodes → middle.toLinks.Segment none (node :: others) none →
      (node :: others).getLast? = some last →
      enqueueCache heap q c = (linkAtTail middle q node last).map (fun linked =>
        (linked.1, linked.2.counted (c.qlength + 1) (c.qlengthStealable + heap.weight node),
          ⟨.new, none⟩)) →
      ∃ after queue cache, enqueueCache heap q c = some (after, queue, cache) ∧
        Pushed heap after queue cache nodes (node :: others) ∧ cache.onDeck = none := by
    intro middle last frame ready linked ends equal
    obtain ⟨after, queue, ran, linkFrame, joined⟩ := linkAtTail_shows ready linked once rfl ends
    refine ⟨after, queue.counted (c.qlength + 1) (c.qlengthStealable + heap.weight node),
      ⟨.new, none⟩, by rw [equal, ran]; rfl, ⟨frame.trans linkFrame, ?_, new_shows after⟩, rfl⟩
    have lengths : c.qlength + 1 = (node :: others).length := by
      rw [cached.qlength, List.length_cons]
      rfl
    have counts : c.qlengthStealable + heap.weight node =
        (node :: others).countP middle.stealable := by
      rw [cached.qlengthStealable, weight_eq, frame.stealable,
        show node :: others = [node] ++ others from rfl, List.countP_append, Int.natCast_add,
        Int.add_comm]
    rw [lengths, counts]
    exact joined
  by_cases empty : others = []
  · subst empty
    have zero : ¬ c.qlength ≠ 0 := not_not.mpr ((qlength_zero cached).mpr rfl)
    have head : c.head = none := cached.head
    refine finish (heap.setNext node none) node (.setNext heap _ nodeIn)
      ⟨shows.toReads, shows.linked.setNext_other outside _, nodesOnce⟩
      (alone.setNext_last (List.nodup_singleton _) rfl none) rfl ?_
    simp only [enqueueCache, deck, if_neg zero, Option.bind_eq_bind, Option.bind_some, head]
    cases linkAtTail (heap.setNext node none) q node node <;> rfl
  · obtain ⟨first, last, starts, ends⟩ := lengths_pos empty
    have nonzero : c.qlength ≠ 0 := mt (qlength_zero cached).mp empty
    have head : c.head = some first := cached.head.trans starts
    have tail : c.tail = some last := cached.tail.trans ends
    have firstIn : first ∈ others := mem_head starts
    have firstOutside : first ∉ nodes := fun member =>
      apart first member first (List.mem_cons_of_mem _ firstIn) rfl
    have ends : (node :: others).getLast? = some last := by
      rw [List.getLast?_cons, ends]
      rfl
    refine finish (((heap.setNext node (some first)).setPrev first (some node)).setNext node
      (some first)) last ?_ ?_ ?_ ends ?_
    · exact ((Heap.Frame.setNext heap _ nodeIn).trans
        (.setPrev _ _ (List.mem_append_right _ (List.mem_cons_of_mem _ firstIn)))).trans
        (.setNext _ _ nodeIn)
    · exact ⟨shows.toReads, ((shows.linked.setNext_other outside _).setPrev_other firstOutside
        _).setNext_other outside _, nodesOnce⟩
    · have joined := alone.join cached.linked othersOnce rfl starts
      refine joined.congr fun other _ => ?_
      by_cases same : other = node
      · subst same
        exact ⟨by simp [Heap.setNext, Heap.setPrev, Links.setNext], rfl⟩
      · exact ⟨by simp [Heap.setNext, Heap.setPrev, Links.setNext, Links.setPrev, same], rfl⟩
    · simp only [enqueueCache, deck, if_pos nonzero, head, tail, Option.bind_eq_bind,
        Option.bind_some]
      cases linkAtTail _ q node last <;> rfl

theorem enqueueMultiple_shows {left : Option Nat} {first : Nat}
    (linked : heap.toLinks.Segment left (first :: others) none)
    (once : (nodes ++ first :: others).Nodup) (enough : others.length < heap.fuel)
    (booty : ∀ node ∈ first :: others, heap.stealable node = true) :
    ∃ after queue, enqueueMultiple heap q first = some (after, queue) ∧
      heap.Frame after (nodes ++ first :: others) ∧
      queue.Shows after (nodes ++ first :: others) := by
  obtain ⟨nodesOnce, othersOnce, apart⟩ := List.nodup_append.mp once
  obtain ⟨last, ends, counted⟩ : ∃ last, (first :: others).getLast? = some last ∧
      lastOf heap heap.fuel first 1 = some (last, 1 + (others.length : Int)) := lastOf_eq linked enough
  have lastIn : last ∈ first :: others := List.mem_of_getLast? ends
  have outside : last ∉ nodes := fun member => apart last member last lastIn rfl
  have ready : q.Shows (heap.setNext last none) nodes :=
    ⟨shows.toReads, shows.linked.setNext_other outside _, nodesOnce⟩
  obtain ⟨after, queue, ran, frame, joined⟩ :=
    linkAtTail_shows ready (linked.setNext_last othersOnce ends none) once rfl ends
  refine ⟨after, queue.counted (1 + others.length) (1 + others.length), ?_,
    (Heap.Frame.setNext heap none (List.mem_append_right _ lastIn)).trans frame, ?_⟩
  · simp only [enqueueMultiple, counted, ran, Option.bind_eq_bind, Option.bind_some]
    rfl
  · have all : (first :: others).countP heap.stealable = (first :: others).length :=
      List.countP_eq_length.mpr booty
    have lengths : (1 + others.length : Int) = (first :: others).length := by
      rw [List.length_cons]
      omega
    have marks : (heap.setNext last none).stealable = heap.stealable := rfl
    rw [marks, all] at joined
    rw [lengths]
    exact joined

theorem dequeueSpecific_shows (enough : nodes.length < heap.fuel) (value : Nat) :
    dequeueSpecific heap q value = some (none, heap, q) ∧
        (∀ node ∈ nodes, (heap.value node).ret ≠ value) ∨
      ∃ front node back after queue, nodes = front ++ [node] ++ back ∧
        (heap.value node).ret = value ∧ (∀ later ∈ back, (heap.value later).ret ≠ value) ∧
        dequeueSpecific heap q value = some (some node, after, queue) ∧
        heap.Frame after nodes ∧ queue.Shows after (front ++ back ++ [node]) := by
  by_cases empty : nodes = []
  · subst empty
    have less : ¬ 0 < q.qlength := by
      rw [(qlength_zero shows).mpr rfl]
      exact Int.lt_irrefl 0
    exact .inl ⟨by simp only [dequeueSpecific, if_neg less], nofun⟩
  · have pos : 0 < q.qlength := by
      have positive := mt (qlength_zero shows).mp empty
      rw [shows.qlength] at positive ⊢
      omega
    rcases findTask_eq value shows.linked enough with
      ⟨ran, absent⟩ | ⟨front, node, back, rfl, same, later, ran⟩
    · rw [← shows.tail] at ran
      exact .inl ⟨by simp only [dequeueSpecific, if_pos pos, ran], absent⟩
    · right
      have atTail : (front ++ [node] ++ back).getLast? = some node ↔ back.head? = none :=
        tail_last shows.once rfl
      rw [← shows.tail] at ran atTail
      by_cases last : back = []
      · subst last
        have tail : q.tail = some node := atTail.mpr rfl
        refine ⟨front, node, [], heap, q, rfl, same, nofun, ?_, .refl heap _, ?_⟩
        · simp only [dequeueSpecific, if_pos pos, ran, if_pos tail]
        · simpa only [List.append_nil] using shows
      · have inner : ¬ q.tail = some node := by
          rw [atTail, List.head?_eq_none_iff]
          exact last
        obtain ⟨after, queue, moved, frame, linked⟩ := moveToTail_shows shows last
        refine ⟨front, node, back, after, queue, rfl, same, later, ?_, frame, linked⟩
        simp only [dequeueSpecific, if_pos pos, ran, if_neg inner, moved, Option.map_some]

end

end Qthreads.Sherwood
