import Qthreads.Sherwood.Conserve
import Qthreads.Sherwood.SpawnCache

namespace Qthreads.Sherwood

open Lib Links
open Function (update update_of_ne update_self update_eq_self update_apply update_idem)

variable {Q C H : Type} {s : State Q C H} {lists : Lists Q C H} {q : Q} {c : C} {node : Nat}

variable {queue : Queue} {nodes : List Nat} {heap : Heap}

theorem Queue.Shows.ended (shows : queue.Shows heap nodes) : queue.Ended heap := by
  constructor
  · intro last tail
    rw [shows.tail] at tail
    exact shows.linked.next_last tail
  · intro first head
    rw [shows.head] at head
    exact shows.linked.prev_first head

theorem Queue.Shows.shaped (shows : queue.Shows heap nodes) : queue.Shaped := by
  have qlength := shows.qlength
  have head := shows.head
  have tail := shows.tail
  match nodes with
  | [] => exact .inl ⟨head.trans tail.symm, by rw [qlength]; decide⟩
  | [node] => exact .inl ⟨head.trans tail.symm, by rw [qlength, List.length_singleton]; decide⟩
  | first :: second :: rest =>
    refine .inr ⟨by rw [head]; nofun, ?_, ?_⟩
    · rw [tail, List.getLast?_cons_cons, List.getLast?_cons]
      nofun
    · rw [qlength]
      simp only [List.length_cons]
      omega

theorem Queue.Shows.single (shows : queue.Shows heap nodes)
    (same : queue.head = queue.tail) : nodes = queue.tail.toList := by
  have once := shows.once
  rw [shows.head, shows.tail] at same
  rw [shows.tail]
  match nodes with
  | [] => rfl
  | [node] => rfl
  | first :: second :: rest =>
    rw [List.getLast?_cons_cons] at same
    exact absurd (List.mem_of_getLast? same.symm) (List.nodup_cons.mp once).1

namespace Holds

theorem deck_alone (holds : Holds s lists) (deck : (s.caches c).onDeck = some node) :
    lists (.deck c) = [node] ∧ s.heap.next node = none ∧ s.heap.prev node = none := by
  have decks : lists (.deck c) = [node] := by
    rw [holds.fields.decks c, deck]
    rfl
  have alone := holds.owned.linked (.deck c)
  rw [decks] at alone
  exact ⟨decks, alone.2.1, alone.1⟩

theorem wellFormed (holds : Holds s lists) (c : C) : s.WellFormed c where
  deck node deck := (holds.deck_alone deck).2
  list := by
    refine ⟨_, holds.cache c, ?_⟩
    intro node deck member
    have inDeck : node ∈ lists (.deck c) := by
      rw [(holds.deck_alone deck).1]
      exact List.mem_singleton.mpr rfl
    cases holds.owned.apart _ _ node member inDeck

end Holds

theorem not_wellFormed {last : Nat} (tail : (s.caches c).tail = some last)
    (linked : s.heap.next last ≠ none) : ¬ s.WellFormed c := by
  intro wellFormed
  obtain ⟨nodes, shows, -⟩ := wellFormed.list
  exact linked (shows.ended.1 last tail)

theorem Queue.Shows.frame {heap after : Heap} {nodes touched : List Nat}
    (shows : queue.Shows heap nodes) (frame : heap.Frame after touched)
    (apart : ∀ other ∈ nodes, other ∉ touched) : queue.Shows after nodes :=
  ⟨frame.stealable ▸ shows.toReads, frame.segment shows.linked apart, shows.once⟩

section

variable (holds : Holds s lists) (q : Q) (c : C)
include holds

theorem privateEnqueue_asserts {t : Task}
    (fresh : node ∉ s.heap.allocated) : (CacheOp.privateEnqueue t node).Asserts s q c := by
  obtain ⟨ready, loose, -⟩ := holds.alloc fresh t
  have frame : (s.heap.alloc node t).Frame
      (((s.heap.alloc node t).setNext node none).setPrev node none) [node] :=
    (Heap.Frame.setNext _ none List.mem_cons_self).trans (.setPrev _ none List.mem_cons_self)
  have away (place : Place Q C H) : ∀ other ∈ lists place, other ∉ [node] := by
    intro other member single
    cases List.mem_singleton.mp single
    exact loose.outside place member
  have shows := (ready.cache c).frame frame (away _)
  refine ⟨shows.shaped, shows.ended, fun tmp deck => ⟨fun present absent => present ?_, ?_⟩⟩
  · rw [shows.tail, List.getLast?_eq_none_iff] at absent
    rw [shows.head, absent]
    rfl
  · intro after queue linked
    obtain ⟨decks, -, -⟩ := ready.deck_alone deck
    have alone := ready.owned.linked (.deck c)
    have once : (lists (.cache c) ++ lists (.deck c)).Nodup := ready.owned.disjoint nofun
    rw [decks] at alone once
    have stays : ∀ other ∈ [tmp], other ∉ [node] := by
      rw [← decks]
      exact away _
    have ends : [tmp].getLast? = some tmp := rfl
    obtain ⟨heap, more, ran, -, joined⟩ :=
      linkAtTail_shows shows (frame.segment alone stays) once rfl ends
    cases Option.some.inj (ran.symm.trans linked)
    exact joined.ended

theorem privateEnqueueYielded_asserts {t : Task}
    (fresh : node ∉ s.heap.allocated) : (CacheOp.privateEnqueueYielded t node).Asserts s q c := by
  obtain ⟨ready, loose, -⟩ := holds.alloc fresh t
  have frame : (s.heap.alloc node t).Frame ((s.heap.alloc node t).setPrev node none) [node] :=
    .setPrev _ none List.mem_cons_self
  have shows := (ready.cache c).frame frame fun other member single =>
    loose.outside _ (List.mem_singleton.mp single ▸ member)
  refine ⟨shows.shaped, shows.ended, fun present absent => present ?_, ?_⟩
  · rw [shows.head, List.head?_eq_none_iff] at absent
    rw [shows.tail, absent]
    rfl
  · intro after queue linked
    obtain ⟨heap, more, ran, -, joined⟩ :=
      enqueueYielded_shows (ready.cache c) (loose.outside (.cache c))
    cases Option.some.inj (ran.symm.trans linked)
    exact joined.ended

theorem enqueueCache_asserts
    (suits : (s.caches c).onDeck ≠ none) : CacheOp.enqueueCache.Asserts s q c := by
  have shows := holds.cache c
  refine ⟨suits, ?_, fun first deck => ?_⟩
  · by_cases empty : lists (.cache c) = []
    · left
      rw [shows.head, empty]
      rfl
    · exact .inr (mt (qlength_zero shows).mp empty)
  · obtain ⟨decks, next, prev⟩ := holds.deck_alone deck
    have firstIn : first ∈ lists (.deck c) := by
      rw [decks]
      exact List.mem_singleton.mpr rfl
    have outside (other : Nat) (member : other ∈ lists (.cache c)) : first ≠ other := by
      rintro rfl
      cases holds.owned.apart _ _ first member firstIn
    split
    · intro head last starts ends
      rw [shows.head] at starts
      rw [shows.tail] at ends
      have lastDiffers := outside last (List.mem_of_getLast? ends)
      have headDiffers := outside head (mem_head starts)
      constructor
      · exact (update_of_ne lastDiffers.symm _ _).trans (shows.linked.next_last ends)
      · exact (update_of_ne headDiffers _ _).trans prev
    · exact ⟨next, prev⟩

theorem flush_asserts : CacheOp.flush.Asserts s q c := by
  intro node deck
  have shows := holds.cache c
  have queued := holds.queue q
  have once : (lists (.queue q) ++ lists (.cache c)).Nodup := holds.owned.disjoint nofun
  obtain ⟨-, -, apart⟩ := List.nodup_append.mp once
  refine ⟨shows.ended, (holds.deck_alone deck).2.1, (holds.deck_alone deck).2.2, ?_⟩
  intro _ first last head tail
  have starts := shows.head.symm.trans head
  have ends := shows.tail.symm.trans tail
  refine ⟨shows.linked.next_last ends, shows.linked.prev_first starts, ?_, ?_, ?_⟩
  · intro same
    exact apart first (mem_head (queued.head.symm.trans same)) first (mem_head starts) rfl
  · intro same
    exact apart last (List.mem_of_getLast? (queued.tail.symm.trans same)) last
      (List.mem_of_getLast? ends) rfl
  · intro after queue linked
    obtain ⟨heap, more, ran, -, joined⟩ := linkAtTail_shows queued shows.linked once starts ends
    cases Option.some.inj (ran.symm.trans linked)
    exact joined.ended

end

theorem refillDeck_broken (holds : Holds s lists) (several : (s.caches c).head ≠ (s.caches c).tail) :
    ∃ last, (refillDeck s.heap (s.caches c)).2.tail = some last ∧
      (refillDeck s.heap (s.caches c)).1.next last ≠ none := by
  have shows := holds.cache c
  rcases List.eq_nil_or_concat (lists (.cache c)) with empty | ⟨rest, n, whole⟩
  · refine absurd ?_ several
    rw [shows.head, shows.tail, empty]
    rfl
  · rw [List.concat_eq_append] at whole
    rw [whole] at shows
    have tail : (s.caches c).tail = some n := by
      rw [shows.tail, List.getLast?_append]
      rfl
    obtain ⟨early, prev, -, -⟩ := Segment.append.mp shows.linked
    simp only [refillDeck, tail, pullTail]
    cases before : rest.getLast? with
    | none =>
      rw [List.getLast?_eq_none_iff.mp before] at shows
      exact absurd (shows.head.trans tail.symm) several
    | some last =>
      rw [before] at prev
      refine ⟨last, prev, ?_⟩
      have next := early.next_last before
      show s.heap.next last ≠ none
      rw [next]
      nofun

theorem Holds.deck_empty (holds : Holds s lists) :
    (s.caches c).onDeck = none ↔ s.tasks (.deck c) = [] := by
  rw [holds.tasks_eq, deques, holds.fields.decks c]
  cases (s.caches c).onDeck with
  | none => exact ⟨fun _ => rfl, fun _ => rfl⟩
  | some node => exact ⟨by rintro ⟨⟩, by rintro ⟨⟩⟩

variable [DecidableEq Q] [DecidableEq C] [DecidableEq H]

theorem refillDeck_holds (holds : Holds s lists) (single : (s.caches c).head = (s.caches c).tail) :
    Holds (s.setCache (refillDeck s.heap (s.caches c)).1 c (refillDeck s.heap (s.caches c)).2)
        (update (update lists (.cache c) []) (.deck c) (lists (.cache c))) ∧
      (refillDeck s.heap (s.caches c)).1.value = s.heap.value ∧
      ∀ node ∈ lists (.deck c), Loose (refillDeck s.heap (s.caches c)).1
        (update (update lists (.cache c) []) (.deck c) (lists (.cache c))) node := by
  have shows := holds.cache c
  have nodes := shows.single single
  obtain ⟨bare, freed⟩ := Op.cached_loose holds.owned c
  have finish (left : Heap) (cache : Cache) (frame : s.heap.Frame left (lists (.cache c)))
      (linked : left.toLinks.Segment none (lists (.cache c)) none)
      (reads : cache.Reads s.heap.stealable [])
      (onDeck : cache.onDeck.toList = lists (.cache c)) :
      Holds (s.setCache left c cache) (update (update lists (.cache c) []) (.deck c)
          (lists (.cache c))) ∧
        left.value = s.heap.value ∧
        ∀ node ∈ lists (.deck c), Loose left (update (update lists (.cache c) [])
          (.deck c) (lists (.cache c))) node := by
    have source : ∀ other ∈ lists (.cache c),
        other ∈ update (update lists (.cache c) []) (.deck c) [] (.deck c) ∨
          Loose s.heap (update (update lists (.cache c) []) (.deck c) []) other :=
      fun other member => .inr (freed other (.inl member))
    have owned := bare.replace frame source linked (holds.owned.once _) source
    rw [update_idem] at owned
    refine ⟨⟨owned, ?_⟩, frame.value, ?_⟩
    · have fields := holds.fields.setCache (c := c) reads left
      rw [onDeck] at fields
      exact frame.stealable ▸ fields
    · intro node member
      have outside : node ∉ lists (.cache c) := by
        intro inside
        cases holds.owned.apart _ _ node inside member
      have loose := ((freed node (.inr member)).frame frame).update (.deck c) outside
      rw [update_idem] at loose
      exact loose
  cases tail : (s.caches c).tail with
  | none =>
    rw [tail] at nodes
    rw [refillDeck, tail]
    rw [nodes, Option.toList_none] at finish shows ⊢
    exact finish _ { (s.caches c) with onDeck := none } (.refl _ _) trivial
      ⟨shows.head, shows.tail, shows.qlength, shows.qlengthStealable⟩ rfl
  | some n =>
    rw [tail] at nodes single
    rw [refillDeck, tail]
    rw [nodes, Option.toList_some] at finish shows ⊢
    refine finish _ _ (.setPrev _ _ (List.mem_singleton.mpr rfl))
      ⟨update_self .., shows.linked.2.1, trivial⟩ ⟨?_, shows.linked.1, ?_, ?_⟩ rfl
    · exact if_pos single
    · show (s.caches c).qlength + -1 = 0
      rw [shows.qlength]
      rfl
    · show (s.caches c).qlengthStealable + -s.heap.weight n = 0
      rw [shows.qlengthStealable, weight_eq]
      omega

def CacheOp.Acts (before : Place Q C H → List Task) (q : Q) (c : C) :
    CacheOp → Option Task → (Place Q C H → List Task) → Prop
  | privateEnqueue t node => (Op.privateEnqueue c t node).Acts before
  | privateEnqueueYielded t node => (Op.privateEnqueueYielded c t node).Acts before
  | privateDequeue => fun result after =>
    (before (.deck c) = [] ∧ result = none ∧ after = before) ∨
      ∃ t, before (.deck c) = [t] ∧ result = some t ∧
        after = update (update before (.cache c) []) (.deck c) (before (.cache c))
  | enqueueCache => (Op.enqueueCache q c).Acts before
  | flush => fun result after =>
    (before (.deck c) = [] ∧ result = none ∧ after = before) ∨
      ∃ t, before (.deck c) = [t] ∧ result = some t ∧
        after = update (update (update before (.cache c) []) (.deck c) [])
          (.queue q) (before (.queue q) ++ before (.cache c))

theorem CacheOp.step {op : CacheOp} (holds : Holds s lists) (fresh : op.Fresh s)
    (suits : op.Suits s c) :
    op.Asserts s q c ∧ ∃ result after lists', op.apply s q c = some (result, after) ∧
      Holds after lists' ∧ op.Acts s.tasks q c result after.tasks := by
  have refined {op : Op Q C H} (refines : op.Refines s lists) :
      ∃ result after lists', op.apply s = some (result, after) ∧ Holds after lists' ∧
        op.Acts s.tasks result after.tasks := by
    obtain ⟨result, after, lists', ran, kept, acts⟩ := refines
    rw [← holds.tasks_eq, ← kept.tasks_eq] at acts
    exact ⟨result, after, lists', ran, kept, acts⟩
  cases op with
  | privateEnqueue t node =>
    exact ⟨privateEnqueue_asserts holds q c fresh, refined (Op.privateEnqueue_refines holds c t fresh)⟩
  | privateEnqueueYielded t node =>
    exact ⟨privateEnqueueYielded_asserts holds q c fresh,
      refined (Op.privateEnqueueYielded_refines holds c t fresh)⟩
  | privateDequeue =>
    refine ⟨trivial, ?_⟩
    cases deck : (s.caches c).onDeck with
    | none =>
      have same : s.setCache s.heap c (s.caches c) = s := by
        simp only [State.setCache, update_eq_self]
      refine ⟨none, s, lists, ?_, holds, .inl ⟨holds.deck_empty.mp deck, rfl, rfl⟩⟩
      simp only [apply, Sherwood.privateDequeue, deck, same]
    | some node =>
      have refilled := refillDeck_holds holds (suits (by rw [deck]; rintro ⟨⟩))
      rcases ran : refillDeck s.heap (s.caches c) with ⟨left, cache⟩
      rw [ran] at refilled
      obtain ⟨kept, value, freed⟩ := refilled
      obtain ⟨decks, -, -⟩ := holds.deck_alone deck
      have loose := freed node (by rw [decks]; exact List.mem_singleton.mpr rfl)
      refine ⟨some (left.value node), _, _, ?_, take_holds kept loose,
        .inr ⟨s.heap.value node, ?_, ?_, ?_⟩⟩
      · simp only [apply, Sherwood.privateDequeue, deck, ran]
        rfl
      · rw [holds.tasks_eq, deques, decks]
        rfl
      · exact congrArg (fun value => some (value node)) value
      · rw [(take_holds kept loose).tasks_eq, holds.tasks_eq]
        refine (deques_update _ _ _ value).trans ?_
        rw [deques_update _ _ _ rfl]
        rfl
  | enqueueCache =>
    exact ⟨enqueueCache_asserts holds q c suits, refined (Op.enqueueCache_refines holds q c suits)⟩
  | flush =>
    refine ⟨flush_asserts holds q c, ?_⟩
    by_cases deck : (s.caches c).onDeck = none
    · exact ⟨none, s, lists, if_pos deck, holds, .inl ⟨holds.deck_empty.mp deck, rfl, rfl⟩⟩
    · obtain ⟨result, after, lists', ran, kept, acts⟩ := refined (Op.getThread_refines holds q (some c))
      refine ⟨result, after, lists', (if_neg deck).trans ran, kept, .inr ?_⟩
      rcases acts with ⟨d, t, same, there, returned, moved⟩ | ⟨off, -⟩
      · cases same
        exact ⟨t, there, returned, moved⟩
      · exact absurd (holds.deck_empty.mpr (off c rfl)) deck

namespace Spawning

variable {config before after last : Spawning Q C H} {queued : List Task} {ops : List CacheOp}

structure Sound (q : Q) (c : C) (queued : List Task) (config : Spawning Q C H) : Prop
    extends config.Accounted q c queued where
  holds : ∃ lists, Holds config.state lists

variable {op : CacheOp}

theorem Accounted.step {result : Option Task} {state : State Q C H}
    (accounted : before.Accounted q c queued)
    (acts : op.Acts before.state.tasks q c result state.tasks)
    (deckBefore : (before.state.caches c).onDeck = none ↔ before.state.tasks (.deck c) = [])
    (deckAfter : (state.caches c).onDeck = none ↔ state.tasks (.deck c) = []) :
    (⟨state, before.spawned + op.spawned, before.yielded + op.yielded,
      before.returned + result.toList⟩ : Spawning Q C H).Accounted q c queued := by
  obtain ⟨all, waiting⟩ := accounted
  rw [deckBefore] at waiting
  cases op with
  | privateEnqueue t node =>
    obtain ⟨rfl, moved⟩ := acts
    have queue := congrFun moved (.queue q)
    have deck := congrFun moved (.deck c)
    have cache := congrFun moved (.cache c)
    simp only [update_apply, reduceCtorEq, if_true, if_false] at queue deck cache
    constructor
    · simp only [CacheOp.spawned, CacheOp.yielded, Option.toList_none, queue, deck, cache,
        ← Multiset.coe_add, Multiset.coe_singleton, Multiset.coe_nil]
      calc before.spawned + {t} + (before.yielded + 0) + queued
          = before.spawned + before.yielded + queued + {t} := by abel
        _ = _ := by rw [all]; abel
    · intro off
      rw [deckAfter, deck] at off
      cases off
  | privateEnqueueYielded t node =>
    obtain ⟨rfl, moved⟩ := acts
    have queue := congrFun moved (.queue q)
    have deck := congrFun moved (.deck c)
    have cache := congrFun moved (.cache c)
    simp only [update_apply, reduceCtorEq, if_true, if_false] at queue deck cache
    constructor
    · simp only [CacheOp.spawned, CacheOp.yielded, Option.toList_none, queue, deck, cache,
        ← Multiset.cons_coe, Multiset.coe_nil, ← Multiset.singleton_add]
      calc before.spawned + 0 + (before.yielded + {t}) + queued
          = before.spawned + before.yielded + queued + {t} := by abel
        _ = _ := by rw [all]; abel
    · intro off
      rw [deckAfter, deck] at off
      simp only [CacheOp.yielded, cache, ← Multiset.cons_coe, ← Multiset.singleton_add]
      rw [add_comm]
      exact add_le_add_left (waiting off) _
  | privateDequeue =>
    rcases acts with ⟨-, rfl, same⟩ | ⟨t, there, rfl, moved⟩
    · constructor
      · simp only [CacheOp.spawned, CacheOp.yielded, Option.toList_none, same, add_zero,
          Multiset.coe_nil]
        exact all
      · intro off
        rw [deckAfter, same] at off
        simp only [CacheOp.yielded, same, add_zero]
        exact waiting off
    · have queue := congrFun moved (.queue q)
      have deck := congrFun moved (.deck c)
      have cache := congrFun moved (.cache c)
      simp only [update_apply, reduceCtorEq, if_true, if_false] at queue deck cache
      constructor
      · simp only [CacheOp.spawned, CacheOp.yielded, Option.toList_some, queue, deck, cache,
          there, add_zero, Multiset.coe_singleton, Multiset.coe_nil] at all ⊢
        rw [all]
        abel
      · intro _
        simp only [cache, Multiset.coe_nil]
        exact Multiset.zero_le _
  | enqueueCache =>
    obtain ⟨rfl, moved⟩ := acts
    have queue := congrFun moved (.queue q)
    have deck := congrFun moved (.deck c)
    have cache := congrFun moved (.cache c)
    simp only [update_apply, reduceCtorEq, if_true, if_false] at queue deck cache
    constructor
    · simp only [CacheOp.spawned, CacheOp.yielded, Option.toList_none, queue, deck, cache,
        ← Multiset.coe_add, add_zero, Multiset.coe_nil]
      exact all
    · intro _
      simp only [cache, Multiset.coe_nil]
      exact Multiset.zero_le _
  | flush =>
    rcases acts with ⟨-, rfl, same⟩ | ⟨t, there, rfl, moved⟩
    · constructor
      · simp only [CacheOp.spawned, CacheOp.yielded, Option.toList_none, same, add_zero,
          Multiset.coe_nil]
        exact all
      · intro off
        rw [deckAfter, same] at off
        simp only [CacheOp.yielded, same, add_zero]
        exact waiting off
    · have queue := congrFun moved (.queue q)
      have deck := congrFun moved (.deck c)
      have cache := congrFun moved (.cache c)
      simp only [update_apply, reduceCtorEq, if_true, if_false] at queue deck cache
      constructor
      · simp only [CacheOp.spawned, CacheOp.yielded, Option.toList_some, queue, deck, cache,
          there, ← Multiset.coe_add, add_zero, Multiset.coe_singleton, Multiset.coe_nil] at all ⊢
        rw [all]
        abel
      · intro _
        simp only [cache, Multiset.coe_nil]
        exact Multiset.zero_le _

theorem Sound.step (sound : before.Sound q c queued) (fresh : op.Fresh before.state)
    (suits : op.Suits before.state c) :
    op.Asserts before.state q c ∧ ∃ after, Step q c before op after ∧ after.Sound q c queued ∧
      ∀ other, Step q c before op other → other = after := by
  obtain ⟨lists, holds⟩ := sound.holds
  obtain ⟨asserts, result, state, lists', ran, kept, acts⟩ := CacheOp.step (q := q) holds fresh suits
  refine ⟨asserts, _, ⟨fresh, result, state, ran, rfl⟩,
    ⟨sound.toAccounted.step acts holds.deck_empty kept.deck_empty, lists', kept⟩, ?_⟩
  rintro other ⟨-, another, left, again, rfl⟩
  cases Option.some.inj (ran.symm.trans again)
  rfl

theorem Sound.suits (sound : before.Sound q c queued)
    (asserts : op.Asserts before.state q c) (step : Step q c before op after)
    (wellFormed : after.state.WellFormed c) : op.Suits before.state c := by
  obtain ⟨lists, holds⟩ := sound.holds
  obtain ⟨-, result, state, ran, rfl⟩ := step
  cases op with
  | privateEnqueue t node => trivial
  | privateEnqueueYielded t node => trivial
  | privateDequeue =>
    intro present
    obtain ⟨node, deck⟩ := Option.ne_none_iff_exists'.mp present
    by_contra several
    obtain ⟨last, tail, linked⟩ := refillDeck_broken holds several
    have fields : (state.caches c).tail = (refillDeck before.state.heap (before.state.caches c)).2.tail ∧
        state.heap.next = (refillDeck before.state.heap (before.state.caches c)).1.next := by
      simp only [CacheOp.apply, privateDequeue, deck, State.take, Option.some.injEq, Prod.mk.injEq] at ran
      rw [← ran.2]
      simp only [State.setCache, update_self, Heap.free, and_self]
    exact not_wellFormed (fields.1.trans tail) (fields.2 ▸ linked) wellFormed
  | enqueueCache => exact asserts.1
  | flush => trivial

theorem Sound.run
    (run : Run (Guarded (fun config op => op.Suits config.state c) (Step q c)) before ops last)
    (sound : before.Sound q c queued) : last.Sound q c queued := by
  refine run.preserves ?_ sound
  rintro first op next sound ⟨suits, step⟩
  obtain ⟨-, after, -, kept, only⟩ := sound.step step.1 suits
  exact only next step ▸ kept

/-- As long as every call suits it, a worker's cache is well formed and every task in it accounted
for; and from then on a call holds its assertions and leaves the cache well formed exactly when it
suits it. -/
theorem wellFormed_iff_suits {lists : Lists Q C H} (holds : Holds s lists)
    (blank : s.caches c = ⟨.new, none⟩)
    (run : Run (Guarded (fun config op => op.Suits config.state c) (Step q c)) (start s) ops last) :
    last.state.WellFormed c ∧ last.Accounted q c (s.tasks (.queue q)) ∧
      ∀ op : CacheOp, op.Fresh last.state →
        ((op.Asserts last.state q c ∧ ∃ next, Step q c last op next ∧ next.state.WellFormed c) ↔
          op.Suits last.state c) := by
  have deck : s.tasks (.deck c) = [] := holds.deck_empty.mp (by rw [blank])
  have cached : s.tasks (.cache c) = [] := by
    have shows := holds.cache c
    rw [holds.tasks_eq, deques, (qlength_zero shows).mp (by rw [blank]; rfl)]
    rfl
  have first : (start s).Sound q c (s.tasks (.queue q)) := by
    refine ⟨⟨?_, fun _ => ?_⟩, lists, holds⟩
    · simp only [start, deck, cached, add_zero, zero_add, Multiset.coe_nil]
    · simp only [start, cached, Multiset.coe_nil]
      exact Multiset.zero_le _
  have sound := first.run run
  obtain ⟨lists', kept⟩ := sound.holds
  refine ⟨kept.wellFormed c, sound.toAccounted, fun op fresh => ⟨?_, fun suits => ?_⟩⟩
  · rintro ⟨asserts, next, step, wellFormed⟩
    exact sound.suits asserts step wellFormed
  · obtain ⟨asserts, next, step, after, -⟩ := sound.step fresh suits
    obtain ⟨nextLists, nextHolds⟩ := after.holds
    exact ⟨asserts, next, step, nextHolds.wellFormed c⟩

def fresh : State Unit Unit Unit := (Config.initial Sherwood.blank).state

theorem wellFormed_iff_suits_two : ∃ last : Spawning Unit Unit Unit, last.state.WellFormed () ∧
    last.Accounted () () [] ∧ last.returned = {⟨2, false, 102⟩} := by
  have run : ∃ last, Run (Guarded (fun config op => op.Suits config.state ()) (Step () ()))
      (start fresh) [.privateEnqueue ⟨1, false, 101⟩ 0, .privateEnqueue ⟨2, false, 102⟩ 1,
        .privateDequeue] last ∧ last.returned = {⟨2, false, 102⟩} :=
    ⟨_, .cons ⟨trivial, List.not_mem_nil, _, _, rfl, rfl⟩ <|
      .cons ⟨trivial, (by decide : 1 ∉ [0]), _, _, rfl, rfl⟩ <|
      .cons ⟨fun _ => rfl, trivial, _, _, rfl, rfl⟩ <| .nil _, rfl⟩
  obtain ⟨last, run, returned⟩ := run
  obtain ⟨wellFormed, accounted, -⟩ :=
    wellFormed_iff_suits (Config.initial_holds Sherwood.blank) rfl run
  exact ⟨last, wellFormed, accounted, returned⟩

/-- With two tasks behind the one on deck, a dequeue leaves a list whose tail has a neighbour, and
the next spawn fails its assertion. -/
theorem pulled_tail_linked : ∃ last : Spawning Unit Unit Unit,
    Run (Step () ()) (start fresh) [.privateEnqueue ⟨1, false, 101⟩ 0,
      .privateEnqueue ⟨2, false, 102⟩ 1, .privateEnqueue ⟨3, false, 103⟩ 2, .privateDequeue] last ∧
    ¬ last.state.WellFormed () ∧
      ¬ (CacheOp.privateEnqueue ⟨4, false, 104⟩ 2).Asserts last.state () () := by
  refine ⟨_, .cons ⟨List.not_mem_nil, _, _, rfl, rfl⟩ <|
    .cons ⟨(by decide : 1 ∉ [0]), _, _, rfl, rfl⟩ <|
    .cons ⟨(by decide : 2 ∉ [1, 0]), _, _, rfl, rfl⟩ <|
    .cons ⟨trivial, _, _, rfl, rfl⟩ <| .nil _, ?_, ?_⟩
  · refine not_wellFormed (rfl : _ = some 0) ?_
    exact nofun
  · rintro ⟨-, ended, -⟩
    exact Option.some_ne_none 1 (ended.1 0 rfl)

end Spawning

end Qthreads.Sherwood
