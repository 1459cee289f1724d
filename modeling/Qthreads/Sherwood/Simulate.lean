import Qthreads.Sherwood.Refine

namespace Qthreads.Sherwood

open Lib Links
open Function (update update_of_ne update_self update_eq_self update_idem update_comm update_eq_self_iff)

variable {Q C H : Type}

variable {stealable other : Nat → Bool}

theorem Queue.Reads.congr {q : Queue} {nodes : List Nat}
    (reads : q.Reads stealable nodes) (same : ∀ node ∈ nodes, other node = stealable node) :
    q.Reads other nodes := by
  refine ⟨reads.head, reads.tail, reads.qlength, ?_⟩
  rw [reads.qlengthStealable]
  congr 1
  exact List.countP_congr fun node member => by rw [same node member]

theorem Fields.congr {s after : State Q C H} {lists : Lists Q C H}
    (fields : Fields stealable s lists)
    (same : ∀ place, ∀ node ∈ lists place, other node = stealable node)
    (queues : after.queues = s.queues) (caches : after.caches = s.caches)
    (stolen : after.stolen = s.stolen) : Fields other after lists where
  queues q := by
    rw [queues]
    exact (fields.queues q).congr (same _)
  caches c := by
    rw [caches]
    exact (fields.caches c).congr (same _)
  decks c := by
    rw [caches]
    exact fields.decks c
  stolen thief := by
    rw [stolen]
    exact fields.stolen thief
  booty thief node member := by
    rw [same _ node member]
    exact fields.booty thief node member

namespace Holds

variable {s : State Q C H} {lists : Lists Q C H} {node : Nat}

theorem alloc (holds : Holds s lists) (fresh : node ∉ s.heap.allocated) (t : Task) :
    Holds { s with heap := s.heap.alloc node t } lists ∧
      Loose (s.heap.alloc node t) lists node ∧
      deques (s.heap.alloc node t) lists = deques s.heap lists := by
  obtain ⟨owned, loose⟩ := holds.owned.alloc fresh t
  have differs : ∀ place, ∀ other ∈ lists place, other ≠ node := by
    rintro place other member rfl
    exact fresh (holds.owned.live place other member)
  refine ⟨⟨owned, ?_⟩, loose, ?_⟩
  · refine holds.fields.congr ?_ rfl rfl rfl
    intro place other member
    exact update_of_ne (differs place other member) ..
  · funext place
    refine List.map_congr_left ?_
    intro other member
    exact update_of_ne (differs place other member) ..

end Holds

theorem mem_loose {heap : Heap} {lists : Lists Q C H} {list : List Nat} {node : Nat}
    (loose : Loose heap lists node) :
    ∀ other ∈ node :: list, other ∈ list ∨ Loose heap lists other := by
  intro other member
  rcases List.mem_cons.mp member with rfl | old
  · exact .inr loose
  · exact .inl old

theorem take_holds {s : State Q C H} {lists : Lists Q C H} {node : Nat} (holds : Holds s lists)
    (loose : Loose s.heap lists node) :
    Holds (s.take node).2 lists :=
  ⟨holds.owned.free loose.outside, holds.fields.congr (fun _ _ _ => rfl) rfl rfl rfl⟩

variable [DecidableEq Q] [DecidableEq C] [DecidableEq H]

namespace Holds

variable {s : State Q C H} {lists : Lists Q C H} {node : Nat} {after : Heap} {queue : Queue}
  {touched nodes : List Nat}

theorem requeue (holds : Holds s lists) {q : Q} (frame : s.heap.Frame after touched)
    (touches : ∀ node ∈ touched, node ∈ lists (.queue q) ∨ Loose s.heap lists node)
    (shows : queue.Shows after nodes)
    (source : ∀ node ∈ nodes, node ∈ lists (.queue q) ∨ Loose s.heap lists node) :
    Holds (s.setQueue after q queue) (update lists (.queue q) nodes) where
  owned := holds.owned.replace frame touches shows.linked shows.once source
  fields := by
    have reads : queue.Reads s.heap.stealable nodes := frame.stealable ▸ shows.toReads
    exact frame.stealable ▸ holds.fields.setQueue reads after

theorem recache (holds : Holds s lists) {c : C} (frame : s.heap.Frame after touched)
    (touches : ∀ node ∈ touched, node ∈ lists (.cache c) ∨ Loose s.heap lists node)
    (shows : queue.Shows after nodes)
    (source : ∀ node ∈ nodes, node ∈ lists (.cache c) ∨ Loose s.heap lists node) :
    Holds (s.setCache after c ⟨queue, (s.caches c).onDeck⟩)
      (update lists (.cache c) nodes) where
  owned := holds.owned.replace frame touches shows.linked shows.once source
  fields := by
    have reads : queue.Reads s.heap.stealable nodes := frame.stealable ▸ shows.toReads
    have deck : update (update lists (.cache c) nodes) (.deck c)
        (s.caches c).onDeck.toList = update lists (.cache c) nodes := by
      have elsewhere : Place.deck c ≠ (Place.cache c : Place Q C H) := nofun
      rw [update_eq_self_iff, update_of_ne elsewhere]
      exact (holds.fields.decks c).symm
    have fields : Fields s.heap.stealable (s.setCache after c ⟨queue, (s.caches c).onDeck⟩)
        (update (update lists (.cache c) nodes) (.deck c)
          (s.caches c).onDeck.toList) := holds.fields.setCache reads after
    rw [deck] at fields
    exact frame.stealable ▸ fields

end Holds

namespace Op

variable {s : State Q C H} {lists : Lists Q C H} {node : Nat}

theorem enqueue_refines (holds : Holds s lists) (q : Q) (t : Task)
    (fresh : node ∉ s.heap.allocated) : (Op.enqueue q t node : Op Q C H).Refines s lists := by
  obtain ⟨ready, loose, same⟩ := holds.alloc fresh t
  obtain ⟨after, queue, ran, frame, shows⟩ :=
    enqueue_shows (ready.queue q) (loose.outside (.queue q))
  have source : ∀ other ∈ lists (.queue q) ++ [node], other ∈ lists (.queue q) ∨
      Loose (s.heap.alloc node t) lists other := by
    intro other member
    rcases List.mem_append.mp member with old | new
    · exact .inl old
    · cases List.mem_singleton.mp new
      exact .inr loose
  refine ⟨none, s.setQueue after q queue, _, ?_, ready.requeue frame source shows source, rfl, ?_⟩
  · rw [Op.apply, ran]
    rfl
  · have value : (s.heap.alloc node t).value node = t := update_self ..
    rw [← same]
    refine (deques_update lists (.queue q) _ frame.value).trans ?_
    rw [List.map_append, List.map_singleton, value]
    rfl

theorem enqueueYielded_refines (holds : Holds s lists) (q : Q) (t : Task)
    (fresh : node ∉ s.heap.allocated) :
    (Op.enqueueYielded q t node : Op Q C H).Refines s lists := by
  obtain ⟨ready, loose, same⟩ := holds.alloc fresh t
  obtain ⟨after, queue, ran, frame, shows⟩ :=
    enqueueYielded_shows (ready.queue q) (loose.outside (.queue q))
  refine ⟨none, s.setQueue after q queue, _, ?_,
    ready.requeue frame (mem_loose loose) shows (mem_loose loose), rfl, ?_⟩
  · rw [Op.apply, ran]
    rfl
  · have value : (s.heap.alloc node t).value node = t := update_self ..
    rw [← same]
    refine (deques_update lists (.queue q) _ frame.value).trans ?_
    rw [List.map_cons, value]
    rfl

theorem privateEnqueueYielded_refines (holds : Holds s lists) (c : C) (t : Task)
    (fresh : node ∉ s.heap.allocated) :
    (Op.privateEnqueueYielded c t node : Op Q C H).Refines s lists := by
  obtain ⟨ready, loose, same⟩ := holds.alloc fresh t
  obtain ⟨after, queue, ran, frame, shows⟩ :=
    enqueueYielded_shows (ready.cache c) (loose.outside (.cache c))
  refine ⟨none, s.setCache after c ⟨queue, (s.caches c).onDeck⟩, _, ?_,
    ready.recache frame (mem_loose loose) shows (mem_loose loose), rfl, ?_⟩
  · rw [Op.apply, ran]
    rfl
  · have value : (s.heap.alloc node t).value node = t := update_self ..
    rw [← same]
    refine (deques_update lists (.cache c) _ frame.value).trans ?_
    rw [List.map_cons, value]
    rfl

theorem privateEnqueue_refines (holds : Holds s lists) (c : C) (t : Task)
    (fresh : node ∉ s.heap.allocated) :
    (Op.privateEnqueue c t node : Op Q C H).Refines s lists := by
  obtain ⟨ready, loose, same⟩ := holds.alloc fresh t
  have value : (s.heap.alloc node t).value node = t := update_self ..
  have decks := holds.fields.decks c
  have apart : Place.cache c ≠ (Place.deck c : Place Q C H) := nofun
  have once : (node :: (lists (.cache c) ++ (s.caches c).onDeck.toList)).Nodup := by
    rw [← decks]
    refine List.nodup_cons.mpr ⟨?_, List.nodup_append.mpr
      ⟨ready.owned.once _, ready.owned.once _, ?_⟩⟩
    · intro member
      rcases List.mem_append.mp member with cached | deck
      · exact loose.outside _ cached
      · exact loose.outside _ deck
    · rintro a cached b deck rfl
      exact apart (ready.owned.apart _ _ a cached deck)
  obtain ⟨after, cache, ran, frame, shows, onDeck, alone⟩ :=
    privateEnqueue_shows (ready.cache c) (decks ▸ ready.owned.linked (.deck c)) once
  obtain ⟨emptied, freed⟩ := ready.owned.empty (.deck c)
  have source : ∀ other ∈ node :: (lists (.cache c) ++ (s.caches c).onDeck.toList),
      other ∈ update lists (.deck c) [] (.cache c) ∨
        Loose (s.heap.alloc node t) (update lists (.deck c) []) other := by
    intro other member
    rw [update_of_ne apart]
    rcases List.mem_cons.mp member with rfl | old
    · exact .inr (loose.update _ List.not_mem_nil)
    · rcases List.mem_append.mp old with cached | deck
      · exact .inl cached
      · exact .inr (freed other (decks ▸ deck))
  have moved := emptied.replace frame source shows.linked shows.once
    (fun other member => source other (List.mem_cons_of_mem _ member))
  have still : Loose after (update (update lists (.deck c) []) (.cache c)
      (lists (.cache c) ++ (s.caches c).onDeck.toList)) node :=
    ((loose.update _ List.not_mem_nil).frame frame).update _ (List.nodup_cons.mp once).1
  have placed : Owned after (update (update (update lists (.deck c) [])
      (.cache c) (lists (.cache c) ++ (s.caches c).onDeck.toList)) (.deck c) [node]) :=
    moved.replace (.refl after []) nofun alone (List.nodup_singleton _)
      fun other member => .inr (List.mem_singleton.mp member ▸ still)
  rw [update_comm apart.symm, update_idem] at placed
  refine ⟨none, s.setCache after c cache, _, ?_, ⟨placed, ?_⟩, rfl, ?_⟩
  · rw [Op.apply, ran]
    rfl
  · have reads : cache.Reads (s.heap.alloc node t).stealable
        (lists (.cache c) ++ (s.caches c).onDeck.toList) := frame.stealable ▸ shows.toReads
    have set := ready.fields.setCache (c := c) reads after
    rw [onDeck] at set
    exact frame.stealable ▸ set
  · rw [← same]
    refine (deques_update _ (.deck c) _ frame.value).trans ?_
    rw [deques_update lists (.cache c) _ rfl, List.map_singleton, value, List.map_append, ← decks]
    rfl

theorem cached_loose (owned : Owned s.heap lists) (c : C) :
    Owned s.heap (update (update lists (.cache c) []) (.deck c) []) ∧
      ∀ node, node ∈ lists (.cache c) ∨ node ∈ lists (.deck c) →
        Loose s.heap (update (update lists (.cache c) []) (.deck c) []) node := by
  have apart : Place.deck c ≠ (Place.cache c : Place Q C H) := nofun
  obtain ⟨emptied, freed⟩ := owned.empty (.cache c)
  obtain ⟨bare, more⟩ := emptied.empty (.deck c)
  refine ⟨bare, ?_⟩
  rintro node (cached | deck)
  · exact (freed node cached).update _ List.not_mem_nil
  · exact more node (by rw [update_of_ne apart]; exact deck)

theorem Pushed.holds {q : Q} {c : C} {after : Heap} {queue : Queue} {cache : Cache}
    {moved : List Nat} (holds : Holds s lists)
    (pushed : Pushed s.heap after queue cache (lists (.queue q)) moved)
    (from_ : ∀ node ∈ moved, node ∈ lists (.cache c) ∨ node ∈ lists (.deck c))
    (deck : cache.onDeck = none) :
    Holds ((s.setQueue after q queue).setCache after c cache)
      (update (update (update lists (.cache c) []) (.deck c) [])
        (.queue q) (lists (.queue q) ++ moved)) := by
  obtain ⟨bare, freed⟩ := cached_loose holds.owned c
  have queued : update (update lists (.cache c) []) (.deck c) [] (.queue q) =
      lists (.queue q) := by
    have noDeck : Place.queue q ≠ (Place.deck c : Place Q C H) := nofun
    have noCache : Place.queue q ≠ (Place.cache c : Place Q C H) := nofun
    rw [update_of_ne noDeck, update_of_ne noCache]
  have source : ∀ node ∈ lists (.queue q) ++ moved,
      node ∈ update (update lists (.cache c) []) (.deck c) [] (.queue q) ∨
        Loose s.heap (update (update lists (.cache c) []) (.deck c) []) node := by
    intro node member
    rw [queued]
    rcases List.mem_append.mp member with old | new
    · exact .inl old
    · exact .inr (freed node (from_ node new))
  refine ⟨bare.replace pushed.frame source pushed.queue.linked pushed.queue.once source, ?_⟩
  have cacheReads : cache.Reads s.heap.stealable [] := pushed.frame.stealable ▸ pushed.cache.toReads
  have queueReads : queue.Reads s.heap.stealable (lists (.queue q) ++ moved) :=
    pushed.frame.stealable ▸ pushed.queue.toReads
  have fields := (holds.fields.setCache (c := c) cacheReads after).setQueue (q := q) queueReads after
  rw [deck] at fields
  exact pushed.frame.stealable ▸ fields

theorem deques_pushed {q : Q} {c : C} {after : Heap} (value : after.value = s.heap.value)
    (moved : List Nat) :
    deques after (update (update (update lists (.cache c) [])
        (.deck c) []) (.queue q) (lists (.queue q) ++ moved)) =
      update (update (update (deques s.heap lists) (.cache c) [])
        (.deck c) []) (.queue q) (deques s.heap lists (.queue q) ++ moved.map s.heap.value) := by
  rw [deques_update _ _ _ value, deques_update _ _ _ rfl, deques_update _ _ _ rfl, List.map_append]
  rfl

theorem enqueueCache_refines (holds : Holds s lists) (q : Q) (c : C)
    (deck : (s.caches c).onDeck ≠ none) : (Op.enqueueCache q c : Op Q C H).Refines s lists := by
  obtain ⟨node, onDeck⟩ := Option.ne_none_iff_exists'.mp deck
  have decks : lists (.deck c) = [node] := by
    rw [holds.fields.decks c, onDeck]
    rfl
  have alone := holds.owned.linked (.deck c)
  rw [decks] at alone
  have once : (lists (.queue q) ++ (lists (.deck c) ++ lists (.cache c))).Nodup := by
    refine List.nodup_append.mpr ⟨holds.owned.once _, holds.owned.disjoint nofun, ?_⟩
    rintro a queued b member rfl
    rcases List.mem_append.mp member with deck | cached
    · cases holds.owned.apart _ _ a queued deck
    · cases holds.owned.apart _ _ a queued cached
  rw [decks] at once
  obtain ⟨after, queue, cache, ran, pushed, off⟩ :=
    enqueueCache_shows (holds.queue q) (holds.cache c) onDeck alone once
  refine ⟨none, (s.setQueue after q queue).setCache after c cache, _, ?_,
    Pushed.holds holds pushed ?_ off, rfl, ?_⟩
  · rw [Op.apply, ran]
    rfl
  · intro other member
    rw [decks]
    rcases List.mem_cons.mp member with rfl | cached
    · exact .inr (List.mem_singleton.mpr rfl)
    · exact .inl cached
  · refine (deques_pushed pushed.frame.value _).trans ?_
    simp only [deques, decks, List.map_cons, List.map_nil, List.singleton_append]

theorem dequeue_refines (holds : Holds s lists) (q : Q) {qc : Option C}
    (off : ∀ c, qc = some c → (s.caches c).onDeck = none)
    (ran : ∀ node heap queue, dequeue s.heap (s.queues q) = (node, heap, queue) →
      (Op.getThread q qc : Op Q C H).apply s = some (match node with
        | none => (none, s.setQueue heap q queue)
        | some node => (s.setQueue heap q queue).take node)) :
    (Op.getThread q qc : Op Q C H).Refines s lists := by
  have decks : ∀ c, qc = some c → deques s.heap lists (.deck c) = [] := by
    intro c same
    rw [deques, holds.fields.decks c, off c same]
    rfl
  have shows := holds.queue q
  rcases List.eq_nil_or_concat (lists (.queue q)) with empty | ⟨rest, node, whole⟩
  · rw [empty] at shows
    refine ⟨none, _, lists, ran _ _ _ (dequeue_empty shows), ?_, .inr ⟨decks, .inl ⟨?_, rfl, rfl⟩⟩⟩
    · have same : s.setQueue s.heap q (s.queues q) = s := by
        simp only [State.setQueue, update_eq_self]
      rw [same]
      exact holds
    · rw [deques, empty]
      rfl
  · rw [List.concat_eq_append] at whole
    rw [whole] at shows
    obtain ⟨after, queue, dequeued, frame, left⟩ := dequeue_shows shows
    obtain ⟨-, -, apart⟩ := List.nodup_append.mp shows.once
    have fewer : rest ⊆ lists (.queue q) := by
      rw [whole]
      exact List.subset_append_left _ _
    obtain ⟨owned, freed⟩ := holds.owned.drop fewer left.once (whole ▸ frame) left.linked
    have loose : Loose after (update lists (.queue q) rest) node := by
      refine freed node ?_ fun member =>
        apart node member node (List.mem_singleton.mpr rfl) rfl
      rw [whole]
      exact List.mem_append_right _ (List.mem_singleton.mpr rfl)
    have reads : queue.Reads s.heap.stealable rest := frame.stealable ▸ left.toReads
    have kept : Holds (s.setQueue after q queue) (update lists (.queue q) rest) :=
      ⟨owned, frame.stealable ▸ holds.fields.setQueue reads after⟩
    refine ⟨some (s.heap.value node), _, _, ?_, take_holds kept loose,
      .inr ⟨decks, .inr ⟨rest.map s.heap.value, s.heap.value node, ?_, rfl, ?_⟩⟩⟩
    · rw [ran _ _ _ dequeued]
      simp only [State.take, State.setQueue, frame.value]
    · rw [deques, whole, List.map_append]
      rfl
    · exact deques_update lists (.queue q) rest frame.value

theorem getThread_refines (holds : Holds s lists) (q : Q) (qc : Option C) :
    (Op.getThread q qc : Op Q C H).Refines s lists := by
  cases qc with
  | none =>
    refine dequeue_refines holds q (by rintro _ ⟨⟩) ?_
    intro node heap queue dequeued
    cases node <;>
      simp only [Op.apply, Option.map_none, Sherwood.getThread, dequeued, Option.map_some]
  | some c =>
    cases deck : (s.caches c).onDeck with
    | none =>
      refine dequeue_refines holds q (fun other same => by cases same; exact deck) ?_
      intro node heap queue dequeued
      have same : (s.setQueue heap q queue).setCache heap c (s.caches c) =
          s.setQueue heap q queue := by
        simp only [State.setCache, State.setQueue, update_eq_self]
      cases node <;>
        simp only [Op.apply, Option.map_some, Sherwood.getThread, deck, dequeued, same]
    | some node =>
      have decks : lists (.deck c) = [node] := by
        rw [holds.fields.decks c, deck]
        rfl
      have cached : Queue.Shows s.heap { (s.caches c) with onDeck := none }.toQueue
          (lists (.cache c)) := holds.cache c
      have once : (lists (.queue q) ++ lists (.cache c)).Nodup := holds.owned.disjoint
        (by rintro ⟨⟩)
      obtain ⟨after, queue, cache, ran, pushed, off⟩ :=
        pushCache_shows (holds.queue q) cached once
      have kept := Pushed.holds holds pushed (fun _ member => .inl member) off
      have loose : Loose after (update (update (update lists
          (.cache c) []) (.deck c) []) (.queue q) (lists (.queue q) ++ lists (.cache c))) node := by
        have nodeIn : node ∈ lists (.deck c) := by
          rw [decks]
          exact List.mem_singleton.mpr rfl
        refine (((cached_loose holds.owned c).2 node (.inr nodeIn)).frame pushed.frame).update _ ?_
        intro member
        rcases List.mem_append.mp member with queued | cached
        · cases holds.owned.apart _ _ node queued nodeIn
        · cases holds.owned.apart _ _ node cached nodeIn
      refine ⟨some (s.heap.value node), _, _, ?_, take_holds kept loose,
        .inl ⟨c, s.heap.value node, rfl, ?_, rfl, ?_⟩⟩
      · simp only [Op.apply, Option.map_some, Sherwood.getThread, deck, ran, State.take,
          State.setCache, State.setQueue, pushed.frame.value]
      · rw [deques, decks]
        rfl
      · exact deques_pushed pushed.frame.value _

theorem takeStolen_refines (holds : Holds s lists) (thief : H)
    (legal : ∃ node, s.stolen thief = some node ∧ s.heap.next node = none) :
    (Op.takeStolen thief : Op Q C H).Refines s lists := by
  obtain ⟨node, held, last⟩ := legal
  have single : lists (.stolen thief) = [node] := by
    have head := holds.fields.stolen thief
    rw [held] at head
    have linked := holds.owned.linked (.stolen thief)
    cases list : lists (.stolen thief) with
    | nil =>
      rw [list] at head
      cases head
    | cons first rest =>
      rw [list] at head linked
      cases head
      have next := linked.2.1
      rw [last, Option.or_none] at next
      rw [List.head?_eq_none_iff.mp next.symm]
  obtain ⟨owned, freed⟩ := holds.owned.empty (.stolen thief)
  have loose := freed node (by rw [single]; exact List.mem_singleton.mpr rfl)
  have fields : Fields s.heap.stealable (s.setStolen thief ([] : List Nat).head?)
      (update lists (.stolen thief) []) := holds.fields.setStolen thief nofun
  have kept : Holds (s.setStolen thief none) (update lists (.stolen thief) []) :=
    ⟨owned, fields⟩
  refine ⟨some (s.heap.value node), _, _, ?_, take_holds kept loose, s.heap.value node, ?_, rfl, ?_⟩
  · simp only [Op.apply, held, Option.map_some]
    rfl
  · rw [deques, single]
    rfl
  · exact deques_update lists (.stolen thief) [] rfl

theorem dequeueSpecific_refines (holds : Holds s lists) (q : Q) (value : Nat) :
    (Op.dequeueSpecific q value : Op Q C H).Refines s lists := by
  rcases dequeueSpecific_shows (holds.queue q) (holds.owned.fuel _) value with
    ⟨ran, absent⟩ | ⟨front, node, back, after, queue, whole, found, later, ran, frame, shows⟩
  · refine ⟨none, s.setQueue s.heap q (s.queues q), lists, ?_, ?_, .inl ⟨rfl, rfl, ?_⟩⟩
    · rw [Op.apply, ran]
      rfl
    · have same : s.setQueue s.heap q (s.queues q) = s := by
        simp only [State.setQueue, update_eq_self]
      rw [same]
      exact holds
    · intro t member
      obtain ⟨node, inside, rfl⟩ := List.mem_map.mp member
      exact absent node inside
  · have source : ∀ other ∈ front ++ back ++ [node], other ∈ lists (.queue q) := by
      intro other member
      rw [whole]
      simp only [List.mem_append] at member ⊢
      tauto
    refine ⟨some (s.heap.value node), s.setQueue after q queue, _, ?_,
      holds.requeue frame (fun _ member => .inl member) shows
        (fun other member => .inl (source other member)),
      .inr ⟨front.map s.heap.value, s.heap.value node, back.map s.heap.value, ?_, found, ?_, rfl, ?_⟩⟩
    · rw [Op.apply, ran]
      simp only [Option.map_some, frame.value]
    · rw [deques, whole, List.map_append, List.map_append]
      rfl
    · intro t member
      obtain ⟨other, inside, rfl⟩ := List.mem_map.mp member
      exact later other inside
    · refine (deques_update lists (.queue q) _ frame.value).trans ?_
      rw [List.map_append, List.map_append]
      rfl

theorem dequeueSteal_refines (holds : Holds s lists) (thief : H) (v : Q) (stealChunksize seen : Int)
    (locked : Bool) (idle : s.stolen thief = none) :
    (Op.dequeueSteal thief v stealChunksize seen locked : Op Q C H).Refines s lists := by
  have apart : Place.stolen thief ≠ (Place.queue v : Place Q C H) := by rintro ⟨⟩
  have nothing : lists (.stolen thief) = [] := by
    have head := holds.fields.stolen thief
    rw [idle] at head
    exact List.head?_eq_none_iff.mp head.symm
  obtain ⟨after, queue, ran, frame, victim, linked⟩ :=
    dequeueSteal_shows (holds.queue v) (holds.owned.fuel _) stealChunksize seen locked
  have tasks : pick Task.isStealable (stealAmount stealChunksize seen locked)
      (deques s.heap lists (.queue v)) =
        ((pick s.heap.stealable (stealAmount stealChunksize seen locked)
          (lists (.queue v))).1.map s.heap.value,
        (pick s.heap.stealable (stealAmount stealChunksize seen locked)
          (lists (.queue v))).2.map s.heap.value) := by
    have same : ∀ node ∈ lists (.queue v),
        (Task.isStealable ∘ s.heap.value) node = s.heap.stealable node :=
      fun node member => (holds.owned.marked _ node member).symm
    rw [deques, pick_map, pick_congr same]
  have meant : (Op.dequeueSteal thief v stealChunksize seen locked : Op Q C H).Acts
      (deques s.heap lists) none (update (update (deques s.heap lists) (.queue v)
        ((pick s.heap.stealable (stealAmount stealChunksize seen locked)
          (lists (.queue v))).1.map s.heap.value)) (.stolen thief)
        ((pick s.heap.stealable (stealAmount stealChunksize seen locked)
          (lists (.queue v))).2.map s.heap.value)) := by
    refine ⟨rfl, ?_, ?_⟩
    · rw [deques, nothing]
      rfl
    · rw [tasks]
  have perm := pick_perm s.heap.stealable (stealAmount stealChunksize seen locked)
    (lists (.queue v))
  have booty := pick_wanted s.heap.stealable (stealAmount stealChunksize seen locked)
    (lists (.queue v))
  generalize pick s.heap.stealable (stealAmount stealChunksize seen locked) (lists (.queue v)) =
    picked at *
  obtain ⟨stay, go⟩ := picked
  obtain ⟨-, goOnce, differ⟩ := List.nodup_append.mp (perm.nodup_iff.mpr (holds.owned.once _))
  obtain ⟨left, freed⟩ := holds.owned.drop
    (fun node member => perm.subset (List.mem_append_left _ member)) victim.once frame victim.linked
  have owned : Owned after (update (update lists (.queue v) stay)
      (.stolen thief) go) := by
    refine left.replace (.refl after []) (by rintro _ ⟨⟩) linked goOnce fun node member => .inr ?_
    exact freed node (perm.subset (List.mem_append_right _ member)) fun kept =>
      differ node kept node member rfl
  have reads : queue.Reads s.heap.stealable stay := frame.stealable ▸ victim.toReads
  have fields := (holds.fields.setQueue (q := v) reads after).setStolen thief booty
  refine ⟨none, (s.setQueue after v queue).setStolen thief go.head?, _, ?_,
    ⟨owned, frame.stealable ▸ fields⟩, ?_⟩
  · rw [Op.apply, ran]
    rfl
  · have same : deques after (update (update lists (.queue v) stay)
        (.stolen thief) go) = update (update (deques s.heap lists) (.queue v)
          (stay.map s.heap.value)) (.stolen thief) (go.map s.heap.value) := by
      rw [deques_update _ _ _ frame.value, deques_update _ _ _ rfl]
    exact same ▸ meant

theorem enqueueMultiple_refines (holds : Holds s lists) (thief : H) (q : Q)
    (legal : (s.stolen thief).bind s.heap.next ≠ none) :
    (Op.enqueueMultiple thief q : Op Q C H).Refines s lists := by
  have apart : Place.queue q ≠ (Place.stolen thief : Place Q C H) := nofun
  obtain ⟨first, surplus, others, chain⟩ : ∃ first surplus others,
      lists (.stolen thief) = first :: surplus :: others := by
    have head := holds.fields.stolen thief
    have linked := holds.owned.linked (.stolen thief)
    cases list : lists (.stolen thief) with
    | nil =>
      rw [list] at head
      rw [head] at legal
      exact absurd rfl legal
    | cons first rest =>
      rw [list] at head linked
      have next : s.heap.next first = rest.head? := by
        rw [linked.2.1, Option.or_none]
      cases rest with
      | nil =>
        rw [head] at legal
        exact absurd next legal
      | cons surplus others => exact ⟨first, surplus, others, rfl⟩
  have head := holds.fields.stolen thief
  have linked := holds.owned.linked (.stolen thief)
  have once := holds.owned.once (.stolen thief)
  have booty := holds.fields.booty thief
  have enough := holds.owned.fuel (.stolen thief)
  rw [chain] at head linked once booty enough
  obtain ⟨firstOutside, restOnce⟩ := List.nodup_cons.mp once
  have next : s.heap.next first = some surplus := linked.2.1
  have inside : ∀ node ∈ first :: surplus :: others, node ∈ lists (.stolen thief) := by
    rw [chain]
    exact fun _ member => member
  have split : s.heap.Frame ((s.heap.setNext first none).setPrev surplus none)
      (lists (.stolen thief)) :=
    (Heap.Frame.setNext _ none (inside first List.mem_cons_self)).trans
      (.setPrev _ none (inside surplus (List.mem_cons_of_mem _ List.mem_cons_self)))
  have differs : surplus ∉ [first] := fun single =>
    firstOutside (List.mem_singleton.mp single ▸ List.mem_cons_self)
  have cut : (s.heap.setNext first none).toLinks.Segment none [first] none :=
    ⟨linked.1, update_self .., trivial⟩
  have alone : ((s.heap.setNext first none).setPrev surplus none).toLinks.Segment none [first] none :=
    cut.setPrev_other differs _
  have rest : ((s.heap.setNext first none).setPrev surplus none).toLinks.Segment none
      (surplus :: others) none :=
    (linked.2.2.setNext_other firstOutside none).setPrev_first restOnce rfl none
  obtain ⟨left, freed⟩ := holds.owned.drop
    (fun node member => inside node (List.mem_singleton.mp member ▸ List.mem_cons_self))
    (List.nodup_singleton _) split alone
  have fields : Fields s.heap.stealable (s.setStolen thief [first].head?)
      (update lists (.stolen thief) [first]) :=
    holds.fields.setStolen thief fun node member =>
      booty node (List.mem_singleton.mp member ▸ List.mem_cons_self)
  have same : s.setStolen thief [first].head? = s := by
    rw [State.setStolen, List.head?_cons, show some first = s.stolen thief from head.symm,
      update_eq_self]
  rw [same] at fields
  have ready : Holds { s with heap := (s.heap.setNext first none).setPrev surplus none }
      (update lists (.stolen thief) [first]) :=
    ⟨left, fields.congr (fun _ _ _ => rfl) rfl rfl rfl⟩
  have queued : update lists (.stolen thief) [first] (.queue q) = lists (.queue q) :=
    update_of_ne apart ..
  have shows := ready.queue q
  rw [queued] at shows
  have joinOnce : (lists (.queue q) ++ surplus :: others).Nodup := by
    have whole := holds.owned.disjoint apart
    rw [chain] at whole
    exact whole.sublist ((List.Sublist.refl _).append (List.sublist_cons_self _ _))
  obtain ⟨after, queue, ran, frame, joined⟩ := enqueueMultiple_shows shows rest joinOnce
    (by simp only [List.length_cons] at enough; exact Nat.lt_of_succ_lt (Nat.lt_of_succ_lt enough))
    (fun node member => booty node (List.mem_cons_of_mem _ member))
  have source : ∀ node ∈ lists (.queue q) ++ surplus :: others,
      node ∈ update lists (.stolen thief) [first] (.queue q) ∨
        Loose ((s.heap.setNext first none).setPrev surplus none)
          (update lists (.stolen thief) [first]) node := by
    intro node member
    rw [queued]
    rcases List.mem_append.mp member with old | new
    · exact .inl old
    · refine .inr (freed node (inside node (List.mem_cons_of_mem _ new)) fun single => ?_)
      cases List.mem_singleton.mp single
      exact firstOutside new
  refine ⟨none, s.setQueue after q queue, _, ?_, ready.requeue frame source joined source, rfl,
    s.heap.value first, (surplus :: others).map s.heap.value, ?_, ?_⟩
  · simp only [Op.apply, show s.stolen thief = some first from head, next, ran,
      Option.bind_eq_bind, Option.bind_some]
    rfl
  · rw [deques, chain]
    rfl
  · refine (deques_update _ (.queue q) _ frame.value).trans ?_
    rw [deques_update lists (.stolen thief) [first] split.value, List.map_append, split.value]
    rfl

end Op

theorem Holds.refines {s : State Q C H} {lists : Lists Q C H} (holds : Holds s lists)
    (op : Op Q C H) (legal : op.Legal s) : op.Refines s lists := by
  cases op with
  | enqueue q t node => exact Op.enqueue_refines holds q t legal
  | enqueueYielded q t node => exact Op.enqueueYielded_refines holds q t legal
  | privateEnqueue c t node => exact Op.privateEnqueue_refines holds c t legal
  | privateEnqueueYielded c t node => exact Op.privateEnqueueYielded_refines holds c t legal
  | enqueueCache q c => exact Op.enqueueCache_refines holds q c legal
  | getThread q qc => exact Op.getThread_refines holds q qc
  | dequeueSteal thief v stealChunksize seen locked =>
    exact Op.dequeueSteal_refines holds thief v stealChunksize seen locked legal
  | enqueueMultiple thief q => exact Op.enqueueMultiple_refines holds thief q legal
  | takeStolen thief => exact Op.takeStolen_refines holds thief legal
  | dequeueSpecific q value => exact Op.dequeueSpecific_refines holds q value

end Qthreads.Sherwood
