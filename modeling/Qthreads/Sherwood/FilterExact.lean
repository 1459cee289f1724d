import Qthreads.Sherwood.FilterLoop
import Qthreads.Sherwood.SpawnExact

namespace Qthreads.Sherwood

open Lib Links
open Function (update update_of_ne update_self update_eq_self update_idem)

variable {f : Filter Task} {heap : Heap} {queue : Queue} {nodes : List Nat} {asked : List Task}
  {guarded : Bool}

theorem stuck_nil {tasks : List Task} : Stuck guarded f asked tasks [] ↔
    f.sieve.Exhausts asked tasks ∧ (guarded = true → f.sieve.RemovesLast asked tasks) ∧
      f.sieve.kept asked tasks ≠ [] := by
  constructor
  · intro stuck
    exact ⟨stuck.2.1, stuck.2.2.1, stuck.2.2.2.resolve_right (not_not.mpr rfl)⟩
  · rintro ⟨exhausts, removes, kept⟩
    refine ⟨?_, exhausts, removes, .inl kept⟩
    rintro rfl
    exact kept rfl

theorem filterList_walked (shows : queue.Shows heap nodes) (enough : nodes.length < heap.fuel) :
    (Stuck guarded f asked (nodes.reverse.map heap.value) [] →
      filterList guarded f asked heap queue = none) ∧
    (¬ Stuck guarded f asked (nodes.reverse.map heap.value) [] → ∃ outcome removed,
      filterList guarded f asked heap queue = some outcome ∧
        Walked f heap nodes.reverse [] asked outcome removed) := by
  have listed : queue.Shows heap (nodes.reverse.reverse ++ []) := by
    rw [List.reverse_reverse, List.append_nil]
    exact shows
  have short : nodes.reverse.length ≤ heap.fuel := by
    rw [List.length_reverse]
    exact Nat.le_of_lt enough
  have walk := @filterLoop_walked f heap queue [] guarded asked nodes.reverse heap.fuel listed short
  by_cases empty : nodes = []
  · have less : ¬ 0 < queue.qlength := by
      rw [(qlength_zero shows).mpr empty]
      exact Int.lt_irrefl 0
    rw [filterList, if_neg less]
    subst empty
    exact ⟨fun stuck => absurd rfl stuck.1, fun _ => ⟨_, [], rfl, rfl, .refl heap _, shows,
      List.Perm.refl _⟩⟩
  · have pos : 0 < queue.qlength := by
      have positive := mt (qlength_zero shows).mp empty
      rw [shows.qlength] at positive ⊢
      omega
    obtain ⟨rest, node, whole⟩ := (List.eq_nil_or_concat nodes).resolve_left empty
    rw [List.concat_eq_append] at whole
    have lp : lpOf heap queue queue.tail = some (lpAt nodes.reverse.tail.reverse) := by
      subst whole
      have tail : queue.tail = some node := by
        rw [shows.tail, List.getLast?_append]
        rfl
      rw [tail, List.reverse_append, List.reverse_singleton, List.singleton_append, List.tail_cons,
        List.reverse_reverse]
      refine lpOf_node (?_ : queue.Shows heap (rest ++ [node] ++ []))
      rw [List.append_nil]
      exact shows
    have tail : queue.tail = nodes.reverse.head? := by rw [shows.tail, List.head?_reverse]
    rw [filterList, if_pos pos, lp, tail]
    exact walk

variable {Q C H : Type} {s : State Q C H} {lists : Lists Q C H} {q : Q} {c : C} {removed : List Nat}

theorem Holds.free (holds : Holds s lists) (gone : ∀ node ∈ removed, ∀ place, node ∉ lists place) :
    Holds { s with heap := { s.heap with allocated := s.heap.allocated.diff removed } } lists where
  owned := {
    linked := holds.owned.linked
    once := holds.owned.once
    apart := holds.owned.apart
    live := fun place node member => List.mem_diff_of_mem (holds.owned.live place node member)
      fun inside => gone node inside place member
    marked := holds.owned.marked }
  fields := holds.fields.congr (fun _ _ _ => rfl) rfl rfl rfl

theorem Holds.newest (holds : Holds s lists) (q : Q) :
    s.newest q = (lists (.queue q)).reverse.map s.heap.value := by
  rw [State.newest, holds.tasks_eq, deques, List.map_reverse]

theorem Holds.newestCached_deck {n : Nat} (holds : Holds s lists)
    (deck : (s.caches c).onDeck = some n) :
    s.tasks (.deck c) = [s.heap.value n] ∧
      s.newestCached c = s.heap.value n :: (s.tasks (.cache c)).reverse := by
  have decks : s.tasks (.deck c) = [s.heap.value n] := by
    rw [holds.tasks_eq, deques, (holds.deck_alone deck).1]
    rfl
  refine ⟨decks, ?_⟩
  rw [State.newestCached, decks]
  rfl

variable [DecidableEq Q] [DecidableEq C] [DecidableEq H]

theorem Owned.gone {place : Place Q C H} {kept : List Nat} (owned : Owned heap lists)
    (parts : (removed ++ kept).Perm (lists place)) :
    ∀ node ∈ removed, ∀ other, node ∉ update lists place kept other := by
  intro node out other member
  have once := (parts.nodup_iff.mpr (owned.once place))
  by_cases same : other = place
  · rw [same, update_self] at member
    exact (List.nodup_append.mp once).2.2 node out node member rfl
  · rw [update_of_ne same] at member
    exact same (owned.apart other place node member (parts.subset (List.mem_append_left _ out)))

theorem filter_parts {order kept : List Nat} (parts : (removed ++ kept).Perm order.reverse) :
    (removed ++ kept.reverse).Perm order :=
  ((List.reverse_perm kept).append_left removed).trans (parts.trans (List.reverse_perm order))

/-- `qt_threadqueue_filter` does what it should unless it goes on behind the head. -/
theorem filters_iff (holds : Holds s lists) (q : Q) : s.Filters f q ↔ ¬ s.Trips f q := by
  have shows := holds.queue q
  obtain ⟨trips, walks⟩ := @filterList_walked f s.heap (s.queues q) _ [] true shows
    (holds.owned.fuel (.queue q))
  rw [← holds.newest, stuck_nil] at trips walks
  have same : s.Trips f q ↔ f.sieve.Exhausts [] (s.newest q) ∧
      (true = true → f.sieve.RemovesLast [] (s.newest q)) ∧ f.sieve.kept [] (s.newest q) ≠ [] :=
    ⟨fun all => ⟨all.1, fun _ => all.2.1, all.2.2⟩, fun all => ⟨all.1, all.2.1 rfl, all.2.2⟩⟩
  rw [same]
  constructor
  · rintro ⟨after, lists', ran, -, -⟩ stuck
    rw [State.filter, filter, trips stuck] at ran
    cases ran
  · intro clear
    obtain ⟨⟨asks, after, queue⟩, removed, ran, walked⟩ := walks clear
    have asked := walked.asks
    have sifted := walked.sifted
    have left := walked.shows
    have parts := filter_parts walked.parts
    simp only [List.append_nil, List.reverse_reverse, ← holds.newest] at asked sifted left
    have frame := sifted.frame
    have gone := holds.owned.gone parts
    have source : ∀ node ∈ (f.sieve.keptBy s.heap.value [] (lists (.queue q)).reverse).reverse,
        node ∈ lists (.queue q) ∨ Loose s.heap lists node :=
      fun node member => .inl (parts.subset (List.mem_append_right _ member))
    have listed : queue.Shows { after with allocated := s.heap.allocated }
        (f.sieve.keptBy s.heap.value [] (lists (.queue q)).reverse).reverse :=
      ⟨left.toReads, left.linked, left.once⟩
    have kept := (holds.requeue frame (fun _ member => .inl member) listed source).free gone
    have freed : { after with allocated := s.heap.allocated.diff removed } = after := by
      rw [← sifted.freed]
    have final : Holds (s.setQueue after q queue) (update lists (.queue q)
        (f.sieve.keptBy s.heap.value [] (lists (.queue q)).reverse).reverse) := freed ▸ kept
    refine ⟨s.setQueue after q queue, _, ?_, final, ?_⟩
    · rw [State.filter, filter, ran, Option.map_some, asked]
      simp only [List.reverse_reverse]
    · rw [final.tasks_eq, holds.tasks_eq, holds.newest, ← Sieve.keptBy_map, ← List.map_reverse]
      exact deques_update lists (.queue q) _ frame.value

theorem Holds.dropDeck {n : Nat} (holds : Holds s lists) (deck : (s.caches c).onDeck = some n) :
    Holds (s.setCache (s.heap.free n) c ⟨(s.caches c).toQueue, none⟩)
      (update lists (.deck c) []) := by
  obtain ⟨decks, -, -⟩ := holds.deck_alone deck
  obtain ⟨bare, freed⟩ := holds.owned.empty (.deck c)
  have apart : Place.cache c ≠ (Place.deck c : Place Q C H) := nofun
  have loose := freed n (by rw [decks]; exact List.mem_singleton.mpr rfl)
  have reads : Queue.Reads s.heap.stealable (⟨(s.caches c).toQueue, none⟩ : Cache).toQueue
      (lists (.cache c)) := holds.fields.caches c
  have fields := holds.fields.setCache (c := c) reads (s.heap.free n)
  rw [update_eq_self] at fields
  exact ⟨bare.free loose.outside, fields⟩

theorem Holds.walkCache (holds : Holds s lists) (asked : List Task) :
    (Stuck false f asked (s.tasks (.cache c)).reverse [] →
      filterList false f asked s.heap (s.caches c).toQueue = none) ∧
    (¬ Stuck false f asked (s.tasks (.cache c)).reverse [] → ∃ heap queue lists',
      filterList false f asked s.heap (s.caches c).toQueue =
        some ((f.sieve.asks asked (s.tasks (.cache c)).reverse).reverse ++ asked, heap, queue) ∧
      Holds (s.setCache heap c ⟨queue, (s.caches c).onDeck⟩) lists' ∧
      (s.setCache heap c ⟨queue, (s.caches c).onDeck⟩).tasks = update s.tasks (.cache c)
        (f.sieve.kept asked (s.tasks (.cache c)).reverse).reverse) := by
  have shows := holds.cache c
  have tasks : (s.tasks (.cache c)).reverse = (lists (.cache c)).reverse.map s.heap.value := by
    rw [holds.tasks_eq, deques, List.map_reverse]
  obtain ⟨trips, walks⟩ := @filterList_walked f s.heap (s.caches c).toQueue _ asked false shows
    (holds.owned.fuel (.cache c))
  rw [← tasks] at trips walks
  refine ⟨trips, fun clear => ?_⟩
  obtain ⟨⟨asks, after, queue⟩, removed, ran, walked⟩ := walks clear
  have asked' := walked.asks
  have sifted := walked.sifted
  have left := walked.shows
  have parts := filter_parts walked.parts
  simp only [List.append_nil, List.reverse_reverse, ← tasks] at asked' sifted left
  have frame := sifted.frame
  have gone := holds.owned.gone parts
  have source : ∀ node ∈ (f.sieve.keptBy s.heap.value asked (lists (.cache c)).reverse).reverse,
      node ∈ lists (.cache c) ∨ Loose s.heap lists node :=
    fun node member => .inl (parts.subset (List.mem_append_right _ member))
  have listed : queue.Shows { after with allocated := s.heap.allocated }
      (f.sieve.keptBy s.heap.value asked (lists (.cache c)).reverse).reverse :=
    ⟨left.toReads, left.linked, left.once⟩
  have kept := (holds.recache frame (fun _ member => .inl member) listed source).free gone
  have freed : { after with allocated := s.heap.allocated.diff removed } = after := by
    rw [← sifted.freed]
  have final : Holds (s.setCache after c ⟨queue, (s.caches c).onDeck⟩)
      (update lists (.cache c)
        (f.sieve.keptBy s.heap.value asked (lists (.cache c)).reverse).reverse) := freed ▸ kept
  refine ⟨after, queue, _, by rw [ran, asked'], final, ?_⟩
  rw [final.tasks_eq, tasks, ← Sieve.keptBy_map, ← List.map_reverse, holds.tasks_eq]
  exact deques_update lists (.cache c) _ frame.value

omit [DecidableEq Q] [DecidableEq H] in
theorem State.setCache_setCache (s : State Q C H) (c : C) (heap after : Heap) (cache left : Cache) :
    (s.setCache heap c cache).setCache after c left = s.setCache after c left := by
  simp only [State.setCache, update_idem]

theorem Holds.fixup (holds : Holds s lists) (deck : (s.caches c).onDeck = none) :
    ((s.tasks (.cache c)).length ≤ 1 → ∃ lists',
      Holds (s.setCache (fixupOnDeck s.heap (s.caches c)).1 c (fixupOnDeck s.heap (s.caches c)).2)
        lists' ∧
      (s.setCache (fixupOnDeck s.heap (s.caches c)).1 c (fixupOnDeck s.heap (s.caches c)).2).tasks =
        update (update s.tasks (.cache c) []) (.deck c) (s.tasks (.cache c))) ∧
    (¬ (s.tasks (.cache c)).length ≤ 1 → ∀ lists',
      ¬ Holds (s.setCache (fixupOnDeck s.heap (s.caches c)).1 c (fixupOnDeck s.heap (s.caches c)).2)
        lists') := by
  have refill : fixupOnDeck s.heap (s.caches c) = refillDeck s.heap (s.caches c) := by
    rw [fixupOnDeck, deck]
  have shows := holds.cache c
  have length : (s.tasks (.cache c)).length = (lists (.cache c)).length := by
    rw [holds.tasks_eq, deques, List.length_map]
  rw [refill, length]
  constructor
  · intro few
    have single : (s.caches c).head = (s.caches c).tail := by
      rw [shows.head, shows.tail]
      generalize lists (.cache c) = nodes at few
      cases nodes with
      | nil => rfl
      | cons node rest =>
        rw [List.eq_nil_of_length_eq_zero (Nat.le_zero.mp (Nat.le_of_succ_le_succ few))]
        rfl
    obtain ⟨kept, value, -⟩ := refillDeck_holds holds single
    refine ⟨_, kept, ?_⟩
    rw [kept.tasks_eq, holds.tasks_eq]
    refine (deques_update _ _ _ value).trans ?_
    rw [deques_update _ _ _ rfl]
    rfl
  · intro many lists' kept
    have several : (s.caches c).head ≠ (s.caches c).tail := by
      intro same
      rw [shows.single same] at many
      cases tail : (s.caches c).tail with
      | none => exact many (by rw [tail]; decide)
      | some node => exact many (by rw [tail]; exact Nat.le_refl 1)
    obtain ⟨last, tail, linked⟩ := refillDeck_broken holds several
    have left : ((s.setCache (refillDeck s.heap (s.caches c)).1 c
        (refillDeck s.heap (s.caches c)).2).caches c).tail = some last := by
      simp only [State.setCache, update_self]
      exact tail
    exact not_wellFormed left linked (kept.wellFormed c)

def State.Sweeps (s : State Q C H) (f : Filter Task) (c : C) (asked : List Task) : Prop :=
  ∃ heap cache lists', (filterList false f asked s.heap (s.caches c).toQueue).map
      (fun (asked, heap, q) => (asked, fixupOnDeck heap ⟨q, none⟩)) =
        some ((f.sieve.asks asked (s.tasks (.cache c)).reverse).reverse ++ asked, heap, cache) ∧
    Holds (s.setCache heap c cache) lists' ∧
    (s.setCache heap c cache).newestCached c = f.sieve.kept asked (s.tasks (.cache c)).reverse ∧
    ∀ place, place ≠ .cache c → place ≠ .deck c →
      (s.setCache heap c cache).tasks place = s.tasks place

theorem reverse_of_few {α : Type} {list : List α} (few : list.length ≤ 1) : list.reverse = list := by
  match list, few with
  | [], _ => rfl
  | [x], _ => rfl

theorem Holds.fixup_sweeps (holds : Holds s lists) (deck : (s.caches c).onDeck = none)
    (few : (s.tasks (.cache c)).length ≤ 1) : ∃ lists',
    Holds (s.setCache (fixupOnDeck s.heap (s.caches c)).1 c (fixupOnDeck s.heap (s.caches c)).2)
      lists' ∧
    (s.setCache (fixupOnDeck s.heap (s.caches c)).1 c (fixupOnDeck s.heap (s.caches c)).2).newestCached
      c = (s.tasks (.cache c)).reverse ∧
    ∀ place, place ≠ .cache c → place ≠ .deck c →
      (s.setCache (fixupOnDeck s.heap (s.caches c)).1 c
        (fixupOnDeck s.heap (s.caches c)).2).tasks place = s.tasks place := by
  obtain ⟨lists', kept, tasks⟩ := (holds.fixup deck).1 few
  have apart : Place.cache c ≠ (Place.deck c : Place Q C H) := nofun
  refine ⟨lists', kept, ?_, fun place noCache noDeck => ?_⟩
  · rw [State.newestCached, tasks, update_self, update_of_ne apart,
      update_self, List.reverse_nil, List.append_nil, reverse_of_few few]
  · rw [tasks, update_of_ne noDeck, update_of_ne noCache]

theorem Holds.sweeps_iff (holds : Holds s lists) (deck : (s.caches c).onDeck = none)
    (asked : List Task) :
    s.Sweeps f c asked ↔ ¬ (f.sieve.Exhausts asked (s.tasks (.cache c)).reverse ∧
        f.sieve.kept asked (s.tasks (.cache c)).reverse ≠ [] ∨
      2 ≤ (f.sieve.kept asked (s.tasks (.cache c)).reverse).length) := by
  obtain ⟨trips, walks⟩ := @Holds.walkCache f Q C H s lists c _ _ _ holds asked
  rw [stuck_nil] at trips walks
  by_cases stuck : f.sieve.Exhausts asked (s.tasks (.cache c)).reverse ∧
      (false = true → f.sieve.RemovesLast asked (s.tasks (.cache c)).reverse) ∧
        f.sieve.kept asked (s.tasks (.cache c)).reverse ≠ []
  · refine iff_of_false ?_ (not_not.mpr (.inl ⟨stuck.1, stuck.2.2⟩))
    rintro ⟨heap, cache, lists', ran, -⟩
    rw [trips stuck] at ran
    cases ran
  · obtain ⟨heap, queue, lists', ran, kept, tasks⟩ := walks stuck
    rw [deck] at kept tasks
    have onCache : (s.setCache heap c ⟨queue, none⟩).caches c = ⟨queue, none⟩ :=
      update_self ..
    have onDeck : ((s.setCache heap c ⟨queue, none⟩).caches c).onDeck = none := by rw [onCache]
    have left := congrFun tasks (.cache c)
    rw [update_self] at left
    have again := fun (after : Heap) (cache : Cache) =>
      s.setCache_setCache c heap after ⟨queue, none⟩ cache
    constructor
    · rintro ⟨after, cache, lists'', same, swept, -⟩ (clear | many)
      · exact stuck ⟨clear.1, nofun, clear.2⟩
      · rw [ran, Option.map_some, Option.some.injEq, Prod.mk.injEq] at same
        have never := (kept.fixup onDeck).2
        rw [left, List.length_reverse, onCache, again] at never
        refine never (Nat.not_le.mpr many) lists'' ?_
        have fixed : fixupOnDeck heap ⟨queue, none⟩ = (after, cache) := same.2
        show Holds (s.setCache (fixupOnDeck heap ⟨queue, none⟩).1 c
          (fixupOnDeck heap ⟨queue, none⟩).2) lists''
        rw [fixed]
        exact swept
    · intro clear
      have few : ((s.setCache heap c ⟨queue, none⟩).tasks (.cache c)).length ≤ 1 := by
        rw [left, List.length_reverse]
        by_contra many
        exact clear (.inr (Nat.not_le.mp many))
      obtain ⟨lists'', swept, newest, others⟩ := kept.fixup_sweeps onDeck few
      rw [onCache, again] at swept newest others
      rw [left, List.reverse_reverse] at newest
      refine ⟨_, _, lists'', ?_, swept, newest, fun place noCache noDeck => ?_⟩
      · rw [ran]
        rfl
      · rw [others place noCache noDeck, tasks, update_of_ne noCache]

section

variable {n : Nat}

section

variable (holds : Holds s lists) (deck : (s.caches c).onDeck = some n)
include holds deck

theorem Holds.filtersCache_deck (answer : f [] (s.heap.value n) = .ignoreAndContinue) :
    s.FiltersCache f c ↔ ¬ (f.sieve.Exhausts [s.heap.value n] (s.tasks (.cache c)).reverse ∧
      f.sieve.kept [s.heap.value n] (s.tasks (.cache c)).reverse ≠ []) := by
  obtain ⟨decks, newest⟩ := holds.newestCached_deck deck
  obtain ⟨trips, walks⟩ := @Holds.walkCache f Q C H s lists c _ _ _ holds [s.heap.value n]
  obtain ⟨keeps, goes⟩ := Filter.keeps_goes answer
  rw [stuck_nil] at trips walks
  have apart : Place.deck c ≠ (Place.cache c : Place Q C H) := nofun
  constructor
  · rintro ⟨after, lists', ran, -⟩ ⟨exhausts, kept⟩
    simp only [State.privateFilter, Sherwood.privateFilter, deck, answer,
      trips ⟨exhausts, nofun, kept⟩] at ran
    cases ran
  · intro clear
    obtain ⟨heap, queue, lists', ran, kept, tasks⟩ := walks fun all => clear ⟨all.1, all.2.2⟩
    rw [deck] at kept tasks
    refine ⟨_, lists', ?_, kept, ?_, fun place noCache _ => ?_⟩
    · simp only [State.privateFilter, Sherwood.privateFilter, deck, answer, ran, Option.map_some,
        fixupOnDeck, newest, Sieve.asks, goes, List.reverse_append, List.reverse_reverse]
      rfl
    · rw [State.newestCached, tasks, update_of_ne apart, update_self, decks,
        List.reverse_reverse, newest]
      simp only [Sieve.kept, Sieve.keptBy, id, keeps, goes]
      rfl
    · rw [tasks, update_of_ne noCache]

theorem Holds.filtersCache_sweep (answer : f [] (s.heap.value n) = .removeAndContinue) :
    s.FiltersCache f c ↔ ¬ (f.sieve.Exhausts [s.heap.value n] (s.tasks (.cache c)).reverse ∧
        f.sieve.kept [s.heap.value n] (s.tasks (.cache c)).reverse ≠ [] ∨
      2 ≤ (f.sieve.kept [s.heap.value n] (s.tasks (.cache c)).reverse).length) := by
  obtain ⟨decks, newest⟩ := holds.newestCached_deck deck
  obtain ⟨removes, goes⟩ := Filter.removes_goes answer
  have dropped := holds.dropDeck deck
  have sweeps := @Holds.sweeps_iff f Q C H _ _ c _ _ _ dropped (by
    simp only [State.setCache, update_self]) [s.heap.value n]
  have same : ∀ place, place ≠ .deck c → (s.setCache (s.heap.free n) c
      ⟨(s.caches c).toQueue, none⟩).tasks place = s.tasks place := by
    intro place differs
    rw [dropped.tasks_eq, holds.tasks_eq, deques, deques, update_of_ne differs]
    rfl
  rw [same (.cache c) (by rintro ⟨⟩)] at sweeps
  rw [← sweeps, State.FiltersCache, State.Sweeps, same (.cache c) (by rintro ⟨⟩)]
  have fields : (s.setCache (s.heap.free n) c ⟨(s.caches c).toQueue, none⟩).heap =
      s.heap.free n ∧ ((s.setCache (s.heap.free n) c
        ⟨(s.caches c).toQueue, none⟩).caches c).toQueue = (s.caches c).toQueue := by
    simp only [State.setCache, update_self, and_self]
  have asks : f.sieve.asks [] (s.newestCached c) =
      ((f.sieve.asks [s.heap.value n] (s.tasks (.cache c)).reverse).reverse ++
        [s.heap.value n]).reverse := by
    rw [newest, Sieve.asks, goes, List.reverse_append, List.reverse_reverse]
    rfl
  have kept : f.sieve.kept [] (s.newestCached c) =
      f.sieve.kept [s.heap.value n] (s.tasks (.cache c)).reverse := by
    rw [newest]
    simp only [Sieve.kept, Sieve.keptBy, id, removes, goes]
    rfl
  rw [fields.1, fields.2, asks, kept]
  simp only [State.privateFilter, Sherwood.privateFilter, deck, answer, State.setCache_setCache]
  constructor
  · rintro ⟨after, lists', ran, filtered, left, others⟩
    obtain ⟨⟨asked, heap, cache⟩, swept, equal⟩ := Option.map_eq_some_iff.mp ran
    obtain ⟨asked', rfl⟩ := Prod.mk.inj equal
    have order : asked = (f.sieve.asks [s.heap.value n] (s.tasks (.cache c)).reverse).reverse ++
        [s.heap.value n] := List.reverse_inj.mp asked'
    rw [order] at swept
    refine ⟨heap, cache, lists', swept, filtered, left, fun place noCache noDeck => ?_⟩
    rw [same place noDeck]
    exact others place noCache noDeck
  · rintro ⟨heap, cache, lists', swept, filtered, left, others⟩
    refine ⟨_, lists', ?_, filtered, left, fun place noCache noDeck => ?_⟩
    · rw [swept]
      rfl
    · rw [← same place noDeck]
      exact others place noCache noDeck

theorem Holds.filtersCache_drop (answer : f [] (s.heap.value n) = .removeAndStop) :
    s.FiltersCache f c ↔ ¬ 2 ≤ (s.tasks (.cache c)).length := by
  obtain ⟨decks, newest⟩ := holds.newestCached_deck deck
  obtain ⟨removes, halts⟩ := Filter.removes_halts answer
  have dropped := holds.dropDeck deck
  have same : ∀ place, place ≠ .deck c → (s.setCache (s.heap.free n) c
      ⟨(s.caches c).toQueue, none⟩).tasks place = s.tasks place := by
    intro place differs
    rw [dropped.tasks_eq, holds.tasks_eq, deques, deques, update_of_ne differs]
    rfl
  have off : ((s.setCache (s.heap.free n) c ⟨(s.caches c).toQueue, none⟩).caches c) =
      ⟨(s.caches c).toQueue, none⟩ := by
    simp only [State.setCache, update_self]
  have heap : (s.setCache (s.heap.free n) c ⟨(s.caches c).toQueue, none⟩).heap =
      s.heap.free n := rfl
  have asks : f.sieve.asks [] (s.newestCached c) = [s.heap.value n] := by
    rw [newest, Sieve.asks, halts]
    rfl
  have kept : f.sieve.kept [] (s.newestCached c) = (s.tasks (.cache c)).reverse := by
    rw [newest]
    simp only [Sieve.kept, Sieve.keptBy, id, removes, halts]
    rfl
  rw [State.FiltersCache, asks, kept]
  simp only [State.privateFilter, Sherwood.privateFilter, deck, answer, Option.map_some]
  constructor
  · rintro ⟨after, lists', ran, filtered, -⟩ many
    obtain ⟨-, rfl⟩ := Prod.mk.inj (Option.some.inj ran)
    have never := (dropped.fixup (c := c) (by rw [off])).2
    rw [same (.cache c) (by rintro ⟨⟩), off, heap, State.setCache_setCache] at never
    exact never (Nat.not_le.mpr many) lists' filtered
  · intro few
    obtain ⟨lists', swept, left, others⟩ := dropped.fixup_sweeps (c := c) (by rw [off]) (by
      rw [same (.cache c) (by rintro ⟨⟩)]
      omega)
    rw [off, heap, State.setCache_setCache] at swept left others
    rw [same (.cache c) (by rintro ⟨⟩)] at left
    refine ⟨_, lists', rfl, swept, left, fun place noCache noDeck => ?_⟩
    rw [others place noCache noDeck, same place noDeck]

end

end

/-- `qt_threadqueue_private_filter` does what it should unless it goes on behind the head or leaves
two tasks in the list and none on deck. -/
theorem filtersCache_iff (holds : Holds s lists) (c : C) : s.FiltersCache f c ↔ ¬ s.TripsCache f c := by
  cases deck : (s.caches c).onDeck with
  | none =>
    have decks : s.tasks (.deck c) = [] := holds.deck_empty.mp deck
    have newest : s.newestCached c = (s.tasks (.cache c)).reverse := by
      rw [State.newestCached, decks]
      rfl
    have goes : ¬ s.Stays f c := by
      rintro ⟨t, there, -⟩
      rw [decks] at there
      cases there
    have sweeps := @Holds.sweeps_iff f Q C H s lists c _ _ _ holds deck []
    rw [State.TripsCache, State.FiltersCache, newest]
    simp only [goes, not_false_eq_true, false_and, true_and, false_or]
    rw [← sweeps, State.Sweeps]
    simp only [State.privateFilter, Sherwood.privateFilter, deck, List.append_nil]
    constructor
    · rintro ⟨after, lists', ran, filtered, left, others⟩
      obtain ⟨⟨asked, heap, cache⟩, swept, equal⟩ := Option.map_eq_some_iff.mp ran
      obtain ⟨asked', rfl⟩ := Prod.mk.inj equal
      rw [← List.reverse_eq_iff.mp asked'] 
      exact ⟨heap, cache, lists', swept, filtered, left, others⟩
    · rintro ⟨heap, cache, lists', swept, filtered, left, others⟩
      refine ⟨_, lists', ?_, filtered, left, others⟩
      rw [swept]
      simp only [Option.map_some, List.reverse_reverse]
  | some n =>
    obtain ⟨decks, newest⟩ := holds.newestCached_deck deck
    cases answer : f [] (s.heap.value n) with
    | ignoreAndContinue =>
      obtain ⟨keeps, goes⟩ := Filter.keeps_goes answer
      have stays : s.Stays f c := ⟨_, decks, keeps⟩
      rw [holds.filtersCache_deck deck answer, State.TripsCache, newest]
      simp only [stays, true_and, not_true_eq_false, false_and, or_false, Sieve.Exhausts, goes,
        Sieve.kept, Sieve.keptBy, id, keeps, Bool.false_eq_true, if_false, List.length_cons]
      rw [not_iff_not, and_congr_right_iff]
      intro _
      rw [← List.length_pos_iff]
      omega
    | ignoreAndStop =>
      obtain ⟨keeps, halts⟩ := Filter.keeps_halts answer
      have stays : s.Stays f c := ⟨_, decks, keeps⟩
      refine iff_of_true ?_ ?_
      · refine ⟨s, lists, ?_, holds, ?_, fun _ _ _ => rfl⟩
        · simp only [State.privateFilter, Sherwood.privateFilter, deck, answer, Option.map_some,
            newest, Sieve.asks, halts, if_true, State.setCache, update_eq_self]
          rfl
        · rw [newest]
          simp only [Sieve.kept, Sieve.keptBy, id, keeps, halts, if_true]
          rfl
      · rintro (⟨-, exhausts, -⟩ | ⟨goes, -⟩)
        · rw [newest] at exhausts
          have goes := exhausts.1
          rw [halts] at goes
          cases goes
        · exact goes stays
    | removeAndContinue =>
      obtain ⟨removes, goes⟩ := Filter.removes_goes answer
      have leaves : ¬ s.Stays f c := by
        rintro ⟨t, there, keeps⟩
        rw [decks] at there
        cases there
        rw [removes] at keeps
        cases keeps
      rw [holds.filtersCache_sweep deck answer, State.TripsCache, newest]
      simp only [leaves, not_false_eq_true, false_and, true_and, false_or, Sieve.Exhausts, goes,
        Sieve.kept, Sieve.keptBy, id, removes, Bool.false_eq_true, if_false, if_true]
    | removeAndStop =>
      obtain ⟨removes, halts⟩ := Filter.removes_halts answer
      have leaves : ¬ s.Stays f c := by
        rintro ⟨t, there, keeps⟩
        rw [decks] at there
        cases there
        rw [removes] at keeps
        cases keeps
      rw [holds.filtersCache_drop deck answer, State.TripsCache, newest]
      simp only [leaves, not_false_eq_true, false_and, true_and, false_or, Sieve.Exhausts, halts,
        Sieve.kept, Sieve.keptBy, id, removes, if_true, Bool.true_eq_false, List.length_reverse]

/-- A filter of a ready queue or of a spawn cache takes out what it should exactly when it does not
go on behind the head, and the cache's does not pull one of two tasks on deck. -/
theorem filters_exact (holds : Holds s lists) (f : Filter Task) (q : Q) (c : C) :
    (s.Filters f q ↔ ¬ s.Trips f q) ∧ (s.FiltersCache f c ↔ ¬ s.TripsCache f c) :=
  ⟨filters_iff holds q, filtersCache_iff holds c⟩

theorem Holds.exists_enqueue (holds : Holds s lists) (q : Q) (t : Task) :
    ∃ (after : State Q C H) (lists' : Lists Q C H), Holds after lists' ∧
      after.tasks = update s.tasks (.queue q) (s.tasks (.queue q) ++ [t]) := by
  obtain ⟨node, fresh⟩ := Infinite.exists_notMem_finset s.heap.allocated.toFinset
  rw [List.mem_toFinset] at fresh
  obtain ⟨result, after, lists', -, kept, acts⟩ := Op.enqueue_refines holds q t fresh
  rw [← holds.tasks_eq, ← kept.tasks_eq] at acts
  exact ⟨after, lists', kept, acts.2⟩

theorem Holds.exists_privateEnqueue (holds : Holds s lists) (c : C) (t : Task) :
    ∃ (after : State Q C H) (lists' : Lists Q C H), Holds after lists' ∧
      after.tasks = update (update s.tasks (.cache c)
        (s.tasks (.cache c) ++ s.tasks (.deck c))) (.deck c) [t] := by
  obtain ⟨node, fresh⟩ := Infinite.exists_notMem_finset s.heap.allocated.toFinset
  rw [List.mem_toFinset] at fresh
  obtain ⟨result, after, lists', -, kept, acts⟩ := Op.privateEnqueue_refines holds c t fresh
  rw [← holds.tasks_eq, ← kept.tasks_eq] at acts
  exact ⟨after, lists', kept, acts.2⟩

theorem exists_twos (first second third fourth : Task) :
    ∃ (s : State Unit Unit Unit) (lists : Lists Unit Unit Unit), Holds s lists ∧
      s.newest () = [second, first] ∧ s.newestCached () = [fourth, third] ∧
        s.tasks (.deck ()) = [fourth] := by
  have bare : Holds (Config.initial blank : Config Unit Unit Unit).state fun _ => [] :=
    Config.initial_holds blank
  obtain ⟨s₁, lists₁, holds₁, tasks₁⟩ := bare.exists_enqueue () first
  obtain ⟨s₂, lists₂, holds₂, tasks₂⟩ := holds₁.exists_enqueue () second
  obtain ⟨s₃, lists₃, holds₃, tasks₃⟩ := holds₂.exists_privateEnqueue () third
  obtain ⟨s₄, lists₄, holds₄, tasks₄⟩ := holds₃.exists_privateEnqueue () fourth
  have start : (Config.initial blank : Config Unit Unit Unit).state.tasks = fun _ => [] :=
    funext (Config.initial_tasks blank)
  rw [tasks₃, tasks₂, tasks₁, start] at tasks₄
  refine ⟨s₄, lists₄, holds₄, ?_, ?_, ?_⟩
  · rw [State.newest, tasks₄]
    rfl
  · rw [State.newestCached, tasks₄]
    rfl
  · rw [tasks₄]
    rfl

def without (id : Nat) : Filter Task := fun _ t =>
  if t.id = id then .removeAndContinue else .ignoreAndContinue

theorem filters_exact_newest : ∃ s : State Unit Unit Unit, s.newest () = [⟨2, false, 0⟩, ⟨1, false, 0⟩] ∧
    s.Filters (without 2) () ∧ ¬ s.FiltersCache (without 2) () := by
  obtain ⟨s, lists, holds, newest, cached, deck⟩ := exists_twos ⟨1, false, 0⟩ ⟨2, false, 0⟩
    ⟨3, false, 0⟩ ⟨4, false, 0⟩
  obtain ⟨queue, cache⟩ := filters_exact holds (without 2) () ()
  refine ⟨s, newest, queue.mpr ?_, mt cache.mp (not_not.mpr ?_)⟩
  · rw [State.Trips, newest]
    decide
  · rw [State.TripsCache, cached]
    exact .inl ⟨⟨_, deck, by decide⟩, by decide, by decide⟩

/-- The older of two tasks is to be removed: the walk follows a `NULL` behind it; and it does
behind the only task of a cache's list, which is to stay. -/
theorem filter_trips : ∃ s : State Unit Unit Unit, s.newest () = [⟨2, false, 0⟩, ⟨1, false, 0⟩] ∧
    s.newestCached () = [⟨4, false, 0⟩, ⟨3, false, 0⟩] ∧
      ¬ s.Filters (without 1) () ∧ ¬ s.FiltersCache (without 1) () := by
  obtain ⟨s, lists, holds, newest, cached, deck⟩ := exists_twos ⟨1, false, 0⟩ ⟨2, false, 0⟩
    ⟨3, false, 0⟩ ⟨4, false, 0⟩
  refine ⟨s, newest, cached, ?_, ?_⟩
  · rw [filters_iff holds, not_not, State.Trips, newest]
    decide
  · rw [filtersCache_iff holds, not_not, State.TripsCache, cached]
    exact .inl ⟨⟨_, deck, by decide⟩, by decide, by decide⟩

end Qthreads.Sherwood
