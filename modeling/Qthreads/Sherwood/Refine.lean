import Qthreads.Sherwood.Calls

namespace Qthreads.Sherwood

open Lib Links

variable {Q C H : Type}

abbrev Lists (Q C H : Type) := Place Q C H → List Nat

structure Owned (heap : Heap) (lists : Lists Q C H) : Prop where
  linked : ∀ place, heap.toLinks.Segment none (lists place) none
  once : ∀ place, (lists place).Nodup
  apart : ∀ place other node, node ∈ lists place → node ∈ lists other → place = other
  live : ∀ place, ∀ node ∈ lists place, node ∈ heap.allocated
  marked : ∀ place, ∀ node ∈ lists place, heap.stealable node = (heap.value node).isStealable

structure Loose (heap : Heap) (lists : Lists Q C H) (node : Nat) : Prop where
  live : node ∈ heap.allocated
  marked : heap.stealable node = (heap.value node).isStealable
  outside : ∀ place, node ∉ lists place

structure Fields (stealable : Nat → Bool) (s : State Q C H) (lists : Lists Q C H) : Prop where
  queues : ∀ q, (s.queues q).Reads stealable (lists (.queue q))
  caches : ∀ c, (s.caches c).Reads stealable (lists (.cache c))
  decks : ∀ c, lists (.deck c) = (s.caches c).onDeck.toList
  stolen : ∀ thief, s.stolen thief = (lists (.stolen thief)).head?
  booty : ∀ thief, ∀ node ∈ lists (.stolen thief), stealable node = true

structure Holds (s : State Q C H) (lists : Lists Q C H) : Prop where
  owned : Owned s.heap lists
  fields : Fields s.heap.stealable s lists

def deques (heap : Heap) (lists : Lists Q C H) (place : Place Q C H) : List Task :=
  (lists place).map heap.value

namespace Holds

variable {s : State Q C H} {lists : Lists Q C H}

theorem queue (holds : Holds s lists) (q : Q) : (s.queues q).Shows s.heap (lists (.queue q)) :=
  ⟨holds.fields.queues q, holds.owned.linked _, holds.owned.once _⟩

theorem cache (holds : Holds s lists) (c : C) :
    (s.caches c).toQueue.Shows s.heap (lists (.cache c)) :=
  ⟨holds.fields.caches c, holds.owned.linked _, holds.owned.once _⟩

end Holds

theorem Owned.fuel {heap : Heap} {lists : Lists Q C H} (owned : Owned heap lists)
    (place : Place Q C H) : (lists place).length < heap.fuel := by
  have few := (List.subperm_of_subset (owned.once place) (owned.live place)).length_le
  exact Nat.lt_succ_of_le few

theorem Owned.disjoint {heap : Heap} {lists : Lists Q C H} (owned : Owned heap lists)
    {place other : Place Q C H} (differs : place ≠ other) : (lists place ++ lists other).Nodup := by
  refine List.nodup_append.mpr ⟨owned.once _, owned.once _, ?_⟩
  rintro a here b there rfl
  exact differs (owned.apart _ _ a here there)

theorem walk_eq {links : Links Nat} {before : Option Nat} {nodes : List Nat} {fuel : Nat}
    (linked : links.Segment before nodes none) (enough : nodes.length < fuel) :
    walk links.next fuel nodes.head? = nodes := by
  induction nodes generalizing before fuel with
  | nil =>
    cases fuel with
    | zero => rfl
    | succ fuel => rfl
  | cons node rest ih =>
    cases fuel with
    | zero => exact absurd enough (Nat.not_lt_zero _)
    | succ fuel =>
      obtain ⟨-, next, later⟩ := linked
      rw [Option.or_none] at next
      rw [List.head?_cons, walk, next, ih later (Nat.lt_of_succ_lt_succ enough)]

theorem Holds.nodes_eq {s : State Q C H} {lists : Lists Q C H} (holds : Holds s lists)
    (place : Place Q C H) : s.nodes place = lists place := by
  have start : s.start place = (lists place).head? := by
    cases place with
    | queue q => exact (holds.fields.queues q).head
    | cache c => exact (holds.fields.caches c).head
    | deck c =>
      rw [holds.fields.decks c, State.start]
      cases (s.caches c).onDeck <;> rfl
    | stolen thief => exact holds.fields.stolen thief
  rw [State.nodes, start]
  exact walk_eq (holds.owned.linked place) (holds.owned.fuel place)

namespace Owned

variable {heap : Heap} {lists : Lists Q C H} {node : Nat}

theorem alloc (owned : Owned heap lists) (fresh : node ∉ heap.allocated) (t : Task) :
    Owned (heap.alloc node t) lists ∧ Loose (heap.alloc node t) lists node := by
  have differs : ∀ place, ∀ other ∈ lists place, other ≠ node := by
    rintro place other member rfl
    exact fresh (owned.live place other member)
  refine ⟨⟨owned.linked, owned.once, owned.apart, ?_, ?_⟩, List.mem_cons_self, ?_, ?_⟩
  · intro place other member
    exact List.mem_cons_of_mem _ (owned.live place other member)
  · intro place other member
    have away := differs place other member
    simp only [Heap.alloc, Function.update_of_ne away]
    exact owned.marked place other member
  · simp only [Heap.alloc, Function.update_self]
  · intro place member
    exact differs place node member rfl

theorem free (owned : Owned heap lists) (gone : ∀ place, node ∉ lists place) :
    Owned (heap.free node) lists where
  linked := owned.linked
  once := owned.once
  apart := owned.apart
  live := by
    intro place other member
    have differs : other ≠ node := by
      rintro rfl
      exact gone place member
    exact (List.mem_erase_of_ne differs).mpr (owned.live place other member)
  marked := owned.marked

end Owned

theorem Loose.frame {heap after : Heap} {lists : Lists Q C H} {node : Nat} {touched : List Nat}
    (loose : Loose heap lists node) (frame : heap.Frame after touched) : Loose after lists node := by
  refine ⟨?_, ?_, loose.outside⟩
  · rw [frame.allocated]
    exact loose.live
  · rw [frame.stealable, frame.value]
    exact loose.marked

variable [DecidableEq Q] [DecidableEq C] [DecidableEq H]

namespace Owned

variable {heap after : Heap} {lists : Lists Q C H} {place : Place Q C H}
  {touched nodes : List Nat}

theorem replace (owned : Owned heap lists) (frame : heap.Frame after touched)
    (touches : ∀ node ∈ touched, node ∈ lists place ∨ Loose heap lists node)
    (linked : after.toLinks.Segment none nodes none) (once : nodes.Nodup)
    (source : ∀ node ∈ nodes, node ∈ lists place ∨ Loose heap lists node) :
    Owned after (Function.update lists place nodes) := by
  have kept : ∀ r, r ≠ place → ∀ node ∈ lists r, node ∉ touched := by
    intro r differs node member inside
    rcases touches node inside with here | loose
    · exact differs (owned.apart r place node member here)
    · exact loose.outside r member
  have apart : ∀ r, r ≠ place → ∀ node ∈ lists r, node ∉ nodes := by
    intro r differs node member inside
    rcases source node inside with here | loose
    · exact differs (owned.apart r place node member here)
    · exact loose.outside r member
  refine ⟨?_, ?_, ?_, ?_, ?_⟩
  · intro r
    by_cases same : r = place
    · rw [same, Function.update_self]
      exact linked
    · rw [Function.update_of_ne same]
      exact frame.segment (owned.linked r) (kept r same)
  · intro r
    by_cases same : r = place
    · rw [same, Function.update_self]
      exact once
    · rw [Function.update_of_ne same]
      exact owned.once r
  · intro r t node inR inT
    by_cases sameR : r = place
    · by_cases sameT : t = place
      · rw [sameR, sameT]
      · rw [sameR, Function.update_self] at inR
        rw [Function.update_of_ne sameT] at inT
        exact absurd inR (apart t sameT node inT)
    · rw [Function.update_of_ne sameR] at inR
      by_cases sameT : t = place
      · rw [sameT, Function.update_self] at inT
        exact absurd inT (apart r sameR node inR)
      · rw [Function.update_of_ne sameT] at inT
        exact owned.apart r t node inR inT
  · intro r node member
    rw [frame.allocated]
    by_cases same : r = place
    · rw [same, Function.update_self] at member
      rcases source node member with here | loose
      · exact owned.live place node here
      · exact loose.live
    · rw [Function.update_of_ne same] at member
      exact owned.live r node member
  · intro r node member
    rw [frame.stealable, frame.value]
    by_cases same : r = place
    · rw [same, Function.update_self] at member
      rcases source node member with here | loose
      · exact owned.marked place node here
      · exact loose.marked
    · rw [Function.update_of_ne same] at member
      exact owned.marked r node member

theorem drop (owned : Owned heap lists) (fewer : nodes ⊆ lists place) (once : nodes.Nodup)
    (frame : heap.Frame after (lists place)) (linked : after.toLinks.Segment none nodes none) :
    Owned after (Function.update lists place nodes) ∧
      ∀ node ∈ lists place, node ∉ nodes → Loose after (Function.update lists place nodes) node := by
  refine ⟨owned.replace frame (fun _ member => .inl member) linked once
    (fun _ member => .inl (fewer member)), ?_⟩
  intro node member gone
  refine ⟨?_, ?_, ?_⟩
  · rw [frame.allocated]
    exact owned.live place node member
  · rw [frame.stealable, frame.value]
    exact owned.marked place node member
  · intro r inside
    by_cases same : r = place
    · rw [same, Function.update_self] at inside
      exact gone inside
    · rw [Function.update_of_ne same] at inside
      exact same (owned.apart r place node inside member)

theorem empty (owned : Owned heap lists) (place : Place Q C H) :
    Owned heap (Function.update lists place []) ∧
      ∀ node ∈ lists place, Loose heap (Function.update lists place []) node := by
  obtain ⟨kept, loose⟩ := owned.drop (List.nil_subset _) List.nodup_nil (.refl heap _) trivial
  exact ⟨kept, fun node member => loose node member List.not_mem_nil⟩

end Owned

theorem Loose.update {heap : Heap} {lists : Lists Q C H} {node : Nat} {nodes : List Nat}
    (loose : Loose heap lists node) (place : Place Q C H) (outside : node ∉ nodes) :
    Loose heap (Function.update lists place nodes) node := by
  refine ⟨loose.live, loose.marked, ?_⟩
  intro r member
  by_cases same : r = place
  · rw [same, Function.update_self] at member
    exact outside member
  · rw [Function.update_of_ne same] at member
    exact loose.outside r member

namespace Fields

variable {stealable : Nat → Bool} {s : State Q C H} {lists : Lists Q C H} {nodes : List Nat}

theorem setQueue {q : Q} {queue : Queue} (fields : Fields stealable s lists)
    (reads : queue.Reads stealable nodes) (heap : Heap) :
    Fields stealable (s.setQueue heap q queue) (Function.update lists (.queue q) nodes) := by
  refine ⟨?_, fields.caches, fields.decks, fields.stolen, fields.booty⟩
  intro r
  by_cases same : r = q
  · subst same
    simp only [State.setQueue, Function.update_self]
    exact reads
  · have differs : Place.queue r ≠ (Place.queue q : Place Q C H) := fun equal =>
      same (Place.queue.inj equal)
    simp only [State.setQueue, Function.update_of_ne same, Function.update_of_ne differs]
    exact fields.queues r

theorem setCache {c : C} {cache : Cache} (fields : Fields stealable s lists)
    (reads : cache.Reads stealable nodes) (heap : Heap) :
    Fields stealable (s.setCache heap c cache)
      (Function.update (Function.update lists (.cache c) nodes) (.deck c) cache.onDeck.toList) := by
  refine ⟨fields.queues, ?_, ?_, fields.stolen, fields.booty⟩
  · intro r
    have elsewhere : Place.cache r ≠ (Place.deck c : Place Q C H) := nofun
    rw [Function.update_of_ne elsewhere]
    by_cases same : r = c
    · subst same
      simp only [State.setCache, Function.update_self]
      exact reads
    · have differs : Place.cache r ≠ (Place.cache c : Place Q C H) := fun equal =>
        same (Place.cache.inj equal)
      simp only [State.setCache, Function.update_of_ne same, Function.update_of_ne differs]
      exact fields.caches r
  · intro r
    by_cases same : r = c
    · subst same
      simp only [State.setCache, Function.update_self]
    · have differs : Place.deck r ≠ (Place.deck c : Place Q C H) := fun equal =>
        same (Place.deck.inj equal)
      simp only [State.setCache, Function.update_of_ne same, Function.update_of_ne differs]
      exact fields.decks r

theorem setStolen (fields : Fields stealable s lists) (thief : H)
    (booty : ∀ node ∈ nodes, stealable node = true) :
    Fields stealable (s.setStolen thief nodes.head?)
      (Function.update lists (.stolen thief) nodes) := by
  refine ⟨fields.queues, fields.caches, fields.decks, ?_, ?_⟩
  · intro other
    by_cases same : other = thief
    · subst same
      simp only [State.setStolen, Function.update_self]
    · have differs : Place.stolen other ≠ (Place.stolen thief : Place Q C H) := fun equal =>
        same (Place.stolen.inj equal)
      simp only [State.setStolen, Function.update_of_ne same, Function.update_of_ne differs]
      exact fields.stolen other
  · intro other
    by_cases same : other = thief
    · subst same
      rw [Function.update_self]
      exact booty
    · have differs : Place.stolen other ≠ (Place.stolen thief : Place Q C H) := fun equal =>
        same (Place.stolen.inj equal)
      rw [Function.update_of_ne differs]
      exact fields.booty other

end Fields

def Op.Acts (before : Place Q C H → List Task) :
    Op Q C H → Option Task → (Place Q C H → List Task) → Prop
  | enqueue q t _, result, after => result = none ∧
      after = Function.update before (.queue q) (before (.queue q) ++ [t])
  | enqueueYielded q t _, result, after => result = none ∧
      after = Function.update before (.queue q) (t :: before (.queue q))
  | privateEnqueue c t _, result, after => result = none ∧
      after = Function.update (Function.update before (.cache c)
        (before (.cache c) ++ before (.deck c))) (.deck c) [t]
  | privateEnqueueYielded c t _, result, after => result = none ∧
      after = Function.update before (.cache c) (t :: before (.cache c))
  | enqueueCache q c, result, after => result = none ∧
      after = Function.update (Function.update (Function.update before (.cache c) []) (.deck c) [])
        (.queue q) (before (.queue q) ++ (before (.deck c) ++ before (.cache c)))
  | getThread q qc, result, after =>
    (∃ c t, qc = some c ∧ before (.deck c) = [t] ∧ result = some t ∧
      after = Function.update (Function.update (Function.update before (.cache c) []) (.deck c) [])
        (.queue q) (before (.queue q) ++ before (.cache c))) ∨
    (∀ c, qc = some c → before (.deck c) = []) ∧
      (before (.queue q) = [] ∧ result = none ∧ after = before ∨
        ∃ rest t, before (.queue q) = rest ++ [t] ∧ result = some t ∧
          after = Function.update before (.queue q) rest)
  | dequeueSteal thief v stealChunksize seen locked, result, after => result = none ∧
      let picked := pick Task.isStealable (stealAmount stealChunksize seen locked) (before (.queue v))
      before (.stolen thief) = [] ∧
        after = Function.update (Function.update before (.queue v) picked.1) (.stolen thief) picked.2
  | enqueueMultiple thief q, result, after => result = none ∧
      ∃ t rest, before (.stolen thief) = t :: rest ∧
        after = Function.update (Function.update before (.stolen thief) [t]) (.queue q)
          (before (.queue q) ++ rest)
  | takeStolen thief, result, after => ∃ t, before (.stolen thief) = [t] ∧ result = some t ∧
      after = Function.update before (.stolen thief) []
  | dequeueSpecific q value, result, after =>
    (result = none ∧ after = before ∧ ∀ t ∈ before (.queue q), t.ret ≠ value) ∨
    ∃ front t back, before (.queue q) = front ++ [t] ++ back ∧ t.ret = value ∧
      (∀ later ∈ back, later.ret ≠ value) ∧ result = some t ∧
      after = Function.update before (.queue q) (front ++ back ++ [t])

def Op.Refines (s : State Q C H) (lists : Lists Q C H) (op : Op Q C H) : Prop :=
  ∃ result after lists', op.apply s = some (result, after) ∧ Holds after lists' ∧
    op.Acts (deques s.heap lists) result (deques after.heap lists')

theorem deques_update {heap after : Heap} (lists : Lists Q C H) (place : Place Q C H)
    (nodes : List Nat) (value : after.value = heap.value) :
    deques after (Function.update lists place nodes) =
      Function.update (deques heap lists) place (nodes.map heap.value) := by
  funext r
  by_cases same : r = place
  · rw [same, deques, Function.update_self, Function.update_self, value]
  · rw [deques, Function.update_of_ne same, Function.update_of_ne same, value, deques]

end Qthreads.Sherwood
