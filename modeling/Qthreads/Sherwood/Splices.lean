import Qthreads.Sherwood.Machine

namespace Qthreads.Sherwood

open Lib Links
open Function (update_of_ne update_self)

structure Queue.Reads (stealable : Nat → Bool) (q : Queue) (nodes : List Nat) : Prop where
  head : q.head = nodes.head?
  tail : q.tail = nodes.getLast?
  qlength : q.qlength = nodes.length
  qlengthStealable : q.qlengthStealable = nodes.countP stealable

/-- A queue as it should be: what `sanity_check_queue` checks, and the pointers in both
directions. -/
structure Queue.Shows (heap : Heap) (q : Queue) (nodes : List Nat) : Prop
    extends q.Reads heap.stealable nodes where
  linked : heap.toLinks.Segment none nodes none
  once : nodes.Nodup

structure Heap.Frame (heap after : Heap) (touched : List Nat) : Prop where
  same : ∀ node ∉ touched, heap.toLinks.SameAt after.toLinks node
  stealable : after.stealable = heap.stealable
  value : after.value = heap.value
  allocated : after.allocated = heap.allocated

namespace Heap.Frame

variable {heap next after : Heap} {touched wider : List Nat} {node : Nat}

theorem refl (heap : Heap) (touched : List Nat) : heap.Frame heap touched :=
  ⟨fun node _ => .refl _ node, rfl, rfl, rfl⟩

theorem trans (front : heap.Frame next touched) (back : next.Frame after touched) :
    heap.Frame after touched where
  same node outside := (front.same node outside).trans (back.same node outside)
  stealable := back.stealable.trans front.stealable
  value := back.value.trans front.value
  allocated := back.allocated.trans front.allocated

theorem mono (frame : heap.Frame after touched) (within : touched ⊆ wider) :
    heap.Frame after wider :=
  ⟨fun node outside => frame.same node fun member => outside (within member), frame.stealable,
    frame.value, frame.allocated⟩

theorem setNext (heap : Heap) (target : Option Nat) (member : node ∈ touched) :
    heap.Frame (heap.setNext node target) touched :=
  ⟨fun _ outside => .setNext _ target fun same => outside (same ▸ member), rfl, rfl, rfl⟩

theorem setPrev (heap : Heap) (target : Option Nat) (member : node ∈ touched) :
    heap.Frame (heap.setPrev node target) touched :=
  ⟨fun _ outside => .setPrev _ target fun same => outside (same ▸ member), rfl, rfl, rfl⟩

theorem segment {nodes : List Nat} {before behind : Option Nat} (frame : heap.Frame after touched)
    (linked : heap.toLinks.Segment before nodes behind) (apart : ∀ node ∈ nodes, node ∉ touched) :
    after.toLinks.Segment before nodes behind :=
  linked.congr fun node member => frame.same node (apart node member)

end Heap.Frame

variable {heap : Heap} {q : Queue} {front back nodes : List Nat} {first last node : Nat}

theorem mem_head {list : List Nat} (starts : list.head? = some first) : first ∈ list :=
  List.mem_of_mem_head? starts

theorem weight_eq (heap : Heap) (node : Nat) : heap.weight node = [node].countP heap.stealable := by
  cases marked : heap.stealable node <;> simp [Heap.weight, marked]

theorem linkAtTail_shows {left : Option Nat} (shows : q.Shows heap front)
    (linked : heap.toLinks.Segment left back none) (once : (front ++ back).Nodup)
    (starts : back.head? = some first) (ends : back.getLast? = some last) :
    ∃ after queue, linkAtTail heap q first last = some (after, queue) ∧
      heap.Frame after (front ++ back) ∧
      (queue.counted back.length (back.countP heap.stealable)).Shows after (front ++ back) := by
  have firstIn : first ∈ front ++ back := List.mem_append_right _ (mem_head starts)
  have lengths : (q.qlength + back.length : Int) = (front ++ back).length := by
    rw [shows.qlength, List.length_append, Int.natCast_add]
  have counts : (q.qlengthStealable + back.countP heap.stealable : Int) =
      (front ++ back).countP heap.stealable := by
    rw [shows.qlengthStealable, List.countP_append, Int.natCast_add]
  have tail : (front ++ back).getLast? = some last := by
    rw [List.getLast?_append, ends]
    rfl
  cases before : front.getLast? with
  | none =>
    have empty := List.getLast?_eq_none_iff.mp before
    subst empty
    have head : q.head = none := shows.head
    refine ⟨heap.setPrev first q.tail, { q with head := some first, tail := some last }, ?_,
      .setPrev heap _ firstIn, ?_⟩
    · simp only [linkAtTail, head]
    · rw [shows.tail]
      exact ⟨⟨starts.symm, ends.symm, lengths, counts⟩, linked.setPrev_first once starts _, once⟩
  | some other =>
    have otherIn : other ∈ front ++ back := List.mem_append_left _ (List.mem_of_getLast? before)
    cases head : front.head? with
    | none =>
      rw [List.head?_eq_none_iff.mp head] at before
      cases before
    | some start =>
      have heads : q.head = some start := shows.head.trans head
      have tails : q.tail = some other := shows.tail.trans before
      refine ⟨(heap.setPrev first (some other)).setNext other (some first),
        { q with tail := some last }, ?_,
        (Heap.Frame.setPrev heap _ firstIn).trans (.setNext _ _ otherIn), ?_⟩
      · simp only [linkAtTail, heads, tails, Heap.setPrev, Links.setPrev, update_self,
          Option.map_some]
      · refine ⟨⟨?_, tail.symm, lengths, counts⟩,
          shows.linked.join linked once before starts, once⟩
        rw [List.head?_append, head]
        exact heads

theorem linkAtHead_shows (shows : q.Shows heap nodes) (outside : node ∉ nodes) :
    ∃ after queue, linkAtHead heap q node = some (after, queue) ∧
      heap.Frame after (node :: nodes) ∧
      (queue.counted 1 (heap.weight node)).Shows after (node :: nodes) := by
  have once : (node :: nodes).Nodup := List.nodup_cons.mpr ⟨outside, shows.once⟩
  have lengths : (q.qlength + 1 : Int) = (node :: nodes).length := by
    rw [shows.qlength, List.length_cons, Int.natCast_add]
    rfl
  have counts : (q.qlengthStealable + heap.weight node : Int) =
      (node :: nodes).countP heap.stealable := by
    rw [shows.qlengthStealable, weight_eq, show node :: nodes = [node] ++ nodes from rfl,
      List.countP_append, Int.natCast_add, Int.add_comm]
  have alone : ((heap.setPrev node none).setNext node q.head).toLinks.Segment none [node] q.head :=
    ⟨update_self .., update_self .., trivial⟩
  have others : ((heap.setPrev node none).setNext node q.head).toLinks.Segment none nodes none :=
    (shows.linked.setPrev_other outside _).setNext_other outside _
  have frame : heap.Frame ((heap.setPrev node none).setNext node q.head) (node :: nodes) :=
    (Heap.Frame.setPrev heap _ List.mem_cons_self).trans (.setNext _ _ List.mem_cons_self)
  cases head : nodes.head? with
  | none =>
    have empty := List.head?_eq_none_iff.mp head
    subst empty
    have tail : q.tail = none := shows.tail
    have heads : q.head = none := shows.head
    refine ⟨_, { q with head := some node, tail := some node }, ?_, frame,
      ⟨rfl, rfl, lengths, counts⟩, ?_, once⟩
    · simp only [linkAtHead, tail]
    · rw [heads] at alone ⊢
      exact alone
  | some after =>
    have afterIn : after ∈ nodes := mem_head head
    have heads : q.head = some after := shows.head.trans head
    have apart : after ≠ node := fun same => outside (same ▸ afterIn)
    cases tail : nodes.getLast? with
    | none =>
      rw [List.getLast?_eq_none_iff.mp tail] at afterIn
      cases afterIn
    | some last =>
      have tails : q.tail = some last := shows.tail.trans tail
      rw [heads] at alone others frame
      refine ⟨((heap.setPrev node none).setNext node (some after)).setPrev after (some node),
        { q with head := some node }, ?_,
        frame.trans (.setPrev _ _ (List.mem_cons_of_mem _ afterIn)),
        ⟨rfl, ?_, lengths, counts⟩, ?_, once⟩
      · simp only [linkAtHead, tails, heads, Heap.setNext, Links.setNext, update_self,
          Option.map_some]
      · rw [List.getLast?_cons, tail]
        exact tails
      · have single : after ∉ [node] := fun member => apart (List.mem_singleton.mp member)
        refine ⟨(alone.setPrev_other single _).1, ?_, others.setPrev_first shows.once head _⟩
        rw [head]
        exact (alone.setPrev_other single _).2.1

theorem dequeue_empty (shows : q.Shows heap []) : dequeue heap q = (none, heap, q) := by
  have head : q.head = none := shows.head
  simp only [dequeue, head]

theorem dequeue_shows (shows : q.Shows heap (nodes ++ [node])) :
    ∃ after queue, dequeue heap q = (some node, after, queue) ∧
      heap.Frame after (nodes ++ [node]) ∧ queue.Shows after nodes := by
  obtain ⟨once, -, apart⟩ := List.nodup_append.mp shows.once
  obtain ⟨early, prev, -, -⟩ := Segment.append.mp shows.linked
  have tail : q.tail = some node := by
    rw [shows.tail, List.getLast?_append]
    rfl
  have lengths : (q.qlength + -1 : Int) = nodes.length := by
    rw [shows.qlength, List.length_append]
    simp
  have counts : (q.qlengthStealable + -heap.weight node : Int) = nodes.countP heap.stealable := by
    rw [shows.qlengthStealable, weight_eq, List.countP_append, Int.natCast_add]
    omega
  cases before : nodes.getLast? with
  | none =>
    have empty := List.getLast?_eq_none_iff.mp before
    subst empty
    have head : q.head = some node := shows.head
    have null : heap.prev node = none := prev
    refine ⟨heap, { q.counted (-1) (-heap.weight node) with head := none, tail := none }, ?_,
      .refl heap _, ⟨rfl, rfl, lengths, counts⟩, trivial, once⟩
    simp only [dequeue, head, tail, null]
  | some other =>
    have otherIn : other ∈ nodes := List.mem_of_getLast? before
    cases head : nodes.head? with
    | none =>
      rw [List.head?_eq_none_iff.mp head] at before
      cases before
    | some start =>
      have heads : q.head = some start := by
        rw [shows.head, List.head?_append, head]
        rfl
      have back : heap.prev node = some other := by
        rw [prev, before]
        rfl
      refine ⟨heap.setNext other none,
        { q.counted (-1) (-heap.weight node) with tail := some other }, ?_,
        .setNext heap _ (List.mem_append_left _ otherIn),
        ⟨?_, before.symm, lengths, counts⟩, early.setNext_last once before _, once⟩
      · simp only [dequeue, heads, tail, back]
      · exact heads.trans head.symm

def patch (heap : Heap) (before after : Option Nat) : Heap :=
  let heap := match before with
    | none => heap
    | some last => heap.setNext last after
  match after with
  | none => heap
  | some first => heap.setPrev first before

theorem patch_frame (heap : Heap) (front run back : List Nat) :
    heap.Frame (patch heap front.getLast? back.head?) (front ++ run ++ back) := by
  have early : ∀ {heap : Heap} {last target}, front.getLast? = some last →
      heap.Frame (heap.setNext last target) (front ++ run ++ back) := by
    intro heap last target ends
    exact .setNext heap target
      (List.mem_append_left _ (List.mem_append_left _ (List.mem_of_getLast? ends)))
  have late : ∀ {heap : Heap} {first target}, back.head? = some first →
      heap.Frame (heap.setPrev first target) (front ++ run ++ back) := by
    intro heap first target starts
    exact .setPrev heap target (List.mem_append_right _ (mem_head starts))
  cases before : front.getLast? with
  | none =>
    cases after : back.head? with
    | none => exact .refl heap _
    | some first => exact late after
  | some last =>
    cases after : back.head? with
    | none => exact early before
    | some first => exact (early before).trans (late after)

theorem patch_linked {left right : Option Nat} (early : heap.toLinks.Segment none front left)
    (late : heap.toLinks.Segment right back none) (once : (front ++ back).Nodup) :
    (patch heap front.getLast? back.head?).toLinks.Segment none (front ++ back) none := by
  obtain ⟨frontOnce, backOnce, -⟩ := List.nodup_append.mp once
  cases before : front.getLast? with
  | none =>
    have empty := List.getLast?_eq_none_iff.mp before
    subst empty
    cases after : back.head? with
    | none =>
      have nothing := List.head?_eq_none_iff.mp after
      subst nothing
      trivial
    | some first => exact late.setPrev_first backOnce after none
  | some last =>
    cases after : back.head? with
    | none =>
      have nothing := List.head?_eq_none_iff.mp after
      subst nothing
      rw [List.append_nil]
      exact early.setNext_last frontOnce before none
    | some first => exact early.join late once before after

section CutRun

variable {run : List Nat} {v : Queue}

theorem segment_parts {links : Links Nat}
    (linked : links.Segment none (front ++ run ++ back) none) :
    links.Segment none front ((run ++ back).head?.or none) ∧
      links.Segment front.getLast? run back.head? ∧
      links.Segment ((front ++ run).getLast?.or none) back none := by
  obtain ⟨both, late⟩ := Segment.append.mp linked
  obtain ⟨early, middle⟩ := Segment.append.mp both
  refine ⟨?_, ?_, late⟩
  · rw [List.head?_append, Option.or_assoc]
    exact early
  · rw [Option.or_none, Option.or_none] at middle
    exact middle

theorem head_first (once : (front ++ run ++ back).Nodup) (starts : run.head? = some first) :
    (front ++ run ++ back).head? = some first ↔ front.getLast? = none := by
  rw [List.getLast?_eq_none_iff]
  cases front with
  | nil =>
    rw [List.nil_append, List.head?_append, starts]
    exact iff_of_true rfl rfl
  | cons start rest =>
    refine iff_of_false ?_ (List.cons_ne_nil _ _)
    intro same
    rw [List.cons_append, List.cons_append, List.head?_cons, Option.some.injEq] at same
    subst same
    have twice := (List.nodup_cons.mp once).1
    simp [mem_head starts] at twice

theorem tail_last (once : (front ++ run ++ back).Nodup) (ends : run.getLast? = some last) :
    (front ++ run ++ back).getLast? = some last ↔ back.head? = none := by
  rw [List.head?_eq_none_iff, List.getLast?_append]
  cases final : back.getLast? with
  | none =>
    rw [List.getLast?_eq_none_iff.mp final, List.getLast?_append, ends]
    exact iff_of_true rfl rfl
  | some other =>
    refine iff_of_false ?_ ?_
    · intro same
      cases same
      have apart := (List.nodup_append.mp once).2.2
      exact apart last (List.mem_append_right _ (List.mem_of_getLast? ends)) last
        (List.mem_of_getLast? final) rfl
    · rintro rfl
      cases final

theorem getLast?_middle (starts : back.head? = some node) :
    (front ++ run ++ back).getLast? = (front ++ back).getLast? := by
  have nonempty : back ≠ [] := by
    rintro rfl
    cases starts
  rw [List.getLast?_append_of_ne_nil _ nonempty, List.getLast?_append_of_ne_nil _ nonempty]

theorem head?_middle (ends : front.getLast? = some node) :
    (front ++ run ++ back).head? = (front ++ back).head? := by
  cases front with
  | nil => cases ends
  | cons start rest => rfl

theorem cutRun_eq (head : v.head = (front ++ run ++ back).head?)
    (tail : v.tail = (front ++ run ++ back).getLast?)
    (linked : heap.toLinks.Segment none (front ++ run ++ back) none)
    (once : (front ++ run ++ back).Nodup) (starts : run.head? = some first)
    (ends : run.getLast? = some last) :
    cutRun heap v first last = some (back.head?,
      ((patch heap front.getLast? back.head?).setPrev first none).setNext last none,
      { v with head := (front ++ back).head?, tail := (front ++ back).getLast? }) := by
  obtain ⟨-, middle, -⟩ := segment_parts linked
  have next : heap.next last = back.head? := middle.next_last ends
  have prev : heap.prev first = front.getLast? := middle.prev_first starts
  have atHead := head_first once starts
  have atTail := tail_last once ends
  rw [← head] at atHead
  rw [← tail] at atTail
  cases before : front.getLast? with
  | none =>
    have empty := List.getLast?_eq_none_iff.mp before
    subst empty
    have top : v.head = some first := atHead.mpr rfl
    cases after : back.head? with
    | none =>
      have nothing := List.head?_eq_none_iff.mp after
      subst nothing
      have bottom : v.tail = some last := atTail.mpr rfl
      simp only [cutRun, top, bottom, if_true, Option.bind_eq_bind, Option.bind_some, next, prev,
        patch]
      rfl
    | some other =>
      have bottom : ¬ v.tail = some last := by
        rw [atTail, after]
        exact Option.some_ne_none _
      rw [after] at next
      simp only [cutRun, top, if_true, Option.bind_eq_bind, Option.bind_some, bottom, if_false,
        next, prev, Option.map_some, patch]
      simp only [Heap.setPrev, Links.setPrev, next, tail, getLast?_middle after]
      rw [List.nil_append, after]
      rfl
  | some other =>
    have top : ¬ v.head = some first := by
      rw [atHead, before]
      exact Option.some_ne_none _
    have apart : last ≠ other := by
      rintro rfl
      exact (List.nodup_append.mp (List.nodup_append.mp once).1).2.2 _
        (List.mem_of_getLast? before) _ (List.mem_of_getLast? ends) rfl
    have still : (heap.setNext other back.head?).next last = back.head? :=
      (update_of_ne apart ..).trans next
    have before' : (heap.setNext other back.head?).prev first = some other :=
      prev.trans before
    simp only [cutRun, top, if_false, prev, before, Option.map_some, Option.bind_eq_bind,
      Option.bind_some, next, patch]
    cases after : back.head? with
    | none =>
      have nothing := List.head?_eq_none_iff.mp after
      subst nothing
      have bottom : v.tail = some last := atTail.mpr rfl
      rw [List.head?_nil] at still before'
      have heads : v.head = front.head? := by
        rw [head, head?_middle before, List.append_nil]
      simp only [bottom, if_true, before', still, List.append_nil, before, heads]
      rfl
    | some follower =>
      have bottom : ¬ v.tail = some last := by
        rw [atTail, after]
        exact Option.some_ne_none _
      rw [after] at still before'
      have still' : ((heap.setNext other (some follower)).setPrev follower (some other)).next
          last = some follower := still
      simp only [bottom, if_false, still, before', Option.map_some, Option.bind_some, still']
      rw [← head?_middle before, ← head, ← getLast?_middle after, ← tail]
      rfl

theorem nodup_rest (once : (front ++ run ++ back).Nodup) : (front ++ back).Nodup := by
  refine once.sublist ?_
  rw [List.append_assoc]
  exact (List.Sublist.refl front).append (List.sublist_append_right _ _)

theorem not_mem_rest (once : (front ++ run ++ back).Nodup) (member : node ∈ run) :
    node ∉ front ++ back := by
  obtain ⟨both, -, apart⟩ := List.nodup_append.mp once
  intro inside
  rcases List.mem_append.mp inside with early | late
  · exact (List.nodup_append.mp both).2.2 node early node member rfl
  · exact apart node (List.mem_append_right _ member) node late rfl

theorem patch_run (linked : heap.toLinks.Segment none (front ++ run ++ back) none)
    (once : (front ++ run ++ back).Nodup) :
    (patch heap front.getLast? back.head?).toLinks.Segment front.getLast? run back.head? := by
  obtain ⟨-, middle, -⟩ := segment_parts linked
  have frame := patch_frame heap front [] back
  rw [List.append_nil] at frame
  exact frame.segment middle fun node member => not_mem_rest once member

theorem cutRun_linked (linked : heap.toLinks.Segment none (front ++ run ++ back) none)
    (once : (front ++ run ++ back).Nodup) (starts : run.head? = some first)
    (ends : run.getLast? = some last) {after : Heap}
    (cut : after = ((patch heap front.getLast? back.head?).setPrev first none).setNext last none) :
    heap.Frame after (front ++ run ++ back) ∧ after.toLinks.Segment none (front ++ back) none ∧
      after.toLinks.Segment none run none := by
  subst cut
  obtain ⟨early, -, late⟩ := segment_parts linked
  have inside : ∀ node ∈ run, node ∈ front ++ run ++ back := fun node member =>
    List.mem_append_left _ (List.mem_append_right _ member)
  have firstIn := mem_head starts
  have lastIn := List.mem_of_getLast? ends
  have runOnce := (List.nodup_append.mp (List.nodup_append.mp once).1).2.1
  refine ⟨((patch_frame heap front run back).trans (.setPrev _ _ (inside first firstIn))).trans
    (.setNext _ _ (inside last lastIn)), ?_, ?_⟩
  · exact ((patch_linked early late (nodup_rest once)).setPrev_other
      (not_mem_rest once firstIn) _).setNext_other (not_mem_rest once lastIn) _
  · exact ((patch_run linked once).setPrev_first runOnce starts _).setNext_last runOnce ends _

end CutRun

theorem moveToTail_shows (shows : q.Shows heap (front ++ [node] ++ back)) (nonempty : back ≠ []) :
    ∃ after queue, moveToTail heap q node = some (after, queue) ∧
      heap.Frame after (front ++ [node] ++ back) ∧ queue.Shows after (front ++ back ++ [node]) := by
  obtain ⟨early, ⟨prev, next, -⟩, late⟩ := segment_parts shows.linked
  have once := shows.once
  have outside : node ∉ front ++ back := not_mem_rest once (List.mem_singleton.mpr rfl)
  have perm : (front ++ back ++ [node]).Perm (front ++ [node] ++ back) := by
    rw [List.append_assoc, List.append_assoc]
    exact (List.perm_append_comm).append_left front
  obtain ⟨follower, starts⟩ : ∃ follower, back.head? = some follower := by
    cases back with
    | nil => exact absurd rfl nonempty
    | cons follower rest => exact ⟨follower, rfl⟩
  obtain ⟨tail, ends⟩ : ∃ tail, back.getLast? = some tail :=
    ⟨_, List.getLast?_eq_some_getLast nonempty⟩
  have tails : q.tail = some tail := by
    rw [shows.tail, List.getLast?_append, ends]
    rfl
  have next : heap.next node = some follower := next.trans starts
  have middle : [node].head? = some node := rfl
  have atHead := head_first once middle
  rw [← shows.head] at atHead
  have ran : moveToTail heap q node = some
      ((((patch heap front.getLast? back.head?).setNext node none).setPrev node q.tail).setNext tail
        (some node), { q with head := (front ++ back).head?, tail := some node }) := by
    cases before : front.getLast? with
    | none =>
      have empty := List.getLast?_eq_none_iff.mp before
      subst empty
      have null : heap.prev node = none := prev
      have top : q.head = some node := atHead.mpr rfl
      simp only [moveToTail, top, if_true, Option.bind_eq_bind, Option.bind_some, next, null, tails,
        patch, starts, List.nil_append]
      rfl
    | some other =>
      have top : ¬ q.head = some node := by
        rw [atHead, before]
        exact Option.some_ne_none _
      have apart : node ≠ other := by
        rintro rfl
        exact outside (List.mem_append_left _ (List.mem_of_getLast? before))
      have point : heap.prev node = some other := prev.trans before
      have still : (heap.setNext other (some follower)).next node = some follower :=
        (update_of_ne apart ..).trans next
      have heads : q.head = (front ++ back).head? := by
        rw [shows.head, head?_middle before]
      have back_ : (heap.setNext other (some follower)).prev node = some other := point
      simp only [moveToTail, top, if_false, Option.bind_eq_bind, Option.bind_some, point, next,
        Option.map_some, still, back_, tails, patch, starts, ← heads]
      rfl
  have tailIn : tail ∈ front ++ back := List.mem_append_right _ (List.mem_of_getLast? ends)
  have within : ∀ other ∈ front ++ back, other ∈ front ++ [node] ++ back := by
    intro other member
    rw [List.append_assoc]
    exact ((List.Sublist.refl front).append (List.sublist_append_right _ _)).subset member
  have nodeIn : node ∈ front ++ [node] ++ back := by simp
  have frame := (((patch_frame heap front [node] back).trans (.setNext _ none nodeIn)).trans
    (.setPrev _ q.tail nodeIn)).trans (.setNext _ (some node) (within tail tailIn))
  refine ⟨_, _, ran, frame, ⟨?_, ?_, ?_, ?_⟩, ?_, perm.nodup_iff.mpr once⟩
  · change (front ++ back).head? = _
    cases rest : front ++ back with
    | nil =>
      rw [rest] at tailIn
      cases tailIn
    | cons start others => rfl
  · rw [List.getLast?_append]
    rfl
  · rw [perm.length_eq]
    exact shows.qlength
  · rw [frame.stealable, perm.countP_eq]
    exact shows.qlengthStealable
  · rw [tails]
    have apart : (front ++ back ++ [node]).Nodup := perm.nodup_iff.mpr once
    have joined : (front ++ back).getLast? = some tail := by
      rw [List.getLast?_append, ends]
      rfl
    have whole := (patch_linked early late (nodup_rest once)).setNext_other outside none
    have alone : ((patch heap front.getLast? back.head?).toLinks.setNext node none).Segment
        front.getLast? [node] none :=
      (patch_run shows.linked once).setNext_last (List.nodup_singleton _) rfl none
    exact whole.join alone apart joined rfl

theorem lastOf_eq {before : Option Nat} {fuel : Nat} {addCnt : Int}
    (linked : heap.toLinks.Segment before (first :: nodes) none) (enough : nodes.length < fuel) :
    ∃ last, (first :: nodes).getLast? = some last ∧
      lastOf heap fuel first addCnt = some (last, addCnt + nodes.length) := by
  induction nodes generalizing before first fuel addCnt with
  | nil =>
    cases fuel with
    | zero => exact absurd enough (Nat.not_lt_zero _)
    | succ fuel =>
      have next : heap.next first = none := linked.2.1
      refine ⟨first, rfl, ?_⟩
      simp [lastOf, next]
  | cons node rest ih =>
    cases fuel with
    | zero => exact absurd enough (Nat.not_lt_zero _)
    | succ fuel =>
      have next : heap.next first = some node := linked.2.1
      obtain ⟨last, ends, ran⟩ : ∃ last, (node :: rest).getLast? = some last ∧
          lastOf heap fuel node (addCnt + 1) = some (last, addCnt + 1 + rest.length) :=
        ih linked.2.2 (Nat.lt_of_succ_lt_succ enough)
      have total : addCnt + 1 + rest.length = addCnt + (node :: rest).length := by
        rw [List.length_cons]
        omega
      refine ⟨last, ?_, ?_⟩
      · rw [List.getLast?_cons_cons]
        exact ends
      · simp only [lastOf, next, ran, total]

theorem findTask_eq (value : Nat) {fuel : Nat} {after : Option Nat}
    (linked : heap.toLinks.Segment none nodes after) (enough : nodes.length < fuel) :
    findTask heap value fuel nodes.getLast? = some none ∧
        (∀ node ∈ nodes, (heap.value node).ret ≠ value) ∨
      ∃ front node back, nodes = front ++ [node] ++ back ∧ (heap.value node).ret = value ∧
        (∀ later ∈ back, (heap.value later).ret ≠ value) ∧
        findTask heap value fuel nodes.getLast? = some (some node) := by
  induction nodes using List.reverseRecOn generalizing fuel after with
  | nil =>
    cases fuel with
    | zero => exact absurd enough (Nat.not_lt_zero _)
    | succ fuel => exact .inl ⟨rfl, nofun⟩
  | append_singleton rest node ih =>
    cases fuel with
    | zero => exact absurd enough (Nat.not_lt_zero _)
    | succ fuel =>
      obtain ⟨early, prev, -, -⟩ := Segment.append.mp linked
      rw [Option.or_none] at prev
      have last : (rest ++ [node]).getLast? = some node := List.getLast?_concat
      rw [last]
      by_cases found : (heap.value node).ret = value
      · right
        refine ⟨rest, node, [], by rw [List.append_nil], found, nofun, ?_⟩
        simp only [findTask, ne_eq, found, not_true, if_false]
      · have fewer : rest.length < fuel := by
          rw [List.length_append, List.length_singleton] at enough
          omega
        have onward : findTask heap value (fuel + 1) (some node) =
            findTask heap value fuel rest.getLast? := by
          simp only [findTask, ne_eq, found, not_false_eq_true, if_true, prev]
        rw [onward]
        rcases ih early fewer with ⟨ran, absent⟩ | ⟨front, other, back, rfl, same, later, ran⟩
        · refine .inl ⟨ran, ?_⟩
          intro member inside
          rcases List.mem_append.mp inside with before | here
          · exact absent member before
          · cases List.mem_singleton.mp here
            exact found
        · refine .inr ⟨front, other, back ++ [node], by simp only [List.append_assoc], same, ?_,
            ran⟩
          intro member inside
          rcases List.mem_append.mp inside with before | here
          · exact later member before
          · cases List.mem_singleton.mp here
            exact found

end Qthreads.Sherwood
