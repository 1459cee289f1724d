import Qthreads.Sherwood.Splices

namespace Qthreads.Sherwood

open Lib Links

/-! The loop takes the first stealable nodes of the victim, run by run, until it has the amount it
wants. -/

variable {α : Type*}

def pick (wanted : α → Bool) : Nat → List α → List α × List α
  | 0, list => (list, [])
  | _ + 1, [] => ([], [])
  | amount + 1, first :: rest =>
    if wanted first then
      ((pick wanted amount rest).1, first :: (pick wanted amount rest).2)
    else (first :: (pick wanted (amount + 1) rest).1, (pick wanted (amount + 1) rest).2)

section Pick

variable {wanted : α → Bool} {amount : Nat} {list front run back : List α}

theorem pick_cons (first : α) (rest : List α) : pick wanted (amount + 1) (first :: rest) =
    if wanted first then
      ((pick wanted amount rest).1, first :: (pick wanted amount rest).2)
    else (first :: (pick wanted (amount + 1) rest).1, (pick wanted (amount + 1) rest).2) := rfl

theorem pick_none (nothing : ∀ a ∈ list, wanted a = false) : pick wanted amount list = (list, []) := by
  induction list with
  | nil => cases amount <;> rfl
  | cons first rest ih =>
    cases amount with
    | zero => rfl
    | succ amount =>
      have later := ih fun a member => nothing a (List.mem_cons_of_mem _ member)
      simp only [pick_cons, nothing first List.mem_cons_self, Bool.false_eq_true, if_false,
        later]

theorem pick_skip (nothing : ∀ a ∈ front, wanted a = false) :
    pick wanted amount (front ++ back) =
      (front ++ (pick wanted amount back).1, (pick wanted amount back).2) := by
  induction front with
  | nil => rfl
  | cons first rest ih =>
    cases amount with
    | zero => simp [pick]
    | succ amount =>
      have later := ih fun a member => nothing a (List.mem_cons_of_mem _ member)
      simp only [List.cons_append, pick_cons, nothing first List.mem_cons_self,
        Bool.false_eq_true, if_false, later]

theorem pick_run (all : ∀ a ∈ run, wanted a = true) :
    pick wanted (run.length + amount) (run ++ back) =
      ((pick wanted amount back).1, run ++ (pick wanted amount back).2) := by
  induction run with
  | nil => rw [List.length_nil, Nat.zero_add]; rfl
  | cons first rest ih =>
    have later := ih fun a member => all a (List.mem_cons_of_mem _ member)
    rw [List.length_cons, Nat.add_right_comm]
    simp only [List.cons_append, pick_cons, all first List.mem_cons_self, if_true, later]

theorem pick_perm (wanted : α → Bool) (amount : Nat) (list : List α) :
    ((pick wanted amount list).1 ++ (pick wanted amount list).2).Perm list := by
  fun_induction pick wanted amount list with
  | case1 list => simp
  | case2 => simp
  | case3 amount first rest yes ih => exact List.perm_middle.trans (ih.cons first)
  | case4 amount first rest no ih => exact ih.cons first

theorem pick_wanted (wanted : α → Bool) (amount : Nat) (list : List α) :
    ∀ a ∈ (pick wanted amount list).2, wanted a = true := by
  fun_induction pick wanted amount list with
  | case1 list => exact nofun
  | case2 => exact nofun
  | case3 amount first rest yes ih =>
    intro a member
    rcases List.mem_cons.mp member with rfl | later
    · exact yes
    · exact ih a later
  | case4 amount first rest no ih => exact ih

theorem pick_congr {other : α → Bool} (same : ∀ a ∈ list, wanted a = other a) :
    pick wanted amount list = pick other amount list := by
  induction list generalizing amount with
  | nil => cases amount <;> rfl
  | cons first rest ih =>
    cases amount with
    | zero => rfl
    | succ amount =>
      have later : ∀ n, pick wanted n rest = pick other n rest := fun _ =>
        ih fun a member => same a (List.mem_cons_of_mem _ member)
      simp only [pick_cons, same first List.mem_cons_self, later]

theorem pick_map {β : Type*} (f : β → α) (list : List β) :
    pick wanted amount (list.map f) =
      ((pick (wanted ∘ f) amount list).1.map f, (pick (wanted ∘ f) amount list).2.map f) := by
  induction list generalizing amount with
  | nil => cases amount <;> rfl
  | cons first rest ih =>
    cases amount with
    | zero => rfl
    | succ amount =>
      simp only [List.map_cons, pick_cons, Function.comp_apply, ih]
      split <;> rfl

end Pick

variable {heap : Heap} {before after : Option Nat} {nodes : List Nat} {fuel : Nat}

theorem findStealable_eq (linked : heap.toLinks.Segment before nodes none)
    (enough : nodes.length < fuel) :
    ∃ front back, nodes = front ++ back ∧ (∀ node ∈ front, heap.stealable node = false) ∧
      findStealable heap fuel nodes.head? = some back.head? ∧
      ∀ node ∈ back.head?, heap.stealable node = true := by
  induction nodes generalizing before fuel with
  | nil =>
    cases fuel with
    | zero => exact absurd enough (Nat.not_lt_zero _)
    | succ fuel => exact ⟨[], [], rfl, nofun, rfl, nofun⟩
  | cons node rest ih =>
    cases fuel with
    | zero => exact absurd enough (Nat.not_lt_zero _)
    | succ fuel =>
      obtain ⟨-, next, linked⟩ := linked
      rw [Option.or_none] at next
      cases marked : heap.stealable node with
      | true =>
        refine ⟨[], node :: rest, rfl, nofun, ?_, ?_⟩
        · simp only [findStealable, List.head?_cons, marked, if_true]
        · intro other here
          cases here
          exact marked
      | false =>
        obtain ⟨front, back, rfl, skipped, found, ends⟩ :=
          ih linked (Nat.lt_of_succ_lt_succ enough)
        refine ⟨node :: front, back, rfl, ?_, ?_, ends⟩
        · intro other member
          rcases List.mem_cons.mp member with rfl | later
          · exact marked
          · exact skipped other later
        · simp only [findStealable, List.head?_cons, marked, Bool.false_eq_true, if_false,
            next, found]

theorem extendRun_eq {first : Nat} {desired amount : Int} {v : Queue}
    (linked : heap.toLinks.Segment before (first :: nodes) none) (few : amount ≤ desired)
    (enough : nodes.length < fuel) :
    ∃ run back last, nodes = run ++ back ∧ (∀ node ∈ run, heap.stealable node = true) ∧
      (first :: run).getLast? = some last ∧ amount + run.length ≤ desired ∧
      extendRun heap desired fuel first amount v =
        some (last, amount + run.length, v.counted (-run.length) (-run.length)) := by
  induction nodes generalizing before fuel first amount v with
  | nil =>
    cases fuel with
    | zero => exact absurd enough (Nat.not_lt_zero _)
    | succ fuel =>
      have next : heap.next first = none := linked.2.1
      refine ⟨[], [], first, rfl, nofun, rfl, by simpa using few, ?_⟩
      simp [extendRun, next, Queue.counted]
  | cons node rest ih =>
    cases fuel with
    | zero => exact absurd enough (Nat.not_lt_zero _)
    | succ fuel =>
      have later := linked.2.2
      have next : heap.next first = some node := linked.2.1
      by_cases more : amount < desired
      · cases marked : heap.stealable node with
        | true =>
          have fewer : amount + 1 ≤ desired := by omega
          obtain ⟨run, back, last, rfl, all, ends, atMost, ran⟩ :=
            ih later (v := v.counted (-1) (-1)) fewer (Nat.lt_of_succ_lt_succ enough)
          refine ⟨node :: run, back, last, rfl, ?_, ?_, ?_, ?_⟩
          · intro other member
            rcases List.mem_cons.mp member with rfl | inside
            · exact marked
            · exact all other inside
          · rw [List.getLast?_cons_cons]
            exact ends
          · rw [List.length_cons]
            omega
          · simp only [extendRun, if_pos more, next, marked, if_true]
            rw [ran]
            have total : amount + 1 + run.length = amount + (node :: run).length := by
              rw [List.length_cons]
              omega
            have less : (-1 : Int) + -run.length = -(node :: run).length := by
              rw [List.length_cons]
              omega
            simp only [Queue.counted, total, Int.add_assoc, less]
        | false =>
          refine ⟨[], node :: rest, first, rfl, nofun, rfl, by simpa using few, ?_⟩
          simp [extendRun, more, next, marked, Queue.counted]
      · refine ⟨[], node :: rest, first, rfl, nofun, rfl, by simpa using few, ?_⟩
        simp [extendRun, more, Queue.counted]

theorem Queue.counted_counted (q : Queue) (a b c d : Int) :
    (q.counted a b).counted c d = q.counted (a + c) (b + d) := by
  simp only [Queue.counted, Int.add_assoc]

structure Robbing (heap : Heap) (v : Queue) (stolen : Option (Nat × Nat))
    (kept rest loot : List Nat) : Prop where
  victim : v.Shows heap (kept ++ rest)
  linked : heap.toLinks.Segment none loot none
  first : stolen.map Prod.fst = loot.head?
  last : stolen.map Prod.snd = loot.getLast?
  once : (kept ++ rest ++ loot).Nodup
  fuel : (kept ++ rest).length < heap.fuel

section Loop

variable {v : Queue} {stolen : Option (Nat × Nat)} {kept rest skipped run back loot : List Nat}
  {first last : Nat}

theorem joinRun_linked (linked : heap.toLinks.Segment none loot none)
    (alone : heap.toLinks.Segment none run none) (once : (loot ++ run).Nodup)
    (lootFirst : stolen.map Prod.fst = loot.head?) (lootLast : stolen.map Prod.snd = loot.getLast?)
    (starts : run.head? = some first) (ends : run.getLast? = some last) :
    ∃ after pair, joinRun heap stolen first last = (after, pair) ∧
      heap.Frame after (loot ++ run) ∧ after.toLinks.Segment none (loot ++ run) none ∧
      some pair.1 = (loot ++ run).head? ∧ some pair.2 = (loot ++ run).getLast? := by
  have lastOf : (loot ++ run).getLast? = some last := by
    rw [List.getLast?_append, ends]
    rfl
  cases stolen with
  | none =>
    have empty := List.head?_eq_none_iff.mp lootFirst.symm
    subst empty
    exact ⟨heap, (first, last), rfl, .refl heap _, alone, starts.symm, lastOf.symm⟩
  | some pair =>
    obtain ⟨lootStart, lootEnd⟩ := pair
    have firstIn : first ∈ loot ++ run := List.mem_append_right _ (mem_head starts)
    have endIn : lootEnd ∈ loot ++ run :=
      List.mem_append_left _ (List.mem_of_getLast? lootLast.symm)
    refine ⟨_, (lootStart, last), rfl,
      (Heap.Frame.setNext heap _ endIn).trans (.setPrev _ _ firstIn),
      linked.join alone once lootLast.symm starts, ?_, lastOf.symm⟩
    rw [List.head?_append, ← lootFirst]
    rfl

theorem Robbing.cut (robbing : Robbing heap v stolen kept (skipped ++ (run ++ back)) loot)
    (starts : run.head? = some first) (ends : run.getLast? = some last)
    (all : ∀ node ∈ run, heap.stealable node = true) :
    ∃ middle after queue pair,
      cutRun heap (v.counted (-run.length) (-run.length)) first last =
        some (back.head?, middle, queue) ∧
      joinRun middle stolen first last = (after, pair) ∧
      Robbing after queue (some pair) (kept ++ skipped) back (loot ++ run) ∧
      heap.Frame after (kept ++ (skipped ++ (run ++ back)) ++ loot) := by
  have whole : kept ++ (skipped ++ (run ++ back)) = kept ++ skipped ++ run ++ back := by
    simp only [List.append_assoc]
  have victim := robbing.victim
  have once := robbing.once
  rw [whole] at victim once
  obtain ⟨victimOnce, lootOnce, apart⟩ := List.nodup_append.mp once
  have runOnce := (List.nodup_append.mp (List.nodup_append.mp victimOnce).1).2.1
  have inside : ∀ node ∈ run, node ∈ kept ++ skipped ++ run ++ back := fun node member =>
    List.mem_append_left _ (List.mem_append_right _ member)
  have outside : ∀ node ∈ loot, node ∉ kept ++ skipped ++ run ++ back := fun node member here =>
    apart node here node member rfl
  have cut := cutRun_eq (v := v.counted (-run.length) (-run.length)) victim.head victim.tail
    victim.linked victimOnce starts ends
  obtain ⟨cutFrame, rests, alone⟩ := cutRun_linked victim.linked victimOnce starts ends rfl
  have joinOnce : (loot ++ run).Nodup := by
    refine List.nodup_append.mpr ⟨lootOnce, runOnce, ?_⟩
    rintro a inLoot b inRun rfl
    exact outside a inLoot (inside a inRun)
  obtain ⟨after, pair, joined, joinFrame, chained, pairFirst, pairLast⟩ :=
    joinRun_linked (cutFrame.segment robbing.linked outside) alone joinOnce robbing.first
      robbing.last starts ends
  have within : loot ++ run ⊆ kept ++ skipped ++ run ++ back ++ loot := by
    intro node member
    rcases List.mem_append.mp member with old | new
    · exact List.mem_append_right _ old
    · exact List.mem_append_left _ (inside node new)
  have frame := (cutFrame.mono (List.subset_append_left _ loot)).trans (joinFrame.mono within)
  have counts : run.countP heap.stealable = run.length := List.countP_eq_length.mpr all
  refine ⟨_, after, _, pair, cut, joined, ?_, whole ▸ frame⟩
  refine ⟨⟨⟨rfl, rfl, ?_, ?_⟩, ?_, nodup_rest victimOnce⟩, chained, pairFirst, pairLast, ?_, ?_⟩
  · change v.qlength + -run.length = _
    rw [victim.qlength]
    simp only [List.length_append, Int.natCast_add]
    omega
  · change v.qlengthStealable + -run.length = _
    rw [victim.qlengthStealable, frame.stealable]
    simp only [List.countP_append, counts, Int.natCast_add]
    omega
  · refine joinFrame.segment rests ?_
    intro node member here
    rcases List.mem_append.mp here with old | new
    · refine outside node old ?_
      rcases List.mem_append.mp member with early | late
      · exact List.mem_append_left _ (List.mem_append_left _ early)
      · exact List.mem_append_right _ late
    · exact not_mem_rest victimOnce new member
  · refine (List.Perm.nodup_iff ?_).mp once
    simp only [List.append_assoc]
    refine List.Perm.append_left _ (List.Perm.append_left _ ?_)
    exact (List.perm_append_comm_assoc run back loot).trans
      (List.Perm.append_left back List.perm_append_comm)
  · have bound := robbing.fuel
    rw [whole] at bound
    rw [Heap.fuel, frame.allocated]
    refine Nat.lt_of_le_of_lt ?_ bound
    simp only [List.length_append]
    omega

theorem stealRuns_eq {desired amount : Int} (robbing : Robbing heap v stolen kept rest loot)
    (more : amount < desired) (enough : rest.length < fuel) :
    ∃ after queue,
      stealRuns desired fuel heap v stolen amount rest.head? =
        some ((loot ++ (pick heap.stealable (desired - amount).toNat rest).2).head?, after, queue) ∧
      heap.Frame after (kept ++ rest ++ loot) ∧
      queue.Shows after (kept ++ (pick heap.stealable (desired - amount).toNat rest).1) ∧
      after.toLinks.Segment none (loot ++ (pick heap.stealable (desired - amount).toNat rest).2)
        none := by
  induction fuel generalizing heap v stolen kept rest loot amount with
  | zero => exact absurd enough (Nat.not_lt_zero _)
  | succ fuel ih =>
    have restLinked := (Segment.append.mp robbing.victim.linked).2
    have restFuel : rest.length < heap.fuel := by
      have bound := robbing.fuel
      rw [List.length_append] at bound
      omega
    obtain ⟨skipped, found, rfl, unmarked, search, first⟩ := findStealable_eq restLinked restFuel
    rw [stealRuns, search, pick_skip unmarked]
    cases found with
    | nil =>
      have nothing : pick heap.stealable (desired - amount).toNat ([] : List Nat) = ([], []) :=
        pick_none nofun
      rw [nothing]
      simp only [List.head?_nil, List.append_nil]
      refine ⟨heap, v, ?_, .refl heap _, ?_, robbing.linked⟩
      · rw [robbing.first]
      · simpa only [List.append_nil] using robbing.victim
    | cons firstStolen others =>
      have marked := first firstStolen rfl
      have foundLinked := (Segment.append.mp restLinked).2
      have otherFuel : others.length < heap.fuel := by
        simp only [List.length_append, List.length_cons] at restFuel
        omega
      have wanted : amount + 1 ≤ desired := by omega
      obtain ⟨tail, back, last, rfl, all, ends, atMost, extended⟩ :=
        extendRun_eq (v := v.counted (-1) (-1)) foundLinked wanted otherFuel
      have everyone : ∀ node ∈ firstStolen :: tail, heap.stealable node = true := by
        intro node member
        rcases List.mem_cons.mp member with rfl | later
        · exact marked
        · exact all node later
      have found : Robbing heap v stolen kept (skipped ++ (firstStolen :: tail ++ back)) loot :=
        robbing
      obtain ⟨middle, after, queue, pair, cut, joined, next, frame⟩ :=
        found.cut rfl ends everyone
      have total : (-1 : Int) + -tail.length = -(firstStolen :: tail).length := by
        rw [List.length_cons]
        omega
      have stole : amount + 1 + tail.length = amount + (firstStolen :: tail).length := by
        rw [List.length_cons]
        omega
      have share : (desired - amount).toNat = (firstStolen :: tail).length +
          (desired - (amount + (firstStolen :: tail).length)).toNat := by
        rw [List.length_cons] at *
        omega
      simp only [List.head?_cons, extended, Queue.counted_counted, total, stole, cut, joined]
      rw [share, ← List.cons_append, pick_run everyone]
      have stays : ∀ stay : List Nat, kept ++ (skipped ++ stay) = kept ++ skipped ++ stay :=
        fun stay => (List.append_assoc ..).symm
      have goes : ∀ go : List Nat,
          loot ++ (firstStolen :: tail ++ go) = loot ++ firstStolen :: tail ++ go :=
        fun go => (List.append_assoc ..).symm
      dsimp only
      rw [stays (pick _ _ back).1, goes (pick _ _ back).2]
      by_cases again : 0 < queue.qlengthStealable ∧
          amount + (firstStolen :: tail).length < desired
      · rw [if_pos again]
        have shorter : back.length < fuel := by
          simp only [List.length_append, List.length_cons] at enough
          omega
        obtain ⟨final, left, ran, later, shows, linked⟩ := ih next again.2 shorter
        rw [frame.stealable] at ran shows linked
        refine ⟨final, left, ran, frame.trans (later.mono ?_), shows, linked⟩
        intro node member
        simp only [List.mem_append] at member ⊢
        tauto
      · rw [if_neg again]
        have beyond : pick heap.stealable
            (desired - (amount + (firstStolen :: tail).length)).toNat back = (back, []) := by
          by_cases reached : amount + (firstStolen :: tail).length < desired
          · have within : queue.qlengthStealable ≤ 0 := by
              by_contra present
              exact again ⟨by omega, reached⟩
            rw [next.victim.qlengthStealable, frame.stealable, List.countP_append] at within
            have zero : back.countP heap.stealable = 0 := by omega
            refine pick_none fun node member => ?_
            have unmarked := List.countP_eq_zero.mp zero node member
            exact Bool.eq_false_iff.mpr unmarked
          · have zero : (desired - (amount + (firstStolen :: tail).length)).toNat = 0 := by omega
            rw [zero]
            cases back <;> rfl
        rw [beyond]
        simp only [List.append_nil]
        refine ⟨after, queue, ?_, frame, next.victim, next.linked⟩
        rw [← next.first]
        rfl

end Loop

def stealAmount (stealChunksize seen : Int) (locked : Bool) : Nat :=
  if locked then (desiredStolen stealChunksize seen).toNat else 0

structure Robbed (heap after : Heap) (queue : Queue) (amount : Nat) (nodes : List Nat) : Prop where
  frame : heap.Frame after nodes
  victim : queue.Shows after (pick heap.stealable amount nodes).1
  linked : after.toLinks.Segment none (pick heap.stealable amount nodes).2 none

theorem dequeueSteal_shows {v : Queue} (shows : v.Shows heap nodes) (enough : nodes.length < heap.fuel)
    (stealChunksize seen : Int) (locked : Bool) :
    ∃ after queue, dequeueSteal heap v stealChunksize seen locked =
        some ((pick heap.stealable (stealAmount stealChunksize seen locked) nodes).2.head?, after,
          queue) ∧
      Robbed heap after queue (stealAmount stealChunksize seen locked) nodes := by
  have idle : pick heap.stealable (stealAmount stealChunksize seen locked) nodes = (nodes, []) →
      dequeueSteal heap v stealChunksize seen locked = some (none, heap, v) →
      ∃ after queue, dequeueSteal heap v stealChunksize seen locked =
          some ((pick heap.stealable (stealAmount stealChunksize seen locked) nodes).2.head?, after,
            queue) ∧
        Robbed heap after queue (stealAmount stealChunksize seen locked) nodes := by
    intro nothing ran
    refine ⟨heap, v, by rw [ran, nothing]; rfl, .refl heap _, ?_, ?_⟩
    · rw [nothing]
      exact shows
    · rw [nothing]
      trivial
  have zero : pick heap.stealable 0 nodes = (nodes, []) := by cases nodes <;> rfl
  cases locked with
  | false =>
    refine idle ?_ ?_
    · rw [stealAmount, if_neg Bool.false_ne_true, zero]
    · simp only [dequeueSteal, if_true]
  | true =>
    have amount : stealAmount stealChunksize seen true =
        (desiredStolen stealChunksize seen - 0).toNat := by
      rw [stealAmount, if_pos rfl, Int.sub_zero]
    by_cases enter : 0 < v.qlengthStealable ∧ 0 < desiredStolen stealChunksize seen
    · have robbing : Robbing heap v none [] nodes [] := by
        refine ⟨shows, trivial, rfl, rfl, ?_, enough⟩
        simpa using shows.once
      obtain ⟨after, queue, ran, frame, victim, linked⟩ :=
        stealRuns_eq robbing enter.2 enough
      simp only [List.nil_append, List.append_nil] at ran frame victim linked
      rw [← amount] at ran victim linked
      refine ⟨after, queue, ?_, frame, victim, linked⟩
      rw [← ran]
      simp only [dequeueSteal, Bool.true_eq_false, if_false, if_pos enter, shows.head]
    · refine idle ?_ ?_
      · by_cases wanted : 0 < desiredStolen stealChunksize seen
        · refine pick_none fun node member => ?_
          have less : ¬ 0 < v.qlengthStealable := fun positive => enter ⟨positive, wanted⟩
          rw [shows.qlengthStealable] at less
          have empty : nodes.countP heap.stealable = 0 := by omega
          exact Bool.eq_false_iff.mpr (List.countP_eq_zero.mp empty node member)
        · rw [amount, show (desiredStolen stealChunksize seen - 0).toNat = 0 by omega, zero]
      · simp only [dequeueSteal, Bool.true_eq_false, if_false, if_neg enter]

end Qthreads.Sherwood
