import Qthreads.Tqueue.Exact
import Qthreads.Tqueue.Ready

namespace Qthreads.Tqueue

open Lib

variable {nodes : Nodes} {first : Option Node} {tasks : List Task} {list front order : List Node}
  {node : Node} {t : Task} {kind : Kind} {f : Filter Task}

def Lifo.Holds (q : Lifo) (tasks : List Task) : Prop := ∃ list, q.nodes.Hold q.stack tasks list

def Fifo.Holds (q : Fifo) (tasks : List Task) : Prop :=
  ∃ old list, q.nodes.Hold (some q.head) (old :: tasks) (q.head :: list) ∧
    (q.head :: list).getLast? = some q.tail

def Ready.Holds : Kind → Ready → List Task → Prop
  | .nemesis, nemesis q, tasks => q.Holds tasks
  | .lifo, lifo q, tasks => q.Holds tasks
  | .mutexfifo, mutexfifo q, tasks => q.Holds tasks
  | .mtsfifo, mtsfifo q, tasks => q.Holds tasks
  | _, _, _ => False

theorem Ready.new_holds (nodes : Nodes) (node : Node) (t : Task) (kind : Kind) :
    (Ready.new nodes node t kind).Holds kind [] := by
  have nothing : nodes.Hold .none [] [] := ⟨rfl, List.nodup_nil, nofun, rfl⟩
  have single := nodes.hold_single node t
  cases kind with
  | nemesis => exact ⟨[], nothing, rfl, fun _ => rfl⟩
  | lifo => exact ⟨[], nothing⟩
  | mutexfifo => exact ⟨t, [], single, rfl⟩
  | mtsfifo => exact ⟨t, [], single, rfl⟩

theorem Nodes.Hold.tail {item : Task} {later : List Task} {rest : List Node}
    (hold : nodes.Hold first (item :: later) (node :: rest)) :
    nodes.Hold (nodes.next node) later rest := by
  have threads := hold.threads
  simp only [List.map_cons, List.cons.injEq] at threads
  exact ⟨hold.chain.2, (List.nodup_cons.mp hold.once).2,
    fun other member => hold.live other (List.mem_cons_of_mem _ member), threads.2⟩

theorem Nodes.Hold.cons (hold : nodes.Hold first tasks list)
    (unused : nodes.allocated node = false) :
    ((nodes.alloc node t).setNext node first).Hold (some node) (t :: tasks) (node :: list) := by
  have outside := hold.fresh unused
  have kept : ((nodes.alloc node t).setNext node first).Hold first tasks list :=
    (hold.alloc (t := t) unused).setNext outside
  refine ⟨⟨rfl, ?_⟩, List.nodup_cons.mpr ⟨outside, hold.once⟩, ?_, ?_⟩
  · have next : ((nodes.alloc node t).setNext node first).next node = first := Function.update_self ..
    rw [next]
    exact kept.chain
  · intro other member
    rcases List.mem_cons.mp member with rfl | later
    · exact Function.update_self ..
    · exact kept.live other later
  · rw [List.map_cons, kept.threads]
    exact congrArg (· :: tasks) (Function.update_self ..)

theorem Lifo.last_eq {next : Node → Option Node} {cursor : Node} {fuel : Nat}
    (chain : Chain next (some cursor) list none) :
    Lifo.last next fuel cursor = if list.length ≤ fuel then list.getLast? else none := by
  induction fuel generalizing cursor list with
  | zero =>
    cases list with
    | nil => cases chain
    | cons node rest => rw [if_neg (by simp)]; rfl
  | succ fuel ih =>
    cases list with
    | nil => cases chain
    | cons node rest =>
      obtain ⟨same, later⟩ := chain
      cases same
      rw [Lifo.last]
      cases rest with
      | nil =>
        have null : next cursor = none := later
        rw [null, if_pos (by simp)]
        rfl
      | cons following others =>
        have pointed : next cursor = some following := later.1
        rw [pointed] at later ⊢
        simp only [ih later, List.length_cons, Nat.add_le_add_iff_right,
          List.getLast?_cons_cons]

theorem Fifo.Holds.enqueue {q : Fifo} (holds : q.Holds tasks)
    (unused : q.nodes.allocated node = false) : (q.enqueue node t).Holds (tasks ++ [t]) := by
  obtain ⟨old, list, hold, ends⟩ := holds
  refine ⟨old, list ++ [node], hold.push ends unused, ?_⟩
  rw [← List.cons_append]
  exact List.getLast?_concat ..

theorem Fifo.Holds.next {q : Fifo} (holds : q.Holds tasks) :
    (tasks = [] ∧ q.nodes.next q.head = none) ∨ ∃ item rest next, tasks = item :: rest ∧
      q.nodes.next q.head = some next ∧ q.nodes.thread next = item ∧ q.head ≠ q.tail ∧
        (⟨q.nodes, next, q.tail⟩ : Fifo).Holds rest ∧
          (⟨q.nodes.free q.head, next, q.tail⟩ : Fifo).Holds rest := by
  obtain ⟨old, list, hold, ends⟩ := holds
  have popped := hold.pop.2.2
  have left := hold.tail
  cases list with
  | nil => exact .inl ⟨left.threads.symm, left.chain⟩
  | cons next rest =>
    cases tasks with
    | nil => cases left.threads
    | cons item later =>
      have pointed : q.nodes.next q.head = some next := left.chain.1
      rw [pointed] at popped left
      rw [List.getLast?_cons_cons] at ends
      have differs : q.head ≠ q.tail := by
        intro same
        rw [← same] at ends
        exact (List.nodup_cons.mp hold.once).1 (List.mem_of_getLast? ends)
      exact .inr ⟨item, later, next, rfl, pointed, popped.pop.2.1, differs,
        ⟨item, rest, left, ends⟩, ⟨item, rest, popped, ends⟩⟩

theorem Fifo.mtsEnqueue_eq {q : Fifo} (holds : q.Holds tasks)
    (unused : q.nodes.allocated node = false) (fuel : Nat) :
    Fifo.mtsEnqueue (fuel + 1) { q with nodes := q.nodes.alloc node t } node =
      some (q.enqueue node t) := by
  obtain ⟨old, list, hold, ends⟩ := holds
  have kept := hold.alloc (t := t) unused
  have null : (q.nodes.alloc node t).next q.tail = none := kept.chain.after_last ends
  rw [Fifo.mtsEnqueue, null]
  rfl

def Ready.Answers (kind : Kind) (q : Ready) (tasks : List Task) (call : Call) : Prop :=
  ∃ after, after.Holds kind (kind.serve tasks call).2 ∧
    (∀ fuel result, q.call fuel call = some result → result = ((kind.serve tasks call).1, after)) ∧
    ∃ fuel, q.call fuel call = some ((kind.serve tasks call).1, after)

variable {call : Call} {q : Ready}

theorem Ready.Answers.sure (after : Ready) (held : after.Holds kind (kind.serve tasks call).2)
    (ran : ∀ fuel, q.call fuel call = some ((kind.serve tasks call).1, after)) :
    q.Answers kind tasks call := by
  refine ⟨after, held, fun fuel other again => ?_, 0, ran 0⟩
  rw [ran fuel] at again
  exact (Option.some.inj again).symm

theorem Ready.Answers.once (after : Ready)
    (held : after.Holds kind (kind.serve tasks call).2) (absent : q.call 0 call = none)
    (ran : ∀ fuel, q.call (fuel + 1) call = some ((kind.serve tasks call).1, after)) :
    q.Answers kind tasks call := by
  refine ⟨after, held, fun fuel other again => ?_, 1, ran 0⟩
  cases fuel with
  | zero =>
    rw [absent] at again
    cases again
  | succ fuel =>
    rw [ran fuel] at again
    exact (Option.some.inj again).symm

theorem Nemesis.Holds.answers {q : Nemesis} (holds : q.Holds tasks)
    (unused : (Ready.nemesis q).Unused call) : (Ready.nemesis q).Answers .nemesis tasks call := by
  cases call with
  | enqueue t node => exact .sure (.nemesis (q.enqueue node t)) (holds.enqueue unused) fun _ => rfl
  | enqueueYielded t node =>
    exact .sure (.nemesis (q.enqueue node t)) (holds.enqueue unused) fun _ => rfl
  | dequeue =>
    cases tasks with
    | nil =>
      obtain ⟨after, taken, kept, -⟩ := (Nemesis.takes q.length).empty q ⟨holds, rfl⟩
      exact .sure (.nemesis after) kept fun _ => by rw [Ready.call, taken]; rfl
    | cons item rest =>
      obtain ⟨after, taken, kept, -⟩ := (Nemesis.takes q.length).first q item rest ⟨holds, rfl⟩
      exact .sure (.nemesis after) kept fun _ => by rw [Ready.call, taken]; rfl

theorem Lifo.Holds.answers {q : Lifo} (holds : q.Holds tasks)
    (unused : (Ready.lifo q).Unused call) : (Ready.lifo q).Answers .lifo tasks call := by
  obtain ⟨list, hold⟩ := holds
  cases call with
  | enqueue t node => exact .sure (.lifo (q.enqueue node t)) ⟨_, hold.cons unused⟩ fun _ => rfl
  | enqueueYielded t node =>
    cases stack : q.stack with
    | none =>
      have empty : list = [] := by
        cases list with
        | nil => rfl
        | cons other rest => exact nomatch stack.symm.trans hold.chain.1
      subst empty
      have threads : tasks = [] := hold.threads.symm
      subst threads
      exact .sure (.lifo (q.enqueue node t)) ⟨_, hold.cons unused⟩ fun fuel => by
        rw [Ready.call, Lifo.enqueueYielded, stack]
        rfl
    | some cursor =>
      have chain := hold.chain
      rw [stack] at chain
      have ran (fuel : Nat) := @Lifo.last_eq list q.nodes.next cursor fuel chain
      cases ends : list.getLast? with
      | none =>
        rw [List.getLast?_eq_none_iff.mp ends] at chain
        cases chain
      | some last =>
        refine ⟨.lifo ⟨(q.nodes.alloc node t).setNext last (some node), q.stack⟩,
          ⟨_, hold.push ends unused⟩, fun fuel result again => ?_, list.length, ?_⟩
        · rw [Ready.call, Lifo.enqueueYielded, stack] at again
          simp only [ran fuel, ends] at again
          split at again
          · rw [stack]
            exact (Option.some.inj again).symm
          · cases again
        · rw [Ready.call, Lifo.enqueueYielded, stack]
          simp only [ran, ends, Nat.le_refl, if_true, Option.map_some]
          rfl
  | dequeue =>
    cases list with
    | nil =>
      have threads : tasks = [] := hold.threads.symm
      subst threads
      have stack : q.stack = none := hold.chain
      exact .sure (.lifo q) ⟨[], hold⟩ fun _ => by rw [Ready.call, Lifo.dequeue, stack]; rfl
    | cons node rest =>
      cases tasks with
      | nil => cases hold.threads
      | cons item later =>
        obtain ⟨stack, thread, popped⟩ := hold.pop
        refine .sure (.lifo ⟨q.nodes.free node, q.nodes.next node⟩) ⟨rest, popped⟩ fun _ => ?_
        rw [Ready.call, Lifo.dequeue, stack, ← thread]
        rfl

theorem Fifo.Holds.answers {q : Fifo} (holds : q.Holds tasks)
    (unused : (Ready.mutexfifo q).Unused call) :
    (Ready.mutexfifo q).Answers .mutexfifo tasks call := by
  cases call with
  | enqueue t node => exact .sure (.mutexfifo (q.enqueue node t)) (holds.enqueue unused) fun _ => rfl
  | enqueueYielded t node =>
    exact .sure (.mutexfifo (q.enqueue node t)) (holds.enqueue unused) fun _ => rfl
  | dequeue =>
    obtain ⟨rfl, null⟩ | ⟨item, rest, next, rfl, pointed, thread, -, kept, -⟩ := holds.next
    · exact .sure (.mutexfifo q) holds fun _ => by rw [Ready.call, Fifo.dequeue, null]; rfl
    · refine .sure (.mutexfifo ⟨q.nodes, next, q.tail⟩) kept fun _ => ?_
      rw [Ready.call, Fifo.dequeue, pointed, ← thread]
      rfl

theorem Fifo.Holds.mtsAnswers {q : Fifo} (holds : q.Holds tasks)
    (unused : (Ready.mtsfifo q).Unused call) : (Ready.mtsfifo q).Answers .mtsfifo tasks call := by
  cases call with
  | enqueue t node =>
    refine .once (.mtsfifo (q.enqueue node t)) (holds.enqueue unused) rfl fun fuel => ?_
    rw [Ready.call, Fifo.mtsEnqueue_eq holds unused]
    rfl
  | enqueueYielded t node =>
    refine .once (.mtsfifo (q.enqueue node t)) (holds.enqueue unused) rfl fun fuel => ?_
    rw [Ready.call, Fifo.mtsEnqueue_eq holds unused]
    rfl
  | dequeue =>
    obtain ⟨rfl, null⟩ | ⟨item, rest, next, rfl, pointed, thread, differs, -, kept⟩ := holds.next
    · exact .once (.mtsfifo q) holds rfl fun fuel => by
        rw [Ready.call, Fifo.mtsDequeue, null]
        rfl
    · refine .once (.mtsfifo ⟨q.nodes.free q.head, next, q.tail⟩) kept rfl fun fuel => ?_
      rw [Ready.call, Fifo.mtsDequeue, pointed]
      simp only [if_neg differs, thread]
      rfl

theorem Ready.Holds.answers (holds : q.Holds kind tasks)
    (unused : q.Unused call) : q.Answers kind tasks call :=
  match kind, q, holds with
  | .nemesis, .nemesis _, holds => Nemesis.Holds.answers holds unused
  | .lifo, .lifo _, holds => Lifo.Holds.answers holds unused
  | .mutexfifo, .mutexfifo _, holds => Fifo.Holds.answers holds unused
  | .mtsfifo, .mtsfifo _, holds => Fifo.Holds.mtsAnswers holds unused

variable {label : Call × Option Task}

theorem Ready.Holds.step {q after : Ready} (holds : q.Holds kind tasks)
    (step : q.Step label after) : ∃ left, kind.Serves tasks label left ∧ after.Holds kind left := by
  obtain ⟨unused, fuel, ran⟩ := step
  obtain ⟨next, kept, sure, -⟩ := holds.answers unused
  obtain ⟨result, rfl⟩ := Prod.mk.inj (sure fuel _ ran)
  exact ⟨_, Prod.ext result.symm rfl, kept⟩

theorem Ready.Holds.run {q after : Ready} {labels : List (Call × Option Task)}
    (holds : q.Holds kind tasks) (run : Run Ready.Step q labels after) :
    ∃ left, Run kind.Serves tasks labels left ∧ after.Holds kind left :=
  run.simulates (fun _ _ _ _ holds step => holds.step step) holds

theorem Ready.Holds.behaves (holds : q.Holds kind tasks) : q.Behaves kind tasks := by
  intro labels after run
  obtain ⟨left, served, kept⟩ := holds.run run
  refine ⟨⟨left, served⟩, fun call unused => ?_⟩
  obtain ⟨last, -, -, fuel, ran⟩ := kept.answers unused
  exact ⟨_, last, unused, fuel, ran⟩

theorem Ready.Behaves.step {q after : Ready}
    (behaves : q.Behaves kind tasks) (step : q.Step label after) :
    (kind.serve tasks label.1).1 = label.2 ∧ after.Behaves kind (kind.serve tasks label.1).2 := by
  obtain ⟨⟨left, run⟩, -⟩ := behaves [label] after (.cons step (.nil _))
  cases run with
  | cons served _ =>
    have returned : kind.serve tasks label.1 = _ := served
    refine ⟨by rw [returned], fun labels last run => ?_⟩
    obtain ⟨⟨left, whole⟩, onward⟩ := behaves (label :: labels) last (.cons step run)
    refine ⟨⟨left, ?_⟩, onward⟩
    cases whole with
    | cons first rest =>
      have again : kind.serve tasks label.1 = _ := first
      rw [again]
      exact rest

theorem Ready.Behaves.unique {others : List Task} (behaves : q.Behaves kind tasks)
    (again : q.Behaves kind others) : tasks = others := by
  induction tasks generalizing q others with
  | nil =>
    obtain ⟨result, after, step⟩ := (behaves [] q (.nil q)).2 .dequeue trivial
    have same := (behaves.step step).1.trans (again.step step).1.symm
    exact (List.head?_eq_none_iff.mp same.symm).symm
  | cons t rest ih =>
    obtain ⟨result, after, step⟩ := (behaves [] q (.nil q)).2 .dequeue trivial
    have same := (behaves.step step).1.trans (again.step step).1.symm
    cases others with
    | nil => cases same
    | cons other later =>
      have first : t = other := Option.some.inj same
      rw [first, ih (behaves.step step).2 (again.step step).2]
      rfl

end Qthreads.Tqueue
