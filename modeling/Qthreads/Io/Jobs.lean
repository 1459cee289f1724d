import Qthreads.Io.Workers

namespace Qthreads.Io

open Lib
open Function (update update_of_ne update_self)

namespace State

variable {s : State}

def Holds (s : State) (proxy : Nat) (node : Node) : Prop :=
  ∃ here, s.proxies[proxy]? = some here ∧ here.item = some node

theorem holds_setProxy {proxy other : Nat} {there : Proxy} {node : Node}
    (holds : (s.setProxy proxy there).Holds other node) :
    s.Holds other node ∨ other = proxy ∧ there.item = some node := by
  obtain ⟨here, at_, item⟩ := holds
  simp only [setProxy, List.getElem?_set] at at_
  split at at_
  next mine =>
      split at at_
      · cases at_
        exact .inr ⟨mine.symm, item⟩
      · cases at_
  next => exact .inl ⟨here, at_, item⟩

theorem InUse.of_holds {proxy : Nat} {node : Node} (holds : s.Holds proxy node) : s.InUse node := by
  obtain ⟨here, at_, item⟩ := holds
  exact .inr (.inl ⟨here, List.mem_of_getElem? at_, item⟩)

end State

structure Queued (s : State) : Prop where
  listed : Chain s.next s.head s.waiting none
  tail : s.tail = s.waiting.getLast?
  length : s.length = s.waiting.length
  order : s.took.map Prod.fst <+: s.entered.map Entry.node
  once : s.waiting.Nodup
  content : ∀ entry ∈ s.entered.drop s.took.length, s.job entry.node = entry.job
  ended : ∀ entry ∈ s.entered, entry.job.Ended
  heldOnce : ∀ p q node, s.Holds p node → s.Holds q node → p = q
  heldApart : ∀ p node, s.Holds p node → node ∉ s.waiting
  calledOnce : ∀ c d node, s.callers c = .enqueue node → s.callers d = .enqueue node → c = d
  calledApart : ∀ c node, s.callers c = .enqueue node → node ∉ s.waiting ∧ ∀ p, ¬ s.Holds p node
  calledNull : ∀ c node, s.callers c = .enqueue node → s.next node = none
  calledEnded : ∀ c node, s.callers c = .enqueue node → (s.job node).Ended

namespace Queued

variable {s after : State} {label : Label} {caller proxy : Nat}

theorem head (queued : Queued s) : s.head = s.waiting.head? := queued.listed.head

theorem took_le (queued : Queued s) : s.took.length ≤ s.entered.length := by
  have short := queued.order.length_le
  rwa [List.length_map, List.length_map] at short

theorem length_nonneg (queued : Queued s) : 0 ≤ s.length := by
  rw [queued.length]
  exact Int.natCast_nonneg _

theorem kept (queued : Queued s) (head : after.head = s.head) (tail : after.tail = s.tail)
    (length : after.length = s.length) (entered : after.entered = s.entered)
    (took : after.took = s.took) (job : after.job = s.job)
    (next : ∀ node, node ∈ s.waiting ∨ (∃ c, s.callers c = .enqueue node) →
      after.next node = s.next node)
    (callers : ∀ c node, after.callers c = .enqueue node → s.callers c = .enqueue node)
    (holds : ∀ p node, after.Holds p node → s.Holds p node) : Queued after := by
  have waiting : after.waiting = s.waiting := by rw [State.waiting, entered, took, State.waiting]
  refine ⟨?_, ?_, ?_, ?_, ?_, ?_, ?_, ?_, ?_, ?_, ?_, ?_, ?_⟩
  · rw [waiting, head]
    exact queued.listed.congr fun node member => next node (.inl member)
  · rw [tail, waiting]
    exact queued.tail
  · rw [length, waiting]
    exact queued.length
  · rw [took, entered]
    exact queued.order
  · rw [waiting]
    exact queued.once
  · rw [entered, took, job]
    exact queued.content
  · rw [entered]
    exact queued.ended
  · intro p q node first second
    exact queued.heldOnce p q node (holds p node first) (holds q node second)
  · intro p node held
    rw [waiting]
    exact queued.heldApart p node (holds p node held)
  · intro c d node first second
    exact queued.calledOnce c d node (callers c node first) (callers d node second)
  · intro c node called
    have apart := queued.calledApart c node (callers c node called)
    rw [waiting]
    exact ⟨apart.1, fun p held => apart.2 p (holds p node held)⟩
  · intro c node called
    rw [next node (.inr ⟨c, callers c node called⟩)]
    exact queued.calledNull c node (callers c node called)
  · intro c node called
    rw [job]
    exact queued.calledEnded c node (callers c node called)

variable {here : Proxy}

theorem setProxy (queued : Queued s) (at_ : s.proxies[proxy]? = some here)
    (there : Proxy) (item : there.item = none ∨ there.item = here.item) :
    Queued (s.setProxy proxy there) := by
  refine queued.kept rfl rfl rfl rfl rfl rfl (fun _ _ => rfl) (fun _ _ => id) ?_
  intro p node held
  rcases State.holds_setProxy held with old | ⟨rfl, new⟩
  · exact old
  · rcases item with absent | same
    · cases absent.symm.trans new
    · exact ⟨here, at_, same.symm.trans new⟩

theorem relink (queued : Queued s) {item : Node} (held : s.Holds proxy item) (link : Option Node) :
    Queued { s with next := update s.next item link } := by
  refine queued.kept rfl rfl rfl rfl rfl rfl ?_ (fun _ _ => id) (fun _ _ => id)
  intro node place
  refine update_of_ne ?_ _ _
  rintro rfl
  rcases place with inside | ⟨c, called⟩
  · exact queued.heldApart proxy node held inside
  · exact (queued.calledApart c node called).2 proxy held

variable {node : Node}

section

variable (queued : Queued s)
include queued

theorem fill {job : Job} (fresh : ¬ s.InUse node)
    (ended : job.Ended) (at_ : s.callers caller = .idle) : Queued (s.fill caller node job) := by
  have apart : ∀ other ∈ s.waiting, other ≠ node := by
    rintro other member rfl
    exact fresh (.inl member)
  have calls : ∀ c other, (s.fill caller node job).callers c = .enqueue other →
      c = caller ∧ other = node ∨ c ≠ caller ∧ other ≠ node ∧ s.callers c = .enqueue other := by
    intro c other called
    by_cases mine : c = caller
    · subst mine
      simp only [State.fill, State.setCaller, update_self] at called
      cases called
      exact .inl ⟨rfl, rfl⟩
    · simp only [State.fill, State.setCaller, update_of_ne mine] at called
      refine .inr ⟨mine, ?_, called⟩
      rintro rfl
      exact fresh (.inr (.inr ⟨c, called⟩))
  refine ⟨?_, queued.tail, queued.length, queued.order, queued.once, ?_, queued.ended,
    queued.heldOnce, queued.heldApart, ?_, ?_, ?_, ?_⟩
  · exact queued.listed.congr fun other member => update_of_ne (apart other member) _ _
  · intro entry member
    have inside : entry.node ∈ s.waiting := List.mem_map_of_mem member
    exact (update_of_ne (apart _ inside) _ _).trans (queued.content entry member)
  · intro c d other first second
    rcases calls c other first with ⟨rfl, rfl⟩ | ⟨-, differs, old⟩
    · rcases calls d _ second with ⟨rfl, -⟩ | ⟨-, differs, -⟩
      · rfl
      · exact absurd rfl differs
    · rcases calls d other second with ⟨-, rfl⟩ | ⟨-, -, also⟩
      · exact absurd rfl differs
      · exact queued.calledOnce c d other old also
  · intro c other called
    rcases calls c other called with ⟨-, rfl⟩ | ⟨-, -, old⟩
    · exact ⟨fun inside => fresh (.inl inside), fun p held => fresh (.of_holds held)⟩
    · exact queued.calledApart c other old
  · intro c other called
    rcases calls c other called with ⟨-, rfl⟩ | ⟨-, differs, old⟩
    · exact update_self ..
    · exact (update_of_ne differs _ _).trans (queued.calledNull c other old)
  · intro c other called
    rcases calls c other called with ⟨-, rfl⟩ | ⟨-, differs, old⟩
    · simpa only [State.fill, State.setCaller, update_self] using ended
    · have before := queued.calledEnded c other old
      simpa only [State.fill, State.setCaller, update_of_ne differs] using before

theorem waiting_link (node : Node) : (s.link node).waiting = s.waiting ++ [node] := by
  simp only [State.waiting, State.link, List.drop_append_of_le_length queued.took_le, List.map_append,
    List.map_cons, List.map_nil]

theorem listed_link (null : s.next node = none) (fresh : node ∉ s.waiting) :
    Chain (s.link node).next (s.link node).head (s.waiting ++ [node]) none := by
  cases last : s.tail with
  | none =>
    have empty : s.waiting = [] := List.getLast?_eq_none_iff.mp (queued.tail.symm.trans last)
    simp only [State.link, last, empty, List.nil_append]
    exact ⟨rfl, null⟩
  | some prev =>
    have ends : s.waiting.getLast? = some prev := queued.tail.symm.trans last
    have apart : node ≠ prev := by
      rintro rfl
      exact fresh (List.mem_of_getLast? ends)
    simp only [State.link, last]
    refine Chain.append.mpr ⟨some node, queued.listed.relink queued.once ends _, rfl, ?_⟩
    exact (update_of_ne apart _ _).trans null

theorem append (at_ : s.callers caller = .enqueue node)
    (there : Caller) (gone : ∀ other, there ≠ .enqueue other) :
    Queued ((s.link node).setCaller caller there) := by
  have apart := queued.calledApart caller node at_
  have waiting : ((s.link node).setCaller caller there).waiting = s.waiting ++ [node] :=
    queued.waiting_link node
  have calls : ∀ c other, ((s.link node).setCaller caller there).callers c = .enqueue other →
      other ≠ node ∧ s.callers c = .enqueue other := by
    intro c other called
    by_cases mine : c = caller
    · subst mine
      simp only [State.setCaller, update_self] at called
      exact absurd called (gone other)
    · simp only [State.setCaller, update_of_ne mine, State.link] at called
      refine ⟨?_, called⟩
      rintro rfl
      exact mine (queued.calledOnce c caller _ called at_)
  refine ⟨?_, ?_, ?_, ?_, ?_, ?_, ?_, queued.heldOnce, ?_, ?_, ?_, ?_, ?_⟩
  · rw [waiting]
    exact queued.listed_link (queued.calledNull caller node at_) apart.1
  · rw [waiting, List.getLast?_append_of_ne_nil _ (List.cons_ne_nil _ _)]
    rfl
  · rw [waiting, List.length_append, Int.natCast_add, ← queued.length]
    rfl
  · simp only [State.setCaller, State.link, List.map_append]
    exact queued.order.trans (List.prefix_append _ _)
  · rw [waiting]
    exact List.nodup_append'.mpr
      ⟨queued.once, List.nodup_singleton _, List.disjoint_singleton.mpr apart.1⟩
  · intro entry member
    simp only [State.setCaller, State.link,
      List.drop_append_of_le_length queued.took_le] at member ⊢
    rcases List.mem_append.mp member with old | new
    · exact queued.content entry old
    · cases List.mem_singleton.mp new
      rfl
  · intro entry member
    rcases List.mem_append.mp member with old | new
    · exact queued.ended entry old
    · cases List.mem_singleton.mp new
      exact queued.calledEnded caller node at_
  · intro p other held
    rw [waiting]
    intro inside
    rcases List.mem_append.mp inside with old | new
    · exact queued.heldApart p other held old
    · cases List.mem_singleton.mp new
      exact apart.2 p held
  · intro c d other first second
    exact queued.calledOnce c d other (calls c other first).2 (calls d other second).2
  · intro c other called
    obtain ⟨differs, old⟩ := calls c other called
    have before := queued.calledApart c other old
    rw [waiting]
    refine ⟨fun inside => ?_, before.2⟩
    rcases List.mem_append.mp inside with inside | new
    · exact before.1 inside
    · exact differs (List.mem_singleton.mp new)
  · intro c other called
    obtain ⟨-, old⟩ := calls c other called
    have null := queued.calledNull c other old
    cases last : s.tail with
    | none => simpa only [State.setCaller, State.link, last] using null
    | some prev =>
      have inside : prev ∈ s.waiting := List.mem_of_getLast? (queued.tail.symm.trans last)
      have differs : other ≠ prev := by
        rintro rfl
        exact (queued.calledApart c other old).1 inside
      simpa only [State.setCaller, State.link, last, update_of_ne differs] using null
  · intro c other called
    exact queued.calledEnded c other (calls c other called).2

theorem recruit (at_ : s.callers caller = .enqueue node) :
    Queued ((s.link node).recruit caller) := by
  simp only [State.recruit]
  split
  · have spawned := queued.append at_ .spawn (by rintro _ ⟨⟩)
    exact spawned.kept rfl rfl rfl rfl rfl rfl (fun _ _ => rfl) (fun _ _ => id) (fun _ _ => id)
  · exact queued.append at_ _ (by rintro _ ⟨⟩)

theorem unlink {item : Node} (at_ : s.proxies[proxy]? = some here) (first : s.head = some item) :
    Queued ((s.unlink proxy item).setProxy proxy (.make item s.took.length)) := by
  obtain ⟨rest, front⟩ : ∃ rest, s.waiting = item :: rest :=
    List.head?_eq_some_iff.mp (queued.head.symm.trans first)
  have waiting : ((s.unlink proxy item).setProxy proxy (.make item s.took.length)).waiting = rest := by
    have dropped : ((s.entered.drop s.took.length).map Entry.node).tail = rest := by
      rw [show (s.entered.drop s.took.length).map Entry.node = item :: rest from front, List.tail_cons]
    simp only [State.waiting, State.setProxy, State.unlink, List.length_append,
      List.length_singleton, ← List.tail_drop, List.map_tail]
    exact dropped
  have once := queued.once
  have listed := queued.listed
  rw [front] at once listed
  have inside : item ∈ s.waiting := front ▸ List.mem_cons_self
  have holds : ∀ p node, ((s.unlink proxy item).setProxy proxy (.make item s.took.length)).Holds p node →
      p ≠ proxy ∧ s.Holds p node ∨ p = proxy ∧ node = item := by
    intro p node held
    by_cases mine : p = proxy
    · subst mine
      obtain ⟨there, now, held⟩ := held
      obtain ⟨less, -⟩ := List.getElem?_eq_some_iff.mp at_
      simp only [State.setProxy, State.unlink, List.getElem?_set_self less] at now
      cases now
      cases held
      exact .inr ⟨rfl, rfl⟩
    · rcases State.holds_setProxy held with old | ⟨same, -⟩
      · exact .inl ⟨mine, old⟩
      · exact absurd same mine
  refine ⟨?_, ?_, ?_, ?_, ?_, ?_, queued.ended, ?_, ?_, queued.calledOnce, ?_, queued.calledNull,
    queued.calledEnded⟩
  · rw [waiting]
    exact listed.2
  · rw [waiting]
    have tail := queued.tail
    rw [front] at tail
    simp only [State.setProxy, State.unlink]
    cases rest with
    | nil =>
      have only : s.tail = some item := tail
      rw [if_pos only, listed.2, List.getLast?_nil]
    | cons second others =>
      rw [List.getLast?_cons_cons] at tail
      have differs : s.tail ≠ some item := by
        intro same
        exact (List.nodup_cons.mp once).1 (List.mem_of_getLast? (tail.symm.trans same))
      rw [if_neg differs]
      exact tail
  · rw [waiting]
    have length := queued.length
    rw [front] at length
    simp only [State.setProxy, State.unlink, length, List.length_cons]
    omega
  · simp only [State.setProxy, State.unlink, List.map_append, List.map_cons, List.map_nil]
    obtain ⟨back, same⟩ := queued.order
    have cut : back = item :: rest := by
      have dropped : (s.entered.map Entry.node).drop s.took.length = item :: rest := by
        rw [← List.map_drop]
        exact front
      rw [← same] at dropped
      rwa [List.drop_left' (List.length_map ..)] at dropped
    refine ⟨rest, ?_⟩
    rw [← same, cut, List.append_assoc]
    rfl
  · rw [waiting]
    exact (List.nodup_cons.mp once).2
  · intro entry member
    simp only [State.setProxy, State.unlink, List.length_append, List.length_cons, List.length_nil,
      ← List.drop_drop] at member
    exact queued.content entry (List.mem_of_mem_drop member)
  · intro p q node first second
    rcases holds p node first with ⟨-, old⟩ | ⟨rfl, rfl⟩
    · rcases holds q node second with ⟨-, also⟩ | ⟨-, rfl⟩
      · exact queued.heldOnce p q node old also
      · exact absurd inside (queued.heldApart p _ old)
    · rcases holds q _ second with ⟨-, also⟩ | ⟨rfl, -⟩
      · exact absurd inside (queued.heldApart q _ also)
      · rfl
  · intro p node held
    rw [waiting]
    rcases holds p node held with ⟨-, old⟩ | ⟨-, rfl⟩
    · intro member
      exact queued.heldApart p node old (front ▸ List.mem_cons_of_mem _ member)
    · exact (List.nodup_cons.mp once).1
  · intro c node called
    have before := queued.calledApart c node called
    rw [waiting]
    constructor
    · intro member
      exact before.1 (front ▸ List.mem_cons_of_mem _ member)
    · intro p held
      rcases holds p node held with ⟨-, old⟩ | ⟨-, rfl⟩
      · exact before.2 p old
      · exact before.1 inside

theorem process (at_ : s.proxies[proxy]? = some here) : Queued (s.process proxy) := by
  cases first : s.head with
  | none =>
    simp only [State.process, first]
    exact queued.setProxy at_ _ (.inl rfl)
  | some item =>
    simp only [State.process, first]
    exact queued.unlink at_ first

theorem moves (clear : s.Clear label) (moves : Moves s label after) : Queued after := by
  cases moves with
  | fill node job at_ => exact queued.fill clear.1 clear.2 at_
  | append at_ => exact queued.recruit at_
  | @create caller at_ =>
    refine queued.kept rfl rfl rfl rfl rfl rfl (fun _ _ => rfl) ?_ ?_
    · intro c node called
      by_cases mine : c = caller
      · subst mine
        simp [State.create, State.setCaller] at called
      · simpa [State.create, State.setCaller, update_of_ne mine] using called
    · rintro p node ⟨here, now, item⟩
      simp only [State.create, State.setCaller, List.getElem?_append] at now
      split at now
      · exact ⟨here, now, item⟩
      · rw [List.getElem?_singleton] at now
        split at now <;> cases now
        cases item
  | @count caller at_ =>
    refine queued.kept rfl rfl rfl rfl rfl rfl (fun _ _ => rfl) ?_ (fun _ _ => id)
    intro c node called
    by_cases mine : c = caller
    · subst mine
      simp [State.count, State.setCaller] at called
    · simpa [State.count, State.setCaller, update_of_ne mine] using called
  | test at_ =>
    rw [show s.proxyExit = false from clear]
    exact queued.setProxy at_ _ (.inl rfl)
  | process _ at_ => exact queued.process at_
  | timedOut at_ =>
    cases first : s.head with
    | none =>
      simp only [State.timedOut, first]
      have left := queued.setProxy at_ .left (.inl rfl)
      exact left.kept rfl rfl rfl rfl rfl rfl (fun _ _ => rfl) (fun _ _ => id) (fun _ _ => id)
    | some item =>
      simp only [State.timedOut, first]
      exact queued.setProxy at_ _ (.inl rfl)
  | @make proxy number item answer at_ =>
    have relinked := queued.relink ⟨_, at_, rfl⟩ none
    have moved := relinked.setProxy at_ (.requeue item number) (.inr rfl)
    exact moved.kept rfl rfl rfl rfl rfl rfl (fun _ _ => rfl) (fun _ _ => id) (fun _ _ => id)
  | requeue at_ =>
    have moved := queued.setProxy at_ (.free _) (.inr rfl)
    exact moved.kept rfl rfl rfl rfl rfl rfl (fun _ _ => rfl) (fun _ _ => id) (fun _ _ => id)
  | free link at_ =>
    have relinked := queued.relink ⟨_, at_, rfl⟩ link
    exact relinked.setProxy at_ .test (.inl rfl)
  | stop => exact queued.kept rfl rfl rfl rfl rfl rfl (fun _ _ => rfl) (fun _ _ => id) (fun _ _ => id)

end

end Queued

end Qthreads.Io
