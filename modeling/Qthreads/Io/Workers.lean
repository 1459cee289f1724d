import Qthreads.Io.Machine

namespace Qthreads.Io

open Lib
open Function (update update_of_ne update_self)

inductive Moves (s : State) : Label → State → Prop where
  | fill {caller : Nat} (node : Node) (job : Job) : s.callers caller = .idle →
      Moves s (.call caller node job) (s.fill caller node job)
  | append {caller : Nat} {node : Node} : s.callers caller = .enqueue node → s.lock = none →
      Moves s (.append caller) ((s.link node).recruit caller)
  | create {caller : Nat} : s.callers caller = .spawn → Moves s (.create caller) (s.create caller)
  | count {caller : Nat} : s.callers caller = .count → Moves s (.count caller) (s.count caller)
  | test {proxy : Nat} : s.proxies[proxy]? = some .test →
      Moves s (.test proxy) (s.setProxy proxy (if s.proxyExit then .left else .process))
  | process {proxy : Nat} {here : Proxy} (label : Label) : s.proxies[proxy]? = some here →
      here = .process ∨ here = .wait → s.lock = none → Moves s label (s.process proxy)
  | timedOut {proxy : Nat} : s.proxies[proxy]? = some .wait → s.lock = none →
      Moves s (.wake proxy .timedOut) (s.timedOut proxy)
  | make {proxy number : Nat} {item : Node} (answer : Word) :
      s.proxies[proxy]? = some (.make item number) →
      Moves s (.make proxy answer)
        ((s.make item number answer).setProxy proxy (.requeue item number))
  | requeue {proxy number : Nat} {item : Node} : s.proxies[proxy]? = some (.requeue item number) →
      Moves s (.requeue proxy) ((s.requeue item number).setProxy proxy (.free item))
  | free {proxy : Nat} {item : Node} (link : Option Node) : s.proxies[proxy]? = some (.free item) →
      Moves s (.free proxy link)
        { s.setProxy proxy .test with next := update s.next item link }
  | stop (label : Label) (proxyExit : Bool) (stopwork : Stopwork) :
      Moves s label { s with proxyExit, stopwork }

theorem Moves.of_step {s after : State} {label : Label} (step : s.Step label after) :
    Moves s label after := by
  cases label with
  | call caller node job =>
    cases at_ : s.callers caller <;> simp only [State.Step, State.step, at_] at step <;> cases step
    exact .fill node job at_
  | append caller =>
    cases at_ : s.callers caller <;> cases free : s.lock <;>
      simp only [State.Step, State.step, at_, free] at step <;> cases step
    exact .append at_ free
  | create caller =>
    cases at_ : s.callers caller <;> simp only [State.Step, State.step, at_] at step <;> cases step
    exact .create at_
  | count caller =>
    cases at_ : s.callers caller <;> simp only [State.Step, State.step, at_] at step <;> cases step
    exact .count at_
  | test proxy =>
    simp only [State.Step, State.step] at step
    split at step <;> cases step
    exact .test ‹_›
  | process proxy =>
    simp only [State.Step, State.step] at step
    split at step <;> cases step
    exact .process _ ‹_› (.inl rfl) ‹_›
  | wake proxy answer =>
    simp only [State.Step, State.step] at step
    split at step <;> cases step
    by_cases out : answer = .timedOut
    · rw [if_pos out, out]
      exact .timedOut ‹_› ‹_›
    · rw [if_neg out]
      exact .process _ ‹_› (.inr rfl) ‹_›
  | make proxy answer =>
    simp only [State.Step, State.step] at step
    split at step <;> cases step
    exact .make answer ‹_›
  | requeue proxy =>
    simp only [State.Step, State.step] at step
    split at step <;> cases step
    exact .requeue ‹_›
  | free proxy link =>
    simp only [State.Step, State.step] at step
    split at step <;> cases step
    exact .free link ‹_›
  | shutdown =>
    cases at_ : s.stopwork <;> simp only [State.Step, State.step, at_] at step <;> cases step
    exact .stop _ true .spin
  | spin =>
    cases at_ : s.stopwork <;> simp only [State.Step, State.step, at_] at step <;> cases step
    by_cases zero : s.ioWorkerCount = 0
    · rw [if_pos zero]
      exact .stop _ s.proxyExit .lock
    · rw [if_neg zero]
      exact .stop _ s.proxyExit s.stopwork
  | stop =>
    cases at_ : s.stopwork <;> cases free : s.lock <;>
      simp only [State.Step, State.step, at_, free] at step <;> cases step
    rw [← free]
    exact .stop _ s.proxyExit .done

namespace State

variable {s : State} {caller proxy : Nat}

theorem alive_setProxy {here : Proxy} (at_ : s.proxies[proxy]? = some here) (there : Proxy) :
    (s.setProxy proxy there).alive + (if here ≠ .left then 1 else 0) =
      s.alive + (if there ≠ .left then 1 else 0) := by
  obtain ⟨inside, same⟩ := List.getElem?_eq_some_iff.mp at_
  have changed := List.countP_set (p := fun here => decide (here ≠ Proxy.left)) (a := there) inside
  have found : (if here ≠ .left then 1 else 0) ≤ s.alive := by
    by_cases gone : here = .left
    · rw [if_neg (not_not.mpr gone)]
      exact Nat.zero_le _
    · rw [if_pos gone]
      refine List.countP_pos_iff.mpr ⟨here, List.mem_of_getElem? at_, ?_⟩
      exact decide_eq_true gone
  simp only [same, decide_eq_true_eq] at changed
  simp only [alive, setProxy] at found ⊢
  omega

theorem alive_setProxy_same {here there : Proxy} (at_ : s.proxies[proxy]? = some here)
    (before : here ≠ .left) (later : there ≠ .left) : (s.setProxy proxy there).alive = s.alive := by
  have moved := alive_setProxy at_ there
  rw [if_pos before, if_pos later] at moved
  exact Nat.add_right_cancel moved

def uncounted (s : State) : Nat :=
  match s.lock with
  | none => 0
  | some caller => if s.callers caller = .count then 1 else 0

end State

structure Counted (s : State) : Prop where
  counted : s.ioWorkerCount + s.uncounted = s.alive
  holder : ∀ caller, s.lock = some caller ↔ s.callers caller = .spawn ∨ s.callers caller = .count
  served : s.lock = none → s.head ≠ none → 0 < s.ioWorkerCount
  nonneg : 0 ≤ s.ioWorkerCount
  room : 0 < s.ioWorkerMax

namespace Counted

variable {s after : State} {label : Label} {caller proxy : Nat}

section

variable (counted : Counted s)
include counted

theorem alone {other : Nat} (at_ : s.callers caller = .spawn ∨ s.callers caller = .count)
    (also : s.callers other = .spawn ∨ s.callers other = .count) : other = caller := by
  have mine := (counted.holder caller).mpr at_
  have theirs := (counted.holder other).mpr also
  exact Option.some.inj (theirs.symm.trans mine)

theorem outside (free : s.lock = none) : s.callers caller ≠ .spawn ∧ s.callers caller ≠ .count := by
  constructor <;> intro at_
  · cases free.symm.trans ((counted.holder caller).mpr (.inl at_))
  · cases free.symm.trans ((counted.holder caller).mpr (.inr at_))

theorem kept (lock : after.lock = s.lock)
    (count : after.ioWorkerCount = s.ioWorkerCount) (max : after.ioWorkerMax = s.ioWorkerMax)
    (alive : after.alive = s.alive) (spawns : ∀ c, after.callers c = .spawn ↔ s.callers c = .spawn)
    (counts : ∀ c, after.callers c = .count ↔ s.callers c = .count)
    (head : s.head = none → after.head = none) : Counted after where
  counted := by
    have same : after.uncounted = s.uncounted := by
      simp only [State.uncounted, lock, counts]
    rw [count, alive, same]
    exact counted.counted
  holder := by
    intro caller
    rw [lock, spawns, counts]
    exact counted.holder caller
  served := by
    intro free present
    rw [count]
    exact counted.served (lock ▸ free) fun absent => present (head absent)
  nonneg := count ▸ counted.nonneg
  room := max ▸ counted.room

theorem setProxy {here there : Proxy} (at_ : s.proxies[proxy]? = some here)
    (before : here ≠ .left) (later : there ≠ .left) : Counted (s.setProxy proxy there) :=
  counted.kept rfl rfl rfl (State.alive_setProxy_same at_ before later) (fun _ => Iff.rfl)
    (fun _ => Iff.rfl) id

theorem fill (node : Node) (job : Job) (at_ : s.callers caller = .idle) :
    Counted (s.fill caller node job) := by
  refine counted.kept rfl rfl rfl rfl ?_ ?_ id
  all_goals
    intro other
    by_cases mine : other = caller
    · subst mine
      simp [State.fill, State.setCaller, at_]
    · simp [State.fill, State.setCaller, update_of_ne mine]

theorem append {node : Node} (length : 0 ≤ s.length)
    (at_ : s.callers caller = .enqueue node) (free : s.lock = none) :
    Counted ((s.link node).recruit caller) := by
  have count : s.ioWorkerCount = s.alive := by
    have all := counted.counted
    rw [State.uncounted, free] at all
    simpa using all
  have apart (other : Nat) := @outside s other counted free
  simp only [State.recruit]
  split
  case isTrue =>
      refine ⟨?_, ?_, nofun, counted.nonneg, counted.room⟩
      · simpa [State.link, State.setCaller, State.uncounted, State.alive] using count
      · intro other
        by_cases mine : other = caller
        · subst mine
          simp [State.link, State.setCaller]
        · simp [State.link, State.setCaller, update_of_ne mine, apart other, Ne.symm mine]
  case isFalse enough =>
      refine ⟨?_, ?_, ?_, counted.nonneg, counted.room⟩
      · simpa [State.link, State.setCaller, State.uncounted, State.alive, free] using count
      · intro other
        by_cases mine : other = caller
        · subst mine
          simp [State.link, State.setCaller, free]
        · simp [State.link, State.setCaller, update_of_ne mine, apart other, free]
      · intro _ _
        have room := counted.room
        simp only [State.link, State.setCaller] at enough ⊢
        omega

theorem create (at_ : s.callers caller = .spawn) : Counted (s.create caller) := by
  have held := (counted.holder caller).mpr (.inl at_)
  refine ⟨?_, ?_, ?_, counted.nonneg, counted.room⟩
  · have all := counted.counted
    simp only [State.uncounted, held, at_] at all
    simp only [State.create, State.setCaller, State.uncounted, held, update_self, State.alive,
      List.countP_append] at all ⊢
    simpa using all
  · intro other
    by_cases mine : other = caller
    · subst mine
      simp [State.create, State.setCaller, held]
    · simpa [State.create, State.setCaller, update_of_ne mine] using counted.holder other
  · intro free
    cases held.symm.trans free

theorem count (at_ : s.callers caller = .count) : Counted (s.count caller) := by
  have held := (counted.holder caller).mpr (.inr at_)
  have all : s.ioWorkerCount + 1 = s.alive := by
    have all := counted.counted
    simpa [State.uncounted, held, at_] using all
  have nonneg := counted.nonneg
  refine ⟨?_, ?_, ?_, ?_, counted.room⟩
  · simpa [State.count, State.setCaller, State.uncounted, State.alive] using all
  · intro other
    by_cases mine : other = caller
    · subst mine
      simp [State.count, State.setCaller]
    · have apart : ¬ (s.callers other = .spawn ∨ s.callers other = .count) :=
        fun also => mine (counted.alone (.inr at_) also)
      simpa [State.count, State.setCaller, update_of_ne mine] using apart
  · intro _ _
    exact Int.lt_add_one_of_le nonneg
  · exact Int.le_add_one nonneg

theorem timedOut (at_ : s.proxies[proxy]? = some .wait)
    (free : s.lock = none) : Counted (s.timedOut proxy) := by
  cases empty : s.head with
  | some item =>
    simp only [State.timedOut, empty]
    exact counted.setProxy at_ nofun nofun
  | none =>
    simp only [State.timedOut, empty]
    have moved : (s.setProxy proxy .left).alive + 1 = s.alive := by
      simpa using State.alive_setProxy at_ .left
    have all := counted.counted
    simp only [State.uncounted, free] at all
    refine ⟨?_, counted.holder, fun _ present => absurd empty present, ?_, counted.room⟩
    · simp only [State.uncounted, State.setProxy, State.alive, free] at moved all ⊢
      omega
    · simp only
      omega

theorem process {here : Proxy} (at_ : s.proxies[proxy]? = some here)
    (start : here = .process ∨ here = .wait) : Counted (s.process proxy) := by
  have before : here ≠ .left := by
    rintro rfl
    cases start <;> contradiction
  cases empty : s.head with
  | none =>
    simp only [State.process, empty]
    exact counted.setProxy at_ before nofun
  | some item =>
    simp only [State.process, empty]
    refine counted.kept rfl rfl rfl ?_ (fun _ => Iff.rfl) (fun _ => Iff.rfl) ?_
    · exact State.alive_setProxy_same (s := s) at_ before nofun
    · rw [empty]
      nofun

theorem moves (length : 0 ≤ s.length) (clear : s.Clear label)
    (moves : Moves s label after) : Counted after := by
  cases moves with
  | fill node job at_ => exact counted.fill node job at_
  | append at_ free => exact counted.append length at_ free
  | create at_ => exact counted.create at_
  | count at_ => exact counted.count at_
  | test at_ =>
    rw [show s.proxyExit = false from clear]
    exact counted.setProxy at_ nofun nofun
  | process _ at_ start => exact counted.process at_ start
  | timedOut at_ free => exact counted.timedOut at_ free
  | make answer at_ =>
    exact counted.kept rfl rfl rfl (State.alive_setProxy_same (s := s) at_ nofun nofun)
      (fun _ => Iff.rfl) (fun _ => Iff.rfl) id
  | requeue at_ =>
    exact counted.kept rfl rfl rfl (State.alive_setProxy_same (s := s) at_ nofun nofun)
      (fun _ => Iff.rfl) (fun _ => Iff.rfl) id
  | free link at_ =>
    exact counted.kept rfl rfl rfl (State.alive_setProxy_same (s := s) at_ nofun nofun)
      (fun _ => Iff.rfl) (fun _ => Iff.rfl) id
  | stop => exact counted.kept rfl rfl rfl rfl (fun _ => Iff.rfl) (fun _ => Iff.rfl) id

end

end Counted

end Qthreads.Io
