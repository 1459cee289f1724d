import Qthreads.Lib.Tasks

namespace Qthreads.Lib

/-! Atomic objects and linearizability.

An atomic object is used by any number of tasks.  Each operation takes effect at one moment between
its call and its return, in the way the object's sequential behaviour allows.  A history of calls
and returns is linearizable when it is one of the atomic object's. -/

inductive Seen (Op Result : Type*) where
  | call (op : Op)
  | ret (result : Result)
  | silent

inductive Caller (Op Result : Type*) where
  | idle
  | called (op : Op)
  | done (result : Result)

section

variable {State Op Result : Type*}

inductive Atomic (behaviour : State → Op → Result → State → Prop) (task : Nat) :
    State → Caller Op Result → Seen Op Result → State → Caller Op Result → Prop where
  | call {state : State} (op : Op) : Atomic behaviour task state .idle (.call op) state (.called op)
  | effect {before after : State} {op : Op} {result : Result} : behaviour before op result after →
      Atomic behaviour task before (.called op) .silent after (.done result)
  | ret {state : State} {result : Result} :
      Atomic behaviour task state (.done result) (.ret result) state .idle

def visible : List (Nat × Seen Op Result) → List (Nat × Seen Op Result)
  | [] => []
  | (_, .silent) :: rest => visible rest
  | (task, .call op) :: rest => (task, .call op) :: visible rest
  | (task, .ret result) :: rest => (task, .ret result) :: visible rest

theorem visible_append (front back : List (Nat × Seen Op Result)) :
    visible (front ++ back) = visible front ++ visible back := by
  induction front with
  | nil => rfl
  | cons first rest ih =>
    obtain ⟨task, seen⟩ := first
    cases seen with
    | call op => simp only [List.cons_append, visible, ih]
    | ret result => simp only [List.cons_append, visible, ih]
    | silent => simp only [List.cons_append, visible, ih]

def Linearizable (behaviour : State → Op → Result → State → Prop) (initial : State)
    (history : List (Nat × Seen Op Result)) : Prop :=
  ∃ labels last, Run (Config.Step (Atomic behaviour)) ⟨initial, fun _ => .idle⟩ labels last ∧
    visible labels = history

variable {labels : List (Nat × Seen Op Result)}

/-- Where every step of a system is matched by steps of the atomic object that look the same from
outside, the histories of the system are linearizable. -/
theorem linearizable_of_simulation {Concrete : Type*}
    {step : Concrete → Nat × Seen Op Result → Concrete → Prop}
    {behaviour : State → Op → Result → State → Prop} {initial : State}
    (matched : Concrete → Config State (Caller Op Result) → Prop)
    (simulate : ∀ before label after abstract, matched before abstract → step before label after →
      ∃ labels next, Run (Config.Step (Atomic behaviour)) abstract labels next ∧
        visible labels = visible [label] ∧ matched after next)
    {first last : Concrete}
    (start : matched first ⟨initial, fun _ => .idle⟩) (run : Run step first labels last) :
    Linearizable behaviour initial (visible labels) := by
  suffices more : ∀ abstract, matched first abstract → ∃ seen next,
      Run (Config.Step (Atomic behaviour)) abstract seen next ∧ visible seen = visible labels by
    exact more _ start
  clear start
  induction run with
  | nil =>
    intro abstract _
    exact ⟨[], abstract, .nil _, rfl⟩
  | cons taken _ ih =>
    intro abstract here
    obtain ⟨front, middle, run, same, there⟩ := simulate _ _ _ _ here taken
    obtain ⟨back, next, rest, alike⟩ := ih middle there
    refine ⟨front ++ back, next, run.append rest, ?_⟩
    rw [visible_append, same, alike, ← visible_append]
    rfl

theorem peel_visible {Concrete : Type*} {step : Concrete → Nat × Seen Op Result → Concrete → Prop}
    {first last : Concrete} {seen : Nat × Seen Op Result}
    {history : List (Nat × Seen Op Result)} {kept : Concrete → Prop}
    (keep : ∀ before task after, kept before → step before (task, .silent) after → kept after)
    (run : Run step first labels last) (same : visible labels = seen :: history)
    (start : kept first) :
    ∃ before after rest, kept before ∧ step before seen after ∧ Run step after rest last ∧
      visible rest = history := by
  induction run with
  | nil => cases same
  | @cons before after last label labels taken rest ih =>
    obtain ⟨task, label⟩ := label
    cases label with
    | silent => exact ih same (keep _ _ _ start taken)
    | call op =>
      cases same
      exact ⟨before, after, labels, start, taken, rest, rfl⟩
    | ret result =>
      cases same
      exact ⟨before, after, labels, start, taken, rest, rfl⟩

end

end Qthreads.Lib
