import Mathlib.Data.List.Basic

namespace Qthreads.Lib

variable {State Label : Type*}

/-- Finite runs of a labelled step relation, from the first state to the last. -/
inductive Run (step : State → Label → State → Prop) : State → List Label → State → Prop where
  | nil (state : State) : Run step state [] state
  | cons {first next last : State} {label : Label} {labels : List Label} :
      step first label next → Run step next labels last → Run step first (label :: labels) last

/-- The steps taken from states that meet a condition on the step about to be taken. -/
def Guarded (allowed : State → Label → Prop) (step : State → Label → State → Prop) :
    State → Label → State → Prop :=
  fun before label after => allowed before label ∧ step before label after

namespace Run

variable {step : State → Label → State → Prop} {first middle last : State}
  {labels rest : List Label}

theorem append (front : Run step first labels middle) (back : Run step middle rest last) :
    Run step first (labels ++ rest) last := by
  induction front with
  | nil => exact back
  | cons taken _ ih => exact .cons taken (ih back)

theorem snoc {label : Label} (front : Run step first labels middle)
    (taken : step middle label last) : Run step first (labels ++ [label]) last :=
  front.append (.cons taken (.nil _))

theorem preserves {kept : State → Prop}
    (keep : ∀ before label after, kept before → step before label after → kept after)
    (run : Run step first labels last) (start : kept first) : kept last := by
  induction run with
  | nil => exact start
  | cons taken _ ih => exact ih (keep _ _ _ start taken)

theorem simulates {Abstract : Type*} {spec : Abstract → Label → Abstract → Prop}
    {shows : State → Abstract → Prop}
    (simulate : ∀ before label after shown, shows before shown → step before label after →
      ∃ next, spec shown label next ∧ shows after next)
    (run : Run step first labels last) {shown : Abstract} (start : shows first shown) :
    ∃ left, Run spec shown labels left ∧ shows last left := by
  induction run generalizing shown with
  | nil => exact ⟨shown, .nil _, start⟩
  | cons taken _ ih =>
    obtain ⟨next, served, kept⟩ := simulate _ _ _ _ start taken
    obtain ⟨left, rest, ended⟩ := ih kept
    exact ⟨left, .cons served rest, ended⟩

theorem mono {weaker : State → Label → State → Prop}
    (imp : ∀ before label after, step before label after → weaker before label after)
    (run : Run step first labels last) : Run weaker first labels last := by
  induction run with
  | nil => exact .nil _
  | cons taken _ ih => exact .cons (imp _ _ _ taken) ih

end Run

end Qthreads.Lib
