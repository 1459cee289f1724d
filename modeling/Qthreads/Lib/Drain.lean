import Mathlib.Data.List.Basic

namespace Qthreads.Lib

variable {State Item : Type*}

def drain (take : State → Option (Option Item × State)) : Nat → State → Option (List Item × State)
  | 0, _ => none
  | fuel + 1, s =>
    match take s with
    | none => none
    | some (none, after) => some ([], after)
    | some (some item, after) =>
      (drain take fuel after).map fun rest => (item :: rest.1, rest.2)

def takeMany (take : State → Option (Option Item × State)) : Nat → State → Option (List Item × State)
  | 0, s => some ([], s)
  | count + 1, s =>
    match take s with
    | some (some item, after) =>
      (takeMany take count after).map fun rest => (item :: rest.1, rest.2)
    | _ => none

structure Takes (take : State → Option (Option Item × State)) (holds : State → List Item → Prop) :
    Prop where
  empty : ∀ s, holds s [] → ∃ after, take s = some (none, after) ∧ holds after []
  first : ∀ s item rest, holds s (item :: rest) →
    ∃ after, take s = some (some item, after) ∧ holds after rest

namespace Takes

variable {take : State → Option (Option Item × State)} {holds : State → List Item → Prop}
  {s : State} {items : List Item}

section

variable (takes : Takes take holds) (held : holds s items)
include takes held

theorem drain {fuel : Nat} (enough : items.length < fuel) :
    ∃ after, Lib.drain take fuel s = some (items, after) ∧ holds after [] := by
  induction items generalizing s fuel with
  | nil =>
    obtain ⟨fuel, rfl⟩ := Nat.exists_eq_succ_of_ne_zero (Nat.ne_of_gt enough)
    obtain ⟨after, taken, kept⟩ := takes.empty s held
    exact ⟨after, by simp [Lib.drain, taken], kept⟩
  | cons item rest ih =>
    obtain ⟨fuel, rfl⟩ := Nat.exists_eq_succ_of_ne_zero (Nat.ne_zero_of_lt enough)
    obtain ⟨middle, taken, kept⟩ := takes.first s item rest held
    obtain ⟨after, drained, empty⟩ := ih kept (Nat.lt_of_succ_lt_succ enough)
    exact ⟨after, by simp [Lib.drain, taken, drained], empty⟩

theorem takeMany :
    ∃ after, Lib.takeMany take items.length s = some (items, after) ∧ holds after [] := by
  induction items generalizing s with
  | nil => exact ⟨s, rfl, held⟩
  | cons item rest ih =>
    obtain ⟨middle, taken, kept⟩ := takes.first s item rest held
    obtain ⟨after, many, empty⟩ := ih kept
    exact ⟨after, by simp [Lib.takeMany, taken, many], empty⟩

theorem drain_unique {fuel : Nat}
    {result : List Item × State} (drained : Lib.drain take fuel s = some result) :
    result.1 = items ∧ holds result.2 [] := by
  induction fuel generalizing s items result with
  | zero => cases drained
  | succ fuel ih =>
    cases items with
    | nil =>
      obtain ⟨after, taken, kept⟩ := takes.empty s held
      simp only [Lib.drain, taken, Option.some.injEq] at drained
      subst drained
      exact ⟨rfl, kept⟩
    | cons item rest =>
      obtain ⟨middle, taken, kept⟩ := takes.first s item rest held
      simp only [Lib.drain, taken] at drained
      cases later : Lib.drain take fuel middle with
      | none => simp [later] at drained
      | some found =>
        simp only [later, Option.map_some, Option.some.injEq] at drained
        obtain ⟨same, empty⟩ := ih kept later
        subst drained
        exact ⟨by simp [same], empty⟩

end

end Takes

end Qthreads.Lib
