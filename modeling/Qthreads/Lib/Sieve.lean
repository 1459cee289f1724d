import Mathlib.Data.List.Perm.Basic

namespace Qthreads.Lib

variable {α β : Type*}

/-- Whether an element is taken out, and whether it is the last one asked about; both may depend on
those asked about before, the latest first. -/
structure Sieve (β : Type*) where
  removes : List β → β → Bool
  stops : List β → β → Bool

namespace Sieve

variable (s : Sieve β) (view : α → β)

def asks : List β → List β → List β
  | _, [] => []
  | asked, x :: rest => x :: if s.stops asked x then [] else asks (x :: asked) rest

def keptBy : List β → List α → List α
  | _, [] => []
  | asked, x :: rest =>
    let others := if s.stops asked (view x) then rest else keptBy (view x :: asked) rest
    if s.removes asked (view x) then others else x :: others

def kept : List β → List β → List β := s.keptBy id

def heldBy : List β → List α → List α
  | _, [] => []
  | asked, x :: rest =>
    let others := if s.stops asked (view x) then [] else heldBy (view x :: asked) rest
    if s.removes asked (view x) then others else x :: others

def unasked : List β → List β → List β
  | _, [] => []
  | asked, x :: rest => if s.stops asked x then rest else unasked (x :: asked) rest

def Exhausts : List β → List β → Prop
  | _, [] => True
  | asked, x :: rest => s.stops asked x = false ∧ Exhausts (x :: asked) rest

def RemovesLast : List β → List β → Prop
  | _, [] => False
  | asked, [x] => s.removes asked x = true
  | asked, x :: y :: rest => RemovesLast (x :: asked) (y :: rest)

instance decidableExhausts : (asked list : List β) → Decidable (s.Exhausts asked list)
  | _, [] => .isTrue trivial
  | asked, x :: rest =>
    have := decidableExhausts (x :: asked) rest
    inferInstanceAs (Decidable (_ ∧ _))

instance decidableRemovesLast : (asked list : List β) → Decidable (s.RemovesLast asked list)
  | _, [] => .isFalse id
  | asked, [x] => inferInstanceAs (Decidable (s.removes asked x = true))
  | asked, x :: y :: rest => decidableRemovesLast (x :: asked) (y :: rest)

variable {s view}

theorem keptBy_map (asked : List β) (list : List α) :
    (s.keptBy view asked list).map view = s.kept asked (list.map view) := by
  induction list generalizing asked with
  | nil => rfl
  | cons x rest ih =>
    simp only [kept, keptBy, List.map_cons, id] at ih ⊢
    split <;> split <;> simp only [List.map_cons, ih]

theorem kept_eq (asked list : List β) :
    s.kept asked list = s.heldBy id asked list ++ s.unasked asked list := by
  induction list generalizing asked with
  | nil => rfl
  | cons x rest ih =>
    simp only [kept, keptBy, heldBy, unasked, id] at ih ⊢
    split <;> split <;> simp only [List.nil_append, List.cons_append, ih]

theorem heldBy_map (asked : List β) (list : List α) :
    (s.heldBy view asked list).map view = s.heldBy id asked (list.map view) := by
  induction list generalizing asked with
  | nil => rfl
  | cons x rest ih =>
    simp only [heldBy, List.map_cons, id] at ih ⊢
    split <;> split <;> simp only [List.map_cons, List.map_nil, ih]

end Sieve

end Qthreads.Lib
