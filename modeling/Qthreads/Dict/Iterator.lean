import Qthreads.Dict.Interface

namespace Qthreads.Dict

inductive Returned where
  | entry (entry : Entry)
  | null
  | error

/-- `qt_dictionary_iterator_create`, `_next` and `_equals` and `qt_dictionary_end`, for a
dictionary that nobody changes.  There is no result where an assertion fails, or where C leaves
open what happens. -/
structure Iteration (It : Type) where
  create : It
  next : It → Option (Returned × It)
  finish : It
  equals : It → It → Bool

/-- `next`, again and again, returns the entries and then `NULL`. -/
def Iteration.Returns {It : Type} (ops : Iteration It) : It → List Entry → It → Prop
  | it, [], last => ops.next it = some (.null, last)
  | it, first :: rest, last =>
    ∃ later, ops.next it = some (.entry first, later) ∧ ops.Returns later rest last

/-- The entries have each key that is bound, with its value, once, and no other key. -/
def FiniteMap.Listed (keys : KeyOps) (map : FiniteMap) (entries : List Entry) : Prop :=
  (entries.Pairwise fun e later => keys.opEquals e.key later.key = false) ∧
  ∀ key value, map key = some value ↔
    ∃ e ∈ entries, keys.opEquals e.key key = true ∧ e.value = value

/-- A new iterator returns each binding once and then `NULL`, and is at the end then. -/
def Iteration.Exact {It : Type} (ops : Iteration It) (keys : KeyOps) (map : FiniteMap) : Prop :=
  ∃ entries last, ops.Returns ops.create entries last ∧ map.Listed keys entries ∧
    ops.equals last ops.finish = true

theorem Iteration.returns {It : Type} (ops : Iteration It) (Ahead : It → List Entry → Prop)
    (step : ∀ it first rest, Ahead it (first :: rest) →
      ∃ later, ops.next it = some (.entry first, later) ∧ Ahead later rest)
    (stop : ∀ it, Ahead it [] →
      ∃ last, ops.next it = some (.null, last) ∧ ops.equals last ops.finish = true)
    {entries : List Entry} {it : It} (ahead : Ahead it entries) :
    ∃ last, ops.Returns it entries last ∧ ops.equals last ops.finish = true := by
  induction entries generalizing it with
  | nil => exact stop it ahead
  | cons first rest ih =>
    obtain ⟨later, returned, left⟩ := step it first rest ahead
    obtain ⟨last, returns, equals⟩ := ih left
    exact ⟨last, ⟨later, returned, returns⟩, equals⟩

end Qthreads.Dict
