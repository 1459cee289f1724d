import Qthreads.Lib.Sieve

namespace Qthreads

open Lib

inductive FilterCode where
  | ignoreAndContinue
  | ignoreAndStop
  | removeAndContinue
  | removeAndStop

/-- `qt_threadqueue_filter_f`; what it answers may depend on the tasks it was asked about before,
the latest first. -/
abbrev Filter (Task : Type) := List Task → Task → FilterCode

variable {Task : Type}

def Filter.sieve (f : Filter Task) : Sieve Task where
  removes asked t := match f asked t with
    | .removeAndContinue => true
    | .removeAndStop => true
    | _ => false
  stops asked t := match f asked t with
    | .ignoreAndStop => true
    | .removeAndStop => true
    | _ => false

variable {f : Filter Task} {asked : List Task} {t : Task}

theorem Filter.keeps_goes (answer : f asked t = .ignoreAndContinue) :
    f.sieve.removes asked t = false ∧ f.sieve.stops asked t = false := by
  simp only [Filter.sieve, answer, and_self]

theorem Filter.keeps_halts (answer : f asked t = .ignoreAndStop) :
    f.sieve.removes asked t = false ∧ f.sieve.stops asked t = true := by
  simp only [Filter.sieve, answer, and_self]

theorem Filter.removes_goes (answer : f asked t = .removeAndContinue) :
    f.sieve.removes asked t = true ∧ f.sieve.stops asked t = false := by
  simp only [Filter.sieve, answer, and_self]

theorem Filter.removes_halts (answer : f asked t = .removeAndStop) :
    f.sieve.removes asked t = true ∧ f.sieve.stops asked t = true := by
  simp only [Filter.sieve, answer, and_self]

end Qthreads
