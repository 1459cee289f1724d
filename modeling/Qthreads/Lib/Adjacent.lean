import Mathlib.Data.List.Nodup

namespace Qthreads.Lib

variable {α : Type*}

def Adjacent : List α → α → α → Prop
  | [], _, _ => False
  | first :: rest, a, b => (a = first ∧ rest.head? = some b) ∨ Adjacent rest a b

namespace Adjacent

variable {list : List α} {a b c x : α}

theorem left_mem (adjacent : Adjacent list a b) : a ∈ list := by
  induction list with
  | nil => exact adjacent.elim
  | cons first rest ih =>
    cases adjacent with
    | inl here => exact here.1 ▸ List.mem_cons_self ..
    | inr later => exact List.mem_cons_of_mem _ (ih later)

theorem right_mem_tail (adjacent : Adjacent list a b) : b ∈ list.tail := by
  induction list with
  | nil => exact adjacent.elim
  | cons first rest ih =>
    cases adjacent with
    | inl here => exact List.mem_of_mem_head? here.2
    | inr later => exact List.mem_of_mem_tail (ih later)

theorem right_mem (adjacent : Adjacent list a b) : b ∈ list :=
  List.mem_of_mem_tail adjacent.right_mem_tail

theorem append_iff :
    Adjacent (list ++ [x]) a b ↔ Adjacent list a b ∨ (list.getLast? = some a ∧ b = x) := by
  induction list with
  | nil => simp [Adjacent]
  | cons first rest ih =>
    rw [List.cons_append, Adjacent, ih, Adjacent]
    cases rest with
    | nil =>
      simp only [List.nil_append, List.head?_cons, List.head?_nil, List.getLast?_singleton,
        Option.some.injEq, Adjacent]
      grind
    | cons second rest =>
      simp only [List.cons_append, List.head?_cons, List.getLast?_cons_cons]
      tauto

variable (once : list.Nodup)

include once

theorem right_unique (one : Adjacent list a b) (two : Adjacent list a c) : b = c := by
  induction list with
  | nil => exact one.elim
  | cons first rest ih =>
    rw [List.nodup_cons] at once
    cases one with
    | inl here =>
      cases two with
      | inl there =>
        rw [here.2] at there
        exact Option.some.inj there.2
      | inr later => exact absurd (here.1 ▸ later.left_mem) once.1
    | inr sooner =>
      cases two with
      | inl there => exact absurd (there.1 ▸ sooner.left_mem) once.1
      | inr later => exact ih once.2 sooner later

theorem left_unique (one : Adjacent list a c) (two : Adjacent list b c) : a = b := by
  induction list with
  | nil => exact one.elim
  | cons first rest ih =>
    have fresh : ∀ {x y}, Adjacent rest x y → rest.head? ≠ some y := by
      intro x y adjacent front
      have behind := adjacent.right_mem_tail
      cases rest with
      | nil => exact adjacent.elim
      | cons second rest =>
        cases front
        exact (List.nodup_cons.mp (List.nodup_cons.mp once).2).1 behind
    cases one with
    | inl here =>
      cases two with
      | inl there => rw [here.1, there.1]
      | inr later => exact absurd here.2 (fresh later)
    | inr sooner =>
      cases two with
      | inl there => exact absurd there.2 (fresh sooner)
      | inr later => exact ih (List.nodup_cons.mp once).2 sooner later

theorem ne_head (front : list.head? = some b) : ¬ Adjacent list a b := by
  intro adjacent
  have behind := adjacent.right_mem_tail
  cases list with
  | nil => exact adjacent
  | cons first rest =>
    cases front
    exact (List.nodup_cons.mp once).1 behind

theorem ne_getLast (back : list.getLast? = some a) : ¬ Adjacent list a b := by
  induction list with
  | nil => exact id
  | cons first rest ih =>
    rintro (⟨rfl, follows⟩ | later)
    · cases rest with
      | nil => cases follows
      | cons second rest =>
        rw [List.getLast?_cons_cons] at back
        exact (List.nodup_cons.mp once).1 (List.mem_of_getLast? back)
    · cases rest with
      | nil => exact later
      | cons second rest =>
        rw [List.getLast?_cons_cons] at back
        exact ih (List.nodup_cons.mp once).2 back later

end Adjacent

end Qthreads.Lib
