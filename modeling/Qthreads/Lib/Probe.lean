import Mathlib.Data.List.TakeWhile
import Mathlib.Data.Nat.ModEq
import Mathlib.Data.Nat.Prime.Basic

namespace Qthreads.Lib.Probe

/-! A search walks along a path of slots and ends at the first one that stops it.  The slots it
sees are the longest prefix of the path that does not stop it. -/

section Walk

variable {Slot : Type*} {pass more free : Slot → Bool} {path front back : List Slot}
  {slot : Slot}

theorem mem_takeWhile_mono (weaker : ∀ slot, pass slot = true → more slot = true)
    (seen : slot ∈ path.takeWhile pass) : slot ∈ path.takeWhile more := by
  induction path with
  | nil => cases seen
  | cons first rest ih =>
    by_cases passes : pass first = true
    · rw [List.takeWhile_cons_of_pos passes, List.mem_cons] at seen
      rw [List.takeWhile_cons_of_pos (weaker first passes), List.mem_cons]
      exact seen.imp id ih
    · rw [List.takeWhile_cons_of_neg passes] at seen
      cases seen

theorem mem_takeWhile_front (here : slot ∈ front)
    (seen : slot ∈ (front ++ back).takeWhile pass) : slot ∈ front.takeWhile pass := by
  induction front with
  | nil => cases here
  | cons first rest ih =>
    by_cases passes : pass first = true
    · rw [List.cons_append, List.takeWhile_cons_of_pos passes, List.mem_cons] at seen
      rw [List.takeWhile_cons_of_pos passes, List.mem_cons]
      rcases List.mem_cons.mp here with same | later
      · exact .inl same
      · exact seen.imp id (ih later)
    · rw [List.cons_append, List.takeWhile_cons_of_neg passes] at seen
      cases seen

theorem mem_takeWhile_find (first : path.find? free = some slot)
    (others : ∀ other, free other = false → pass other = true) (taken : pass slot = true) :
    slot ∈ path.takeWhile pass := by
  induction path with
  | nil => cases first
  | cons head rest ih =>
    cases open_ : free head with
    | true =>
      rw [List.find?_cons_of_pos open_, Option.some.injEq] at first
      subst first
      rw [List.takeWhile_cons_of_pos taken]
      exact List.mem_cons_self
    | false =>
      rw [List.find?_cons_of_neg (by rw [open_]; exact Bool.false_ne_true)] at first
      rw [List.takeWhile_cons_of_pos (others head open_)]
      exact List.mem_cons_of_mem _ (ih first)

end Walk

section Orbit

variable {bits step start : Nat}

def place (bits step start turn : Nat) : Nat := (start + turn * step) % 2 ^ bits

theorem place_succ (turn : Nat) :
    place bits step start (turn + 1) = (place bits step start turn + step) % 2 ^ bits := by
  simp only [place, Nat.mod_add_mod]
  rw [Nat.succ_mul, ← Nat.add_assoc]

theorem coprime_of_odd (odd : step % 2 = 1) : Nat.Coprime (2 ^ bits) step :=
  Nat.Coprime.pow_left _ (Nat.coprime_two_left.mpr (Nat.odd_iff.mpr odd))

theorem place_eq_start (odd : step % 2 = 1) (inside : start < 2 ^ bits) {turn : Nat}
    (positive : 0 < turn) (short : turn ≤ 2 ^ bits)
    (back : place bits step start turn = start) : turn = 2 ^ bits := by
  have same : start + turn * step ≡ start + 0 [MOD 2 ^ bits] := by
    rw [Nat.ModEq, Nat.add_zero, Nat.mod_eq_of_lt inside]
    exact back
  have divides : 2 ^ bits ∣ turn * step :=
    (Nat.modEq_zero_iff_dvd).mp (Nat.ModEq.add_left_cancel' start same)
  have whole : 2 ^ bits ∣ turn := (coprime_of_odd odd).dvd_of_dvd_mul_right divides
  exact Nat.le_antisymm short (Nat.le_of_dvd positive whole)

theorem place_inj (odd : step % 2 = 1) {turn later : Nat} (order : turn ≤ later)
    (short : later - turn < 2 ^ bits)
    (same : place bits step start turn = place bits step start later) : turn = later := by
  have whole : start + turn * step + (later - turn) * step = start + later * step := by
    rw [Nat.add_assoc, ← Nat.add_mul, Nat.add_sub_cancel' order]
  have back : start + turn * step + (later - turn) * step ≡ start + turn * step + 0
      [MOD 2 ^ bits] := by
    rw [whole]
    exact same.symm
  have divides : 2 ^ bits ∣ (later - turn) * step :=
    Nat.modEq_zero_iff_dvd.mp (Nat.ModEq.add_left_cancel' _ back)
  have zero := Nat.eq_zero_of_dvd_of_lt
    ((coprime_of_odd odd).dvd_of_dvd_mul_right divides) short
  omega

theorem place_full (inside : start < 2 ^ bits) : place bits step start (2 ^ bits) = start := by
  rw [place, Nat.add_mul_mod_self_left, Nat.mod_eq_of_lt inside]

theorem place_covers (odd : step % 2 = 1) (inside : start < 2 ^ bits) {target : Nat}
    (there : target < 2 ^ bits) :
    ∃ turn, 0 < turn ∧ turn ≤ 2 ^ bits ∧ place bits step start turn = target := by
  have positive : 0 < 2 ^ bits := Nat.two_pow_pos bits
  obtain ⟨distance, far⟩ : ∃ distance, start + distance ≡ target [MOD 2 ^ bits] := by
    refine ⟨2 ^ bits - start + target, ?_⟩
    rw [Nat.ModEq, ← Nat.add_assoc, Nat.add_sub_cancel' inside.le, Nat.add_mod_left]
  obtain ⟨turn, short, enough⟩ :=
    Nat.exists_mul_mod_eq_of_coprime distance (coprime_of_odd odd).symm positive.ne'
  have reached : start + turn * step ≡ target [MOD 2 ^ bits] := by
    rw [Nat.mul_comm turn step]
    exact (Nat.ModEq.add_left start enough).trans far
  have arrived : place bits step start turn = target := by
    rw [place, reached, Nat.mod_eq_of_lt there]
  by_cases moved : 0 < turn
  · exact ⟨turn, moved, short.le, arrived⟩
  · refine ⟨2 ^ bits, positive, le_refl _, ?_⟩
    rw [place_full inside, ← arrived, Nat.eq_zero_of_not_pos moved, place, Nat.zero_mul,
      Nat.add_zero, Nat.mod_eq_of_lt inside]

end Orbit

end Qthreads.Lib.Probe
