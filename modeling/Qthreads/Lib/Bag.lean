import Mathlib.Algebra.Order.BigOperators.Group.Finset
import Mathlib.Tactic.Abel

namespace Qthreads.Lib

open Function (update update_of_ne update_self)

variable {Part α : Type*} [Fintype Part]

def inAll (parts : Part → List α) : Multiset α := ∑ part, (parts part : Multiset α)

variable {parts : Part → List α}

theorem inAll_eq_zero_iff : inAll parts = 0 ↔ ∀ part, parts part = [] := by
  rw [inAll, Finset.sum_eq_zero_iff]
  exact ⟨fun zeros part => Multiset.coe_eq_zero _ |>.mp (zeros part (Finset.mem_univ _)),
    fun empty part _ => Multiset.coe_eq_zero _ |>.mpr (empty part)⟩

variable [DecidableEq Part]

theorem inAll_update (parts : Part → List α) (part : Part) (list : List α) :
    inAll (update parts part list) + (parts part : Multiset α) =
      inAll parts + (list : Multiset α) := by
  have others : ∑ r ∈ Finset.univ.erase part, (update parts part list r : Multiset α) =
      ∑ r ∈ Finset.univ.erase part, (parts r : Multiset α) := by
    apply Finset.sum_congr rfl
    intro r inside
    rw [update_of_ne (Finset.ne_of_mem_erase inside)]
  rw [inAll, inAll, ← Finset.add_sum_erase _ _ (Finset.mem_univ part),
    ← Finset.add_sum_erase _ (fun r => (parts r : Multiset α)) (Finset.mem_univ part), others,
    update_self]
  abel

theorem inAll_gain {part : Part} {list : List α} {more : Multiset α}
    (gained : (list : Multiset α) = (parts part : Multiset α) + more) :
    inAll (update parts part list) = inAll parts + more := by
  have change := inAll_update parts part list
  rw [gained, add_comm (parts part : Multiset α), ← add_assoc] at change
  exact add_right_cancel change

theorem inAll_loss {part : Part} {list : List α} {less : Multiset α}
    (lost : (parts part : Multiset α) = (list : Multiset α) + less) :
    inAll (update parts part list) + less = inAll parts := by
  have change := inAll_update parts part list
  rw [lost, add_comm (list : Multiset α), ← add_assoc] at change
  exact add_right_cancel change

end Qthreads.Lib
