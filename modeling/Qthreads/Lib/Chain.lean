import Mathlib.Data.List.Nodup

namespace Qthreads.Lib

variable {Node : Type*}

def Chain (next : Node → Option Node) : Option Node → List Node → Option Node → Prop
  | first, [], last => first = last
  | first, node :: rest, last => first = some node ∧ Chain next (next node) rest last

namespace Chain

variable {next other : Node → Option Node} {first middle last : Option Node} {front back : List Node}
  {node : Node}

theorem append : Chain next first (front ++ back) last ↔
    ∃ middle, Chain next first front middle ∧ Chain next middle back last := by
  induction front generalizing first with
  | nil => exact ⟨fun chain => ⟨first, rfl, chain⟩, fun ⟨_, same, chain⟩ => same ▸ chain⟩
  | cons node rest ih =>
    constructor
    · intro chain
      obtain ⟨middle, early, late⟩ := ih.mp chain.2
      exact ⟨middle, ⟨chain.1, early⟩, late⟩
    · rintro ⟨middle, early, late⟩
      exact ⟨early.1, ih.mpr ⟨middle, early.2, late⟩⟩

theorem congr (same : ∀ node ∈ front, other node = next node)
    (chain : Chain next first front last) : Chain other first front last := by
  induction front generalizing first with
  | nil => exact chain
  | cons node rest ih =>
    refine ⟨chain.1, ?_⟩
    rw [same node List.mem_cons_self]
    exact ih (fun later member => same later (List.mem_cons_of_mem _ member)) chain.2

theorem unique (chain : Chain next first front none) (again : Chain next first back none) :
    front = back := by
  induction front generalizing first back with
  | nil =>
    cases back with
    | nil => rfl
    | cons node rest =>
      have null : first = none := chain
      rw [null] at again
      cases again.1
  | cons node rest ih =>
    cases back with
    | nil =>
      have null : first = none := again
      rw [null] at chain
      cases chain.1
    | cons start later =>
      have same := chain.1.symm.trans again.1
      cases same
      rw [ih chain.2 again.2]

theorem head (chain : Chain next first front none) : first = front.head? := by
  cases front with
  | nil => exact chain
  | cons node rest => exact chain.1

theorem after_last (chain : Chain next first front last) (ends : front.getLast? = some node) :
    next node = last := by
  induction front generalizing first with
  | nil => cases ends
  | cons start rest ih =>
    cases rest with
    | nil =>
      cases ends
      exact chain.2
    | cons later others =>
      rw [List.getLast?_cons_cons] at ends
      exact ih chain.2 ends

theorem ends (chain : Chain next first front none) (member : node ∈ front)
    (null : next node = none) : front.getLast? = some node := by
  induction front generalizing first with
  | nil => cases member
  | cons start rest ih =>
    cases member with
    | head =>
      have later := chain.2
      rw [null] at later
      cases rest with
      | nil => rfl
      | cons second others => cases later.1
    | tail _ inside =>
      have last := ih chain.2 inside
      cases rest with
      | nil => cases inside
      | cons second others => exact last

theorem following {later : Node} (chain : Chain next first front none) (member : node ∈ front)
    (pointed : next node = some later) : later ∈ front.tail := by
  induction front generalizing first with
  | nil => cases member
  | cons start rest ih =>
    cases member with
    | head =>
      have onward := chain.2
      rw [pointed] at onward
      cases rest with
      | nil => cases onward
      | cons second others =>
        cases onward.1
        exact List.mem_cons_self
    | tail _ inside => exact List.mem_of_mem_tail (ih chain.2 inside)

theorem relink [DecidableEq Node] (chain : Chain next first front last) (once : front.Nodup)
    (ends : front.getLast? = some node) (target : Option Node) :
    Chain (Function.update next node target) first front target := by
  induction front generalizing first with
  | nil => cases ends
  | cons start rest ih =>
    cases rest with
    | nil =>
      cases ends
      exact ⟨chain.1, Function.update_self ..⟩
    | cons later others =>
      rw [List.getLast?_cons_cons] at ends
      have differs : start ≠ node := by
        rintro rfl
        exact (List.nodup_cons.mp once).1 (List.mem_of_getLast? ends)
      refine ⟨chain.1, ?_⟩
      rw [Function.update_of_ne differs]
      exact ih chain.2 (List.nodup_cons.mp once).2 ends

end Chain

end Qthreads.Lib
