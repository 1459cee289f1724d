import Qthreads.Lib.TreeBarrier

namespace Qthreads.Barrier.Array

open Lib CellBarrier

/-! `barrier/array.c`

`SIGNAL` fills a cell and `WAIT` empties it; a call does nothing else, so that it is the list of the
cells it fills and empties. -/

def enterId (numParticipants id : Nat) : List CellOp :=
  let leftchild := ((id + 1) <<< 1) - 1
  let rightchild := leftchild + 1
  (if leftchild < numParticipants then
    .takeUp leftchild :: (if rightchild < numParticipants then [.takeUp rightchild] else [])
  else []) ++
  (if id > 0 then [.putUp id, .takeDown id] else []) ++
  (if leftchild < numParticipants then
    .putDown leftchild :: (if rightchild < numParticipants then [.putDown rightchild] else [])
  else [])

/-- The barrier of `qt_barrier_create`; `qt_barrier_enter` draws the number of a call from
`participant`. -/
def barrier (numParticipants : Nat) : CellBarrier where
  size := numParticipants
  program := enterId numParticipants
  assign := fun _ participant => participant % numParticipants
  advance := fun participant => (participant + 1) % 2 ^ 64

def parent (id : Nat) : Nat := ((id + 1) >>> 1) - 1

def children (numParticipants id : Nat) : List Nat :=
  [2 * id + 1, 2 * id + 2].filter (· < numParticipants)

variable {n i c : Nat}

theorem parent_eq (id : Nat) : parent id = (id + 1) / 2 - 1 := by
  rw [parent, Nat.shiftRight_eq_div_pow, pow_one]

theorem enterId_eq (n i : Nat) : enterId n i =
    (children n i).map .takeUp ++ (if i = 0 then [] else [.putUp i, .takeDown i]) ++
      (children n i).map .putDown := by
  have left : ((i + 1) <<< 1) - 1 = 2 * i + 1 := by
    rw [Nat.shiftLeft_eq]
    omega
  unfold enterId children
  simp only [left]
  by_cases root : i = 0
  · subst root
    by_cases one : 1 < n
    · by_cases two : 2 < n
      · simp [one, two]
      · simp [one, two]
    · have two : ¬ 2 < n := by omega
      simp [one, two]
  · have pos : i > 0 := Nat.pos_of_ne_zero root
    by_cases one : 2 * i + 1 < n
    · by_cases two : 2 * i + 1 + 1 < n
      · simp [root, pos, one, two]
      · simp [root, pos, one, two]
    · have two : ¬ 2 * i + 1 + 1 < n := by omega
      simp [root, pos, one, two]

theorem mem_children : c ∈ children n i ↔ 0 < c ∧ c < n ∧ parent c = i := by
  rw [parent_eq]
  simp only [children, List.mem_filter, List.mem_cons, List.not_mem_nil, or_false, decide_eq_true_eq]
  omega

theorem children_nodup (n i : Nat) : (children n i).Nodup := by
  refine List.Nodup.filter _ ?_
  simp

def tree (positive : 1 ≤ n) : (barrier n).Tree where
  waits := children n
  releases := children n
  parent := parent
  mem_waits := fun _ _ => mem_children
  mem_releases := fun _ _ => .rfl
  waitsOnce := children_nodup n
  releasesOnce := children_nodup n
  parent_lt := by
    intro c pos _
    rw [parent_eq]
    omega
  assign_lt := fun _ ticket _ => Nat.mod_lt ticket positive
  program := fun i _ => enterId_eq n i

/-- Where a call is only ever begun with a number that nobody waits with, nobody returns from a call
before all have started theirs, and nobody gets stuck. -/
theorem array_barrier_safe (positive : 1 ≤ n) {labels : List (Nat × CellLabel)} {last : System}
    (run : Run (Guarded (barrier n).Allowed (barrier n).Step) start labels last) :
    (∀ t u, t < n → u < n → (last.tasks t = .outside ∨ ∃ id, last.tasks t = .inside id []) →
      last.shared.started t ≤ last.shared.started u) ∧
    ∀ t id ops, last.tasks t = .inside id ops →
      (∃ u, CanMove (barrier n) last u) ∨ ∃ u, u < n ∧ last.tasks u = .outside ∧
        last.shared.started u < last.shared.started t := by
  have holds : Invariant (tree positive) last := invariant_run run
  refine ⟨?_, ?_⟩
  · intro t u _ among through
    exact everybody_started holds through among
  · intro t id ops here
    exact not_stuck holds here

theorem array_barrier_safe_pair : ∃ labels last,
    Run (Guarded (barrier 2).Allowed (barrier 2).Step) start labels last ∧
      last.tasks 0 = .outside ∧ last.shared.started 0 = 1 ∧
      last.shared.started 0 ≤ last.shared.started 1 := by
  have run : ∃ labels last, Run (Guarded (barrier 2).Allowed (barrier 2).Step) start labels last ∧
      last.tasks 0 = .outside ∧ last.shared.started 0 = 1 := by
    refine Config.exists_guarded_move 0 rfl (.enter (by decide)) (fun _ _ out => nomatch out) <|
      Config.exists_guarded_move 1 rfl (.enter (by decide)) ?_ <|
      Config.exists_guarded_move 1 rfl (.putUp rfl) trivial <|
      Config.exists_guarded_move 0 rfl (.takeUp rfl) trivial <|
      Config.exists_guarded_move 0 rfl (.putDown rfl) trivial <|
      Config.exists_guarded_move 0 rfl .leave trivial <| ⟨[], _, .nil _, rfl, rfl⟩
    intro t ops here
    by_cases first : t = 0
    · subst first
      cases here
    · simp only [Function.update_of_ne first] at here
      cases here
  obtain ⟨labels, last, run, out, started⟩ := run
  obtain ⟨safe, _⟩ := array_barrier_safe (by decide) run
  exact ⟨labels, last, run, out, started, safe 0 1 (by decide) (by decide) (.inl out)⟩

/-- The third task takes the number of the second one in its next call while the second still waits
for its release, and goes away with it. -/
theorem array_barrier_overtaken : ∃ labels last, Run (barrier 3).Step start labels last ∧
    last.tasks 2 = .outside ∧ last.shared.started 1 < last.shared.started 2 := by
  refine ⟨[(0, .enter), (1, .enter), (2, .enter), (1, .go), (2, .go), (0, .go), (0, .go), (0, .go),
    (0, .go), (0, .leave), (2, .go), (2, .leave), (0, .enter), (2, .enter), (2, .go), (2, .go),
    (2, .leave)], _, .cons (.of_eq rfl (.enter (by decide))) <|
    .cons (.of_eq rfl (.enter (by decide))) <| .cons (.of_eq rfl (.enter (by decide))) <|
    .cons (.of_eq rfl (.putUp rfl)) <| .cons (.of_eq rfl (.putUp rfl)) <|
    .cons (.of_eq rfl (.takeUp rfl)) <| .cons (.of_eq rfl (.takeUp rfl)) <|
    .cons (.of_eq rfl (.putDown rfl)) <| .cons (.of_eq rfl (.putDown rfl)) <|
    .cons (.of_eq rfl .leave) <| .cons (.of_eq rfl (.takeDown rfl)) <| .cons (.of_eq rfl .leave) <|
    .cons (.of_eq rfl (.enter (by decide))) <| .cons (.of_eq rfl (.enter (by decide))) <|
    .cons (.of_eq rfl (.putUp rfl)) <| .cons (.of_eq rfl (.takeDown rfl)) <|
    .cons (.of_eq rfl .leave) <| .nil _, ?_, ?_⟩
  · rfl
  · decide

end Qthreads.Barrier.Array
