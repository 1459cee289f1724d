import Mathlib.Data.UInt
import Mathlib.Data.List.Pairwise

namespace Qthreads.Shepherds

/-- What a shepherd has of the others.  An entry of the table is there once it was written; `calloc`
left 0 in the rest. -/
structure Shep where
  sortedSheplist : List Nat
  shepDists : Nat → Option UInt32

def entry (dists : Nat → Option UInt32) (shep : Nat) : UInt32 := (dists shep).getD 0

/-- `shuffle_sheps`; `start` numbers of `rand()` were used before. -/
def shuffleSheps (random : Nat → Nat) (start : Nat) (s : List Nat) : List Nat :=
  ((List.range s.length).foldl
    (fun s i => s.swapIfInBounds (random (start + i) % s.size) i) s.toArray).toList

/-- The minimum distance of the remaining sheps, from `UINT_MAX`. -/
def minDist (dists : Nat → Option UInt32) (s : List Nat) : UInt32 :=
  s.foldl (fun mindist shep => if mindist > entry dists shep then entry dists shep else mindist)
    (2 ^ 32 - 1)

/-- The outer loop of `sort_sheps`.  It does not return when an assertion fails or it has gone
round too often. -/
def sortLoop (random : Nat → Nat) (dists : Nat → Option UInt32) :
    Nat → Nat → List Nat → List Nat → Option (List Nat × Nat)
  | _, start, [], tmp => some (tmp, start)
  | 0, _, _ :: _, _ => none
  | fuel + 1, start, s, tmp =>
    let mindist := minDist dists s
    let least := s.filter (entry dists · = mindist)
    let shuffled := if least.length > 1 then shuffleSheps random start least else least
    let next := if least.length > 1 then start + least.length else start
    if s.all (entry dists · ≥ mindist) then
      sortLoop random dists fuel next (s.filter (entry dists · > mindist)) (tmp ++ shuffled)
    else none

def sortSheps (random : Nat → Nat) (start : Nat) (dists : Nat → Option UInt32) (s : List Nat)
    (num : Nat) : Option (List Nat × Nat) :=
  if num > 1 then sortLoop random dists (num - 1) start s [] else none

/-- The loop over the other shepherds in `qt_affinity_gendists`. -/
def fillDists (distances : Nat → Nat → UInt32) (i nshepherds : Nat) : Shep :=
  (List.range nshepherds).foldl (fun shep j =>
    if j ≠ i then
      ⟨shep.sortedSheplist ++ [j], Function.update shep.shepDists j (some (distances i j))⟩
    else shep) ⟨[], fun _ => none⟩

/-- The loop over the shepherds in `qt_affinity_gendists`, whose end may differ. -/
def gendistsFrom (arrange : Nat → Shep → Option (List Nat × Nat))
    (distances : Nat → Nat → UInt32) (nshepherds : Nat) : Nat → Nat → Nat → Option (List Shep)
  | 0, _, _ => some []
  | more + 1, i, start =>
    let filled := fillDists distances i nshepherds
    match arrange start filled with
    | none => none
    | some (list, start) =>
      (gendistsFrom arrange distances nshepherds more (i + 1) start).map
        ({ filled with sortedSheplist := list } :: ·)

/-- The back ends that are modelled; `hwloc` may have no distance matrix. -/
inductive Affinity where
  | sys
  | hwloc (matrix : Option (Nat → Nat → UInt32))

namespace Affinity

def distances : Affinity → Nat → Nat → UInt32
  | .sys | .hwloc none => fun _ _ => 10
  | .hwloc (some matrix) => matrix

/-- `qt_affinity_gendists` of the back ends: the generic one shuffles the list, the other sorts it. -/
def gendists (affinity : Affinity) (random : Nat → Nat) (nshepherds : Nat) : Option (List Shep) :=
  let arrange := fun start (shep : Shep) =>
    match affinity with
    | .sys => some (shuffleSheps random start shep.sortedSheplist, start + (nshepherds - 1))
    | .hwloc _ =>
      if nshepherds > 1 then
        sortSheps random start shep.shepDists shep.sortedSheplist nshepherds
      else some (shep.sortedSheplist, start)
  gendistsFrom arrange affinity.distances nshepherds nshepherds 0 0

end Affinity

/-- The index of `shep_dists[dest]` or `shep_dists[dest-1]` that `qthread_distance` reads. -/
def distanceIndex (src dest : Nat) : Option Nat :=
  if dest > src then some (dest - 1) else if dest = src then none else some dest

/-- `qthread_distance`; `none` where an assertion fails.  The `unsigned int` is returned as an
`int`. -/
def qthreadDistance (sheps : List Shep) (src dest : Nat) : Option Int32 :=
  if dest < sheps.length then
    sheps[src]?.map fun shep =>
      match distanceIndex src dest with
      | none => 0
      | some k => (entry shep.shepDists k).toInt32
  else none

theorem swapIfInBounds_perm {α : Type} (s : Array α) (i j : Nat) : (s.swapIfInBounds i j).Perm s := by
  rw [Array.swapIfInBounds_def]
  split
  · split
    · exact Array.swap_perm _ _
    · exact .rfl
  · exact .rfl

theorem shuffleSheps_perm (random : Nat → Nat) (start : Nat) (s : List Nat) :
    (shuffleSheps random start s).Perm s := by
  have swaps : ∀ (rounds : List Nat) (a : Array Nat), (rounds.foldl
      (fun s i => s.swapIfInBounds (random (start + i) % s.size) i) a).Perm a := by
    intro rounds
    induction rounds with
    | nil => exact fun _ => .rfl
    | cons i rest ih => exact fun a => (ih _).trans (swapIfInBounds_perm a _ _)
  exact (swaps (List.range s.length) s.toArray).toList

section Sorting

variable {dists : Nat → Option UInt32}

theorem minDist_spec (s : List Nat) :
    (∀ shep ∈ s, minDist dists s ≤ entry dists shep) ∧
      (minDist dists s = 2 ^ 32 - 1 ∨ ∃ shep ∈ s, minDist dists s = entry dists shep) := by
  induction s using List.reverseRecOn with
  | nil => exact ⟨nofun, .inl rfl⟩
  | append_singleton front last ih =>
    obtain ⟨least, from_⟩ := ih
    have step : minDist dists (front ++ [last]) =
        if minDist dists front > entry dists last then entry dists last
        else minDist dists front := by
      rw [minDist, List.foldl_append]
      rfl
    rw [step]
    by_cases less : minDist dists front > entry dists last
    · rw [if_pos less]
      refine ⟨?_, .inr ⟨last, by simp, rfl⟩⟩
      intro shep member
      rcases List.mem_append.mp member with early | late
      · exact UInt32.le_of_lt (UInt32.lt_of_lt_of_le less (least shep early))
      · rw [List.mem_singleton.mp late]
        exact UInt32.le_refl _
    · rw [if_neg less]
      constructor
      · intro shep member
        rcases List.mem_append.mp member with early | late
        · exact least shep early
        · rw [List.mem_singleton.mp late]
          exact UInt32.not_lt.mp less
      · rcases from_ with top | ⟨shep, member, same⟩
        · exact .inl top
        · exact .inr ⟨shep, List.mem_append_left _ member, same⟩

theorem minDist_taken {s : List Nat} (nonempty : s ≠ []) :
    ∃ shep ∈ s, entry dists shep = minDist dists s := by
  obtain ⟨least, top | ⟨shep, member, same⟩⟩ := @minDist_spec dists s
  · obtain ⟨shep, member⟩ := List.exists_mem_of_ne_nil s nonempty
    refine ⟨shep, member, UInt32.le_antisymm ?_ (least shep member)⟩
    rw [top, UInt32.le_iff_toNat_le]
    exact Nat.le_of_lt_succ (entry dists shep).toNat_lt
  · exact ⟨shep, member, same.symm⟩

theorem round_spec {s tmp nearest : List Nat}
    (sorted : tmp.Pairwise (entry dists · ≤ entry dists ·))
    (before : ∀ a ∈ tmp, ∀ b ∈ s, entry dists a ≤ entry dists b)
    (perm : nearest.Perm (s.filter (entry dists · = minDist dists s))) :
    (tmp ++ nearest).Pairwise (entry dists · ≤ entry dists ·) ∧
      (∀ a ∈ tmp ++ nearest, ∀ b ∈ s.filter (entry dists · > minDist dists s),
        entry dists a ≤ entry dists b) ∧
      ((tmp ++ nearest) ++ s.filter (entry dists · > minDist dists s)).Perm (tmp ++ s) := by
  have near : ∀ a ∈ nearest, a ∈ s ∧ entry dists a = minDist dists s := by
    intro a member
    obtain ⟨inside, same⟩ := List.mem_filter.mp (perm.mem_iff.mp member)
    exact ⟨inside, of_decide_eq_true same⟩
  refine ⟨?_, ?_, ?_⟩
  · refine List.pairwise_append.mpr ⟨sorted, ?_, fun a first b second => before a first b (near b second).1⟩
    refine List.pairwise_of_forall_mem_list fun a first b second => ?_
    rw [(near a first).2, (near b second).2]
    exact UInt32.le_refl _
  · intro a first b second
    obtain ⟨inside, far⟩ := List.mem_filter.mp second
    rcases List.mem_append.mp first with early | late
    · exact before a early b inside
    · rw [(near a late).2]
      exact UInt32.le_of_lt (of_decide_eq_true far)
  · have rest : s.filter (entry dists · > minDist dists s) =
        s.filter (fun shep => !decide (entry dists shep = minDist dists s)) := by
      refine List.filter_congr fun shep member => ?_
      rw [← decide_not, decide_eq_decide]
      constructor
      · intro far same
        exact UInt32.lt_irrefl _ (same ▸ far : minDist dists s < minDist dists s)
      · intro other
        exact UInt32.lt_of_le_of_ne ((minDist_spec s).1 shep member) (Ne.symm other)
    rw [rest, List.append_assoc]
    exact List.Perm.append_left tmp ((perm.append_right _).trans (List.filter_append_perm _ s))

theorem sortLoop_spec (random : Nat → Nat) (fuel start : Nat) (s tmp : List Nat)
    (enough : s.length ≤ fuel) (sorted : tmp.Pairwise (entry dists · ≤ entry dists ·))
    (before : ∀ a ∈ tmp, ∀ b ∈ s, entry dists a ≤ entry dists b) :
    ∃ list next, sortLoop random dists fuel start s tmp = some (list, next) ∧
      list.Perm (tmp ++ s) ∧ list.Pairwise (entry dists · ≤ entry dists ·) := by
  induction fuel generalizing start s tmp with
  | zero =>
    rw [List.length_eq_zero_iff.mp (Nat.le_zero.mp enough)]
    exact ⟨tmp, start, by rw [sortLoop], by rw [List.append_nil], sorted⟩
  | succ fuel ih =>
    by_cases empty : s = []
    · rw [empty]
      exact ⟨tmp, start, by rw [sortLoop], by rw [List.append_nil], sorted⟩
    · obtain ⟨shep, member, taken⟩ := @minDist_taken dists _ empty
      have fewer : (s.filter (entry dists · > minDist dists s)).length < s.length := by
        refine List.length_filter_lt_length_iff_exists.mpr ⟨shep, member, ?_⟩
        rw [taken]
        simp
      have all : s.all (entry dists · ≥ minDist dists s) = true :=
        List.all_eq_true.mpr fun shep member => decide_eq_true ((minDist_spec s).1 shep member)
      have perm : (if (s.filter (entry dists · = minDist dists s)).length > 1 then
          shuffleSheps random start (s.filter (entry dists · = minDist dists s))
          else s.filter (entry dists · = minDist dists s)).Perm
            (s.filter (entry dists · = minDist dists s)) := by
        split
        · exact shuffleSheps_perm _ _ _
        · exact .rfl
      obtain ⟨sorted, before, whole⟩ := round_spec sorted before perm
      rw [sortLoop]
      · simp only [if_pos all]
        obtain ⟨list, next, done, all, ordered⟩ := ih _ _ _ (by omega) sorted before
        exact ⟨list, next, done, all.trans whole, ordered⟩
      · exact empty

end Sorting

theorem fillDists_spec (distances : Nat → Nat → UInt32) (i n : Nat) :
    fillDists distances i n =
      ⟨(List.range n).filter (· ≠ i), fun j => if j < n ∧ j ≠ i then some (distances i j) else none⟩ := by
  induction n with
  | zero =>
    rw [fillDists]
    simp
  | succ n ih =>
    have step : fillDists distances i (n + 1) =
        if n ≠ i then
          ⟨(fillDists distances i n).sortedSheplist ++ [n],
            Function.update (fillDists distances i n).shepDists n (some (distances i n))⟩
        else fillDists distances i n := by
      rw [fillDists, List.range_succ, List.foldl_append]
      rfl
    rw [step, ih]
    by_cases other : n ≠ i
    · rw [if_pos other]
      congr 1
      · rw [List.range_succ, List.filter_append]
        simp [other]
      · funext j
        by_cases last : j = n
        · simp [last, other]
        · rw [Function.update_of_ne last]
          have same : (j < n ∧ j ≠ i) ↔ (j < n + 1 ∧ j ≠ i) := by omega
          simp only [same]
    · have self := not_ne_iff.mp other
      rw [if_neg other]
      congr 1
      · rw [List.range_succ, List.filter_append]
        simp [self]
      · funext j
        have same : (j < n ∧ j ≠ i) ↔ (j < n + 1 ∧ j ≠ i) := by omega
        simp only [same]

structure Placed (distances : Nat → Nat → UInt32) (n i : Nat) (shep : Shep) : Prop where
  table : shep.shepDists = fun j => if j < n ∧ j ≠ i then some (distances i j) else none
  perm : shep.sortedSheplist.Perm ((List.range n).filter (· ≠ i))
  sorted : shep.sortedSheplist.Pairwise (entry shep.shepDists · ≤ entry shep.shepDists ·)

theorem gendistsFrom_spec {arrange : Nat → Shep → Option (List Nat × Nat)}
    {distances : Nat → Nat → UInt32} {n : Nat}
    (arranges : ∀ i start, i < n → ∃ list next, arrange start (fillDists distances i n) = some (list, next) ∧
      list.Perm (fillDists distances i n).sortedSheplist ∧
      list.Pairwise (entry (fillDists distances i n).shepDists · ≤
        entry (fillDists distances i n).shepDists ·)) (more i start : Nat) (inside : i + more ≤ n) :
    ∃ sheps, gendistsFrom arrange distances n more i start = some sheps ∧ sheps.length = more ∧
      ∀ k shep, sheps[k]? = some shep → Placed distances n (i + k) shep := by
  induction more generalizing i start with
  | zero => exact ⟨[], rfl, rfl, nofun⟩
  | succ more ih =>
    obtain ⟨list, next, arranged, perm, sorted⟩ := arranges i start (by omega)
    obtain ⟨sheps, rest, length, placed⟩ := ih (i + 1) next (by omega)
    have first : Placed distances n i
        { fillDists distances i n with sortedSheplist := list } := by
      refine ⟨?_, ?_, sorted⟩
      · rw [fillDists_spec]
      · rw [fillDists_spec] at perm
        exact perm
    refine ⟨{ fillDists distances i n with sortedSheplist := list } :: sheps, ?_, congrArg (· + 1) length, ?_⟩
    · rw [gendistsFrom]
      simp only [arranged, rest]
      rfl
    · intro k shep found
      cases k with
      | zero =>
        cases found
        exact first
      | succ k =>
        have later := placed k shep found
        rw [Nat.add_right_comm, Nat.add_assoc] at later
        exact later

theorem others_length {i n : Nat} (inside : i < n) :
    ((List.range n).filter (· ≠ i)).length = n - 1 := by
  have erased : (List.range n).filter (· ≠ i) = (List.range n).erase i := by
    rw [List.nodup_range.erase_eq_filter]
    exact List.filter_congr fun j _ => by rw [Bool.eq_iff_iff]; simp
  rw [erased, List.length_erase_of_mem (List.mem_range.mpr inside), List.length_range]

theorem Affinity.gendists_spec (affinity : Affinity) (random : Nat → Nat) (n : Nat) :
    ∃ sheps, affinity.gendists random n = some sheps ∧ sheps.length = n ∧
      ∀ i shep, sheps[i]? = some shep → Placed affinity.distances n i shep := by
  obtain ⟨sheps, made, length, placed⟩ := @gendistsFrom_spec
    (fun start (shep : Shep) =>
      match affinity with
      | .sys => some (shuffleSheps random start shep.sortedSheplist, start + (n - 1))
      | .hwloc _ =>
        if n > 1 then sortSheps random start shep.shepDists shep.sortedSheplist n
        else some (shep.sortedSheplist, start)) affinity.distances n (by
    intro i start inside
    cases affinity with
    | sys =>
      refine ⟨_, _, rfl, shuffleSheps_perm random start _, ?_⟩
      have equal : ∀ j ∈ shuffleSheps random start
          (fillDists Affinity.sys.distances i n).sortedSheplist,
          entry (fillDists Affinity.sys.distances i n).shepDists j = 10 := by
        intro j member
        rw [(shuffleSheps_perm _ _ _).mem_iff, fillDists_spec] at member
        obtain ⟨inside, other⟩ := List.mem_filter.mp member
        rw [fillDists_spec]
        simp only [entry]
        rw [if_pos ⟨List.mem_range.mp inside, of_decide_eq_true other⟩]
        rfl
      refine List.pairwise_of_forall_mem_list fun a first b second => ?_
      rw [equal a first, equal b second]
      exact UInt32.le_refl _
    | hwloc matrix =>
      have short : (fillDists (Affinity.hwloc matrix).distances i n).sortedSheplist.length =
          n - 1 := by
        rw [fillDists_spec]
        exact others_length inside
      by_cases more : n > 1
      · simp only [if_pos more, sortSheps]
        exact sortLoop_spec random (n - 1) start _ [] (Nat.le_of_eq short) .nil nofun
      · have empty := List.length_eq_zero_iff.mp (short.trans (by omega))
        simp only [if_neg more]
        exact ⟨_, _, rfl, .rfl, by rw [empty]; exact .nil⟩) n 0 0 (by omega)
  refine ⟨sheps, made, length, ?_⟩
  intro i shep found
  have known := placed i shep found
  rw [Nat.zero_add] at known
  exact known

section Reader

variable {distances : Nat → Nat → UInt32} {n : Nat} {sheps : List Shep}

theorem qthreadDistance_eq (length : sheps.length = n)
    (placed : ∀ i shep, sheps[i]? = some shep → Placed distances n i shep) {i j : Nat} (src : i < n)
    (dest : j < n) :
    qthreadDistance sheps i j = some (if j < i then (distances i j).toInt32
      else if j ≤ i + 1 then 0 else (distances i (j - 1)).toInt32) := by
  have inside : i < sheps.length := by rw [length]; exact src
  have known := placed i _ (List.getElem?_eq_getElem inside)
  rw [qthreadDistance, if_pos (by rw [length]; exact dest), List.getElem?_eq_getElem inside,
    Option.map_some]
  congr 1
  rcases Nat.lt_trichotomy j i with below | same | above
  · have index : distanceIndex i j = some j := by
      rw [distanceIndex, if_neg (by omega), if_neg (by omega)]
    rw [index, if_pos below, known.table]
    simp only [entry]
    rw [if_pos ⟨dest, by omega⟩]
    rfl
  · have index : distanceIndex i j = none := by
      rw [distanceIndex, if_neg (by omega), if_pos same]
    rw [index, if_neg (by omega), if_pos (by omega)]
  · have index : distanceIndex i j = some (j - 1) := by
      rw [distanceIndex, if_pos above]
    rw [index, if_neg (by omega), known.table]
    simp only [entry]
    by_cases next : j ≤ i + 1
    · rw [if_pos next, if_neg (by omega)]
      rfl
    · rw [if_neg next, if_pos (by omega)]
      rfl

structure Agrees (distances : Nat → Nat → UInt32) (n : Nat) (sheps : List Shep) : Prop where
  right : ∀ i < n, ∀ j < n,
    qthreadDistance sheps i j = some (if i = j then 0 else (distances i j).toInt32)
  written : ∀ i < n, ∀ j < n, ∀ shep, sheps[i]? = some shep →
    ∀ k, distanceIndex i j = some k → shep.shepDists k ≠ none
  perm : ∀ (i : Nat) (shep : Shep), sheps[i]? = some shep →
    shep.sortedSheplist.Perm ((List.range n).filter (· ≠ i))
  sorted : ∀ (i : Nat) (shep : Shep), sheps[i]? = some shep → shep.sortedSheplist.Pairwise fun a b =>
    ∀ x y, qthreadDistance sheps i a = some x → qthreadDistance sheps i b = some y → x ≤ y

theorem unwritten_read (two : 2 ≤ n) (length : sheps.length = n)
    (placed : ∀ i shep, sheps[i]? = some shep → Placed distances n i shep) :
    ¬ Agrees distances n sheps := by
  intro agrees
  have inside : 0 < sheps.length := by omega
  have found := List.getElem?_eq_getElem inside
  refine agrees.written 0 (by omega) 1 (by omega) _ found 0 rfl ?_
  rw [(placed 0 _ found).table]
  exact if_neg fun both => both.2 rfl

end Reader

/-- For any number of shepherds, any distances and random numbers, the tables are made and the lists
are sorted by them, and their reader reads another entry than the one of the shepherd above. -/
theorem gendists_disagree (affinity : Affinity) (random : Nat → Nat) {n : Nat} (two : 2 ≤ n) :
    ∃ sheps, affinity.gendists random n = some sheps ∧ sheps.length = n ∧
      (∀ i shep, sheps[i]? = some shep → Placed affinity.distances n i shep) ∧
      (∀ i < n, ∀ j < n, qthreadDistance sheps i j =
        some (if j < i then (affinity.distances i j).toInt32
          else if j ≤ i + 1 then 0 else (affinity.distances i (j - 1)).toInt32)) ∧
      ¬ Agrees affinity.distances n sheps := by
  obtain ⟨sheps, made, length, placed⟩ := affinity.gendists_spec random n
  exact ⟨sheps, made, length, placed, fun i src j dest => qthreadDistance_eq length placed src dest,
    unwritten_read two length placed⟩

theorem gendists_disagree_two : 2 ≤ 2 ∧ ∃ sheps,
    Affinity.sys.gendists (fun _ => 0) 2 = some sheps ∧ ¬ Agrees Affinity.sys.distances 2 sheps := by
  obtain ⟨sheps, made, -, -, -, differ⟩ :=
    gendists_disagree .sys (fun _ => 0) (Nat.le_refl 2)
  exact ⟨Nat.le_refl 2, sheps, made, differ⟩

/-- Two shepherds at distance 10, and the second is read to be at distance 0 from the first. -/
theorem distance_zero : ¬ ∃ sheps, Affinity.sys.gendists (fun _ => 0) 2 = some sheps ∧
    Agrees Affinity.sys.distances 2 sheps := by
  rintro ⟨sheps, made, agrees⟩
  have right := agrees.right 0 (by decide) 1 (by decide)
  have read : (Affinity.sys.gendists (fun _ => 0) 2).bind
      (fun sheps => qthreadDistance sheps 0 1) = some 0 := by
    decide
  rw [made, Option.bind_some, right] at read
  revert read
  decide

end Qthreads.Shepherds
