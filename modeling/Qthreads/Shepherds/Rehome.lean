import Qthreads.Shepherds.Distance

namespace Qthreads.Shepherds

structure Load where
  nsheps : Nat
  active : Nat → Bool
  /-- `qt_threadqueue_advisory_queuelen(sheps[shep].ready)` -/
  queuelen : Nat → Int

/-- The test that moves the target, and how often `random()` was called after it. -/
def lessBusy (random : Nat → Nat) (used : Nat) (level busyness : Int) : Bool × Nat :=
  if level < busyness then (true, used)
  else if level = busyness then (random used % 2 = 0, used + 1)
  else (false, used)

theorem lessBusy_true {random : Nat → Nat} {used : Nat} {level busyness : Int}
    (less : (lessBusy random used level busyness).1 = true) : level ≤ busyness := by
  rw [lessBusy] at less
  split at less
  · omega
  · split at less
    · omega
    · cases less

theorem lessBusy_false {random : Nat → Nat} {used : Nat} {level busyness : Int}
    (more : ¬ (lessBusy random used level busyness).1 = true) : busyness ≤ level := by
  rw [lessBusy] at more
  split at more
  · exact absurd rfl more
  · omega

namespace Load

variable (load : Load)

def leastBusy (random : Nat → Nat) : Nat → Option (Nat × Int) → List Nat → Option Nat
  | _, found, [] => found.map Prod.fst
  | used, found, i :: rest =>
    if load.active i then
      match found with
      | none => leastBusy random used (some (i, load.queuelen i)) rest
      | some (target, busyness) =>
        let (less, used) := lessBusy random used (load.queuelen i) busyness
        if less then leastBusy random used (some (i, load.queuelen i)) rest
        else leastBusy random used (some (target, busyness)) rest
    else leastBusy random used found rest

def leastNear (random : Nat → Nat) (d : Nat → UInt32) :
    Nat → Nat → Int → UInt32 → List Nat → Nat
  | _, target, _, _, [] => target
  | used, target, busyness, targetDist, alt :: rest =>
    if d alt = targetDist then
      let (less, used) := lessBusy random used (load.queuelen alt) busyness
      if less then leastNear random d used alt (load.queuelen alt) (d alt) rest
      else leastNear random d used target busyness targetDist rest
    else target

def nearestActive (random : Nat → Nat) (d : Nat → UInt32) : List Nat → Option Nat
  | [] => none
  | shep :: rest =>
    if load.active shep then
      some (load.leastNear random d 0 shep (load.queuelen shep) (d shep) rest)
    else nearestActive random d rest

/-- `qthread_find_active_shepherd`; the locality is the list and the distances, and `none` stands
for `assert(found)`. -/
def findActiveShepherd (random : Nat → Nat) :
    Option (List Nat × (Nat → UInt32)) → Option (Option Nat)
  | none => (load.leastBusy random 0 none (List.range load.nsheps)).map some
  | some (l, d) => some (load.nearestActive random d (l.take (load.nsheps - 1)))

end Load

inductive Handed where
  | executes
  | to (shep : Nat)
  | aborts

namespace Load

variable (load : Load)

/-- The task is given to the shepherd that was found; `NULL` fails an assertion. -/
def give : Option (Option Nat) → Handed
  | some (some shep) => .to shep
  | _ => .aborts

/-- Where `qthread_master` of shepherd `me` sends a task; no target stands for `NO_SHEPHERD`. -/
def master (random : Nat → Nat) (localities : Nat → Option (List Nat × (Nat → UInt32))) (me : Nat)
    (targetShepherd : Option Nat) : Handed :=
  match targetShepherd.filter (· ≠ me) with
  | some target =>
    if load.active target then .to target
    else if load.active me = false then
      give (load.findActiveShepherd random (localities target))
    else .executes
  | none =>
    if load.active me = false then
      if (localities me).isSome then give (load.findActiveShepherd random (localities me))
      else .aborts
    else .executes

variable {load}

theorem leastBusy_spec (random : Nat → Nat) (used target : Nat) (rest : List Nat) :
    ∃ chosen, load.leastBusy random used (some (target, load.queuelen target)) rest = some chosen ∧
      (chosen = target ∨ chosen ∈ rest ∧ load.active chosen = true) ∧
      load.queuelen chosen ≤ load.queuelen target ∧
      ∀ shep ∈ rest, load.active shep = true → load.queuelen chosen ≤ load.queuelen shep := by
  induction rest generalizing used target with
  | nil => exact ⟨target, rfl, .inl rfl, Int.le_refl _, nofun⟩
  | cons i rest ih =>
    rw [leastBusy]
    by_cases active : load.active i = true
    · rw [if_pos active]
      simp only
      by_cases less : (lessBusy random used (load.queuelen i) (load.queuelen target)).1 = true
      · have below := lessBusy_true less
        rw [if_pos less]
        obtain ⟨chosen, done, from_, least, all⟩ := ih _ i
        refine ⟨chosen, done, .inr ?_, Int.le_trans least below, ?_⟩
        · rcases from_ with rfl | ⟨member, its⟩
          · exact ⟨List.mem_cons_self, active⟩
          · exact ⟨List.mem_cons_of_mem _ member, its⟩
        · intro shep member its
          rcases List.mem_cons.mp member with rfl | later
          · exact least
          · exact all shep later its
      · have above := lessBusy_false less
        rw [if_neg less]
        obtain ⟨chosen, done, from_, least, all⟩ := ih _ target
        refine ⟨chosen, done, ?_, least, ?_⟩
        · rcases from_ with same | ⟨member, its⟩
          · exact .inl same
          · exact .inr ⟨List.mem_cons_of_mem _ member, its⟩
        · intro shep member its
          rcases List.mem_cons.mp member with rfl | later
          · exact Int.le_trans least above
          · exact all shep later its
    · rw [if_neg active]
      obtain ⟨chosen, done, from_, least, all⟩ := ih used target
      refine ⟨chosen, done, ?_, least, ?_⟩
      · rcases from_ with same | ⟨member, its⟩
        · exact .inl same
        · exact .inr ⟨List.mem_cons_of_mem _ member, its⟩
      · intro shep member its
        rcases List.mem_cons.mp member with rfl | later
        · exact absurd its active
        · exact all shep later its

theorem leastBusy_none (random : Nat → Nat) (rest : List Nat) :
    (load.leastBusy random 0 none rest = none ∧ ∀ shep ∈ rest, load.active shep = false) ∨
      ∃ chosen ∈ rest, load.leastBusy random 0 none rest = some chosen ∧
        load.active chosen = true ∧
        ∀ shep ∈ rest, load.active shep = true → load.queuelen chosen ≤ load.queuelen shep := by
  induction rest with
  | nil => exact .inl ⟨rfl, nofun⟩
  | cons i rest ih =>
    rw [leastBusy]
    by_cases active : load.active i = true
    · rw [if_pos active]
      obtain ⟨chosen, done, from_, least, all⟩ := @leastBusy_spec load random 0 i rest
      refine .inr ⟨chosen, ?_, done, ?_, ?_⟩
      · rcases from_ with rfl | ⟨member, -⟩
        · exact List.mem_cons_self
        · exact List.mem_cons_of_mem _ member
      · rcases from_ with rfl | ⟨-, its⟩
        · exact active
        · exact its
      · intro shep member its
        rcases List.mem_cons.mp member with rfl | later
        · exact least
        · exact all shep later its
    · rw [if_neg active]
      rcases ih with ⟨nothing, inactive⟩ | ⟨chosen, member, done, its, all⟩
      · refine .inl ⟨nothing, ?_⟩
        intro shep member
        rcases List.mem_cons.mp member with rfl | later
        · exact Bool.eq_false_iff.mpr active
        · exact inactive shep later
      · refine .inr ⟨chosen, List.mem_cons_of_mem _ member, done, its, ?_⟩
        intro shep member its
        rcases List.mem_cons.mp member with rfl | later
        · exact absurd its active
        · exact all shep later its

section Near

variable {d : Nat → UInt32}

theorem beyond {dist : UInt32} {alt : Nat} {rest : List Nat} (far : ∀ shep ∈ alt :: rest, dist ≤ d shep)
    (sorted : (alt :: rest).Pairwise (d · ≤ d ·)) (other : d alt ≠ dist) :
    ∀ shep ∈ alt :: rest, d shep ≠ dist := by
  have above := UInt32.lt_of_le_of_ne (far alt List.mem_cons_self) (Ne.symm other)
  intro shep member same
  rcases List.mem_cons.mp member with rfl | later
  · exact other same
  · have less := UInt32.lt_of_lt_of_le above ((List.pairwise_cons.mp sorted).1 shep later)
    exact UInt32.lt_irrefl _ (same ▸ less)

theorem leastNear_spec (random : Nat → Nat) (used target : Nat) (dist : UInt32) (rest : List Nat)
    (far : ∀ shep ∈ rest, dist ≤ d shep) (sorted : rest.Pairwise (d · ≤ d ·)) :
    (load.leastNear random d used target (load.queuelen target) dist rest = target ∨
      load.leastNear random d used target (load.queuelen target) dist rest ∈ rest ∧
      d (load.leastNear random d used target (load.queuelen target) dist rest) = dist) ∧
    load.queuelen (load.leastNear random d used target (load.queuelen target) dist rest) ≤
      load.queuelen target ∧
    ∀ shep ∈ rest, d shep = dist →
      load.queuelen (load.leastNear random d used target (load.queuelen target) dist rest) ≤
        load.queuelen shep := by
  induction rest generalizing used target with
  | nil => exact ⟨.inl rfl, Int.le_refl _, nofun⟩
  | cons alt rest ih =>
    rw [leastNear]
    by_cases same : d alt = dist
    · rw [if_pos same]
      simp only
      have far' : ∀ shep ∈ rest, dist ≤ d shep :=
        fun shep member => far shep (List.mem_cons_of_mem _ member)
      have sorted' := (List.pairwise_cons.mp sorted).2
      by_cases less : (lessBusy random used (load.queuelen alt) (load.queuelen target)).1 = true
      · rw [if_pos less, same]
        obtain ⟨from_, least, all⟩ := ih (lessBusy random used (load.queuelen alt)
          (load.queuelen target)).2 alt far' sorted'
        refine ⟨.inr ?_, Int.le_trans least (lessBusy_true less), ?_⟩
        · rcases from_ with itself | ⟨member, its⟩
          · rw [itself]
            exact ⟨List.mem_cons_self, same⟩
          · exact ⟨List.mem_cons_of_mem _ member, its⟩
        · intro shep member its
          rcases List.mem_cons.mp member with rfl | later
          · exact least
          · exact all shep later its
      · rw [if_neg less]
        obtain ⟨from_, least, all⟩ := ih (lessBusy random used (load.queuelen alt)
          (load.queuelen target)).2 target far' sorted'
        refine ⟨?_, least, ?_⟩
        · rcases from_ with itself | ⟨member, its⟩
          · exact .inl itself
          · exact .inr ⟨List.mem_cons_of_mem _ member, its⟩
        · intro shep member its
          rcases List.mem_cons.mp member with rfl | later
          · exact Int.le_trans least (lessBusy_false less)
          · exact all shep later its
    · rw [if_neg same]
      exact ⟨.inl rfl, Int.le_refl _,
        fun shep member its => absurd its (beyond far sorted same shep member)⟩

theorem leastNear_stays {random : Nat → Nat} {used : Nat} (odd : ∀ k, used ≤ k → random k = 1)
    (target : Nat) (dist : UInt32) (rest : List Nat)
    (least : ∀ shep ∈ rest, d shep = dist → load.queuelen target ≤ load.queuelen shep) :
    load.leastNear random d used target (load.queuelen target) dist rest = target := by
  induction rest generalizing used with
  | nil => rfl
  | cons alt rest ih =>
    rw [leastNear]
    by_cases same : d alt = dist
    · have above := least alt List.mem_cons_self same
      have stays : lessBusy random used (load.queuelen alt) (load.queuelen target) =
          (false, if load.queuelen alt = load.queuelen target then used + 1 else used) := by
        rw [lessBusy, if_neg (by omega), odd used (Nat.le_refl _)]
        split <;> rfl
      rw [if_pos same, stays]
      refine ih ?_ (fun shep member => least shep (List.mem_cons_of_mem _ member))
      intro k later
      refine odd k (Nat.le_trans ?_ later)
      split <;> omega
    · rw [if_neg same]

theorem leastNear_reaches (given : Nat → Nat) (used target : Nat) (dist : UInt32) {rest : List Nat}
    (far : ∀ shep ∈ rest, dist ≤ d shep) (sorted : rest.Pairwise (d · ≤ d ·)) {z : Nat}
    (member : z ∈ rest) (near : d z = dist) (least : load.queuelen z ≤ load.queuelen target)
    (all : ∀ shep ∈ rest, d shep = dist → load.queuelen z ≤ load.queuelen shep) :
    ∃ random : Nat → Nat, (∀ k < used, random k = given k) ∧
      load.leastNear random d used target (load.queuelen target) dist rest = z := by
  induction rest generalizing used target given with
  | nil => cases member
  | cons alt rest ih =>
    have same : d alt = dist := Classical.byContradiction fun other =>
      beyond far sorted other z member near
    have far' : ∀ shep ∈ rest, dist ≤ d shep :=
      fun shep member => far shep (List.mem_cons_of_mem _ member)
    have sorted' := (List.pairwise_cons.mp sorted).2
    have all' : ∀ shep ∈ rest, d shep = dist → load.queuelen z ≤ load.queuelen shep :=
      fun shep member => all shep (List.mem_cons_of_mem _ member)
    have here := all alt List.mem_cons_self same
    by_cases first : z = alt
    · subst first
      rcases Int.lt_or_eq_of_le least with below | tie
      · refine ⟨fun k => if k < used then given k else 1, fun k early => if_pos early, ?_⟩
        rw [leastNear, if_pos same, lessBusy, if_pos below]
        exact leastNear_stays (fun k late => if_neg (by omega)) z (d z) rest
          (fun shep member its => all' shep member (its.trans same))
      · refine ⟨fun k => if k < used then given k else if k = used then 0 else 1,
          fun k early => if_pos early, ?_⟩
        rw [leastNear, if_pos same, lessBusy, if_neg (by omega), if_pos tie,
          if_neg (Nat.lt_irrefl used), if_pos rfl]
        exact leastNear_stays (fun k late => by rw [if_neg (by omega), if_neg (by omega)]) z (d z)
          rest (fun shep member its => all' shep member (its.trans same))
    · have later := (List.mem_cons.mp member).resolve_left first
      rcases Int.lt_trichotomy (load.queuelen alt) (load.queuelen target) with below | tie | above
      · obtain ⟨random, agree, done⟩ := ih given used alt far' sorted' later here all'
        refine ⟨random, agree, ?_⟩
        rw [leastNear, if_pos same, lessBusy, if_pos below]
        simp only [if_true, same]
        exact done
      · obtain ⟨random, agree, done⟩ := ih (Function.update given used 1) (used + 1) target far'
          sorted' later least all'
        refine ⟨random, ?_, ?_⟩
        · intro k early
          rw [agree k (by omega), Function.update_of_ne (by omega)]
        · rw [leastNear, if_pos same, lessBusy, if_neg (by omega), if_pos tie, agree used (by omega),
            Function.update_self]
          exact done
      · obtain ⟨random, agree, done⟩ := ih given used target far' sorted' later least all'
        refine ⟨random, agree, ?_⟩
        rw [leastNear, if_pos same, lessBusy, if_neg (by omega), if_neg (by omega)]
        exact done

theorem nearestActive_first (random : Nat → Nat) {front back : List Nat} {shep : Nat}
    (inactive : ∀ other ∈ front, load.active other = false) (active : load.active shep = true) :
    load.nearestActive random d (front ++ shep :: back) =
      some (load.leastNear random d 0 shep (load.queuelen shep) (d shep) back) := by
  induction front with
  | nil => rw [List.nil_append, nearestActive, if_pos active]
  | cons other front ih =>
    have first := inactive other List.mem_cons_self
    rw [List.cons_append, nearestActive, if_neg (by rw [first]; exact nofun)]
    exact ih fun next member => inactive next (List.mem_cons_of_mem _ member)

theorem nearestActive_none (random : Nat → Nat) {l : List Nat}
    (inactive : ∀ other ∈ l, load.active other = false) :
    load.nearestActive random d l = none := by
  induction l with
  | nil => rfl
  | cons other rest ih =>
    have first := inactive other List.mem_cons_self
    rw [nearestActive, if_neg (by rw [first]; exact nofun)]
    exact ih fun next member => inactive next (List.mem_cons_of_mem _ member)

theorem first_active {l : List Nat} (there : ∃ shep ∈ l, load.active shep = true) :
    ∃ front shep back, l = front ++ shep :: back ∧
      (∀ other ∈ front, load.active other = false) ∧ load.active shep = true := by
  induction l with
  | nil => obtain ⟨shep, member, -⟩ := there; cases member
  | cons other rest ih =>
    by_cases active : load.active other = true
    · exact ⟨[], other, rest, rfl, nofun, active⟩
    · obtain ⟨shep, member, its⟩ := there
      have later : shep ∈ rest := (List.mem_cons.mp member).resolve_left
        fun same => active (same ▸ its)
      obtain ⟨front, first, back, split, inactive, its⟩ := ih ⟨shep, later, its⟩
      refine ⟨other :: front, first, back, by rw [split]; rfl, ?_, its⟩
      intro next member
      rcases List.mem_cons.mp member with rfl | early
      · exact Bool.eq_false_iff.mpr active
      · exact inactive next early

end Near

/-- What `qthread_find_active_shepherd` promises of a pool of shepherds at some distances. -/
structure Finds (load : Load) (pool : List Nat) (near : Nat → UInt32)
    (result : Option (Option Nat)) : Prop where
  null : result = some none ↔ ∀ shep ∈ pool, load.active shep = false
  found : (∃ shep ∈ pool, load.active shep = true) → ∃ chosen ∈ pool,
    result = some (some chosen) ∧ load.active chosen = true ∧
      (∀ shep ∈ pool, load.active shep = true → near chosen ≤ near shep) ∧
      ∀ shep ∈ pool, load.active shep = true → near shep = near chosen →
        load.queuelen chosen ≤ load.queuelen shep

def pool (load : Load) : Option (List Nat × (Nat → UInt32)) → List Nat
  | none => List.range load.nsheps
  | some (l, _) => l

def near : Option (List Nat × (Nat → UInt32)) → Nat → UInt32
  | none => fun _ => 0
  | some (_, d) => d

/-- Each disabled shepherd that is as near as the first active one and behind it has a longer queue
than some active one there.  Without locality info some shepherd is active. -/
def Settled (load : Load) : Option (List Nat × (Nat → UInt32)) → Prop
  | none => ∃ shep < load.nsheps, load.active shep = true
  | some (l, d) => ∀ front shep back, l = front ++ shep :: back →
      (∀ other ∈ front, load.active other = false) → load.active shep = true →
      ∀ alt ∈ back, d alt = d shep → load.active alt = false →
        ∃ other ∈ l, load.active other = true ∧ d other = d shep ∧
          load.queuelen other < load.queuelen alt

def Ordered (load : Load) (locality : Option (List Nat × (Nat → UInt32))) : Prop :=
  ∀ l d, locality = some (l, d) → l.length = load.nsheps - 1 ∧ l.Pairwise (d · ≤ d ·)

section Choice

variable {d : Nat → UInt32} {l : List Nat}

theorem findActiveShepherd_some (random : Nat → Nat) (length : l.length = load.nsheps - 1) :
    load.findActiveShepherd random (some (l, d)) = some (load.nearestActive random d l) := by
  rw [findActiveShepherd, ← length, List.take_length]

theorem Settled.finds (settled : load.Settled (some (l, d))) (length : l.length = load.nsheps - 1)
    (sorted : l.Pairwise (d · ≤ d ·)) (random : Nat → Nat) :
    load.Finds l d (load.findActiveShepherd random (some (l, d))) := by
  rw [findActiveShepherd_some random length]
  by_cases there : ∃ shep ∈ l, load.active shep = true
  · obtain ⟨front, shep, back, split, inactive, active⟩ := first_active there
    have parts := List.pairwise_append.mp (split ▸ sorted)
    obtain ⟨far, sortedBack⟩ := List.pairwise_cons.mp parts.2.1
    obtain ⟨from_, least, all⟩ := @leastNear_spec load d random 0 shep (d shep) back far sortedBack
    have done := @nearestActive_first load d random _ back _ inactive active
    generalize load.leastNear random d 0 shep (load.queuelen shep) (d shep) back = chosen at *
    have equal : d chosen = d shep := by
      rcases from_ with itself | ⟨-, its⟩
      · rw [itself]
      · exact its
    have behind : ∀ other ∈ l, load.active other = true → other = shep ∨ other ∈ back := by
      intro other member its
      rw [split] at member
      rcases List.mem_append.mp member with early | late
      · rw [inactive other early] at its
        cases its
      · exact List.mem_cons.mp late
    have fewest : ∀ other ∈ l, load.active other = true → d other = d shep →
        load.queuelen chosen ≤ load.queuelen other := by
      intro other member its same
      rcases behind other member its with rfl | later
      · exact least
      · exact all other later same
    have good : load.active chosen = true := by
      rcases from_ with rfl | ⟨member, its⟩
      · exact active
      · refine Bool.of_not_eq_false fun disabled => ?_
        obtain ⟨other, inside, active', same, fewer⟩ :=
          settled front shep back split inactive active chosen member its disabled
        exact absurd (fewest other inside active' same) (Int.not_le.mpr fewer)
    rw [← split] at done
    rw [done]
    constructor
    · refine iff_of_false nofun ?_
      intro never
      obtain ⟨other, member, its⟩ := there
      rw [never other member] at its
      cases its
    · intro _
      refine ⟨chosen, ?_, rfl, good, ?_, ?_⟩
      · rw [split]
        rcases from_ with rfl | ⟨member, -⟩
        · exact List.mem_append_right _ List.mem_cons_self
        · exact List.mem_append_right _ (List.mem_cons_of_mem _ member)
      · intro other member its
        rw [equal]
        rcases behind other member its with rfl | later
        · exact UInt32.le_refl _
        · exact far other later
      · intro other member its same
        exact fewest other member its (same.trans equal)
  · have inactive : ∀ shep ∈ l, load.active shep = false := fun shep member =>
      Bool.eq_false_iff.mpr fun its => there ⟨shep, member, its⟩
    rw [nearestActive_none random inactive]
    exact ⟨iff_of_true rfl inactive, fun occurs => absurd occurs there⟩

/-- Where a disabled shepherd has none of the longer queues, some random numbers choose it or another
disabled one. -/
theorem settled_of_active (length : l.length = load.nsheps - 1) (sorted : l.Pairwise (d · ≤ d ·))
    (right : ∀ random shep, load.findActiveShepherd random (some (l, d)) = some (some shep) →
      load.active shep = true) : load.Settled (some (l, d)) := by
  intro front shep back split inactive active alt member near disabled
  refine Classical.byContradiction fun longest => ?_
  have shortest : ∀ other ∈ l, load.active other = true → d other = d shep →
      load.queuelen alt ≤ load.queuelen other := by
    intro other inside its same
    exact Int.not_lt.mp fun fewer => longest ⟨other, inside, its, same, fewer⟩
  have here : shep ∈ l := by
    rw [split]
    exact List.mem_append_right _ List.mem_cons_self
  have there : ∀ other ∈ back, other ∈ l := by
    intro other late
    rw [split]
    exact List.mem_append_right _ (List.mem_cons_of_mem _ late)
  have parts := List.pairwise_append.mp (split ▸ sorted)
  obtain ⟨far, sortedBack⟩ := List.pairwise_cons.mp parts.2.1
  obtain ⟨from_, least, all⟩ :=
    @leastNear_spec load d (fun _ => 0) 0 shep (d shep) back far sortedBack
  generalize load.leastNear (fun _ => 0) d 0 shep (load.queuelen shep) (d shep) back = first at *
  obtain ⟨z, inside, near', disabled', fewest⟩ : ∃ z ∈ back, d z = d shep ∧
      load.active z = false ∧ load.queuelen z ≤ load.queuelen first := by
    by_cases its : load.active first = true
    · refine ⟨alt, member, near, disabled, ?_⟩
      rcases from_ with rfl | ⟨late, same⟩
      · exact shortest _ here its rfl
      · exact shortest _ (there _ late) its same
    · rcases from_ with rfl | ⟨late, same⟩
      · exact absurd active its
      · exact ⟨first, late, same, Bool.eq_false_iff.mpr its, Int.le_refl _⟩
  obtain ⟨random, -, done⟩ := @leastNear_reaches load d (fun _ => 0) 0 shep (d shep) _ far
    sortedBack _ inside near' (Int.le_trans fewest least)
    (fun other late same => Int.le_trans fewest (all other late same))
  have chosen : load.findActiveShepherd random (some (l, d)) = some (some z) := by
    rw [findActiveShepherd_some random length, split, nearestActive_first random inactive active, done]
  have its := right random z chosen
  rw [disabled'] at its
  cases its

end Choice

theorem finds_iff {locality : Option (List Nat × (Nat → UInt32))} (ordered : load.Ordered locality) :
    (∀ random, load.Finds (load.pool locality) (near locality)
      (load.findActiveShepherd random locality)) ↔ load.Settled locality := by
  cases locality with
  | none =>
    constructor
    · intro finds
      refine Classical.byContradiction fun nobody => ?_
      have inactive : ∀ shep ∈ List.range load.nsheps, load.active shep = false :=
        fun shep member => Bool.eq_false_iff.mpr
          fun its => nobody ⟨shep, List.mem_range.mp member, its⟩
      have null := (finds fun _ => 0).null.mpr inactive
      rw [findActiveShepherd] at null
      cases result : load.leastBusy (fun _ => 0) 0 none (List.range load.nsheps) with
      | none => rw [result] at null; cases null
      | some shep => rw [result] at null; cases null
    · rintro ⟨shep, below, active⟩ random
      have member := List.mem_range.mpr below
      rcases @leastBusy_none load random (List.range load.nsheps) with
        ⟨-, inactive⟩ | ⟨chosen, inside, done, its, all⟩
      · rw [inactive shep member] at active
        cases active
      · rw [findActiveShepherd, done]
        constructor
        · refine iff_of_false nofun ?_
          intro inactive
          rw [inactive shep member] at active
          cases active
        · intro _
          exact ⟨chosen, inside, rfl, its, fun _ _ _ => UInt32.le_refl _,
            fun other late active _ => all other late active⟩
  | some locality =>
    obtain ⟨l, d⟩ := locality
    obtain ⟨length, sorted⟩ := ordered l d rfl
    constructor
    · intro finds
      refine settled_of_active length sorted fun random shep result => ?_
      have there : ∃ shep ∈ l, load.active shep = true := by
        refine Classical.byContradiction fun nobody => ?_
        have null := (finds random).null.mpr fun shep member =>
          Bool.eq_false_iff.mpr fun its => nobody ⟨shep, member, its⟩
        rw [result] at null
        cases null
      obtain ⟨chosen, -, done, its, -⟩ := (finds random).found there
      rw [result] at done
      cases done
      exact its
    · intro settled random
      exact settled.finds length sorted random

def Localized (load : Load) (localities : Nat → Option (List Nat × (Nat → UInt32))) : Prop :=
  ∀ self < load.nsheps, ∀ l d, localities self = some (l, d) →
    l.Perm ((List.range load.nsheps).filter (· ≠ self)) ∧ l.Pairwise (d · ≤ d ·)

section Master

variable {localities : Nat → Option (List Nat × (Nat → UInt32))} {self : Nat}

section

variable (localized : load.Localized localities) (inside : self < load.nsheps)
include localized inside

theorem Localized.ordered : load.Ordered (localities self) := by
  intro l d found
  obtain ⟨perm, sorted⟩ := localized self inside l d found
  exact ⟨perm.length_eq.trans (others_length inside), sorted⟩

theorem Localized.mem_pool
    (disabled : load.active self = false) {shep : Nat} (below : shep < load.nsheps)
    (active : load.active shep = true) : shep ∈ load.pool (localities self) := by
  cases found : localities self with
  | none => exact List.mem_range.mpr below
  | some locality =>
    obtain ⟨l, d⟩ := locality
    obtain ⟨perm, -⟩ := localized self inside l d found
    refine perm.mem_iff.mpr (List.mem_filter.mpr ⟨List.mem_range.mpr below, decide_eq_true ?_⟩)
    intro same
    rw [same, disabled] at active
    cases active

theorem gives_iff (disabled : load.active self = false)
    (there : ∃ shep < load.nsheps, load.active shep = true) :
    (∀ random, ∃ shep, give (load.findActiveShepherd random (localities self)) = .to shep ∧
      load.active shep = true) ↔ load.Settled (localities self) := by
  have ordered := localized.ordered inside
  constructor
  · intro gives
    cases found : localities self with
    | none => exact there
    | some locality =>
      obtain ⟨l, d⟩ := locality
      obtain ⟨length, sorted⟩ := ordered l d found
      refine settled_of_active length sorted fun random shep result => ?_
      obtain ⟨chosen, done, its⟩ := gives random
      rw [found, result] at done
      cases done
      exact its
  · intro settled random
    obtain ⟨shep, below, active⟩ := there
    obtain ⟨chosen, -, done, its, -⟩ := ((finds_iff ordered).mpr settled random).found
      ⟨shep, localized.mem_pool inside disabled below active, active⟩
    exact ⟨chosen, by rw [done]; rfl, its⟩

end

/-- A disabled shepherd hands a task to an active one, whatever the random numbers. -/
theorem master_iff (localized : load.Localized localities) {me : Nat} (inside : me < load.nsheps)
    (disabled : load.active me = false) (listed : (localities me).isSome)
    {targetShepherd : Option Nat} (placed : ∀ target, targetShepherd = some target → target < load.nsheps)
    (there : ∃ shep < load.nsheps, load.active shep = true) :
    (∀ random, ∃ shep, load.master random localities me targetShepherd = .to shep ∧
      load.active shep = true) ↔
      (∃ home, targetShepherd = some home ∧ load.active home = true) ∨
        load.Settled (localities (targetShepherd.getD me)) := by
  by_cases away : ∃ target, targetShepherd = some target ∧ target ≠ me
  · obtain ⟨target, rfl, other⟩ := away
    have kept : (some target).filter (· ≠ me) = some target := by
      simp [Option.filter, other]
    by_cases active : load.active target = true
    · refine iff_of_true (fun random => ⟨target, ?_, active⟩) (.inl ⟨target, rfl, active⟩)
      rw [master, kept]
      exact if_pos active
    · have disabledTarget := Bool.eq_false_iff.mpr active
      have asks : ∀ random, load.master random localities me (some target) =
          give (load.findActiveShepherd random (localities target)) := by
        intro random
        rw [master, kept]
        simp only [disabledTarget, disabled, if_true, Bool.false_eq_true, if_false]
      have nowhere : ¬ ∃ home, some target = some home ∧ load.active home = true := by
        rintro ⟨home, same, its⟩
        cases same
        exact active its
      rw [or_iff_right nowhere]
      simp only [asks]
      exact gives_iff localized (placed target rfl) disabledTarget there
  · have here : targetShepherd.filter (· ≠ me) = none ∧ targetShepherd.getD me = me ∧
        ¬ ∃ home, targetShepherd = some home ∧ load.active home = true := by
      cases targetShepherd with
      | none => exact ⟨rfl, rfl, by rintro ⟨home, same, -⟩; cases same⟩
      | some target =>
        have same : target = me := Classical.byContradiction fun other =>
          away ⟨target, rfl, other⟩
        subst same
        refine ⟨by simp [Option.filter], rfl, ?_⟩
        rintro ⟨home, same, its⟩
        cases same
        rw [disabled] at its
        cases its
    obtain ⟨kept, own, nowhere⟩ := here
    have asks : ∀ random, load.master random localities me targetShepherd =
        give (load.findActiveShepherd random (localities me)) := by
      intro random
      rw [master, kept]
      simp only [disabled, if_true, listed]
    rw [or_iff_right nowhere, own]
    simp only [asks]
    exact gives_iff localized inside disabled there

end Master

theorem localized_gendists (affinity : Affinity) (random : Nat → Nat) (load : Load) :
    ∃ sheps, affinity.gendists random load.nsheps = some sheps ∧
      load.Localized fun self => sheps[self]?.map fun shep =>
        (shep.sortedSheplist, entry shep.shepDists) := by
  obtain ⟨sheps, made, length, placed⟩ := affinity.gendists_spec random load.nsheps
  refine ⟨sheps, made, ?_⟩
  intro self inside l d found
  obtain ⟨shep, there, same⟩ := Option.map_eq_some_iff.mp found
  cases same
  have known := placed self shep there
  exact ⟨known.perm, known.sorted⟩

/-- When a nearest active shepherd is found, and when the master loop of a disabled one hands a task
to an active one. -/
theorem rehomes_iff (load : Load) :
    (∀ locality, load.Ordered locality →
      ((∀ random, load.Finds (load.pool locality) (near locality)
        (load.findActiveShepherd random locality)) ↔ load.Settled locality)) ∧
    ∀ localities me targetShepherd, load.Localized localities → me < load.nsheps →
      load.active me = false → (localities me).isSome →
      (∀ target, targetShepherd = some target → target < load.nsheps) →
      (∃ shep < load.nsheps, load.active shep = true) →
      ((∀ random, ∃ shep, load.master random localities me targetShepherd = .to shep ∧
        load.active shep = true) ↔
        (∃ home, targetShepherd = some home ∧ load.active home = true) ∨
          load.Settled (localities (targetShepherd.getD me))) :=
  ⟨fun _ ordered => finds_iff ordered, fun _ _ _ localized inside disabled listed placed there =>
    master_iff localized inside disabled listed placed there⟩

/-- Shepherd 4 is disabled, and so is the nearest of the others; of the two that come next, at one
distance, shepherd 2 has the shorter queue, and shepherd 3 with the shortest one is farther. -/
def fiveSheps : Load where
  nsheps := 5
  active shep := shep = 1 || shep = 2 || shep = 3
  queuelen shep := if shep = 1 then 4 else if shep = 2 then 1 else 0

def fiveLocalities (self : Nat) : Option (List Nat × (Nat → UInt32)) :=
  if self = 4 then
    some ([0, 1, 2, 3], fun shep => if shep = 0 then 5 else if shep = 3 then 20 else 10)
  else none

theorem fiveSheps_settled : fiveSheps.Settled (fiveLocalities 4) := by
  intro front shep back split _ active alt member _ idle
  rcases front with _ | ⟨first, rest⟩
  · obtain ⟨rfl, -⟩ := List.cons.inj split
    cases active
  · obtain ⟨-, later⟩ := List.cons.inj split
    have inside : alt ∈ [1, 2, 3] := by
      rw [later]
      simp [member]
    simp only [List.mem_cons, List.not_mem_nil, or_false] at inside
    rcases inside with rfl | rfl | rfl <;> cases idle

theorem rehomes_five : ∀ random,
    fiveSheps.Finds (fiveSheps.pool (fiveLocalities 4)) (near (fiveLocalities 4))
      (fiveSheps.findActiveShepherd random (fiveLocalities 4)) ∧
    fiveSheps.findActiveShepherd random (fiveLocalities 4) = some (some 2) ∧
    ∃ shep, fiveSheps.master random fiveLocalities 4 none = .to shep ∧
      fiveSheps.active shep = true := by
  obtain ⟨finds, master⟩ := rehomes_iff fiveSheps
  have ordered : fiveSheps.Ordered (fiveLocalities 4) := by
    rintro l d ⟨⟩
    exact ⟨rfl, by decide⟩
  have localized : fiveSheps.Localized fiveLocalities := by
    intro self inside l d found
    rw [fiveLocalities] at found
    split at found
    next same =>
        subst same
        cases found
        exact ⟨by decide, by decide⟩
    next => cases found
  have rehomes := (master fiveLocalities 4 none localized (by decide) rfl rfl nofun
    ⟨1, by decide, rfl⟩).mpr (.inr fiveSheps_settled)
  exact fun random => ⟨(finds _ ordered).mpr fiveSheps_settled random, rfl, rehomes random⟩

/-- A disabled shepherd with a shorter queue is chosen. -/
theorem finds_disabled : ¬ ∀ random, (Load.mk 3 (· = 1) fun shep => if shep = 1 then 5 else 0).Finds
    [1, 2] (fun _ => 10) ((Load.mk 3 (· = 1) fun shep => if shep = 1 then 5 else 0).findActiveShepherd
      random (some ([1, 2], fun _ => 10))) := by
  intro finds
  obtain ⟨chosen, -, done, active, -⟩ := (finds fun _ => 0).found ⟨1, by decide, rfl⟩
  have result : (Load.mk 3 (· = 1) fun shep => if shep = 1 then 5 else 0).findActiveShepherd
      (fun _ => 0) (some ([1, 2], fun _ => 10)) = some (some 2) := by
    decide
  rw [result] at done
  cases done
  revert active
  decide

end Load

end Qthreads.Shepherds
