import Qthreads.Lib.Run
import Qthreads.Hazard.Scan

namespace Qthreads.Hazard

open Lib
open Function (update update_of_ne update_self)

inductive Label where
  | hazard (owner : Owner) (which : Fin 2) (ptr : UInt64)
  | register (n : Nat)
  | count
  | configure (nshepherdsActive nworkersActive : Nat)
  | release (me : Nat × Nat) (entry : Entry)
  | begin (me : Nat × Nat) (garbage : Nat → UInt64)
  | read (me : Nat × Nat)
  | chain (me : Nat × Nat)
  | copy (me : Nat × Nat)
  | finish (me : Nat × Nat)

/-- The thread is there, and not in the middle of `hazardous_release_node`. -/
def State.Free (s : State) : Owner → Prop
  | .worker i j => i < s.layout.nshepherds ∧ j < s.layout.nworkerspershep ∧
      s.scans (i, j) = none ∧ (s.lists (i, j)).length < s.freelistMax
  | .external n => n ∈ s.externals

inductive Step (qsort : Qsort) : State → Label → State → Prop where
  | hazard {s : State} {owner : Owner} (which : Fin 2) (ptr : UInt64) (free : s.Free owner) :
      Step qsort s (.hazard owner which ptr) (s.setSlot owner which ptr)
  | register {s : State} {n : Nat} (new : n ∉ s.externals) :
      Step qsort s (.register n) { s with externals := n :: s.externals }
  | count {s : State} (late : s.hzptrListLen < s.externals.length) :
      Step qsort s .count { s with hzptrListLen := s.hzptrListLen + 1 }
  | configure {s : State} (nshepherdsActive nworkersActive : Nat) :
      Step qsort s (.configure nshepherdsActive nworkersActive)
        { s with layout := { s.layout with nshepherdsActive, nworkersActive } }
  | release {s : State} {me : Nat × Nat} {entry : Entry} (free : s.Free (.worker me.1 me.2))
      (nonNull : entry.ptr ≠ 0) : Step qsort s (.release me entry) (s.release me entry)
  | begin {s : State} {me : Nat × Nat} (garbage : Nat → UInt64) (idle : s.scans me = none)
      (full : (s.lists me).length = s.freelistMax) :
      Step qsort s (.begin me garbage) { s with
        scans := update s.scans me (some {
          numHps := s.layout.numHps
          size := s.layout.numHps + s.hzptrListLen
          stage := .workers 0
          plist := garbage }) }
  | read {s : State} {me : Nat × Nat} {scan : Scan} {k : Nat} (scanning : s.scans me = some scan)
      (stage : scan.stage = .workers k) (more : k / 2 / s.layout.nworkerspershep <
        s.layout.nshepherdsActive) :
      Step qsort s (.read me) { s with
        scans := update s.scans me (some { scan with
          stage := .workers (k + 1)
          plist := update scan.plist k (s.layout.wordOf s.slots me k) })
        written := (k, scan.size) :: s.written }
  | chain {s : State} {me : Nat × Nat} {scan : Scan} {k : Nat} (scanning : s.scans me = some scan)
      (stage : scan.stage = .workers k) (done : ¬ k / 2 / s.layout.nworkerspershep <
        s.layout.nshepherdsActive) :
      Step qsort s (.chain me) { s with
        scans := update s.scans me (some { scan with
          stage := .externals k (s.externals.flatMap fun n => [(n, 0), (n, 1)]) }) }
  | copy {s : State} {me : Nat × Nat} {scan : Scan} {base n : Nat} {which : Fin 2}
      {rest : List (Nat × Fin 2)} (scanning : s.scans me = some scan)
      (stage : scan.stage = .externals base ((n, which) :: rest)) :
      Step qsort s (.copy me) { s with
        scans := update s.scans me (some { scan with
          stage := .externals base rest
          plist := update scan.plist (base + which) (s.slots (.external n) which) })
        written := (base + which, scan.size) :: s.written }
  | finish {s : State} {me : Nat × Nat} {scan : Scan} {base : Nat} {freed kept : List Retired}
      (scanning : s.scans me = some scan) (stage : scan.stage = .externals base [])
      (swept : sweep Retired.ptr
        (qsort.sort voidCmp ((List.range scan.numHps).map scan.plist)) scan.numHps (s.lists me) =
          some (freed, kept)) :
      Step qsort s (.finish me) { s with
        lists := if kept.length = s.freelistMax then s.lists else update s.lists me kept
        scans := update s.scans me
          (if kept.length = s.freelistMax then some { scan with stage := .workers 0 } else none)
        freed := freed ++ s.freed }

namespace State

/-- No node was freed while a slot of another thread had held it since it was retired, and no
word was written outside of the allocation. -/
structure Safe (s : State) : Prop where
  unheld : ∀ node ∈ s.freed, ∀ owner which, node.held owner which = false
  inside : ∀ write ∈ s.written, write.1 < write.2

def Collected (s : State) : Owner → Prop
  | .worker i _ => i < s.layout.nshepherdsActive
  | .external _ => False

def Meets (s : State) : Label → Prop
  | .configure _ _ => ∀ me, s.scans me = none
  | .begin me _ => s.layout.Aligned me
  | .copy me => ∀ scan ∈ s.scans me, ∀ base rest, scan.stage = .externals base rest →
      base + 2 ≤ scan.size
  | .finish me => ∀ scan ∈ s.scans me,
      Ordered ((List.range scan.numHps).map scan.plist) ∧
      ∀ node ∈ s.lists me, ∀ owner which, ¬ s.Collected owner → s.slots owner which ≠ node.ptr
  | _ => True

structure Seen (s : State) (me : Nat × Nat) (plist : Nat → UInt64) (k : Nat) : Prop where
  own : ∀ word < k, s.layout.workerOf word = me → plist word = 0
  held : ∀ node ∈ s.lists me, ∀ i j which, node.held (.worker i j) which = true →
    s.layout.place i j which < k → plist (s.layout.place i j which) = node.ptr

structure Progress (s : State) (me : Nat × Nat) (scan : Scan) : Prop where
  aligned : s.layout.Aligned me
  words : scan.numHps = s.layout.scanned
  room : scan.numHps ≤ scan.size
  stage : match scan.stage with
    | .workers k => k ≤ s.layout.scanned ∧ s.Seen me scan.plist k
    | .externals base _ => base = s.layout.scanned ∧ s.Seen me scan.plist base

structure Inv (s : State) : Prop where
  real : ∀ i j which, s.slots (.worker i j) which ≠ 0 → j < s.layout.nworkerspershep
  held : ∀ me, ∀ node ∈ s.lists me, ∀ owner which, node.held owner which = true →
    s.slots owner which = node.ptr ∧ owner ≠ .worker me.1 me.2
  nonNull : ∀ me, ∀ node ∈ s.lists me, node.ptr ≠ 0
  scanning : ∀ me scan, s.scans me = some scan → s.Progress me scan
  safe : s.Safe

theorem start_inv (layout : Layout) : (start layout).Inv where
  real := fun _ _ _ nonzero => absurd rfl nonzero
  held := nofun
  nonNull := nofun
  scanning := nofun
  safe := ⟨nofun, nofun⟩

variable {s next : State} {me : Nat × Nat} {scan : Scan} {owner : Owner} {which : Fin 2}
  {ptr : UInt64}

variable {k : Nat}

theorem Seen.fewer {plist : Nat → UInt64} (seen : s.Seen me plist k)
    (layout : next.layout = s.layout)
    (fewer : ∀ node ∈ next.lists me, ∃ old ∈ s.lists me, old.ptr = node.ptr ∧
      ∀ owner which, node.held owner which = true → old.held owner which = true) :
    next.Seen me plist k where
  own := by
    rw [layout]
    exact seen.own
  held := by
    intro node member i j which held before
    rw [layout] at before ⊢
    obtain ⟨old, was, same, more⟩ := fewer node member
    rw [← same]
    exact seen.held old was i j which (more _ _ held) before

theorem Progress.fewer (progress : s.Progress me scan) (layout : next.layout = s.layout)
    (fewer : ∀ node ∈ next.lists me, ∃ old ∈ s.lists me, old.ptr = node.ptr ∧
      ∀ owner which, node.held owner which = true → old.held owner which = true) :
    next.Progress me scan where
  aligned := by
    rw [layout]
    exact progress.aligned
  words := by
    rw [layout]
    exact progress.words
  room := progress.room
  stage := by
    have stage := progress.stage
    cases which : scan.stage with
    | workers k =>
      rw [which] at stage
      exact ⟨by rw [layout]; exact stage.1, stage.2.fewer layout fewer⟩
    | externals base rest =>
      rw [which] at stage
      exact ⟨by rw [layout]; exact stage.1, stage.2.fewer layout fewer⟩

theorem same_lists (lists : next.lists me = s.lists me) :
    ∀ node ∈ next.lists me, ∃ old ∈ s.lists me, old.ptr = node.ptr ∧
      ∀ owner which, node.held owner which = true → old.held owner which = true := by
  intro node member
  rw [lists] at member
  exact ⟨node, member, rfl, fun _ _ held => held⟩

theorem watch_held {other : Owner} {slot : Fin 2} {node : Retired}
    (held : (node.watch owner which ptr).held other slot = true) :
    node.held other slot = true ∧ (other = owner → slot = which → ptr = node.ptr) := by
  simp only [Retired.watch, Bool.and_eq_true, Bool.not_eq_true', Bool.and_eq_false_iff,
    decide_eq_false_iff_not, bne_eq_false_iff_eq] at held
  obtain ⟨was, kept⟩ := held
  refine ⟨was, fun same again => ?_⟩
  rcases kept with (other | other) | equal
  · exact absurd same other
  · exact absurd again other
  · exact equal

theorem mem_setSlot {node : Retired} (member : node ∈ (s.setSlot owner which ptr).lists me) :
    ∃ old ∈ s.lists me, old.watch owner which ptr = node :=
  List.mem_map.mp member

theorem setSlot_slots (other : Owner) (slot : Fin 2) :
    (s.setSlot owner which ptr).slots other slot =
      if other = owner ∧ slot = which then ptr else s.slots other slot := by
  simp only [setSlot]
  by_cases same : other = owner
  · subst same
    by_cases again : slot = which
    · subst again
      simp
    · simp [again]
  · simp [same]

theorem Inv.setSlot (inv : s.Inv)
    (valid : ∀ i j, owner = .worker i j → ptr ≠ 0 → j < s.layout.nworkerspershep) :
    (s.setSlot owner which ptr).Inv where
  real := by
    intro i j slot nonzero
    rw [setSlot_slots] at nonzero
    split at nonzero
    · rename_i same
      exact valid i j same.1.symm nonzero
    · exact inv.real i j slot nonzero
  held := by
    intro me node member other slot held
    obtain ⟨old, was, rfl⟩ := mem_setSlot member
    obtain ⟨before, kept⟩ := watch_held held
    obtain ⟨holds, others⟩ := inv.held me old was other slot before
    refine ⟨?_, others⟩
    rw [setSlot_slots]
    split
    · rename_i same
      exact kept same.1 same.2
    · exact holds
  nonNull := by
    intro me node member
    obtain ⟨old, was, rfl⟩ := mem_setSlot member
    exact inv.nonNull me old was
  scanning := by
    intro me scan scanning
    refine (inv.scanning me scan scanning).fewer rfl ?_
    intro node member
    obtain ⟨old, was, rfl⟩ := mem_setSlot member
    exact ⟨old, was, rfl, fun _ _ held => (watch_held held).1⟩
  safe := ⟨inv.safe.unheld, inv.safe.inside⟩

theorem Inv.release {entry : Entry} (inv : s.Inv) (free : s.Free (.worker me.1 me.2))
    (nonNull : entry.ptr ≠ 0) : (s.release me entry).Inv := by
  have listed : State.Inv { s with lists := update s.lists me (s.lists me ++
      [⟨entry, fun owner which => owner ≠ .worker me.1 me.2 &&
        s.slots owner which == entry.ptr⟩]) } := by
    refine ⟨inv.real, ?_, ?_, ?_, ⟨inv.safe.unheld, inv.safe.inside⟩⟩
    · intro other node member owner which held
      by_cases same : other = me
      · subst same
        simp only [update_self] at member
        rcases List.mem_append.mp member with was | new
        · exact inv.held other node was owner which held
        · cases List.mem_singleton.mp new
          simp only [Bool.and_eq_true, decide_eq_true_eq, beq_iff_eq] at held
          exact ⟨held.2, held.1⟩
      · simp only [update_of_ne same] at member
        exact inv.held other node member owner which held
    · intro other node member
      by_cases same : other = me
      · subst same
        simp only [update_self] at member
        rcases List.mem_append.mp member with was | new
        · exact inv.nonNull other node was
        · cases List.mem_singleton.mp new
          exact nonNull
      · simp only [update_of_ne same] at member
        exact inv.nonNull other node member
    · intro other scan scanning
      have different : other ≠ me := by
        rintro rfl
        have idle := free.2.2.1
        rw [show (other.1, other.2) = other from rfl] at idle
        change s.scans other = some scan at scanning
        rw [idle] at scanning
        cases scanning
      exact (inv.scanning other scan scanning).fewer rfl
        (same_lists (by simp only [update_of_ne different]))
  exact (listed.setSlot (fun _ _ _ nonzero => absurd rfl nonzero)).setSlot
    (fun _ _ _ nonzero => absurd rfl nonzero)

theorem Inv.scanMoved {scans : Option Scan} {written : List (Nat × Nat)} (inv : s.Inv)
    (progress : ∀ scan ∈ scans, s.Progress me scan) (inside : ∀ write ∈ written, write.1 < write.2) :
    State.Inv { s with scans := update s.scans me scans, written := written } where
  real := inv.real
  held := inv.held
  nonNull := inv.nonNull
  scanning := by
    intro other scan scanning
    by_cases same : other = me
    · subst same
      simp only [update_self] at scanning
      exact (progress scan scanning).fewer rfl (same_lists rfl)
    · simp only [update_of_ne same] at scanning
      exact (inv.scanning other scan scanning).fewer rfl (same_lists rfl)
  safe := ⟨inv.safe.unheld, inside⟩

theorem word_lt {layout : Layout} (more : k / 2 / layout.nworkerspershep < layout.nshepherdsActive)
    (positive : 0 < layout.nworkerspershep) : k < layout.scanned := by
  have half := (Nat.div_lt_iff_lt_mul positive).mp more
  rw [Layout.scanned, hazardPtrsPerShep]
  omega

theorem word_ge {layout : Layout}
    (done : ¬ k / 2 / layout.nworkerspershep < layout.nshepherdsActive)
    (positive : 0 < layout.nworkerspershep) : layout.scanned ≤ k := by
  by_contra less
  refine done ((Nat.div_lt_iff_lt_mul positive).mpr ?_)
  rw [Layout.scanned, hazardPtrsPerShep] at less
  omega

theorem Inv.seen_read (inv : s.Inv) (seen : s.Seen me scan.plist k) :
    s.Seen me (update scan.plist k (s.layout.wordOf s.slots me k)) (k + 1) where
  own := by
    intro word before mine
    by_cases last : word = k
    · subst last
      rw [update_self, Layout.wordOf, if_pos mine]
    · rw [update_of_ne last]
      exact seen.own word (by omega) mine
  held := by
    intro node member i j which held before
    by_cases last : s.layout.place i j which = k
    · obtain ⟨holds, other⟩ := inv.held me node member (.worker i j) which held
      have worker : j < s.layout.nworkerspershep := by
        refine inv.real i j which ?_
        rw [holds]
        exact inv.nonNull me node member
      have place := Layout.workerOf_place (i := i) which worker
      have different : (i, j) ≠ me := by
        rintro rfl
        exact other rfl
      rw [last, update_self, Layout.wordOf, ← last, place, if_neg different,
        Layout.place_which]
      exact holds
    · rw [update_of_ne last]
      exact seen.held node member i j which held (by omega)

theorem Seen.copy {base : Nat} {plist : Nat → UInt64} (seen : s.Seen me plist base) (value : UInt64)
    (offset : Nat) : s.Seen me (update plist (base + offset) value) base where
  own := by
    intro word before mine
    rw [update_of_ne (by omega)]
    exact seen.own word before mine
  held := by
    intro node member i j which held before
    rw [update_of_ne (by omega)]
    exact seen.held node member i j which held before

variable {freed kept : List Retired} {qsort : Qsort}

theorem Inv.swept {base : Nat} (inv : s.Inv)
    (scanning : s.scans me = some scan) (stage : scan.stage = .externals base [])
    (meets : s.Meets (.finish me))
    (swept : sweep Retired.ptr
      (qsort.sort voidCmp ((List.range scan.numHps).map scan.plist)) scan.numHps (s.lists me) =
        some (freed, kept)) :
    (∀ node ∈ freed, ∀ owner which, node.held owner which = false) ∧ kept ⊆ s.lists me := by
  have progress := inv.scanning me scan scanning
  have seen := progress.stage
  rw [stage] at seen
  obtain ⟨rfl, seen⟩ := seen
  obtain ⟨ordered, covered⟩ := meets scan scanning
  have aligned := progress.aligned
  have mine := Layout.place_lt_scanned 0 aligned.shepherd aligned.worker
  have next := Layout.place_lt_scanned 1 aligned.shepherd aligned.worker
  have collected : ∀ word < s.layout.scanned,
      scan.plist word ∈ (List.range scan.numHps).map scan.plist := by
    intro word before
    exact List.mem_map.mpr ⟨word, List.mem_range.mpr (by rw [progress.words]; exact before), rfl⟩
  have zero : 0 ∈ (List.range scan.numHps).map scan.plist := by
    rw [← seen.own _ mine (Layout.workerOf_place 0 aligned.worker)]
    exact collected _ mine
  have length : ((List.range scan.numHps).map scan.plist).length = scan.numHps := by
    rw [List.length_map, List.length_range]
  have two : 2 ≤ ((List.range scan.numHps).map scan.plist).length := by
    rw [length, progress.words]
    have one : ((1 : Fin 2) : Nat) = 1 := rfl
    rw [Layout.place] at next
    omega
  have exact_ := sweep_sorted qsort ordered two zero (inv.nonNull me)
  rw [length, swept, Option.some.injEq, Prod.mk.injEq] at exact_
  obtain ⟨rfl, rfl⟩ := exact_
  refine ⟨?_, List.filter_subset_self _⟩
  intro node member owner which
  obtain ⟨listed, absent⟩ := List.mem_filter.mp member
  have absent := of_decide_eq_true absent
  rw [Bool.eq_false_iff]
  intro held
  obtain ⟨holds, -⟩ := inv.held me node listed owner which held
  have inside : s.Collected owner := by
    by_contra outside
    exact covered node listed owner which outside holds
  cases owner with
  | external n => exact inside
  | worker i j =>
    have worker : j < s.layout.nworkerspershep := by
      refine inv.real i j which ?_
      rw [holds]
      exact inv.nonNull me node listed
    have place := Layout.place_lt_scanned which inside worker
    rw [← seen.held node listed i j which held place] at absent
    exact absent (collected _ place)

theorem Inv.finish (inv : s.Inv) (scanning : s.scans me = some scan)
    (unheld : ∀ node ∈ freed, ∀ owner which, node.held owner which = false)
    (fewer : kept ⊆ s.lists me) :
    State.Inv { s with
      lists := if kept.length = s.freelistMax then s.lists else update s.lists me kept
      scans := update s.scans me
        (if kept.length = s.freelistMax then some { scan with stage := .workers 0 } else none)
      freed := freed ++ s.freed } := by
  have progress := inv.scanning me scan scanning
  have subset : ∀ other, (if kept.length = s.freelistMax then s.lists
      else update s.lists me kept) other ⊆ s.lists other := by
    intro other node member
    split at member
    · exact member
    · by_cases same : other = me
      · subst same
        rw [update_self] at member
        exact fewer member
      · rw [update_of_ne same] at member
        exact member
  have safe : ∀ node ∈ freed ++ s.freed, ∀ owner which, node.held owner which = false := by
    intro node member
    rcases List.mem_append.mp member with now | before
    · exact unheld node now
    · exact inv.safe.unheld node before
  refine ⟨inv.real, fun other node member => inv.held other node (subset other member),
    fun other node member => inv.nonNull other node (subset other member), ?_,
    ⟨safe, inv.safe.inside⟩⟩
  intro other later running
  by_cases same : other = me
  · subst same
    simp only [update_self] at running
    split at running
    · cases running
      exact ⟨progress.aligned, progress.words, progress.room,
        ⟨Nat.zero_le _, fun _ before => absurd before (Nat.not_lt_zero _),
          fun _ _ _ _ _ _ before => absurd before (Nat.not_lt_zero _)⟩⟩
    · cases running
  · simp only [update_of_ne same] at running
    exact (inv.scanning other later running).fewer rfl fun node member =>
      ⟨node, subset other member, rfl, fun _ _ held => held⟩

theorem inv_step {label : Label} (inv : s.Inv) (meets : s.Meets label)
    (step : Step qsort s label next) : next.Inv := by
  cases step with
  | @hazard owner which ptr free =>
    refine inv.setSlot ?_
    rintro i j rfl _
    exact free.2.1
  | register new =>
    exact ⟨inv.real, inv.held, inv.nonNull, fun me scan scanning =>
      (inv.scanning me scan scanning).fewer rfl (same_lists rfl),
      ⟨inv.safe.unheld, inv.safe.inside⟩⟩
  | count late =>
    exact ⟨inv.real, inv.held, inv.nonNull, fun me scan scanning =>
      (inv.scanning me scan scanning).fewer rfl (same_lists rfl),
      ⟨inv.safe.unheld, inv.safe.inside⟩⟩
  | configure nshepherdsActive nworkersActive =>
    refine ⟨inv.real, inv.held, inv.nonNull, ?_, ⟨inv.safe.unheld, inv.safe.inside⟩⟩
    intro me scan scanning
    rw [meets me] at scanning
    cases scanning
  | release free nonNull => exact inv.release free nonNull
  | begin garbage idle full =>
    refine inv.scanMoved ?_ inv.safe.inside
    intro scan made
    cases made
    have aligned : s.layout.Aligned _ := meets
    exact ⟨aligned, aligned.numHps_eq, Nat.le_add_right _ _, Nat.zero_le _,
      fun _ before => absurd before (Nat.not_lt_zero _),
      fun _ _ _ _ _ _ before => absurd before (Nat.not_lt_zero _)⟩
  | @read me scan k scanning stage more =>
    have progress := inv.scanning me scan scanning
    have seen := progress.stage
    rw [stage] at seen
    have inside := word_lt more (Nat.lt_of_le_of_lt (Nat.zero_le _) progress.aligned.worker)
    refine inv.scanMoved ?_ ?_
    · intro later made
      cases made
      exact ⟨progress.aligned, progress.words, progress.room, inside, inv.seen_read seen.2⟩
    · intro write member
      rcases List.mem_cons.mp member with rfl | earlier
      · have words := progress.words
        have room := progress.room
        simp only
        omega
      · exact inv.safe.inside write earlier
  | @chain me scan k scanning stage done =>
    have progress := inv.scanning me scan scanning
    have seen := progress.stage
    rw [stage] at seen
    have all := word_ge done (Nat.lt_of_le_of_lt (Nat.zero_le _) progress.aligned.worker)
    refine inv.scanMoved ?_ inv.safe.inside
    intro later made
    cases made
    exact ⟨progress.aligned, progress.words, progress.room, Nat.le_antisymm seen.1 all, seen.2⟩
  | @copy me scan base n which rest scanning stage =>
    have progress := inv.scanning me scan scanning
    have seen := progress.stage
    rw [stage] at seen
    have fits := meets scan scanning base _ stage
    refine inv.scanMoved ?_ ?_
    · intro later made
      cases made
      exact ⟨progress.aligned, progress.words, progress.room, seen.1, seen.2.copy _ _⟩
    · intro write member
      rcases List.mem_cons.mp member with rfl | earlier
      · have small := which.isLt
        simp only
        omega
      · exact inv.safe.inside write earlier
  | finish scanning stage swept =>
    obtain ⟨unheld, fewer⟩ := inv.swept scanning stage meets swept
    exact inv.finish scanning unheld fewer

theorem run_inv {labels : List Label} (inv : s.Inv)
    (run : Run (Guarded Meets (Step qsort)) s labels next) : next.Inv :=
  run.preserves (fun _ _ _ kept step => inv_step kept step.1 step.2) inv

end State

/-- Where the counts agree and `void_cmp` orders the collected addresses, a pass is exact if and
only if no pointer is only in a slot that is not collected and an external thread has room.  In
every run whose steps meet the conditions, no node is freed while a slot goes on holding it. -/
theorem hazard_reclamation (qsort : Qsort) :
    (∀ (layout : Layout) (slots : Slots) (externals : List Nat) (hzptrListLen : Nat)
        (garbage : Nat → UInt64) (me : Nat × Nat) (freelist : List Entry),
      layout.Aligned me → Ordered (layout.workerWords slots me) →
      (∀ entry ∈ freelist, entry.ptr ≠ 0) →
      (ScanExact qsort layout slots externals hzptrListLen garbage me freelist ↔
        layout.Covered slots externals me freelist ∧ (externals ≠ [] → 2 ≤ hzptrListLen))) ∧
    ∀ (layout : Layout) (labels : List Label) (last : State),
      Run (Guarded State.Meets (Step qsort)) (State.start layout) labels last → last.Safe := by
  constructor
  · intro layout slots externals hzptrListLen garbage me freelist aligned ordered nonNull
    exact scanExact_iff qsort hzptrListLen garbage aligned ordered nonNull
  · intro layout labels last run
    exact (State.run_inv (State.start_inv layout) run).safe

/-- A `qsort` that inserts. -/
def Qsort.insertion : Qsort where
  sort cmp list := list.insertionSort fun x y => cmp x y ≤ 0
  perm _ list := List.perm_insertionSort _ list
  sorted cmp list consistent := by
    have total : Std.Total fun x y : { x // x ∈ list } => cmp x y ≤ 0 := by
      refine ⟨fun x y => ?_⟩
      by_cases le : cmp x y ≤ 0
      · exact .inl le
      · exact .inr (Int32.le_of_lt ((consistent.signs y y.2 x x.2).mpr (Int32.not_le.mp le)))
    have trans : IsTrans { x // x ∈ list } fun x y => cmp x y ≤ 0 :=
      ⟨fun x y z => consistent.trans x x.2 y y.2 z z.2⟩
    have inside := List.pairwise_insertionSort (fun x y : { x // x ∈ list } => cmp x y ≤ 0)
      list.attach
    have mapped := List.map_insertionSort (fun x y : { x // x ∈ list } => cmp x y ≤ 0)
      (fun x y => cmp x y ≤ 0) Subtype.val list.attach (fun _ _ _ _ => Iff.rfl)
    rw [List.attach_map_subtype_val] at mapped
    rw [← mapped]
    exact inside.map Subtype.val fun _ _ le => le

instance (list : List UInt64) : Decidable (Ordered list) :=
  decidable_of_iff ((list.all fun x => list.all fun y =>
    decide (x < y → voidCmp x y < 0 ∧ 0 < voidCmp y x)) = true) (by
      simp only [List.all_eq_true, decide_eq_true_eq, Ordered])

instance (layout : Layout) (slots : Slots) (externals : List Nat) (me : Nat × Nat)
    (freelist : List Entry) : Decidable (layout.Covered slots externals me freelist) :=
  inferInstanceAs (Decidable (∀ entry ∈ freelist, entry.ptr ∈ layout.hazards slots externals me →
    entry.ptr ∈ layout.workerWords slots me))

def twoWorkers : Layout := ⟨2, 1, 2, 2⟩

def nodesTo (last : UInt64) (count : Nat) : List Entry :=
  (List.range count).map fun k => ⟨0, last - 64 * .ofNat k⟩

theorem releases {qsort : Qsort} {i j : Nat} (entries : List Entry) (s : State)
    (inside : i < s.layout.nshepherds ∧ j < s.layout.nworkerspershep) (idle : s.scans (i, j) = none)
    (fits : (s.lists (i, j)).length + entries.length ≤ s.freelistMax)
    (nonNull : ∀ entry ∈ entries, entry.ptr ≠ 0) :
    Run (Guarded State.Meets (Step qsort)) s (entries.map (.release (i, j)))
      (entries.foldl (fun s entry => s.release (i, j) entry) s) := by
  induction entries generalizing s with
  | nil => exact .nil s
  | cons entry entries induction =>
    rw [List.length_cons] at fits
    have room : (s.lists (i, j)).length < s.freelistMax := by omega
    refine .cons ⟨trivial, .release ⟨inside.1, inside.2, idle, room⟩
      (nonNull entry List.mem_cons_self)⟩ (induction _ inside idle ?_ fun other member =>
        nonNull other (List.mem_cons_of_mem entry member))
    simp only [State.release, State.setSlot, update_self, List.length_map, List.length_append,
      List.length_singleton]
    exact Nat.le_trans (by omega) fits

/-- Worker `(1, 0)` holds a node, which worker `(0, 0)` retires with eight others. -/
def retiring : State :=
  (nodesTo 0x601040 9).foldl (fun s entry => s.release (0, 0) entry)
    ((State.start twoWorkers).setSlot (.worker 1 0) (.last 1) 0x601040)

theorem retiring_run : Run (Guarded State.Meets (Step .insertion)) (State.start twoWorkers)
    (.hazard (.worker 1 0) (.last 1) 0x601040 :: (nodesTo 0x601040 9).map (.release (0, 0)))
    retiring :=
  .cons ⟨trivial, .hazard (.last 1) 0x601040 ⟨by decide, by decide, rfl, by decide⟩⟩
    (releases (nodesTo 0x601040 9) _ ⟨by decide, by decide⟩ rfl (by decide) (by decide +kernel))

theorem hazard_reclamation_frees :
    ScanExact .insertion twoWorkers (oneHeld (.worker 1 0) 0x601040) [] 0 (fun _ => 0) (0, 0)
      (nodesTo 0x601040 9) ∧
    ∃ last : State, last.freed.length = 8 ∧ last.Safe := by
  have aligned : twoWorkers.Aligned (0, 0) := ⟨by decide, by decide, by decide, by decide⟩
  constructor
  · exact ((hazard_reclamation .insertion).1 twoWorkers (oneHeld (.worker 1 0) 0x601040) [] 0
      (fun _ => 0) (0, 0) (nodesTo 0x601040 9) aligned (by decide +kernel) (by decide +kernel)).mpr
        ⟨by decide +kernel, fun nonempty => absurd rfl nonempty⟩
  · obtain ⟨s, scan, scanned, scanning, stage, empty, lists, slots, active, numHps, plist⟩ :
        ∃ s scan, Run (Guarded State.Meets (Step .insertion)) retiring
          [.begin (0, 0) fun _ => 0, .read (0, 0), .read (0, 0), .read (0, 0), .read (0, 0),
            .chain (0, 0)] s ∧ s.scans (0, 0) = some scan ∧ scan.stage = .externals 4 [] ∧
          s.freed = [] ∧ s.lists = retiring.lists ∧ s.slots = retiring.slots ∧
          s.layout.nshepherdsActive = 2 ∧ scan.numHps = 4 ∧
          (List.range 4).map scan.plist = [0, 0, 0, 0x601040] :=
      ⟨_, _, .cons ⟨aligned, .begin _ rfl (by decide)⟩ <|
        .cons ⟨trivial, .read rfl rfl (by decide)⟩ <| .cons ⟨trivial, .read rfl rfl (by decide)⟩ <|
        .cons ⟨trivial, .read rfl rfl (by decide)⟩ <| .cons ⟨trivial, .read rfl rfl (by decide)⟩ <|
        .cons ⟨trivial, .chain rfl rfl (by decide)⟩ <| .nil _, rfl, rfl, rfl, rfl, rfl, rfl, rfl,
        by decide +kernel⟩
    have swept : (sweep Retired.ptr (Qsort.insertion.sort voidCmp [0, 0, 0, 0x601040]) 4
        (retiring.lists (0, 0))).map (·.1.length) = some 8 := by decide +kernel
    obtain ⟨swept, found, eight⟩ := Option.map_eq_some_iff.mp swept
    have meets : s.Meets (.finish (0, 0)) := by
      intro other there
      cases scanning.symm.trans there
      rw [numHps, plist, lists, slots]
      refine ⟨by decide +kernel, fun node member owner which outside held => ?_⟩
      have nonNull : ∀ node ∈ retiring.lists (0, 0), node.ptr ≠ 0 := by decide +kernel
      refine nonNull node member (held.symm.trans ?_)
      cases owner with
      | external n => rfl
      | worker i j =>
        obtain ⟨i, rfl⟩ := Nat.exists_eq_add_of_le' (active.symm.le.trans (Nat.le_of_not_lt outside))
        rfl
    rw [← plist, ← numHps, ← lists] at found
    refine ⟨_, ?_, (hazard_reclamation .insertion).2 twoWorkers _ _
      (retiring_run.append (scanned.append (.cons ⟨meets, .finish scanning stage found⟩ (.nil _))))⟩
    rw [empty, List.append_nil]
    exact eight

/-- A held node is freed where `void_cmp` takes its address for a negative number, and where the
thread that holds it is an external one. -/
theorem held_node_freed :
    ¬ ScanExact .insertion twoWorkers (oneHeld (.worker 1 0) 0x7fffc0000040) [] 0 (fun _ => 0)
        (0, 0) (nodesTo 0x7fffc0000040 9) ∧
      ¬ ScanExact .insertion ⟨1, 1, 1, 1⟩ (oneHeld (.external 0) 0x601040) [0] 1 (fun _ => 0)
        (0, 0) (nodesTo 0x601040 8) := by
  constructor
  · rintro ⟨-, passed⟩
    revert passed
    decide +kernel
  · rintro ⟨-, passed⟩
    revert passed
    decide +kernel

end Qthreads.Hazard
