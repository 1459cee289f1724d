import Mathlib.Combinatorics.Pigeonhole
import Qthreads.Lib.CellBarrier

namespace Qthreads.Lib.CellBarrier

variable {b : CellBarrier} (tree : b.Tree)

/-! Why a tree of cells makes a barrier. -/

structure Good (s : Cells) : Prop where
  upCell : ∀ c, s.sent c = s.heard c + (s.up c).toNat
  downCell : ∀ c, 0 < c → s.released c = s.passed c + (s.down c).toNat
  unused : ∀ c, c = 0 ∨ b.size ≤ c → s.up c = false ∧ s.down c = false
  sent_le : ∀ i, s.sent i ≤ s.entered i
  heard_le : ∀ i, ∀ c ∈ tree.waits i, s.heard c ≤ s.entered i
  sent_le_heard : ∀ i, ∀ c ∈ tree.waits i, s.sent i ≤ s.heard c
  passed_le_sent : ∀ i, 0 < i → s.passed i ≤ s.sent i
  passed_le_heard : ∀ i, ∀ c ∈ tree.waits i, s.passed i ≤ s.heard c
  released_le : ∀ i, ∀ c ∈ tree.waits i, s.released c ≤ s.passed i
  passed_le : ∀ i, s.passed i ≤ s.entered i
  entered_le : ∀ i, s.entered i ≤ s.passed i + 1
  held : ∀ i, s.holder i ≠ none ↔ s.passed i < s.entered i
  releasing : ∀ i, s.releaser i ≠ none ↔ ∃ c ∈ tree.waits i, s.released c < s.passed i
  holder_started : ∀ i t, s.holder i = some t → s.started t = s.entered i ∧ t < b.size
  holder_once : ∀ i j t, s.holder i = some t → s.holder j = some t → i = j
  behind : ∀ t, t < b.size → ∃ j, j < b.size ∧ s.entered j ≤ s.started t

def tellAndWait (i : Nat) : List CellOp := if i = 0 then [] else [.putUp i, .takeDown i]

inductive At (t : Nat) (s : Cells) : Place → Prop where
  | outside : (∀ j, j < b.size → s.started t ≤ s.entered j) → At t s .outside
  | waiting {i : Nat} (ws : List Nat) : i < b.size → ws <:+ tree.waits i → (i = 0 → ws ≠ []) →
      (∀ c ∈ ws, s.heard c + 1 = s.entered i) →
      (∀ c ∈ tree.waits i, c ∉ ws → s.heard c = s.entered i) →
      (0 < i → s.sent i + 1 = s.entered i) →
      At t s (.inside i
        (ws.map .takeUp ++ tellAndWait i ++ (tree.releases i).map .putDown))
  | waitingDown {i : Nat} : 0 < i → i < b.size → s.sent i = s.entered i →
      At t s (.inside i (.takeDown i :: (tree.releases i).map .putDown))
  | releasing {i : Nat} (rs : List Nat) : i < b.size → rs <:+ tree.releases i →
      s.started t ≤ s.passed i → (∀ c ∈ rs, s.released c + 1 = s.started t) →
      (∀ c ∈ tree.releases i, c ∉ rs → s.started t ≤ s.released c) →
      (rs ≠ [] → s.passed i = s.started t) →
      At t s (.inside i (rs.map .putDown))

end CellBarrier

def Place.holds : Place → Option Nat
  | outside => none
  | inside id ops => if ops.any CellOp.waits then some id else none

def Place.lets : Place → Option Nat
  | outside => none
  | inside id ops =>
    if ops.any CellOp.waits then none else if ops.any CellOp.releases then some id else none

namespace CellBarrier

open Function (update update_of_ne update_self)

variable {b : CellBarrier} {tree : b.Tree}

structure Own (tree : b.Tree) (t : Nat) (s : Cells) (place : Place) : Prop where
  here : At tree t s place
  holds : ∀ i, s.holder i = some t ↔ place.holds = some i
  lets : ∀ i, s.releaser i = some t ↔ place.lets = some i

variable {s after : Cells} {t me i c : Nat} {place next : Place}

theorem Tree.child_of (tree : b.Tree) (child : c ∈ tree.waits i) :
    0 < c ∧ c < b.size ∧ i < c ∧ ∀ j, c ∈ tree.waits j → j = i := by
  obtain ⟨pos, small, parent⟩ := (tree.mem_waits i c).mp child
  refine ⟨pos, small, parent ▸ tree.parent_lt c pos small, ?_⟩
  intro j other
  exact ((tree.mem_waits j c).mp other).2.2.symm.trans parent

theorem Tree.mem_parent (tree : b.Tree) (pos : 0 < c) (small : c < b.size) :
    c ∈ tree.waits (tree.parent c) :=
  (tree.mem_waits _ c).mpr ⟨pos, small, rfl⟩

namespace Good

variable (good : Good tree s)

include good

theorem heard_le_sent (c : Nat) : s.heard c ≤ s.sent c := by
  have cell := good.upCell c
  omega

theorem passed_le_released (pos : 0 < c) : s.passed c ≤ s.released c := by
  have cell := good.downCell c pos
  omega

theorem passed_le_root (small : i < b.size) : s.passed i ≤ s.passed 0 := by
  induction i using Nat.strong_induction_on with
  | _ i ih =>
    rcases Nat.eq_zero_or_pos i with rfl | pos
    · exact le_refl _
    · have below := tree.parent_lt i pos small
      have released := good.released_le _ i (tree.mem_parent pos small)
      have mine := good.passed_le_released pos
      have above := ih (tree.parent i) below (by omega)
      omega

theorem root_le_heard (pos : 0 < i) (small : i < b.size) : s.passed 0 ≤ s.heard i := by
  induction i using Nat.strong_induction_on with
  | _ i ih =>
    have child := tree.mem_parent pos small
    have below := tree.parent_lt i pos small
    rcases Nat.eq_zero_or_pos (tree.parent i) with root | inner
    · rw [root] at child
      exact good.passed_le_heard 0 i child
    · have told := good.sent_le_heard _ i child
      have heard := good.heard_le_sent (tree.parent i)
      have above := ih (tree.parent i) below inner (by omega)
      omega

theorem root_le_entered (small : i < b.size) : s.passed 0 ≤ s.entered i := by
  rcases Nat.eq_zero_or_pos i with rfl | pos
  · exact good.passed_le 0
  · have told := good.root_le_heard pos small
    have heard := good.heard_le_sent i
    have sent := good.sent_le i
    omega

theorem passed_le_entered (small : i < b.size) {j : Nat} (among : j < b.size) :
    s.passed i ≤ s.entered j :=
  (good.passed_le_root small).trans (good.root_le_entered among)

theorem passed_of_free (free : s.holder i = none) : s.passed i = s.entered i := by
  have notLess : ¬ s.passed i < s.entered i := fun less => (good.held i).mpr less free
  have upper := good.passed_le i
  omega

theorem passed_of_held (held : s.holder i = some t) : s.passed i + 1 = s.entered i := by
  have less : s.passed i < s.entered i := (good.held i).mp (by simp [held])
  have upper := good.entered_le i
  omega

end Good

theorem any_waits_puts (rs : List Nat) : (rs.map CellOp.putDown).any CellOp.waits = false := by
  simp [CellOp.waits]

theorem any_releases_puts (rs : List Nat) :
    (rs.map CellOp.putDown).any CellOp.releases = !rs.isEmpty := by
  cases rs with
  | nil => rfl
  | cons c rs => simp [CellOp.releases]

variable {ws rs : List Nat}

theorem any_waits_waiting (nonempty : i = 0 → ws ≠ []) :
    (ws.map CellOp.takeUp ++ tellAndWait i ++ rs.map CellOp.putDown).any CellOp.waits = true := by
  cases ws with
  | nil =>
    have inner : i ≠ 0 := fun root => nonempty root rfl
    simp [tellAndWait, inner, CellOp.waits]
  | cons c ws => simp [CellOp.waits]

theorem holds_waiting (nonempty : i = 0 → ws ≠ []) :
    (Place.inside i (ws.map .takeUp ++ tellAndWait i ++ rs.map .putDown)).holds = .some i := by
  rw [Place.holds, any_waits_waiting nonempty, if_pos rfl]

theorem lets_waiting (nonempty : i = 0 → ws ≠ []) :
    (Place.inside i (ws.map .takeUp ++ tellAndWait i ++ rs.map .putDown)).lets = none := by
  rw [Place.lets, any_waits_waiting nonempty, if_pos rfl]

theorem holds_puts (rs : List Nat) : (Place.inside i (rs.map .putDown)).holds = none := by
  rw [Place.holds, any_waits_puts, if_neg (by simp)]

theorem lets_puts (rs : List Nat) :
    (Place.inside i (rs.map .putDown)).lets = if rs = [] then none else some i := by
  rw [Place.lets, any_waits_puts, if_neg (by simp), any_releases_puts]
  cases rs <;> simp

structure Steady (tree : b.Tree) (t : Nat) (s after : Cells) : Prop where
  started : after.started t = s.started t
  holder : ∀ i, after.holder i = some t ↔ s.holder i = some t
  releaser : ∀ i, after.releaser i = some t ↔ s.releaser i = some t
  entered_le : ∀ i, s.entered i ≤ after.entered i
  passed_le : ∀ i, s.passed i ≤ after.passed i
  released_le : ∀ c, s.released c ≤ after.released c
  waiting : ∀ i, s.holder i = some t → after.entered i = s.entered i ∧ after.sent i = s.sent i ∧
    ∀ c ∈ tree.waits i, after.heard c = s.heard c
  letting : ∀ i, s.releaser i = some t → after.passed i = s.passed i ∧
    ∀ c ∈ tree.waits i, after.released c = s.released c

theorem Own.stable (own : Own tree t s place) (steady : Steady tree t s after) :
    Own tree t after place := by
  refine ⟨?_, fun i => (steady.holder i).trans (own.holds i),
    fun i => (steady.releaser i).trans (own.lets i)⟩
  cases own.here with
  | outside came =>
    refine .outside fun j small => ?_
    rw [steady.started]
    exact (came j small).trans (steady.entered_le j)
  | @waiting i ws small inside nonempty ahead behind told =>
    have mine : s.holder i = .some t := (own.holds i).mpr (holds_waiting nonempty)
    obtain ⟨entered, sent, heard⟩ := steady.waiting i mine
    refine .waiting ws small inside nonempty ?_ ?_ ?_
    · intro c member
      rw [heard c (inside.subset member), entered]
      exact ahead c member
    · intro c member absent
      rw [heard c member, entered]
      exact behind c member absent
    · intro pos
      rw [sent, entered]
      exact told pos
  | @waitingDown i pos small told =>
    have mine : s.holder i = .some t := (own.holds i).mpr (by simp [Place.holds, CellOp.waits])
    obtain ⟨entered, sent, _⟩ := steady.waiting i mine
    exact .waitingDown pos small (by rw [sent, entered]; exact told)
  | @releasing i rs small inside passed ahead behind now =>
    have mine : rs ≠ [] → s.releaser i = .some t := by
      intro nonempty
      exact (own.lets i).mpr (by rw [lets_puts, if_neg nonempty])
    refine .releasing rs small inside ?_ ?_ ?_ ?_
    · rw [steady.started]
      exact passed.trans (steady.passed_le i)
    · intro c member
      have letting := steady.letting i (mine (List.ne_nil_of_mem member))
      rw [letting.2 c ((tree.mem_releases i c).mp (inside.subset member)), steady.started]
      exact ahead c member
    · intro c member absent
      rw [steady.started]
      exact (behind c member absent).trans (steady.released_le c)
    · intro nonempty
      rw [(steady.letting i (mine nonempty)).1, steady.started]
      exact now nonempty

structure Moved (tree : b.Tree) (me : Nat) (s after : Cells) (next : Place) : Prop where
  good : Good tree after
  own : Own tree me after next
  steady : ∀ t, t ≠ me → Steady tree t s after

theorem Good.takeUp (good : Good tree s) (child : c ∈ tree.waits i) (full : s.up c = true)
    (ahead : s.heard c + 1 = s.entered i) : Good tree (s.takeUp c) := by
  have only := (tree.child_of child).2.2.2
  have cell := good.upCell c
  rw [full] at cell
  have mono := le_bump s.heard c
  refine ⟨?_, good.downCell, ?_, good.sent_le, ?_, ?_, good.passed_le_sent, ?_, good.released_le,
    good.passed_le, good.entered_le, good.held, good.releasing, good.holder_started,
    good.holder_once, good.behind⟩
  · intro d
    by_cases same : d = c
    · subst same
      simp only [Cells.takeUp, bump_self, update_self, Bool.toNat_false]
      exact cell
    · simp only [Cells.takeUp, bump_of_ne _ same, update_of_ne same]
      exact good.upCell d
  · intro d outer
    refine ⟨?_, (good.unused d outer).2⟩
    by_cases same : d = c
    · subst same
      simp only [Cells.takeUp, update_self]
    · simp only [Cells.takeUp, update_of_ne same]
      exact (good.unused d outer).1
  · intro j d member
    by_cases same : d = c
    · subst same
      cases only j member
      simp only [Cells.takeUp, bump_self]
      omega
    · simp only [Cells.takeUp, bump_of_ne _ same]
      exact good.heard_le j d member
  · intro j d member
    exact (good.sent_le_heard j d member).trans (mono d)
  · intro j d member
    exact (good.passed_le_heard j d member).trans (mono d)

theorem steady_takeUp (child : c ∈ tree.waits i) (mine : s.holder i = some me) (other : t ≠ me) :
    Steady tree t s (s.takeUp c) := by
  have only := (tree.child_of child).2.2.2
  refine ⟨rfl, fun _ => .rfl, fun _ => .rfl, fun _ => le_refl _, fun _ => le_refl _,
    fun _ => le_refl _, ?_, fun _ _ => ⟨rfl, fun _ _ => rfl⟩⟩
  intro j theirs
  refine ⟨rfl, rfl, ?_⟩
  intro d member
  refine bump_of_ne _ ?_
  rintro rfl
  cases only j member
  rw [mine] at theirs
  exact other (Option.some.inj theirs).symm

theorem at_takeUp {ws : List Nat} (small : i < b.size) (inside : c :: ws <:+ tree.waits i)
    (ahead : ∀ d ∈ c :: ws, s.heard d + 1 = s.entered i)
    (behind : ∀ d ∈ tree.waits i, d ∉ c :: ws → s.heard d = s.entered i)
    (told : 0 < i → s.sent i + 1 = s.entered i) (nonempty : i = 0 → ws ≠ []) :
    At tree me (s.takeUp c)
      (.inside i (ws.map .takeUp ++ tellAndWait i ++ (tree.releases i).map .putDown)) := by
  have once := inside.sublist.nodup (tree.waitsOnce i)
  rw [List.nodup_cons] at once
  refine .waiting ws small ((List.suffix_cons c ws).trans inside) nonempty ?_ ?_ told
  · intro d member
    have differ : d ≠ c := by
      rintro rfl
      exact once.1 member
    simp only [Cells.takeUp, bump_of_ne _ differ]
    exact ahead d (List.mem_cons_of_mem c member)
  · intro d member absent
    by_cases same : d = c
    · subst same
      simp only [Cells.takeUp, bump_self]
      exact ahead d List.mem_cons_self
    · simp only [Cells.takeUp, bump_of_ne _ same]
      exact behind d member (by simp [same, absent])

theorem moved_putUp (good : Good tree s) (pos : 0 < i) (small : i < b.size) (own : Own tree me s
      (.inside i (.putUp i :: .takeDown i :: (tree.releases i).map .putDown)))
    (heard : ∀ c ∈ tree.waits i, s.heard c = s.entered i) (told : s.sent i + 1 = s.entered i)
    (empty : s.up i = false) :
    Moved tree me s (s.putUp i) (.inside i (.takeDown i :: (tree.releases i).map .putDown)) := by
  have mine : s.holder i = some me := (own.holds i).mpr (by simp [Place.holds, CellOp.waits])
  have cell := good.upCell i
  rw [empty] at cell
  have mono := le_bump s.sent i
  refine ⟨?_, ⟨?_, ?_, ?_⟩, ?_⟩
  · refine ⟨?_, good.downCell, ?_, ?_, good.heard_le, ?_, ?_, good.passed_le_heard,
      good.released_le, good.passed_le, good.entered_le, good.held, good.releasing,
      good.holder_started, good.holder_once, good.behind⟩
    · intro d
      by_cases same : d = i
      · subst same
        simp only [Cells.putUp, bump_self, update_self, Bool.toNat_true]
        rw [cell]
        rfl
      · simp only [Cells.putUp, bump_of_ne _ same, update_of_ne same]
        exact good.upCell d
    · intro d outer
      have differ : d ≠ i := by omega
      simp only [Cells.putUp, update_of_ne differ]
      exact good.unused d outer
    · intro j
      by_cases same : j = i
      · subst same
        simp only [Cells.putUp, bump_self]
        omega
      · simp only [Cells.putUp, bump_of_ne _ same]
        exact good.sent_le j
    · intro j d member
      by_cases same : j = i
      · subst same
        simp only [Cells.putUp, bump_self]
        rw [heard d member]
        omega
      · simp only [Cells.putUp, bump_of_ne _ same]
        exact good.sent_le_heard j d member
    · intro j inner
      exact (good.passed_le_sent j inner).trans (mono j)
  · refine .waitingDown pos small ?_
    simp only [Cells.putUp, bump_self]
    exact told
  · intro j
    have before := own.holds j
    simp only [Place.holds, CellOp.waits, List.any_cons, Bool.or_true, Bool.true_or] at before ⊢
    exact before
  · intro j
    have before := own.lets j
    simp only [Place.lets, CellOp.waits, List.any_cons, Bool.true_or, Bool.false_or, if_true] at before ⊢
    exact before
  · intro t other
    refine ⟨rfl, fun _ => .rfl, fun _ => .rfl, fun _ => le_refl _, fun _ => le_refl _,
      fun _ => le_refl _, ?_, fun _ _ => ⟨rfl, fun _ _ => rfl⟩⟩
    intro j theirs
    refine ⟨rfl, bump_of_ne _ ?_, fun _ _ => rfl⟩
    rintro rfl
    rw [mine] at theirs
    exact other (Option.some.inj theirs).symm

theorem Good.nobody_releases (good : Good tree s) (held : s.holder i = some t)
    (heard : ∀ c ∈ tree.waits i, s.heard c = s.entered i) :
    s.releaser i = none ∧ ∀ c ∈ tree.waits i, s.released c = s.passed i := by
  have released : ∀ c ∈ tree.waits i, s.released c = s.passed i := by
    intro c member
    obtain ⟨pos, _, _, _⟩ := tree.child_of member
    have now := good.passed_of_held held
    have came := heard c member
    have sent := good.heard_le_sent c
    have entered := good.sent_le c
    have passed := good.entered_le c
    have got := good.passed_le_released pos
    have upper := good.released_le i c member
    omega
  refine ⟨?_, released⟩
  by_contra busy
  obtain ⟨c, member, less⟩ := (good.releasing i).mp busy
  have same := released c member
  omega

/-- The last wait of a task with the number, but for the cell it has waited at. -/
structure Passes (tree : b.Tree) (me i : Nat) (s after : Cells) : Prop where
  up : after.up = s.up
  sent : after.sent = s.sent
  heard : after.heard = s.heard
  released : after.released = s.released
  entered : after.entered = s.entered
  started : after.started = s.started
  passed : after.passed = bump s.passed i
  holder : after.holder = update s.holder i none
  releaser : after.releaser = update s.releaser i
    (if tree.releases i = [] then none else some me)

theorem Good.pass (good : Good tree s) (held : s.holder i = some me)
    (heard : ∀ c ∈ tree.waits i, s.heard c = s.entered i)
    (told : 0 < i → s.sent i = s.entered i) (passes : Passes tree me i s after)
    (downCell : ∀ c, 0 < c → after.released c = after.passed c + (after.down c).toNat)
    (taken : ∀ c, s.down c = false → after.down c = false) : Good tree after := by
  obtain ⟨up, sent, heardSame, released, entered, started, passed, holder, releaser⟩ := passes
  have now := good.passed_of_held held
  have done := (good.nobody_releases held heard).2
  have mono := le_bump s.passed i
  constructor
  case upCell => rw [sent, heardSame, up]; exact good.upCell
  case downCell => exact downCell
  case unused =>
    rw [up]
    exact fun c outer => ⟨(good.unused c outer).1, taken c (good.unused c outer).2⟩
  case sent_le => rw [sent, entered]; exact good.sent_le
  case heard_le => rw [heardSame, entered]; exact good.heard_le
  case sent_le_heard => rw [sent, heardSame]; exact good.sent_le_heard
  case passed_le_sent =>
    rw [passed, sent]
    intro j inner
    by_cases same : j = i
    · subst same
      rw [bump_self, told inner]
      omega
    · rw [bump_of_ne _ same]
      exact good.passed_le_sent j inner
  case passed_le_heard =>
    rw [passed, heardSame]
    intro j d member
    by_cases same : j = i
    · subst same
      rw [bump_self, heard d member]
      omega
    · rw [bump_of_ne _ same]
      exact good.passed_le_heard j d member
  case released_le =>
    rw [passed, released]
    intro j d member
    exact (good.released_le j d member).trans (mono j)
  case passed_le =>
    rw [passed, entered]
    intro j
    by_cases same : j = i
    · subst same
      rw [bump_self]
      omega
    · rw [bump_of_ne _ same]
      exact good.passed_le j
  case entered_le =>
    rw [passed, entered]
    intro j
    exact (good.entered_le j).trans (Nat.add_le_add_right (mono j) 1)
  case held =>
    rw [passed, entered, holder]
    intro j
    by_cases same : j = i
    · subst same
      rw [bump_self, update_self]
      simp only [ne_eq, not_true_eq_false, false_iff, not_lt]
      omega
    · rw [bump_of_ne _ same, update_of_ne same]
      exact good.held j
  case releasing =>
    rw [passed, released, releaser]
    intro j
    by_cases same : j = i
    · subst same
      rw [bump_self, update_self]
      cases list : tree.releases j with
      | nil =>
        have never : ∀ c, c ∉ tree.waits j := by
          intro c member
          rw [← tree.mem_releases, list] at member
          cases member
        simp only [if_true, ne_eq, not_true_eq_false, false_iff]
        rintro ⟨c, member, _⟩
        exact never c member
      | cons c rest =>
        have member : c ∈ tree.waits j := (tree.mem_releases j c).mp (list ▸ List.mem_cons_self)
        refine iff_of_true (by simp) ⟨c, member, ?_⟩
        rw [done c member]
        omega
    · rw [bump_of_ne _ same, update_of_ne same]
      exact good.releasing j
  case holder_started =>
    rw [holder, started, entered]
    intro j t there
    by_cases same : j = i
    · subst same
      rw [update_self] at there
      cases there
    · rw [update_of_ne same] at there
      exact good.holder_started j t there
  case holder_once =>
    rw [holder]
    intro j k t one two
    by_cases first : j = i
    · subst first
      rw [update_self] at one
      cases one
    · by_cases second : k = i
      · subst second
        rw [update_self] at two
        cases two
      · rw [update_of_ne first] at one
        rw [update_of_ne second] at two
        exact good.holder_once j k t one two
  case behind => rw [entered, started]; exact good.behind

theorem own_passed (good : Good tree s) (small : i < b.size) (held : s.holder i = some me)
    (heard : ∀ c ∈ tree.waits i, s.heard c = s.entered i) (noLets : ∀ j, s.releaser j ≠ some me)
    (passes : Passes tree me i s after) :
    Own tree me after (.inside i ((tree.releases i).map .putDown)) := by
  obtain ⟨_, _, _, released, _, started, passed, holder, releaser⟩ := passes
  have now := good.passed_of_held held
  have mine := (good.holder_started i me held).1
  have done := (good.nobody_releases held heard).2
  refine ⟨?_, ?_, ?_⟩
  · refine .releasing _ small (List.suffix_refl _) ?_ ?_ ?_ ?_
    · rw [started, passed, bump_self]
      omega
    · intro c member
      rw [released, started, done c ((tree.mem_releases i c).mp member)]
      omega
    · intro c member absent
      exact absurd member absent
    · intro _
      rw [started, passed, bump_self]
      omega
  · intro j
    rw [holds_puts, holder]
    refine iff_of_false ?_ (by simp)
    by_cases same : j = i
    · subst same
      rw [update_self]
      simp
    · rw [update_of_ne same]
      intro there
      exact same (good.holder_once j i me there held)
  · intro j
    rw [lets_puts, releaser]
    by_cases same : j = i
    · subst same
      rw [update_self]
      cases tree.releases j with
      | nil => simp
      | cons c rest => simp
    · rw [update_of_ne same]
      refine iff_of_false (noLets j) ?_
      cases tree.releases i with
      | nil => simp
      | cons c rest => simpa using Ne.symm same

theorem steady_passed (good : Good tree s) (held : s.holder i = some me) (other : t ≠ me)
    (heard : ∀ c ∈ tree.waits i, s.heard c = s.entered i) (passes : Passes tree me i s after) :
    Steady tree t s after := by
  obtain ⟨_, sent, heardSame, released, entered, started, passed, holder, releaser⟩ := passes
  have noLets := (good.nobody_releases held heard).1
  refine ⟨by rw [started], ?_, ?_, fun j => by rw [entered], fun j => by rw [passed]; exact le_bump ..,
    fun j => by rw [released], ?_, ?_⟩
  · intro j
    rw [holder]
    by_cases same : j = i
    · subst same
      rw [update_self, held]
      exact iff_of_false (by simp) (fun eq => other (Option.some.inj eq).symm)
    · rw [update_of_ne same]
  · intro j
    rw [releaser]
    by_cases same : j = i
    · subst same
      rw [update_self, noLets]
      refine iff_of_false ?_ (by simp)
      cases tree.releases j with
      | nil => simp
      | cons c rest => simpa using other.symm
    · rw [update_of_ne same]
  · intro j _
    rw [entered, sent, heardSame]
    exact ⟨rfl, rfl, fun _ _ => rfl⟩
  · intro j theirs
    rw [passed, released]
    refine ⟨bump_of_ne _ ?_, fun _ _ => rfl⟩
    rintro rfl
    rw [noLets] at theirs
    cases theirs

theorem moved_passed (good : Good tree s) (small : i < b.size) (held : s.holder i = some me)
    (heard : ∀ c ∈ tree.waits i, s.heard c = s.entered i)
    (told : 0 < i → s.sent i = s.entered i) (noLets : ∀ j, s.releaser j ≠ some me)
    (passes : Passes tree me i s after)
    (downCell : ∀ c, 0 < c → after.released c = after.passed c + (after.down c).toNat)
    (taken : ∀ c, s.down c = false → after.down c = false) :
    Moved tree me s after (.inside i ((tree.releases i).map .putDown)) :=
  ⟨good.pass held heard told passes downCell taken, own_passed good small held heard noLets passes,
    fun _ other => steady_passed good held other heard passes⟩

theorem releaser_of_pass (free : s.releaser i = none) (rs : List Nat) :
    (if (rs.map CellOp.putDown).any CellOp.releases then some me else s.releaser i) =
      if rs = [] then none else some me := by
  rw [any_releases_puts, free]
  cases rs <;> simp

theorem passes_root (free : s.releaser i = none) :
    Passes tree me i s (s.pass me i ((tree.releases i).map .putDown)) where
  up := rfl
  sent := rfl
  heard := rfl
  released := rfl
  entered := rfl
  started := rfl
  passed := rfl
  holder := rfl
  releaser := congrArg (update s.releaser i) (releaser_of_pass free _)

theorem moved_root (good : Good tree s) (small : 0 < b.size) (held : s.holder 0 = some me)
    (heard : ∀ c ∈ tree.waits 0, s.heard c = s.entered 0) (noLets : ∀ j, s.releaser j ≠ some me) :
    Moved tree me s (s.pass me 0 ((tree.releases 0).map .putDown))
      (.inside 0 ((tree.releases 0).map .putDown)) := by
  refine moved_passed good small held heard (fun no => absurd no (lt_irrefl 0)) noLets
    (passes_root (good.nobody_releases held heard).1) ?_ (fun _ => id)
  intro c pos
  simp only [Cells.pass, bump_of_ne _ (Nat.ne_of_gt pos)]
  exact good.downCell c pos

theorem moved_takeDown (good : Good tree s) (pos : 0 < i) (small : i < b.size)
    (own : Own tree me s (.inside i (.takeDown i :: (tree.releases i).map .putDown)))
    (told : s.sent i = s.entered i) (full : s.down i = true) :
    Moved tree me s ((s.takeDown i).settle me i ((tree.releases i).map .putDown))
      (.inside i ((tree.releases i).map .putDown)) := by
  have held : s.holder i = some me := (own.holds i).mpr (by simp [Place.holds, CellOp.waits])
  have noLets : ∀ j, s.releaser j ≠ some me := by
    intro j mine
    rw [own.lets j] at mine
    simp [Place.lets, CellOp.waits] at mine
  have heard : ∀ c ∈ tree.waits i, s.heard c = s.entered i := by
    intro c member
    have sent := good.sent_le_heard i c member
    have upper := good.heard_le i c member
    omega
  have free := (good.nobody_releases held heard).1
  have settled : (s.takeDown i).settle me i ((tree.releases i).map .putDown) =
      (s.takeDown i).pass me i ((tree.releases i).map .putDown) := by
    rw [Cells.settle, any_waits_puts, if_neg (by simp)]
  rw [settled]
  have passes : Passes tree me i s ((s.takeDown i).pass me i ((tree.releases i).map .putDown)) :=
    ⟨rfl, rfl, rfl, rfl, rfl, rfl, rfl, rfl,
      congrArg (update s.releaser i) (releaser_of_pass free _)⟩
  refine moved_passed good small held heard (fun _ => told) noLets passes ?_ ?_
  · intro c inner
    have cell := good.downCell c inner
    by_cases same : c = i
    · subst same
      simp only [Cells.pass, Cells.takeDown, bump_self, update_self, Bool.toNat_false]
      rw [full] at cell
      exact cell
    · simp only [Cells.pass, Cells.takeDown, bump_of_ne _ same, update_of_ne same]
      exact cell
  · intro c empty
    by_cases same : c = i
    · subst same
      simp only [Cells.pass, Cells.takeDown, update_self]
    · simp only [Cells.pass, Cells.takeDown, update_of_ne same]
      exact empty

theorem moved_putDown (good : Good tree s) {rs : List Nat} (small : i < b.size)
    (inside : c :: rs <:+ tree.releases i)
    (own : Own tree me s (.inside i ((c :: rs).map .putDown)))
    (ahead : ∀ d ∈ c :: rs, s.released d + 1 = s.started me)
    (behind : ∀ d ∈ tree.releases i, d ∉ c :: rs → s.started me ≤ s.released d)
    (now : s.passed i = s.started me) (empty : s.down c = false) :
    Moved tree me s (s.putDown i c (rs.map .putDown)) (.inside i (rs.map .putDown)) := by
  have child : c ∈ tree.waits i := (tree.mem_releases i c).mp (inside.subset List.mem_cons_self)
  obtain ⟨cPos, cSmall, _, only⟩ := tree.child_of child
  have once := inside.sublist.nodup (tree.releasesOnce i)
  rw [List.nodup_cons] at once
  have mine : s.releaser i = some me := by
    refine (own.lets i).mpr ?_
    rw [lets_puts, if_neg (by simp)]
  have noHold : ∀ j, s.holder j ≠ some me := by
    intro j held
    rw [own.holds j, holds_puts] at held
    cases held
  have cAhead := ahead c List.mem_cons_self
  have cell := good.downCell c cPos
  rw [empty] at cell
  have mono := le_bump s.released c
  have others : ∀ d ∈ rs, d ≠ c := by
    rintro d member rfl
    exact once.1 member
  refine ⟨?_, ⟨?_, ?_, ?_⟩, ?_⟩
  · refine ⟨good.upCell, ?_, ?_, good.sent_le, good.heard_le, good.sent_le_heard,
      good.passed_le_sent, good.passed_le_heard, ?_, good.passed_le, good.entered_le, good.held, ?_,
      good.holder_started, good.holder_once, good.behind⟩
    · intro d inner
      by_cases same : d = c
      · subst same
        simp only [Cells.putDown, bump_self, update_self, Bool.toNat_true]
        rw [cell]
        rfl
      · simp only [Cells.putDown, bump_of_ne _ same, update_of_ne same]
        exact good.downCell d inner
    · intro d outer
      have differ : d ≠ c := by omega
      simp only [Cells.putDown, update_of_ne differ]
      exact good.unused d outer
    · intro j d member
      by_cases same : d = c
      · subst same
        cases only j member
        simp only [Cells.putDown, bump_self]
        omega
      · simp only [Cells.putDown, bump_of_ne _ same]
        exact good.released_le j d member
    · intro j
      by_cases same : j = i
      · subst same
        simp only [Cells.putDown, update_self, any_releases_puts, mine]
        cases rs with
        | nil =>
          refine iff_of_false (by simp) ?_
          rintro ⟨d, member, less⟩
          by_cases same : d = c
          · subst same
            rw [bump_self] at less
            omega
          · rw [bump_of_ne _ same] at less
            have later := behind d ((tree.mem_releases j d).mpr member) (by simpa using same)
            omega
        | cons d rs =>
          refine iff_of_true (by simp) ⟨d, ?_, ?_⟩
          · exact (tree.mem_releases j d).mp
              (inside.subset (List.mem_cons_of_mem c List.mem_cons_self))
          · rw [bump_of_ne _ (others d List.mem_cons_self)]
            have later := ahead d (List.mem_cons_of_mem c List.mem_cons_self)
            omega
      · simp only [Cells.putDown, update_of_ne same]
        rw [good.releasing j]
        refine exists_congr fun d => and_congr_right fun member => ?_
        have differ : d ≠ c := by
          rintro rfl
          exact same (only j member)
        rw [bump_of_ne _ differ]
  · refine .releasing rs small ((List.suffix_cons c rs).trans inside) (le_of_eq now.symm) ?_ ?_
      (fun _ => now)
    · intro d member
      simp only [Cells.putDown, bump_of_ne _ (others d member)]
      exact ahead d (List.mem_cons_of_mem c member)
    · intro d member absent
      by_cases same : d = c
      · subst same
        simp only [Cells.putDown, bump_self]
        exact le_of_eq cAhead.symm
      · simp only [Cells.putDown, bump_of_ne _ same]
        exact behind d member (by simp [same, absent])
  · intro j
    rw [holds_puts]
    exact iff_of_false (noHold j) (by simp)
  · intro j
    rw [lets_puts]
    by_cases same : j = i
    · subst same
      simp only [Cells.putDown, update_self, any_releases_puts, mine]
      cases rs <;> simp
    · simp only [Cells.putDown, update_of_ne same]
      rw [own.lets j, lets_puts, if_neg (by simp)]
      refine iff_of_false (fun eq => same (Option.some.inj eq).symm) ?_
      cases rs with
      | nil => simp
      | cons d rs => simpa using Ne.symm same
  · intro t other
    refine ⟨rfl, fun _ => .rfl, ?_, fun _ => le_refl _, fun _ => le_refl _, mono,
      fun _ _ => ⟨rfl, rfl, fun _ _ => rfl⟩, ?_⟩
    · intro j
      by_cases same : j = i
      · subst same
        simp only [Cells.putDown, update_self, mine]
        refine iff_of_false ?_ (fun eq => other (Option.some.inj eq).symm)
        cases (rs.map CellOp.putDown).any CellOp.releases with
        | true => exact fun eq => other (Option.some.inj eq).symm
        | false => simp
      · simp only [Cells.putDown, update_of_ne same]
    · intro j theirs
      refine ⟨rfl, fun d member => bump_of_ne _ ?_⟩
      rintro rfl
      cases only j member
      rw [mine] at theirs
      exact other (Option.some.inj theirs).symm

theorem moved_leave (good : Good tree s) (own : Own tree me s (.inside i [])) :
    Moved tree me s s .outside := by
  refine ⟨good, ⟨?_, ?_, ?_⟩, fun t _ => ⟨rfl, fun _ => .rfl, fun _ => .rfl, fun _ => le_refl _,
    fun _ => le_refl _, fun _ => le_refl _, fun _ _ => ⟨rfl, rfl, fun _ _ => rfl⟩,
    fun _ _ => ⟨rfl, fun _ _ => rfl⟩⟩⟩
  · have here := own.here
    generalize there : Place.inside i [] = place at here
    cases here with
    | outside came => cases there
    | @waiting j ws small inside nonempty ahead behind told =>
      have busy : (ws.map CellOp.takeUp ++ tellAndWait j ++
          (tree.releases j).map CellOp.putDown).any CellOp.waits = true := any_waits_waiting nonempty
      obtain ⟨_, list⟩ := Place.inside.inj there
      rw [← list] at busy
      cases busy
    | waitingDown pos small told => cases there
    | @releasing j rs small inside passed ahead behind now =>
      refine .outside fun k among => ?_
      exact passed.trans (good.passed_le_entered small among)
  · exact own.holds
  · exact own.lets

section

variable (good : Good tree s) (small : i < b.size) (among : me < b.size) (free : s.holder i = none)
include good small among free

theorem Good.started_eq (came : ∀ j, j < b.size → s.started me ≤ s.entered j) :
    s.started me = s.entered i := by
  obtain ⟨j, jSmall, lower⟩ := good.behind me among
  have passed := good.passed_of_free free
  have everybody := good.passed_le_entered small jSmall
  have upper := came i small
  omega

theorem Good.behind_enter (due : s.started me = s.entered i) (t : Nat)
    (tSmall : t < b.size) : ∃ j, j < b.size ∧ bump s.entered i j ≤ bump s.started me t := by
  by_cases mine : t = me
  · subst mine
    refine ⟨i, small, ?_⟩
    rw [bump_self, bump_self, due]
  · rw [bump_of_ne _ mine]
    by_contra absent
    push Not at absent
    obtain ⟨j, jSmall, lower⟩ := good.behind t tSmall
    have least : s.entered i = s.started t := by
      have later := absent j jSmall
      by_cases same : j = i
      · subst same
        rw [bump_self] at later
        omega
      · rw [bump_of_ne _ same] at later
        omega
    have passed := good.passed_of_free free
    have busy : ∀ k, k < b.size → k ≠ i → ∃ u, s.holder k = some u ∧ u < b.size ∧
        s.entered i < s.started u := by
      intro k kSmall differ
      have later := absent k kSmall
      rw [bump_of_ne _ differ] at later
      have due := good.passed_le_entered kSmall small
      have held : s.holder k ≠ .none := (good.held k).mpr (by omega)
      obtain ⟨u, holder⟩ := Option.ne_none_iff_exists'.mp held
      have whose := good.holder_started k u holder
      exact ⟨u, holder, whose.2, by omega⟩
    have pigeons : ((Finset.range b.size).erase me |>.erase t).card <
        ((Finset.range b.size).erase i).card := by
      have there : t ∈ (Finset.range b.size).erase me :=
        Finset.mem_erase.mpr ⟨mine, Finset.mem_range.mpr tSmall⟩
      have two := Finset.card_erase_add_one there
      have one := Finset.card_erase_add_one (Finset.mem_range.mpr among)
      have whole := Finset.card_erase_add_one (Finset.mem_range.mpr small)
      omega
    obtain ⟨k, kIn, l, lIn, differ, same⟩ := Finset.exists_ne_map_eq_of_card_lt_of_maps_to pigeons
      (f := fun k => (s.holder k).getD 0) (by
        intro k kIn
        have kIn' := Finset.mem_erase.mp kIn
        obtain ⟨u, holder, uSmall, more⟩ := busy k (Finset.mem_range.mp kIn'.2) kIn'.1
        simp only [holder, Option.getD_some]
        refine Finset.mem_erase.mpr ⟨?_, Finset.mem_erase.mpr ⟨?_, Finset.mem_range.mpr uSmall⟩⟩
        · rintro rfl
          omega
        · rintro rfl
          omega)
    have kIn' := Finset.mem_erase.mp kIn
    have lIn' := Finset.mem_erase.mp lIn
    obtain ⟨u, uHolds, _⟩ := busy k (Finset.mem_range.mp kIn'.2) kIn'.1
    obtain ⟨v, vHolds, _⟩ := busy l (Finset.mem_range.mp lIn'.2) lIn'.1
    simp only [uHolds, vHolds, Option.getD_some] at same
    subst same
    exact differ (good.holder_once k l u uHolds vHolds)

theorem Good.enter (due : s.started me = s.entered i)
    (noHold : ∀ j, s.holder j ≠ some me) (ticket : Nat) : Good tree (s.enter me i ticket) := by
  have passed := good.passed_of_free free
  have mono := le_bump s.entered i
  constructor
  case upCell => exact good.upCell
  case downCell => exact good.downCell
  case unused => exact good.unused
  case sent_le => exact fun j => (good.sent_le j).trans (mono j)
  case heard_le => exact fun j c member => (good.heard_le j c member).trans (mono j)
  case sent_le_heard => exact good.sent_le_heard
  case passed_le_sent => exact good.passed_le_sent
  case passed_le_heard => exact good.passed_le_heard
  case released_le => exact good.released_le
  case passed_le => exact fun j => (good.passed_le j).trans (mono j)
  case entered_le =>
    intro j
    by_cases same : j = i
    · subst same
      simp only [Cells.enter, bump_self]
      omega
    · simp only [Cells.enter, bump_of_ne _ same]
      exact good.entered_le j
  case held =>
    intro j
    by_cases same : j = i
    · subst same
      simp only [Cells.enter, bump_self, update_self]
      exact iff_of_true (by simp) (by omega)
    · simp only [Cells.enter, bump_of_ne _ same, update_of_ne same]
      exact good.held j
  case releasing => exact good.releasing
  case holder_started =>
    intro j t there
    by_cases same : j = i
    · subst same
      simp only [Cells.enter, update_self, Option.some.injEq] at there
      subst there
      simp only [Cells.enter, bump_self]
      exact ⟨by omega, among⟩
    · simp only [Cells.enter, update_of_ne same] at there
      have other : t ≠ me := by
        rintro rfl
        exact noHold j there
      simp only [Cells.enter, bump_of_ne _ same, bump_of_ne _ other]
      exact good.holder_started j t there
  case holder_once =>
    intro j k t one two
    simp only [Cells.enter] at one two
    by_cases first : j = i
    · subst first
      rw [update_self] at one
      by_cases second : k = j
      · exact second.symm
      · rw [update_of_ne second, ← one] at two
        exact absurd two (noHold k)
    · rw [update_of_ne first] at one
      by_cases second : k = i
      · subst second
        rw [update_self] at two
        rw [← two] at one
        exact absurd one (noHold j)
      · rw [update_of_ne second] at two
        exact good.holder_once j k t one two
  case behind => exact fun t tSmall => good.behind_enter small among free due t tSmall

end

theorem steady_enter (free : s.holder i = none) (other : t ≠ me) (ticket : Nat) :
    Steady tree t s (s.enter me i ticket) := by
  refine ⟨bump_of_ne _ other, ?_, fun _ => .rfl, le_bump s.entered i, fun _ => le_refl _,
    fun _ => le_refl _, ?_, fun _ _ => ⟨rfl, fun _ _ => rfl⟩⟩
  · intro j
    by_cases same : j = i
    · subst same
      simp only [Cells.enter, update_self, free]
      exact iff_of_false (fun eq => other (Option.some.inj eq).symm) (by simp)
    · simp only [Cells.enter, update_of_ne same]
  · intro j theirs
    refine ⟨bump_of_ne _ ?_, rfl, fun _ _ => rfl⟩
    rintro rfl
    rw [free] at theirs
    cases theirs

theorem Steady.trans {middle : Cells} (one : Steady tree t s middle) (two : Steady tree t middle after) :
    Steady tree t s after := by
  refine ⟨two.started.trans one.started, fun j => (two.holder j).trans (one.holder j),
    fun j => (two.releaser j).trans (one.releaser j),
    fun j => (one.entered_le j).trans (two.entered_le j),
    fun j => (one.passed_le j).trans (two.passed_le j),
    fun j => (one.released_le j).trans (two.released_le j), ?_, ?_⟩
  · intro j mine
    obtain ⟨entered, sent, heard⟩ := one.waiting j mine
    obtain ⟨entered', sent', heard'⟩ := two.waiting j ((one.holder j).mpr mine)
    exact ⟨entered'.trans entered, sent'.trans sent, fun c member => (heard' c member).trans (heard c member)⟩
  · intro j mine
    obtain ⟨passed, released⟩ := one.letting j mine
    obtain ⟨passed', released'⟩ := two.letting j ((one.releaser j).mpr mine)
    exact ⟨passed'.trans passed, fun c member => (released' c member).trans (released c member)⟩

theorem moved_enter (good : Good tree s) (small : i < b.size) (among : me < b.size)
    (own : Own tree me s .outside) (free : s.holder i = none) (ticket : Nat) :
    Moved tree me s ((s.enter me i ticket).settle me i (b.program i)) (.inside i (b.program i)) := by
  have noHold : ∀ j, s.holder j ≠ some me := by
    intro j mine
    rw [own.holds j] at mine
    cases mine
  have noLets : ∀ j, s.releaser j ≠ some me := by
    intro j mine
    rw [own.lets j] at mine
    cases mine
  have came : ∀ j, j < b.size → s.started me ≤ s.entered j := by
    cases own.here with
    | outside came => exact came
  have due := good.started_eq small among free came
  have passed := good.passed_of_free free
  have entered : Good tree (s.enter me i ticket) := good.enter small among free due noHold ticket
  have now : (s.enter me i ticket).entered i = s.entered i + 1 := bump_self ..
  have ahead : ∀ c ∈ tree.waits i, s.heard c + 1 = (s.enter me i ticket).entered i := by
    intro c member
    have lower := good.passed_le_heard i c member
    have upper := good.heard_le i c member
    omega
  have shape : b.program i =
      (tree.waits i).map .takeUp ++ tellAndWait i ++ (tree.releases i).map .putDown :=
    tree.program i small
  rw [shape]
  by_cases nonempty : i = 0 → tree.waits i ≠ []
  · rw [Cells.settle, any_waits_waiting nonempty, if_pos rfl]
    refine ⟨entered, ⟨?_, ?_, ?_⟩, fun t other => steady_enter free other ticket⟩
    · refine .waiting _ small (List.suffix_refl _) nonempty ahead ?_ ?_
      · intro c member absent
        exact absurd member absent
      · intro pos
        have lower := good.passed_le_sent i pos
        have upper := good.sent_le i
        have same : (s.enter me i ticket).sent i = s.sent i := rfl
        omega
    · intro j
      rw [holds_waiting nonempty]
      by_cases same : j = i
      · subst same
        simp [Cells.enter]
      · simp only [Cells.enter, update_of_ne same]
        exact iff_of_false (noHold j) (fun eq => same (Option.some.inj eq).symm)
    · intro j
      rw [lets_waiting nonempty]
      exact iff_of_false (noLets j) (by simp)
  · push Not at nonempty
    obtain ⟨rfl, empty⟩ := nonempty
    have ops : (tree.waits 0).map CellOp.takeUp ++ tellAndWait 0 ++ (tree.releases 0).map .putDown =
        (tree.releases 0).map .putDown := by
      rw [empty]
      rfl
    have childless : ∀ c ∈ tree.waits 0, (s.enter me 0 ticket).heard c = (s.enter me 0 ticket).entered 0 := by
      intro c member
      rw [empty] at member
      cases member
    rw [ops, Cells.settle, any_waits_puts, if_neg (by simp)]
    have held : (s.enter me 0 ticket).holder 0 = .some me := by simp [Cells.enter]
    have moved := moved_root entered small held childless noLets
    exact ⟨moved.good, moved.own,
      fun t other => (steady_enter free other ticket).trans (moved.steady t other)⟩

theorem moved_takeUp (good : Good tree s) {ws : List Nat} (small : i < b.size)
    (inside : c :: ws <:+ tree.waits i)
    (own : Own tree me s
      (.inside i ((c :: ws).map .takeUp ++ tellAndWait i ++ (tree.releases i).map .putDown)))
    (ahead : ∀ d ∈ c :: ws, s.heard d + 1 = s.entered i)
    (behind : ∀ d ∈ tree.waits i, d ∉ c :: ws → s.heard d = s.entered i)
    (told : 0 < i → s.sent i + 1 = s.entered i) (full : s.up c = true) :
    Moved tree me s ((s.takeUp c).settle me i
        (ws.map .takeUp ++ tellAndWait i ++ (tree.releases i).map .putDown))
      (.inside i (ws.map .takeUp ++ tellAndWait i ++ (tree.releases i).map .putDown)) := by
  have child : c ∈ tree.waits i := inside.subset List.mem_cons_self
  have held : s.holder i = some me := (own.holds i).mpr (holds_waiting (by simp))
  have kept := good.takeUp child full (ahead c List.mem_cons_self)
  have noLets : ∀ j, s.releaser j ≠ some me := by
    intro j mine
    rw [own.lets j, lets_waiting (by simp)] at mine
    cases mine
  by_cases nonempty : i = 0 → ws ≠ []
  · rw [Cells.settle, any_waits_waiting nonempty, if_pos rfl]
    refine ⟨kept, ⟨at_takeUp small inside ahead behind told nonempty, ?_, ?_⟩,
      fun t other => steady_takeUp child held other⟩
    · intro j
      have before := own.holds j
      rw [holds_waiting (by simp)] at before
      rw [holds_waiting nonempty]
      exact before
    · intro j
      rw [lets_waiting nonempty]
      exact iff_of_false (noLets j) (by simp)
  · push Not at nonempty
    obtain ⟨rfl, rfl⟩ := nonempty
    have ops : ([] : List Nat).map CellOp.takeUp ++ tellAndWait 0 ++ (tree.releases 0).map .putDown =
        (tree.releases 0).map .putDown := rfl
    have heard : ∀ d ∈ tree.waits 0, (s.takeUp c).heard d = (s.takeUp c).entered 0 := by
      intro d member
      by_cases same : d = c
      · subst same
        simp only [Cells.takeUp, bump_self]
        exact ahead d List.mem_cons_self
      · simp only [Cells.takeUp, bump_of_ne _ same]
        exact behind d member (by simpa using same)
    rw [ops, Cells.settle, any_waits_puts, if_neg (by simp)]
    have moved := moved_root kept small held heard noLets
    exact ⟨moved.good, moved.own,
      fun t other => (steady_takeUp child held other).trans (moved.steady t other)⟩

/-- The steps of a task, where a call is begun with a number that nobody waits with. -/
def CalmAct (b : CellBarrier) (me : Nat) (s : Cells) (place : Place) (label : CellLabel)
    (after : Cells) (next : Place) : Prop :=
  (label = .enter → s.holder (b.assign me s.ticket) = none) ∧ b.Act me s place label after next

theorem At.inv {op : CellOp} {rest : List CellOp} (here : At tree t s (.inside i (op :: rest))) :
    i < b.size ∧
      ((∃ c ws, op = .takeUp c ∧
          rest = ws.map .takeUp ++ tellAndWait i ++ (tree.releases i).map .putDown ∧
          c :: ws <:+ tree.waits i ∧ (∀ d ∈ c :: ws, s.heard d + 1 = s.entered i) ∧
          (∀ d ∈ tree.waits i, d ∉ c :: ws → s.heard d = s.entered i) ∧
          (0 < i → s.sent i + 1 = s.entered i)) ∨
        (op = .putUp i ∧ rest = .takeDown i :: (tree.releases i).map .putDown ∧ 0 < i ∧
          (∀ c ∈ tree.waits i, s.heard c = s.entered i) ∧ s.sent i + 1 = s.entered i) ∨
        (op = .takeDown i ∧ rest = (tree.releases i).map .putDown ∧ 0 < i ∧
          s.sent i = s.entered i) ∨
        ∃ c rs, op = .putDown c ∧ rest = rs.map .putDown ∧ c :: rs <:+ tree.releases i ∧
          (∀ d ∈ c :: rs, s.released d + 1 = s.started t) ∧
          (∀ d ∈ tree.releases i, d ∉ c :: rs → s.started t ≤ s.released d) ∧
          s.passed i = s.started t) := by
  generalize there : Place.inside i (op :: rest) = place at here
  cases here with
  | outside came => cases there
  | @waiting j ws small inside nonempty ahead behind told =>
    cases ws with
    | nil =>
      have inner : j ≠ 0 := fun root => nonempty root rfl
      have pos : 0 < j := Nat.pos_of_ne_zero inner
      rw [tellAndWait, if_neg inner] at there
      cases there
      exact ⟨small, .inr (.inl ⟨rfl, rfl, pos, fun c member => behind c member List.not_mem_nil,
        told pos⟩)⟩
    | cons c ws =>
      cases there
      exact ⟨small, .inl ⟨c, ws, rfl, rfl, inside, ahead, behind, told⟩⟩
  | waitingDown pos small told =>
    cases there
    exact ⟨small, .inr (.inr (.inl ⟨rfl, rfl, pos, told⟩))⟩
  | releasing rs small inside passed ahead behind now =>
    cases rs with
    | nil => cases there
    | cons c rs =>
      cases there
      exact ⟨small, .inr (.inr (.inr ⟨c, rs, rfl, rfl, inside, ahead, behind, now (by simp)⟩))⟩

theorem moved {label : CellLabel} (good : Good tree s) (own : Own tree me s place)
    (acted : CalmAct b me s place label after next) : Moved tree me s after next := by
  obtain ⟨calm, acted⟩ := acted
  cases acted with
  | enter among => exact moved_enter good (tree.assign_lt me _ among) among own (calm rfl) _
  | takeUp full =>
    obtain ⟨small, ⟨c, ws, same, rfl, inside, ahead, behind, told⟩ | ⟨same, _⟩ | ⟨same, _⟩ |
      ⟨c, rs, same, _⟩⟩ := own.here.inv
    · cases same
      exact moved_takeUp good small inside own ahead behind told full
    all_goals cases same
  | putUp empty =>
    obtain ⟨small, ⟨c, ws, same, _⟩ | ⟨same, rfl, pos, heard, told⟩ | ⟨same, _⟩ | ⟨c, rs, same, _⟩⟩ :=
      own.here.inv
    · cases same
    · cases same
      exact moved_putUp good pos small own heard told empty
    all_goals cases same
  | takeDown full =>
    obtain ⟨small, ⟨c, ws, same, _⟩ | ⟨same, _⟩ | ⟨same, rfl, pos, told⟩ | ⟨c, rs, same, _⟩⟩ :=
      own.here.inv
    · cases same
    · cases same
    · cases same
      exact moved_takeDown good pos small own told full
    · cases same
  | putDown empty =>
    obtain ⟨small, ⟨c, ws, same, _⟩ | ⟨same, _⟩ | ⟨same, _⟩ |
      ⟨c, rs, same, rfl, inside, ahead, behind, now⟩⟩ := own.here.inv
    · cases same
    · cases same
    · cases same
    · cases same
      exact moved_putDown good small inside own ahead behind now empty
  | leave => exact moved_leave good own

theorem respects (tree : b.Tree) : Config.Respects (CalmAct b) (Good tree) (Own tree) where
  keeps := by
    intro me before after place next label good own acted
    exact ⟨(moved good own acted).good, (moved good own acted).own⟩
  stable := by
    intro me t before after place next theirs label other good own theirOwn acted
    exact theirOwn.stable ((moved good own acted).steady t other)

abbrev Invariant (tree : b.Tree) : System → Prop := Config.Holds (Good tree) (Own tree)

theorem invariant_start (tree : b.Tree) : Invariant tree start where
  shared := by
    constructor
    case held => exact fun i => iff_of_false (by simp [start, Cells.initial]) (lt_irrefl _)
    case releasing =>
      refine fun i => iff_of_false (by simp [start, Cells.initial]) ?_
      rintro ⟨c, _, less⟩
      exact lt_irrefl _ less
    case holder_started => exact fun i t there => by cases there
    case holder_once => exact fun i j t there => by cases there
    case behind => exact fun t small => ⟨t, small, le_refl _⟩
    case entered_le => exact fun i => Nat.zero_le _
    case upCell => exact fun c => rfl
    case downCell => exact fun c _ => rfl
    case unused => exact fun c _ => ⟨rfl, rfl⟩
    case sent_le => exact fun i => Nat.zero_le _
    case heard_le => exact fun i c _ => Nat.zero_le _
    case sent_le_heard => exact fun i c _ => Nat.zero_le _
    case passed_le_sent => exact fun i _ => Nat.zero_le _
    case passed_le_heard => exact fun i c _ => Nat.zero_le _
    case released_le => exact fun i c _ => Nat.zero_le _
    case passed_le => exact fun i => Nat.zero_le _
  tasks := by
    intro t
    exact ⟨.outside fun _ _ => le_refl _, fun i => iff_of_false (by simp [start, Cells.initial])
      (by simp [start, Place.holds]), fun i => iff_of_false (by simp [start, Cells.initial])
      (by simp [start, Place.lets])⟩

theorem holder_of_free {config : System} (holds : Invariant tree config) (free : Free config i) :
    config.shared.holder i = none := by
  cases holder : config.shared.holder i with
  | none => rfl
  | some t =>
    have held := ((holds.tasks t).holds i).mp holder
    cases here : config.tasks t with
    | outside =>
      rw [here] at held
      cases held
    | inside id ops =>
      rw [here, Place.holds] at held
      split_ifs at held with busy
      cases held
      rw [free t ops here] at busy
      cases busy

theorem invariant_step {before later : System} {label : Nat × CellLabel}
    (holds : Invariant tree before) (taken : Guarded b.Allowed b.Step before label later) :
    Invariant tree later := by
  obtain ⟨allowed, step⟩ := taken
  cases step with
  | @move me seen shared mine acted =>
    have calm : seen = .enter → before.shared.holder (b.assign me before.shared.ticket) = none := by
      rintro rfl
      exact holder_of_free holds allowed
    exact holds.step (respects tree) (.move ⟨calm, acted⟩)

theorem invariant_run {labels : List (Nat × CellLabel)} {last : System}
    (run : Run (Guarded b.Allowed b.Step) start labels last) : Invariant tree last :=
  run.preserves (fun _ _ _ holds taken => invariant_step holds taken) (invariant_start tree)

variable {config : System}

variable {ops : List CellOp}

theorem passed_of_no_wait (holds : Invariant tree config)
    (here : config.tasks t = .inside i ops) (done : ops.any CellOp.waits = false) :
    i < b.size ∧ config.shared.started t ≤ config.shared.passed i := by
  have place := (holds.tasks t).here
  rw [here] at place
  cases place with
  | waiting ws small inside nonempty ahead behind told =>
    rw [any_waits_waiting nonempty] at done
    cases done
  | waitingDown pos small told => simp [CellOp.waits] at done
  | releasing rs small inside passed ahead behind now => exact ⟨small, passed⟩

theorem everybody_started (holds : Invariant tree config)
    (here : config.tasks t = .outside ∨ ∃ id, config.tasks t = .inside id []) {u : Nat}
    (among : u < b.size) : config.shared.started t ≤ config.shared.started u := by
  obtain ⟨j, small, lower⟩ := holds.shared.behind u among
  rcases here with out | ⟨id, through⟩
  · have place := (holds.tasks t).here
    rw [out] at place
    cases place with
    | outside came => exact (came j small).trans lower
  · obtain ⟨idSmall, passed⟩ := passed_of_no_wait holds through rfl
    exact (passed.trans (holds.shared.passed_le_entered idSmall small)).trans lower

theorem empty_of_outside (holds : Invariant tree config) (out : ∀ t, config.tasks t = .outside)
    (c : Nat) : config.shared.up c = false ∧ config.shared.down c = false := by
  have good := holds.shared
  by_cases outer : c = 0 ∨ b.size ≤ c
  · exact good.unused c outer
  · push Not at outer
    have pos : 0 < c := Nat.pos_of_ne_zero outer.1
    have free : ∀ i, config.shared.holder i = none := by
      intro i
      cases holder : config.shared.holder i with
      | none => rfl
      | some t =>
        have held := ((holds.tasks t).holds i).mp holder
        rw [out t] at held
        cases held
    have child := tree.mem_parent pos outer.2
    have below := tree.parent_lt c pos outer.2
    have idle : config.shared.releaser (tree.parent c) = none := by
      cases releaser : config.shared.releaser (tree.parent c) with
      | none => rfl
      | some t =>
        have lets := ((holds.tasks t).lets _).mp releaser
        rw [out t] at lets
        cases lets
    have released : ¬ config.shared.released c < config.shared.passed (tree.parent c) :=
      fun less => (good.releasing _).mpr ⟨c, child, less⟩ idle
    have mine := good.passed_of_free (free c)
    have above := good.passed_of_free (free (tree.parent c))
    have one := good.passed_le_entered outer.2 (j := tree.parent c) (by omega)
    have two := good.passed_le_entered (i := tree.parent c) (by omega) outer.2
    have sent := good.passed_le_sent c pos
    have sentUpper := good.sent_le c
    have heard := good.passed_le_heard _ c child
    have heardUpper := good.heard_le _ c child
    have upper := good.released_le _ c child
    have upCell := good.upCell c
    have downCell := good.downCell c pos
    constructor
    · cases full : config.shared.up c with
      | false => rfl
      | true =>
        rw [full, Bool.toNat_true] at upCell
        omega
    · cases full : config.shared.down c with
      | false => rfl
      | true =>
        rw [full, Bool.toNat_true] at downCell
        omega

def CanMove (b : CellBarrier) (config : System) (t : Nat) : Prop :=
  ∃ id ops, config.tasks t = .inside id ops ∧
    ∃ label after next, b.Act t config.shared (.inside id ops) label after next

section

variable (holds : Invariant tree config)
include holds

theorem canMove_of_no_wait
    (here : config.tasks t = .inside i ops) (done : ops.any CellOp.waits = false) :
    CanMove b config t := by
  refine ⟨i, ops, here, ?_⟩
  have good := holds.shared
  cases ops with
  | nil => exact ⟨_, _, _, .leave⟩
  | cons op rest =>
    have place := (holds.tasks t).here
    rw [here] at place
    obtain ⟨small, ⟨c, ws, rfl, _⟩ | ⟨rfl, rfl, _⟩ | ⟨rfl, _⟩ |
      ⟨c, rs, rfl, rfl, inside, ahead, _, now⟩⟩ := place.inv
    · simp [CellOp.waits] at done
    · simp [CellOp.waits] at done
    · simp [CellOp.waits] at done
    · have child : c ∈ tree.waits i :=
        (tree.mem_releases i c).mp (inside.subset List.mem_cons_self)
      obtain ⟨pos, _⟩ := tree.child_of child
      have released := ahead c List.mem_cons_self
      have heard := good.passed_le_heard i c child
      have sent := good.heard_le_sent c
      have entered := good.sent_le c
      have passed := good.entered_le c
      have cell := good.downCell c pos
      have empty : config.shared.down c = false := by
        cases full : config.shared.down c with
        | false => rfl
        | true =>
          rw [full, Bool.toNat_true] at cell
          omega
      exact ⟨_, _, _, .putDown empty⟩

theorem blocked (stuck : ∀ t, ¬ CanMove b config t) (held : config.shared.holder i = some t) :
    (∃ c ∈ tree.waits i, config.shared.sent c + 1 = config.shared.entered i) ∨
      (0 < i ∧ config.shared.sent i = config.shared.entered i ∧ config.shared.down i = false) := by
  have good := holds.shared
  have waits := ((holds.tasks t).holds i).mp held
  have place := (holds.tasks t).here
  cases here : config.tasks t with
  | outside =>
    rw [here] at waits
    cases waits
  | inside id ops =>
    rw [here, Place.holds] at waits
    split_ifs at waits with busy
    cases waits
    rw [here] at place
    cases ops with
    | nil => cases busy
    | cons op rest =>
      obtain ⟨small, ⟨c, ws, rfl, rfl, inside, ahead, _⟩ | ⟨rfl, rfl, pos, _, told⟩ |
        ⟨rfl, rfl, pos, told⟩ | ⟨c, rs, rfl, rfl, _⟩⟩ := place.inv
      · have cell := good.upCell c
        have heard := ahead c List.mem_cons_self
        cases full : config.shared.up c with
        | true => exact absurd ⟨_, _, here, _, _, _, .takeUp full⟩ (stuck t)
        | false =>
          rw [full, Bool.toNat_false] at cell
          exact .inl ⟨c, inside.subset List.mem_cons_self, by omega⟩
      · have child := tree.mem_parent pos small
        have below := tree.parent_lt _ pos small
        have now := good.passed_of_held held
        have mine := good.passed_le_released pos
        have released := good.released_le _ _ child
        have heard := good.passed_le_heard _ _ child
        have cell := good.upCell i
        have empty : config.shared.up i = false := by
          cases full : config.shared.up i with
          | false => rfl
          | true =>
            rw [full, Bool.toNat_true] at cell
            omega
        exact absurd ⟨_, _, here, _, _, _, .putUp empty⟩ (stuck t)
      · cases full : config.shared.down i with
        | true => exact absurd ⟨_, _, here, _, _, _, .takeDown full⟩ (stuck t)
        | false => exact .inr ⟨pos, told, rfl⟩
      · rw [← List.map_cons, any_waits_puts] at busy
        cases busy

theorem everywhere_entered {k : Nat}
    (all : ∀ u, u < b.size → k ≤ config.shared.started u) (j : Nat) (small : j < b.size) :
    k ≤ config.shared.entered j := by
  have good := holds.shared
  by_contra late
  push Not at late
  have busy : ∀ u, u < b.size → ∃ id, config.shared.holder id = some u ∧ id < b.size ∧ id ≠ j := by
    intro u among
    have place := (holds.tasks u).here
    have due := all u among
    cases here : config.tasks u with
    | outside =>
      rw [here] at place
      cases place with
      | outside came =>
        have upper := came j small
        omega
    | inside id ops =>
      cases waits : ops.any CellOp.waits with
      | false =>
        obtain ⟨idSmall, passed⟩ := passed_of_no_wait holds here waits
        have upper := good.passed_le_entered idSmall small
        omega
      | true =>
        have held : config.shared.holder id = some u :=
          ((holds.tasks u).holds id).mpr (by rw [here, Place.holds, waits, if_pos rfl])
        have mine := (good.holder_started id u held).1
        refine ⟨id, held, ?_, ?_⟩
        · rw [here] at place
          cases ops with
          | nil => cases waits
          | cons op rest => exact place.inv.1
        · rintro rfl
          omega
  have pigeons : ((Finset.range b.size).erase j).card < (Finset.range b.size).card :=
    Finset.card_erase_lt_of_mem (Finset.mem_range.mpr small)
  obtain ⟨u, uIn, v, vIn, differ, same⟩ := Finset.exists_ne_map_eq_of_card_lt_of_maps_to pigeons
    (f := fun u => (config.tasks u).holds.getD 0) (by
      intro u uIn
      obtain ⟨id, held, idSmall, apart⟩ := busy u (Finset.mem_range.mp uIn)
      simp only [((holds.tasks u).holds id).mp held, Option.getD_some]
      exact Finset.mem_erase.mpr ⟨apart, Finset.mem_range.mpr idSmall⟩)
  obtain ⟨id, held, _⟩ := busy u (Finset.mem_range.mp uIn)
  obtain ⟨id', held', _⟩ := busy v (Finset.mem_range.mp vIn)
  simp only [((holds.tasks u).holds id).mp held, ((holds.tasks v).holds id').mp held',
    Option.getD_some] at same
  subst same
  rw [held] at held'
  exact differ (Option.some.inj held')

theorem everybody_told (stuck : ∀ t, ¬ CanMove b config t) {k : Nat}
    (entered : ∀ j, j < b.size → k ≤ config.shared.entered j) (rank : Nat) :
    ∀ i, i < b.size → b.size - i ≤ rank → 0 < i → k ≤ config.shared.sent i := by
  have good := holds.shared
  induction rank with
  | zero =>
    intro i small far
    omega
  | succ rank ih =>
    intro i small far pos
    have due := entered i small
    have sent := good.passed_le_sent i pos
    cases holder : config.shared.holder i with
    | none =>
      have passed := good.passed_of_free holder
      omega
    | some t =>
      have passed := good.passed_of_held holder
      rcases blocked holds stuck holder with ⟨c, child, behind⟩ | ⟨_, told, _⟩
      · obtain ⟨cPos, cSmall, above, _⟩ := tree.child_of child
        have later := ih c cSmall (by omega) cPos
        omega
      · omega

theorem everybody_passed (stuck : ∀ t, ¬ CanMove b config t) {k : Nat}
    (entered : ∀ j, j < b.size → k ≤ config.shared.entered j) (i : Nat) (small : i < b.size) :
    k ≤ config.shared.passed i := by
  have good := holds.shared
  have told : ∀ c, c < b.size → 0 < c → k ≤ config.shared.sent c :=
    fun c cSmall => everybody_told holds stuck entered b.size c cSmall (by omega)
  induction i using Nat.strong_induction_on with
  | _ i ih =>
    have due := entered i small
    cases holder : config.shared.holder i with
    | none =>
      have passed := good.passed_of_free holder
      omega
    | some t =>
      have passed := good.passed_of_held holder
      rcases blocked holds stuck holder with ⟨c, child, behind⟩ | ⟨pos, sent, empty⟩
      · obtain ⟨cPos, cSmall, _⟩ := tree.child_of child
        have heard := told c cSmall cPos
        omega
      · by_contra late
        have child := tree.mem_parent pos small
        have below := tree.parent_lt i pos small
        have above := ih (tree.parent i) below (by omega)
        have cell := good.downCell i pos
        rw [empty, Bool.toNat_false] at cell
        have busy : config.shared.releaser (tree.parent i) ≠ none :=
          (good.releasing _).mpr ⟨i, child, by omega⟩
        obtain ⟨u, releaser⟩ := Option.ne_none_iff_exists'.mp busy
        have lets := ((holds.tasks u).lets _).mp releaser
        cases here : config.tasks u with
        | outside =>
          rw [here] at lets
          cases lets
        | inside id ops =>
          cases waits : ops.any CellOp.waits with
          | false => exact stuck u (canMove_of_no_wait holds here waits)
          | true =>
            rw [here, Place.lets, waits, if_pos rfl] at lets
            cases lets

theorem canMove_of_all_started (here : config.tasks t = .inside i ops)
    (all : ∀ u, u < b.size → config.shared.started t ≤ config.shared.started u) :
    ∃ u, CanMove b config u := by
  by_contra absent
  push Not at absent
  have good := holds.shared
  cases waits : ops.any CellOp.waits with
  | false => exact absent t (canMove_of_no_wait holds here waits)
  | true =>
    have held : config.shared.holder i = some t :=
      ((holds.tasks t).holds i).mpr (by rw [here, Place.holds, waits, if_pos rfl])
    have small : i < b.size := by
      have place := (holds.tasks t).here
      rw [here] at place
      cases ops with
      | nil => cases waits
      | cons op rest => exact place.inv.1
    have through := everybody_passed holds absent (everywhere_entered holds all) i small
    have mine := (good.holder_started i t held).1
    have now := good.passed_of_held held
    omega

theorem not_stuck (here : config.tasks t = .inside i ops) :
    (∃ u, CanMove b config u) ∨ ∃ u, u < b.size ∧ config.tasks u = .outside ∧
      config.shared.started u < config.shared.started t := by
  induction count : config.shared.started t using Nat.strong_induction_on generalizing t i ops with
  | _ k ih =>
    by_cases all : ∀ u, u < b.size → config.shared.started t ≤ config.shared.started u
    · exact .inl (canMove_of_all_started holds here all)
    · push Not at all
      obtain ⟨u, among, late⟩ := all
      cases there : config.tasks u with
      | outside => exact .inr ⟨u, among, there, by omega⟩
      | inside id ops' =>
        rcases ih (config.shared.started u) (by omega) there rfl with moves | ⟨v, vIn, out, less⟩
        · exact .inl moves
        · exact .inr ⟨v, vIn, out, by omega⟩

end

theorem cell_lt (tree : b.Tree) (small : i < b.size) : ∀ op ∈ b.program i, op.cell < b.size := by
  intro op member
  rw [tree.program i small] at member
  rcases List.mem_append.mp member with front | down
  · rcases List.mem_append.mp front with up | middle
    · obtain ⟨c, child, rfl⟩ := List.mem_map.mp up
      exact (tree.child_of child).2.1
    · split_ifs at middle with root
      · cases middle
      · rcases List.mem_cons.mp middle with rfl | rest
        · exact small
        · cases List.mem_singleton.mp rest
          exact small
  · obtain ⟨c, child, rfl⟩ := List.mem_map.mp down
    exact (tree.child_of ((tree.mem_releases i c).mp child)).2.1

end Qthreads.Lib.CellBarrier
