import Mathlib.Data.Nat.Bitwise
import Mathlib.NumberTheory.Padics.PadicVal.Basic
import Qthreads.Lib.TreeBarrier

namespace Qthreads.Barrier.Log

open Lib CellBarrier

/-! `barrier/log.c`

A call fills and empties entries of `upLock` and `downLock` and does bits else, so that it is the
list of these steps. -/

/-- The loop of `qtb_internal_initialize_fixed`. -/
def countBits (temp depth : Nat) : Nat :=
  if temp = 0 then depth else countBits (temp >>> 1) (depth + 1)
termination_by temp
decreasing_by
  rw [Nat.shiftRight_eq_div_pow]
  omega

/-- `doneLevel` as `qtb_internal_initialize_fixed` sets it. -/
def doneLevel (size : Nat) : Nat := countBits ((size - 1) >>> 1) 1

/-- `qtb_internal_down`, from the level to 0. -/
def down (activeSize myLock : Nat) : Nat → List CellOp
  | 0 => release activeSize myLock 0
  | level + 1 => release activeSize myLock (level + 1) ++ down activeSize myLock level
where
  release (activeSize myLock level : Nat) : List CellOp :=
    let pairedLock := myLock ^^^ (1 <<< level)
    if pairedLock < activeSize then
      if pairedLock > myLock then [.putDown pairedLock] else []
    else []

theorem level_lt {activeSize myLock level : Nat} (near : myLock ≤ myLock ^^^ (1 <<< level))
    (inside : myLock ^^^ (1 <<< level) < activeSize) : level < activeSize := by
  have bit : 2 ^ level ≤ myLock ^^^ (1 <<< level) := by
    by_contra small
    push Not at small
    have both := Nat.xor_lt_two_pow (lt_of_le_of_lt near small) small
    rw [Nat.xor_xor_cancel_left, Nat.one_shiftLeft] at both
    exact lt_irrefl _ both
  exact (Nat.lt_two_pow_self.trans_le bit).trans inside

def up (activeSize doneLevel myLock level : Nat) : List CellOp :=
  if activeSize ≤ myLock ^^^ (1 <<< level) then
    .putUp myLock :: .takeDown myLock ::
      if level ≠ 0 then down activeSize myLock level else []
  else if myLock ^^^ (1 <<< level) < myLock then
    .putUp myLock :: .takeDown myLock ::
      if level ≠ 0 then down activeSize myLock level else []
  else
    .takeUp (myLock ^^^ (1 <<< level)) ::
      if level + 1 < doneLevel ∨ myLock ≠ 0 then up activeSize doneLevel myLock (level + 1)
      else down activeSize myLock level
termination_by activeSize - level
decreasing_by
  rename_i inside near _
  have bound := level_lt (Nat.le_of_not_lt near) (Nat.lt_of_not_le inside)
  omega

def enterId (activeSize id : Nat) : List CellOp :=
  if activeSize ≤ 1 then [] else up activeSize (doneLevel activeSize) id 0

/-- The barrier of `qt_barrier_create`, with a participant for each number. -/
def barrier (size : Nat) : CellBarrier where
  size := size
  program := enterId size
  assign := fun me _ => me
  advance := fun ticket => ticket

theorem countBits_spec (temp depth : Nat) : depth ≤ countBits temp depth ∧
    temp < 2 ^ (countBits temp depth - depth) ∧
    (temp ≠ 0 → 2 ^ (countBits temp depth - depth) ≤ 2 * temp) := by
  induction temp, depth using countBits.induct with
  | case1 depth =>
    unfold countBits
    simp
  | case2 temp depth nonzero ih =>
    rw [Nat.shiftRight_eq_div_pow, pow_one] at ih
    obtain ⟨grows, upper, lower⟩ := ih
    unfold countBits
    rw [if_neg nonzero, Nat.shiftRight_eq_div_pow, pow_one]
    have split : countBits (temp / 2) (depth + 1) - depth =
        countBits (temp / 2) (depth + 1) - (depth + 1) + 1 := by omega
    rw [split, pow_succ]
    refine ⟨by omega, by omega, fun _ => ?_⟩
    by_cases half : temp / 2 = 0
    · have bits : countBits (temp / 2) (depth + 1) = depth + 1 := by
        rw [half]
        unfold countBits
        simp
      rw [bits]
      simp
      omega
    · have bound := lower half
      omega

theorem doneLevel_spec {n : Nat} (large : 2 ≤ n) :
    1 ≤ doneLevel n ∧ 2 ^ (doneLevel n - 1) < n ∧ n ≤ 2 ^ doneLevel n := by
  unfold doneLevel
  rw [Nat.shiftRight_eq_div_pow, pow_one]
  obtain ⟨grows, upper, lower⟩ := countBits_spec ((n - 1) / 2) 1
  have split : countBits ((n - 1) / 2) 1 = countBits ((n - 1) / 2) 1 - 1 + 1 := by omega
  refine ⟨grows, ?_, ?_⟩
  · by_cases half : (n - 1) / 2 = 0
    · have bits : countBits ((n - 1) / 2) 1 = 1 := by
        rw [half]
        unfold countBits
        simp
      rw [bits, Nat.sub_self, pow_zero]
      omega
    · have bound := lower half
      omega
  · rw [split, pow_succ]
    omega

variable {n i l c : Nat}

theorem xor_of_dvd (clear : 2 ^ (l + 1) ∣ i) : i ^^^ (1 <<< l) = i + 2 ^ l := by
  obtain ⟨q, rfl⟩ := clear
  have shifted : 2 ^ (l + 1) * q = (2 * q) <<< l := by
    rw [Nat.shiftLeft_eq, pow_succ]
    ring
  rw [shifted, ← Nat.shiftLeft_xor_distrib, Nat.xor_one_of_even (even_two_mul q), Nat.shiftLeft_eq,
    Nat.shiftLeft_eq]
  ring

theorem xor_of_not_dvd (low : 2 ^ l ∣ i) (set : ¬ 2 ^ (l + 1) ∣ i) : i ^^^ (1 <<< l) < i := by
  obtain ⟨q, rfl⟩ := low
  have odd : Odd q := by
    rw [← Nat.not_even_iff_odd]
    rintro ⟨r, rfl⟩
    exact set ⟨r, by rw [pow_succ]; ring⟩
  have shifted : 2 ^ l * q = q <<< l := by
    rw [Nat.shiftLeft_eq]
    ring
  rw [shifted, ← Nat.shiftLeft_xor_distrib, Nat.xor_one_of_odd odd, Nat.shiftLeft_eq,
    Nat.shiftLeft_eq]
  have pos := odd.pos
  exact Nat.mul_lt_mul_of_pos_right (by omega) (Nat.two_pow_pos l)

def Rises (n i l : Nat) : Prop := 2 ^ (l + 1) ∣ i ∧ i + 2 ^ l < n

instance (n i l : Nat) : Decidable (Rises n i l) := inferInstanceAs (Decidable (_ ∧ _))

theorem Rises.lower {m : Nat} (rises : Rises n i l) (below : m ≤ l) : Rises n i m := by
  refine ⟨(pow_dvd_pow 2 (by omega)).trans rises.1, ?_⟩
  have powers : 2 ^ m ≤ 2 ^ l := Nat.pow_le_pow_right (by omega) below
  have inside := rises.2
  omega

theorem exists_not_rises (n i : Nat) : ∃ l, ¬ Rises n i l := by
  refine ⟨n, fun rises => ?_⟩
  have large := Nat.lt_two_pow_self (n := n)
  have inside := rises.2
  omega

def height (n i : Nat) : Nat := Nat.find (exists_not_rises n i)

theorem rises_iff : Rises n i l ↔ l < height n i := by
  constructor
  · intro rises
    by_contra high
    push Not at high
    exact Nat.find_spec (exists_not_rises n i) (rises.lower high)
  · intro low
    by_contra stops
    exact Nat.find_min (exists_not_rises n i) low stops

def neighbours (n i : Nat) : List Nat := (List.range (height n i)).map (i + 2 ^ ·)

def parent (c : Nat) : Nat := c - 2 ^ padicValNat 2 c

theorem padicValNat_of_rises (rises : Rises n i l) : padicValNat 2 (i + 2 ^ l) = l := by
  have low : 2 ^ l ∣ i + 2 ^ l :=
    (Nat.dvd_add_right ((pow_dvd_pow 2 (Nat.le_succ l)).trans rises.1)).mpr (dvd_refl _)
  have high : ¬ 2 ^ (l + 1) ∣ i + 2 ^ l := by
    rw [Nat.dvd_add_right rises.1]
    intro divides
    have bound := Nat.le_of_dvd (Nat.two_pow_pos l) divides
    rw [pow_succ] at bound
    have pos := Nat.two_pow_pos l
    omega
  have nonzero : i + 2 ^ l ≠ 0 := by
    have pos := Nat.two_pow_pos l
    omega
  have atLeast := (padicValNat_dvd_iff_le nonzero).mp low
  have atMost : ¬ l + 1 ≤ padicValNat 2 (i + 2 ^ l) :=
    fun more => high ((padicValNat_dvd_iff_le nonzero).mpr more)
  omega

theorem rises_parent (pos : 0 < c) (small : c < n) :
    Rises n (parent c) (padicValNat 2 c) ∧ c = parent c + 2 ^ padicValNat 2 c := by
  obtain ⟨k, m, ⟨q, rfl⟩, rfl⟩ := Nat.exists_eq_two_pow_mul_odd (Nat.ne_of_gt pos)
  have split : 2 ^ k * (2 * q + 1) = 2 ^ (k + 1) * q + 2 ^ k := by ring
  have rises : Rises n (2 ^ (k + 1) * q) k := ⟨dvd_mul_right _ _, split ▸ small⟩
  have level : padicValNat 2 (2 ^ k * (2 * q + 1)) = k := by
    rw [split]
    exact padicValNat_of_rises rises
  have above : parent (2 ^ k * (2 * q + 1)) = 2 ^ (k + 1) * q := by
    unfold parent
    rw [level, split]
    omega
  rw [above, level]
  exact ⟨rises, split⟩

theorem mem_neighbours : c ∈ neighbours n i ↔ 0 < c ∧ c < n ∧ parent c = i := by
  simp only [neighbours, List.mem_map, List.mem_range]
  constructor
  · rintro ⟨l, low, rfl⟩
    have rises := rises_iff.mpr low
    have pos := Nat.two_pow_pos l
    refine ⟨by omega, rises.2, ?_⟩
    unfold parent
    rw [padicValNat_of_rises rises]
    omega
  · rintro ⟨pos, small, rfl⟩
    obtain ⟨rises, whole⟩ := rises_parent pos small
    exact ⟨padicValNat 2 c, rises_iff.mp rises, whole.symm⟩

theorem neighbours_nodup (n i : Nat) : (neighbours n i).Nodup := by
  refine List.Nodup.map ?_ List.nodup_range
  intro one two same
  have powers : 2 ^ one = 2 ^ two := Nat.add_left_cancel same
  exact Nat.pow_right_injective (le_refl 2) powers

theorem release_of_rises (rises : Rises n i l) : down.release n i l = [.putDown (i + 2 ^ l)] := by
  have pos := Nat.two_pow_pos l
  unfold down.release
  simp only [xor_of_dvd rises.1]
  rw [if_pos rises.2, if_pos (by omega)]

theorem down_of_rises (rises : Rises n i l) :
    down n i l = ((List.range (l + 1)).map (i + 2 ^ ·)).reverse.map .putDown := by
  induction l with
  | zero =>
    unfold down
    rw [release_of_rises rises]
    rfl
  | succ l ih =>
    unfold down
    rw [release_of_rises rises, ih (rises.lower (Nat.le_succ l)), List.range_succ (n := l + 1)]
    simp

theorem down_of_height (stop : l = height n i) (low : 2 ^ l ∣ i) :
    (if l ≠ 0 then down n i l else []) = (neighbours n i).reverse.map .putDown := by
  have stops : ¬ Rises n i l := by
    rw [rises_iff]
    omega
  cases l with
  | zero =>
    unfold neighbours
    rw [← stop]
    rfl
  | succ l =>
    have rises : Rises n i l := rises_iff.mpr (by omega)
    have bits : down.release n i (l + 1) = [] := by
      unfold down.release
      by_cases clear : 2 ^ (l + 1 + 1) ∣ i
      · have outside : ¬ i + 2 ^ (l + 1) < n := fun inside => stops ⟨clear, inside⟩
        simp only [xor_of_dvd clear]
        rw [if_neg outside]
      · have below := xor_of_not_dvd low clear
        simp only
        split_ifs with inside above
        · omega
        · rfl
        · rfl
    rw [if_pos (Nat.succ_ne_zero l), down, bits, List.nil_append, down_of_rises rises, neighbours,
      ← stop]

theorem not_root_of_height (large : 2 ≤ n) (stop : l = height n i) (low : i = 0 → l < doneLevel n) :
    i ≠ 0 := by
  rintro rfl
  obtain ⟨_, inside, _⟩ := doneLevel_spec large
  have powers : 2 ^ l ≤ 2 ^ (doneLevel n - 1) := by
    have below := low rfl
    exact Nat.pow_le_pow_right (by omega) (by omega)
  have rises : Rises n 0 l := ⟨dvd_zero _, by omega⟩
  rw [rises_iff] at rises
  omega

theorem up_of_height (small : i < n) (stop : l = height n i) (low : 2 ^ l ∣ i) (done : Nat) :
    up n done i l = .putUp i :: .takeDown i :: (neighbours n i).reverse.map .putDown := by
  have stops : ¬ Rises n i l := by
    rw [rises_iff]
    omega
  rw [← down_of_height stop low]
  unfold up
  by_cases clear : 2 ^ (l + 1) ∣ i
  · have outside : n ≤ i ^^^ (1 <<< l) := by
      rw [xor_of_dvd clear]
      by_contra inside
      exact stops ⟨clear, by omega⟩
    rw [if_pos outside]
  · have below := xor_of_not_dvd low clear
    rw [if_neg (by omega), if_pos below]

theorem up_of_rises (rises : Rises n i l) (done : Nat) :
    up n done i l = .takeUp (i + 2 ^ l) ::
      if l + 1 < done ∨ i ≠ 0 then up n done i (l + 1) else down n i l := by
  have inside := rises.2
  have pos := Nat.two_pow_pos l
  rw [up, xor_of_dvd rises.1, if_neg (by omega), if_neg (by omega)]

theorem drop_neighbours (low : l < height n i) :
    (neighbours n i).drop l = (i + 2 ^ l) :: (neighbours n i).drop (l + 1) := by
  have bound : l < (neighbours n i).length := by simpa [neighbours] using low
  rw [List.drop_eq_getElem_cons bound]
  simp [neighbours]

theorem up_eq (large : 2 ≤ n) (small : i < n) (rank : Nat) :
    ∀ l, height n i - l ≤ rank → l ≤ height n i → 2 ^ l ∣ i → (i = 0 → l < doneLevel n) →
      up n (doneLevel n) i l =
        ((neighbours n i).drop l).map .takeUp ++ (if i = 0 then [] else [.putUp i, .takeDown i]) ++
          (neighbours n i).reverse.map .putDown := by
  induction rank with
  | zero =>
    intro l far low divides below
    have stop : l = height n i := by omega
    have length : (neighbours n i).length ≤ l := by simp [neighbours, stop]
    rw [up_of_height small stop divides, if_neg (not_root_of_height large stop below),
      List.drop_eq_nil_of_le length]
    rfl
  | succ rank ih =>
    intro l far low divides below
    rcases Nat.lt_or_eq_of_le low with climbs | stop
    · have rises := rises_iff.mpr climbs
      rw [up_of_rises rises, drop_neighbours climbs]
      by_cases more : l + 1 < doneLevel n ∨ i ≠ 0
      · have next := ih (l + 1) (by omega) climbs rises.1 (fun root => more.resolve_right (by simp [root]))
        rw [if_pos more, next]
        rfl
      · push Not at more
        obtain ⟨top, rfl⟩ := more
        obtain ⟨_, _, all⟩ := doneLevel_spec large
        have last : doneLevel n = l + 1 := by
          have lower := below rfl
          omega
        have stop : height n 0 = l + 1 := by
          have beyond : ¬ Rises n 0 (l + 1) := by
            rintro ⟨_, inside⟩
            rw [last] at all
            omega
          rw [rises_iff] at beyond
          omega
        have length : (neighbours n 0).length ≤ l + 1 := by simp [neighbours, stop]
        rw [if_neg (by simp [top]), down_of_rises rises, List.drop_eq_nil_of_le length, neighbours,
          stop]
        rfl
    · have length : (neighbours n i).length ≤ l := by simp [neighbours, stop]
      rw [up_of_height small stop divides, if_neg (not_root_of_height large stop below),
        List.drop_eq_nil_of_le length]
      rfl

theorem enterId_eq (large : 2 ≤ n) (small : i < n) : enterId n i =
    (neighbours n i).map .takeUp ++ (if i = 0 then [] else [.putUp i, .takeDown i]) ++
      (neighbours n i).reverse.map .putDown := by
  have levels := (doneLevel_spec large).1
  rw [enterId, if_neg (by omega), up_eq large small (height n i) 0 (by omega) (Nat.zero_le _)
    (one_dvd i) (fun _ => levels), List.drop_zero]

def tree (large : 2 ≤ n) : (barrier n).Tree where
  waits := neighbours n
  releases := fun i => (neighbours n i).reverse
  parent := parent
  mem_waits := fun _ _ => mem_neighbours
  mem_releases := fun _ _ => List.mem_reverse
  waitsOnce := neighbours_nodup n
  releasesOnce := fun i => List.nodup_reverse.mpr (neighbours_nodup n i)
  parent_lt := by
    intro c pos _
    have bit := Nat.two_pow_pos (padicValNat 2 c)
    unfold parent
    omega
  assign_lt := fun _ _ small => small
  program := fun _ small => enterId_eq large small

def Named (config : System) : Prop := ∀ t id ops, config.tasks t = .inside id ops → id = t

theorem Named.step {before after : System} {label : Nat × CellLabel} (named : Named before)
    (taken : (barrier n).Step before label after) : Named after := by
  cases taken with
  | @move me seen shared mine acted =>
    intro t id ops here
    by_cases same : t = me
    · subst same
      simp only [Function.update_self] at here
      generalize place : before.tasks t = current at acted
      cases acted with
      | enter among =>
        cases here
        rfl
      | leave => cases here
      | takeUp full =>
        cases here
        exact named t _ _ place
      | putUp empty =>
        cases here
        exact named t _ _ place
      | takeDown full =>
        cases here
        exact named t _ _ place
      | putDown empty =>
        cases here
        exact named t _ _ place
    · simp only [Function.update_of_ne same] at here
      exact named t id ops here

theorem Named.allowed {before after : System} {label : Nat × CellLabel} (named : Named before)
    (taken : (barrier n).Step before label after) : (barrier n).Allowed before label := by
  cases taken with
  | @move me seen shared mine acted =>
    cases seen with
    | go => trivial
    | leave => trivial
    | enter =>
      intro t ops here
      have same : me = t := named t _ ops here
      subst same
      generalize place : before.tasks me = current at acted
      cases acted with
      | enter among =>
        rw [here] at place
        cases place

theorem run_allowed {first last : System} {labels : List (Nat × CellLabel)} (named : Named first)
    (run : Run (barrier n).Step first labels last) :
    Run (Guarded (barrier n).Allowed (barrier n).Step) first labels last := by
  induction run with
  | nil => exact .nil _
  | cons taken _ ih => exact .cons ⟨named.allowed taken, taken⟩ (ih (named.step taken))

theorem log_barrier_safe (large : 2 ≤ n) {labels : List (Nat × CellLabel)} {last : System}
    (run : Run (barrier n).Step start labels last) :
    (∀ t u, t < n → u < n → (last.tasks t = .outside ∨ ∃ id, last.tasks t = .inside id []) →
      last.shared.started t ≤ last.shared.started u) ∧
    (∀ t id ops, last.tasks t = .inside id ops →
      (∃ u, CanMove (barrier n) last u) ∨ ∃ u, u < n ∧ last.tasks u = .outside ∧
        last.shared.started u < last.shared.started t) ∧
    (∀ id, id < n → ∀ op ∈ (barrier n).program id, op.cell < n) ∧
    ((∀ t, last.tasks t = .outside) →
      ∀ c, last.shared.up c = false ∧ last.shared.down c = false) := by
  have named : Named start := fun _ _ _ out => nomatch out
  have holds : Invariant (tree large) last := invariant_run (run_allowed named run)
  refine ⟨?_, ?_, ?_, ?_⟩
  · intro t u _ among through
    exact everybody_started holds through among
  · intro t id ops here
    exact not_stuck holds here
  · intro id small
    exact cell_lt (tree large) small
  · intro out
    exact empty_of_outside holds out

theorem enterId_pair : enterId 2 0 = [.takeUp 1, .putDown 1] ∧ enterId 2 1 = [.putUp 1, .takeDown 1] := by
  constructor
  · simp [enterId, up, down, down.release, doneLevel, countBits]
  · simp [enterId, up, doneLevel, countBits]

theorem log_barrier_safe_pair : ∃ labels last, Run (barrier 2).Step start labels last ∧
    last.tasks 0 = .outside ∧ last.shared.started 0 = 1 ∧
    last.shared.started 0 ≤ last.shared.started 1 := by
  have zero : (barrier 2).program 0 = [.takeUp 1, .putDown 1] := enterId_pair.1
  have one : (barrier 2).program 1 = [.putUp 1, .takeDown 1] := enterId_pair.2
  have run : ∃ labels last, Run (barrier 2).Step start labels last ∧
      last.tasks 0 = .outside ∧ last.shared.started 0 = 1 := by
    refine Config.exists_move 0 rfl (.enter (by decide)) <|
      Config.exists_move 1 rfl (.enter (by decide)) ?_
    have programs : ∀ me ticket, (barrier 2).assign me ticket = me := fun _ _ => rfl
    simp only [programs, zero, one]
    exact Config.exists_move 1 rfl (.putUp rfl) <| Config.exists_move 0 rfl (.takeUp rfl) <|
      Config.exists_move 0 rfl (.putDown rfl) <| Config.exists_move 0 rfl .leave <|
      ⟨[], _, .nil _, rfl, rfl⟩
  obtain ⟨labels, last, run, out, started⟩ := run
  obtain ⟨safe, _⟩ := log_barrier_safe (le_refl 2) run
  exact ⟨labels, last, run, out, started, safe 0 1 (by decide) (by decide) (.inl out)⟩

end Qthreads.Barrier.Log
