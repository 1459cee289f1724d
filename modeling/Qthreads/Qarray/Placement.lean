import Qthreads.Lib.Blocks
import Qthreads.Qarray.Create

namespace Qthreads.Segments

open Lib
open Function (update update_of_ne update_self)

variable {n pagesize : Nat} {a : Record} {d : Distribution} {around : Around} {shared after : Shared}
  {request : Request} {seg other index : Nat}

theorem divide_eq {x y : Nat} (positive : 0 < y) : divide x y = .some (x / y) := if_neg (Nat.ne_of_gt positive)

namespace Record

theorem mul_le_count (inside : seg < a.segmentCount) : seg * a.segmentSize ≤ a.count := by
  have divided := Nat.div_mul_le_self a.count a.segmentSize
  have order : seg ≤ a.count / a.segmentSize := by
    rw [segmentCount] at inside
    split_ifs at inside <;> omega
  exact Nat.le_trans (Nat.mul_le_mul_right a.segmentSize order) divided

theorem div_lt_segmentCount (positive : 0 < a.segmentSize) (inside : index < a.count) :
    index / a.segmentSize < a.segmentCount := by
  have order := Nat.div_le_div_right (c := a.segmentSize) (Nat.le_of_lt inside)
  rw [segmentCount]
  split_ifs with part
  · omega
  · have whole : a.count / a.segmentSize * a.segmentSize = a.count :=
      Nat.div_mul_cancel (Nat.dvd_of_mod_eq_zero (by omega))
    have : index / a.segmentSize < a.count / a.segmentSize := by
      rw [Nat.div_lt_iff_lt_mul positive, whole]
      exact inside
    omega

theorem elemNomigrate_head (positive : 0 < a.segmentSize) (inside : seg < a.segmentCount) :
    a.elemNomigrate (seg * a.segmentSize) = .some (a.head seg) := by
  have low := a.mul_le_count inside
  simp only [elemNomigrate, if_neg (Nat.not_lt.mpr low), divide_eq positive, Option.bind_eq_bind,
    Option.bind_some, Nat.mul_div_cancel seg positive, Nat.sub_self, Nat.zero_mul, Nat.add_zero, head]

theorem head_succ (a : Record) (seg : Nat) : a.head (seg + 1) = a.head seg + a.segmentBytes := by
  simp only [head, Nat.add_one_mul, Nat.add_assoc]

theorem segmentShep_bounds {slot : Nat} (found : a.segmentShep (a.head seg) = some slot) :
    a.head seg ≤ slot ∧ slot + 1 < a.head (seg + 1) := by
  rw [head_succ]
  simp only [segmentShep] at found
  split_ifs at found
  · obtain rfl := Option.some.inj found
    omega
  · obtain rfl := Option.some.inj found
    omega

theorem head_mono (order : seg ≤ other) : a.head seg ≤ a.head other :=
  Nat.add_le_add_left (Nat.mul_le_mul_right _ order) _

theorem segmentShep_inj {slot : Nat} (first : a.segmentShep (a.head seg) = some slot)
    (second : a.segmentShep (a.head other) = some slot) : seg = other := by
  have low := segmentShep_bounds first
  have high := segmentShep_bounds second
  by_contra apart
  rcases Nat.lt_or_gt_of_ne apart with before | before
  · have := a.head_mono (show seg + 1 ≤ other from before)
    omega
  · have := a.head_mono (show other + 1 ≤ seg from before)
    omega

theorem shepofSegidx_dist (type : a.distType = .dist) (positive : 0 < a.segmentSize)
    (inside : seg < a.segmentCount) {slot : Nat} (found : a.segmentShep (a.head seg) = .some slot)
    (memory : Nat → Nat) : a.shepofSegidx n memory seg = .some (memory slot) := by
  simp only [shepofSegidx, type, elemNomigrate_head positive inside, segmentShepRead, found,
    Option.bind_some, Option.map_some]

theorem shepof_of_segidx (positive : 0 < a.segmentSize) {memory : Nat → Nat} {shep : Nat}
    (inside : index < a.count) (below : shep < n)
    (found : a.shepofSegidx n memory (index / a.segmentSize) = .some shep) :
    a.shepof n memory index = .some shep := by
  simp only [shepof, if_pos inside]
  split
  · rename_i type
    simpa only [shepofSegidx, type] using found
  · simp only [divide_eq positive, Option.bind_eq_bind, Option.bind_some, found, if_pos below]

end Record

structure Assigned (a : Record) (d : Distribution) (n : Nat) (around : Around) (k : Nat)
    (before after : Shared) (targets : Nat → Nat) : Prop where
  below : ∀ seg < k, targets seg < n
  chosen : ∀ seg < k, ∃ shared, a.target d n around shared seg = some (targets seg)
  tracker : ∀ x, after.tracker x = before.tracker x + held k targets x
  written : a.distType = .dist → ∀ seg < k, ∃ slot,
    a.segmentShep (a.head seg) = some slot ∧ after.memory slot = targets seg
  elsewhere : ∀ address, (∀ seg < k, a.segmentShep (a.head seg) ≠ some address) →
    after.memory address = before.memory address

theorem assign_inv (positive : 0 < a.segmentSize) (inside : seg < a.segmentCount)
    (assigned : a.assign d n around shared seg = .some after) :
    ∃ shep < n, a.target d n around shared seg = .some shep ∧
      after.tracker = update shared.tracker shep (shared.tracker shep + 1) ∧
      (a.distType = .dist → ∃ slot, a.segmentShep (a.head seg) = .some slot ∧
        after.memory = update shared.memory slot shep) ∧
      (a.distType ≠ .dist → after.memory = shared.memory) := by
  simp only [Record.assign, Option.bind_eq_bind, Option.bind_eq_some_iff] at assigned
  obtain ⟨shep, target, memory, written, last⟩ := assigned
  split_ifs at last with below
  obtain rfl := Option.some.inj last
  refine ⟨shep, below, target, rfl, ?_, ?_⟩
  · intro type
    simp only [Record.note, if_pos type, Record.elemNomigrate_head positive inside,
      Option.bind_eq_bind, Option.bind_some, Record.segmentShepWrite,
      Option.map_eq_some_iff] at written
    obtain ⟨slot, found, rfl⟩ := written
    exact ⟨slot, found, rfl⟩
  · intro type
    rw [Record.note, if_neg type] at written
    exact (Option.some.inj written).symm

theorem Assigned.step {k : Nat} {between : Shared} {targets : Nat → Nat} (positive : 0 < a.segmentSize)
    (inside : k < a.segmentCount) (ready : Assigned a d n around k shared between targets)
    (assigned : a.assign d n around between k = .some after) :
    ∃ targets, Assigned a d n around (k + 1) shared after targets := by
  obtain ⟨shep, below, target, counted, written, kept⟩ := assign_inv positive inside assigned
  have here : update targets k shep k = shep := update_self ..
  have there : ∀ seg < k, update targets k shep seg = targets seg := fun seg less =>
    update_of_ne (by omega) ..
  refine ⟨update targets k shep, ?_, ?_, ?_, ?_, ?_⟩
  · intro seg less
    rcases Nat.lt_succ_iff_lt_or_eq.mp less with earlier | rfl
    · rw [there seg earlier]
      exact ready.below seg earlier
    · rwa [here]
  · intro seg less
    rcases Nat.lt_succ_iff_lt_or_eq.mp less with earlier | rfl
    · rw [there seg earlier]
      exact ready.chosen seg earlier
    · exact ⟨between, by rw [here, target]⟩
  · intro x
    rw [held_succ, here, held_congr there, counted]
    by_cases same : shep = x
    · subst same
      rw [update_self, ready.tracker, if_pos rfl]
      push_cast
      omega
    · rw [update_of_ne (Ne.symm same), ready.tracker, if_neg same, Nat.add_zero]
  · intro type seg less
    obtain ⟨slot, found, stored⟩ := written type
    rcases Nat.lt_succ_iff_lt_or_eq.mp less with earlier | rfl
    · obtain ⟨old, oldFound, oldStored⟩ := ready.written type seg earlier
      have apart : old ≠ slot := by
        rintro rfl
        exact Nat.ne_of_lt earlier (Record.segmentShep_inj oldFound found)
      refine ⟨old, oldFound, ?_⟩
      rw [stored, update_of_ne apart, there seg earlier, oldStored]
    · exact ⟨slot, found, by rw [stored, update_self, here]⟩
  · intro address outside
    have before := ready.elsewhere address fun seg less => outside seg (by omega)
    by_cases type : a.distType = .dist
    · obtain ⟨slot, found, stored⟩ := written type
      have apart : address ≠ slot := by
        rintro rfl
        exact outside k (by omega) found
      rw [stored, update_of_ne apart, before]
    · rw [kept type, before]

theorem assigned_run {k : Nat} (positive : 0 < a.segmentSize) (inside : k ≤ a.segmentCount)
    (ran : (List.range k).foldlM (a.assign d n around) shared = .some after) :
    ∃ targets, Assigned a d n around k shared after targets := by
  induction k generalizing after with
  | zero =>
    obtain rfl := Option.some.inj ran
    refine ⟨fun _ => 0, ?_, ?_, ?_, ?_, ?_⟩ <;> simp [held]
  | succ k induction =>
    rw [List.range_succ, List.foldlM_append, Option.bind_eq_bind, Option.bind_eq_some_iff] at ran
    obtain ⟨between, first, last⟩ := ran
    rw [List.foldlM_cons, Option.bind_eq_bind, Option.bind_eq_some_iff] at last
    obtain ⟨final, assigned, ended⟩ := last
    obtain rfl := Option.some.inj ended
    obtain ⟨targets, ready⟩ := induction (by omega) first
    exact ready.step positive (by omega) assigned

structure Reports (a : Record) (n : Nat) (memory : Nat → Nat) (targets : Nat → Nat) : Prop where
  shepof : ∀ index < a.count, a.shepof n memory index = some (targets (index / a.segmentSize))
  segidx : ∀ seg < a.segmentCount, a.shepofSegidx n memory seg = some (targets seg)
  ch : ∀ seg < a.segmentCount,
    (a.elemNomigrate (seg * a.segmentSize)).bind (a.shepofCh n memory) = some (targets seg)

def Keeps (a : Record) (memory later : Nat → Nat) : Prop :=
  ∀ seg < a.segmentCount, ∀ slot, a.segmentShep (a.head seg) = some slot → later slot = memory slot

def Distribution.Fields (d : Distribution) : Prop := d = .fixedFields ∨ d = .distFields

def Distribution.Turns (d : Distribution) : Prop := d = .fixedHash ∨ d = .distStripes

structure Cut (pagesize segments : Nat) (request : Request) : Prop where
  size : 0 < (request.sizes pagesize).1
  bytes : 0 < (request.sizes pagesize).2
  count : request.count / (request.sizes pagesize).1 +
    (if request.count % (request.sizes pagesize).1 ≠ 0 then 1 else 0) = segments

structure Placed (pagesize n : Nat) (around : Around) (shared : Shared) (request : Request)
    (targets : Nat → Nat) : Prop where
  below : ∀ seg < (request.record pagesize n around shared.tracker).segmentCount, targets seg < n
  target : ∀ seg < (request.record pagesize n around shared.tracker).segmentCount, ∀ shared',
    (request.record pagesize n around shared.tracker).target request.d n around shared' seg =
      some (targets seg)
  even : Even (request.record pagesize n around shared.tracker).segmentCount n targets
  ascends : request.d.Fields → ∀ seg other, seg ≤ other →
    other < (request.record pagesize n around shared.tracker).segmentCount →
      targets seg ≤ targets other
  reports : ∀ a after, create pagesize n around shared request = some (a, after) →
    ∀ later, Keeps a after.memory later → Reports a n later targets

variable {segments : Nat}

theorem record_segmentCount (around : Around) (tracker : Nat → Int)
    (cut : Cut pagesize segments request) :
    (request.record pagesize n around tracker).segmentCount = segments := cut.count

def Distribution.hand (n segments : Nat) (d : Distribution) (seg : Nat) : Nat :=
  match d with
  | .fixedFields | .distFields =>
    blockOf (if segments / n = 0 then 1 else segments / n) (segments % n) seg
  | _ => seg % n

theorem target_fixedFields (around : Around) (tracker : Nat → Int)
    (shared : Shared) (fields : request.d = .fixedFields) (cut : Cut pagesize segments request)
    (seg : Nat) :
    (request.record pagesize n around tracker).target .fixedFields n around shared seg =
      some (Distribution.hand n segments .fixedFields seg) := by
  have type : (request.record pagesize n around tracker).distType = .fixedFields := by
    simp only [Request.record, fields, Distribution.distType]
  have per : (request.record pagesize n around tracker).segsPerShep =
      if segments / n = 0 then 1 else segments / n := by
    rw [← record_segmentCount (n := n) around tracker cut]
    rfl
  have extras : (request.record pagesize n around tracker).extras = segments % n := by
    rw [← record_segmentCount (n := n) around tracker cut]
    rfl
  have positive : 0 < if segments / n = 0 then 1 else segments / n := by
    split_ifs with zero
    · exact Nat.one_pos
    · exact Nat.pos_of_ne_zero zero
  simp only [Record.target, Record.shepofSegidx, type, per, extras, divide_eq positive,
    Distribution.hand, blockOf]
  split_ifs <;> rfl

theorem target_distFields (around : Around) (tracker : Nat → Int)
    (shared : Shared) (cut : Cut pagesize segments request) (pos : 0 < n)
    (enough : n ≤ segments ∨ segments = 1) (inside : seg < segments) :
    (request.record pagesize n around tracker).target .distFields n around shared seg =
      .some (Distribution.hand n segments .distFields seg) := by
  simp only [Record.target, record_segmentCount around tracker cut, Distribution.hand]
  by_cases all : n ≤ segments
  · have positive : 0 < segments / n := Nat.div_pos all pos
    rw [if_neg (Nat.ne_of_gt positive), divide_eq positive, blockOf]
    split_ifs <;> first | rfl | omega
  · obtain rfl : segments = 1 := by omega
    obtain rfl : seg = 0 := by omega
    have zero : 1 / n = 0 := Nat.div_eq_of_lt (by omega)
    have one : 1 % n = 1 := Nat.mod_eq_of_lt (by omega)
    simp only [zero, one]
    rfl

theorem hand_fields (fields : d.Fields) (n segments : Nat) :
    d.hand n segments = blockOf (if segments / n = 0 then 1 else segments / n) (segments % n) := by
  rcases fields with rfl | rfl <;> rfl

theorem hand_turns (turns : d.Turns) (n segments : Nat) : d.hand n segments = (· % n) := by
  rcases turns with rfl | rfl <;> rfl

theorem even_one (n : Nat) (targets : Nat → Nat) : Even 1 n targets := by
  intro x _ y _
  have : held 1 targets x ≤ (Finset.range 1).card := Finset.card_filter_le _ _
  rw [Finset.card_range] at this
  omega

theorem hand_even (pos : 0 < n) (enough : n ≤ segments ∨ segments = 1)
    (placing : d.Fields ∨ d.Turns) : Even segments n (d.hand n segments) := by
  rcases placing with fields | turns
  · rw [hand_fields fields]
    rcases enough with all | rfl
    · have positive : 0 < segments / n := Nat.div_pos all pos
      rw [if_neg (Nat.ne_of_gt positive)]
      exact even_of_held _ (· < segments % n) fun x inside => held_blockOf pos all inside
    · exact even_one n _
  · rw [hand_turns turns]
    exact even_of_held _ (· < segments % n) fun x inside => held_mod pos inside

theorem hand_lt (pos : 0 < n) (enough : n ≤ segments ∨ segments = 1)
    (placing : d.Fields ∨ d.Turns) (inside : seg < segments) : d.hand n segments seg < n := by
  rcases placing with fields | turns
  · rw [hand_fields fields]
    by_cases all : n ≤ segments
    · have positive : 0 < segments / n := Nat.div_pos all pos
      rw [if_neg (Nat.ne_of_gt positive)]
      exact blockOf_lt pos all inside
    · obtain rfl : segments = 1 := by omega
      obtain rfl : seg = 0 := by omega
      have zero : 1 / n = 0 := Nat.div_eq_of_lt (by omega)
      have one : 1 % n = 1 := Nat.mod_eq_of_lt (by omega)
      rw [zero, one]
      exact pos
  · rw [hand_turns turns]
    exact Nat.mod_lt seg pos

theorem target_hand (around : Around) (tracker : Nat → Int) (shared : Shared)
    (placing : request.d.Fields ∨ request.d.Turns) (cut : Cut pagesize segments request)
    (positive : 0 < n) (enough : n ≤ segments ∨ segments = 1) (inside : seg < segments) :
    (request.record pagesize n around tracker).target request.d n around shared seg =
      .some (request.d.hand n segments seg) := by
  rcases placing with (fields | fields) | (fields | fields)
  · rw [fields]
    exact target_fixedFields around tracker shared fields cut seg
  · rw [fields]
    exact target_distFields around tracker shared cut positive enough inside
  · rw [fields]
    rfl
  · rw [fields]
    rfl

theorem create_inv {a : Record} (created : create pagesize n around shared request = some (a, after)) :
    a = request.record pagesize n around shared.tracker ∧ 0 < a.segmentSize ∧ 0 < a.segmentBytes ∧
      ∃ targets, Assigned a request.d n around a.segmentCount
        { shared with tracker := counted a shared.tracker } after targets := by
  simp only [create, Option.bind_eq_bind] at created
  split_ifs at created with asked sized
  rw [Option.bind_eq_some_iff] at created
  obtain ⟨last, ran, same⟩ := created
  obtain ⟨rfl, rfl⟩ := Prod.mk.inj (Option.some.inj same)
  exact ⟨rfl, sized.1, sized.2, assigned_run sized.1 (Nat.le_refl _) ran⟩

theorem shepofCh_head (a : Record) (n : Nat) (memory : Nat → Nat) (positive : 0 < a.segmentSize)
    (bytes : 0 < a.segmentBytes) (inside : seg < a.segmentCount) :
    (a.elemNomigrate (seg * a.segmentSize)).bind (a.shepofCh n memory) =
      a.shepofSegidx n memory seg := by
  have back : (a.head seg - a.basePtr) / a.segmentBytes = seg := by
    rw [Record.head, Nat.add_sub_cancel_left, Nat.mul_div_cancel seg bytes]
  rw [Record.elemNomigrate_head positive inside, Option.bind_some]
  cases type : a.distType with
  | fixedHash => simp only [Record.shepofCh, Record.shepofSegidx, type, divide_eq bytes, back,
      Option.map_some]
  | fixedFields => simp only [Record.shepofCh, type, divide_eq bytes, back, Option.bind_eq_bind,
      Option.bind_some]
  | allSame => simp only [Record.shepofCh, Record.shepofSegidx, type]
  | dist => simp only [Record.shepofCh, Record.shepofSegidx, type,
      Record.elemNomigrate_head positive inside, Option.bind_some]

theorem reports_of_segidx {a : Record} {memory targets : Nat → Nat} (positive : 0 < a.segmentSize)
    (bytes : 0 < a.segmentBytes) (below : ∀ seg < a.segmentCount, targets seg < n)
    (segidx : ∀ seg < a.segmentCount, a.shepofSegidx n memory seg = .some (targets seg)) :
    Reports a n memory targets where
  shepof := by
    intro index inside
    have within := a.div_lt_segmentCount positive inside
    exact Record.shepof_of_segidx positive inside (below _ within) (segidx _ within)
  segidx := segidx
  ch := by
    intro seg inside
    rw [shepofCh_head a n memory positive bytes inside, segidx seg inside]

theorem segidx_of_target {a : Record} {later targets : Nat → Nat}
    (type : a.distType = request.d.distType) (positive : 0 < a.segmentSize) {before : Shared}
    (assigned : Assigned a request.d n around a.segmentCount before after targets)
    (kept : Keeps a after.memory later) (inside : seg < a.segmentCount) :
    a.shepofSegidx n later seg = .some (targets seg) := by
  obtain ⟨there, target⟩ := assigned.chosen seg inside
  cases found : a.distType with
  | dist =>
    obtain ⟨slot, found, stored⟩ := assigned.written found seg inside
    rw [Record.shepofSegidx_dist ‹_› positive inside found, kept seg inside slot found, stored]
  | fixedHash =>
    cases d : request.d <;> simp only [d, found, Distribution.distType, reduceCtorEq] at type
    simp only [d, Record.target] at target
    simpa only [Record.shepofSegidx, found] using target
  | fixedFields =>
    cases d : request.d <;> simp only [d, found, Distribution.distType, reduceCtorEq] at type
    simp only [d, Record.target, Record.shepofSegidx, found] at target
    simpa only [Record.shepofSegidx, found] using target
  | allSame =>
    cases d : request.d <;> simp only [d, found, Distribution.distType, reduceCtorEq] at type
    all_goals
      simp only [d, Record.target] at target
      simpa only [Record.shepofSegidx, found] using target

theorem placed (around : Around) (shared : Shared)
    (placing : request.d.Fields ∨ request.d.Turns) (cut : Cut pagesize segments request)
    (positive : 0 < n) (enough : n ≤ segments ∨ segments = 1) :
    Placed pagesize n around shared request (request.d.hand n segments) := by
  have count := record_segmentCount (n := n) around shared.tracker cut
  constructor
  · intro seg inside
    rw [count] at inside
    exact hand_lt positive enough placing inside
  · intro seg inside there
    rw [count] at inside
    exact target_hand around shared.tracker there placing cut positive enough inside
  · rw [count]
    exact hand_even positive enough placing
  · intro fields seg other order _
    rw [hand_fields fields]
    refine blockOf_mono ?_ order
    split_ifs with zero
    · exact Nat.one_pos
    · exact Nat.pos_of_ne_zero zero
  · intro a after created later kept
    obtain ⟨rfl, size, bytes, targets, assigned⟩ := create_inv created
    refine reports_of_segidx size bytes ?_ ?_
    · intro seg inside
      rw [count] at inside
      exact hand_lt positive enough placing inside
    · intro seg inside
      rw [segidx_of_target rfl size assigned kept inside]
      obtain ⟨there, target⟩ := assigned.chosen seg inside
      rw [count] at inside
      rw [target_hand around shared.tracker there placing cut positive enough inside] at target
      exact target.symm

def Request.fixed (segments : Nat) : Request := ⟨8192 * segments, 8, .fixedFields, false, 0⟩

def Request.spread (segments : Nat) : Request := ⟨8191 * segments, 8, .distFields, false, 0⟩

end Qthreads.Segments
