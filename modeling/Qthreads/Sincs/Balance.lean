import Qthreads.Sincs.Indicator

namespace Qthreads.Sincs.Indicator

open Qthreads.Lib
open Selectable (Machine snziHalf snziOne)
open Function (update update_of_ne update_self update_eq_self)

def units : Pc → Nat
  | .undo count _ => count
  | .submit _ => 1
  | .seek _ _ => 1
  | .depart _ _ => 1
  | _ => 0

def surplus : Pc → Nat
  | .expect _ _ arrivals => arrivals
  | .add _ _ arrivals _ => arrivals
  | .half _ _ arrivals => arrivals
  | .arrive _ _ arrivals _ => arrivals
  | .complete _ _ arrivals _ => arrivals + 1
  | .undo _ arrivals => arrivals
  | .check => 1
  | .leave => 1
  | _ => 0

def setting (shep : Nat) : Pc → Nat
  | .arrive place _ _ own => if own = true ∧ place = shep then 1 else 0
  | .complete place _ _ own => if own = true ∧ place = shep then 1 else 0
  | _ => 0

def collating : Pc → Nat
  | .collate => 1
  | _ => 0

def Pc.Good (machine : Machine) : Pc → Prop
  | .expect shep count _ => shep < machine.sheps ∧ 0 < count
  | .add shep count _ c => shep < machine.sheps ∧ 0 < count ∧ snziOne ≤ c
  | .half shep count _ => shep < machine.sheps ∧ 0 < count
  | .arrive shep count _ _ => shep < machine.sheps ∧ 0 < count
  | .complete shep count _ _ => shep < machine.sheps ∧ 0 < count
  | .undo count _ => 0 < count
  | .submit shep => shep < machine.sheps
  | .seek shep _ => shep < machine.sheps
  | .depart shep x => shep < machine.sheps ∧ snziOne ≤ x
  | .failed => False
  | _ => True

def Shared.share (s : Shared) (shep : Nat) : Nat := s.counts shep - 1

structure Counts (machine : Machine) (s : Shared) (held extra collates : Nat)
    (halves : Nat → Nat) : Prop where
  covered : Lib.total (List.range machine.sheps) s.share = s.covered + held
  remaining : s.remaining = busy (List.range machine.sheps) s.share + extra
  small : s.remaining < countRange
  halves : ∀ shep < machine.sheps, halves shep = if s.counts shep = snziHalf then 1 else 0
  oneCollates : collates ≤ 1
  last : collates = 1 → s.remaining = 0
  ready : s.ready = true ↔ s.remaining = 0 ∧ collates = 0

structure Balanced (machine : Machine) (callers : Nat) (config : Config) : Prop where
  counts : Counts machine config.shared (config.weigh callers units)
    (config.weigh callers surplus) (config.weigh callers collating)
    (fun shep => config.weigh callers (setting shep))
  good : ∀ i, (config.tasks i).Good machine
  others : ∀ i, callers ≤ i → config.tasks i = .idle

variable {machine : Machine} {callers me : Nat} {config : Config} {s : Shared} {pc next : Pc}

section

variable (balanced : Balanced machine callers config)
include balanced

theorem Balanced.among {label : Unit} {after : Shared}
    (act : Act machine callers me config.shared (config.tasks me) label after next) :
    me < callers := by
  by_contra outside
  rw [balanced.others me (by omega)] at act
  cases act with
  | expect shep count among => exact outside among
  | submit shep among => exact outside among

theorem Balanced.move (among : me < callers)
    (here : config.tasks me = pc) (good : next.Good machine)
    (counts : ∀ held extra collates halves,
      held + units pc = config.weigh callers units + units next →
      extra + surplus pc = config.weigh callers surplus + surplus next →
      collates + collating pc = config.weigh callers collating + collating next →
      (∀ shep, halves shep + setting shep pc =
        config.weigh callers (setting shep) + setting shep next) →
      Counts machine s held extra collates halves) :
    Balanced machine callers ⟨s, update config.tasks me next⟩ := by
  have moved (weight : Pc → Nat) := here ▸ config.weigh_update among s next weight
  refine ⟨counts _ _ _ _ (moved units) (moved surplus) (moved collating)
    fun shep => moved (setting shep), ?_, ?_⟩
  · intro i
    by_cases same : i = me
    · subst same
      simpa using good
    · simpa [same] using balanced.good i
  · intro i outside
    have differs : i ≠ me := by omega
    simpa [differs] using balanced.others i outside

theorem Balanced.keep (among : me < callers)
    (here : config.tasks me = pc) (good : next.Good machine) (sameUnits : units next = units pc)
    (sameSurplus : surplus next = surplus pc) (sameCollating : collating next = collating pc)
    (sameSetting : ∀ shep, setting shep next = setting shep pc) :
    Balanced machine callers ⟨config.shared, update config.tasks me next⟩ := by
  refine balanced.move among here good ?_
  intro held extra collates halves heldIs extraIs collatesIs halvesAre
  have counts := balanced.counts
  obtain rfl : held = config.weigh callers units := by omega
  obtain rfl : extra = config.weigh callers surplus := by omega
  obtain rfl : collates = config.weigh callers collating := by omega
  refine ⟨counts.covered, counts.remaining, counts.small, ?_, counts.oneCollates, counts.last,
    counts.ready⟩
  intro shep small
  rw [← counts.halves shep small]
  have moved := halvesAre shep
  rw [sameSetting] at moved
  omega

end

theorem store_counts_of_ne {shep other : Nat} (differs : other ≠ shep) (count : Nat) :
    (s.store shep count).counts other = s.counts other :=
  update_of_ne differs _ _

theorem store_counts_self (shep count : Nat) : (s.store shep count).counts shep = count :=
  update_self ..

theorem share_store (shep count : Nat) :
    (s.store shep count).share = update s.share shep (count - 1) := by
  funext other
  by_cases same : other = shep
  · rw [same, update_self, Shared.share, store_counts_self]
  · rw [update_of_ne same, Shared.share, store_counts_of_ne same, Shared.share]

theorem finish_covered (s : Shared) (count arrivals : Nat) :
    (finish s count arrivals).1.covered + units (finish s count arrivals).2 = s.covered + count := by
  rw [finish]
  split
  · rfl
  · rfl

theorem finish_shared (s : Shared) (count arrivals : Nat) :
    (finish s count arrivals).1.counts = s.counts ∧
      (finish s count arrivals).1.remaining = s.remaining ∧
      (finish s count arrivals).1.ready = s.ready := by
  rw [finish]
  split
  · exact ⟨rfl, rfl, rfl⟩
  · exact ⟨rfl, rfl, rfl⟩

theorem finish_task (s : Shared) (count arrivals : Nat) :
    surplus (finish s count arrivals).2 = arrivals ∧ collating (finish s count arrivals).2 = 0 ∧
      ∀ shep, setting shep (finish s count arrivals).2 = 0 := by
  rw [finish]
  split
  · rename_i zero
    exact ⟨zero.symm, rfl, fun _ => rfl⟩
  · exact ⟨rfl, rfl, fun _ => rfl⟩

theorem finish_good {count : Nat} (positive : 0 < count) (s : Shared) (arrivals : Nat) :
    (finish s count arrivals).2.Good machine := by
  rw [finish]
  split
  · trivial
  · exact positive

theorem share_add {shep c count : Nat} (small : shep < machine.sheps) (here : s.counts shep = c)
    (atLeast : snziOne ≤ c) (positive : 0 < count) :
    Lib.total (List.range machine.sheps) (s.store shep (c + count)).share =
        Lib.total (List.range machine.sheps) s.share + count ∧
      busy (List.range machine.sheps) (s.store shep (c + count)).share =
        busy (List.range machine.sheps) s.share := by
  have listed := List.mem_range.mpr small
  have two : 2 ≤ c := atLeast
  have own : s.share shep = c - 1 := by rw [Shared.share, here]
  have grown : c + count - 1 = s.share shep + count := by omega
  rw [share_store, grown]
  refine ⟨total_gain _ List.nodup_range listed count, ?_⟩
  rw [busy_gain _ List.nodup_range listed positive, if_neg (by omega), Nat.add_zero]

theorem share_complete {shep count : Nat} (small : shep < machine.sheps)
    (here : s.counts shep = snziHalf) (positive : 0 < count) :
    Lib.total (List.range machine.sheps) (s.store shep (count + 1)).share =
        Lib.total (List.range machine.sheps) s.share + count ∧
      busy (List.range machine.sheps) (s.store shep (count + 1)).share =
        busy (List.range machine.sheps) s.share + 1 := by
  have listed := List.mem_range.mpr small
  have own : s.share shep = 0 := by rw [Shared.share, here, snziHalf]
  have grown : count + 1 - 1 = s.share shep + count := by omega
  rw [share_store, grown]
  refine ⟨total_gain _ List.nodup_range listed count, ?_⟩
  rw [busy_gain _ List.nodup_range listed positive, if_pos own]

theorem share_depart {shep x : Nat} (small : shep < machine.sheps) (here : s.counts shep = x)
    (atLeast : snziOne ≤ x) :
    Lib.total (List.range machine.sheps)
          (s.store shep (if x = snziOne then 0 else x - 1)).share + 1 =
        Lib.total (List.range machine.sheps) s.share ∧
      (busy (List.range machine.sheps) (s.store shep (if x = snziOne then 0 else x - 1)).share +
          if x = snziOne then 1 else 0) =
        busy (List.range machine.sheps) s.share := by
  have listed := List.mem_range.mpr small
  have two : 2 ≤ x := atLeast
  have own : s.share shep = x - 1 := by rw [Shared.share, here]
  have positive : 0 < s.share shep := by omega
  have lessened : (if x = snziOne then 0 else x - 1) - 1 = s.share shep - 1 := by
    by_cases one : x = snziOne
    · rw [if_pos one, own, one, snziOne]
    · rw [if_neg one, own]
  have last : x = snziOne ↔ s.share shep = 1 := by
    rw [own, snziOne]
    omega
  rw [share_store, lessened]
  refine ⟨total_loss List.nodup_range listed positive, ?_⟩
  rw [if_congr last rfl rfl]
  exact busy_loss List.nodup_range listed positive

theorem Balanced.finished {shep v count arrivals more : Nat}
    (balanced : Balanced machine callers config) (among : me < callers)
    (here : config.tasks me = pc) (positive : 0 < count)
    (sum : Lib.total (List.range machine.sheps) (config.shared.store shep v).share =
      Lib.total (List.range machine.sheps) config.shared.share + count)
    (many : busy (List.range machine.sheps) (config.shared.store shep v).share =
      busy (List.range machine.sheps) config.shared.share + more)
    (noUnits : units pc = 0) (extra : surplus pc = arrivals + more) (noCollating : collating pc = 0)
    (wasHalf : setting shep pc = if config.shared.counts shep = snziHalf then 1 else 0)
    (other : ∀ place, place ≠ shep → setting place pc = 0)
    (full : snziOne ≤ v) :
    Balanced machine callers
      ⟨(finish (config.shared.store shep v) count arrivals).1,
        update config.tasks me (finish (config.shared.store shep v) count arrivals).2⟩ := by
  have two : 2 ≤ v := full
  obtain ⟨sameCounts, sameRemaining, sameReady⟩ :=
    finish_shared (config.shared.store shep v) count arrivals
  obtain ⟨finishSurplus, finishCollating, finishSetting⟩ :=
    finish_task (config.shared.store shep v) count arrivals
  have finishUnits := finish_covered (config.shared.store shep v) count arrivals
  have counts := balanced.counts
  refine balanced.move among here (finish_good positive _ _) ?_
  intro held extra collates halves heldIs extraIs collatesIs halvesAre
  have sameShare : (finish (config.shared.store shep v) count arrivals).1.share =
      (config.shared.store shep v).share := by
    funext place
    rw [Shared.share, sameCounts, Shared.share]
  have sameCovered : (config.shared.store shep v).covered = config.shared.covered := rfl
  have nowRemaining : (finish (config.shared.store shep v) count arrivals).1.remaining =
      config.shared.remaining := sameRemaining
  have oneCollates := counts.oneCollates
  have was := counts.remaining
  have sumWas := counts.covered
  constructor
  · rw [sameShare, sum]
    omega
  · rw [sameShare, many]
    omega
  · rw [nowRemaining]
    exact counts.small
  · intro place small
    have moved := halvesAre place
    have before := counts.halves place small
    rw [finishSetting] at moved
    rw [sameCounts]
    by_cases same : place = shep
    · subst same
      have notHalf : v ≠ snziHalf := by
        rw [snziHalf]
        omega
      rw [store_counts_self, if_neg notHalf]
      omega
    · rw [store_counts_of_ne same]
      have zero := other place same
      omega
  · omega
  · rw [nowRemaining]
    intro one
    exact counts.last (by omega)
  · rw [nowRemaining, sameReady]
    have ready := counts.ready
    have sameCollates : collates = config.weigh callers collating := by omega
    rw [sameCollates]
    exact ready

variable {shep count arrivals : Nat}

theorem Balanced.half (balanced : Balanced machine callers config)
    (among : me < callers) (here : config.tasks me = .half shep count arrivals)
    (idle : config.shared.counts shep = 0) :
    Balanced machine callers
      ⟨config.shared.store shep snziHalf,
        update config.tasks me (.arrive shep count arrivals true)⟩ := by
  have good := balanced.good me
  rw [here] at good
  have counts := balanced.counts
  refine balanced.move among here good ?_
  intro held extra collates halves heldIs extraIs collatesIs halvesAre
  obtain rfl : held = config.weigh callers units := heldIs
  obtain rfl : extra = config.weigh callers surplus := Nat.add_right_cancel extraIs
  obtain rfl : collates = config.weigh callers collating := collatesIs
  have sameShare : (config.shared.store shep snziHalf).share = config.shared.share := by
    have zero : config.shared.share shep = 0 := by rw [Shared.share, idle]
    rw [share_store, snziHalf, Nat.sub_self, ← zero, update_eq_self]
  refine ⟨?_, ?_, counts.small, ?_, counts.oneCollates, counts.last, counts.ready⟩
  · rw [sameShare]
    exact counts.covered
  · rw [sameShare]
    exact counts.remaining
  · intro place small
    have moved := halvesAre place
    have before := counts.halves place small
    simp only [setting] at moved
    by_cases same : place = shep
    · subst same
      rw [idle, if_neg (by decide)] at before
      rw [store_counts_self, if_pos rfl]
      simp only [and_self, if_true] at moved
      omega
    · rw [store_counts_of_ne same, ← before]
      simp only [true_and, if_neg (Ne.symm same)] at moved
      omega

theorem Balanced.arrive {own : Bool}
    (balanced : Balanced machine callers config) (among : me < callers)
    (here : config.tasks me = .arrive shep count arrivals own)
    (remains : config.shared.remaining ≠ 0) (fits : config.shared.remaining + 1 < countRange) :
    Balanced machine callers
      ⟨config.shared.arrive,
        update config.tasks me (.complete shep count arrivals own)⟩ := by
  have good := balanced.good me
  rw [here] at good
  have counts := balanced.counts
  refine balanced.move among here good ?_
  intro held extra collates halves heldIs extraIs collatesIs halvesAre
  obtain rfl : held = config.weigh callers units := heldIs
  obtain rfl : collates = config.weigh callers collating := collatesIs
  obtain rfl : extra = config.weigh callers surplus + 1 := by
    simp only [surplus] at extraIs
    omega
  have nowRemaining : config.shared.arrive.remaining = config.shared.remaining + 1 :=
    Nat.mod_eq_of_lt fits
  have busyNow := counts.remaining
  have notFull : ¬ config.shared.ready = true := fun full => remains (counts.ready.mp full).1
  refine ⟨counts.covered, ?_, ?_, ?_, counts.oneCollates, ?_, ?_⟩
  · rw [nowRemaining, busyNow]
    rfl
  · rw [nowRemaining]
    exact fits
  · intro place small
    have moved : halves place + setting place (.arrive shep count arrivals own) =
        config.weigh callers (setting place) + setting place (.arrive shep count arrivals own) :=
      halvesAre place
    have before := counts.halves place small
    exact (Nat.add_right_cancel moved).trans before
  · intro one
    exact absurd (counts.last one) remains
  · rw [nowRemaining]
    exact ⟨fun full => absurd full notFull, fun nothing => absurd nothing.1 (Nat.succ_ne_zero _)⟩

theorem cover_counts (s : Shared) (count : Nat) : (s.cover count).counts = s.counts := rfl

theorem cover_remaining (s : Shared) (count : Nat) : (s.cover count).remaining = s.remaining := rfl

theorem cover_ready (s : Shared) (count : Nat) : (s.cover count).ready = s.ready := rfl

theorem cover_covered (s : Shared) (count : Nat) : (s.cover count).covered = s.covered + count := rfl

theorem undo_counts (s : Shared) (arrivals : Nat) : (s.undo arrivals).counts = s.counts := by
  rw [Shared.undo]

theorem undo_ready (s : Shared) (arrivals : Nat) : (s.undo arrivals).ready = s.ready := by
  rw [Shared.undo]

theorem undo_covered (s : Shared) (arrivals : Nat) : (s.undo arrivals).covered = s.covered := by
  rw [Shared.undo]

theorem share_congr {other : Shared} (same : other.counts = s.counts) : other.share = s.share := by
  funext shep
  rw [Shared.share, same, Shared.share]

theorem undo_remaining {arrivals : Nat} (there : arrivals ≤ s.remaining)
    (small : s.remaining < countRange) : (s.undo arrivals).remaining = s.remaining - arrivals := by
  have turned : s.remaining + countRange - arrivals = s.remaining - arrivals + countRange := by omega
  have fits : s.remaining - arrivals < countRange := Nat.lt_of_le_of_lt (Nat.sub_le _ _) small
  calc (s.undo arrivals).remaining
      = (s.remaining + countRange - arrivals) % countRange := rfl
    _ = (s.remaining - arrivals + countRange) % countRange := by rw [turned]
    _ = s.remaining - arrivals := by rw [Nat.add_mod_right, Nat.mod_eq_of_lt fits]

section

variable (balanced : Balanced machine callers config) (among : me < callers)
include balanced among

theorem Balanced.undo {count arrivals : Nat} (here : config.tasks me = .undo count arrivals) :
    Balanced machine callers
      ⟨(config.shared.undo arrivals).cover count, update config.tasks me .idle⟩ := by
  have positive := balanced.good me
  rw [here] at positive
  have counts := balanced.counts
  have heldThere := Config.weight_le_weigh among config units
  have extraThere := Config.weight_le_weigh among config surplus
  rw [here] at heldThere extraThere
  simp only [units, surplus] at heldThere extraThere
  have small := counts.small
  have was := counts.remaining
  have sum := counts.covered
  have nonzero : busy (List.range machine.sheps) config.shared.share ≠ 0 := by
    intro zero
    have empty := busy_eq_zero_iff.mp zero
    have many : 0 < count := positive
    omega
  have there : arrivals ≤ config.shared.remaining := by omega
  have nowRemaining : ((config.shared.undo arrivals).cover count).remaining =
      config.shared.remaining - arrivals := by rw [cover_remaining, undo_remaining there small]
  have nowCovered : ((config.shared.undo arrivals).cover count).covered =
      config.shared.covered + count := by rw [cover_covered, undo_covered]
  have nowCounts : ((config.shared.undo arrivals).cover count).counts = config.shared.counts := by
    rw [cover_counts, undo_counts]
  have nowShare : ((config.shared.undo arrivals).cover count).share = config.shared.share := by
    rw [share_congr nowCounts]
  have nowReady : ((config.shared.undo arrivals).cover count).ready = config.shared.ready := by
    rw [cover_ready, undo_ready]
  generalize (config.shared.undo arrivals).cover count = after at *
  refine balanced.move among here trivial ?_
  intro held extra collates halves heldIs extraIs collatesIs halvesAre
  simp only [units, surplus, collating, setting] at heldIs extraIs collatesIs halvesAre
  have sameCollates : collates = config.weigh callers collating := by omega
  have notFull : ¬ config.shared.ready = true := by
    intro full
    have zero := (counts.ready.mp full).1
    omega
  have oneCollates := counts.oneCollates
  constructor
  · rw [nowShare, nowCovered]
    omega
  · rw [nowShare, nowRemaining]
    omega
  · rw [nowRemaining]
    exact Nat.lt_of_le_of_lt (Nat.sub_le _ _) small
  · intro place placeSmall
    have moved := halvesAre place
    rw [nowCounts, ← counts.halves place placeSmall]
    omega
  · omega
  · intro one
    have zero := counts.last (by omega)
    omega
  · rw [nowReady, nowRemaining]
    exact ⟨fun full => absurd full notFull, fun nothing => absurd nothing.1 (by omega)⟩

theorem Balanced.submit {shep : Nat} (here : config.tasks me = .idle) (small : shep < machine.sheps)
    (positive : 0 < config.shared.covered) :
    Balanced machine callers
      ⟨config.shared.spend, update config.tasks me (.submit shep)⟩ := by
  have counts := balanced.counts
  refine balanced.move among here small ?_
  intro held extra collates halves heldIs extraIs collatesIs halvesAre
  obtain rfl : held = config.weigh callers units + 1 := heldIs
  obtain rfl : extra = config.weigh callers surplus := extraIs
  obtain rfl : collates = config.weigh callers collating := collatesIs
  have sum := counts.covered
  refine ⟨?_, counts.remaining, counts.small, ?_, counts.oneCollates, counts.last, counts.ready⟩
  · have covered : config.shared.spend.covered = config.shared.covered - 1 := rfl
    have sameShare : config.shared.spend.share = config.shared.share := rfl
    rw [covered, sameShare]
    omega
  · intro place placeSmall
    exact (halvesAre place).trans (counts.halves place placeSmall)

theorem Balanced.depart {shep x : Nat} (here : config.tasks me = .depart shep x)
    (current : config.shared.counts shep = x) :
    Balanced machine callers
      ⟨config.shared.store shep (if x = snziOne then 0 else x - 1),
        update config.tasks me (if x = snziOne then .check else .idle)⟩ := by
  have good := balanced.good me
  rw [here] at good
  obtain ⟨small, atLeast⟩ := good
  have two : 2 ≤ x := atLeast
  obtain ⟨sum, many⟩ := share_depart small current atLeast
  have counts := balanced.counts
  have sumWas := counts.covered
  have was := counts.remaining
  have goodNext : (if x = snziOne then Pc.check else .idle).Good machine := by
    split <;> trivial
  refine balanced.move among here goodNext ?_
  intro held extra collates halves heldIs extraIs collatesIs halvesAre
  have unitsNext : units (if x = snziOne then Pc.check else .idle) = 0 := by split <;> rfl
  have surplusNext : surplus (if x = snziOne then Pc.check else .idle) =
      if x = snziOne then 1 else 0 := by split <;> rfl
  have collatingNext : collating (if x = snziOne then Pc.check else .idle) = 0 := by split <;> rfl
  have settingNext : ∀ place, setting place (if x = snziOne then Pc.check else .idle) = 0 := by
    intro place
    split <;> rfl
  rw [unitsNext] at heldIs
  rw [surplusNext] at extraIs
  rw [collatingNext] at collatesIs
  obtain rfl : collates = config.weigh callers collating := collatesIs
  have heldBefore : held + 1 = config.weigh callers units := heldIs
  have extraBefore : extra = config.weigh callers surplus + if x = snziOne then 1 else 0 := extraIs
  have sameCovered : (config.shared.store shep (if x = snziOne then 0 else x - 1)).covered =
      config.shared.covered := rfl
  have sameRemaining : (config.shared.store shep (if x = snziOne then 0 else x - 1)).remaining =
      config.shared.remaining := rfl
  refine ⟨?_, ?_, counts.small, ?_, counts.oneCollates, counts.last, counts.ready⟩
  · rw [sameCovered]
    omega
  · rw [sameRemaining]
    omega
  · intro place placeSmall
    have moved := halvesAre place
    rw [settingNext] at moved
    have before := counts.halves place placeSmall
    have same : halves place = config.weigh callers (setting place) := moved
    rw [same, before]
    by_cases at_ : place = shep
    · subst at_
      have notHalf : config.shared.counts place ≠ snziHalf := by
        rw [current, snziHalf]
        omega
      have stillNot : (if x = snziOne then 0 else x - 1) ≠ snziHalf := by
        rw [snziHalf, snziOne]
        split <;> omega
      rw [store_counts_self, if_neg notHalf, if_neg stillNot]
    · rw [store_counts_of_ne at_]

end

theorem leave_remaining (positive : 0 < s.remaining) (small : s.remaining < countRange) :
    s.leave.remaining = s.remaining - 1 := by
  rw [Shared.leave, undo_remaining positive small]

section

variable (balanced : Balanced machine callers config)
include balanced

theorem Balanced.leave (among : me < callers) (here : config.tasks me = .leave) :
    Balanced machine callers
      ⟨config.shared.leave,
        update config.tasks me
          (if config.shared.remaining = 1 then .collate else .idle)⟩ := by
  have counts := balanced.counts
  have there := Config.weight_le_weigh among config surplus
  rw [here] at there
  simp only [surplus] at there
  have was := counts.remaining
  have positive : 0 < config.shared.remaining := by omega
  have nowRemaining := leave_remaining positive counts.small
  have nowCovered : config.shared.leave.covered = config.shared.covered := undo_covered _ _
  have nowCounts : config.shared.leave.counts = config.shared.counts := undo_counts _ _
  have nowShare : config.shared.leave.share = config.shared.share := share_congr nowCounts
  have nowReady : config.shared.leave.ready = config.shared.ready := undo_ready _ _
  have noCollate : config.weigh callers collating ≠ 1 := by
    intro one
    have zero := counts.last one
    omega
  have oneCollates := counts.oneCollates
  have notFull : ¬ config.shared.ready = true := by
    intro full
    have zero := (counts.ready.mp full).1
    omega
  generalize config.shared.leave = after at *
  have goodNext : (if config.shared.remaining = 1 then Pc.collate else .idle).Good machine := by
    split <;> trivial
  refine balanced.move among here goodNext ?_
  intro held extra collates halves heldIs extraIs collatesIs halvesAre
  have settingNext : ∀ place,
      setting place (if config.shared.remaining = 1 then Pc.collate else .idle) = 0 := by
    intro place
    split <;> rfl
  have unitsNext : units (if config.shared.remaining = 1 then Pc.collate else .idle) = 0 := by
    split <;> rfl
  have surplusNext : surplus (if config.shared.remaining = 1 then Pc.collate else .idle) = 0 := by
    split <;> rfl
  have collatingNext : collating (if config.shared.remaining = 1 then Pc.collate else .idle) =
      if config.shared.remaining = 1 then 1 else 0 := by split <;> rfl
  rw [unitsNext] at heldIs
  rw [surplusNext] at extraIs
  rw [collatingNext] at collatesIs
  simp only [units, surplus, collating] at heldIs extraIs collatesIs
  constructor
  · rw [nowShare, nowCovered, counts.covered]
    omega
  · rw [nowShare, nowRemaining]
    omega
  · rw [nowRemaining]
    exact Nat.lt_of_le_of_lt (Nat.sub_le _ _) counts.small
  · intro place placeSmall
    have moved := halvesAre place
    rw [settingNext] at moved
    rw [nowCounts, ← counts.halves place placeSmall]
    exact moved
  · split at collatesIs <;> omega
  · intro one
    rw [nowRemaining]
    split at collatesIs <;> omega
  · rw [nowReady, nowRemaining]
    refine ⟨fun full => absurd full notFull, fun both => ?_⟩
    obtain ⟨zero, idle⟩ := both
    split at collatesIs <;> omega

theorem Balanced.collate (among : me < callers) (here : config.tasks me = .collate) :
    Balanced machine callers ⟨config.shared.fill, update config.tasks me .idle⟩ := by
  have counts := balanced.counts
  have there := Config.weight_le_weigh among config collating
  rw [here] at there
  simp only [collating] at there
  have oneCollates := counts.oneCollates
  have zero := counts.last (by omega)
  refine balanced.move among here trivial ?_
  intro held extra collates halves heldIs extraIs collatesIs halvesAre
  simp only [units, surplus, collating, setting] at heldIs extraIs collatesIs halvesAre
  obtain rfl : held = config.weigh callers units := heldIs
  obtain rfl : extra = config.weigh callers surplus := extraIs
  refine ⟨counts.covered, counts.remaining, counts.small, ?_, by omega, fun _ => zero, ?_⟩
  · intro place placeSmall
    exact (halvesAre place).trans (counts.halves place placeSmall)
  · exact ⟨fun _ => ⟨zero, by omega⟩, fun _ => rfl⟩

theorem Balanced.step {label : Unit} {after : Shared} (meets : Meets config (me, label))
    (act : Act machine callers me config.shared (config.tasks me) label after next) :
    Balanced machine callers ⟨after, update config.tasks me next⟩ := by
  have among := balanced.among act
  have good := balanced.good me
  have halves := balanced.counts.halves
  generalize here : config.tasks me = pc at act good
  rw [Meets, here] at meets
  cases act with
  | expect shep count _ shepSmall positive =>
    exact balanced.keep among here ⟨shepSmall, positive⟩ rfl rfl rfl fun _ => rfl
  | @read shep count arrivals =>
    by_cases atLeast : snziOne ≤ config.shared.counts shep
    · rw [if_pos atLeast]
      exact balanced.keep among here ⟨good.1, good.2, atLeast⟩ rfl rfl rfl fun _ => rfl
    · rw [if_neg atLeast]
      by_cases idle : config.shared.counts shep = 0
      · rw [if_pos idle]
        exact balanced.keep among here good rfl rfl rfl fun _ => rfl
      · rw [if_neg idle]
        refine balanced.keep among here good rfl rfl rfl fun place => ?_
        simp [setting]
  | @add shep count arrivals c current =>
    obtain ⟨small, positive, atLeast⟩ := good
    have two : 2 ≤ c := atLeast
    have fits : c + count < countRange := current ▸ meets
    rw [Nat.mod_eq_of_lt fits]
    obtain ⟨sum, many⟩ := share_add small current atLeast positive
    have notHalf : config.shared.counts shep ≠ snziHalf := by
      rw [current, snziHalf]
      omega
    exact balanced.finished among here positive sum (many.trans (Nat.add_zero _).symm) rfl rfl rfl (if_neg notHalf).symm
      (fun _ _ => rfl) (Nat.le_trans atLeast (Nat.le_add_right _ _))
  | addFails differs =>
    exact balanced.keep among here ⟨good.1, good.2.1⟩ rfl rfl rfl fun _ => rfl
  | half idle => exact balanced.half among here idle
  | halfFails differs => exact balanced.keep among here good rfl rfl rfl fun _ => rfl
  | arrive => exact balanced.arrive among here meets.1 meets.2
  | @complete shep count arrivals own current =>
    obtain ⟨small, positive⟩ := good
    simp only at meets
    rw [if_pos current] at meets
    obtain ⟨mine, fits⟩ := meets
    rw [Nat.mod_eq_of_lt fits]
    obtain ⟨sum, many⟩ := share_complete small current positive
    refine balanced.finished among here positive sum many rfl rfl rfl ?_ ?_ ?_
    · rw [if_pos current]
      simp [setting, mine]
    · intro place differs
      simp [setting, Ne.symm differs]
    · rw [snziOne]
      omega
  | @completeFails shep count arrivals own differs =>
    cases own with
    | true =>
      have there := Config.weight_le_weigh among config (setting shep)
      have nothing := halves shep good.1
      rw [if_neg differs] at nothing
      rw [here] at there
      simp only [setting, and_self, if_true] at there
      omega
    | false =>
      refine balanced.keep among here good rfl rfl rfl fun place => ?_
      simp [setting]
  | undo => exact balanced.undo among here
  | submit shep _ small pos => exact balanced.submit among here small pos
  | load => exact balanced.keep among here good rfl rfl rfl fun _ => rfl
  | @next shep x idle =>
    refine balanced.keep among here ?_ rfl rfl rfl fun _ => rfl
    have pos := machine.someSheps
    show (if shep + 1 < machine.sheps then shep + 1 else 0) < machine.sheps
    split <;> omega
  | @found shep x busy =>
    by_cases atLeast : snziOne ≤ x
    · rw [if_pos atLeast]
      exact balanced.keep among here ⟨good, atLeast⟩ rfl rfl rfl fun _ => rfl
    · rw [if_neg atLeast]
      exact balanced.keep among here good rfl rfl rfl fun _ => rfl
  | depart current => exact balanced.depart among here current
  | departFails differs => exact balanced.keep among here good.1 rfl rfl rfl fun _ => rfl
  | check pos => exact balanced.keep among here trivial rfl rfl rfl fun _ => rfl
  | checkFails zero =>
    have there := Config.weight_le_weigh among config surplus
    have was := balanced.counts.remaining
    rw [here] at there
    simp only [surplus] at there
    omega
  | leave => exact balanced.leave among here
  | collate => exact balanced.collate among here

end

def Quiet (config : Config) : Prop := ∀ i, config.tasks i = .idle

/-- The counts, `remaining` and `ready` tell how many submits are outstanding, and a result is
collated only when none is. -/
structure Matches (machine : Machine) (config : Config) : Prop where
  noHalf : Quiet config → ∀ shep < machine.sheps, config.shared.counts shep ≠ snziHalf
  sum : Quiet config →
    ((List.range machine.sheps).map fun shep => config.shared.counts shep - 1).sum =
      config.shared.covered
  remaining : Quiet config →
    config.shared.remaining =
      (List.range machine.sheps).countP fun shep => config.shared.counts shep ≠ 0
  ready : Quiet config → (config.shared.ready = true ↔ config.shared.covered = 0)
  collated : ∀ i, config.tasks i = .collate →
    config.shared.covered = 0 ∧ ∀ shep < machine.sheps, config.shared.counts shep ≤ snziHalf
  asserted : ∀ i, config.tasks i ≠ .failed

theorem Balanced.matches (balanced : Balanced machine callers config) : Matches machine config := by
  have counts := balanced.counts
  have quietWeight (quiet : Quiet config) (weight : Pc → Nat) (zero : weight .idle = 0) :
      config.weigh callers weight = 0 :=
    Config.weigh_eq_zero fun i _ => by rw [quiet i, zero]
  have noHalf : Quiet config → ∀ shep < machine.sheps, config.shared.counts shep ≠ snziHalf := by
    intro quiet shep small half
    have one := counts.halves shep small
    rw [if_pos half, quietWeight quiet (setting shep) rfl] at one
    cases one
  have busyIff : busy (List.range machine.sheps) config.shared.share = 0 ↔
      config.shared.covered + config.weigh callers units = 0 := by
    rw [busy_eq_zero_iff, counts.covered]
  refine ⟨noHalf, ?_, ?_, ?_, ?_, ?_⟩
  · intro quiet
    have sum := counts.covered
    rw [quietWeight quiet units rfl] at sum
    exact sum
  · intro quiet
    have many := counts.remaining
    rw [quietWeight quiet surplus rfl, Nat.add_zero] at many
    rw [many, busy]
    refine List.countP_congr fun shep listed => ?_
    have half := noHalf quiet shep (List.mem_range.mp listed)
    rw [snziHalf] at half
    rw [decide_eq_true_iff, decide_eq_true_iff, Shared.share]
    omega
  · intro quiet
    have many := counts.remaining
    have isZero := quietWeight quiet surplus rfl
    have ready := counts.ready
    rw [quietWeight quiet units rfl] at busyIff
    rw [quietWeight quiet collating rfl] at ready
    rw [ready]
    rw [isZero, Nat.add_zero] at many
    rw [many, busyIff, Nat.add_zero]
    exact ⟨fun both => both.1, fun zero => ⟨zero, rfl⟩⟩
  · intro i here
    have among : i < callers := by
      by_contra outside
      rw [balanced.others i (by omega)] at here
      cases here
    have there := Config.weight_le_weigh among config collating
    rw [here] at there
    simp only [collating] at there
    have oneCollates := counts.oneCollates
    have zero := counts.last (by omega)
    have many := counts.remaining
    have isZero : busy (List.range machine.sheps) config.shared.share = 0 := by omega
    refine ⟨by omega, fun shep small => ?_⟩
    have share := total_eq_zero_iff.mp (busy_eq_zero_iff.mp isZero) shep (List.mem_range.mpr small)
    rw [Shared.share] at share
    rw [snziHalf]
    omega
  · intro i here
    have good := balanced.good i
    rw [here] at good
    exact good

theorem start_balanced {expect : Nat} (positive : 0 < expect) (small : expect + 1 < countRange)
    (garbage : Nat → Nat) : Balanced machine callers (start machine garbage expect) := by
  obtain ⟨shares, stored, sum, many⟩ := Selectable.Snzi.spread_spec machine expect garbage
  have zeros (weight : Pc → Nat) (zero : weight .idle = 0) :
      (start machine garbage expect).weigh callers weight = 0 :=
    Config.weigh_eq_zero fun _ _ => zero
  have counts : (start machine garbage expect).shared.counts =
      Selectable.Snzi.spread machine expect garbage := if_pos positive
  have remaining : (start machine garbage expect).shared.remaining =
      busy (List.range machine.sheps) shares := (if_pos positive).trans many
  have assigned : ∀ shep ∈ List.range machine.sheps,
      (start machine garbage expect).shared.counts shep =
        if shares shep = 0 then 0 else shares shep + 1 := by
    intro shep listed
    have share := share_le_total shares listed
    rw [counts, stored shep listed, Selectable.snziAssign]
    split
    · rfl
    · exact Nat.mod_eq_of_lt (by omega)
  have sameShare : ∀ shep ∈ List.range machine.sheps,
      (start machine garbage expect).shared.share shep = shares shep := by
    intro shep listed
    rw [Shared.share, assigned shep listed]
    split <;> omega
  have few := @busy_le_total _ (List.range machine.sheps) shares
  have busyNot : busy (List.range machine.sheps) shares ≠ 0 := by
    rw [Ne, busy_eq_zero_iff]
    omega
  refine ⟨?_, fun _ => trivial, fun _ _ => rfl⟩
  rw [zeros units rfl, zeros surplus rfl, zeros collating rfl]
  refine ⟨?_, ?_, ?_, ?_, Nat.zero_le _, by rintro ⟨⟩, ?_⟩
  · rw [total_congr sameShare, sum]
    rfl
  · rw [busy_congr sameShare, remaining, Nat.add_zero]
  · rw [remaining]
    omega
  · intro shep shepSmall
    have notHalf : (start machine garbage expect).shared.counts shep ≠ snziHalf := by
      rw [assigned shep (List.mem_range.mpr shepSmall), snziHalf]
      split <;> omega
    rw [if_neg notHalf]
    exact zeros (setting shep) rfl
  · rw [remaining]
    have waiting : (start machine garbage expect).shared.ready = false :=
      decide_eq_false (Nat.ne_of_gt positive)
    rw [waiting]
    exact ⟨by rintro ⟨⟩, fun both => absurd both.1 busyNot⟩

/-- In a run whose expects complete only halves of their own and arrive only while something
remains, the words tell what is outstanding. -/
theorem indicator_matches {expect : Nat} (positive : 0 < expect) (small : expect + 1 < countRange)
    (garbage : Nat → Nat) {labels : List (Nat × Unit)} {last : Config}
    (run : Run (Guarded Meets (Step machine callers)) (start machine garbage expect) labels last) :
    Matches machine last := by
  have balanced : Balanced machine callers last := by
    refine run.preserves (fun before label after held taken => ?_)
      (start_balanced positive small garbage)
    obtain ⟨meets, taken⟩ := taken
    cases taken with
    | move acted => exact held.step meets acted
  exact balanced.matches

def Outside (callers : Nat) (config : Config) : Prop :=
  ∀ i, callers ≤ i → config.tasks i = .idle

theorem Outside.run {first last : Config} {labels : List (Nat × Unit)}
    (outside : Outside callers first) (run : Run (Step machine callers) first labels last) :
    Outside callers last := by
  refine run.preserves (fun before label after held taken => ?_) outside
  cases taken with
  | @move task label shared mine acted =>
    intro i large
    by_cases same : i = task
    · rw [← same, held i large] at acted
      cases acted with
      | expect shep count among => omega
      | submit shep among => omega
    · exact (update_of_ne same _ _).trans (held i large)

theorem indicator_matches_round : ∃ labels last,
    Run (Guarded Meets (Step Selectable.single 1)) (start Selectable.single (fun _ => 0) 2) labels last ∧
      Quiet last ∧ last.shared.ready = true ∧ Matches Selectable.single last := by
  have round : ∃ labels last,
      Run (Guarded Meets (Step Selectable.single 1)) (start Selectable.single (fun _ => 0) 2)
        labels last ∧ last.tasks 0 = .idle ∧ last.shared.ready = true :=
    Config.exists_guarded_move 0 rfl (.submit 0 (by decide) (by decide) (by decide)) trivial <|
    Config.exists_guarded_move 0 rfl .load trivial <|
    Config.exists_guarded_move 0 rfl (.found (by decide)) trivial <|
    Config.exists_guarded_move 0 rfl (.depart rfl) trivial <|
    Config.exists_guarded_move 0 rfl (.expect 0 1 (by decide) (by decide) (by decide) (by decide)) trivial <|
    Config.exists_guarded_move 0 rfl .read trivial <|
    Config.exists_guarded_move 0 rfl (.add rfl) (show 2 + 1 < countRange by decide) <|
    Config.exists_guarded_move 0 rfl (.submit 0 (by decide) (by decide) (by decide)) trivial <|
    Config.exists_guarded_move 0 rfl .load trivial <|
    Config.exists_guarded_move 0 rfl (.found (by decide)) trivial <|
    Config.exists_guarded_move 0 rfl (.depart rfl) trivial <|
    Config.exists_guarded_move 0 rfl (.submit 0 (by decide) (by decide) (by decide)) trivial <|
    Config.exists_guarded_move 0 rfl .load trivial <|
    Config.exists_guarded_move 0 rfl (.found (by decide)) trivial <|
    Config.exists_guarded_move 0 rfl (.depart rfl) trivial <|
    Config.exists_guarded_move 0 rfl (.check (by decide)) trivial <|
    Config.exists_guarded_move 0 rfl .leave trivial <|
    Config.exists_guarded_move 0 rfl .collate trivial ⟨[], _, .nil _, rfl, rfl⟩
  obtain ⟨labels, last, run, own, ready⟩ := round
  have outside : Outside 1 last :=
    Outside.run (fun _ _ => rfl) (run.mono fun _ _ _ taken => taken.2)
  have quiet : Quiet last := by
    intro i
    cases i with
    | zero => exact own
    | succ i => exact outside (i + 1) (Nat.succ_pos i)
  exact ⟨labels, last, run, quiet, ready, indicator_matches (by decide) (by decide) _ run⟩

def pair : Machine where
  sheps := 2
  wps := 1
  someSheps := Nat.two_pos
  someWorkers := Nat.one_pos
  sorted := fun shep => [1 - shep]
  others := by decide

/-- An expect after the last submit leaves `ready` full. -/
theorem late_expect : ∃ labels last,
    Run (Step Selectable.single 1) (start Selectable.single (fun _ => 0) 1) labels last ∧
      last.tasks 0 = .idle ∧ last.shared.ready = true ∧ last.shared.covered = 1 :=
  Config.exists_move 0 rfl (.submit 0 (by decide) (by decide) (by decide)) <|
  Config.exists_move 0 rfl .load <|
  Config.exists_move 0 rfl (.found (by decide)) <|
  Config.exists_move 0 rfl (.depart rfl) <|
  Config.exists_move 0 rfl (.check (by decide)) <|
  Config.exists_move 0 rfl .leave <|
  Config.exists_move 0 rfl .collate <|
  Config.exists_move 0 rfl (.expect 0 1 (by decide) (by decide) (by decide) (by decide)) <|
  Config.exists_move 0 rfl .read <|
  Config.exists_move 0 rfl (.half rfl) <|
  Config.exists_move 0 rfl .arrive <|
  Config.exists_move 0 rfl (.complete rfl) ⟨[], _, .nil _, rfl, rfl, rfl⟩

theorem lost_expect : ∃ labels last, Run (Step pair 2) (start pair (fun _ => 0) 1) labels last ∧
    (last.tasks 0 = .idle ∧ last.tasks 1 = .idle) ∧ last.shared.covered = 3 ∧
      ((List.range pair.sheps).map fun shep => last.shared.counts shep - 1).sum = 2 :=
  Config.exists_move 0 rfl (.expect 1 1 (by decide) (by decide) (by decide) (by decide)) <|
  Config.exists_move 0 rfl .read <|
  Config.exists_move 0 rfl (.half rfl) <|
  Config.exists_move 1 rfl (.expect 1 1 (by decide) (by decide) (by decide) (by decide)) <|
  Config.exists_move 1 rfl .read <|
  Config.exists_move 1 rfl .arrive <|
  Config.exists_move 1 rfl (.complete rfl) <|
  Config.exists_move 0 rfl .arrive <|
  Config.exists_move 0 rfl (.completeFails (by decide)) <|
  Config.exists_move 0 rfl .undo ⟨[], _, .nil _, ⟨rfl, rfl⟩, rfl, rfl⟩

theorem indicator_differs :
    (∃ labels last, Run (Step Selectable.single 1) (start Selectable.single (fun _ => 0) 1) labels last ∧
      Quiet last ∧ last.shared.ready = true ∧ last.shared.covered = 1) ∧
    (∃ labels last, Run (Step pair 2) (start pair (fun _ => 0) 1) labels last ∧
      Quiet last ∧ last.shared.covered = 3 ∧
        ((List.range pair.sheps).map fun shep => last.shared.counts shep - 1).sum = 2) := by
  constructor
  · obtain ⟨labels, last, run, own, facts⟩ := late_expect
    refine ⟨labels, last, run, fun i => ?_, facts⟩
    have outside : Outside 1 last := Outside.run (fun _ _ => rfl) run
    cases i with
    | zero => exact own
    | succ i => exact outside (i + 1) (Nat.succ_pos i)
  · obtain ⟨labels, last, run, ⟨first, second⟩, facts⟩ := lost_expect
    refine ⟨labels, last, run, fun i => ?_, facts⟩
    have outside : Outside 2 last := Outside.run (fun _ _ => rfl) run
    match i with
    | 0 => exact first
    | 1 => exact second
    | i + 2 => exact outside (i + 2) (Nat.le_add_left 2 i)

end Qthreads.Sincs.Indicator
