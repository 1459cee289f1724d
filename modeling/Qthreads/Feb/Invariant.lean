import Qthreads.Feb.Queues

namespace Qthreads.Feb

open Qthreads.Lib
open Function (update update_of_ne update_self update_eq_self)

def lastFull (key : UInt64) : List Event → Bool → Bool
  | [], bit => bit
  | .setFull k full :: rest, bit => lastFull key rest (if k = key then full else bit)
  | _ :: rest, bit => lastFull key rest bit

def recordWaits (task : Task) : Option Addrstat → Nat
  | none => 0
  | some m => m.waits task

variable [Topology]

namespace FebState

def waitsAt (s : FebState) (key : UInt64) (task : Task) : Nat :=
  recordWaits task (s.febs (chooseStripe2 key) key)

def Waiting (s : FebState) (task : Task) : Prop :=
  s.threads task = .nascent ∨ s.threads task = .febBlocked

instance (s : FebState) (task : Task) : Decidable (s.Waiting task) :=
  inferInstanceAs (Decidable (_ ∨ _))

def bit (s : FebState) (key : UInt64) : Bool := lastFull key s.log true

end FebState

structure SoundBut (limbo : List Task) (s : FebState) : Prop where
  stripes : ∀ bin key m, s.febs bin key = some m → bin = chooseStripe2 key
  ordered : ∀ bin key m, s.febs bin key = some m → m.Ordered
  bits : ∀ bin key m, s.febs bin key = some m → s.bit key = m.full
  absent : ∀ key, s.febs (chooseStripe2 key) key = none → s.bit key = true
  queued : ∀ task, s.Waiting task → task ∉ limbo →
    ∃ key, s.waitsAt key task = 1 ∧ ∀ other, other ≠ key → s.waitsAt other task = 0
  away : ∀ task, ¬ s.Waiting task ∨ task ∈ limbo → ∀ key, s.waitsAt key task = 0
  young : ∀ task ∈ limbo, s.threads task = .nascent
  conserved : ∀ task, s.log.count (.enqueued task) =
    s.log.count (.scheduled task) + s.log.count (.handed task) +
      if s.Waiting task ∧ task ∉ limbo then 1 else 0
  aligned : ∀ task, ∀ p ∈ s.preconds task, qalign p = p

abbrev Sound (s : FebState) : Prop := SoundBut [] s

variable {s : FebState} {limbo : List Task} {key : UInt64} {m : Addrstat} {me : Task}

theorem waitsAt_put (s : FebState) (key : UInt64) (m : Option Addrstat) (other : UInt64)
    (task : Task) : (s.put (chooseStripe2 key) key m).waitsAt other task =
      if other = key then recordWaits task m else s.waitsAt other task := by
  unfold FebState.waitsAt
  rw [FebState.put_febs]
  by_cases same : other = key
  · subst same
    simp
  · simp [same]

omit [Topology] in
theorem lastFull_append (key : UInt64) (log rest : List Event) (bit : Bool) :
    lastFull key (log ++ rest) bit = lastFull key rest (lastFull key log bit) := by
  induction log generalizing bit with
  | nil => rfl
  | cons event log ih => cases event <;> exact ih _

theorem put_found {bin k : UInt64} {m : Option Addrstat} {n : Addrstat}
    (found : (s.put (chooseStripe2 key) key m).febs bin k = some n) :
    (bin = chooseStripe2 key ∧ k = key ∧ m = some n) ∨ (k ≠ key ∨ bin ≠ chooseStripe2 key) ∧
      s.febs bin k = some n := by
  rw [FebState.put_febs] at found
  split_ifs at found with here
  · exact .inl ⟨here.1, here.2, found⟩
  · refine .inr ⟨?_, found⟩
    by_cases same : k = key
    · exact .inr fun bin => here ⟨bin, same⟩
    · exact .inl same

theorem record_waits (found : s.febs (chooseStripe2 key) key = some m) (task : Task) :
    s.waitsAt key task = m.waits task := by
  simp [FebState.waitsAt, found, recordWaits]

section

variable (sound : SoundBut limbo s)
include sound

theorem SoundBut.waits_le_one
    (found : s.febs (chooseStripe2 key) key = some m) (task : Task) : m.waits task ≤ 1 := by
  rw [← record_waits found]
  by_cases waiting : s.Waiting task ∧ task ∉ limbo
  · obtain ⟨at_, once, others⟩ := sound.queued task waiting.1 waiting.2
    by_cases same : key = at_
    · rw [same, once]
    · rw [others key same]
      exact Nat.zero_le 1
  · have away : ¬ s.Waiting task ∨ task ∈ limbo := by
      by_cases inside : task ∈ limbo
      · exact .inr inside
      · exact .inl fun now => waiting ⟨now, inside⟩
    rw [sound.away task away key]
    exact Nat.zero_le 1

theorem SoundBut.congr {after : FebState} (febs : after.febs = s.febs)
    (threads : after.threads = s.threads) (log : after.log = s.log)
    (preconds : after.preconds = s.preconds) : SoundBut limbo after := by
  have bit : ∀ key, after.bit key = s.bit key := fun key => by simp only [FebState.bit, log]
  have waitsAt : ∀ key task, after.waitsAt key task = s.waitsAt key task := fun key task => by
    simp only [FebState.waitsAt, febs]
  have waiting : ∀ task, after.Waiting task ↔ s.Waiting task := fun task => by
    simp only [FebState.Waiting, threads]
  constructor
  · rw [febs]
    exact sound.stripes
  · rw [febs]
    exact sound.ordered
  · simpa only [febs, bit] using sound.bits
  · simpa only [febs, bit] using sound.absent
  · simpa only [waiting, waitsAt] using sound.queued
  · simpa only [waiting, waitsAt] using sound.away
  · rw [threads]
    exact sound.young
  · simpa only [log, waiting] using sound.conserved
  · rw [preconds]
    exact sound.aligned

theorem SoundBut.copy (dest src : UInt64) : SoundBut limbo (s.copy dest src) :=
  sound.congr (by simp) (by simp) (by simp) (by simp)

theorem SoundBut.putUnused {m n : Option Addrstat} (here : s.febs (chooseStripe2 key) key = m)
    (old : ∀ r, m = some r → r = addrstatNew) (new : ∀ r, n = some r → r = addrstatNew) :
    SoundBut limbo (s.put (chooseStripe2 key) key n) := by
  have full : s.bit key = true := by
    cases found : m with
    | none => exact sound.absent key (here.trans found)
    | some r =>
      rw [sound.bits _ key r (here.trans found), old r found]
      rfl
  have nobody : ∀ {r : Option Addrstat} (task : Task), (∀ x, r = some x → x = addrstatNew) →
      recordWaits task r = 0 := by
    intro r task only
    cases r with
    | none => rfl
    | some x =>
      rw [only x rfl]
      rfl
  have waitsAt : ∀ k task, (s.put (chooseStripe2 key) key n).waitsAt k task = s.waitsAt k task := by
    intro k task
    rw [waitsAt_put]
    split_ifs with same
    · rw [same, nobody task new, FebState.waitsAt, here, nobody task old]
    · rfl
  constructor
  · intro bin k r found
    rcases put_found found with ⟨bin, same, _⟩ | ⟨_, found⟩
    · rw [bin, same]
    · exact sound.stripes bin k r found
  · intro bin k r found
    rcases put_found found with ⟨_, _, found⟩ | ⟨_, found⟩
    · rw [new r found]
      exact ⟨fun _ => ⟨rfl, rfl⟩, nofun⟩
    · exact sound.ordered bin k r found
  · intro bin k r found
    rcases put_found found with ⟨_, same, found⟩ | ⟨_, found⟩
    · rw [same, new r found]
      exact full
    · exact sound.bits bin k r found
  · intro k absent
    rw [FebState.put_febs] at absent
    split_ifs at absent with same
    · rw [same.2]
      exact full
    · exact sound.absent k absent
  · intro task waiting outside
    simpa only [waitsAt] using sound.queued task waiting outside
  · intro task away k
    rw [waitsAt]
    exact sound.away task away k
  · exact sound.young
  · exact sound.conserved
  · exact sound.aligned

end

omit [Topology] in
theorem lastFull_other {key : UInt64} {events : List Event} {bit : Bool}
    (other : ∀ full, Event.setFull key full ∉ events) : lastFull key events bit = bit := by
  induction events generalizing bit with
  | nil => rfl
  | cons event rest ih =>
    have later : ∀ full, Event.setFull key full ∉ rest := fun full member =>
      other full (.tail _ member)
    cases event with
    | setFull k full =>
      have different : k ≠ key := by
        rintro rfl
        exact other full (.head _)
      rw [lastFull, if_neg different]
      exact ih later
    | _ => exact ih later

variable {after : Addrstat} {task : Task} {rest : List Task}

/-- A task that is in no queue puts itself, or is put, into a queue of a record. -/
theorem SoundBut.enqueue (sound : SoundBut limbo s) (preconds : Task → List UInt64)
    {state : ThreadState}
    (found : s.febs (chooseStripe2 key) key = some m)
    (ordered : after.Ordered) (same : after.full = m.full)
    (added : ∀ other, after.waits other = m.waits other + if other = task then 1 else 0)
    (ready : ¬ s.Waiting task ∨ task ∈ limbo) (waiting : state = .nascent ∨ state = .febBlocked)
    (others : ∀ other, other ∈ rest ↔ other ∈ limbo ∧ other ≠ task)
    (aligned : ∀ task, ∀ p ∈ preconds task, qalign p = p) :
    SoundBut rest
      { ((s.put (chooseStripe2 key) key (some after)).setThread task state).emit (.enqueued task)
        with preconds } := by
  have bit : ∀ k, lastFull k (s.log ++ [Event.enqueued task]) true = s.bit k := fun k => by
    rw [lastFull_append]
    rfl
  have elsewhere := sound.away task ready
  have mine : m.waits task = 0 := by rw [← record_waits found, elsewhere]
  have unmoved : ∀ other, other ≠ task →
      update s.threads task state other = s.threads other :=
    fun other different => update_of_ne different state s.threads
  refine ⟨?_, ?_, ?_, ?_, ?_, ?_, ?_, ?_, aligned⟩
  · intro bin k r got
    rcases put_found got with ⟨bin, same, _⟩ | ⟨_, got⟩
    · rw [bin, same]
    · exact sound.stripes bin k r got
  · intro bin k r got
    rcases put_found got with ⟨_, _, got⟩ | ⟨_, got⟩
    · cases got
      exact ordered
    · exact sound.ordered bin k r got
  · intro bin k r got
    change lastFull k (s.log ++ [Event.enqueued task]) true = _
    rcases put_found got with ⟨_, at_, got⟩ | ⟨_, got⟩
    · cases got
      rw [bit, at_, same, sound.bits _ key m found]
    · rw [bit, sound.bits bin k r got]
  · intro k nothing
    change lastFull k (s.log ++ [Event.enqueued task]) true = _
    change (s.put (chooseStripe2 key) key (some after)).febs (chooseStripe2 k) k = none at nothing
    rw [FebState.put_febs] at nothing
    split_ifs at nothing
    rw [bit, sound.absent k nothing]
  · intro other wait outside
    change ∃ k, (s.put (chooseStripe2 key) key (some after)).waitsAt k other = 1 ∧
      ∀ j, j ≠ k → (s.put (chooseStripe2 key) key (some after)).waitsAt j other = 0
    by_cases me : other = task
    · subst me
      refine ⟨key, ?_, ?_⟩
      · rw [waitsAt_put, if_pos rfl, recordWaits, added, mine, if_pos rfl]
      · intro j different
        rw [waitsAt_put, if_neg different, elsewhere]
    · have before : s.Waiting other := by
        change update s.threads task state other = _ ∨
          update s.threads task state other = _ at wait
        rw [unmoved other me] at wait
        exact wait
      have still : other ∉ limbo := fun inside => outside ((others other).mpr ⟨inside, me⟩)
      obtain ⟨k, once, zero⟩ := sound.queued other before still
      have kept : ∀ j, (s.put (chooseStripe2 key) key (some after)).waitsAt j other =
          s.waitsAt j other := by
        intro j
        rw [waitsAt_put]
        split_ifs with here
        · rw [here, recordWaits, added, if_neg me, Nat.add_zero, record_waits found]
        · rfl
      exact ⟨k, by rw [kept, once], fun j different => by rw [kept, zero j different]⟩
  · intro other gone j
    change (s.put (chooseStripe2 key) key (some after)).waitsAt j other = 0
    have me : other ≠ task := by
      rintro rfl
      rcases gone with idle | inside
      · apply idle
        change update s.threads other state other = _ ∨
          update s.threads other state other = _
        rw [update_self]
        exact waiting
      · exact ((others other).mp inside).2 rfl
    have before : ¬ s.Waiting other ∨ other ∈ limbo := by
      rcases gone with idle | inside
      · refine .inl fun wait => idle ?_
        change update s.threads task state other = _ ∨
          update s.threads task state other = _
        rw [unmoved other me]
        exact wait
      · exact .inr ((others other).mp inside).1
    have zero := sound.away other before j
    rw [waitsAt_put]
    split_ifs with here
    · rw [recordWaits, added, if_neg me, Nat.add_zero, ← record_waits found, ← here, zero]
    · exact zero
  · intro other inside
    obtain ⟨before, me⟩ := (others other).mp inside
    change update s.threads task state other = _
    rw [unmoved other me]
    exact sound.young other before
  · intro other
    have before := sound.conserved other
    change (s.log ++ [Event.enqueued task]).count _ = (s.log ++ [Event.enqueued task]).count _ +
      (s.log ++ [Event.enqueued task]).count _ + if (update s.threads task state other = _ ∨
        update s.threads task state other = _) ∧ other ∉ rest then 1 else 0
    simp only [List.count_append]
    by_cases me : other = task
    · subst me
      have now : ¬ (s.Waiting other ∧ other ∉ limbo) := by
        rintro ⟨wait, outside⟩
        exact ready.elim (fun idle => idle wait) outside
      have out : other ∉ rest := fun inside => ((others other).mp inside).2 rfl
      rw [if_neg now] at before
      simp [waiting, out, before]
    · have different : Event.enqueued task ≠ Event.enqueued other := by
        intro equal
        cases equal
        exact me rfl
      have iff : other ∉ rest ↔ other ∉ limbo := by
        rw [others other]
        simp [me]
      simp only [unmoved other me, iff, List.count_singleton, beq_iff_eq, different, reduceCtorEq,
        if_false, Nat.add_zero]
      exact before

theorem SoundBut.settle (sound : SoundBut limbo s) (preconds : Task → List UInt64)
    {state : ThreadState}
    (ready : ¬ s.Waiting task ∨ task ∈ limbo)
    (settled : state ≠ .nascent ∧ state ≠ .febBlocked)
    (others : ∀ other, other ∈ rest ↔ other ∈ limbo ∧ other ≠ task)
    (aligned : ∀ task, ∀ p ∈ preconds task, qalign p = p) :
    SoundBut rest { s.setThread task state with preconds } := by
  have unmoved : ∀ other, other ≠ task →
      update s.threads task state other = s.threads other :=
    fun other different => update_of_ne different state s.threads
  have quiet : ¬ (update s.threads task state task = .nascent ∨
      update s.threads task state task = .febBlocked) := by
    rw [update_self]
    exact fun wait => wait.elim settled.1 settled.2
  refine ⟨sound.stripes, sound.ordered, sound.bits, sound.absent, ?_, ?_, ?_, ?_, aligned⟩
  · intro other wait outside
    have me : other ≠ task := by
      rintro rfl
      exact quiet wait
    change update s.threads task state other = _ ∨
      update s.threads task state other = _ at wait
    rw [unmoved other me] at wait
    exact sound.queued other wait fun inside => outside ((others other).mpr ⟨inside, me⟩)
  · intro other gone
    by_cases me : other = task
    · rw [me]
      exact sound.away task ready
    · refine sound.away other ?_
      rcases gone with idle | inside
      · refine .inl fun wait => idle ?_
        change update s.threads task state other = _ ∨
          update s.threads task state other = _
        rw [unmoved other me]
        exact wait
      · exact .inr ((others other).mp inside).1
  · intro other inside
    obtain ⟨before, me⟩ := (others other).mp inside
    change update s.threads task state other = _
    rw [unmoved other me]
    exact sound.young other before
  · intro other
    have before := sound.conserved other
    change s.log.count _ = s.log.count _ + s.log.count _ +
      if (update s.threads task state other = _ ∨
        update s.threads task state other = _) ∧ other ∉ rest then 1 else 0
    by_cases me : other = task
    · subst me
      have now : ¬ (s.Waiting other ∧ other ∉ limbo) := by
        rintro ⟨wait, outside⟩
        exact ready.elim (fun idle => idle wait) outside
      rw [if_neg now] at before
      rw [if_neg fun wait => quiet wait.1]
      exact before
    · have iff : other ∉ rest ↔ other ∉ limbo := by
        rw [others other]
        simp [me]
      simp only [unmoved other me, iff]
      exact before

theorem SoundBut.launched (sound : SoundBut limbo s) (task : Task) :
    SoundBut limbo (s.emit (.launched task)) := by
  have bit : ∀ k, (s.emit (.launched task)).bit k = s.bit k := fun k => lastFull_append k s.log _ true
  refine ⟨sound.stripes, sound.ordered, ?_, ?_, sound.queued, sound.away, sound.young, ?_,
    sound.aligned⟩
  · intro bin key m found
    rw [bit]
    exact sound.bits bin key m found
  · intro key absent
    rw [bit]
    exact sound.absent key absent
  · intro other
    have before := sound.conserved other
    change (s.log ++ [Event.launched task]).count _ = (s.log ++ [Event.launched task]).count _ +
      (s.log ++ [Event.launched task]).count _ + if s.Waiting other ∧ other ∉ limbo then 1 else 0
    simp only [List.count_append, List.count_singleton, beq_iff_eq, reduceCtorEq, if_false,
      Nat.add_zero]
    exact before

omit [Topology] in
theorem update_aligned {preconds : Task → List UInt64} {list : List UInt64}
    (aligned : ∀ task, ∀ p ∈ preconds task, qalign p = p) (new : ∀ p ∈ list, qalign p = p) :
    ∀ other, ∀ p ∈ update preconds task list other, qalign p = p := by
  intro other
  by_cases same : other = task
  · subst same
    rw [update_self]
    exact new
  · rw [update_of_ne same]
    exact aligned other

theorem SoundBut.checkFebPreconds (sound : SoundBut limbo s)
    (ready : ¬ s.Waiting task ∨ task ∈ limbo)
    (others : ∀ other, other ∈ rest ↔ other ∈ limbo ∧ other ≠ task) {list : List UInt64}
    (aligned : ∀ p ∈ list, qalign p = p) : SoundBut rest (s.checkFebPreconds task list).1 := by
  induction list with
  | nil => exact sound.settle _ ready (by decide) others (update_aligned sound.aligned aligned)
  | cons this list ih =>
    have later := ih fun p member => aligned p (.tail _ member)
    have same : qalign this = this := aligned this (.head _)
    unfold FebState.checkFebPreconds
    simp only [Lookup.lockbin, same]
    cases found : s.febs (chooseStripe2 this) this with
    | none => exact later
    | some m =>
      simp only
      by_cases full : m.full = true
      · rw [if_pos full]
        exact later
      · rw [if_neg full]
        have empty : m.full = false := by simpa using full
        have writers := (sound.ordered _ _ m found).2 empty
        refine sound.enqueue _ found ⟨fun other => absurd other full, fun _ => writers⟩ rfl ?_ ready
          (.inl rfl) others (update_aligned sound.aligned aligned)
        intro other
        simp only [Addrstat.waits, waits_cons, eq_comm]
        omega

theorem SoundBut.precondLaunch {tasks : List Task} (sound : SoundBut tasks s)
    (distinct : tasks.Nodup) : Sound (s.precondLaunch tasks) := by
  induction tasks generalizing s with
  | nil => exact sound
  | cons task rest ih =>
    obtain ⟨fresh, distinct⟩ := List.nodup_cons.mp distinct
    have others : ∀ other, other ∈ rest ↔ other ∈ task :: rest ∧ other ≠ task := by
      intro other
      constructor
      · intro inside
        refine ⟨.tail _ inside, ?_⟩
        rintro rfl
        exact fresh inside
      · rintro ⟨inside, different⟩
        exact (List.mem_cons.mp inside).resolve_left different
    have checked := sound.checkFebPreconds (.inr (.head _)) others (sound.aligned task)
    unfold FebState.precondLaunch
    apply ih _ distinct
    split_ifs
    · exact checked
    · exact checked.launched task

omit [Topology] in
theorem collected_count (task : Task) (woken : List Wake) :
    (FebState.collected woken).count task = woken.count (.collect task) := by
  induction woken with
  | nil => rfl
  | cons wake rest ih =>
    cases wake with
    | collect other => simp [FebState.collected, List.count_cons, ih]
    | _ => simp [FebState.collected, ih]

variable {woken : List Wake}

omit [Topology] in
theorem mem_collected : task ∈ FebState.collected woken ↔ Wake.collect task ∈ woken := by
  rw [← List.count_pos_iff, collected_count, List.count_pos_iff]

theorem SoundBut.febRemove (sound : SoundBut limbo s) (maddr : UInt64) :
    SoundBut limbo (s.febRemove maddr) := by
  unfold FebState.febRemove
  cases found : s.febs (chooseStripe2 maddr) maddr with
  | none => simpa only [found] using sound
  | some m =>
    simp only [found]
    split_ifs with unused
    · refine sound.putUnused found ?_ nofun
      intro r same
      cases same
      exact unused_eq_new unused
    · exact sound

omit [Topology] in
theorem Woken.lastFull {nascent : Task → Bool} (wakes : Woken nascent m after woken) (bit : Bool) :
    Feb.lastFull key (woken.filterMap (Wake.event key)) bit = after.full := by
  obtain ⟨front, back, rfl, last⟩ := wakes.bit
  have silent : ∀ full, Event.setFull key full ∉ back.filterMap (Wake.event key) := by
    intro full member
    obtain ⟨wake, inside, same⟩ := List.mem_filterMap.mp member
    cases wake with
    | setFull other => exact last other inside
    | _ => cases same
  have event : Wake.event key (.setFull after.full) = some (.setFull key after.full) := rfl
  rw [List.filterMap_append, List.filterMap_cons_some event, lastFull_append, Feb.lastFull,
    if_pos rfl, lastFull_other silent]

omit [Topology] in
theorem lastFull_elsewhere {k : UInt64} (different : k ≠ key) (woken : List Wake) (bit : Bool) :
    Feb.lastFull k (woken.filterMap (Wake.event key)) bit = bit := by
  apply lastFull_other
  intro full member
  obtain ⟨wake, _, same⟩ := List.mem_filterMap.mp member
  cases wake with
  | setFull other =>
    cases same
    exact different rfl
  | _ => cases same

omit [Topology] in
theorem count_scheduled (task : Task) (woken : List Wake) :
    (woken.filterMap (Wake.event key)).count (.scheduled task) = woken.count (.schedule task) := by
  induction woken with
  | nil => rfl
  | cons wake rest ih =>
    cases wake <;> simp [List.filterMap_cons, Wake.event, List.count_cons, ih]

omit [Topology] in
theorem count_handed (task : Task) (woken : List Wake) :
    (woken.filterMap (Wake.event key)).count (.handed task) = woken.count (.collect task) := by
  induction woken with
  | nil => rfl
  | cons wake rest ih =>
    cases wake <;> simp [List.filterMap_cons, Wake.event, List.count_cons, ih]

omit [Topology] in
theorem count_enqueued (task : Task) (woken : List Wake) :
    (woken.filterMap (Wake.event key)).count (.enqueued task) = 0 := by
  induction woken with
  | nil => rfl
  | cons wake rest ih =>
    cases wake <;> simp [List.filterMap_cons, Wake.event, ih]

section

variable (sound : Sound s) (found : s.febs (chooseStripe2 key) key = some m)
include sound found

theorem SoundBut.wake (wakes : Woken s.nascent m after woken) :
    SoundBut (FebState.collected woken)
      ((s.put (chooseStripe2 key) key (some after)).perform key woken) := by
  have bit : ∀ k, ((s.put (chooseStripe2 key) key (some after)).perform key woken).bit k =
      if k = key then after.full else s.bit k := by
    intro k
    simp only [FebState.bit, perform_log, FebState.put_log, lastFull_append]
    split_ifs with here
    · rw [here, wakes.lastFull]
    · rw [lastFull_elsewhere here]
  have waitsAt : ∀ k task,
      ((s.put (chooseStripe2 key) key (some after)).perform key woken).waitsAt k task =
        if k = key then after.waits task else s.waitsAt k task := by
    intro k task
    have put := waitsAt_put s key (some after) k task
    simp only [FebState.waitsAt, perform_febs] at put ⊢
    rw [put]
    rfl
  have threads : ∀ task,
      ((s.put (chooseStripe2 key) key (some after)).perform key woken).threads task =
        if Wake.schedule task ∈ woken then .running else s.threads task :=
    fun task => perform_threads _ key woken task
  -- a task that is woken was waiting here, and only here, and is in no queue any more
  have taken : ∀ task, Wake.schedule task ∈ woken ∨ Wake.collect task ∈ woken →
      s.Waiting task ∧ (∀ k, k ≠ key → s.waitsAt k task = 0) ∧ after.waits task = 0 ∧
        woken.count (.schedule task) + woken.count (.collect task) = 1 := by
    intro task member
    have once := sound.waits_le_one found task
    have each := wakes.each task
    have positive : 0 < woken.count (.schedule task) + woken.count (.collect task) := by
      rcases member with member | member
      · exact Nat.add_pos_left (List.count_pos_iff.mpr member) _
      · exact Nat.add_pos_right _ (List.count_pos_iff.mpr member)
    have here : s.waitsAt key task ≠ 0 := by
      rw [record_waits found]
      omega
    have waiting : s.Waiting task := by
      by_contra idle
      exact here (sound.away task (.inl idle) key)
    refine ⟨waiting, ?_, by omega, by omega⟩
    obtain ⟨at_, _, others⟩ := sound.queued task waiting (List.not_mem_nil)
    intro k different
    by_cases same : key = at_
    · exact others k (same ▸ different)
    · exact absurd (others key same) here
  have untouched : ∀ task, Wake.schedule task ∉ woken → Wake.collect task ∉ woken →
      after.waits task = m.waits task := by
    intro task notScheduled notCollected
    have each := wakes.each task
    rw [List.count_eq_zero_of_not_mem notScheduled, List.count_eq_zero_of_not_mem notCollected]
      at each
    omega
  refine ⟨?_, ?_, ?_, ?_, ?_, ?_, ?_, ?_, ?_⟩
  · intro bin k r got
    rw [perform_febs] at got
    rcases put_found got with ⟨bin, same, _⟩ | ⟨_, got⟩
    · rw [bin, same]
    · exact sound.stripes bin k r got
  · intro bin k r got
    rw [perform_febs] at got
    rcases put_found got with ⟨_, _, got⟩ | ⟨_, got⟩
    · cases got
      exact wakes.ordered
    · exact sound.ordered bin k r got
  · intro bin k r got
    rw [perform_febs] at got
    rw [bit]
    rcases put_found got with ⟨_, same, got⟩ | ⟨different, old⟩
    · cases got
      rw [if_pos same]
    · have other : k ≠ key := by
        rintro rfl
        exact different.elim (fun no => no rfl) fun no => no (sound.stripes bin k r old)
      rw [if_neg other, sound.bits bin k r old]
  · intro k absent
    rw [perform_febs, FebState.put_febs] at absent
    split_ifs at absent with here
    have other : k ≠ key := by
      rintro rfl
      exact here ⟨rfl, rfl⟩
    rw [bit, if_neg other, sound.absent k absent]
  · intro task waiting outside
    rw [mem_collected] at outside
    have notScheduled : Wake.schedule task ∉ woken := by
      intro member
      rw [FebState.Waiting, threads, if_pos member] at waiting
      exact waiting.elim nofun nofun
    rw [FebState.Waiting, threads, if_neg notScheduled] at waiting
    obtain ⟨at_, once, others⟩ := sound.queued task waiting (List.not_mem_nil)
    have kept : ∀ k, ((s.put (chooseStripe2 key) key (some after)).perform key woken).waitsAt k task =
        s.waitsAt k task := by
      intro k
      rw [waitsAt]
      split_ifs with here
      · rw [here, untouched task notScheduled outside, record_waits found]
      · rfl
    exact ⟨at_, by rw [kept, once], fun k different => by rw [kept, others k different]⟩
  · intro task gone k
    rw [mem_collected] at gone
    rw [waitsAt]
    by_cases member : Wake.schedule task ∈ woken ∨ Wake.collect task ∈ woken
    · obtain ⟨_, elsewhere, here, _⟩ := taken task member
      split_ifs with same
      · exact here
      · exact elsewhere k same
    · rw [not_or] at member
      have idle : ¬ s.Waiting task := by
        intro waiting
        refine gone.elim (fun idle => idle ?_) member.2
        rw [FebState.Waiting, threads, if_neg member.1]
        exact waiting
      have zero := sound.away task (.inl idle)
      split_ifs with same
      · rw [untouched task member.1 member.2, ← record_waits found, zero]
      · exact zero k
  · intro task inside
    have member := mem_collected.mp inside
    have notScheduled : Wake.schedule task ∉ woken := by
      intro scheduled
      have one := (taken task (.inr member)).2.2.2
      have first := List.count_pos_iff.mpr scheduled
      have second := List.count_pos_iff.mpr member
      omega
    rw [threads, if_neg notScheduled]
    simpa [FebState.nascent] using wakes.young task member
  · intro task
    have before := sound.conserved task
    rw [perform_log, FebState.put_log, List.count_append, List.count_append, List.count_append,
      count_scheduled, count_handed, count_enqueued]
    by_cases member : Wake.schedule task ∈ woken ∨ Wake.collect task ∈ woken
    · obtain ⟨waiting, _, _, one⟩ := taken task member
      have out : ¬ (((s.put (chooseStripe2 key) key (some after)).perform key woken).Waiting task ∧
          task ∉ FebState.collected woken) := by
        rintro ⟨still, outside⟩
        rw [mem_collected] at outside
        have scheduled := member.resolve_right outside
        rw [FebState.Waiting, threads, if_pos scheduled] at still
        exact still.elim nofun nofun
      rw [if_pos ⟨waiting, List.not_mem_nil⟩] at before
      rw [if_neg out]
      omega
    · rw [not_or] at member
      have same : (((s.put (chooseStripe2 key) key (some after)).perform key woken).Waiting task ∧
          task ∉ FebState.collected woken) ↔ (s.Waiting task ∧ task ∉ ([] : List Task)) := by
        rw [FebState.Waiting, threads, if_neg member.1, mem_collected]
        simp [member.2, FebState.Waiting]
      simp only [same]
      rw [List.count_eq_zero_of_not_mem member.1, List.count_eq_zero_of_not_mem member.2]
      exact before
  · rw [perform_preconds]
    exact sound.aligned

theorem SoundBut.release (wakes : Woken s.nascent m after woken)
    (removeable : Bool) : Sound (s.release (chooseStripe2 key) key after woken removeable) := by
  have distinct : (FebState.collected woken).Nodup := by
    rw [List.nodup_iff_count_le_one]
    intro task
    have once := sound.waits_le_one found task
    have each := wakes.each task
    rw [collected_count]
    omega
  have launched := (SoundBut.wake sound found wakes).precondLaunch distinct
  unfold FebState.release
  simp only
  split_ifs
  · exact launched.febRemove key
  · exact launched

theorem SoundBut.gotlockFill : Sound (s.gotlockFill (chooseStripe2 key) key m) :=
  SoundBut.release sound found
    (gotlockFillInner_woken s.nascent key (sound.ordered _ key m found)) _

theorem SoundBut.gotlockEmpty : Sound (s.gotlockEmpty (chooseStripe2 key) key m) :=
  SoundBut.release sound found
    (gotlockEmptyInner_woken s.nascent key (sound.ordered _ key m found)) _

end

omit [Topology] in
theorem idle_of_running (running : s.threads me = .running) : ¬ s.Waiting me := by
  rintro (other | other) <;> rw [running] at other <;> cases other

theorem SoundBut.block (sound : Sound s)
    (found : s.febs (chooseStripe2 key) key = some m) (running : s.threads me = .running)
    (ordered : after.Ordered) (same : after.full = m.full)
    (added : ∀ other, after.waits other = m.waits other + if other = me then 1 else 0) :
    Sound (s.block me (chooseStripe2 key) key after) :=
  sound.enqueue s.preconds found ordered same added (.inl (idle_of_running running))
    (.inr rfl) (fun other => by simp) sound.aligned

omit [Topology] in
theorem block_put (m after : Addrstat) (lockbin : UInt64) :
    (s.put lockbin key (some m)).block me lockbin key after = s.block me lockbin key after := by
  simp only [FebState.block, FebState.put_put]

theorem gotlockEmpty_put (m : Addrstat) (lockbin : UInt64) :
    (s.put lockbin key (some m)).gotlockEmpty lockbin key m = s.gotlockEmpty lockbin key m := by
  have nascent : (s.put lockbin key (some m)).nascent = s.nascent := rfl
  simp only [FebState.gotlockEmpty, FebState.release, FebState.put_put, nascent]

theorem SoundBut.lookupOrNew (sound : Sound s) {alloc : Alloc}
    (found : Feb.lookupOrNew s alloc (chooseStripe2 key) key = some m) :
    Sound (s.put (chooseStripe2 key) key (some m)) := by
  unfold Feb.lookupOrNew at found
  cases here : s.febs (chooseStripe2 key) key with
  | none =>
    simp only [here] at found
    split_ifs at found
    cases found
    exact sound.putUnused here nofun fun r same => by cases same; rfl
  | some r =>
    simp only [here, Option.some.injEq] at found
    subst found
    have same : s.put (chooseStripe2 key) key (some r) = s := by
      have febs : update s.febs (chooseStripe2 key)
          (update (s.febs (chooseStripe2 key)) key (some r)) = s.febs := by
        rw [← here, update_eq_self, update_eq_self]
      simp only [FebState.put, febs]
    rw [same]
    exact sound

omit [Topology] in
theorem lookupOrNew_empty {alloc : Alloc} {lockbin : UInt64}
    (found : lookupOrNew s alloc lockbin key = some m) (empty : ¬ m.full = true) :
    s.febs lockbin key = some m := by
  unfold lookupOrNew at found
  cases here : s.febs lockbin key with
  | none =>
    simp only [here] at found
    split_ifs at found
    cases found
    exact absurd rfl empty
  | some r => simpa only [here] using found

def Op.Aligned : Op → Prop
  | .empty p | .fill p | .writeF p _ | .writeEF p _ | .writeEFNb p _ | .readFF _ p | .readFFNb _ p
  | .readFE _ p | .readFENb _ p | .febStatus p => qalign p = p
  | .spawn _ preconds => ∀ p ∈ preconds, qalign p = p
  | .start _ | .finish => True

variable {dest : UInt64}

section

variable (sound : Sound s)
include sound

theorem qthreadEmpty_sound (alloc : Alloc)
    (aligned : qalign dest = dest) : Sound (qthreadEmpty alloc dest s).1 := by
  unfold qthreadEmpty
  simp only [Lookup.lockbin, aligned]
  cases found : s.febs (chooseStripe2 dest) dest with
  | none =>
    simp only
    split_ifs
    · have created : Sound (s.put (chooseStripe2 dest) dest (some addrstatNew)) :=
        sound.putUnused found nofun fun r same => by cases same; rfl
      have wakes : Woken (s.put (chooseStripe2 dest) dest (some addrstatNew)).nascent addrstatNew
          { addrstatNew with full := false } [.setFull false] :=
        ⟨⟨nofun, fun _ => rfl⟩, fun task => rfl, nofun, [], [], rfl, nofun⟩
      have emptied := SoundBut.wake created (FebState.put_self s _ dest _) wakes
      rw [FebState.put_put] at emptied
      exact emptied
    · exact sound
  | some m => exact SoundBut.gotlockEmpty sound found

theorem qthreadFill_sound (aligned : qalign dest = dest) : Sound (qthreadFill dest s).1 := by
  unfold qthreadFill
  simp only [Lookup.lockbin, aligned]
  cases found : s.febs (chooseStripe2 dest) dest with
  | none => exact sound
  | some m => exact SoundBut.gotlockFill sound found

theorem copy_gotlockFill_sound {dest src : UInt64}
    (found : s.febs (chooseStripe2 key) key = some m) :
    Sound ((s.copy dest src).gotlockFill (chooseStripe2 key) key m) :=
  SoundBut.gotlockFill (sound.copy dest src) (by rw [FebState.copy_febs, found])

theorem qthreadWriteF_sound (src : UInt64)
    (aligned : qalign dest = dest) : Sound (qthreadWriteF dest src s).1 := by
  unfold qthreadWriteF
  simp only [Lookup.lockbin, aligned]
  cases found : s.febs (chooseStripe2 dest) dest with
  | none => exact sound.copy dest src
  | some m => exact copy_gotlockFill_sound sound found

theorem qthreadWriteEF_sound (running : s.threads me = .running) (alloc : Alloc)
    (src : UInt64) (aligned : qalign dest = dest) :
    Sound (qthreadWriteEF me alloc dest src s).1 := by
  unfold qthreadWriteEF
  simp only [Lookup.lockbin, aligned]
  cases found : lookupOrNew s alloc (chooseStripe2 dest) dest with
  | none => exact sound
  | some m =>
    have present := SoundBut.lookupOrNew sound found
    simp only
    split_ifs with full room
    · rw [← block_put m]
      have stored := FebState.put_self s (chooseStripe2 dest) dest (some m)
      have ordered := present.ordered _ dest m stored
      refine SoundBut.block present stored running ?_ rfl ?_
      · exact ⟨ordered.1, fun empty => absurd full (by simp [show m.full = false from empty])⟩
      · intro other
        simp only [Addrstat.waits, waits_cons, eq_comm]
        omega
    · exact present
    · exact copy_gotlockFill_sound sound (lookupOrNew_empty found full)

theorem qthreadWriteEFNb_sound (src : UInt64)
    (aligned : qalign dest = dest) : Sound (qthreadWriteEFNb dest src s).1 := by
  unfold qthreadWriteEFNb
  simp only [Lookup.lockbin, aligned]
  cases found : s.febs (chooseStripe2 dest) dest with
  | none => exact sound
  | some m =>
    simp only
    split_ifs
    · exact sound
    · exact copy_gotlockFill_sound sound found

end

variable {src : UInt64}

theorem qthreadReadFF_sound (sound : Sound s) (running : s.threads me = .running) (alloc : Alloc)
    (dest : UInt64) (aligned : qalign src = src) :
    Sound (qthreadReadFF me alloc dest src s).1 := by
  unfold qthreadReadFF
  simp only [Lookup.lockbin, aligned]
  cases found : s.febs (chooseStripe2 src) src with
  | none => exact sound.copy dest src
  | some m =>
    simp only
    split_ifs with full room
    · exact sound.copy dest src
    · have ordered := sound.ordered _ src m found
      refine SoundBut.block sound found running ⟨fun other => absurd other full, ordered.2⟩ rfl ?_
      intro other
      simp only [Addrstat.waits, waits_cons, eq_comm]
      omega
    · exact sound

theorem qthreadReadFFNb_sound (sound : Sound s) (dest : UInt64)
    (aligned : qalign src = src) : Sound (qthreadReadFFNb dest src s).1 := by
  unfold qthreadReadFFNb
  simp only [Lookup.lockbin, aligned]
  cases found : s.febs (chooseStripe2 src) src with
  | none => exact sound.copy dest src
  | some m =>
    simp only
    split_ifs
    · exact sound.copy dest src
    · exact sound

omit [Topology] in
theorem copy_put (s : FebState) (dest src lockbin key : UInt64) (m : Option Addrstat) :
    (s.copy dest src).put lockbin key m = (s.put lockbin key m).copy dest src := by
  unfold FebState.copy
  split <;> rfl

theorem copy_gotlockEmpty_sound {dest src : UInt64}
    (present : Sound (s.put (chooseStripe2 key) key (some m))) :
    Sound ((s.copy dest src).gotlockEmpty (chooseStripe2 key) key m) := by
  rw [← gotlockEmpty_put, copy_put]
  exact SoundBut.gotlockEmpty (present.copy dest src)
    (by rw [FebState.copy_febs, FebState.put_self])

theorem qthreadReadFE_sound (sound : Sound s) (running : s.threads me = .running) (alloc : Alloc)
    (dest : UInt64) (aligned : qalign src = src) :
    Sound (qthreadReadFE me alloc dest src s).1 := by
  unfold qthreadReadFE
  simp only [Lookup.lockbin, aligned]
  cases found : lookupOrNew s alloc (chooseStripe2 src) src with
  | none => exact sound
  | some m =>
    have present := SoundBut.lookupOrNew sound found
    simp only
    split_ifs with full room
    · exact copy_gotlockEmpty_sound present
    · rw [← block_put m]
      have stored := FebState.put_self s (chooseStripe2 src) src (some m)
      have ordered := present.ordered _ src m stored
      refine SoundBut.block present stored running ⟨fun other => absurd other full, ordered.2⟩ rfl ?_
      intro other
      simp only [Addrstat.waits, waits_cons, eq_comm]
      omega
    · exact present

theorem qthreadReadFENb_sound (sound : Sound s) (alloc : Alloc) (dest : UInt64)
    (aligned : qalign src = src) : Sound (qthreadReadFENb alloc dest src s).1 := by
  unfold qthreadReadFENb
  simp only [Lookup.lockbin, aligned]
  cases found : lookupOrNew s alloc (chooseStripe2 src) src with
  | none => exact sound
  | some m =>
    have present := SoundBut.lookupOrNew sound found
    simp only
    split_ifs
    · exact copy_gotlockEmpty_sound present
    · exact present

theorem qthreadFebStatus_same (addr : UInt64) : (qthreadFebStatus addr s).1 = s := by
  unfold qthreadFebStatus
  simp only [Lookup.lockbin]
  cases s.febs (chooseStripe2 addr) (qalign addr) <;> rfl

theorem qthreadSpawn_sound (sound : Sound s) (unborn : s.threads task = .unborn)
    {preconds : List UInt64} (aligned : ∀ p ∈ preconds, qalign p = p) :
    Sound (qthreadSpawn task preconds s).1 := by
  have idle : ¬ s.Waiting task := by
    rintro (other | other) <;> rw [unborn] at other <;> cases other
  have checked : Sound (s.checkFebPreconds task preconds).1 :=
    sound.checkFebPreconds (.inl idle) (fun other => by simp) aligned
  unfold qthreadSpawn
  simp only
  split_ifs
  · exact checked
  · exact checked.launched task

theorem Call.apply_sound {call : Call} (sound : Sound s) (enabled : call.Enabled s)
    (aligned : call.op.Aligned) : Sound (call.apply s).1 := by
  obtain ⟨me, op, alloc⟩ := call
  cases op with
  | empty dest => exact qthreadEmpty_sound sound alloc aligned
  | fill dest => exact qthreadFill_sound sound aligned
  | writeF dest src => exact qthreadWriteF_sound sound src aligned
  | writeEF dest src => exact qthreadWriteEF_sound sound enabled alloc src aligned
  | writeEFNb dest src => exact qthreadWriteEFNb_sound sound src aligned
  | readFF dest src => exact qthreadReadFF_sound sound enabled alloc dest aligned
  | readFFNb dest src => exact qthreadReadFFNb_sound sound dest aligned
  | readFE dest src => exact qthreadReadFE_sound sound enabled alloc dest aligned
  | readFENb dest src => exact qthreadReadFENb_sound sound alloc dest aligned
  | febStatus addr =>
    have same : (Call.apply ⟨me, .febStatus addr, alloc⟩ s).1 = s := qthreadFebStatus_same addr
    rw [same]
    exact sound
  | spawn task preconds => exact qthreadSpawn_sound sound enabled.2 aligned
  | start task =>
    have idle : ¬ s.Waiting task := by
      rintro (other | other) <;> rw [show s.threads task = .new from enabled] at other <;>
        cases other
    exact sound.settle s.preconds (.inl idle) (by decide) (fun other => by simp)
      sound.aligned
  | finish =>
    exact sound.settle s.preconds (.inl (idle_of_running enabled)) (by decide)
      (fun other => by simp) sound.aligned

theorem Fresh.sound (fresh : Fresh s) : Sound s := by
  have idle : ∀ task, ¬ s.Waiting task := by
    intro task waiting
    rcases fresh.threads task with state | state | state <;> rw [FebState.Waiting, state] at waiting <;>
      exact waiting.elim nofun nofun
  have never : ∀ {bin key : UInt64} {m : Addrstat}, ¬ s.febs bin key = some m := by
    intro bin key m found
    rw [fresh.febs] at found
    cases found
  refine ⟨fun _ _ _ found => absurd found never, fun _ _ _ found => absurd found never,
    fun _ _ _ found => absurd found never, ?_, ?_, ?_, nofun, ?_, ?_⟩
  · intro key _
    rw [FebState.bit, fresh.log]
    rfl
  · intro task waiting
    exact absurd waiting (idle task)
  · intro task _ key
    rw [FebState.waitsAt, fresh.febs]
    rfl
  · intro task
    rw [fresh.log, if_neg fun waiting => idle task waiting.1]
    rfl
  · intro task p member
    rw [fresh.preconds] at member
    cases member

/-- What the queues promise: readers wait on empty words only and writers on full ones only; a
record agrees with the last bit its word was set to, and a word without one is full with no
waiter; a task that waits stands in one queue of one word, once, and a task that does not
stands in none; and a task has been scheduled or handed to its precondition check exactly as
often as it has left a queue. -/
structure NoLostWakeUp (s : FebState) : Prop where
  full : ∀ bin key m, s.febs bin key = some m → m.full = true → m.FEQ = [] ∧ m.FFQ = []
  empty : ∀ bin key m, s.febs bin key = some m → m.full = false → m.EFQ = []
  record : ∀ bin key m, s.febs bin key = some m →
    bin = chooseStripe2 key ∧ m.full = s.bit key
  absent : ∀ key, s.febs (chooseStripe2 key) key = none →
    s.bit key = true ∧ ∀ task, s.waitsAt key task = 0
  once : ∀ task, s.Waiting task →
    ∃ key, s.waitsAt key task = 1 ∧ ∀ other, other ≠ key → s.waitsAt other task = 0
  never : ∀ task, ¬ s.Waiting task → ∀ key, s.waitsAt key task = 0
  leaves : ∀ task, s.log.count (.enqueued task) =
    s.log.count (.scheduled task) + s.log.count (.handed task) + if s.Waiting task then 1 else 0

theorem SoundBut.noLostWakeUp (sound : Sound s) : NoLostWakeUp s where
  full := fun bin key m found => (sound.ordered bin key m found).1
  empty := fun bin key m found => (sound.ordered bin key m found).2
  record := fun bin key m found =>
    ⟨sound.stripes bin key m found, (sound.bits bin key m found).symm⟩
  absent := by
    intro key missing
    refine ⟨sound.absent key missing, fun task => ?_⟩
    rw [FebState.waitsAt, missing]
    rfl
  once := fun task waiting => sound.queued task waiting List.not_mem_nil
  never := fun task idle => sound.away task (.inl idle)
  leaves := by
    intro task
    simpa using sound.conserved task

/-- Whatever calls tasks make on aligned words, in whatever order, no wake-up is lost. -/
theorem run_noLostWakeUp {start : FebState} {calls : List Call} (fresh : Fresh start)
    (run : Run (Guarded (fun _ call => call.op.Aligned) Step) start calls s) :
    NoLostWakeUp s := by
  have sound : Sound s := by
    refine run.preserves ?_ fresh.sound
    rintro before call after kept ⟨aligned, enabled, rfl⟩
    exact call.apply_sound kept enabled aligned
  exact sound.noLostWakeUp

instance (call : Call) (s : FebState) : Decidable (call.Enabled s) := by
  unfold Call.Enabled
  cases call.op <;> exact inferInstance

def twoTasks : FebState where
  febs := fun _ _ => none
  memory := fun _ => 0
  threads := fun task => if task < 2 then .running else .unborn
  preconds := fun _ => []
  log := []

omit [Topology] in
/-- Task 0 empties a word, task 1 waits for it and a task is spawned that needs it; then task 0
fills it. -/
theorem run_noLostWakeUp_fill :
    ∃ s, (s.log = [.setFull 0x1000 false, .enqueued 1, .enqueued 2, .setFull 0x1000 true,
      .handed 2, .scheduled 1, .launched 2]) ∧ @NoLostWakeUp twoWorkers s := by
  let := twoWorkers
  have fresh : Fresh twoTasks := by
    refine ⟨fun _ _ => rfl, ?_, fun _ => rfl, rfl⟩
    intro task
    simp only [twoTasks]
    split_ifs
    · exact .inr (.inr rfl)
    · exact .inl rfl
  let calls : List Call := [⟨0, .empty 0x1000, ⟨true, true⟩⟩,
    ⟨1, .readFF 0x2000 0x1000, ⟨true, true⟩⟩, ⟨0, .spawn 2 [0x1000], ⟨true, true⟩⟩,
    ⟨0, .fill 0x1000, ⟨true, true⟩⟩]
  have word : qalign 0x1000 = 0x1000 := by decide
  have preconds : ∀ p ∈ [(0x1000 : UInt64)], qalign p = p := by
    intro p member
    rw [List.mem_singleton.mp member]
    exact word
  have run : Run (Guarded (fun _ call => call.op.Aligned) Step) twoTasks calls
      (calls.foldl (fun s call => (call.apply s).1) twoTasks) :=
    .cons ⟨word, by decide +kernel, rfl⟩ (.cons ⟨word, by decide +kernel, rfl⟩
      (.cons ⟨preconds, by decide +kernel, rfl⟩ (.cons ⟨word, by decide +kernel, rfl⟩ (.nil _))))
  exact ⟨_, by decide +kernel, run_noLostWakeUp fresh run⟩

end Qthreads.Feb
