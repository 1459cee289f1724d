import Qthreads.Rwlock.Machine

namespace Qthreads.Rwlock

open Lib
open Function (update update_of_ne update_self)

def Pc.announced : Pc → Bool
  | .check | .retract | .reading => true
  | _ => false

def Pc.claims : Pc → Bool
  | .scan _ | .writing => true
  | _ => false

def Pc.passed : Pc → Nat
  | .scan i => i
  | .writing => words
  | _ => 0

def Pc.reads : Pc → Bool
  | .announce | .check | .retract | .await | .reading => true
  | _ => false

theorem word_eq_zero_iff {l : Lock} {i : Nat} : l.word i = 0 ↔ ∀ j < 8, l.readers (8 * i + j) = 0 := by
  rw [Lock.word, Finset.sum_eq_zero_iff]
  constructor
  · intro zeros j less
    have zero := zeros j (Finset.mem_range.mpr less)
    have positive : 0 < 256 ^ j := Nat.pow_pos (by decide)
    exact UInt8.toNat_inj.mp ((Nat.mul_eq_zero.mp zero).resolve_right (Nat.ne_of_gt positive))
  · intro zeros j inside
    rw [zeros j (Finset.mem_range.mp inside)]
    exact Nat.zero_mul _

theorem word_readers {l : Lock} {k : Nat} (zero : l.word (k / 8) = 0) : l.readers k = 0 := by
  have byte := word_eq_zero_iff.mp zero (k % 8) (Nat.mod_lt k (by decide))
  rwa [Nat.div_add_mod] at byte

structure Own (callers : Callers) (l : Lock) (task : Nat) (pc : Pc) : Prop where
  reads : pc.reads = true → callers.reader task = true
  announced : pc.announced = true → l.readers (callers.id task) ≠ 0
  claims : pc.claims = true → l.owner ≠ 0
  words : ∀ i, pc = .scan i → i < words

structure Apart (callers : Callers) (pc : Pc) (other : Nat) (theirs : Pc) : Prop where
  alone : pc.claims = true → theirs.claims = false
  passed : pc.claims = true → theirs = .reading → 8 * pc.passed ≤ callers.id other

structure Inv (callers : Callers) (l : Lock) (tasks : Nat → Pc) : Prop where
  own : ∀ task, Own callers l task (tasks task)
  apart : ∀ task other, task ≠ other → Apart callers (tasks task) other (tasks other)
  byte : ∀ k, l.readers k ≠ 0 → ∃ task, (tasks task).announced = true ∧ callers.id task = k
  owner : l.owner ≠ 0 → ∃ task, (tasks task).claims = true

variable {callers : Callers} {l after : Lock} {tasks : Nat → Pc} {task : Nat} {pc mine : Pc} {label : Label}

theorem start_inv : Inv callers start.shared start.tasks where
  own _ := ⟨nofun, nofun, nofun, nofun⟩
  apart _ _ _ := ⟨nofun, nofun⟩
  byte _ set := absurd rfl set
  owner owned := absurd rfl owned

theorem token_ne_zero {id : Nat} (int : id < 2 ^ 31) : token id ≠ 0 := by
  intro zero
  have number := congrArg UInt64.toNat zero
  rw [token] at number
  by_cases fits : id + 1 < 2 ^ 31
  · rw [if_pos fits, UInt64.toNat_ofNat_of_lt' (Nat.lt_trans fits (by decide))] at number
    exact Nat.succ_ne_zero id number
  · have whole : id + 1 + (2 ^ 64 - 2 ^ 32) < UInt64.size := by
      rw [UInt64.size]
      omega
    rw [if_neg fits, UInt64.toNat_ofNat_of_lt' whole, show UInt64.toNat 0 = 0 from rfl] at number
    omega

structure Keeps (callers : Callers) (l : Lock) (tasks : Nat → Pc) (task : Nat) (after : Lock) (mine : Pc) :
    Prop where
  own : Own callers after task mine
  others : ∀ other, other ≠ task → Own callers after other (tasks other)
  apart : ∀ other, other ≠ task →
    Apart callers mine other (tasks other) ∧ Apart callers (tasks other) task mine
  byte : ∀ k, after.readers k ≠ 0 → mine.announced = true ∧ callers.id task = k ∨
    ∃ other, other ≠ task ∧ (tasks other).announced = true ∧ callers.id other = k
  owner : after.owner ≠ 0 → mine.claims = true ∨ ∃ other, other ≠ task ∧ (tasks other).claims = true

theorem Keeps.inv (keeps : Keeps callers l tasks task after mine) (inv : Inv callers l tasks) :
    Inv callers after (update tasks task mine) where
  own other := by
    by_cases here : other = task
    · rw [here, update_self]
      exact keeps.own
    · rw [update_of_ne here]
      exact keeps.others other here
  apart one two differ := by
    by_cases here : one = task
    · rw [here] at differ
      rw [here, update_self, update_of_ne differ.symm]
      exact (keeps.apart two differ.symm).1
    · rw [update_of_ne here]
      by_cases there : two = task
      · rw [there, update_self]
        exact (keeps.apart one here).2
      · rw [update_of_ne there]
        exact inv.apart one two differ
  byte k set := by
    rcases keeps.byte k set with ⟨mine, id⟩ | ⟨other, away, announced, id⟩
    · exact ⟨task, by rwa [update_self], id⟩
    · exact ⟨other, by rwa [update_of_ne away], id⟩
  owner owned := by
    rcases keeps.owner owned with mine | ⟨other, away, claims⟩
    · exact ⟨task, by rwa [update_self]⟩
    · exact ⟨other, by rwa [update_of_ne away]⟩

namespace Inv

variable (inv : Inv callers l tasks)

include inv

theorem byte_cases {k : Nat} (set : l.readers k ≠ 0) :
    (tasks task).announced = true ∧ callers.id task = k ∨
      ∃ other, other ≠ task ∧ (tasks other).announced = true ∧ callers.id other = k := by
  obtain ⟨other, announced, id⟩ := inv.byte k set
  by_cases here : other = task
  · rw [here] at announced id
    exact .inl ⟨announced, id⟩
  · exact .inr ⟨other, here, announced, id⟩

theorem owner_cases (owned : l.owner ≠ 0) :
    (tasks task).claims = true ∨ ∃ other, other ≠ task ∧ (tasks other).claims = true := by
  obtain ⟨other, claims⟩ := inv.owner owned
  by_cases here : other = task
  · rw [here] at claims
    exact .inl claims
  · exact .inr ⟨other, here, claims⟩

theorem unclaimed (free : l.owner = 0) (other : Nat) : (tasks other).claims = false :=
  Bool.eq_false_iff.mpr fun claims => (inv.own other).claims claims free

theorem id_ne {other : Nat} (mine : callers.reader task = true)
    (announced : (tasks other).announced = true) (differ : other ≠ task) :
    callers.id other ≠ callers.id task := by
  intro same
  have theirs : callers.reader other = true := by
    refine (inv.own other).reads ?_
    cases pc : tasks other <;> simp only [pc, Pc.announced, Pc.reads] at announced ⊢
    all_goals cases announced
  exact differ (callers.distinct other task theirs mine same)

theorem same (announced : mine.announced = (tasks task).announced) (idle : (tasks task).claims = false)
    (still : mine.claims = false) (outside : mine ≠ .reading)
    (reads : mine.reads = true → callers.reader task = true) : Keeps callers l tasks task l mine where
  own := by
    refine ⟨reads, fun set => (inv.own task).announced (announced ▸ set), fun claims => ?_, ?_⟩
    · rw [still] at claims
      cases claims
    · rintro i rfl
      cases still
  others other _ := inv.own other
  apart other _ := by
    refine ⟨⟨fun claims => ?_, fun claims => ?_⟩, ⟨fun _ => still, fun _ here => absurd here outside⟩⟩
    · rw [still] at claims
      cases claims
    · rw [still] at claims
      cases claims
  byte k set := by
    rw [announced]
    exact inv.byte_cases set
  owner owned := by
    rcases inv.owner_cases owned with mine | other
    · rw [idle] at mine
      cases mine
    · exact .inr other

theorem announce (at_ : tasks task = .announce) : Keeps callers l tasks task
    { l with readers := update l.readers (callers.id task) 1 } .check := by
  have reader : callers.reader task = true := (inv.own task).reads (by rw [at_]; rfl)
  refine ⟨⟨fun _ => reader, fun _ => ?_, nofun, nofun⟩, ?_, ?_, ?_, ?_⟩
  · simp only [update_self]
    decide
  · intro other _
    refine ⟨(inv.own other).reads, fun announced => ?_, (inv.own other).claims, (inv.own other).words⟩
    by_cases same : callers.id other = callers.id task
    · simp only [same, update_self]
      decide
    · simp only [update_of_ne same]
      exact (inv.own other).announced announced
  · exact fun other _ => ⟨⟨nofun, nofun⟩, ⟨fun _ => rfl, nofun⟩⟩
  · intro k set
    by_cases same : k = callers.id task
    · exact .inl ⟨rfl, same.symm⟩
    · simp only [update_of_ne same] at set
      rcases inv.byte_cases set with ⟨mine, -⟩ | other
      · rw [at_] at mine
        cases mine
      · exact .inr other
  · intro owned
    rcases inv.owner_cases owned with mine | other
    · rw [at_] at mine
      cases mine
    · exact .inr other

theorem enter (at_ : tasks task = .check) (free : l.owner = 0) :
    Keeps callers l tasks task l .reading := by
  have own := inv.own task
  rw [at_] at own
  refine ⟨⟨own.reads, own.announced, nofun, nofun⟩, fun other _ => inv.own other, ?_, ?_, ?_⟩
  · intro other _
    refine ⟨⟨nofun, nofun⟩, ⟨fun _ => rfl, fun claims => ?_⟩⟩
    rw [inv.unclaimed free] at claims
    cases claims
  · intro k set
    rcases inv.byte_cases set with ⟨-, id⟩ | other
    · exact .inl ⟨rfl, id⟩
    · exact .inr other
  · exact fun owned => absurd free owned

theorem clear (reader : callers.reader task = true) (idle : (tasks task).claims = false)
    (still : mine.claims = false) (outside : mine.announced = false) : Keeps callers l tasks task
      { l with readers := update l.readers (callers.id task) 0 } mine := by
  have away : mine ≠ .reading := by
    rintro rfl
    cases outside
  refine ⟨⟨fun _ => reader, fun set => ?_, fun claims => ?_, ?_⟩, ?_, ?_, ?_, ?_⟩
  · rw [outside] at set
    cases set
  · rw [still] at claims
    cases claims
  · rintro i rfl
    cases still
  · intro other differ
    refine ⟨(inv.own other).reads, fun announced => ?_, (inv.own other).claims, (inv.own other).words⟩
    simp only [update_of_ne (inv.id_ne reader announced differ)]
    exact (inv.own other).announced announced
  · intro other _
    refine ⟨⟨fun claims => ?_, fun claims => ?_⟩, ⟨fun _ => still, fun _ here => absurd here away⟩⟩
    · rw [still] at claims
      cases claims
    · rw [still] at claims
      cases claims
  · intro k set
    by_cases same : k = callers.id task
    · simp only [same, update_self] at set
      exact absurd rfl set
    · simp only [update_of_ne same] at set
      rcases inv.byte_cases set with ⟨-, id⟩ | other
      · exact absurd id.symm same
      · exact .inr other
  · intro owned
    rcases inv.owner_cases owned with mine | other
    · rw [idle] at mine
      cases mine
    · exact .inr other

theorem claim (at_ : tasks task = .claim) (free : l.owner = 0) : Keeps callers l tasks task
    { l with owner := token (callers.id task) } (.scan 0) := by
  refine ⟨⟨nofun, nofun, fun _ => token_ne_zero (callers.int task), ?_⟩, ?_, ?_, ?_, ?_⟩
  · intro i first
    cases first
    decide
  · intro other _
    refine ⟨(inv.own other).reads, (inv.own other).announced, fun claims => ?_, (inv.own other).words⟩
    rw [inv.unclaimed free] at claims
    cases claims
  · intro other _
    refine ⟨⟨fun _ => inv.unclaimed free other, fun _ _ => Nat.zero_le _⟩, ⟨fun claims => ?_, nofun⟩⟩
    rw [inv.unclaimed free] at claims
    cases claims
  · intro k set
    rcases inv.byte_cases set with ⟨mine, -⟩ | other
    · rw [at_] at mine
      cases mine
    · exact .inr other
  · exact fun _ => .inl rfl

theorem pass {i : Nat} (at_ : tasks task = .scan i) (zero : l.word i = 0) (claims : mine.claims = true)
    (further : mine.passed = i + 1) (inside : ∀ i, mine = .scan i → i < words) :
    Keeps callers l tasks task l mine := by
  have quiet : mine.announced = false ∧ mine.reads = false ∧ mine ≠ .reading := by
    cases mine <;> first | exact ⟨rfl, rfl, nofun⟩ | cases claims
  have own := inv.own task
  rw [at_] at own
  refine ⟨⟨fun reads => ?_, fun set => ?_, fun _ => own.claims rfl, inside⟩,
    fun other _ => inv.own other, ?_, ?_, fun _ => .inl claims⟩
  · rw [quiet.2.1] at reads
    cases reads
  · rw [quiet.1] at set
    cases set
  · intro other differ
    have theirs := inv.apart task other differ.symm
    rw [at_] at theirs
    refine ⟨⟨fun _ => theirs.alone rfl, fun _ reading => ?_⟩,
      ⟨fun claimed => ?_, fun _ here => absurd here quiet.2.2⟩⟩
    · -- A reader's byte is set, so it is not in the word that was empty.
      have least := theirs.passed rfl reading
      have set := (inv.own other).announced (by rw [reading]; rfl)
      rw [further]
      by_contra less
      have here : callers.id other / 8 = i := by
        simp only [Pc.passed] at least
        omega
      rw [← here] at zero
      exact set (word_readers zero)
    · rw [theirs.alone rfl] at claimed
      cases claimed
  · intro k set
    rcases inv.byte_cases set with ⟨mine, -⟩ | other
    · rw [at_] at mine
      cases mine
    · exact .inr other

theorem release (at_ : tasks task = .writing) :
    Keeps callers l tasks task { l with owner := 0 } .idle := by
  refine ⟨⟨nofun, nofun, nofun, nofun⟩, ?_, ?_, ?_, fun owned => absurd rfl owned⟩
  · intro other differ
    have theirs := inv.apart task other differ.symm
    rw [at_] at theirs
    refine ⟨(inv.own other).reads, (inv.own other).announced, fun claims => ?_, (inv.own other).words⟩
    rw [theirs.alone rfl] at claims
    cases claims
  · exact fun other _ => ⟨⟨nofun, nofun⟩, ⟨fun _ => rfl, nofun⟩⟩
  · intro k set
    rcases inv.byte_cases set with ⟨mine, -⟩ | other
    · rw [at_] at mine
      cases mine
    · exact .inr other

theorem keeps (at_ : tasks task = pc) (acted : Act callers task l pc label after mine) :
    Keeps callers l tasks task after mine := by
  have own := inv.own task
  rw [at_] at own
  cases acted with
  | rdlock reader =>
    exact inv.same (by rw [at_]; rfl) (by rw [at_]; rfl) rfl nofun fun _ => reader
  | announce => exact inv.announce at_
  | enter free => exact inv.enter at_ free
  | defer _ => exact inv.same (by rw [at_]; rfl) (by rw [at_]; rfl) rfl nofun own.reads
  | retract => exact inv.clear (own.reads rfl) (by rw [at_]; rfl) rfl rfl
  | again _ => exact inv.same (by rw [at_]; rfl) (by rw [at_]; rfl) rfl nofun own.reads
  | await _ => exact inv.same (by rw [at_]) (by rw [at_]; rfl) rfl nofun own.reads
  | rdunlock => exact inv.clear (own.reads rfl) (by rw [at_]; rfl) rfl rfl
  | wrlock => exact inv.same (by rw [at_]; rfl) (by rw [at_]; rfl) rfl nofun nofun
  | free _ => exact inv.same (by rw [at_]; rfl) (by rw [at_]; rfl) rfl nofun nofun
  | spin _ => exact inv.same (by rw [at_]) (by rw [at_]; rfl) rfl nofun nofun
  | claim free => exact inv.claim at_ free
  | fail _ => exact inv.same (by rw [at_]; rfl) (by rw [at_]; rfl) rfl nofun nofun
  | next zero more =>
    refine inv.pass at_ zero rfl rfl ?_
    rintro i same
    cases same
    exact more
  | last zero all => exact inv.pass at_ zero rfl all.symm nofun
  | busy _ => 
      refine ⟨own, fun other _ => inv.own other, fun other differ => ?_, fun k set => ?_,
        fun _ => .inl rfl⟩
      · rw [← at_]
        exact ⟨inv.apart task other differ.symm, inv.apart other task differ⟩
      · rw [← at_]
        exact inv.byte_cases set
  | wrunlock => exact inv.release at_

end Inv

theorem Inv.step {before next : Config Lock Pc} {move : Nat × Label}
    (inv : Inv callers before.shared before.tasks)
    (taken : Config.Step (Act callers) before move next) : Inv callers next.shared next.tasks := by
  cases taken with
  | move acted => exact (inv.keeps rfl acted).inv inv

end Qthreads.Rwlock
