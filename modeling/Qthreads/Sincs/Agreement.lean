import Qthreads.Sincs.Grids

namespace Qthreads.Sincs.Selectable

open Qthreads.Lib

variable {size : Nat} (machine : Machine) (operation : Operation size)

structure States (size : Nat) where
  donecount : Counted size
  cas : Counted size
  original : Original size
  snzi : Snzi size

structure Scraps (size : Nat) where
  donecount : Scrap size
  cas : Scrap size
  original : Scrap size
  snzi : Scrap size

namespace States

def create (scraps : Scraps size) (count : Nat) : States size where
  donecount := .create operation scraps.donecount count
  cas := .create operation scraps.cas count
  original := .create machine operation scraps.original count
  snzi := .create machine operation scraps.snzi count

def apply (states : States size) (call : Call size) : Option (States size) := do
  let donecount ← Donecount.apply machine operation states.donecount call
  let cas ← DonecountCas.apply machine operation states.cas call
  let original ← states.original.apply machine operation call
  let snzi ← states.snzi.apply machine operation call
  return { donecount, cas, original, snzi }

/-- A `qt_sinc_wait` returns from all of them, with one value, or from none. -/
structure Agree (states : States size) : Prop where
  cas : states.cas.wait = states.donecount.wait
  original : states.original.wait = states.donecount.wait
  snzi : states.snzi.wait = states.donecount.wait

def AgreeThrough (states : States size) : List (Call size) → Prop
  | [] => states.Agree
  | call :: rest =>
    states.Agree ∧ ∃ next, states.apply machine operation call = some next ∧
      next.AgreeThrough rest

end States

def Valid (outstanding : Nat) : List (Call size) → Prop
  | [] => True
  | call :: rest => call.Allowed machine outstanding ∧ Valid (call.outstanding outstanding) rest

def MeetsAll (outstanding : Nat) : List (Call size) → Prop
  | [] => True
  | call :: rest => call.Meets outstanding ∧ MeetsAll (call.outstanding outstanding) rest

variable {machine operation}

theorem Call.Allowed.small {call : Call size} {outstanding : Nat}
    (allowed : call.Allowed machine outstanding) (small : outstanding < 2 ^ 63) :
    call.outstanding outstanding < 2 ^ 63 := by
  cases call with
  | reset willSpawn => exact allowed
  | expect worker count => exact allowed.2
  | submit worker value => exact Nat.lt_of_le_of_lt (Nat.sub_le _ _) small

theorem Donecount.expect_idle {s next : Counted size} {count : Nat} (idle : s.sinc.counter = 0)
    (run : expect s count = some next) : next.wait = none := by
  rw [expect] at run
  by_cases zero : count = 0
  · simp only [zero, ne_eq, not_true_eq_false, if_false, idle, Nat.lt_irrefl] at run
    cases run
  · simp only [ne_eq, zero, not_false_eq_true, if_true, idle] at run
    split at run
    · rw [← Option.some.inj run]
      rfl
    · cases run

theorem Snzi.expect_ready {s next : Snzi size} {shep count : Nat}
    (run : expect s shep count = some next) : next.ready = s.ready := by
  rw [expect] at run
  split at run
  · split at run
    · rw [← Option.some.inj run]
    · rw [← Option.some.inj run]
  · rw [← Option.some.inj run]

namespace States

structure Shows (machine : Machine) (ideal : Ideal size) (states : States size) : Prop where
  donecount : Counted.Shows ideal states.donecount
  cas : Counted.Shows ideal states.cas
  original : Original.Shows machine ideal states.original
  snzi : Snzi.Shows machine ideal states.snzi

variable {ideal : Ideal size} {states : States size}

theorem Shows.agree (shows : Shows machine ideal states) : states.Agree :=
  ⟨shows.cas.wait.trans shows.donecount.wait.symm,
    shows.original.wait.trans shows.donecount.wait.symm,
    shows.snzi.wait.trans shows.donecount.wait.symm⟩

variable {call : Call size}

theorem Shows.step (operation : Operation size) (shows : Shows machine ideal states)
    (small : ideal.outstanding < 2 ^ 63) (allowed : call.Allowed machine ideal.outstanding)
    (meets : call.Meets ideal.outstanding) :
    ∃ next, states.apply machine operation call = some next ∧
      Shows machine (ideal.apply machine operation call) next := by
  obtain ⟨donecount, donecountRun, donecountShows⟩ := Donecount.shows shows.donecount allowed meets
  obtain ⟨cas, casRun, casShows⟩ := DonecountCas.shows shows.cas allowed meets
  obtain ⟨original, originalRun, originalShows⟩ :=
    Original.shows shows.original small allowed meets
  obtain ⟨snzi, snziRun, snziShows⟩ := Snzi.shows shows.snzi small allowed meets
  refine ⟨⟨donecount, cas, original, snzi⟩, ?_, ?_⟩
  · rw [apply, donecountRun, casRun, originalRun, snziRun]
    rfl
  · exact ⟨donecountShows, casShows, originalShows, snziShows⟩

variable {next : States size}

theorem apply_some (run : states.apply machine operation call = some next) :
    Donecount.apply machine operation states.donecount call = some next.donecount ∧
      DonecountCas.apply machine operation states.cas call = some next.cas ∧
      states.original.apply machine operation call = some next.original ∧
      states.snzi.apply machine operation call = some next.snzi := by
  rw [apply] at run
  simp only [Option.bind_eq_bind, Option.bind_eq_some_iff, Option.pure_def] at run
  obtain ⟨donecount, donecountRun, cas, casRun, original, originalRun, snzi, snziRun, same⟩ := run
  cases same
  exact ⟨donecountRun, casRun, originalRun, snziRun⟩

theorem resetToZero_parts
    (run : states.apply machine operation (.reset 0) = some next) : ¬ next.Agree := by
  obtain ⟨-, casRun, originalRun, -⟩ := apply_some run
  intro agree
  have casWait : next.cas.wait = some states.cas.rdata.result := by
    rw [← Option.some.inj casRun]
    rfl
  have originalWait : next.original.wait = none := by
    rw [← Option.some.inj originalRun]
    rfl
  have same := agree.cas.trans agree.original.symm
  rw [casWait, originalWait] at same
  cases same

/-- A reset to 0, and an expect when nothing is outstanding, part the implementations. -/
theorem Shows.parts (shows : Shows machine ideal states) (misses : ¬ call.Meets ideal.outstanding)
    (run : states.apply machine operation call = some next) : ¬ next.Agree := by
  cases call with
  | submit worker value => exact absurd trivial misses
  | reset willSpawn =>
    have zero : willSpawn = 0 := Classical.not_not.mp misses
    rw [zero] at run
    exact resetToZero_parts run
  | expect worker count =>
    have isZero : ideal.outstanding = 0 := Nat.eq_zero_of_not_pos misses
    obtain ⟨donecountRun, -, -, snziRun⟩ := apply_some run
    have donecountWait := Donecount.expect_idle (shows.donecount.counter.trans isZero) donecountRun
    have snziReady : next.snzi.ready = true := by
      rw [Snzi.expect_ready snziRun, shows.snzi.ready, decide_eq_true isZero]
    intro agree
    have same := agree.snzi
    rw [donecountWait, Snzi.wait, if_pos snziReady] at same
    cases same

theorem AgreeThrough.agree {calls : List (Call size)}
    (through : states.AgreeThrough machine operation calls) : states.Agree := by
  cases calls with
  | nil => exact through
  | cons call rest => exact through.1

theorem Shows.through (shows : Shows machine ideal states) (small : ideal.outstanding < 2 ^ 63)
    {calls : List (Call size)} (valid : Valid machine ideal.outstanding calls) :
    states.AgreeThrough machine operation calls ↔ MeetsAll ideal.outstanding calls := by
  induction calls generalizing ideal states with
  | nil => exact ⟨fun _ => trivial, fun _ => shows.agree⟩
  | cons call rest ih =>
    obtain ⟨allowed, later⟩ := valid
    by_cases meets : call.Meets ideal.outstanding
    · obtain ⟨next, run, nextShows⟩ := shows.step operation small allowed meets
      have after := @Ideal.apply_outstanding size machine operation ideal call
      have tail := ih nextShows (by rw [after]; exact allowed.small small)
        (by rw [after]; exact later)
      rw [after] at tail
      constructor
      · intro ⟨_, other, otherRun, through⟩
        cases run.symm.trans otherRun
        exact ⟨meets, tail.mp through⟩
      · intro ⟨_, all⟩
        exact ⟨shows.agree, next, run, tail.mpr all⟩
    · constructor
      · intro ⟨_, next, run, through⟩
        exact absurd through.agree (shows.parts meets run)
      · intro ⟨met, _⟩
        exact absurd met meets

theorem create_shows {count : Nat} (small : count < 2 ^ 63) (cleared : count ≠ 0 ∨ size = 0)
    (scraps : Scraps size) :
    Shows machine ⟨count, .create operation scraps.donecount⟩
      (create machine operation scraps count) := by
  have matched : ∀ scrap : Scrap size,
      Reduction.Matches count (.create operation scraps.donecount) (.create operation scrap) := by
    intro scrap
    refine ⟨rfl, fun zero => funext fun index => ?_⟩
    have empty : size = 0 := cleared.resolve_left (Classical.not_not.mpr zero)
    exact absurd index.isLt (by omega)
  exact ⟨⟨rfl, rfl, matched _⟩, ⟨rfl, rfl, matched _⟩, Original.create_shows small (matched _),
    Snzi.create_shows (matched _)⟩

theorem create_zero_parts (machine : Machine) (operation : Operation size) (nonzero : size ≠ 0) :
    ∃ scraps, ¬ (create machine operation scraps 0).Agree := by
  let filled (byte : UInt8) : Scrap size := ⟨fun _ => byte, fun _ => 0⟩
  refine ⟨⟨filled 0, filled 1, filled 0, filled 0⟩, fun agree => ?_⟩
  have results : Option.some (filled 1).result = some (filled 0).result := agree.cas
  have bytes := congrFun (Option.some.inj results) ⟨0, Nat.pos_of_ne_zero nonzero⟩
  cases bytes

end States

/-- The four agree through a history exactly if it creates and resets to something, or creates a
sinc without values, and expects more only while something is outstanding. -/
theorem implementations_agree_iff (machine : Machine) (operation : Operation size) {count : Nat}
    (small : count < 2 ^ 63) {calls : List (Call size)} (valid : Valid machine count calls) :
    (∀ scraps, (States.create machine operation scraps count).AgreeThrough machine operation calls) ↔
      (count ≠ 0 ∨ size = 0) ∧ MeetsAll count calls := by
  by_cases cleared : count ≠ 0 ∨ size = 0
  · constructor
    · intro through
      let blank : Scrap size := ⟨operation.initial, fun _ => 0⟩
      let scraps : Scraps size := ⟨blank, blank, blank, blank⟩
      exact ⟨cleared,
        ((States.create_shows small cleared scraps).through small valid).mp (through scraps)⟩
    · intro ⟨_, meets⟩ scraps
      exact ((States.create_shows small cleared scraps).through small valid).mpr meets
  · constructor
    · intro through
      obtain ⟨created, values⟩ := not_or.mp cleared
      have zero : count = 0 := Classical.not_not.mp created
      rw [zero] at through
      obtain ⟨scraps, parts⟩ := States.create_zero_parts machine operation values
      exact absurd (through scraps).agree parts
    · intro ⟨met, _⟩
      exact absurd met cleared

def noValues : Operation 0 := ⟨fun first _ => first, nofun⟩

theorem implementations_agree_once :
    (∀ scraps, (States.create single noValues scraps 1).AgreeThrough single noValues
      [.expect (0, 0) 1, .submit (0, 0) none, .submit (0, 0) none, .reset 1]) ↔
      ((1 : Nat) ≠ 0 ∨ 0 = 0) ∧
        MeetsAll 1 [.expect (0, 0) 1, .submit (0, 0) none, .submit (0, 0) (none : Option (Value 0)),
          .reset 1] :=
  implementations_agree_iff single noValues (by decide)
    ⟨⟨by decide, by decide⟩, ⟨by decide, by decide, fun _ => rfl⟩,
      ⟨by decide, by decide, fun _ => rfl⟩, (by decide : 1 < 2 ^ 63), trivial⟩

/-- An expect after completion empties `ready` of `donecount.c`, and not of `snzi.c`. -/
theorem implementations_part_after_completion :
    Valid single 1 [.submit (0, 0) (none : Option (Value 0)), .expect (0, 0) 1] ∧
      ∀ scraps, ¬ (States.create single noValues scraps 1).AgreeThrough single noValues
        [.submit (0, 0) none, .expect (0, 0) 1] := by
  refine ⟨⟨⟨by decide, by decide, fun _ => rfl⟩, ⟨by decide, by decide⟩, trivial⟩, ?_⟩
  intro scraps ⟨_, done, submitted, _, late, expected, agree⟩
  rw [← Option.some.inj submitted] at expected
  rw [← Option.some.inj expected] at agree
  have same := agree.snzi
  cases same

end Qthreads.Sincs.Selectable
