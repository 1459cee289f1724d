import Qthreads.Feb.Queues

namespace Qthreads.Feb

/-! The calls of `feb.c` that do not block

A caller without a qthread forks a helper task, which makes the call that the `blocker_type` names,
and waits for it. -/

inductive BlockerType where
  | WRITEEF
  | WRITEEF_NB
  | WRITEF
  | READFF
  | READFF_NB
  | READFE
  | READFE_NB
  | FILL
  | EMPTY

variable [Topology]

def febBlockerThread (helper : Task) (alloc : Alloc) (type : BlockerType) (a b : UInt64)
    (s : FebState) : FebState × Answer :=
  match type with
  | .READFE => qthreadReadFE helper alloc a b s
  | .READFE_NB => qthreadReadFENb alloc a b s
  | .READFF => qthreadReadFF helper alloc a b s
  | .READFF_NB => qthreadReadFFNb a b s
  | .WRITEEF => qthreadWriteEF helper alloc a b s
  | .WRITEEF_NB => qthreadWriteEFNb a b s
  | .WRITEF => qthreadWriteF a b s
  | .FILL => qthreadFill a s
  | .EMPTY => qthreadEmpty alloc a s

/-- `qthread_feb_blocker_func`; the helper is forked, runs, and ends unless it blocks. -/
def febBlockerFunc (helper : Task) (alloc : Alloc) (dest src : UInt64) (type : BlockerType)
    (s : FebState) : FebState × Answer :=
  let forked := (qthreadSpawn helper [] s).1.setThread helper .running
  let ran := febBlockerThread helper alloc type dest src forked
  match ran.2 with
  | .blocked => ran
  | answer => (ran.1.setThread helper .terminated, answer)

/-- `qthread_internal_self()`, or the helper of a caller that has none. -/
inductive Caller where
  | task (me : Task)
  | external (helper : Task)

inductive FebOp where
  | readFF (dest src : UInt64)
  | readFE (dest src : UInt64)
  | writeEF (dest src : UInt64)

/-- `qthread_readFF`, `qthread_readFE`, `qthread_writeEF` -/
def blockingCall (caller : Caller) (alloc : Alloc) (op : FebOp) (s : FebState) :
    FebState × Answer :=
  match caller, op with
  | .task me, .readFF dest src => qthreadReadFF me alloc dest src s
  | .task me, .readFE dest src => qthreadReadFE me alloc dest src s
  | .task me, .writeEF dest src => qthreadWriteEF me alloc dest src s
  | .external helper, .readFF dest src => febBlockerFunc helper alloc dest src .READFF s
  | .external helper, .readFE dest src => febBlockerFunc helper alloc dest src .READFE s
  | .external helper, .writeEF dest src => febBlockerFunc helper alloc dest src .WRITEEF s

/-- `qthread_readFF_nb`, `qthread_readFE_nb`, `qthread_writeEF_nb` -/
def nonblockingCall (caller : Caller) (alloc : Alloc) (op : FebOp) (s : FebState) :
    FebState × Answer :=
  match caller, op with
  | .task _, .readFF dest src => qthreadReadFFNb dest src s
  | .task _, .readFE dest src => qthreadReadFENb alloc dest src s
  | .task _, .writeEF dest src => qthreadWriteEFNb dest src s
  | .external helper, .readFF dest src => febBlockerFunc helper alloc dest src .READFF_NB s
  | .external helper, .readFE dest src => febBlockerFunc helper alloc dest src .READFE_NB s
  -- `qthread_writeEF_nb` asks for the call that blocks
  | .external helper, .writeEF dest src => febBlockerFunc helper alloc dest src .WRITEEF s

structure Untouched (caller : Caller) (s after : FebState) : Prop where
  febs : after.febs = s.febs
  memory : after.memory = s.memory
  others : ∀ task, caller ≠ .external task →
    after.threads task = s.threads task ∧ after.preconds task = s.preconds task
  nobodyBlocked : ∀ task, after.threads task = .febBlocked → s.threads task = .febBlocked
  nobodyEnqueued : ∀ task, after.log.count (.enqueued task) = s.log.count (.enqueued task)

/-- The call succeeds just when the blocking one would, in the same way, and fails otherwise. -/
structure Refines (caller : Caller) (s : FebState) (blocking nonblocking : FebState × Answer) :
    Prop where
  success : nonblocking.2 = .success ↔ blocking.2 = .success
  same : nonblocking.2 = .success → nonblocking.1 = blocking.1
  fails : nonblocking.2 ≠ .success →
    nonblocking.2 = .opfail ∧ Untouched caller s nonblocking.1

/-- There is memory for a record that has to be made, and the helper of a writer does not have to
wait. -/
def Complies (caller : Caller) (alloc : Alloc) (op : FebOp) (s : FebState) : Prop :=
  match caller, op with
  | _, .readFF _ _ => True
  | _, .readFE _ src =>
    s.febs (Lookup.readFENb.lockbin src) (qalign src) ≠ none ∨ alloc.addrstat = true
  | .task _, .writeEF _ _ => True
  | .external _, .writeEF dest _ =>
    ∃ m, s.febs (Lookup.writeEF.lockbin dest) (qalign dest) = some m ∧ m.full = false

structure Tries (s : FebState) (blocking nonblocking : FebState × Answer) : Prop where
  success : nonblocking.2 = .success ↔ blocking.2 = .success
  same : nonblocking.2 = .success → nonblocking.1 = blocking.1
  fails : nonblocking.2 ≠ .success → nonblocking = (s, .opfail)

variable {s : FebState} {alloc : Alloc} {blocking nonblocking : FebState × Answer}

omit [Topology] in
theorem Tries.done (same : nonblocking = blocking) (success : nonblocking.2 = .success) :
    Tries s blocking nonblocking := by
  subst same
  exact ⟨Iff.rfl, fun _ => rfl, fun failed => absurd success failed⟩

omit [Topology] in
theorem Tries.failed (failed : nonblocking = (s, .opfail)) (blocks : blocking.2 ≠ .success) :
    Tries s blocking nonblocking := by
  subst failed
  exact ⟨⟨nofun, fun success => absurd success blocks⟩, nofun, fun _ => rfl⟩

omit [Topology] in
theorem put_own {lockbin key : UInt64} {m : Addrstat} (found : s.febs lockbin key = some m) :
    s.put lockbin key (some m) = s := by
  unfold FebState.put
  rw [← found, Function.update_eq_self, Function.update_eq_self]

theorem readFFNb_tries (me : Task) (dest src : UInt64) :
    Tries s (qthreadReadFF me alloc dest src s) (qthreadReadFFNb dest src s) := by
  simp only [qthreadReadFF, qthreadReadFFNb, show Lookup.readFFNb.lockbin src =
    Lookup.readFF.lockbin src from rfl]
  cases s.febs (Lookup.readFF.lockbin src) (qalign src) with
  | none => exact .done rfl rfl
  | some m =>
    dsimp only
    by_cases full : m.full = true
    · rw [if_pos full, if_pos full]
      exact .done rfl rfl
    · rw [if_neg full, if_neg full]
      refine .failed rfl ?_
      split <;> exact nofun

theorem readFENb_tries (me : Task) (dest src : UInt64)
    (enough : s.febs (Lookup.readFENb.lockbin src) (qalign src) ≠ none ∨ alloc.addrstat = true) :
    Tries s (qthreadReadFE me alloc dest src s) (qthreadReadFENb alloc dest src s) := by
  simp only [qthreadReadFE, qthreadReadFENb, lookupOrNew, show Lookup.readFE.lockbin src =
    Lookup.readFENb.lockbin src from rfl]
  cases found : s.febs (Lookup.readFENb.lockbin src) (qalign src) with
  | none =>
    obtain present | memory := enough
    · exact absurd found present
    · simp only [memory, if_true]
      exact .done rfl rfl
  | some m =>
    dsimp only
    by_cases full : m.full = true
    · rw [if_pos full, if_pos full]
      exact .done rfl rfl
    · rw [if_neg full, if_neg full, put_own found]
      refine .failed rfl ?_
      split <;> exact nofun

theorem writeEFNb_tries (me : Task) (dest src : UInt64) :
    Tries s (qthreadWriteEF me alloc dest src s) (qthreadWriteEFNb dest src s) := by
  simp only [qthreadWriteEF, qthreadWriteEFNb, lookupOrNew, show Lookup.writeEFNb.lockbin dest =
    Lookup.writeEF.lockbin dest from rfl]
  cases s.febs (Lookup.writeEF.lockbin dest) (qalign dest) with
  | none =>
    refine .failed rfl ?_
    cases alloc.addrstat with
    | true =>
      rw [if_pos rfl]
      dsimp only
      rw [if_pos (show addrstatNew.full = true from rfl)]
      split <;> exact nofun
    | false => exact nofun
  | some m =>
    dsimp only
    by_cases full : m.full = true
    · rw [if_pos full, if_pos full]
      refine .failed rfl ?_
      split <;> exact nofun
    · rw [if_neg full, if_neg full]
      exact .done rfl rfl

omit [Topology] in
theorem Tries.task (tries : Tries s blocking nonblocking) (me : Task) :
    Refines (.task me) s blocking nonblocking := by
  refine ⟨tries.success, tries.same, fun failed => ?_⟩
  rw [tries.fails failed]
  exact ⟨rfl, rfl, rfl, fun _ _ => ⟨rfl, rfl⟩, fun _ waits => waits, fun _ => rfl⟩

def forked (helper : Task) (s : FebState) : FebState :=
  (qthreadSpawn helper [] s).1.setThread helper .running

theorem febBlockerFunc_done {helper : Task} {dest src : UInt64} {type : BlockerType}
    (returns : (febBlockerThread helper alloc type dest src (forked helper s)).2 ≠ .blocked) :
    febBlockerFunc helper alloc dest src type s =
      ((febBlockerThread helper alloc type dest src (forked helper s)).1.setThread helper .terminated,
        (febBlockerThread helper alloc type dest src (forked helper s)).2) := by
  unfold febBlockerFunc
  change (match (febBlockerThread helper alloc type dest src (forked helper s)).2 with
    | .blocked => febBlockerThread helper alloc type dest src (forked helper s)
    | answer => ((febBlockerThread helper alloc type dest src (forked helper s)).1.setThread helper
        .terminated, answer)) = _
  split
  · rename_i blocked
    exact absurd blocked returns
  · rfl

theorem febBlockerFunc_answer (helper : Task) (dest src : UInt64) (type : BlockerType) :
    (febBlockerFunc helper alloc dest src type s).2 =
      (febBlockerThread helper alloc type dest src (forked helper s)).2 := by
  by_cases blocked : (febBlockerThread helper alloc type dest src (forked helper s)).2 = .blocked
  · unfold febBlockerFunc
    change (match (febBlockerThread helper alloc type dest src (forked helper s)).2 with
      | .blocked => febBlockerThread helper alloc type dest src (forked helper s)
      | answer => ((febBlockerThread helper alloc type dest src (forked helper s)).1.setThread
          helper .terminated, answer)).2 = _
    split
    · rfl
    · rfl
  · rw [febBlockerFunc_done blocked]

theorem forked_untouched (helper : Task) (s : FebState) :
    Untouched (.external helper) s ((forked helper s).setThread helper .terminated) := by
  refine ⟨rfl, rfl, ?_, ?_, ?_⟩
  · intro task other
    have differs : task ≠ helper := by
      rintro rfl
      exact other rfl
    constructor
    · simp [forked, qthreadSpawn, FebState.checkFebPreconds, FebState.setThread, FebState.emit,
        differs]
    · simp [forked, qthreadSpawn, FebState.checkFebPreconds, FebState.setThread, FebState.emit,
        differs]
  · intro task waits
    by_cases same : task = helper
    · rw [same] at waits
      simp [FebState.setThread] at waits
    · simpa [forked, qthreadSpawn, FebState.checkFebPreconds, FebState.setThread, FebState.emit,
        same] using waits
  · intro task
    simp [forked, qthreadSpawn, FebState.checkFebPreconds, FebState.setThread, FebState.emit]

theorem Tries.external {helper : Task} {dest src : UInt64} {type typeNb : BlockerType}
    (tries : Tries (forked helper s) (febBlockerThread helper alloc type dest src (forked helper s))
      (febBlockerThread helper alloc typeNb dest src (forked helper s))) :
    Refines (.external helper) s (febBlockerFunc helper alloc dest src type s)
      (febBlockerFunc helper alloc dest src typeNb s) := by
  refine ⟨?_, ?_, ?_⟩
  · rw [febBlockerFunc_answer, febBlockerFunc_answer]
    exact tries.success
  · intro success
    rw [febBlockerFunc_answer] at success
    have other := tries.success.mp success
    rw [febBlockerFunc_done (by rw [success]; exact nofun),
      febBlockerFunc_done (by rw [other]; exact nofun), tries.same success]
  · intro failed
    rw [febBlockerFunc_answer] at failed
    have is := tries.fails failed
    rw [febBlockerFunc_done (by rw [is]; exact nofun), is]
    exact ⟨rfl, forked_untouched helper s⟩

theorem writeEF_external (helper : Task) (dest src : UInt64) :
    ((febBlockerFunc helper alloc dest src .WRITEEF s).2 = .success ↔
      ∃ m, s.febs (Lookup.writeEF.lockbin dest) (qalign dest) = some m ∧ m.full = false) ∧
      (febBlockerFunc helper alloc dest src .WRITEEF s).2 ≠ .opfail := by
  rw [febBlockerFunc_answer]
  simp only [febBlockerThread, qthreadWriteEF, lookupOrNew, show (forked helper s).febs = s.febs
    from rfl]
  cases s.febs (Lookup.writeEF.lockbin dest) (qalign dest) with
  | none => cases alloc.addrstat <;> cases alloc.addrres <;> simp [addrstatNew]
  | some m => cases full : m.full <;> cases alloc.addrres <;> simp [full]

theorem readFENb_outOfMemory (dest src : UInt64)
    (absent : s.febs (Lookup.readFENb.lockbin src) (qalign src) = none)
    (memory : alloc.addrstat = false) :
    (qthreadReadFENb alloc dest src s).2 = .mallocError := by
  simp only [qthreadReadFENb, lookupOrNew, absent, memory]
  rfl

theorem readFE_refines_iff (caller : Caller) (dest src : UInt64) :
    Refines caller s (blockingCall caller alloc (.readFE dest src) s)
        (nonblockingCall caller alloc (.readFE dest src) s) ↔
      s.febs (Lookup.readFENb.lockbin src) (qalign src) ≠ none ∨ alloc.addrstat = true := by
  constructor
  · intro refines
    by_contra short
    rw [not_or, not_not, Bool.not_eq_true] at short
    have answer : (nonblockingCall caller alloc (.readFE dest src) s).2 = .mallocError := by
      cases caller with
      | task me => exact readFENb_outOfMemory dest src short.1 short.2
      | external helper =>
        rw [nonblockingCall, febBlockerFunc_answer]
        exact readFENb_outOfMemory dest src short.1 short.2
    have failed := (refines.fails (by rw [answer]; exact nofun)).1
    rw [answer] at failed
    cases failed
  · intro enough
    cases caller with
    | task me => exact (readFENb_tries me dest src enough).task me
    | external helper => exact Tries.external (readFENb_tries helper dest src enough)

theorem refines_iff (s : FebState) (caller : Caller) (alloc : Alloc) (op : FebOp) :
    Refines caller s (blockingCall caller alloc op s) (nonblockingCall caller alloc op s) ↔
      Complies caller alloc op s := by
  cases op with
  | readFF dest src =>
    constructor
    · cases caller <;> exact fun _ => trivial
    · intro _
      cases caller with
      | task me => exact (readFFNb_tries me dest src).task me
      | external helper => exact Tries.external (readFFNb_tries helper dest src)
  | readFE dest src => cases caller <;> exact readFE_refines_iff _ dest src
  | writeEF dest src =>
    cases caller with
    | task me => exact ⟨fun _ => trivial, fun _ => (writeEFNb_tries me dest src).task me⟩
    | external helper =>
      obtain ⟨succeeds, notOpfail⟩ := @writeEF_external _ s alloc helper dest src
      rw [Complies, ← succeeds]
      constructor
      · intro refines
        by_contra failed
        exact notOpfail (refines.fails failed).1
      · intro success
        exact ⟨Iff.rfl, fun _ => rfl, fun failed => absurd success failed⟩

end Qthreads.Feb
