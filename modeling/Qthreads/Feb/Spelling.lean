import Qthreads.Feb.Queues

namespace Qthreads.Feb

/-! Every call takes the address of a word as it was given.  `Call.align` is the same call with
the aligned address; `execute` runs a sequence of calls and collects the answers. -/

def Op.align : Op → Op
  | .empty dest => .empty (qalign dest)
  | .fill dest => .fill (qalign dest)
  | .writeF dest src => .writeF (qalign dest) src
  | .writeEF dest src => .writeEF (qalign dest) src
  | .writeEFNb dest src => .writeEFNb (qalign dest) src
  | .readFF dest src => .readFF dest (qalign src)
  | .readFFNb dest src => .readFFNb dest (qalign src)
  | .readFE dest src => .readFE dest (qalign src)
  | .readFENb dest src => .readFENb dest (qalign src)
  | .febStatus addr => .febStatus (qalign addr)
  | .spawn task preconds => .spawn task (preconds.map qalign)
  | .start task => .start task
  | .finish => .finish

def Call.align (call : Call) : Call := { call with op := call.op.align }

def Op.words : Op → List UInt64
  | .empty p | .fill p | .writeF p _ | .writeEF p _ | .writeEFNb p _ | .readFF _ p | .readFFNb _ p
  | .readFE _ p | .readFENb _ p | .febStatus p => [p]
  | .spawn _ preconds => preconds
  | .start _ | .finish => []

variable [Topology]

def execute : List Call → FebState → FebState × List Answer
  | [], s => (s, [])
  | call :: calls, s =>
    let result := call.apply s
    let rest := execute calls result.1
    (rest.1, result.2 :: rest.2)

def Feasible : List Call → FebState → Prop
  | [], _ => True
  | call :: calls, s => call.Enabled s ∧ Feasible calls (call.apply s).1

/-- The two states agree on everything but the bytes of memory and the spelling of the
preconditions that are still to be met. -/
structure Agrees (s t : FebState) : Prop where
  febs : t.febs = s.febs
  threads : t.threads = s.threads
  log : t.log = s.log
  preconds : ∀ task, t.preconds task = (s.preconds task).map qalign

/-- Every function that looks the word up does it in the stripe of the aligned address. -/
def OneStripe (p : UInt64) : Prop :=
  ∀ lookup : Lookup, lookup.lockbin p = chooseStripe2 (qalign p)

/-- Sequences over the given spellings behave as they do with aligned addresses: the same calls
can be made, with the same answers, records, queues and wake-ups. -/
def Interchangeable (used : UInt64 → Prop) : Prop :=
  ∀ (start : FebState) (calls : List Call), Fresh start → Feasible calls start →
    (∀ call ∈ calls, ∀ p ∈ call.op.words, used p) →
    Feasible (calls.map Call.align) start ∧
      (execute (calls.map Call.align) start).2 = (execute calls start).2 ∧
      Agrees (execute calls start).1 (execute (calls.map Call.align) start).1

def SameBytes (used : UInt64 → Prop) : Prop :=
  ∀ (start : FebState) (calls : List Call), Fresh start → Feasible calls start →
    (∀ call ∈ calls, ∀ p ∈ call.op.words, used p) →
    (execute (calls.map Call.align) start).1.memory = (execute calls start).1.memory

def Settled (p : UInt64) : Prop := chooseStripe2 (qalign p) = chooseStripe2 p

variable {p : UInt64}

theorem Settled.lockbin (settled : Settled p) (lookup : Lookup) :
    lookup.lockbin (qalign p) = lookup.lockbin p := by
  cases lookup <;> simp only [Lookup.lockbin, qalign_idem] <;> exact settled

section Simulation

variable {s t : FebState}

structure Matched (s t : FebState) : Prop extends Agrees s t where
  settled : ∀ task, ∀ p ∈ s.preconds task, Settled p

section

variable (matched : Matched s t)
include matched

theorem Matched.put (lockbin key : UInt64) (m : Option Addrstat) :
    Matched (s.put lockbin key m) (t.put lockbin key m) :=
  ⟨⟨by simp only [FebState.put, matched.febs], matched.threads, matched.log, matched.preconds⟩,
    matched.settled⟩

theorem Matched.setThread (task : Task) (state : ThreadState) :
    Matched (s.setThread task state) (t.setThread task state) :=
  ⟨⟨matched.febs, by simp only [FebState.setThread, matched.threads], matched.log,
    matched.preconds⟩, matched.settled⟩

theorem Matched.emit (event : Event) : Matched (s.emit event) (t.emit event) :=
  ⟨⟨matched.febs, matched.threads, by simp only [FebState.emit, matched.log], matched.preconds⟩,
    matched.settled⟩

theorem Matched.copy (dest src dest' src' : UInt64) :
    Matched (s.copy dest src) (t.copy dest' src') := by
  refine ⟨⟨?_, ?_, ?_, ?_⟩, ?_⟩
  · simp [matched.febs]
  · simp [matched.threads]
  · simp [matched.log]
  · simpa using matched.preconds
  · simpa using matched.settled

theorem Matched.nascent : t.nascent = s.nascent := by
  funext task
  simp only [FebState.nascent, matched.threads]

theorem Matched.perform (maddr : UInt64) (woken : List Wake) :
    Matched (s.perform maddr woken) (t.perform maddr woken) := by
  refine ⟨⟨?_, ?_, ?_, ?_⟩, ?_⟩
  · simp [matched.febs]
  · funext task
    simp only [perform_threads, matched.threads]
  · simp only [perform_log, matched.log]
  · simpa using matched.preconds
  · simpa using matched.settled

theorem Matched.setPreconds (task : Task) {list : List UInt64} (settled : ∀ p ∈ list, Settled p) :
    Matched { s with preconds := Function.update s.preconds task list }
      { t with preconds := Function.update t.preconds task (list.map qalign) } := by
  refine ⟨⟨matched.febs, matched.threads, matched.log, ?_⟩, ?_⟩
  all_goals
    intro other
    by_cases same : other = task
  · subst same
    simp
  · simpa [same] using matched.preconds other
  · subst same
    simpa using settled
  · simpa [same] using matched.settled other

theorem Matched.checkFebPreconds (task : Task) {list : List UInt64}
    (settled : ∀ p ∈ list, Settled p) :
    Matched (s.checkFebPreconds task list).1 (t.checkFebPreconds task (list.map qalign)).1 ∧
      (t.checkFebPreconds task (list.map qalign)).2 = (s.checkFebPreconds task list).2 := by
  induction list with
  | nil => exact ⟨(matched.setThread task .new).setPreconds task settled, rfl⟩
  | cons this list ih =>
    have later := ih fun p member => settled p (.tail _ member)
    have slot := (settled this (.head _)).lockbin .checkFebPreconds
    simp only [List.map_cons, FebState.checkFebPreconds, slot, qalign_idem, matched.febs]
    cases s.febs (Lookup.checkFebPreconds.lockbin this) (qalign this) with
    | none => exact later
    | some m =>
      simp only
      split_ifs
      · exact later
      · refine ⟨?_, rfl⟩
        have queued := ((matched.put (Lookup.checkFebPreconds.lockbin this) (qalign this)
          (some { m with FFQ := ⟨0, task⟩ :: m.FFQ })).setThread task .nascent).emit
            (.enqueued task)
        have spelled := queued.setPreconds task settled
        simpa [FebState.emit, FebState.setThread, FebState.put] using spelled

theorem Matched.precondLaunch (tasks : List Task) :
    Matched (s.precondLaunch tasks) (t.precondLaunch tasks) := by
  induction tasks generalizing s t with
  | nil => exact matched
  | cons task rest ih =>
    obtain ⟨checked, same⟩ := matched.checkFebPreconds task (matched.settled task)
    simp only [FebState.precondLaunch, matched.preconds task, same]
    apply ih
    split_ifs
    · exact checked
    · exact checked.emit (.launched task)

theorem Matched.febRemove (maddr : UInt64) : Matched (s.febRemove maddr) (t.febRemove maddr) := by
  simp only [FebState.febRemove, matched.febs]
  cases s.febs (chooseStripe2 maddr) maddr with
  | none => exact matched
  | some m =>
    simp only
    split_ifs
    · exact matched.put (chooseStripe2 maddr) maddr none
    · exact matched

theorem Matched.release (lockbin maddr : UInt64) (m : Addrstat)
    (woken : List Wake) (removeable : Bool) :
    Matched (s.release lockbin maddr m woken removeable)
      (t.release lockbin maddr m woken removeable) := by
  have launched := ((matched.put lockbin maddr (some m)).perform maddr woken).precondLaunch
    (FebState.collected woken)
  simp only [FebState.release]
  split_ifs
  · exact launched.febRemove maddr
  · exact launched

theorem Matched.gotlockFill (lockbin maddr : UInt64) (m : Addrstat) :
    Matched (s.gotlockFill lockbin maddr m) (t.gotlockFill lockbin maddr m) := by
  simp only [FebState.gotlockFill, matched.nascent]
  exact matched.release lockbin maddr _ _ _

theorem Matched.gotlockEmpty (lockbin maddr : UInt64) (m : Addrstat) :
    Matched (s.gotlockEmpty lockbin maddr m) (t.gotlockEmpty lockbin maddr m) := by
  simp only [FebState.gotlockEmpty, matched.nascent]
  exact matched.release lockbin maddr _ _ _

theorem Matched.block (me : Task) (lockbin key : UInt64) (m : Addrstat) :
    Matched (s.block me lockbin key m) (t.block me lockbin key m) :=
  ((matched.put lockbin key (some m)).setThread me .febBlocked).emit (.enqueued me)

theorem Matched.lookupOrNew (alloc : Alloc) (lockbin key : UInt64) :
    Feb.lookupOrNew t alloc lockbin key = Feb.lookupOrNew s alloc lockbin key := by
  simp only [Feb.lookupOrNew, matched.febs]

theorem Matched.apply (call : Call) (settled : ∀ p ∈ call.op.words, Settled p) :
    Matched (call.apply s).1 (call.align.apply t).1 ∧
      (call.align.apply t).2 = (call.apply s).2 := by
  obtain ⟨me, op, alloc⟩ := call
  cases op with
  | empty p =>
    have slot := (settled p (.head _)).lockbin .empty
    simp only [Call.align, Op.align, Call.apply, qthreadEmpty, slot, qalign_idem, matched.febs]
    cases s.febs (Lookup.empty.lockbin p) (qalign p) with
    | none =>
      simp only
      split_ifs
      · exact ⟨(matched.put _ _ _).emit _, rfl⟩
      · exact ⟨matched, rfl⟩
    | some m => exact ⟨matched.gotlockEmpty _ _ m, rfl⟩
  | fill p =>
    have slot := (settled p (.head _)).lockbin .fill
    simp only [Call.align, Op.align, Call.apply, qthreadFill, slot, qalign_idem, matched.febs]
    cases s.febs (Lookup.fill.lockbin p) (qalign p) with
    | none => exact ⟨matched, rfl⟩
    | some m => exact ⟨matched.gotlockFill _ _ m, rfl⟩
  | writeF p src =>
    have slot := (settled p (.head _)).lockbin .writeF
    simp only [Call.align, Op.align, Call.apply, qthreadWriteF, slot, qalign_idem, matched.febs]
    cases s.febs (Lookup.writeF.lockbin p) (qalign p) with
    | none => exact ⟨matched.copy _ _ _ _, rfl⟩
    | some m => exact ⟨(matched.copy _ _ _ _).gotlockFill _ _ m, rfl⟩
  | writeEF p src =>
    have slot := (settled p (.head _)).lockbin .writeEF
    simp only [Call.align, Op.align, Call.apply, qthreadWriteEF, slot, qalign_idem,
      matched.lookupOrNew]
    cases Feb.lookupOrNew s alloc (Lookup.writeEF.lockbin p) (qalign p) with
    | none => exact ⟨matched, rfl⟩
    | some m =>
      simp only
      split_ifs
      · exact ⟨matched.block _ _ _ _, rfl⟩
      · exact ⟨matched.put _ _ _, rfl⟩
      · exact ⟨(matched.copy _ _ _ _).gotlockFill _ _ m, rfl⟩
  | writeEFNb p src =>
    have slot := (settled p (.head _)).lockbin .writeEFNb
    simp only [Call.align, Op.align, Call.apply, qthreadWriteEFNb, slot, qalign_idem,
      matched.febs]
    cases s.febs (Lookup.writeEFNb.lockbin p) (qalign p) with
    | none => exact ⟨matched, rfl⟩
    | some m =>
      simp only
      split_ifs
      · exact ⟨matched, rfl⟩
      · exact ⟨(matched.copy _ _ _ _).gotlockFill _ _ m, rfl⟩
  | readFF dest p =>
    have slot := (settled p (.head _)).lockbin .readFF
    simp only [Call.align, Op.align, Call.apply, qthreadReadFF, slot, qalign_idem, matched.febs]
    cases s.febs (Lookup.readFF.lockbin p) (qalign p) with
    | none => exact ⟨matched.copy _ _ _ _, rfl⟩
    | some m =>
      simp only
      split_ifs
      · exact ⟨matched.copy _ _ _ _, rfl⟩
      · exact ⟨matched.block _ _ _ _, rfl⟩
      · exact ⟨matched, rfl⟩
  | readFFNb dest p =>
    have slot := (settled p (.head _)).lockbin .readFFNb
    simp only [Call.align, Op.align, Call.apply, qthreadReadFFNb, slot, qalign_idem,
      matched.febs]
    cases s.febs (Lookup.readFFNb.lockbin p) (qalign p) with
    | none => exact ⟨matched.copy _ _ _ _, rfl⟩
    | some m =>
      simp only
      split_ifs
      · exact ⟨matched.copy _ _ _ _, rfl⟩
      · exact ⟨matched, rfl⟩
  | readFE dest p =>
    have slot := (settled p (.head _)).lockbin .readFE
    simp only [Call.align, Op.align, Call.apply, qthreadReadFE, slot, qalign_idem,
      matched.lookupOrNew]
    cases Feb.lookupOrNew s alloc (Lookup.readFE.lockbin p) (qalign p) with
    | none => exact ⟨matched, rfl⟩
    | some m =>
      simp only
      split_ifs
      · exact ⟨(matched.copy _ _ _ _).gotlockEmpty _ _ m, rfl⟩
      · exact ⟨matched.block _ _ _ _, rfl⟩
      · exact ⟨matched.put _ _ _, rfl⟩
  | readFENb dest p =>
    have slot := (settled p (.head _)).lockbin .readFENb
    simp only [Call.align, Op.align, Call.apply, qthreadReadFENb, slot, qalign_idem,
      matched.lookupOrNew]
    cases Feb.lookupOrNew s alloc (Lookup.readFENb.lockbin p) (qalign p) with
    | none => exact ⟨matched, rfl⟩
    | some m =>
      simp only
      split_ifs
      · exact ⟨(matched.copy _ _ _ _).gotlockEmpty _ _ m, rfl⟩
      · exact ⟨matched.put _ _ _, rfl⟩
  | febStatus p =>
    have slot := (settled p (.head _)).lockbin .febStatus
    simp only [Call.align, Op.align, Call.apply, qthreadFebStatus, slot, qalign_idem,
      matched.febs]
    cases s.febs (Lookup.febStatus.lockbin p) (qalign p) with
    | none => exact ⟨matched, rfl⟩
    | some m => exact ⟨matched, rfl⟩
  | spawn task preconds =>
    have each : ∀ p ∈ preconds, Settled p := settled
    obtain ⟨checked, same⟩ := matched.checkFebPreconds task each
    simp only [Call.align, Op.align, Call.apply, qthreadSpawn, same]
    split_ifs
    · exact ⟨checked, trivial⟩
    · exact ⟨checked.emit _, trivial⟩
  | start task => exact ⟨matched.setThread task .running, rfl⟩
  | finish => exact ⟨matched.setThread me .terminated, rfl⟩

theorem Matched.enabled {call : Call} (enabled : call.Enabled s) : call.align.Enabled t := by
  obtain ⟨me, op, alloc⟩ := call
  cases op <;> simpa only [Call.align, Op.align, Call.Enabled, matched.threads] using enabled

theorem Matched.execute {calls : List Call} (feasible : Feasible calls s)
    (settled : ∀ call ∈ calls, ∀ p ∈ call.op.words, Settled p) :
    Feasible (calls.map Call.align) t ∧
      (Feb.execute (calls.map Call.align) t).2 = (Feb.execute calls s).2 ∧
      Matched (Feb.execute calls s).1 (Feb.execute (calls.map Call.align) t).1 := by
  induction calls generalizing s t with
  | nil => exact ⟨trivial, rfl, matched⟩
  | cons call calls ih =>
    obtain ⟨next, same⟩ := matched.apply call (settled call (.head _))
    obtain ⟨later, answers, last⟩ := ih next feasible.2
      fun other member => settled other (.tail _ member)
    refine ⟨⟨matched.enabled feasible.1, later⟩, ?_, last⟩
    simp only [List.map_cons, Feb.execute, same, answers]

end

end Simulation

theorem Fresh.matched {start : FebState} (fresh : Fresh start) : Matched start start := by
  refine ⟨⟨rfl, rfl, rfl, ?_⟩, ?_⟩
  · intro task
    rw [fresh.preconds]
    rfl
  · intro task p member
    rw [fresh.preconds] at member
    cases member

variable {used : UInt64 → Prop}

theorem interchangeable_of_settled (settled : ∀ p, used p → Settled p) : Interchangeable used := by
  intro start calls fresh feasible spelled
  obtain ⟨possible, answers, matched⟩ := fresh.matched.execute feasible
    fun call member p word => settled p (spelled call member p word)
  exact ⟨possible, answers, matched.toAgrees⟩

def oneTask (memory : Memory) : FebState where
  febs := fun _ _ => none
  memory := memory
  threads := fun task => if task = 0 then .running else .unborn
  preconds := fun _ => []
  log := []

omit [Topology] in
theorem oneTask_fresh (memory : Memory) : Fresh (oneTask memory) := by
  refine ⟨fun _ _ => rfl, ?_, fun _ => rfl, rfl⟩
  intro task
  by_cases first : task = 0
  · exact .inr (.inr (if_pos first))
  · exact .inl (if_neg first)

theorem qthreadEmpty_new {s : FebState}
    (absent : s.febs (chooseStripe2 (qalign p)) (qalign p) = none) :
    (qthreadEmpty ⟨true, true⟩ p s).1 =
      (s.put (chooseStripe2 (qalign p)) (qalign p) (some ⟨false, [], [], []⟩)).emit
        (.setFull (qalign p) false) := by
  simp only [qthreadEmpty, Lookup.lockbin, absent, if_true, addrstatNew]

theorem qthreadFill_absent {s : FebState}
    (absent : s.febs (chooseStripe2 p) (qalign p) = none) : (qthreadFill p s).1 = s := by
  simp only [qthreadFill, Lookup.lockbin, absent]

theorem febRemove_unused {s : FebState} {key : UInt64} {m : Addrstat}
    (found : s.febs (chooseStripe2 key) key = some m) (unused : m.unused = true) :
    (s.febRemove key).febs (chooseStripe2 key) key = none := by
  simp only [FebState.febRemove, found, unused, if_true, FebState.put_self]

theorem qthreadFill_unused {s : FebState}
    (found : s.febs (chooseStripe2 (qalign p)) (qalign p) = some ⟨false, [], [], []⟩) :
    (qthreadFill (qalign p) s).1.febs (chooseStripe2 (qalign p)) (qalign p) = none := by
  have filled : gotlockFillInner s.nascent (qalign p) (Addrstat.mk false [] [] []).depth
      ⟨false, [], [], []⟩ = (⟨true, [], [], []⟩, [.setFull true]) := by
    simp only [Addrstat.depth, List.length_nil, Nat.add_zero, Nat.zero_add, gotlockFillInner,
      List.flatMap_nil]
  have taken : (qthreadFill (qalign p) s).1 =
      s.gotlockFill (chooseStripe2 (qalign p)) (qalign p) ⟨false, [], [], []⟩ := by
    simp only [qthreadFill, Lookup.lockbin, qalign_idem, found]
  rw [taken]
  simp only [FebState.gotlockFill, filled, FebState.release, FebState.collected,
    FebState.precondLaunch, List.isEmpty_nil, Bool.and_self, if_true]
  have stored : ((s.put (chooseStripe2 (qalign p)) (qalign p) (some ⟨true, [], [], []⟩)).perform
      (qalign p) [.setFull true]).febs (chooseStripe2 (qalign p)) (qalign p) =
        some ⟨true, [], [], []⟩ := by
    rw [perform_febs, FebState.put_self]
  exact febRemove_unused stored rfl

def emptyFill (p : UInt64) : List Call :=
  [⟨0, .empty p, ⟨true, true⟩⟩, ⟨0, .fill p, ⟨true, true⟩⟩]

theorem execute_emptyFill (p : UInt64) (s : FebState) :
    (execute (emptyFill p) s).1 = (qthreadFill p (qthreadEmpty ⟨true, true⟩ p s).1).1 := rfl

omit [Topology] in
theorem emptyFill_align (p : UInt64) : (emptyFill p).map Call.align = emptyFill (qalign p) := rfl

theorem settled_of_interchangeable (same : Interchangeable used)
    (spelled : used p) : Settled p := by
  by_contra unsettled
  have apart : chooseStripe2 p ≠ chooseStripe2 (qalign p) := fun equal => unsettled equal.symm
  generalize born : oneTask (fun _ => 0) = start
  have fresh : Fresh start := born ▸ oneTask_fresh _
  have running : start.threads 0 = .running := by
    rw [← born]
    rfl
  have mine := qthreadEmpty_new (fresh.febs (chooseStripe2 (qalign p)) (qalign p))
  have theirs : (qthreadEmpty ⟨true, true⟩ (qalign p) start).1 =
      (qthreadEmpty ⟨true, true⟩ p start).1 := by
    simp only [qthreadEmpty, Lookup.lockbin, qalign_idem]
  have stored : ∀ bin, (qthreadEmpty ⟨true, true⟩ p start).1.febs bin (qalign p) =
      if bin = chooseStripe2 (qalign p) then some ⟨false, [], [], []⟩ else none := by
    intro bin
    rw [mine, FebState.emit_febs, FebState.put_febs, fresh.febs]
    simp only [and_true]
  have feasible : Feasible (emptyFill p) start := by
    refine ⟨running, ?_, trivial⟩
    change (qthreadEmpty ⟨true, true⟩ p start).1.threads 0 = .running
    rw [mine]
    exact running
  have words : ∀ call ∈ emptyFill p, ∀ q ∈ call.op.words, used q := by
    intro call member q word
    have only : q = p := by
      simp only [emptyFill, List.mem_cons, List.not_mem_nil, or_false] at member
      rcases member with rfl | rfl <;> exact List.mem_singleton.mp word
    rw [only]
    exact spelled
  obtain ⟨_, _, agrees⟩ := same start (emptyFill p) fresh feasible words
  have absent : (qthreadEmpty ⟨true, true⟩ p start).1.febs (chooseStripe2 p) (qalign p) = none := by
    rw [stored, if_neg apart]
  have found : (qthreadEmpty ⟨true, true⟩ p start).1.febs (chooseStripe2 (qalign p)) (qalign p) =
      some ⟨false, [], [], []⟩ := by
    rw [stored, if_pos rfl]
  have febs := congrFun (congrFun agrees.febs (chooseStripe2 (qalign p))) (qalign p)
  rw [emptyFill_align, execute_emptyFill, execute_emptyFill, theirs, qthreadFill_unused found,
    qthreadFill_absent absent, found] at febs
  cases febs

theorem oneStripe_iff : OneStripe p ↔ Settled p := by
  constructor
  · intro one
    exact (one .fill).symm
  · intro settled lookup
    rw [← settled.lockbin]
    cases lookup <;> simp only [Lookup.lockbin, qalign_idem]

omit [Topology] in
theorem last_byte_outside (unaligned : qalign p ≠ p) : ¬ p + 7 - qalign p < 8 := by
  have base := qalign_toNat p
  have bound := p.toNat_lt
  have offset : p.toNat % 8 ≠ 0 := by
    intro zero
    apply unaligned
    apply UInt64.toNat.inj
    omega
  rw [UInt64.lt_iff_toNat_lt, UInt64.toNat_sub, UInt64.toNat_add, base]
  have seven : (7 : UInt64).toNat = 7 := rfl
  have eight : (8 : UInt64).toNat = 8 := rfl
  omega

theorem qthreadWriteF_absent {s : FebState} {p src : UInt64}
    (absent : s.febs (chooseStripe2 p) (qalign p) = none) :
    (qthreadWriteF p src s).1 = s.copy p src := by
  simp only [qthreadWriteF, Lookup.lockbin, absent]

theorem aligned_of_sameBytes (same : SameBytes used) (spelled : used p) : qalign p = p := by
  by_contra unaligned
  let memory : Memory := fun a => if a - (p + 8) < 8 then 1 else 0
  generalize born : oneTask memory = start
  have fresh : Fresh start := born ▸ oneTask_fresh _
  have running : start.threads 0 = .running := by
    rw [← born]
    rfl
  have bytes : start.memory = memory := by
    rw [← born]
    rfl
  let call : Call := ⟨0, .writeF p (p + 8), ⟨true, true⟩⟩
  have words : ∀ other ∈ [call], ∀ q ∈ other.op.words, used q := by
    intro other member q word
    rw [List.mem_singleton.mp member] at word
    rw [List.mem_singleton.mp word]
    exact spelled
  have equal := congrFun (same start [call] fresh ⟨running, trivial⟩ words) (p + 7)
  have mine : (execute [call] start).1 = start.copy p (p + 8) :=
    qthreadWriteF_absent (fresh.febs _ _)
  have theirs : (execute ([call].map Call.align) start).1 = start.copy (qalign p) (p + 8) :=
    qthreadWriteF_absent (fresh.febs _ _)
  have outside := last_byte_outside unaligned
  have nonzero : p ≠ 0 := by
    rintro rfl
    exact unaligned (by decide)
  have other : p ≠ p + 8 := by
    intro clash
    have size := congrArg UInt64.toNat clash
    rw [UInt64.toNat_add] at size
    have bound := p.toNat_lt
    have eight : (8 : UInt64).toNat = 8 := rfl
    omega
  have written : (start.copy p (p + 8)).memory (p + 7) = 1 := by
    have near : p + 7 - p < 8 := by
      rw [add_sub_cancel_left]
      decide
    have inside : p + 8 + (p + 7 - p) - (p + 8) < 8 := by
      rw [add_sub_cancel_left]
      exact near
    simp only [FebState.copy, nonzero, other, ne_eq, not_false_eq_true, and_self, if_true, near,
      bytes, memory, inside]
  have untouched : (start.copy (qalign p) (p + 8)).memory (p + 7) = 0 := by
    have far : ¬ p + 7 - (p + 8) < 8 := by
      have back : p + 7 - (p + 8) = 7 - 8 := by
        exact add_sub_add_left_eq_sub 7 8 p
      rw [back]
      decide
    simp only [FebState.copy]
    split_ifs
    · simp only [outside, if_false, bytes, memory, far]
    · simp only [bytes, memory, far, if_false]
  rw [mine, theirs, written, untouched] at equal
  exact absurd equal (by decide)

theorem qalign_fixed_settled (aligned : qalign p = p) : Settled p := by
  rw [Settled, aligned]

omit [Topology] in
theorem align_fixed {call : Call} (aligned : ∀ p ∈ call.op.words, qalign p = p) :
    call.align = call := by
  obtain ⟨me, op, alloc⟩ := call
  have fixed : op.align = op := by
    cases op with
    | spawn task preconds =>
      have each : ∀ p ∈ preconds, qalign p = p := aligned
      have list : preconds.map qalign = preconds.map id := List.map_congr_left each
      rw [List.map_id] at list
      simp only [Op.align, list]
    | start task => rfl
    | finish => rfl
    | _ => simp only [Op.align, aligned _ (.head _)]
  simp only [Call.align, fixed]

/-- The stripes agree, and the calls behave the same, for exactly the spellings that hash to
the stripe of the aligned address; the bytes copied are the same as well for exactly the
aligned spellings. -/
theorem interchangeable_iff_settled (used : UInt64 → Prop) :
    ((∀ p, used p → OneStripe p) ↔ ∀ p, used p → Settled p) ∧
      (Interchangeable used ↔ ∀ p, used p → Settled p) ∧
      (Interchangeable used ∧ SameBytes used ↔ ∀ p, used p → qalign p = p) := by
  refine ⟨⟨?_, ?_⟩, ⟨?_, interchangeable_of_settled⟩, ⟨?_, ?_⟩⟩
  · intro one p spelled
    exact oneStripe_iff.mp (one p spelled)
  · intro settled p spelled
    exact oneStripe_iff.mpr (settled p spelled)
  · intro same p spelled
    exact settled_of_interchangeable same spelled
  · rintro ⟨_, same⟩ p spelled
    exact aligned_of_sameBytes same spelled
  · intro aligned
    refine ⟨interchangeable_of_settled fun p spelled => qalign_fixed_settled (aligned p spelled), ?_⟩
    intro start calls _ _ words
    have fixed : calls.map Call.align = calls.map id := List.map_congr_left fun call member =>
      align_fixed fun p word => aligned p (words call member p word)
    rw [fixed, List.map_id]

/-- A spelling is settled when the two hashes agree in as many low bits as number the stripes. -/
theorem settled_iff_low_bits :
    Settled p ↔ (qtHash64 (qalign p)).toNat % lockingStripes = (qtHash64 p).toNat % lockingStripes := by
  rw [Settled, ← UInt64.toNat_inj, chooseStripe2_toNat, chooseStripe2_toNat]

theorem second_byte_unsettled : ¬ Settled 0x1001 := by
  obtain ⟨bits, several, -, power⟩ := lockingStripes_eq
  have even : 2 ∣ lockingStripes := by
    rw [power]
    exact Dvd.dvd.trans (by decide) (Nat.pow_dvd_pow 2 several)
  rw [settled_iff_low_bits]
  intro same
  have lowest := congrArg (· % 2) same
  simp only [Nat.mod_mod_of_dvd _ even] at lowest
  revert lowest
  decide +kernel

omit [Topology] in
/-- The second byte of the word at `0x1000` is looked up in another stripe by everybody but
`qthread_empty`, and emptying and filling it leaves the word empty. -/
theorem second_byte_apart :
    ¬ @OneStripe twoWorkers 0x1001 ∧
      ¬ @Interchangeable twoWorkers (fun p => p = 0x1001 ∨ p = qalign 0x1001) :=
  ⟨fun one => @second_byte_unsettled twoWorkers (@oneStripe_iff twoWorkers _ |>.mp one),
    fun same => @second_byte_unsettled twoWorkers (@settled_of_interchangeable twoWorkers _ _ same (.inl rfl))⟩

end Qthreads.Feb
