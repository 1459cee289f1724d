import Qthreads.Syncvar.Steps

namespace Qthreads.Syncvar.Steps

open Feb (Topology)
open Qthreads.Lib
open Function (update update_of_ne update_self)

/-! A word whose state says that there are waiters keeps its record: whoever holds the record's
lock is about to make the queues agree with the word, and no queue is empty that the word
needs.  Only a `readFF` that waits knows a record that nothing keeps. -/

def Record.effective (record : Record) : Addrstat := record.pending.apply record.stat

def Readers (m : Addrstat) : Prop := ¬ (m.FEQ = [] ∧ m.FFQ = [])

def Writers (m : Addrstat) : Prop := m.EFQ ≠ []

def Promised (word : SyncWord) (m : Addrstat) : Prop :=
  word.sf = true → if word.pf then Readers m else Writers m

variable {word : SyncWord}

theorem not_promised_unused {record : Record} (waiters : word.sf = true)
    (settled : record.pending = .nothing) (unused : Addrstat.unused record.stat = true) :
    ¬ Promised word record.effective := by
  intro promised
  have queues := promised waiters
  simp only [Record.effective, settled, Pending.apply] at queues
  simp only [Addrstat.unused, Bool.and_eq_true, List.isEmpty_iff] at unused
  obtain ⟨⟨noFEQ, noEFQ⟩, noFFQ⟩ := unused
  cases empty : word.pf with
  | true =>
    rw [empty, if_pos rfl] at queues
    exact queues ⟨noFEQ, noFFQ⟩
  | false =>
    rw [empty, if_neg Bool.false_ne_true] at queues
    exact queues noEFQ

def Kept (s : Shared) (addr : UInt64) : Prop :=
  (s.words addr).sf = true → ∃ m record, s.syncvars addr = some m ∧ s.heap m = some record ∧
    Promised (s.words addr) record.effective

structure Good (s : Shared) : Prop where
  linked : ∀ {addr m}, s.syncvars addr = some m →
    ∃ record, s.heap m = some record ∧ record.doomed = none
  single : ∀ {addr addr' m}, s.syncvars addr = some m → s.syncvars addr' = some m → addr' = addr
  allocated : ∀ {m record}, s.heap m = some record → m < s.next
  settled : ∀ {m record}, s.heap m = some record → record.holder = none →
    record.pending = .nothing
  kept : ∀ addr, Kept s addr

inductive Effect [Topology] (me : Task) (before : Shared) : Shared → Prop where
  | quiet {looking : Task → Option Nat} {woken : Task → Option Wake}
      (others : ∀ other, other ≠ me → looking other = before.looking other) :
      Effect me before { before with looking := looking, woken := woken }
  | bin {lockbin : UInt64} {owner : Option Task}
      (free : before.owner lockbin = none ∨ before.owner lockbin = some me) :
      Effect me before { before with owner := update before.owner lockbin owner }
  -- the word is locked, or unlocked without a new promise
  | word {addr : UInt64} {word : SyncWord}
      (free : (before.words addr).lock = none ∨ (before.words addr).lock = some me)
      (promise : word.sf = false ∨
        word.pf = (before.words addr).pf ∧ word.sf = (before.words addr).sf) :
      Effect me before { before with words := update before.words addr word }
  -- the word is unlocked with a promise that its record keeps
  | commit {addr : UInt64} {word : SyncWord} {m : Nat} {record changedTo : Record}
      {woken : Task → Option Wake}
      (mine : (before.words addr).lock = some me) (linked : before.syncvars addr = some m)
      (alive : before.heap m = some record) (holding : record.holder = some me)
      (holder : changedTo.holder = some me) (doomed : changedTo.doomed = record.doomed)
      (promise : Promised word changedTo.effective) :
      Effect me before
        { before with
          words := update before.words addr word
          heap := update before.heap m (some changedTo)
          woken := woken }
  | lock {addr : UInt64} {m : Nat} {record : Record} {looking : Task → Option Nat}
      (linked : before.syncvars addr = some m)
      (alive : before.heap m = some record) (free : record.holder = none)
      (others : ∀ other, other ≠ me → looking other = before.looking other) :
      Effect me before
        { before with
          heap := update before.heap m (some { record with holder := some me })
          looking := looking }
  | held {m : Nat} {record changedTo : Record} {woken : Task → Option Wake}
      (alive : before.heap m = some record) (holding : record.holder = some me)
      (doomed : changedTo.doomed = record.doomed)
      (effective : changedTo.effective = record.effective)
      (settled : changedTo.pending = .nothing) :
      Effect me before
        { before with heap := update before.heap m (some changedTo), woken := woken }
  | link {addr : UInt64} {looking : Task → Option Nat}
      (free : before.owner (chooseStripe addr) = none ∨
        before.owner (chooseStripe addr) = some me)
      (missing : before.syncvars addr = none)
      (others : ∀ other, other ≠ me → looking other = before.looking other) :
      Effect me before { before.create addr with looking := looking }
  | unlink {addr : UInt64} {m : Nat} {record : Record}
      (mine : before.owner (chooseStripe addr) = some me)
      (linked : before.syncvars addr = some m) (alive : before.heap m = some record)
      (holding : record.holder = some me) (settled : record.pending = .nothing)
      (unused : Addrstat.unused record.stat = true)
      (unwatched : ∀ other, before.looking other ≠ some m) :
      Effect me before
        { before with
          syncvars := update before.syncvars addr none
          heap := update before.heap m (some { record with doomed := some me }) }
  | delete {m : Nat} {record : Record} (alive : before.heap m = some record)
      (mine : record.doomed = some me) (free : record.holder = none) :
      Effect me before { before with heap := update before.heap m none }

section Frames

variable {me other : Task} {before after : Shared}

theorem Effect.looking_stable [Topology] (effect : Effect me before after) (apart : other ≠ me) :
    after.looking other = before.looking other := by
  cases effect with
  | quiet others => exact others other apart
  | lock _ _ _ others => exact others other apart
  | link _ _ others => exact others other apart
  | _ => rfl

theorem ne_of_owner (owner : UInt64 → Option Task) {key mineKey : UInt64}
    (apart : other ≠ me) (theirs : owner key = some other)
    (free : owner mineKey = none ∨ owner mineKey = some me) : key ≠ mineKey := by
  intro same
  rw [same] at theirs
  rcases free with absent | mine
  · rw [absent] at theirs
    cases theirs
  · rw [mine, Option.some.injEq] at theirs
    exact apart theirs.symm

theorem Effect.owner_stable [Topology] (effect : Effect me before after) (apart : other ≠ me)
    {lockbin : UInt64} (owned : before.owner lockbin = some other) :
    after.owner lockbin = some other := by
  cases effect with
  | bin free => exact (update_of_ne (ne_of_owner before.owner apart owned free) ..).trans owned
  | _ => exact owned

theorem Effect.word_stable [Topology] (effect : Effect me before after) (apart : other ≠ me)
    {addr : UInt64} (locked : (before.words addr).lock = some other) :
    after.words addr = before.words addr := by
  have differs {changed : UInt64} (free : (before.words changed).lock = none ∨
      (before.words changed).lock = some me) : addr ≠ changed :=
    ne_of_owner (fun key => (before.words key).lock) apart locked free
  cases effect with
  | word free => exact update_of_ne (differs free) ..
  | commit mine => exact update_of_ne (differs (.inr mine)) ..
  | _ => rfl

theorem Effect.heap_stable [Topology] (effect : Effect me before after) (good : Good before)
    (apart : other ≠ me) {m : Nat} {record : Record} (alive : before.heap m = some record)
    (theirs : record.holder = some other ∨ record.holder = none ∧ record.doomed = some other) :
    after.heap m = some record := by
  have notMine {changed : Nat} {found : Record} (here : before.heap changed = some found)
      (mine : found.holder = some me) : m ≠ changed := by
    intro same
    rw [same, here, Option.some.injEq] at alive
    rw [alive] at mine
    rcases theirs with held | ⟨free, -⟩
    · rw [held, Option.some.injEq] at mine
      exact apart mine
    · rw [free] at mine
      cases mine
  have notFree {changed : Nat} {found : Record} (here : before.heap changed = some found)
      (free : found.holder = none) (doomed : found.doomed ≠ some other) : m ≠ changed := by
    intro same
    rw [same, here, Option.some.injEq] at alive
    rw [alive] at free doomed
    rcases theirs with held | ⟨-, theirs⟩
    · rw [held] at free
      cases free
    · exact doomed theirs
  cases effect with
  | quiet => exact alive
  | bin => exact alive
  | word => exact alive
  | commit _ _ here mine => exact (update_of_ne (notMine here mine) ..).trans alive
  | lock linked here free =>
    obtain ⟨found, there, undoomed⟩ := good.linked linked
    rw [here, Option.some.injEq] at there
    have differs := notFree here free (by rw [there, undoomed]; nofun)
    exact (update_of_ne differs ..).trans alive
  | held here mine => exact (update_of_ne (notMine here mine) ..).trans alive
  | link =>
    have differs : m ≠ before.next := Nat.ne_of_lt (good.allocated alive)
    exact (update_of_ne differs ..).trans alive
  | unlink _ _ here mine => exact (update_of_ne (notMine here mine) ..).trans alive
  | delete here mine free =>
    have differs := notFree here free (by
      rw [mine, ne_eq, Option.some.injEq]
      exact apart.symm)
    exact (update_of_ne differs ..).trans alive

def Pinned [Topology] (task : Task) (s : Shared) (addr : UInt64) (m : Nat) : Prop :=
  s.owner (chooseStripe addr) = some task ∨
  (∃ record, s.heap m = some record ∧ record.holder = some task) ∨
  (s.words addr).sf = true ∨ s.looking task = some m

theorem Effect.linked_stable [Topology] (effect : Effect me before after) (good : Good before)
    (apart : other ≠ me) {addr : UInt64} {m : Nat} (linked : before.syncvars addr = some m)
    (pinned : Pinned other before addr m) : after.syncvars addr = some m := by
  cases effect with
  | @link changed _ _ missing =>
    have differs : addr ≠ changed := by
      intro same
      rw [same, missing] at linked
      cases linked
    exact (update_of_ne differs ..).trans linked
  | @unlink changed removed record mine found alive holding settled unused unwatched =>
    have differs : addr ≠ changed := by
      intro same
      subst same
      rw [linked, Option.some.injEq] at found
      subst found
      rcases pinned with owned | ⟨held, here, theirs⟩ | waiters | watched
      · exact ne_of_owner before.owner apart owned (.inr mine) rfl
      · rw [alive, Option.some.injEq] at here
        rw [← here, holding, Option.some.injEq] at theirs
        exact apart theirs.symm
      · obtain ⟨kept, held, there, here, promised⟩ := good.kept addr waiters
        rw [linked, Option.some.injEq] at there
        rw [← there, alive, Option.some.injEq] at here
        subst here
        exact not_promised_unused waiters settled unused promised
      · exact unwatched other watched
    exact (update_of_ne differs ..).trans linked
  | _ => exact linked

end Frames

def Purpose.fits (word : SyncWord) (op : Op) : Purpose → Prop
  | .queue => Op.waits op = true
  | .fill _ | .empty => word.sf = true

def Locked (me : Task) (s : Shared) (addr : UInt64) : Prop := (s.words addr).lock = some me

def Holding (me : Task) (s : Shared) (m : Nat) (pending : Pending) : Prop :=
  ∃ record, s.heap m = some record ∧ record.holder = some me ∧ record.pending = pending

def Doomed (me : Task) (s : Shared) (m : Nat) (holder : Option Task) : Prop :=
  ∃ record, s.heap m = some record ∧ record.holder = holder ∧ record.doomed = some me ∧
    record.pending = .nothing

def Pc.watches : Pc → Option Nat
  | .takeFree _ .queue m => some m
  | _ => none

def Knows [Topology] (me : Task) (s : Shared) : Pc → Prop
  | .idle | .parked | .spin _ _ | .removeEnter _ => True
  | .got work _ => Locked me s work.addr
  | .look work purpose => Locked me s work.addr ∧ purpose.fits (s.words work.addr) work.op
  | .putNew work | .enter work => Locked me s work.addr ∧ Op.waits work.op = true
  | .lookBin work =>
    Locked me s work.addr ∧ Op.waits work.op = true ∧ s.owner (chooseStripe work.addr) = some me
  | .takeBin work m =>
    Locked me s work.addr ∧ Op.waits work.op = true ∧
      s.owner (chooseStripe work.addr) = some me ∧ s.syncvars work.addr = some m
  | .takeFree work purpose m =>
    Locked me s work.addr ∧ purpose.fits (s.words work.addr) work.op ∧
      s.syncvars work.addr = some m
  | .bothBin work m =>
    Locked me s work.addr ∧ Op.waits work.op = true ∧
      s.owner (chooseStripe work.addr) = some me ∧ s.syncvars work.addr = some m ∧
      Holding me s m .nothing
  | .holding work purpose m =>
    Locked me s work.addr ∧ purpose.fits (s.words work.addr) work.op ∧
      s.syncvars work.addr = some m ∧ Holding me s m .nothing
  | .queueing work m => s.syncvars work.addr = some m ∧ Holding me s m (Op.entry me work.op)
  | .waking work _ m => s.syncvars work.addr = some m ∧ Holding me s m .fill
  | .blocked m | .release _ m _ => Holding me s m .nothing
  | .removeLook addr | .removeLeave addr => s.owner (chooseStripe addr) = some me
  | .removeTake addr m => s.owner (chooseStripe addr) = some me ∧ s.syncvars addr = some m
  | .removeBoth addr m =>
    s.owner (chooseStripe addr) = some me ∧ s.syncvars addr = some m ∧ Holding me s m .nothing
  | .unlinked lockbin m => s.owner lockbin = some me ∧ Doomed me s m (some me)
  | .gone m => Doomed me s m (some me)
  | .dispose m => Doomed me s m none

structure Own [Topology] (me : Task) (s : Shared) (pc : Pc) : Prop where
  looking : s.looking me = pc.watches
  knows : Knows me s pc

section Stability

variable [Topology] {me other : Task} {before after : Shared}

variable {addr : UInt64}

theorem Effect.locked_stable (effect : Effect me before after) (apart : other ≠ me)
    (locked : Locked other before addr) : Locked other after addr := by
  rw [Locked, effect.word_stable apart locked]
  exact locked

variable {m : Nat}

section

variable (effect : Effect me before after)
include effect

theorem Effect.holding_stable (good : Good before)
    (apart : other ≠ me) {pending : Pending} (holding : Holding other before m pending) :
    Holding other after m pending := by
  obtain ⟨record, alive, theirs, same⟩ := holding
  exact ⟨record, effect.heap_stable good apart alive (.inl theirs), theirs, same⟩

theorem Effect.doomed_stable (good : Good before) (apart : other ≠ me) {holder : Option Task}
    (whose : holder = some other ∨ holder = none) (doomed : Doomed other before m holder) :
    Doomed other after m holder := by
  obtain ⟨record, alive, held, theirs, same⟩ := doomed
  have untouched : record.holder = some other ∨
      record.holder = none ∧ record.doomed = some other := by
    rcases whose with whose | whose
    · exact .inl (held.trans whose)
    · exact .inr ⟨held.trans whose, theirs⟩
  exact ⟨record, effect.heap_stable good apart alive untouched, held, theirs, same⟩

theorem Effect.fits_stable (apart : other ≠ me) {op : Op}
    {purpose : Purpose} (locked : Locked other before addr)
    (fits : purpose.fits (before.words addr) op) : purpose.fits (after.words addr) op := by
  rw [effect.word_stable apart locked]
  exact fits

section

variable (good : Good before) (apart : other ≠ me)
include good apart

theorem Effect.owned_linked_stable (owned : before.owner (chooseStripe addr) = some other)
    (linked : before.syncvars addr = some m) : after.syncvars addr = some m :=
  effect.linked_stable good apart linked (.inl owned)

theorem Effect.held_linked_stable {pending : Pending}
    (linked : before.syncvars addr = some m) (holding : Holding other before m pending) :
    after.syncvars addr = some m := by
  obtain ⟨record, alive, theirs, -⟩ := holding
  exact effect.linked_stable good apart linked (.inr (.inl ⟨record, alive, theirs⟩))

theorem Effect.knows_stable {pc : Pc} (looking : before.looking other = pc.watches)
    (knows : Knows other before pc) : Knows other after pc := by
  cases pc with
  | idle => trivial
  | parked => trivial
  | spin work phase => trivial
  | removeEnter addr => trivial
  | got work phase => exact effect.locked_stable apart knows
  | look work purpose =>
    obtain ⟨locked, fits⟩ := knows
    exact ⟨effect.locked_stable apart locked, effect.fits_stable apart locked fits⟩
  | putNew work => exact ⟨effect.locked_stable apart knows.1, knows.2⟩
  | enter work => exact ⟨effect.locked_stable apart knows.1, knows.2⟩
  | lookBin work =>
    obtain ⟨locked, waits, owned⟩ := knows
    exact ⟨effect.locked_stable apart locked, waits, effect.owner_stable apart owned⟩
  | takeBin work m =>
    obtain ⟨locked, waits, owned, linked⟩ := knows
    exact ⟨effect.locked_stable apart locked, waits, effect.owner_stable apart owned,
      effect.owned_linked_stable good apart owned linked⟩
  | takeFree work purpose m =>
    obtain ⟨locked, fits, linked⟩ := knows
    have pinned : Pinned other before work.addr m := by
      cases purpose with
      | queue => exact .inr (.inr (.inr looking))
      | fill data => exact .inr (.inr (.inl fits))
      | empty => exact .inr (.inr (.inl fits))
    exact ⟨effect.locked_stable apart locked, effect.fits_stable apart locked fits,
      effect.linked_stable good apart linked pinned⟩
  | bothBin work m =>
    obtain ⟨locked, waits, owned, linked, holding⟩ := knows
    exact ⟨effect.locked_stable apart locked, waits, effect.owner_stable apart owned,
      effect.owned_linked_stable good apart owned linked,
      effect.holding_stable good apart holding⟩
  | holding work purpose m =>
    obtain ⟨locked, fits, linked, holding⟩ := knows
    exact ⟨effect.locked_stable apart locked, effect.fits_stable apart locked fits,
      effect.held_linked_stable good apart linked holding,
      effect.holding_stable good apart holding⟩
  | queueing work m =>
    obtain ⟨linked, holding⟩ := knows
    exact ⟨effect.held_linked_stable good apart linked holding,
      effect.holding_stable good apart holding⟩
  | waking work data m =>
    obtain ⟨linked, holding⟩ := knows
    exact ⟨effect.held_linked_stable good apart linked holding,
      effect.holding_stable good apart holding⟩
  | blocked m => exact effect.holding_stable good apart knows
  | release addr m removeable => exact effect.holding_stable good apart knows
  | removeLook addr => exact effect.owner_stable apart knows
  | removeLeave addr => exact effect.owner_stable apart knows
  | removeTake addr m =>
    obtain ⟨owned, linked⟩ := knows
    exact ⟨effect.owner_stable apart owned, effect.owned_linked_stable good apart owned linked⟩
  | removeBoth addr m =>
    obtain ⟨owned, linked, holding⟩ := knows
    exact ⟨effect.owner_stable apart owned, effect.owned_linked_stable good apart owned linked,
      effect.holding_stable good apart holding⟩
  | unlinked lockbin m =>
    exact ⟨effect.owner_stable apart knows.1,
      effect.doomed_stable good apart (.inl rfl) knows.2⟩
  | gone m => exact effect.doomed_stable good apart (.inl rfl) knows
  | dispose m => exact effect.doomed_stable good apart (.inr rfl) knows

theorem Effect.own_stable {pc : Pc} (own : Own other before pc) : Own other after pc where
  looking := (effect.looking_stable apart).trans own.looking
  knows := effect.knows_stable good apart own.looking own.knows

end

end

end Stability

section Kept

variable {before after : Shared}

variable {addr : UInt64}

theorem Kept.of_same (kept : Kept before addr) (pf : (after.words addr).pf = (before.words addr).pf)
    (sf : (after.words addr).sf = (before.words addr).sf)
    (syncvars : after.syncvars addr = before.syncvars addr)
    (heap : ∀ m record, before.syncvars addr = some m → before.heap m = some record →
      ∃ changedTo, after.heap m = some changedTo ∧ changedTo.effective = record.effective) :
    Kept after addr := by
  intro waiters
  rw [sf] at waiters
  obtain ⟨m, record, linked, alive, promised⟩ := kept waiters
  obtain ⟨changedTo, there, effective⟩ := heap m record linked alive
  refine ⟨m, changedTo, syncvars.trans linked, there, ?_⟩
  rw [effective, Promised, pf, sf]
  exact promised

theorem Kept.of_frame (kept : Kept before addr) (words : after.words addr = before.words addr)
    (syncvars : after.syncvars addr = before.syncvars addr)
    (heap : ∀ m, before.syncvars addr = some m → after.heap m = before.heap m) :
    Kept after addr := by
  refine kept.of_same (by rw [words]) (by rw [words]) syncvars ?_
  intro m record linked alive
  exact ⟨record, (heap m linked).trans alive, rfl⟩

theorem Kept.of_record {m : Nat} {record changedTo : Record}
    (kept : Kept before addr) (alive : before.heap m = some record)
    (effective : changedTo.effective = record.effective) (words : after.words = before.words)
    (syncvars : after.syncvars = before.syncvars)
    (heap : after.heap = update before.heap m (some changedTo)) : Kept after addr := by
  refine kept.of_same (by rw [words]) (by rw [words]) (by rw [syncvars]) ?_
  intro found old linked there
  by_cases same : found = m
  · rw [same, alive, Option.some.injEq] at there
    exact ⟨changedTo, by rw [heap, same, update_self], by rw [effective, there]⟩
  · exact ⟨old, by rw [heap, update_of_ne same, there], rfl⟩

end Kept

section Records

variable {before after : Shared}

theorem Good.changed (good : Good before) {m : Nat} {record changedTo : Record}
    (alive : before.heap m = some record) (syncvars : after.syncvars = before.syncvars)
    (heap : after.heap = update before.heap m (some changedTo))
    (next : after.next = before.next) (doomed : changedTo.doomed = record.doomed)
    (settled : changedTo.holder = none → changedTo.pending = .nothing)
    (kept : ∀ addr, Kept after addr) : Good after where
  linked := by
    intro addr found linked
    rw [syncvars] at linked
    obtain ⟨old, there, undoomed⟩ := good.linked linked
    by_cases same : found = m
    · rw [same, alive, Option.some.injEq] at there
      subst there
      exact ⟨changedTo, by rw [heap, same, update_self], doomed.trans undoomed⟩
    · exact ⟨old, by rw [heap, update_of_ne same, there], undoomed⟩
  single := by
    intro addr addr' found first second
    rw [syncvars] at first second
    exact good.single first second
  allocated := by
    intro found old there
    rw [next]
    by_cases same : found = m
    · rw [same]
      exact good.allocated alive
    · rw [heap, update_of_ne same] at there
      exact good.allocated there
  settled := by
    intro found old there free
    by_cases same : found = m
    · rw [heap, same, update_self, Option.some.injEq] at there
      rw [← there] at free ⊢
      exact settled free
    · rw [heap, update_of_ne same] at there
      exact good.settled there free
  kept := kept

theorem Good.create (good : Good before) {addr : UInt64} {looking : Task → Option Nat}
    (missing : before.syncvars addr = none) :
    Good { before.create addr with looking := looking } := by
  have old : ∀ {addr m}, before.syncvars addr = some m → m ≠ before.next := by
    intro addr m linked
    obtain ⟨record, there, -⟩ := good.linked linked
    exact Nat.ne_of_lt (good.allocated there)
  have entries : ∀ {addr' m}, (before.create addr).syncvars addr' = some m →
      addr' = addr ∧ m = before.next ∨ addr' ≠ addr ∧ before.syncvars addr' = some m := by
    intro addr' m linked
    by_cases same : addr' = addr
    · have new : (before.create addr).syncvars addr' = some before.next := by
        rw [same]
        exact update_self ..
      rw [new, Option.some.injEq] at linked
      exact .inl ⟨same, linked.symm⟩
    · exact .inr ⟨same, (update_of_ne same ..).symm.trans linked⟩
  constructor
  · intro addr' m linked
    rcases entries linked with ⟨-, new⟩ | ⟨-, linked⟩
    · rw [new]
      exact ⟨_, update_self .., rfl⟩
    · obtain ⟨record, there, undoomed⟩ := good.linked linked
      exact ⟨record, (update_of_ne (old linked) ..).trans there, undoomed⟩
  · intro first second m left right
    rcases entries left with ⟨sameLeft, new⟩ | ⟨-, left⟩
    · rcases entries right with ⟨sameRight, -⟩ | ⟨-, right⟩
      · exact sameRight.trans sameLeft.symm
      · exact absurd new (old right)
    · rcases entries right with ⟨-, new⟩ | ⟨-, right⟩
      · exact absurd new (old left)
      · exact good.single left right
  · intro m record there
    by_cases same : m = before.next
    · rw [same]
      exact Nat.lt_succ_self _
    · have there := (update_of_ne same ..).symm.trans there
      exact Nat.lt_succ_of_lt (good.allocated there)
  · intro m record there free
    by_cases same : m = before.next
    · subst same
      have new := (update_self ..).symm.trans there
      rw [Option.some.injEq] at new
      rw [← new]
    · have there := (update_of_ne same ..).symm.trans there
      exact good.settled there free
  · intro addr'
    by_cases same : addr' = addr
    · intro waiters
      obtain ⟨m, record, linked, -⟩ := good.kept addr' waiters
      rw [same, missing] at linked
      cases linked
    · refine (good.kept addr').of_frame rfl (update_of_ne same ..) ?_
      intro m linked
      exact update_of_ne (old linked) ..

theorem Good.unlink (good : Good before) {me : Task} {addr : UInt64} {m : Nat} {record : Record}
    (linked : before.syncvars addr = some m) (alive : before.heap m = some record)
    (settled : record.pending = .nothing) (unused : Addrstat.unused record.stat = true) :
    Good { before with
      syncvars := update before.syncvars addr none
      heap := update before.heap m (some { record with doomed := some me }) } := by
  have entries : ∀ {addr' found},
      update before.syncvars addr none addr' = some found →
        before.syncvars addr' = some found ∧ addr' ≠ addr ∧ found ≠ m := by
    intro addr' found there
    have apart : addr' ≠ addr := by
      intro same
      rw [same, update_self] at there
      cases there
    rw [update_of_ne apart] at there
    refine ⟨there, apart, ?_⟩
    intro same
    rw [same] at there
    exact apart (good.single linked there)
  constructor
  · intro addr' found there
    obtain ⟨there, -, differs⟩ := entries there
    obtain ⟨old, here, undoomed⟩ := good.linked there
    exact ⟨old, (update_of_ne differs ..).trans here, undoomed⟩
  · intro first second found left right
    exact good.single (entries left).1 (entries right).1
  · intro found old there
    by_cases same : found = m
    · rw [same]
      exact good.allocated alive
    · exact good.allocated ((update_of_ne same ..).symm.trans there)
  · intro found old there free
    by_cases same : found = m
    · subst same
      have new := (update_self ..).symm.trans there
      rw [Option.some.injEq] at new
      rw [← new]
      exact settled
    · exact good.settled ((update_of_ne same ..).symm.trans there) free
  · intro addr'
    by_cases same : addr' = addr
    · intro waiters
      rw [same] at waiters
      obtain ⟨found, held, there, here, promised⟩ := good.kept addr waiters
      rw [linked, Option.some.injEq] at there
      rw [← there, alive, Option.some.injEq] at here
      subst here
      exact absurd promised (not_promised_unused waiters settled unused)
    · refine (good.kept addr').of_frame rfl (update_of_ne same ..) ?_
      intro found there
      have differs : found ≠ m := by
        intro equal
        rw [equal] at there
        exact same (good.single linked there)
      exact update_of_ne differs ..

theorem Good.delete (good : Good before) {me : Task} {m : Nat} {record : Record}
    (alive : before.heap m = some record) (doomed : record.doomed = some me) :
    Good { before with heap := update before.heap m none } := by
  have apart : ∀ {addr found}, before.syncvars addr = some found → found ≠ m := by
    intro addr found linked same
    obtain ⟨old, there, undoomed⟩ := good.linked linked
    rw [same, alive, Option.some.injEq] at there
    rw [← there, doomed] at undoomed
    cases undoomed
  have older : ∀ {found old}, update before.heap m none found = some old →
      before.heap found = some old := by
    intro found old there
    by_cases same : found = m
    · rw [same, update_self] at there
      cases there
    · rw [update_of_ne same] at there
      exact there
  constructor
  · intro addr found linked
    obtain ⟨old, there, undoomed⟩ := good.linked linked
    exact ⟨old, (update_of_ne (apart linked) ..).trans there, undoomed⟩
  · intro first second found left right
    exact good.single left right
  · intro found old there
    exact good.allocated (older there)
  · intro found old there free
    exact good.settled (older there) free
  · intro addr
    refine (good.kept addr).of_frame rfl rfl ?_
    intro found linked
    exact update_of_ne (apart linked) ..

theorem Effect.good [Topology] {me : Task} (effect : Effect me before after) (good : Good before) :
    Good after := by
  cases effect with
  | quiet => exact ⟨good.linked, good.single, good.allocated, good.settled, good.kept⟩
  | bin => exact ⟨good.linked, good.single, good.allocated, good.settled, good.kept⟩
  | @word addr word free promise =>
    refine ⟨good.linked, good.single, good.allocated, good.settled, ?_⟩
    intro addr'
    by_cases same : addr' = addr
    · subst same
      intro waiters
      simp only [update_self] at waiters ⊢
      rcases promise with unset | ⟨pf, sf⟩
      · rw [unset] at waiters
        cases waiters
      · rw [sf] at waiters
        obtain ⟨m, record, linked, alive, promised⟩ := good.kept addr' waiters
        refine ⟨m, record, linked, alive, ?_⟩
        rw [Promised, pf, sf]
        exact promised
    · exact (good.kept addr').of_frame (update_of_ne same ..) rfl (fun _ _ => rfl)
  | @commit addr word m record changedTo woken mine linked alive holding holder doomed promise =>
    refine good.changed alive rfl rfl rfl doomed (by rw [holder]; nofun) ?_
    intro addr'
    by_cases same : addr' = addr
    · subst same
      intro waiters
      refine ⟨m, changedTo, linked, update_self .., ?_⟩
      simp only [update_self]
      exact promise
    · refine (good.kept addr').of_frame (update_of_ne same ..) rfl ?_
      intro found there
      have differs : found ≠ m := by
        intro equal
        rw [equal] at there
        exact same (good.single linked there)
      exact update_of_ne differs ..
  | lock linked alive free =>
    refine good.changed alive rfl rfl rfl rfl nofun ?_
    intro addr
    refine (good.kept addr).of_record alive ?_ rfl rfl rfl
    rfl
  | held alive holding doomed effective settled =>
    refine good.changed alive rfl rfl rfl doomed (fun _ => settled) ?_
    intro addr
    exact (good.kept addr).of_record alive effective rfl rfl rfl
  | link free missing => exact good.create missing
  | unlink mine linked alive holding settled unused => exact good.unlink linked alive settled unused
  | delete alive doomed => exact good.delete alive doomed

end Records

variable {phase : Phase} {op : Op}

theorem decision_queue (decided : Op.decision phase word op = .queue) : Op.waits op = true := by
  cases op with
  | readFF dest => rfl
  | readFE dest => rfl
  | writeEF src => rfl
  | _ =>
    simp only [Op.decision] at decided
    split at decided <;> (try split at decided) <;> cases decided

theorem decision_fill {data : UInt64}
    (decided : Op.decision phase word op = .fill data) : word.sf = true := by
  cases waiters : word.sf with
  | true => rfl
  | false =>
    cases op <;> simp only [Op.decision, waiters, Bool.and_false] at decided <;> grind

theorem decision_empty (decided : Op.decision phase word op = .empty) : word.sf = true := by
  cases waiters : word.sf with
  | true => rfl
  | false =>
    cases op <;> simp only [Op.decision, waiters, Bool.and_false] at decided <;> grind

theorem decision_finish {data : UInt64} {pf sf : Bool}
    (decided : Op.decision phase word op = .finish data pf sf) :
    sf = false ∨ pf = word.pf ∧ sf = word.sf := by
  cases op <;> simp only [Op.decision] at decided <;> grind

theorem Shared.schedule_eq (s : Shared) (wakes : List Wake) :
    ∃ woken, s.schedule wakes = { s with woken := woken } := by
  induction wakes generalizing s with
  | nil => exact ⟨s.woken, rfl⟩
  | cons wake rest ih =>
    obtain ⟨woken, same⟩ := ih { s with woken := update s.woken wake.waiter (some wake) }
    exact ⟨woken, same⟩

theorem promised_entry {me : Task} (waits : Op.waits op = true) (data : UInt64) (record : Record) :
    Promised (unlocked data (Op.entryPf op) true)
      { record with pending := Op.entry me op }.effective := by
  intro waiters
  cases op with
  | readFF dest => simp [unlocked, Op.entryPf, Op.entry, Readers, Record.effective, Pending.apply]
  | readFE dest => simp [unlocked, Op.entryPf, Op.entry, Readers, Record.effective, Pending.apply]
  | writeEF src => simp [unlocked, Op.entryPf, Op.entry, Writers, Record.effective, Pending.apply]
  | _ => cases waits

/-- The state that `gotlock_fill` is given is right about the readers it leaves. -/
theorem promised_fill (data : UInt64) (record : Record) :
    Promised (unlocked data (!record.stat.FEQ.isEmpty) (!record.stat.FEQ.tail.isEmpty))
      { record with pending := .fill }.effective := by
  intro waiters
  simp only [unlocked, Bool.not_eq_true', List.isEmpty_eq_false_iff] at waiters
  have readers : record.stat.FEQ ≠ [] := by
    intro empty
    rw [empty] at waiters
    exact waiters rfl
  simp [unlocked, Readers, Record.effective, Pending.apply, readers, waiters]

theorem promised_writers (data : UInt64) (record : Record) (rest : List (Addrres UInt64))
    (settled : record.pending = .nothing) :
    Promised (unlocked data false (!rest.isEmpty))
      { record with stat := { record.stat with full := false, EFQ := rest } }.effective := by
  intro waiters
  simp only [unlocked, Bool.not_eq_true', List.isEmpty_eq_false_iff] at waiters
  simp [unlocked, Writers, Record.effective, Pending.apply, settled, waiters]

theorem Holding.settled {me : Task} {s : Shared} {m : Nat} {pending : Pending} {record : Record}
    (holding : Holding me s m pending) (alive : s.heap m = some record) :
    record.holder = some me ∧ record.pending = pending := by
  obtain ⟨held, there, mine, same⟩ := holding
  rw [alive, Option.some.injEq] at there
  rw [there]
  exact ⟨mine, same⟩

def Allowed (s : Shared) (pc : Pc) : Prop :=
  ∀ addr m record, pc = .removeBoth addr m → s.heap m = some record →
    Addrstat.unused record.stat = true → ∀ other, s.looking other ≠ some m

theorem act_effect [Topology] {me : Task} {before after : Shared} {pc pc' : Pc} {label : Label}
    (good : Good before) (own : Own me before pc) (allowed : Allowed before pc)
    (acted : Act me before pc label after pc') : Effect me before after ∧ Own me after pc' := by
  obtain ⟨looking, knows⟩ := own
  have unchanged : ∀ other, other ≠ me → before.looking other = before.looking other :=
    fun _ _ => rfl
  have forgets (m : Option Nat) : ∀ other, other ≠ me →
      update before.looking me m other = before.looking other :=
    fun _ apart => update_of_ne apart ..
  cases acted with
  | call op addr fits => exact ⟨.quiet unchanged, looking, trivial⟩
  | resume released => exact ⟨.quiet unchanged, looking, trivial⟩
  | load which free full => exact ⟨.quiet unchanged, looking, trivial⟩
  | lockWord free =>
    refine ⟨.word (.inl free) (.inr ⟨rfl, rfl⟩), looking, ?_⟩
    simp only [Knows, Locked, Shared.setWord, update_self]
  | @timeout work =>
    refine ⟨.quiet unchanged, ?_⟩
    cases Op.waits work.op with
    | true => exact ⟨looking, trivial⟩
    | false => exact ⟨looking, trivial⟩
  | back decided => exact ⟨.word (.inr knows) (.inr ⟨rfl, rfl⟩), looking, trivial⟩
  | finish decided =>
    exact ⟨.word (.inr knows) (decision_finish decided), looking, trivial⟩
  | @queue work phase decided =>
    refine ⟨.quiet unchanged, ?_⟩
    have waits := decision_queue decided
    cases Op.keepsBin work.op with
    | true => exact ⟨looking, knows, waits⟩
    | false => exact ⟨looking, knows, waits⟩
  | fill decided => exact ⟨.quiet unchanged, looking, knows, decision_fill decided⟩
  | empty decided => exact ⟨.quiet unchanged, looking, knows, decision_empty decided⟩
  | @found work purpose m free linked =>
    cases purpose with
    | queue => exact ⟨.quiet (forgets _), update_self .., knows.1, knows.2, linked⟩
    | fill data => exact ⟨.quiet unchanged, looking, knows.1, knows.2, linked⟩
    | empty => exact ⟨.quiet unchanged, looking, knows.1, knows.2, linked⟩
  | missing free absent => exact ⟨.quiet unchanged, looking, knows⟩
  | putNew free absent =>
    exact ⟨.link (.inl free) absent (forgets _), update_self .., knows.1, knows.2,
      update_self ..⟩
  | lockBin free =>
    exact ⟨.bin (.inl free), looking, knows.1, knows.2, update_self ..⟩
  | foundBin linked =>
    exact ⟨.quiet unchanged, looking, knows.1, knows.2.1, knows.2.2, linked⟩
  | createBin absent =>
    obtain ⟨locked, waits, owned⟩ := knows
    exact ⟨.link (.inr owned) absent unchanged, looking, locked, waits, owned,
      update_self ..⟩
  | lockRecordBin alive free =>
    obtain ⟨locked, waits, owned, linked⟩ := knows
    have settled := good.settled alive free
    exact ⟨.lock linked alive free unchanged, looking, locked, waits, owned, linked, _,
      update_self .., rfl, settled⟩
  | unlockBin =>
    obtain ⟨locked, waits, owned, linked, holding⟩ := knows
    exact ⟨.bin (.inr owned), looking, locked, waits, linked, holding⟩
  | lockRecord alive free =>
    obtain ⟨locked, fits, linked⟩ := knows
    have settled := good.settled alive free
    exact ⟨.lock linked alive free (forgets _), update_self .., locked, fits, linked, _,
      update_self .., rfl, settled⟩
  | @unlockQueue work m record alive =>
    obtain ⟨locked, waits, linked, holding⟩ := knows
    obtain ⟨mine, settled⟩ := holding.settled alive
    exact ⟨.commit locked linked alive mine mine rfl (promised_entry waits _ record), looking,
      linked, _, update_self .., mine, rfl⟩
  | join alive =>
    obtain ⟨linked, holding⟩ := knows
    obtain ⟨mine, -⟩ := holding.settled alive
    exact ⟨.held alive mine rfl rfl rfl, looking, _, update_self .., mine, rfl⟩
  | @unlockFill work data m record alive asserted =>
    obtain ⟨locked, fits, linked, holding⟩ := knows
    obtain ⟨mine, settled⟩ := holding.settled alive
    exact ⟨.commit locked linked alive mine mine rfl (promised_fill data record), looking,
      linked, _, update_self .., mine, rfl⟩
  | @gotlockFill work data m record alive asserted =>
    obtain ⟨linked, holding⟩ := knows
    obtain ⟨mine, -⟩ := holding.settled alive
    obtain ⟨woken, scheduled⟩ := Shared.schedule_eq
      (before.setRecord m (some { record with
        stat := record.pending.apply record.stat, pending := .nothing }))
      (fillWakes record.stat data)
    rw [scheduled]
    exact ⟨.held alive mine rfl rfl rfl, looking, _, update_self .., mine, rfl⟩
  | @gotlockEmpty work m record x rest alive asserted queued =>
    obtain ⟨locked, fits, linked, holding⟩ := knows
    obtain ⟨mine, settled⟩ := holding.settled alive
    exact ⟨.commit locked linked alive mine mine rfl
      (promised_writers x.addr record rest settled), looking, _, update_self .., mine,
      settled⟩
  | park alive =>
    obtain ⟨mine, settled⟩ := Holding.settled knows alive
    exact ⟨.held alive mine rfl rfl settled, looking, trivial⟩
  | @release addr m removeable record alive =>
    obtain ⟨mine, settled⟩ := Holding.settled knows alive
    refine ⟨.held alive mine rfl rfl settled, ?_⟩
    cases removeable with
    | true => exact ⟨looking, trivial⟩
    | false => exact ⟨looking, trivial⟩
  | removeLockBin free => exact ⟨.bin (.inl free), looking, update_self ..⟩
  | removeFound linked => exact ⟨.quiet unchanged, looking, knows, linked⟩
  | removeMissing absent => exact ⟨.quiet unchanged, looking, knows⟩
  | removeLock alive free =>
    obtain ⟨owned, linked⟩ := knows
    have settled := good.settled alive free
    exact ⟨.lock linked alive free unchanged, looking, owned, linked, _,
      update_self .., rfl, settled⟩
  | inUse alive used =>
    obtain ⟨owned, linked, holding⟩ := knows
    obtain ⟨mine, settled⟩ := holding.settled alive
    exact ⟨.held alive mine rfl rfl settled, looking, owned⟩
  | unlink alive unused =>
    obtain ⟨owned, linked, holding⟩ := knows
    obtain ⟨mine, settled⟩ := holding.settled alive
    have unwatched := allowed _ _ _ rfl alive unused
    exact ⟨.unlink owned linked alive mine settled unused unwatched, looking, owned, _,
      update_self .., mine, rfl, settled⟩
  | removeLeave => exact ⟨.bin (.inr knows), looking, trivial⟩
  | unlockUnlinked => exact ⟨.bin (.inr knows.1), looking, knows.2⟩
  | dropRecord alive =>
    obtain ⟨record, there, mine, doomed, settled⟩ := knows
    rw [alive, Option.some.injEq] at there
    subst there
    exact ⟨.held alive mine rfl rfl settled, looking, _, update_self .., rfl, doomed,
      settled⟩
  | delete =>
    obtain ⟨record, alive, free, doomed, -⟩ := knows
    exact ⟨.delete alive doomed free, looking, trivial⟩

theorem act_respects [Topology] : Config.Respects (Config.Guard Allowed Act) Good Own where
  keeps := by
    intro task before after mine next label good own acted
    obtain ⟨effect, kept⟩ := act_effect good own acted.1 acted.2
    exact ⟨effect.good good, kept⟩
  stable := by
    intro task other before after mine next theirs label apart good own ownOther acted
    exact (act_effect good own acted.1 acted.2).1.own_stable good apart ownOther

namespace Pc

def queues : Pc → Option (UInt64 × Nat)
  | queueing work m | waking work _ m | holding work .empty m => some (work.addr, m)
  | _ => none

def uses : Pc → Option Nat
  | takeBin _ m | takeFree _ _ m | bothBin _ m | holding _ _ m | queueing _ m | waking _ _ m
  | blocked m | release _ m _ | removeTake _ m | removeBoth _ m | unlinked _ m | gone m
  | dispose m => some m
  | _ => none

end Pc

/-- Who joins or leaves a queue does so on the record in the table, and no task uses a deleted
record. -/
structure QueuesLive (config : Config) : Prop where
  linked : ∀ task addr m, (config.tasks task).queues = some (addr, m) →
    config.shared.syncvars addr = some m
  alive : ∀ task m, (config.tasks task).uses = some m →
    ∃ record, config.shared.heap m = some record

/-- When a record leaves its table, no `readFF` has found it without having locked it. -/
def Careful (config : Config) (label : Nat × Label) : Prop :=
  label.2 = .unlink → ∀ addr m, config.tasks label.1 = .removeBoth addr m →
    ∀ other work, config.tasks other ≠ .takeFree work .queue m

theorem linked_of_queues [Topology] {me : Task} {s : Shared} {pc : Pc} {addr : UInt64} {m : Nat}
    (knows : Knows me s pc) (queued : pc.queues = some (addr, m)) : s.syncvars addr = some m := by
  cases pc with
  | queueing work held =>
    cases queued
    exact knows.1
  | waking work data held =>
    cases queued
    exact knows.1
  | holding work purpose held =>
    cases purpose with
    | empty =>
      cases queued
      exact knows.2.2.1
    | _ => cases queued
  | _ => cases queued

theorem alive_of_uses [Topology] {me : Task} {s : Shared} {pc : Pc} {m : Nat} (good : Good s)
    (knows : Knows me s pc) (used : pc.uses = some m) : ∃ record, s.heap m = some record := by
  have found {addr : UInt64} (linked : s.syncvars addr = some m) :
      ∃ record, s.heap m = some record := by
    obtain ⟨record, alive, -⟩ := good.linked linked
    exact ⟨record, alive⟩
  have doomed {holder : Option Task} (doomed : Doomed me s m holder) :
      ∃ record, s.heap m = some record := by
    obtain ⟨record, alive, -⟩ := doomed
    exact ⟨record, alive⟩
  have held {pending : Pending} (holding : Holding me s m pending) :
      ∃ record, s.heap m = some record := by
    obtain ⟨record, alive, -⟩ := holding
    exact ⟨record, alive⟩
  cases pc with
  | takeBin work here =>
    cases used
    exact found knows.2.2.2
  | takeFree work purpose here =>
    cases used
    exact found knows.2.2
  | bothBin work here =>
    cases used
    exact held knows.2.2.2.2
  | holding work purpose here =>
    cases used
    exact held knows.2.2.2
  | queueing work here =>
    cases used
    exact held knows.2
  | waking work data here =>
    cases used
    exact held knows.2
  | blocked here =>
    cases used
    exact held knows
  | release addr here removeable =>
    cases used
    exact held knows
  | removeTake addr here =>
    cases used
    exact found knows.2
  | removeBoth addr here =>
    cases used
    exact held knows.2.2
  | unlinked lockbin here =>
    cases used
    exact doomed knows.2
  | gone here =>
    cases used
    exact doomed knows
  | dispose here =>
    cases used
    exact doomed knows
  | _ => cases used

theorem holds_queuesLive [Topology] {config : Config} (holds : Config.Holds Good Own config) :
    QueuesLive config where
  linked := by
    intro task addr m queued
    exact linked_of_queues (holds.tasks task).knows queued
  alive := by
    intro task m used
    exact alive_of_uses holds.shared (holds.tasks task).knows used

theorem Careful.allowed [Topology] {config after : Config} {task : Nat} {label : Label}
    (holds : Config.Holds Good Own config) (careful : Careful config (task, label))
    (acted : Config.Step Act config (task, label) after) :
    Allowed config.shared (config.tasks task) := by
  intro addr m record there alive unused other watched
  rw [(holds.tasks other).looking] at watched
  have removes : label = .unlink := by
    cases acted with
    | move acted =>
      rw [there] at acted
      cases acted with
      | inUse here used =>
        rw [alive, Option.some.injEq] at here
        rw [← here, unused] at used
        cases used
      | unlink => rfl
  have unwatched := careful removes addr m there other
  generalize config.tasks other = pc at watched unwatched
  cases pc with
  | takeFree work purpose found =>
    cases purpose with
    | queue =>
      cases watched
      exact unwatched work rfl
    | _ => cases watched
  | _ => cases watched

theorem Careful.holds [Topology] {before after : Config} {label : Nat × Label}
    (holds : Config.Holds Good Own before)
    (taken : Guarded Careful (Config.Step Act) before label after) :
    Config.Holds Good Own after := by
  obtain ⟨task, label⟩ := label
  obtain ⟨careful, acted⟩ := taken
  have allowed := careful.allowed holds acted
  cases acted with
  | move acted => exact holds.step act_respects (.move ⟨allowed, acted⟩)

theorem Fresh.holds [Topology] {config : Config} (fresh : Fresh config) :
    Config.Holds Good Own config := by
  constructor
  · constructor
    · intro addr m linked
      rw [fresh.syncvars] at linked
      cases linked
    · intro addr addr' m linked
      rw [fresh.syncvars] at linked
      cases linked
    · intro m record alive
      rw [fresh.heap] at alive
      cases alive
    · intro m record alive
      rw [fresh.heap] at alive
      cases alive
    · intro addr waiters
      rw [(fresh.words addr).2] at waiters
      cases waiters
  · intro task
    rw [fresh.tasks]
    exact ⟨fresh.looking task, trivial⟩

/-- In a run in which no record leaves its table between the two steps of a `readFF`, waiters
join and leave the queues of live records only. -/
theorem run_queuesLive [Topology] {first last : Config} {labels : List (Nat × Label)}
    (fresh : Fresh first) (run : Run (Guarded Careful (Config.Step Act)) first labels last) : QueuesLive last :=
  holds_queuesLive (run.preserves (fun _ _ _ holds taken => Careful.holds holds taken) fresh.holds)

def emptyWords : Config where
  shared :=
    { words := fun _ => ⟨none, true, false, 0⟩
      syncvars := fun _ => none
      owner := fun _ => none
      heap := fun _ => none
      next := 0
      looking := fun _ => none
      woken := fun _ => none }
  tasks := fun _ => .idle

theorem emptyWords_fresh : Fresh emptyWords :=
  ⟨fun _ => ⟨rfl, rfl⟩, fun _ => rfl, fun _ => rfl, fun _ => rfl, fun _ => rfl, fun _ => rfl⟩

/-- Task 0's `readFE` waits; task 1's `fill` releases it and takes the record out of the table. -/
theorem run_queuesLive_readFE : ∃ last : Config, (last.tasks 1 = .gone 0) ∧
    last.shared.syncvars 16 = none ∧ QueuesLive last := by
  let := Feb.twoWorkers
  have run : ∃ labels last, Run (Guarded Careful (Config.Step Act)) emptyWords labels last ∧
      (last.tasks 1 = .gone 0) ∧ last.shared.syncvars 16 = none := by
    refine Config.exists_guarded_move 0 rfl (.call (.readFE true) 16 rfl) nofun ?_
    refine Config.exists_guarded_move 0 rfl .timeout nofun ?_
    refine Config.exists_guarded_move 0 rfl (.lockWord rfl) nofun ?_
    refine Config.exists_guarded_move 0 rfl (.queue rfl) nofun ?_
    refine Config.exists_guarded_move 0 rfl (.lockBin rfl) nofun ?_
    refine Config.exists_guarded_move 0 rfl (.createBin rfl) nofun ?_
    refine Config.exists_guarded_move 0 rfl (.lockRecordBin rfl rfl) nofun ?_
    refine Config.exists_guarded_move 0 rfl .unlockBin nofun ?_
    refine Config.exists_guarded_move 0 rfl (.unlockQueue rfl) nofun ?_
    refine Config.exists_guarded_move 0 rfl (.join rfl) nofun ?_
    refine Config.exists_guarded_move 0 rfl (.park rfl) nofun ?_
    refine Config.exists_guarded_move 1 rfl (.call .fill 16 rfl) nofun ?_
    refine Config.exists_guarded_move 1 rfl (.lockWord rfl) nofun ?_
    refine Config.exists_guarded_move 1 rfl (.fill rfl) nofun ?_
    refine Config.exists_guarded_move 1 rfl (.found (update_self ..) rfl) nofun ?_
    refine Config.exists_guarded_move 1 rfl (.lockRecord rfl rfl) nofun ?_
    refine Config.exists_guarded_move 1 rfl (.unlockFill rfl nofun) nofun ?_
    refine Config.exists_guarded_move 1 rfl (.gotlockFill rfl rfl) nofun ?_
    refine Config.exists_guarded_move 1 rfl (.release rfl) nofun ?_
    refine Config.exists_guarded_move 1 rfl (.removeLockBin (update_self ..)) nofun ?_
    refine Config.exists_guarded_move 1 rfl (.removeFound rfl) nofun ?_
    refine Config.exists_guarded_move 1 rfl (.removeLock rfl rfl) nofun ?_
    refine Config.exists_guarded_move 1 rfl (.unlink rfl rfl) ?_ ?_
    · intro _ _ _ _ other work
      rcases other with _ | _ | other <;> rintro ⟨⟩
    refine Config.exists_guarded_move 1 rfl .unlockUnlinked nofun ?_
    exact ⟨[], _, .nil _, rfl, rfl⟩
  obtain ⟨labels, last, run, queued⟩ := run
  exact ⟨last, queued.1, queued.2, run_queuesLive emptyWords_fresh run⟩

/-- Task 0's `readFE` waits; task 1's `fill` releases it and goes to remove the record; task 2's
`readFF` has found the record and locks it when it is out of the table. -/
theorem readFF_queues_on_removed_record : letI := Feb.twoWorkers
    ¬ ∀ labels last, Run (Config.Step Act) emptyWords labels last → QueuesLive last := by
  let := Feb.twoWorkers
  have run : ∃ labels last, Run (Config.Step Act) emptyWords labels last ∧
      (last.tasks 2).queues = some (16, 0) ∧ last.shared.syncvars 16 = none := by
    refine Config.exists_move 0 rfl (.call (.readFE true) 16 rfl) ?_
    refine Config.exists_move 0 rfl .timeout ?_
    refine Config.exists_move 0 rfl (.lockWord rfl) ?_
    refine Config.exists_move 0 rfl (.queue rfl) ?_
    refine Config.exists_move 0 rfl (.lockBin rfl) ?_
    refine Config.exists_move 0 rfl (.createBin rfl) ?_
    refine Config.exists_move 0 rfl (.lockRecordBin rfl rfl) ?_
    refine Config.exists_move 0 rfl .unlockBin ?_
    refine Config.exists_move 0 rfl (.unlockQueue rfl) ?_
    refine Config.exists_move 0 rfl (.join rfl) ?_
    refine Config.exists_move 0 rfl (.park rfl) ?_
    refine Config.exists_move 1 rfl (.call .fill 16 rfl) ?_
    refine Config.exists_move 1 rfl (.lockWord rfl) ?_
    refine Config.exists_move 1 rfl (.fill rfl) ?_
    refine Config.exists_move 1 rfl (.found (update_self ..) rfl) ?_
    refine Config.exists_move 1 rfl (.lockRecord rfl rfl) ?_
    refine Config.exists_move 1 rfl (.unlockFill rfl nofun) ?_
    refine Config.exists_move 1 rfl (.gotlockFill rfl rfl) ?_
    refine Config.exists_move 1 rfl (.release rfl) ?_
    refine Config.exists_move 2 rfl (.call (.readFF true) 16 rfl) ?_
    refine Config.exists_move 2 rfl .timeout ?_
    refine Config.exists_move 2 rfl (.lockWord rfl) ?_
    refine Config.exists_move 2 rfl (.queue rfl) ?_
    refine Config.exists_move 2 rfl (.found (update_self ..) rfl) ?_
    refine Config.exists_move 1 rfl (.removeLockBin (update_self ..)) ?_
    refine Config.exists_move 1 rfl (.removeFound rfl) ?_
    refine Config.exists_move 1 rfl (.removeLock rfl rfl) ?_
    refine Config.exists_move 1 rfl (.unlink rfl rfl) ?_
    refine Config.exists_move 1 rfl .unlockUnlinked ?_
    refine Config.exists_move 1 rfl (.dropRecord rfl) ?_
    refine Config.exists_move 2 rfl (.lockRecord rfl rfl) ?_
    refine Config.exists_move 2 rfl (.unlockQueue rfl) ?_
    exact ⟨[], _, .nil _, rfl, rfl⟩
  intro always
  obtain ⟨labels, last, run, queued, removed⟩ := run
  have linked := (always labels last run).linked 2 16 0 queued
  rw [removed] at linked
  cases linked

end Qthreads.Syncvar.Steps
