import Mathlib.Tactic.IntervalCases
import Qthreads.Spawn.Task

namespace Qthreads.Spawn

/-- The return kinds a caller of `qthread_spawn` can ask for. -/
inductive ReturnKind where
  | none
  | aligned
  | syncvar
  | sinc
  | voidSinc
deriving DecidableEq

def Asked (ret : UInt64) (feature : Features) : ReturnKind → Prop
  | .none => ret = 0
  | .aligned => ret ≠ 0 ∧ retType feature = 0
  | .syncvar => ret ≠ 0 ∧ retType feature = spawnRetSyncvarT
  | .sinc => ret ≠ 0 ∧ retType feature = spawnRetSinc
  | .voidSinc => ret ≠ 0 ∧ retType feature = spawnRetSincVoid

section Events

variable {F : Type}

/-- The delivery of a result `v` that was asked for. -/
def ReturnKind.delivery (ret v : UInt64) : ReturnKind → List (Event F)
  | .none => []
  | .aligned => [.writeEF ret v]
  | .syncvar => [.syncvarWriteEF ret (UInt64.ofNat (v.toNat % 2 ^ 60))]
  | .sinc => [.sincSubmit ret (some v)]
  | .voidSinc => [.sincSubmit ret Option.none]

def Event.calls : Event F → Bool
  | .call _ _ | .aggregate _ _ => true
  | _ => false

def Event.delivers : Event F → Bool
  | .writeEF _ _ | .syncvarWriteEF _ _ | .sincSubmit _ _ => true
  | _ => false

/-- The task's steps end in the delivery and call `f` once before it. -/
structure Delivers (events : List (Event F)) (f : F) (arg : Pointer) (delivery : List (Event F)) :
    Prop where
  split : ∃ front, events = front ++ delivery ∧ front.filter Event.calls = [.call f arg] ∧
    front.filter Event.delivers = []

/-- A task does what its `qthread_spawn` was asked for, when `f` gives `v`. -/
structure SpawnExact (request : Request F) (kind : ReturnKind) (v : UInt64)
    (memory after : Memory) (t : Qthread F) : Prop where
  pointer : request.argSize = 0 → t.arg = .user request.arg
  copied : request.argSize ≠ 0 → ∃ block, t.arg = .own block ∧
    memory.next ≤ block ∧ block < after.next ∧
    ∀ later : Memory, later.blocks block = after.blocks block →
      later.read request.argSize t.arg = memory.read request.argSize (.user request.arg)
  delivered : Delivers (qthreadWrapper t v) request.f t.arg (kind.delivery request.ret v)
  method : qthreadCallMethod t.f t.arg t.ret t.flags v =
    .call request.f t.arg :: kind.delivery request.ret v
  team : request.feature &&& spawnMaskTeams ≠ 0 → ∃ team, t.team = some team ∧
    ∀ self : Qthread F, self.flags &&& aggregated = 0 →
      Delivers (qthreadWrapper (assumeLeader self team) v) self.f self.arg
        (kind.delivery request.ret v)

def returned (ret : UInt64) (flags : Flags) (v : UInt64) : List (Event F) :=
  if ret ≠ 0 then
    if flags &&& retIsSinc ≠ 0 then
      if flags &&& retIsVoidSinc ≠ 0 then [.sincSubmit ret none] else [.sincSubmit ret (some v)]
    else if flags &&& retIsSyncvar ≠ 0 then [.syncvarWriteEF ret (int60 v)]
    else [.writeEF ret v]
  else []

theorem qthreadCallMethod_eq (f : F) (arg : Pointer) (ret : UInt64) (flags : Flags) (v : UInt64) :
    qthreadCallMethod f arg ret flags v = .call f arg :: returned ret flags v := by
  simp only [qthreadCallMethod, returned]
  split
  · split
    · split <;> rfl
    · split <;> rfl
  · rfl

theorem teamEntry_silent (t : Qthread F) :
    (teamEntry t).filter Event.calls = [] ∧ (teamEntry t).filter Event.delivers = [] := by
  rw [teamEntry]
  cases t.team with
  | none => exact ⟨rfl, rfl⟩
  | some team =>
    dsimp only
    split
    · exact ⟨rfl, rfl⟩
    · exact ⟨rfl, rfl⟩

theorem teamExit_silent (t : Qthread F) :
    (teamExit t).filter Event.calls = [] ∧ (teamExit t).filter Event.delivers = [] := by
  rw [teamExit]
  cases t.team with
  | none => exact ⟨rfl, rfl⟩
  | some team => exact ⟨rfl, rfl⟩

variable {t : Qthread F}

theorem qthreadWrapper_eq (plain : t.flags &&& aggregated = 0) (v : UInt64) :
    qthreadWrapper t v =
      (teamEntry t ++ .call t.f t.arg :: teamExit t) ++ returned t.ret t.flags v := by
  simp only [qthreadWrapper, returned, plain, ne_eq, not_true_eq_false, if_false]
  split
  · split
    · split <;> rfl
    · split <;> rfl
  · rw [List.append_nil]

theorem qthreadWrapper_delivers (plain : t.flags &&& aggregated = 0) (v : UInt64)
    (delivery : List (Event F)) (same : returned t.ret t.flags v = delivery) :
    Delivers (qthreadWrapper t v) t.f t.arg delivery := by
  obtain ⟨entryCalls, entryDelivers⟩ := teamEntry_silent t
  obtain ⟨exitCalls, exitDelivers⟩ := teamExit_silent t
  refine ⟨teamEntry t ++ .call t.f t.arg :: teamExit t, ?_, ?_, ?_⟩
  · rw [qthreadWrapper_eq plain, same]
  · simp [List.filter_cons, entryCalls, exitCalls, Event.calls]
  · simp [entryDelivers, exitDelivers, Event.delivers]

theorem Delivers.unique (plain : t.flags &&& aggregated = 0) {v : UInt64} {f : F}
    {arg : Pointer} {kind : ReturnKind} {ret : UInt64}
    (delivers : Delivers (qthreadWrapper t v) f arg (kind.delivery ret v)) :
    returned t.ret t.flags v = (kind.delivery ret v : List (Event F)) := by
  have silent := qthreadWrapper_delivers plain v _ rfl
  obtain ⟨front, same, -, empty⟩ := silent.split
  obtain ⟨front', same', -, none'⟩ := delivers.split
  have only : ∀ ret v flags, (returned ret flags v : List (Event F)).filter Event.delivers =
      returned ret flags v := by
    intro ret v flags
    simp only [returned]
    split
    · split
      · split <;> rfl
      · split <;> rfl
    · rfl
  have only' : (kind.delivery ret v : List (Event F)).filter Event.delivers =
      kind.delivery ret v := by
    cases kind <;> rfl
  have filtered := congrArg (List.filter Event.delivers) (same.symm.trans same')
  rw [List.filter_append, List.filter_append, empty, none', only, only'] at filtered
  exact filtered

theorem retMask_absorbs (flags : Flags) :
    flags &&& retIsSinc = (flags &&& retMask) &&& retIsSinc ∧
    flags &&& retIsVoidSinc = (flags &&& retMask) &&& retIsVoidSinc ∧
    flags &&& retIsSyncvar = (flags &&& retMask) &&& retIsSyncvar := by
  refine ⟨?_, ?_, ?_⟩ <;>
  · rw [UInt16.and_assoc]
    rfl

theorem returned_masked (ret : UInt64) (flags : Flags) (v : UInt64) :
    (returned ret flags v : List (Event F)) = returned ret (flags &&& retMask) v := by
  obtain ⟨sinc, voidSinc, syncvar⟩ := retMask_absorbs flags
  simp only [returned]
  rw [sinc, voidSinc, syncvar]

end Events

theorem int60_eq (v : UInt64) : int60 v = UInt64.ofNat (v.toNat % 2 ^ 60) := by
  apply UInt64.toNat.inj
  have mask : (0xfffffffffffffff : UInt64).toNat = 2 ^ 60 - 1 := by decide
  have small : v.toNat % 2 ^ 60 < 2 ^ 64 := by omega
  rw [int60, UInt64.toNat_and, mask, Nat.and_two_pow_sub_one_eq_mod, UInt64.toNat_ofNat',
    Nat.mod_eq_of_lt small]

theorem spawn_flags {F : Type} (argcopySize : Nat) (memory : Memory) (currTeam : Option Team)
    (request : Request F) :
    let t := (qthreadSpawn argcopySize memory currTeam request).2
    t.flags &&& retMask = retFlags request.ret request.feature ∧ t.flags &&& aggregated = 0 := by
  have kinds : retFlags request.ret request.feature = 0 ∨
      retFlags request.ret request.feature = retIsSyncvar ∨
      retFlags request.ret request.feature = retIsSinc ∨
      retFlags request.ret request.feature = retIsVoidSinc := by
    rw [retFlags]
    split
    · exact .inl rfl
    · split
      · exact .inr (.inl rfl)
      · split
        · exact .inr (.inr (.inl rfl))
        · split
          · exact .inr (.inr (.inr rfl))
          · exact .inl rfl
  have every : ([0, bigStruct, hasArgcopy].all fun base => [0, teamLeader].all fun leader =>
      [0, unstealable].all fun pinned => [0, simple].all fun kept =>
      [0, retIsSyncvar, retIsSinc, retIsVoidSinc].all fun kind =>
      ((base ||| leader) ||| pinned ||| kept ||| kind) &&& retMask == kind &&
      ((base ||| leader) ||| pinned ||| kept ||| kind) &&& aggregated == 0) = true := by
    decide
  have bits : ∀ base ∈ [0, bigStruct, hasArgcopy], ∀ leader ∈ [0, teamLeader],
      ∀ pinned ∈ [0, unstealable], ∀ kept ∈ [0, simple],
      ∀ kind ∈ [0, retIsSyncvar, retIsSinc, retIsVoidSinc],
      ((base ||| leader) ||| pinned ||| kept ||| kind) &&& retMask = kind ∧
      ((base ||| leader) ||| pinned ||| kept ||| kind) &&& aggregated = 0 := by
    simpa only [List.all_eq_true, Bool.and_eq_true, beq_iff_eq] using every
  have thread (team : Option Team) (leader : Bool) : ∃ base ∈ [0, bigStruct, hasArgcopy],
      (qthreadThreadNew argcopySize memory request.f request.arg request.argSize request.ret team
        leader).2.flags = base ||| (if leader then teamLeader else 0) := by
    simp only [qthreadThreadNew]
    split
    · split
      · exact ⟨bigStruct, by simp, rfl⟩
      · exact ⟨hasArgcopy, by simp, rfl⟩
    · exact ⟨0, by simp, (UInt16.zero_or).symm⟩
  generalize split : spawnTeam request.ret request.feature currTeam = chosen
  obtain ⟨team, leader⟩ := chosen
  obtain ⟨base, member, flags⟩ := thread team leader
  simp only [qthreadSpawn, split, flags]
  have optional (choice : Prop) [Decidable choice] (bit : Flags) :
      (if choice then bit else 0) ∈ [0, bit] := by
    split <;> simp
  have kindMember : retFlags request.ret request.feature ∈
      [0, retIsSyncvar, retIsSinc, retIsVoidSinc] := by
    simpa using kinds
  exact bits base member _ (optional ..) _ (optional ..) _ (optional ..) _ kindMember

def ReturnKind.flags : ReturnKind → Flags
  | .none | .aligned => 0
  | .syncvar => retIsSyncvar
  | .sinc => retIsSinc
  | .voidSinc => retIsVoidSinc

variable {feature : Features} {kind : ReturnKind} {ret : UInt64}

theorem retFlags_asked (asked : Asked ret feature kind) : retFlags ret feature = kind.flags := by
  cases kind with
  | none => exact if_pos asked
  | aligned =>
    obtain ⟨given, kind⟩ := asked
    rw [retFlags, if_neg given, kind]
    rfl
  | syncvar =>
    obtain ⟨given, kind⟩ := asked
    rw [retFlags, if_neg given, kind]
    rfl
  | sinc =>
    obtain ⟨given, kind⟩ := asked
    rw [retFlags, if_neg given, kind]
    rfl
  | voidSinc =>
    obtain ⟨given, kind⟩ := asked
    rw [retFlags, if_neg given, kind]
    rfl

theorem Asked.null (asked : Asked ret feature kind) : ret = 0 ↔ kind = .none := by
  cases kind with
  | none => exact ⟨fun _ => rfl, fun _ => asked⟩
  | aligned => exact ⟨fun null => absurd null asked.1, nofun⟩
  | syncvar => exact ⟨fun null => absurd null asked.1, nofun⟩
  | sinc => exact ⟨fun null => absurd null asked.1, nofun⟩
  | voidSinc => exact ⟨fun null => absurd null asked.1, nofun⟩

theorem returned_given {F : Type} (given : ret ≠ 0) (v : UInt64) :
    (returned ret 0 v : List (Event F)) = ReturnKind.aligned.delivery ret v ∧
    (returned ret retIsSyncvar v : List (Event F)) = ReturnKind.syncvar.delivery ret v ∧
    (returned ret retIsSinc v : List (Event F)) = ReturnKind.voidSinc.delivery ret v ∧
    (returned ret retIsVoidSinc v : List (Event F)) = ReturnKind.voidSinc.delivery ret v := by
  have sinc : retIsSinc &&& retIsSinc ≠ 0 ∧ retIsSinc &&& retIsVoidSinc ≠ 0 := by decide
  have voidSinc : retIsVoidSinc &&& retIsSinc ≠ 0 ∧ retIsVoidSinc &&& retIsVoidSinc ≠ 0 := by
    decide
  have syncvar : retIsSyncvar &&& retIsSinc = 0 ∧ retIsSyncvar &&& retIsSyncvar ≠ 0 := by decide
  refine ⟨?_, ?_, ?_, ?_⟩
  · simp [returned, given, ReturnKind.delivery]
  · rw [returned, if_pos given, if_neg (not_not.mpr syncvar.1), if_pos syncvar.2, int60_eq]
    rfl
  · rw [returned, if_pos given, if_pos sinc.1, if_pos sinc.2]
    rfl
  · rw [returned, if_pos given, if_pos voidSinc.1, if_pos voidSinc.2]
    rfl

theorem returned_null {F : Type} (flags : Flags) (v : UInt64) :
    (returned 0 flags v : List (Event F)) = [] := by
  simp [returned]

theorem returned_kind {F : Type} (asked : Asked ret feature kind) (v : UInt64) :
    (returned ret kind.flags v : List (Event F)) = kind.delivery ret v ↔ kind ≠ .sinc := by
  cases kind with
  | none =>
    rw [show ret = 0 from asked, returned_null]
    exact ⟨fun _ => nofun, fun _ => rfl⟩
  | aligned => exact ⟨fun _ => nofun, fun _ => (returned_given asked.1 v).1⟩
  | syncvar => exact ⟨fun _ => nofun, fun _ => (returned_given asked.1 v).2.1⟩
  | sinc =>
    constructor
    · intro same
      have sent := (returned_given (F := F) asked.1 v).2.2.1
      rw [ReturnKind.flags, sent] at same
      cases same
    · intro differs
      exact absurd rfl differs
  | voidSinc => exact ⟨fun _ => nofun, fun _ => (returned_given asked.1 v).2.2.2⟩

theorem team_bits (feature : Features) :
    feature &&& spawnMaskTeams = 0 ∨ feature &&& spawnMaskTeams = spawnNewTeam ∨
    feature &&& spawnMaskTeams = spawnNewSubteam ∨
    feature &&& spawnMaskTeams = spawnMaskTeams := by
  have mask : spawnMaskTeams.toNat = 12 := by decide
  have small : (feature &&& spawnMaskTeams).toNat ≤ 12 := by
    rw [UInt32.toNat_and, mask]
    exact Nat.and_le_right
  have twice : (feature &&& spawnMaskTeams).toNat &&& 12 = (feature &&& spawnMaskTeams).toNat := by
    rw [UInt32.toNat_and, mask, Nat.and_assoc, Nat.and_self]
  have back : feature &&& spawnMaskTeams = UInt32.ofNat (feature &&& spawnMaskTeams).toNat :=
    (UInt32.ofNat_toNat).symm
  rw [back]
  generalize (feature &&& spawnMaskTeams).toNat = bits at small twice
  clear back
  revert bits
  decide

theorem team_absorbs (feature : Features) :
    feature &&& spawnNewTeam = (feature &&& spawnMaskTeams) &&& spawnNewTeam ∧
    feature &&& spawnNewSubteam = (feature &&& spawnMaskTeams) &&& spawnNewSubteam := by
  constructor
  · rw [UInt32.and_assoc]
    rfl
  · rw [UInt32.and_assoc]
    rfl

theorem assumeLeader_flags {F : Type} (self : Qthread F) (team : Team) :
    (assumeLeader self team).flags &&& retMask =
      (team.flags &&& teamRetMask).toUInt16 &&& retMask := by
  simp only [assumeLeader]
  generalize (team.flags &&& teamRetMask).toUInt16 = kept
  apply UInt16.toBitVec_inj.mp
  ext i inside
  simp only [UInt16.toBitVec_and, UInt16.toBitVec_or, UInt16.toBitVec_xor, BitVec.getElem_and,
    BitVec.getElem_or, BitVec.getElem_xor]
  cases retMask.toBitVec[i] <;> simp

theorem assumeLeader_plain {F : Type} {self : Qthread F} (plain : self.flags &&& aggregated = 0)
    (team : Team) : (assumeLeader self team).flags &&& aggregated = 0 := by
  have kept : (team.flags &&& teamRetMask).toUInt16 &&& aggregated = 0 := by
    rw [UInt8.toUInt16_and, UInt16.and_assoc]
    have zero : teamRetMask.toUInt16 &&& aggregated = 0 := by decide
    rw [zero, UInt16.and_zero]
  have bits {flags : Flags} (apart : flags &&& aggregated = 0) (i : Nat) (inside : i < 16) :
      (flags.toBitVec[i] && aggregated.toBitVec[i]) = false := by
    have nothing := congrArg (fun flags : UInt16 => flags.toBitVec[i]) apart
    simpa using nothing
  have leader : teamLeader &&& aggregated = 0 := by decide
  have mask : retMask &&& aggregated = 0 := by decide
  simp only [assumeLeader]
  apply UInt16.toBitVec_inj.mp
  ext i inside
  have first := bits plain i inside
  have second := bits leader i inside
  have third := bits mask i inside
  have fourth := bits kept i inside
  simp only [UInt16.toBitVec_and, UInt16.toBitVec_or, UInt16.toBitVec_xor, BitVec.getElem_and,
    BitVec.getElem_or, BitVec.getElem_xor]
  cases here : aggregated.toBitVec[i] with
  | false => simp
  | true =>
    rw [here, Bool.and_true] at first second third fourth
    rw [first, second, third, fourth]
    simp

theorem team_flags (ret : UInt64) (feature : Features) (currTeam : Option Team) :
    ((qtInternalTeamNew ret feature currTeam).flags &&& teamRetMask).toUInt16 &&& retMask =
      if feature &&& spawnMaskTeams = 0 then 0
      else if feature &&& spawnNewSubteam = 0 then retIsSyncvar
      else if feature &&& spawnNewTeam = 0 then retIsSinc else retIsVoidSinc := by
  have mask : retMask.toUInt32 = spawnMaskTeams := by decide
  obtain ⟨newTeam, newSubteam⟩ := team_absorbs feature
  simp only [qtInternalTeamNew]
  rw [mask, newTeam, newSubteam]
  rcases team_bits feature with bits | bits | bits | bits <;> rw [bits] <;> decide

theorem spawn_team {F : Type} (argcopySize : Nat) (memory : Memory) (currTeam : Option Team)
    (request : Request F) :
    (qthreadSpawn argcopySize memory currTeam request).2.team =
      (spawnTeam request.ret request.feature currTeam).1 := by
  simp only [qthreadSpawn, qthreadThreadNew]
  split
  · split <;> rfl
  · rfl

theorem spawnTeam_new (ret : UInt64) (currTeam : Option Team)
    (starts : feature &&& spawnMaskTeams ≠ 0) : ∃ parent,
    (spawnTeam ret feature currTeam).1 = some (qtInternalTeamNew ret feature parent) := by
  rw [spawnTeam, if_neg starts]
  split
  · exact ⟨none, rfl⟩
  · exact ⟨currTeam, rfl⟩

def Remembers (feature : Features) (kind : ReturnKind) : Prop :=
  kind = .none ∨ (kind = .voidSinc ∧ feature &&& spawnNewSubteam ≠ 0) ∨
    (kind = .syncvar ∧ feature &&& spawnNewSubteam = 0)

theorem remembered_iff {F : Type}
    (asked : Asked ret feature kind) (starts : feature &&& spawnMaskTeams ≠ 0)
    (parent : Option Team) (v : UInt64) :
    (returned ret (((qtInternalTeamNew ret feature parent).flags &&& teamRetMask).toUInt16 &&&
      retMask) v : List (Event F)) = kind.delivery ret v ↔ Remembers feature kind := by
  rw [team_flags, if_neg starts]
  by_cases null : kind = .none
  · subst null
    rw [show ret = 0 from asked, returned_null]
    exact ⟨fun _ => .inl rfl, fun _ => rfl⟩
  · have given : ret ≠ 0 := fun zero => null (asked.null.mp zero)
    obtain ⟨-, syncvar, sinc, voidSinc⟩ := returned_given (F := F) given v
    by_cases alone : feature &&& spawnNewSubteam = 0
    · rw [if_pos alone, syncvar]
      constructor
      · intro same
        refine .inr (.inr ⟨?_, alone⟩)
        cases kind with
        | syncvar => rfl
        | none => cases same
        | aligned => cases same
        | sinc => cases same
        | voidSinc => cases same
      · rintro (nothing | ⟨-, subteam⟩ | ⟨same, -⟩)
        · exact absurd nothing null
        · exact absurd alone subteam
        · rw [same]
    · have both : (returned ret (if feature &&& spawnNewTeam = 0 then retIsSinc
          else retIsVoidSinc) v : List (Event F)) = ReturnKind.voidSinc.delivery ret v := by
        split
        · exact sinc
        · exact voidSinc
      rw [if_neg alone, both]
      constructor
      · intro same
        refine .inr (.inl ⟨?_, alone⟩)
        cases kind with
        | voidSinc => rfl
        | none => cases same
        | aligned => cases same
        | sinc => cases same
        | syncvar => cases same
      · rintro (nothing | ⟨same, -⟩ | ⟨-, noSubteam⟩)
        · exact absurd nothing null
        · rw [same]
        · exact absurd noSubteam alone

theorem read_memcpy (memory later : Memory) (dest : Nat) (src : UInt64) (size : Nat)
    (kept : later.blocks dest = (memory.memcpy dest src size).blocks dest) :
    later.read size (.own dest) = memory.read size (.user src) := by
  simp only [Memory.read]
  apply List.map_congr_left
  intro i inside
  have copied := congrFun (Function.update_self dest (fun i =>
    if i < size then memory.user (src + UInt64.ofNat i) else memory.blocks dest i) memory.blocks) i
  rw [if_pos (List.mem_range.mp inside)] at copied
  exact (congrFun kept i).trans copied

theorem spawn_argument {F : Type} (argcopySize : Nat) (memory : Memory) (currTeam : Option Team)
    (request : Request F) :
    let spawned := qthreadSpawn argcopySize memory currTeam request
    (request.argSize = 0 → spawned.2.arg = .user request.arg) ∧
    (request.argSize ≠ 0 → ∃ block, spawned.2.arg = .own block ∧
      memory.next ≤ block ∧ block < spawned.1.next ∧
      spawned.1.blocks block =
        (memory.memcpy block request.arg request.argSize).blocks block) := by
  simp only [qthreadSpawn, qthreadThreadNew]
  by_cases positive : 0 < request.argSize
  · rw [if_pos positive]
    refine ⟨fun zero => absurd zero (Nat.ne_of_gt positive), fun _ => ?_⟩
    split
    · exact ⟨memory.next, rfl, Nat.le_refl _, Nat.lt_succ_self _, rfl⟩
    · exact ⟨memory.next + 1, rfl, Nat.le_succ _, Nat.lt_succ_self _, rfl⟩
  · rw [if_neg positive]
    exact ⟨fun _ => rfl, fun given => absurd (Nat.pos_of_ne_zero given) positive⟩

theorem spawn_fields {F : Type} (argcopySize : Nat) (memory : Memory) (currTeam : Option Team)
    (request : Request F) :
    let t := (qthreadSpawn argcopySize memory currTeam request).2
    t.f = request.f ∧ t.ret = request.ret := by
  simp only [qthreadSpawn, qthreadThreadNew]
  split
  · split <;> exact ⟨rfl, rfl⟩
  · exact ⟨rfl, rfl⟩

/-- A spawned task gets its argument and delivers its result as asked exactly when the result
is not to be submitted to a sinc and, if the task starts a team, the bits that start it happen
to be those of the return kind. -/
theorem spawnExact_iff {F : Type} (argcopySize : Nat) (memory : Memory) (currTeam : Option Team)
    (request : Request F) (kind : ReturnKind) (v : UInt64)
    (asked : Asked request.ret request.feature kind) :
    let spawned := qthreadSpawn argcopySize memory currTeam request
    SpawnExact request kind v memory spawned.1 spawned.2 ↔
      kind ≠ .sinc ∧ (request.feature &&& spawnMaskTeams ≠ 0 → Remembers request.feature kind) := by
  intro spawned
  obtain ⟨masked, plain⟩ := spawn_flags argcopySize memory currTeam request
  obtain ⟨function, location⟩ := spawn_fields argcopySize memory currTeam request
  obtain ⟨pointer, copied⟩ := spawn_argument argcopySize memory currTeam request
  have team := spawn_team argcopySize memory currTeam request
  have decoded : (returned spawned.2.ret spawned.2.flags v : List (Event F)) =
      kind.delivery request.ret v ↔ kind ≠ .sinc := by
    rw [returned_masked, masked, location, retFlags_asked asked]
    exact returned_kind asked v
  have restored (parent : Option Team) (self : Qthread F) :
      (returned (assumeLeader self (qtInternalTeamNew request.ret request.feature parent)).ret
        (assumeLeader self (qtInternalTeamNew request.ret request.feature parent)).flags v :
          List (Event F)) = kind.delivery request.ret v ↔
      (returned request.ret (((qtInternalTeamNew request.ret request.feature parent).flags &&&
        teamRetMask).toUInt16 &&& retMask) v : List (Event F)) = kind.delivery request.ret v := by
    rw [returned_masked, assumeLeader_flags]
    exact Iff.rfl
  constructor
  · intro spawnExact
    refine ⟨decoded.mp (spawnExact.delivered.unique plain), fun starts => ?_⟩
    obtain ⟨found, there, decodes⟩ := spawnExact.team starts
    obtain ⟨parent, new⟩ := spawnTeam_new request.ret currTeam starts
    rw [team, new, Option.some.injEq] at there
    subst there
    have same := (decodes { spawned.2 with flags := 0 } UInt16.zero_and).unique
      (assumeLeader_plain UInt16.zero_and _)
    exact (remembered_iff asked starts parent v).mp ((restored parent _).mp same)
  · rintro ⟨value, remembers⟩
    have same := decoded.mpr value
    constructor
    · exact pointer
    · intro given
      obtain ⟨block, own, fresh, below, bytes⟩ := copied given
      refine ⟨block, own, fresh, below, fun later kept => ?_⟩
      rw [own]
      exact read_memcpy memory later block request.arg request.argSize (kept.trans bytes)
    · rw [← function]
      exact qthreadWrapper_delivers plain v _ same
    · rw [qthreadCallMethod_eq, same, function]
    · intro starts
      obtain ⟨parent, new⟩ := spawnTeam_new request.ret currTeam starts
      refine ⟨_, team.trans new, fun self selfPlain => ?_⟩
      refine qthreadWrapper_delivers (assumeLeader_plain selfPlain _) v _ ?_
      exact (restored parent self).mpr ((remembered_iff asked starts parent v).mpr
        (remembers starts))

def copyArgs : Request Unit where
  f := ()
  arg := 0x1000
  argSize := 8
  ret := 0
  preconds := []
  targetShep := none
  feature := 0

def someMemory : Memory := { user := fun addr => addr.toUInt8, blocks := fun _ _ => 0, next := 0 }

def startsTeam : Request Unit :=
  { copyArgs with ret := 0x2000, feature := spawnNewTeam ||| spawnRetSyncvarT }

theorem spawnExact_starts_team :
    let spawned := qthreadSpawn 1024 someMemory none startsTeam
    SpawnExact startsTeam .syncvar 7 someMemory spawned.1 spawned.2 :=
  (spawnExact_iff 1024 someMemory none startsTeam .syncvar 7 ⟨by decide, by decide⟩).mpr
    ⟨by decide, fun _ => .inr (.inr ⟨rfl, by decide⟩)⟩

/-- The result of a task that returns to a sinc is thrown away. -/
theorem sinc_gets_no_value :
    let request : Request Unit := { copyArgs with ret := 0x2000, feature := spawnRetSinc }
    let spawned := qthreadSpawn 1024 someMemory none request
    Asked request.ret request.feature .sinc ∧
      ¬ SpawnExact request .sinc 7 someMemory spawned.1 spawned.2 := by
  intro request spawned
  refine ⟨⟨by decide, by decide⟩, fun spawnExact => ?_⟩
  have method := spawnExact.method
  revert method
  decide

end Qthreads.Spawn
