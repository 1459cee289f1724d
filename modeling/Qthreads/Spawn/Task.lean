import Mathlib.Data.List.Basic

namespace Qthreads.Spawn

/-! `qthread_spawn` turns its feature flags into task flags and, for a task that starts a team,
into team flags; `qthread_wrapper` decides from the task flags how the result is delivered,
and `qt_team_eureka` gives a member of a team the return kind that the team remembers. -/

/-- `feature_flag` of `qthread_spawn`. -/
abbrev Features := UInt32

def spawnSimple : UInt32 := (1 : UInt32) <<< 1
def spawnNewTeam : UInt32 := (1 : UInt32) <<< 2
def spawnNewSubteam : UInt32 := (1 : UInt32) <<< 3
def spawnRetSyncvarT : UInt32 := (1 : UInt32) <<< 4
def spawnRetSinc : UInt32 := (1 : UInt32) <<< 5
def spawnRetSincVoid : UInt32 := (1 : UInt32) <<< 6

def spawnMaskTeams : Features := spawnNewTeam ||| spawnNewSubteam

/-- `ret_type` in `qthread_spawn`. -/
def retType (feature : Features) : Features :=
  feature &&& (spawnRetSyncvarT ||| spawnRetSinc ||| spawnRetSincVoid)

/-- `flags` of a `qthread_t`. -/
abbrev Flags := UInt16

def retIsSyncvar : UInt16 := (1 : UInt16) <<< 2
def retIsSinc : UInt16 := (1 : UInt16) <<< 3
def retIsVoidSinc : UInt16 := ((1 : UInt16) <<< 3) ||| ((1 : UInt16) <<< 2)
def unstealable : UInt16 := (1 : UInt16) <<< 4
def simple : UInt16 := (1 : UInt16) <<< 5
def hasArgcopy : UInt16 := (1 : UInt16) <<< 6
def teamLeader : UInt16 := (1 : UInt16) <<< 7
def bigStruct : UInt16 := (1 : UInt16) <<< 9
def aggregated : UInt16 := (1 : UInt16) <<< 11

def retMask : Flags := retIsSyncvar ||| retIsSinc

def teamRetMask : UInt8 := ((1 : UInt8) <<< 2) ||| ((1 : UInt8) <<< 3)

/-- Memory of the user, by address, or a block that the library has allocated. -/
inductive Pointer where
  | user (addr : UInt64)
  | own (block : Nat)
deriving DecidableEq

structure Memory where
  user : UInt64 → UInt8
  blocks : Nat → Nat → UInt8
  next : Nat

/-- The first `size` bytes at a pointer. -/
def Memory.read (memory : Memory) (size : Nat) : Pointer → List UInt8
  | .user addr => (List.range size).map fun i => memory.user (addr + UInt64.ofNat i)
  | .own block => (List.range size).map (memory.blocks block)

/-- `memcpy` from the user's memory to a block. -/
def Memory.memcpy (memory : Memory) (dest : Nat) (src : UInt64) (size : Nat) : Memory :=
  { memory with
    blocks := Function.update memory.blocks dest fun i =>
      if i < size then memory.user (src + UInt64.ofNat i) else memory.blocks dest i }

/-- The fields of a `qt_team_t` that decide about its members' return values. -/
structure Team where
  parentEureka : Bool
  returnLoc : UInt64
  flags : UInt8

/-- A `qthread_t`; `self` is the block it lives in and `nascent` its first state. -/
structure Qthread (F : Type) where
  self : Nat
  f : F
  arg : Pointer
  ret : UInt64
  team : Option Team
  preconds : List UInt64
  targetShepherd : Option UInt16
  flags : Flags
  nascent : Bool

/-- `qthread_thread_new`: a small argument block is kept in the task's own structure, a
larger one in a block of its own. -/
def qthreadThreadNew {F : Type} (argcopySize : Nat) (memory : Memory) (f : F) (arg : UInt64)
    (argSize : Nat) (ret : UInt64) (team : Option Team) (leader : Bool) : Memory × Qthread F :=
  let self := memory.next
  let flags : Flags := if leader then teamLeader else 0
  if 0 < argSize then
    if argSize ≤ argcopySize then
      ({ memory.memcpy self arg argSize with next := self + 1 },
        { self, f, arg := .own self, ret, team, preconds := [], targetShepherd := none,
          flags := bigStruct ||| flags, nascent := false })
    else
      ({ memory.memcpy (self + 1) arg argSize with next := self + 2 },
        { self, f, arg := .own (self + 1), ret, team, preconds := [], targetShepherd := none,
          flags := hasArgcopy ||| flags, nascent := false })
  else
    ({ memory with next := self + 1 },
      { self, f, arg := .user arg, ret, team, preconds := [], targetShepherd := none,
        flags, nascent := false })

def qtInternalTeamNew (ret : UInt64) (feature : Features) (currTeam : Option Team) : Team where
  parentEureka := currTeam.isSome
  returnLoc := ret
  flags := (feature &&& retMask.toUInt32).toUInt8

def spawnTeam (ret : UInt64) (feature : Features) (currTeam : Option Team) : Option Team × Bool :=
  if feature &&& spawnMaskTeams = 0 then (currTeam, false)
  else if feature &&& spawnNewTeam ≠ 0 then (some (qtInternalTeamNew ret feature none), true)
  else (some (qtInternalTeamNew ret feature currTeam), true)

def retFlags (ret : UInt64) (feature : Features) : Flags :=
  if ret = 0 then 0
  else if retType feature = spawnRetSyncvarT then retIsSyncvar
  else if retType feature = spawnRetSinc then retIsSinc
  else if retType feature = spawnRetSincVoid then retIsVoidSinc
  else 0

structure Request (F : Type) where
  f : F
  arg : UInt64
  argSize : Nat
  ret : UInt64
  preconds : List UInt64
  targetShep : Option UInt16
  feature : Features

/-- `qthread_spawn`, up to the point where the task is enqueued or waits for its
preconditions; the return location has been emptied. -/
def qthreadSpawn {F : Type} (argcopySize : Nat) (memory : Memory) (currTeam : Option Team)
    (request : Request F) : Memory × Qthread F :=
  let (team, leader) := spawnTeam request.ret request.feature currTeam
  let (memory, t) := qthreadThreadNew argcopySize memory request.f request.arg request.argSize
    request.ret team leader
  let pinned : Flags := if request.targetShep.isSome then unstealable else 0
  let kept : Flags := if request.feature &&& spawnSimple ≠ 0 then simple else 0
  (memory,
    { t with
      targetShepherd := request.targetShep
      preconds := request.preconds
      nascent := !request.preconds.isEmpty
      flags := t.flags ||| pinned ||| kept ||| retFlags request.ret request.feature })

inductive Event (F : Type) where
  | subteamLeader
  | call (f : F) (arg : Pointer)
  | aggregate (f : F) (arg : Pointer)
  | teamfinish
  | writeEF (ret value : UInt64)
  | syncvarWriteEF (ret value : UInt64)
  | sincSubmit (ret : UInt64) (value : Option UInt64)
deriving DecidableEq

def int60 (value : UInt64) : UInt64 := value &&& 0xfffffffffffffff

section Run

variable {F : Type}

def teamEntry (t : Qthread F) : List (Event F) :=
  match t.team with
  | none => []
  | some team => if t.flags &&& teamLeader ≠ 0 ∧ team.parentEureka then [.subteamLeader] else []

def teamExit (t : Qthread F) : List (Event F) :=
  match t.team with
  | none => []
  | some _ => [.teamfinish]

/-- `qthread_wrapper`, when the call of `f` gives `v`. -/
def qthreadWrapper (t : Qthread F) (v : UInt64) : List (Event F) :=
  if t.flags &&& aggregated ≠ 0 then teamEntry t ++ .aggregate t.f t.arg :: teamExit t
  else if t.ret ≠ 0 then
    if t.flags &&& retIsSinc ≠ 0 then
      if t.flags &&& retIsVoidSinc ≠ 0 then
        teamEntry t ++ .call t.f t.arg :: teamExit t ++ [.sincSubmit t.ret none]
      else teamEntry t ++ .call t.f t.arg :: teamExit t ++ [.sincSubmit t.ret (some v)]
    else if t.flags &&& retIsSyncvar ≠ 0 then
      teamEntry t ++ .call t.f t.arg :: teamExit t ++ [.syncvarWriteEF t.ret (int60 v)]
    else teamEntry t ++ .call t.f t.arg :: teamExit t ++ [.writeEF t.ret v]
  else teamEntry t ++ .call t.f t.arg :: teamExit t

def qthreadCallMethod (f : F) (arg : Pointer) (ret : UInt64) (flags : Flags) (v : UInt64) :
    List (Event F) :=
  if ret ≠ 0 then
    if flags &&& retIsSinc ≠ 0 then
      if flags &&& retIsVoidSinc ≠ 0 then [.call f arg, .sincSubmit ret none]
      else [.call f arg, .sincSubmit ret (some v)]
    else if flags &&& retIsSyncvar ≠ 0 then [.call f arg, .syncvarWriteEF ret (int60 v)]
    else [.call f arg, .writeEF ret v]
  else [.call f arg]

/-- The last part of `qt_team_eureka`: the task becomes the team's leader and takes over
the team's return location and kind. -/
def assumeLeader (self : Qthread F) (team : Team) : Qthread F :=
  { self with
    team := some team
    ret := team.returnLoc
    flags := (((self.flags ||| teamLeader ||| retMask) ^^^ retMask) |||
      (team.flags &&& teamRetMask).toUInt16) }

end Run

end Qthreads.Spawn
