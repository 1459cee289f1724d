import Qthreads.Lib.Bytes
import Qthreads.Lib.Run

namespace Qthreads.Spawn

open Lib Lib.Bytes
open Function (update update_of_ne)

/-! The bytes behind the record of a task hold the copy of a small argument and the storage, which is
replaced by a pointer to a heap block when more is asked for. -/

/-- `ARGCOPY_SIZE` and `TASKLOCAL_SIZE` -/
structure Setup where
  argcopySize : Nat
  tasklocalSize : Nat
  holdsPointer : 8 ≤ tasklocalSize

structure Region where
  address : Nat
  size : Nat
deriving DecidableEq

def Region.Apart (a b : Region) : Prop :=
  a.address + a.size ≤ b.address ∨ b.address + b.size ≤ a.address

instance (a b : Region) : Decidable (a.Apart b) := inferInstanceAs (Decidable (_ ∨ _))

structure TaskRecord where
  /-- `QTHREAD_BIG_STRUCT` -/
  bigStruct : Bool
  /-- `QTHREAD_HAS_ARGCOPY` -/
  hasArgcopy : Bool
  arg : Nat
  /-- the address of `data` -/
  data : Nat
  /-- `rdata->tasklocal_size`, once there is runtime data -/
  tasklocalSize : Option Nat
  mem : Nat → UInt8
  /-- the heap blocks that were allocated for the task and not freed -/
  blocks : List Region

/-- `memcpy`, or the copy that `realloc` makes -/
def memcpy (mem : Nat → UInt8) (dest src size : Nat) : Nat → UInt8 := fun byte =>
  if dest ≤ byte ∧ byte < dest + size then mem (src + (byte - dest)) else mem byte

namespace TaskRecord

variable (setup : Setup) (t : TaskRecord)

/-- `qthread_thread_new`, for a record whose data is at `data` and, for a large argument, a block at
`block`. -/
def threadNew (arg argSize data block : Nat) (mem : Nat → UInt8) : TaskRecord :=
  if argSize > 0 then
    if argSize ≤ setup.argcopySize then
      ⟨true, false, data, data, none, memcpy mem data arg argSize, []⟩
    else ⟨false, true, block, data, none, memcpy mem block arg argSize, [⟨block, argSize⟩]⟩
  else ⟨false, false, arg, data, none, mem, []⟩

/-- The bytes behind the record, as `ALLOC_BIG_QTHREAD` and `ALLOC_QTHREAD` have them. -/
def record : Region :=
  ⟨t.data, if t.bigStruct then setup.argcopySize + setup.tasklocalSize
    else 8 + setup.tasklocalSize⟩

def dataBlob : Nat := if t.bigStruct then t.data + setup.argcopySize else t.data

/-- `qthread_get_tasklocal`; `fresh` is what `malloc` or `realloc` returns, and there is no result
without runtime data. -/
def getTasklocal (fresh size : Nat) : Option (Nat × TaskRecord) :=
  t.tasklocalSize.map fun tlSz =>
    let blob := t.dataBlob setup
    if tlSz = 0 ∧ size ≤ setup.tasklocalSize then (blob, t)
    else if tlSz = 0 then
      let mem := storeWord (memcpy t.mem fresh blob setup.tasklocalSize) blob fresh
      (loadWord mem blob,
        { t with mem, tasklocalSize := some size, blocks := ⟨fresh, size⟩ :: t.blocks })
    else if size ≤ tlSz then (loadWord t.mem blob, t)
    else
      let old := loadWord t.mem blob
      let mem := storeWord (memcpy t.mem fresh old tlSz) blob fresh
      (loadWord mem blob,
        { t with
          mem
          tasklocalSize := some size
          blocks := ⟨fresh, size⟩ :: t.blocks.erase ⟨old, tlSz⟩ })

def sizeTasklocal : Option Nat :=
  t.tasklocalSize.map fun tlSz => if tlSz ≠ 0 then tlSz else setup.tasklocalSize

/-- The heap blocks that `qthread_thread_free` frees. -/
def threadFree : List Nat :=
  (match t.tasklocalSize with
    | some tlSz => if tlSz > 0 then [loadWord t.mem (t.dataBlob setup)] else []
    | none => []) ++
  if t.hasArgcopy then [t.arg] else []

/-- `tls` in `qt_feb_tf_call_cb`; `NULL` is dereferenced where there is no runtime data. -/
def callbackStorage : Option Nat :=
  t.tasklocalSize.map fun tlSz =>
    if tlSz ≤ setup.tasklocalSize then t.dataBlob setup else loadWord t.mem (t.dataBlob setup)

def storage : Nat :=
  if t.tasklocalSize.getD 0 = 0 then t.dataBlob setup else loadWord t.mem (t.dataBlob setup)

def granted : Nat :=
  if t.tasklocalSize.getD 0 = 0 then setup.tasklocalSize else t.tasklocalSize.getD 0

/-- What `malloc` and `realloc` promise: a block apart from all others, but that a block may grow
where it is. -/
structure Grants (fresh size : Nat) : Prop where
  nonNull : 0 < fresh
  fits : fresh + size ≤ 2 ^ 64
  record : Region.Apart ⟨fresh, size⟩ (t.record setup)
  blocks : ∀ block ∈ t.blocks, Region.Apart ⟨fresh, size⟩ block ∨
    (t.tasklocalSize.getD 0 ≠ 0 ∧ block.address = loadWord t.mem (t.dataBlob setup) ∧
      fresh = block.address)

end TaskRecord

inductive LocalLabel where
  | start
  | get (size ret : Nat)
  | write (i : Nat) (byte : UInt8)

inductive LocalStep (setup : Setup) : TaskRecord → LocalLabel → TaskRecord → Prop where
  | start {t : TaskRecord} : t.tasklocalSize = none →
      LocalStep setup t .start { t with tasklocalSize := some 0 }
  | get {t after : TaskRecord} {fresh size ret : Nat} : t.Grants setup fresh size →
      t.getTasklocal setup fresh size = some (ret, after) → LocalStep setup t (.get size ret) after
  | write {t : TaskRecord} {i size : Nat} {byte : UInt8} : t.sizeTasklocal setup = some size →
      i < size → LocalStep setup t (.write i byte)
        { t with mem := update t.mem (t.storage setup + i) byte }

structure Spawned (setup : Setup) where
  arg : Nat
  argSize : Nat
  data : Nat
  block : Nat
  mem : Nat → UInt8
  room : data + setup.argcopySize + setup.tasklocalSize + 8 ≤ 2 ^ 64
  apart : Region.Apart ⟨block, argSize⟩ ⟨data, 8 + setup.tasklocalSize⟩

def Spawned.task {setup : Setup} (spawned : Spawned setup) : TaskRecord :=
  .threadNew setup spawned.arg spawned.argSize spawned.data spawned.block spawned.mem

namespace TaskRecord

variable {setup : Setup} {t after : TaskRecord} {argSize fresh size ret : Nat}

def argBlocks (t : TaskRecord) (argSize : Nat) : List Region :=
  if t.hasArgcopy then [⟨t.arg, argSize⟩] else []

def Located (setup : Setup) (t : TaskRecord) (argSize : Nat) : Prop :=
  if t.tasklocalSize.getD 0 = 0 then t.blocks = t.argBlocks argSize
  else setup.tasklocalSize < t.tasklocalSize.getD 0 ∧
    t.blocks = ⟨t.storage setup, t.tasklocalSize.getD 0⟩ :: t.argBlocks argSize ∧
    Region.Apart ⟨t.storage setup, t.tasklocalSize.getD 0⟩ (t.record setup) ∧
    ∀ block ∈ t.argBlocks argSize,
      Region.Apart ⟨t.storage setup, t.tasklocalSize.getD 0⟩ block

structure Inv (setup : Setup) (argSize : Nat) (t : TaskRecord) : Prop where
  located : Located setup t argSize
  room : t.data + (t.record setup).size ≤ 2 ^ 64
  small : t.bigStruct = true → t.hasArgcopy = false ∧ t.arg = t.data ∧ argSize ≤ setup.argcopySize
  large : t.hasArgcopy = true → 0 < argSize ∧ Region.Apart ⟨t.arg, argSize⟩ (t.record setup)
  bare : t.bigStruct = false → t.hasArgcopy = false → argSize = 0

theorem blob_inside (setup : Setup) (t : TaskRecord) :
    t.data ≤ t.dataBlob setup ∧
      t.dataBlob setup + setup.tasklocalSize ≤ t.data + (t.record setup).size := by
  rw [dataBlob, record]
  cases t.bigStruct with
  | false => exact ⟨Nat.le_refl _, by simp only [Bool.false_eq_true, if_false]; omega⟩
  | true => exact ⟨by simp only [if_true]; omega, by simp only [if_true]; omega⟩

theorem inv_task (spawned : Spawned setup) : Inv setup spawned.argSize spawned.task := by
  have room := spawned.room
  rw [Spawned.task, threadNew]
  by_cases positive : spawned.argSize > 0
  · rw [if_pos positive]
    by_cases fits : spawned.argSize ≤ setup.argcopySize
    · rw [if_pos fits]
      refine ⟨rfl, ?_, fun _ => ⟨rfl, rfl, fits⟩, nofun, nofun⟩
      simp only [record, if_true]
      omega
    · rw [if_neg fits]
      refine ⟨rfl, ?_, nofun, fun _ => ⟨positive, spawned.apart⟩, nofun⟩
      simp only [record, Bool.false_eq_true, if_false]
      omega
  · rw [if_neg positive]
    refine ⟨rfl, ?_, nofun, nofun, fun _ _ => by omega⟩
    simp only [record, Bool.false_eq_true, if_false]
    omega

structure Moved (setup : Setup) (t : TaskRecord) (argSize fresh size : Nat) (after : TaskRecord) :
    Prop where
  same : after.bigStruct = t.bigStruct ∧ after.hasArgcopy = t.hasArgcopy ∧ after.arg = t.arg ∧
    after.data = t.data
  sized : after.tasklocalSize = some size
  there : loadWord after.mem (t.dataBlob setup) = fresh
  blocks : after.blocks = ⟨fresh, size⟩ :: t.argBlocks argSize
  kept : ∀ i < t.granted setup, after.mem (fresh + i) = t.mem (t.storage setup + i)

theorem copied {mem : Nat → UInt8} {blob src count : Nat} {record : Region}
    (apart : Region.Apart ⟨fresh, size⟩ record) (lower : record.address ≤ blob)
    (upper : blob + 8 ≤ record.address + record.size) (within : count ≤ size) {i : Nat}
    (below : i < count) :
    storeWord (memcpy mem fresh src count) blob fresh (fresh + i) = mem (src + i) := by
  have away : ¬ (blob ≤ fresh + i ∧ fresh + i < blob + 8) := by
    rcases apart with front | behind
    · have front' : fresh + size ≤ record.address := front
      omega
    · have behind' : record.address + record.size ≤ fresh := behind
      omega
  rw [storeWord, if_neg away, memcpy, if_pos (by omega), Nat.add_sub_cancel_left]

theorem getTasklocal_cases (inv : Inv setup argSize t) (grants : t.Grants setup fresh size)
    (done : t.getTasklocal setup fresh size = some (ret, after)) :
    (size ≤ t.granted setup ∧ ret = t.storage setup ∧ after = t) ∨
      (t.granted setup < size ∧ ret = fresh ∧ Moved setup t argSize fresh size after) := by
  obtain ⟨tlSz, found, result⟩ := Option.map_eq_some_iff.mp done
  obtain ⟨lower, upper⟩ := blob_inside setup t
  have holds := setup.holdsPointer
  have located := inv.located
  have fits := grants.fits
  rw [Located, found, Option.getD_some] at located
  have place : t.storage setup =
      if tlSz = 0 then t.dataBlob setup else loadWord t.mem (t.dataBlob setup) := by
    rw [storage, found, Option.getD_some]
  have room : t.granted setup = if tlSz = 0 then setup.tasklocalSize else tlSz := by
    rw [granted, found, Option.getD_some]
  simp only at result
  by_cases default : tlSz = 0
  · rw [if_pos default] at located place room
    by_cases enough : size ≤ setup.tasklocalSize
    · rw [if_pos ⟨default, enough⟩] at result
      cases result
      exact .inl ⟨by omega, place.symm, rfl⟩
    · rw [if_neg (fun both => enough both.2), if_pos default,
        loadWord_storeWord (by omega)] at result
      cases result
      refine .inr ⟨by omega, rfl, ⟨rfl, rfl, rfl, rfl⟩, rfl, loadWord_storeWord (by omega), ?_, ?_⟩
      · rw [located]
      · intro i below
        rw [room] at below
        rw [place]
        exact copied grants.record lower (by simp only [record] at upper ⊢; omega) (by omega) below
  · rw [if_neg default] at located place room
    rw [if_neg (fun both => default both.1), if_neg default] at result
    by_cases enough : size ≤ tlSz
    · rw [if_pos enough] at result
      cases result
      exact .inl ⟨by omega, place.symm, rfl⟩
    · rw [if_neg enough, loadWord_storeWord (by omega)] at result
      cases result
      refine .inr ⟨by omega, rfl, ⟨rfl, rfl, rfl, rfl⟩, rfl, loadWord_storeWord (by omega), ?_, ?_⟩
      · rw [located.2.1, ← place, List.erase_cons_head]
      · intro i below
        rw [room] at below
        rw [place]
        exact copied grants.record lower (by simp only [record] at upper ⊢; omega) (by omega) below

theorem granted_large (inv : Inv setup argSize t) : setup.tasklocalSize ≤ t.granted setup := by
  have located := inv.located
  rw [Located] at located
  rw [granted]
  split at located
  · rename_i default
    exact Nat.le_of_eq (if_pos default).symm
  · rename_i moved
    rw [if_neg moved]
    exact Nat.le_of_lt located.1

theorem grants_apart (inv : Inv setup argSize t) (grants : t.Grants setup fresh size)
    {block : Region} (member : block ∈ t.argBlocks argSize) :
    Region.Apart ⟨fresh, size⟩ block := by
  have located := inv.located
  rw [Located] at located
  by_cases default : t.tasklocalSize.getD 0 = 0
  · rw [if_pos default] at located
    rcases grants.blocks block (located ▸ member) with apart | ⟨moved, -⟩
    · exact apart
    · exact absurd default moved
  · rw [if_neg default] at located
    obtain ⟨wide, blocks, -, others⟩ := located
    rcases grants.blocks block (blocks ▸ List.mem_cons_of_mem _ member) with apart | ⟨-, same, -⟩
    · exact apart
    · have sized : 0 < block.size := by
        rw [argBlocks] at member
        split at member
        · rename_i copy
          rw [List.mem_singleton.mp member]
          exact (inv.large copy).1
        · cases member
      have place : t.storage setup = block.address := by
        rw [storage, if_neg default, same]
      rcases others block member with front | behind
      · have front' : t.storage setup + t.tasklocalSize.getD 0 ≤ block.address := front
        omega
      · have behind' : block.address + block.size ≤ t.storage setup := behind
        omega

theorem Moved.inv (moved : Moved setup t argSize fresh size after) (inv : Inv setup argSize t)
    (grants : t.Grants setup fresh size) (more : t.granted setup < size) :
    Inv setup argSize after ∧ after.storage setup = fresh ∧ after.granted setup = size := by
  obtain ⟨big, copy, arg, data⟩ := moved.same
  have wide := granted_large inv
  have nonzero : ¬ size = 0 := by omega
  have blob : after.dataBlob setup = t.dataBlob setup := by rw [dataBlob, dataBlob, big, data]
  have record : after.record setup = t.record setup := by
    rw [TaskRecord.record, TaskRecord.record, big, data]
  have blocks : after.argBlocks argSize = t.argBlocks argSize := by
    rw [argBlocks, argBlocks, copy, arg]
  have place : after.storage setup = fresh := by
    rw [storage, moved.sized, Option.getD_some, if_neg nonzero, blob, moved.there]
  refine ⟨⟨?_, ?_, ?_, ?_, ?_⟩, place, ?_⟩
  · rw [Located, moved.sized, Option.getD_some, if_neg nonzero, place, blocks, record]
    exact ⟨by omega, moved.blocks, grants.record, fun block member => grants_apart inv grants member⟩
  · rw [record, data]
    exact inv.room
  · rw [big, copy, arg, data]
    exact inv.small
  · rw [copy, arg, record]
    exact inv.large
  · rw [big, copy]
    exact inv.bare
  · rw [granted, moved.sized, Option.getD_some, if_neg nonzero]

theorem inv_write (inv : Inv setup argSize t) {i : Nat} (below : i < t.granted setup) (byte : UInt8) :
    Inv setup argSize { t with mem := update t.mem (t.storage setup + i) byte } := by
  refine ⟨?_, inv.room, inv.small, inv.large, inv.bare⟩
  have located := inv.located
  obtain ⟨lower, upper⟩ := blob_inside setup t
  have holds := setup.holdsPointer
  rw [Located] at located ⊢
  by_cases default : t.tasklocalSize.getD 0 = 0
  · rw [if_pos default] at located ⊢
    exact located
  · have place : TaskRecord.storage setup
        { t with mem := update t.mem (t.storage setup + i) byte } = t.storage setup := by
      have word : loadWord (update t.mem (t.storage setup + i) byte) (t.dataBlob setup) =
          loadWord t.mem (t.dataBlob setup) := by
        refine loadWord_congr fun k small => update_of_ne ?_ _ _
        rw [if_neg default] at located
        rw [granted, if_neg default] at below
        rcases located.2.2.1 with front | behind
        · have front' : t.storage setup + t.tasklocalSize.getD 0 ≤ t.data := front
          omega
        · have behind' : t.data + (t.record setup).size ≤ t.storage setup := behind
          omega
      have same : t.storage setup = loadWord t.mem (t.dataBlob setup) := by
        rw [storage, if_neg default]
      rw [same] at word ⊢
      rw [storage, if_neg default]
      exact word
    rw [if_neg default] at located ⊢
    rw [place]
    exact located

theorem Inv.step (inv : Inv setup argSize t) {label : LocalLabel}
    (step : LocalStep setup t label after) : Inv setup argSize after := by
  cases step with
  | start absent =>
    refine ⟨?_, inv.room, inv.small, inv.large, inv.bare⟩
    have located := inv.located
    rw [Located, absent] at located
    exact located
  | get grants done =>
    rcases getTasklocal_cases inv grants done with ⟨-, -, rfl⟩ | ⟨more, -, moved⟩
    · exact inv
    · exact (moved.inv inv grants more).1
  | @write i size byte reported below =>
    refine inv_write inv (Nat.lt_of_lt_of_eq below ?_) byte
    obtain ⟨tlSz, found, same⟩ := Option.map_eq_some_iff.mp reported
    rw [granted, found, Option.getD_some, ← same]
    exact ite_not ..

/-- The storage is behind the record or a heap block of the task, and apart from the argument. -/
structure Placed (setup : Setup) (argSize : Nat) (t : TaskRecord) : Prop where
  inside : (t.data ≤ t.storage setup ∧
    t.storage setup + t.granted setup ≤ t.data + (t.record setup).size) ∨
    ⟨t.storage setup, t.granted setup⟩ ∈ t.blocks
  apart : 0 < argSize → Region.Apart ⟨t.storage setup, t.granted setup⟩ ⟨t.arg, argSize⟩

theorem Inv.placed (inv : Inv setup argSize t) : Placed setup argSize t := by
  obtain ⟨lower, upper⟩ := blob_inside setup t
  have located := inv.located
  rw [Located] at located
  by_cases default : t.tasklocalSize.getD 0 = 0
  · have place : t.storage setup = t.dataBlob setup := by rw [storage, if_pos default]
    have size : t.granted setup = setup.tasklocalSize := by rw [granted, if_pos default]
    rw [if_pos default] at located
    constructor
    · rw [place, size]
      exact .inl ⟨lower, upper⟩
    · intro positive
      rw [place, size]
      cases big : t.bigStruct with
      | true =>
        obtain ⟨-, arg, fits⟩ := inv.small big
        refine .inr ?_
        rw [arg, dataBlob, big]
        exact Nat.add_le_add_left fits _
      | false =>
        cases copy : t.hasArgcopy with
        | false => exact absurd (inv.bare big copy) (by omega)
        | true =>
          rcases (inv.large copy).2 with front | behind
          · have front' : t.arg + argSize ≤ t.data := front
            exact .inr (Nat.le_trans front' lower)
          · have behind' : t.data + (t.record setup).size ≤ t.arg := behind
            exact .inl (Nat.le_trans upper behind')
  · have size : t.granted setup = t.tasklocalSize.getD 0 := by rw [granted, if_neg default]
    rw [if_neg default] at located
    obtain ⟨wide, blocks, record, others⟩ := located
    constructor
    · rw [size, blocks]
      exact .inr List.mem_cons_self
    · intro positive
      rw [size]
      cases copy : t.hasArgcopy with
      | true =>
        refine others _ ?_
        rw [argBlocks, if_pos copy]
        exact List.mem_singleton_self _
      | false =>
        cases big : t.bigStruct with
        | false => exact absurd (inv.bare big copy) (by omega)
        | true =>
          obtain ⟨-, arg, fits⟩ := inv.small big
          have room : argSize ≤ (t.record setup).size := by
            rw [TaskRecord.record, big]
            exact Nat.le_trans fits (Nat.le_add_right _ _)
          rcases record with front | behind
          · have front' : t.storage setup + t.tasklocalSize.getD 0 ≤ t.data := front
            exact .inl (by rw [arg]; exact front')
          · have behind' : t.data + (t.record setup).size ≤ t.storage setup := behind
            exact .inr (by rw [arg]; exact Nat.le_trans (Nat.add_le_add_left room _) behind')

/-- A call gives storage of the size that is asked for and reported, with what was last written to
it. -/
structure Gives (setup : Setup) (argSize : Nat) (t : TaskRecord) (size ret : Nat)
    (after : TaskRecord) : Prop where
  large : size ≤ after.granted setup
  reported : after.sizeTasklocal setup = some (after.granted setup)
  storage : ret = after.storage setup
  placed : Placed setup argSize after
  kept : ∀ i < min (t.granted setup) (after.granted setup),
    after.mem (ret + i) = t.mem (t.storage setup + i)

structure Promise (setup : Setup) (argSize : Nat) (t : TaskRecord) : Prop where
  gives : ∀ fresh size, t.tasklocalSize ≠ none → t.Grants setup fresh size →
    ∃ ret after, t.getTasklocal setup fresh size = some (ret, after) ∧
      Gives setup argSize t size ret after
  frees : (t.threadFree setup).Perm (t.blocks.map Region.address)
  callback : t.callbackStorage setup = some (t.storage setup)

theorem sizeTasklocal_some (started : t.tasklocalSize ≠ none) :
    t.sizeTasklocal setup = some (t.granted setup) := by
  obtain ⟨tlSz, found⟩ := Option.ne_none_iff_exists'.mp started
  rw [sizeTasklocal, granted, found, Option.map_some, Option.getD_some]
  exact congrArg some (ite_not ..)

theorem Inv.gives (inv : Inv setup argSize t) (started : t.tasklocalSize ≠ none)
    (grants : t.Grants setup fresh size) :
    ∃ ret after, t.getTasklocal setup fresh size = some (ret, after) ∧
      Gives setup argSize t size ret after := by
  obtain ⟨tlSz, found⟩ := Option.ne_none_iff_exists'.mp started
  obtain ⟨⟨ret, after⟩, done⟩ : ∃ result, t.getTasklocal setup fresh size = some result := by
    rw [getTasklocal, found]
    exact ⟨_, rfl⟩
  refine ⟨ret, after, done, ?_⟩
  rcases getTasklocal_cases inv grants done with ⟨enough, same, rfl⟩ | ⟨more, same, moved⟩
  · refine ⟨enough, sizeTasklocal_some started, same, inv.placed, ?_⟩
    intro i _
    rw [same]
  · obtain ⟨next, place, room⟩ := moved.inv inv grants more
    refine ⟨Nat.le_of_eq room.symm, ?_, same.trans place.symm, next.placed, ?_⟩
    · exact sizeTasklocal_some (by rw [moved.sized]; exact nofun)
    · intro i below
      rw [same]
      exact moved.kept i (Nat.lt_of_lt_of_le below (Nat.min_le_left _ _))

theorem Inv.frees (inv : Inv setup argSize t) :
    (t.threadFree setup).Perm (t.blocks.map Region.address) := by
  have located := inv.located
  rw [Located] at located
  have copies : (t.argBlocks argSize).map Region.address = if t.hasArgcopy then [t.arg] else [] := by
    rw [argBlocks]
    split <;> rfl
  rw [threadFree]
  cases found : t.tasklocalSize with
  | none =>
    rw [found] at located
    have nothing : t.blocks = t.argBlocks argSize := located
    rw [nothing, copies]
    rfl
  | some tlSz =>
    rw [found, Option.getD_some] at located
    by_cases default : tlSz = 0
    · rw [if_pos default] at located
      simp only [located, copies, if_neg (show ¬ tlSz > 0 by omega)]
      rfl
    · rw [if_neg default] at located
      have place : t.storage setup = loadWord t.mem (t.dataBlob setup) := by
        rw [storage, found, Option.getD_some, if_neg default]
      simp only [located.2.1, List.map_cons, copies, place, if_pos (show tlSz > 0 by omega)]
      rfl

theorem Inv.callback_iff (inv : Inv setup argSize t) :
    t.callbackStorage setup = some (t.storage setup) ↔ t.tasklocalSize ≠ none := by
  cases found : t.tasklocalSize with
  | none =>
    rw [callbackStorage, found]
    exact iff_of_false nofun (not_not_intro rfl)
  | some tlSz =>
    refine iff_of_true ?_ nofun
    have located := inv.located
    rw [Located, found, Option.getD_some] at located
    rw [callbackStorage, storage, found, Option.map_some, Option.getD_some]
    by_cases default : tlSz = 0
    · rw [if_pos default, if_pos (by omega)]
    · rw [if_neg default] at located
      rw [if_neg default, if_neg (Nat.not_le.mpr located.1)]

/-- In every state that a task can come to by asking for storage and writing to it, the promise
holds where the task has been started. -/
theorem tasklocal_iff (spawned : Spawned setup) {labels : List LocalLabel}
    (run : Run (LocalStep setup) spawned.task labels t) :
    Promise setup spawned.argSize t ↔ t.tasklocalSize ≠ none := by
  have inv : Inv setup spawned.argSize t :=
    run.preserves (fun _ _ _ inv step => inv.step step) (inv_task spawned)
  constructor
  · intro promise
    exact inv.callback_iff.mp promise.callback
  · intro started
    exact ⟨fun _ _ started grants => inv.gives started grants, inv.frees,
      inv.callback_iff.mpr started⟩

def plainTask : Spawned ⟨0, 8, Nat.le_refl 8⟩ :=
  ⟨0, 0, 4096, 0, fun _ => 0, by decide, by decide⟩

def largeArgument : Spawned ⟨0, 8, Nat.le_refl 8⟩ :=
  ⟨0, 16, 4096, 8192, fun _ => 0, by decide, by decide⟩

theorem tasklocal_grown : ∃ t : TaskRecord,
    t.tasklocalSize = some 16 ∧ t.mem 12288 = 7 ∧ Promise ⟨0, 8, Nat.le_refl 8⟩ 16 t := by
  have grants : Grants ⟨0, 8, Nat.le_refl 8⟩ { largeArgument.task with tasklocalSize := some 0 }
      12288 16 := by
    refine ⟨by decide, by decide, by decide, fun block held => .inl ?_⟩
    rw [List.mem_singleton.mp held]
    decide
  have run := Run.cons (.start rfl) (.cons (.get grants rfl)
    (.cons (@LocalStep.write _ _ 0 16 7 rfl (by decide)) (.nil _)))
  exact ⟨_, rfl, by decide +kernel, (tasklocal_iff largeArgument run).mpr nofun⟩

/-- A task that waits for its preconditions has no runtime data yet. -/
theorem nascent_callback : ¬ ∀ labels t, Run (LocalStep ⟨0, 8, Nat.le_refl 8⟩) plainTask.task labels t →
    Promise ⟨0, 8, Nat.le_refl 8⟩ 0 t := by
  intro promised
  have callback := (promised [] plainTask.task (.nil _)).callback
  cases callback

end TaskRecord

end Qthreads.Spawn
