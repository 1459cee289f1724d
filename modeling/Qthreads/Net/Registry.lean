import Qthreads.Net.Actions

namespace Qthreads.Net

open Qthreads.Hash

/-- A `qt_hash` as a finite map. -/
abbrev HashMap := UInt64 → Option UInt64

namespace HashMap

/-- `qt_hash_get`, which returns `NULL` for an absent key. -/
def get (map : HashMap) (key : UInt64) : UInt64 := (map key).getD 0

/-- `qt_hash_put`: a key that is present keeps its value. -/
def put (map : HashMap) (key value : UInt64) : Nat × HashMap :=
  if (map key).isSome then (0, map) else (1, Function.update map key (some value))

theorem put_absent {map : HashMap} {key : UInt64} (absent : map key = none) (value : UInt64) :
    map.put key value = (1, Function.update map key (some value)) := by
  rw [put, absent]
  rfl

end HashMap

structure Registry where
  initialized : Bool
  uidToPtr : HashMap
  ptrToUid : HashMap

namespace Registry

/-- The part of `qthread_multinode_initialize` that makes the tables. -/
def multinodeInit : Registry := ⟨true, fun _ => none, fun _ => none⟩

def register (registry : Registry) (uid : UInt32) (f : UInt64) : Nat × Registry :=
  if registry.initialized = false then (1, registry)
  else if uid = 0 then (1, registry)
  else if registry.uidToPtr.get uid.toUInt64 ≠ 0 then (1, registry)
  else
    let (ret, uidToPtr) := registry.uidToPtr.put uid.toUInt64 f
    let registry := { registry with uidToPtr }
    if ret ≠ 1 then (1, registry)
    else if registry.ptrToUid.get f ≠ 0 then (1, registry)
    else
      let (ret, ptrToUid) := registry.ptrToUid.put f uid.toUInt64
      let registry := { registry with ptrToUid }
      if ret ≠ 1 then (1, registry) else (0, registry)

/-- `qthread_multinode_action_uid`; `none` where it returns 1 and writes nothing. -/
def actionUid (registry : Registry) (f : UInt64) : Option UInt32 :=
  if registry.initialized = false then none else some (registry.ptrToUid.get f).toUInt32

def actionPtr (registry : Registry) (uid : UInt32) : Option UInt64 :=
  if registry.initialized = false then none else some (registry.uidToPtr.get uid.toUInt64)

def run (registry : Registry) : List (UInt32 × UInt64) → Registry
  | [] => registry
  | call :: rest => (registry.register call.1 call.2).2.run rest

def registered (registry : Registry) : List (UInt32 × UInt64) → List (UInt32 × UInt64)
  | [] => []
  | call :: rest =>
    let (ret, next) := registry.register call.1 call.2
    if ret = 0 then call :: next.registered rest else next.registered rest

theorem run_append (registry : Registry) (calls more : List (UInt32 × UInt64)) :
    registry.run (calls ++ more) = (registry.run calls).run more := by
  induction calls generalizing registry with
  | nil => rfl
  | cons call rest ih => exact ih _

theorem registered_append (registry : Registry) (calls more : List (UInt32 × UInt64)) :
    registry.registered (calls ++ more) =
      registry.registered calls ++ (registry.run calls).registered more := by
  induction calls generalizing registry with
  | nil => rfl
  | cons call rest ih =>
    simp only [List.cons_append, registered, run, ih]
    split <;> rfl

end Registry

section Purpose

variable {Key Value : Type*} [DecidableEq Key] [DecidableEq Value]

def Fresh (may : Key → Prop) (taken : List (Key × Value)) (pair : Key × Value) : Prop :=
  may pair.1 ∧ ∀ old ∈ taken, old.1 ≠ pair.1 ∧ old.2 ≠ pair.2

instance (may : Key → Prop) [DecidablePred may] (taken : List (Key × Value)) (pair : Key × Value) :
    Decidable (Fresh may taken pair) := inferInstanceAs (Decidable (_ ∧ _))

def takeFresh (may : Key → Prop) [DecidablePred may] (pairs : List (Key × Value)) :
    List (Key × Value) :=
  pairs.foldl (fun taken pair => if Fresh may taken pair then taken ++ [pair] else taken) []

def HalfFresh (may : Key → Prop) (taken : List (Key × Value)) (pair : Key × Value) : Prop :=
  may pair.1 ∧ (∀ old ∈ taken, old.1 ≠ pair.1) ∧ ∃ old ∈ taken, old.2 = pair.2

instance (may : Key → Prop) [DecidablePred may] (taken : List (Key × Value)) (pair : Key × Value) :
    Decidable (HalfFresh may taken pair) := inferInstanceAs (Decidable (_ ∧ _ ∧ _))

def Inverse (there : Key → Option Value) (back : Value → Option Key) : Prop :=
  ∀ key value, there key = some value ↔ back value = some key

theorem takeFresh_snoc (may : Key → Prop) [DecidablePred may] (pairs : List (Key × Value))
    (pair : Key × Value) :
    takeFresh may (pairs ++ [pair]) =
      if Fresh may (takeFresh may pairs) pair then takeFresh may pairs ++ [pair]
      else takeFresh may pairs := by
  rw [takeFresh, List.foldl_append]
  rfl

theorem Inverse.update {there : Key → Option Value} {back : Value → Option Key}
    (inverse : Inverse there back) {key : Key} {value : Value} (noKey : there key = none)
    (noValue : back value = none) :
    Inverse (Function.update there key (some value)) (Function.update back value (some key)) := by
  intro other its
  by_cases sameKey : other = key
  · by_cases sameValue : its = value
    · rw [sameKey, sameValue, Function.update_self, Function.update_self]
      exact iff_of_true rfl rfl
    · rw [sameKey, Function.update_self, Function.update_of_ne sameValue, ← inverse, noKey]
      exact iff_of_false (fun same => sameValue (Option.some.inj same).symm) nofun
  · by_cases sameValue : its = value
    · rw [sameValue, Function.update_self, Function.update_of_ne sameKey, inverse, noValue]
      exact iff_of_false nofun (fun same => sameKey (Option.some.inj same).symm)
    · rw [Function.update_of_ne sameKey, Function.update_of_ne sameValue]
      exact inverse other its

end Purpose

namespace Registry

structure Holds (registry : Registry) (taken : List (UInt32 × UInt64)) : Prop where
  ready : registry.initialized = true
  inverse : Inverse registry.uidToPtr registry.ptrToUid
  pairs : ∀ key f, registry.uidToPtr key = some f ↔
    ∃ uid : UInt32, key = uid.toUInt64 ∧ (uid, f) ∈ taken
  valid : ∀ pair ∈ taken, pair.1 ≠ 0 ∧ pair.2 ≠ 0

namespace Holds

variable {registry : Registry} {taken : List (UInt32 × UInt64)} {uid : UInt32} {f : UInt64}

theorem nothing : multinodeInit.Holds [] := by
  refine ⟨rfl, ?_, ?_, nofun⟩
  · intro key f
    exact iff_of_false nofun nofun
  · intro key f
    refine iff_of_false nofun ?_
    rintro ⟨uid, -, member⟩
    cases member

section

variable (holds : registry.Holds taken)
include holds

theorem uid_iff : registry.uidToPtr.get uid.toUInt64 = 0 ↔ ∀ old ∈ taken, old.1 ≠ uid := by
  rw [HashMap.get]
  cases found : registry.uidToPtr uid.toUInt64 with
  | none =>
    refine iff_of_true rfl ?_
    intro old member same
    have present := (holds.pairs old.1.toUInt64 old.2).mpr ⟨old.1, rfl, member⟩
    rw [same, found] at present
    cases present
  | some f =>
    obtain ⟨other, same, member⟩ := (holds.pairs _ _).mp found
    refine iff_of_false (holds.valid _ member).2 ?_
    intro free
    exact free _ member (toUInt64_inj same).symm

theorem ptr_iff : registry.ptrToUid.get f = 0 ↔ ∀ old ∈ taken, old.2 ≠ f := by
  rw [HashMap.get]
  cases found : registry.ptrToUid f with
  | none =>
    refine iff_of_true rfl ?_
    intro old member same
    have present := (holds.pairs old.1.toUInt64 old.2).mpr ⟨old.1, rfl, member⟩
    rw [holds.inverse, same, found] at present
    cases present
  | some key =>
    obtain ⟨other, same, member⟩ := (holds.pairs _ _).mp ((holds.inverse _ _).mpr found)
    refine iff_of_false ?_ (fun free => free _ member rfl)
    intro zero
    have nothing : other.toUInt64 = (0 : UInt32).toUInt64 := same.symm.trans zero
    exact (holds.valid _ member).1 (toUInt64_inj nothing)

theorem noUid (free : ∀ old ∈ taken, old.1 ≠ uid) : registry.uidToPtr uid.toUInt64 = none := by
  cases found : registry.uidToPtr uid.toUInt64 with
  | none => rfl
  | some f =>
    obtain ⟨other, same, member⟩ := (holds.pairs _ _).mp found
    exact absurd (toUInt64_inj same).symm (free _ member)

theorem noPtr (free : ∀ old ∈ taken, old.2 ≠ f) : registry.ptrToUid f = none := by
  cases found : registry.ptrToUid f with
  | none => rfl
  | some key =>
    obtain ⟨other, -, member⟩ := (holds.pairs _ _).mp ((holds.inverse _ _).mpr found)
    exact absurd rfl (free _ member)

theorem answers (member : (uid, f) ∈ taken) :
    registry.actionUid f = some uid ∧ registry.actionPtr uid = some f := by
  have there := (holds.pairs uid.toUInt64 f).mpr ⟨uid, rfl, member⟩
  have back := (holds.inverse _ _).mp there
  constructor
  · simp [actionUid, holds.ready, HashMap.get, back]
  · simp [actionPtr, holds.ready, HashMap.get, there]

theorem register_fresh (given : f ≠ 0) (fresh : Fresh (· ≠ 0) taken (uid, f)) :
    ∃ next, registry.register uid f = (0, next) ∧ next.Holds (taken ++ [(uid, f)]) := by
  obtain ⟨nonzero, free⟩ := fresh
  have freeUid : ∀ old ∈ taken, old.1 ≠ uid := fun old member => (free old member).1
  have freePtr : ∀ old ∈ taken, old.2 ≠ f := fun old member => (free old member).2
  have noUid := holds.noUid freeUid
  have noPtr := holds.noPtr freePtr
  refine ⟨{ registry with
      uidToPtr := Function.update registry.uidToPtr uid.toUInt64 (some f)
      ptrToUid := Function.update registry.ptrToUid f (some uid.toUInt64) }, ?_, ?_⟩
  · simp only [register, holds.ready, Bool.true_eq_false, if_false, if_neg nonzero,
      holds.uid_iff.mpr freeUid, HashMap.put_absent noUid, holds.ptr_iff.mpr freePtr,
      HashMap.put_absent noPtr, ne_eq, not_true_eq_false]
  · refine ⟨holds.ready, holds.inverse.update noUid noPtr, ?_, ?_⟩
    · intro key g
      show Function.update registry.uidToPtr uid.toUInt64 (some f) key = some g ↔ _
      by_cases same : key = uid.toUInt64
      · rw [same, Function.update_self]
        constructor
        · intro equal
          exact ⟨uid, rfl, List.mem_append_right _ (by rw [Option.some.inj equal]; simp)⟩
        · rintro ⟨other, equal, member⟩
          rcases List.mem_append.mp member with old | new
          · exact absurd (toUInt64_inj equal).symm (freeUid _ old)
          · cases List.mem_singleton.mp new
            rfl
      · rw [Function.update_of_ne same, holds.pairs]
        constructor
        · rintro ⟨other, equal, member⟩
          exact ⟨other, equal, List.mem_append_left _ member⟩
        · rintro ⟨other, equal, member⟩
          rcases List.mem_append.mp member with old | new
          · exact ⟨other, equal, old⟩
          · cases List.mem_singleton.mp new
            exact absurd equal same
    · intro pair member
      rcases List.mem_append.mp member with old | new
      · exact holds.valid pair old
      · rw [List.mem_singleton.mp new]
        exact ⟨nonzero, given⟩

theorem register_stale (stale : ¬ Fresh (· ≠ 0) taken (uid, f))
    (whole : ¬ HalfFresh (· ≠ 0) taken (uid, f)) : registry.register uid f = (1, registry) := by
  simp only [register, holds.ready, Bool.true_eq_false, if_false]
  by_cases zero : uid = 0
  · rw [if_pos zero]
  · rw [if_neg zero]
    refine if_pos ?_
    rw [ne_eq, holds.uid_iff]
    intro freeUid
    refine stale ⟨zero, ?_⟩
    intro old member
    refine ⟨freeUid old member, ?_⟩
    intro same
    exact whole ⟨zero, freeUid, old, member, same⟩

/-- The check of the function comes after the uid is in its table. -/
theorem register_half (half : HalfFresh (· ≠ 0) taken (uid, f)) :
    registry.register uid f = (1, { registry with
      uidToPtr := Function.update registry.uidToPtr uid.toUInt64 (some f) }) := by
  obtain ⟨nonzero, freeUid, old, member, same⟩ := half
  have known : registry.ptrToUid.get f ≠ 0 := by
    rw [ne_eq, holds.ptr_iff]
    intro free
    exact free old member same
  simp only [register, holds.ready, Bool.true_eq_false, if_false, if_neg nonzero,
    holds.uid_iff.mpr freeUid, HashMap.put_absent (holds.noUid freeUid), ne_eq, not_true_eq_false,
    if_pos known]

end

end Holds

def Clean (calls : List (UInt32 × UInt64)) : Prop :=
  ∀ before call, before ++ [call] <+: calls → ¬ HalfFresh (· ≠ 0) (takeFresh (· ≠ 0) before) call

theorem Clean.before {calls more : List (UInt32 × UInt64)} (clean : Clean (calls ++ more)) :
    Clean calls := by
  intro before call early
  exact clean before call (early.trans (List.prefix_append _ _))

variable {calls : List (UInt32 × UInt64)}

theorem Clean.holds (clean : Clean calls) (given : ∀ call ∈ calls, call.2 ≠ 0) :
    (multinodeInit.run calls).Holds (takeFresh (· ≠ 0) calls) ∧
      multinodeInit.registered calls = takeFresh (· ≠ 0) calls := by
  induction calls using List.reverseRecOn with
  | nil => exact ⟨.nothing, rfl⟩
  | append_singleton calls call ih =>
    obtain ⟨holds, done⟩ := ih clean.before
      (fun old member => given old (List.mem_append_left _ member))
    have whole := clean calls call (List.prefix_refl _)
    rw [run_append, registered_append, takeFresh_snoc, done]
    by_cases fresh : Fresh (· ≠ 0) (takeFresh (· ≠ 0) calls) call
    · obtain ⟨next, answer, more⟩ := holds.register_fresh
        (given call (List.mem_append_right _ (List.mem_singleton_self _))) fresh
      rw [if_pos fresh]
      simp only [run, registered, answer, if_true]
      exact ⟨more, trivial⟩
    · have answer := holds.register_stale fresh whole
      rw [if_neg fresh]
      simp only [run, registered, answer, Nat.one_ne_zero, if_false, List.append_nil]
      exact ⟨holds, trivial⟩

def ofTables (machine : Machine) (tables : Tables) : Registry :=
  ⟨true, tables.uidToPtr.lookup machine, tables.ptrToUid.lookup machine⟩

theorem ofTables_create (machine : Machine) : ofTables machine (.create machine) = multinodeInit := by
  rw [ofTables, show (Tables.create machine).uidToPtr = machine.create from rfl,
    show (Tables.create machine).ptrToUid = machine.create from rfl, create_lookup]
  rfl

variable {actions : List (UInt32 × UInt64)}

theorem register_refines {machine : Machine} {tables next : Tables}
    (known : Registered machine tables actions) {uid : UInt32}
    {f : UInt64} {code : Nat} (done : Net.register machine tables uid f = .ok (code, next)) :
    (ofTables machine tables).register uid f = (code, ofTables machine next) := by
  rw [Net.register] at done
  rw [register, if_neg (show ¬ (ofTables machine tables).initialized = false from by rintro ⟨⟩)]
  by_cases zero : uid = 0
  · rw [if_pos zero] at done ⊢
    cases done
    rfl
  rw [if_neg zero] at done ⊢
  have uidGet : (ofTables machine tables).uidToPtr.get uid.toUInt64 =
      tables.uidToPtr.getLocked machine uid.toUInt64 := rfl
  have ptrGet : (ofTables machine tables).ptrToUid.get f = tables.ptrToUid.getLocked machine f := rfl
  rw [uidGet]
  by_cases free : tables.uidToPtr.getLocked machine uid.toUInt64 = 0
  · have unbound : (ofTables machine tables).uidToPtr uid.toUInt64 = none :=
      (known.uids uid).trans ((known.unbound_iff uid).mp free)
    rw [if_neg (not_not_intro free)] at done ⊢
    rw [HashMap.put_absent unbound]
    cases put : tables.uidToPtr.putLocked machine 2 uid.toUInt64 f with
    | error stop =>
      rw [put] at done
      cases done
    | ok result =>
      obtain ⟨one, uids⟩ := Table.putLocked_new known.uidWf known.uidOnce unbound put
      rw [put] at done
      simp only [one, ne_eq, not_true_eq_false, if_false, ptrGet] at done ⊢
      by_cases new : tables.ptrToUid.getLocked machine f = 0
      · have unknown : (ofTables machine tables).ptrToUid f = none :=
          (known.unknown_iff f).mp new
        rw [if_neg (not_not_intro new)] at done ⊢
        rw [HashMap.put_absent unknown]
        cases putPtr : tables.ptrToUid.putLocked machine 2 f uid.toUInt64 with
        | error stop =>
          rw [putPtr] at done
          cases done
        | ok last =>
          obtain ⟨again, ptrs⟩ := Table.putLocked_new known.ptrWf known.ptrOnce unknown putPtr
          rw [putPtr] at done
          simp only [again, not_true_eq_false, if_false] at done ⊢
          cases done
          simp only [ofTables, uids.map, ptrs.map]
      · rw [if_pos new] at done ⊢
        cases done
        simp only [ofTables, uids.map]
  · rw [if_pos free] at done ⊢
    cases done
    rfl

theorem registerAll_refines {machine : Machine} {tables next : Tables}
    (known : Registered machine tables actions)
    (calls : List (UInt32 × UInt64)) (given : ∀ call ∈ calls, call.2 ≠ 0)
    (done : Net.registerAll machine tables calls = .ok next) :
    (ofTables machine tables).run calls = ofTables machine next := by
  induction calls generalizing tables actions with
  | nil =>
    cases done
    rfl
  | cons call rest ih =>
    rw [Net.registerAll] at done
    cases one : Net.register machine tables call.1 call.2 with
    | error stop =>
      rw [one] at done
      cases done
    | ok result =>
      rw [one] at done
      have more := known.register (given call List.mem_cons_self) one
      rw [run, register_refines known one]
      exact ih more (fun other listed => given other (List.mem_cons_of_mem _ listed)) done

/-- The two hash tables go through a sequence of registrations as two finite maps do. -/
theorem tables_refine_registry (machine : Machine) (calls : List (UInt32 × UInt64))
    (given : ∀ call ∈ calls, call.2 ≠ 0) {next : Tables}
    (done : Net.registerAll machine (.create machine) calls = .ok next) :
    multinodeInit.run calls = ofTables machine next := by
  rw [← ofTables_create machine]
  exact registerAll_refines (.create machine) calls given done

theorem tables_refine_registry_two : ∃ next,
    Net.registerAll commonMachine (.create commonMachine) [(1, 8), (2, 16)] = .ok next ∧
      multinodeInit.run [(1, 8), (2, 16)] = ofTables commonMachine next := by
  have ends : (Net.registerAll commonMachine (.create commonMachine)
      [(1, 8), (2, 16)]).toOption.isSome = true := by decide +kernel
  cases done : Net.registerAll commonMachine (.create commonMachine) [(1, 8), (2, 16)] with
  | error stop =>
    rw [done] at ends
    cases ends
  | ok next => exact ⟨next, rfl, tables_refine_registry commonMachine _ (by simp) done⟩

/-- The tables undo each other, and so do the two functions that read them on these pairs. -/
structure Answers (registry : Registry) (done : List (UInt32 × UInt64)) : Prop where
  inverse : Inverse registry.uidToPtr registry.ptrToUid
  answers : ∀ pair ∈ done,
    registry.actionUid pair.2 = some pair.1 ∧ registry.actionPtr pair.1 = some pair.2

/-- A call succeeds where the uid is positive and neither side is registered, and changes nothing
where it fails. -/
structure Settles (registry : Registry) (done : List (UInt32 × UInt64)) (call : UInt32 × UInt64) :
    Prop where
  succeeds : (registry.register call.1 call.2).1 = 0 ↔ Fresh (· ≠ 0) done call
  unchanged : (registry.register call.1 call.2).1 ≠ 0 →
    (registry.register call.1 call.2).2 = registry

/-- What is promised about a whole sequence of calls, after and at each of them. -/
def Registers (calls : List (UInt32 × UInt64)) : Prop :=
  ∀ before, before <+: calls →
    (multinodeInit.run before).Answers (multinodeInit.registered before) ∧
      ∀ call, before ++ [call] <+: calls →
        (multinodeInit.run before).Settles (multinodeInit.registered before) call

theorem Clean.registers (clean : Clean calls)
    (given : ∀ call ∈ calls, call.2 ≠ 0) : Registers calls := by
  rintro before ⟨rest, rfl⟩
  obtain ⟨holds, done⟩ := clean.before.holds
    (fun old member => given old (List.mem_append_left _ member))
  rw [done]
  refine ⟨⟨holds.inverse, fun pair member => holds.answers member⟩, ?_⟩
  intro call early
  have whole := clean before call early
  by_cases fresh : Fresh (· ≠ 0) (takeFresh (· ≠ 0) before) call
  · have member := early.subset (List.mem_append_right _ (List.mem_singleton_self call))
    obtain ⟨next, answer, -⟩ := holds.register_fresh (given call member) fresh
    constructor
    · rw [answer]
      exact iff_of_true rfl fresh
    · intro failed
      rw [answer] at failed
      exact absurd rfl failed
  · have answer := holds.register_stale fresh whole
    constructor
    · rw [answer]
      exact iff_of_false Nat.one_ne_zero fresh
    · intro _
      rw [answer]

theorem Registers.clean (registers : Registers calls)
    (given : ∀ call ∈ calls, call.2 ≠ 0) : Clean calls := by
  induction calls using List.reverseRecOn with
  | nil =>
    intro before call early
    cases before <;> cases List.prefix_nil.mp early
  | append_singleton calls last ih =>
    have givenBefore : ∀ call ∈ calls, call.2 ≠ 0 :=
      fun old member => given old (List.mem_append_left _ member)
    have clean := ih (fun before early => by
      obtain ⟨answers, settles⟩ := registers before (early.trans (List.prefix_append _ _))
      exact ⟨answers, fun call more => settles call (more.trans (List.prefix_append _ _))⟩)
      givenBefore
    obtain ⟨holds, -⟩ := clean.holds givenBefore
    intro before call early
    rcases List.prefix_concat_iff.mp early with whole | short
    · obtain ⟨rfl, rfl⟩ := List.append_singleton_inj.mp whole
      intro half
      have settles := (registers before (List.prefix_append _ _)).2 call (List.prefix_refl _)
      have answer := holds.register_half half
      have same := settles.unchanged (by rw [answer]; exact Nat.one_ne_zero)
      rw [answer] at same
      have bound := congrFun (congrArg Registry.uidToPtr same) call.1.toUInt64
      rw [holds.noUid half.2.1] at bound
      simp only [Function.update_self] at bound
      cases bound
    · exact clean before call short

theorem registers_iff (calls : List (UInt32 × UInt64)) (given : ∀ call ∈ calls, call.2 ≠ 0) :
    Registers calls ↔ Clean calls :=
  ⟨fun registers => registers.clean given, fun clean => clean.registers given⟩

theorem registers_two : Registers [(1, 8), (2, 16)] := by
  refine (registers_iff _ (by simp)).mpr ?_
  intro before call early
  rcases before with _ | ⟨first, _ | ⟨second, rest⟩⟩
  · obtain ⟨rfl⟩ : call = (1, 8) := by simpa using early
    decide
  · obtain ⟨rfl, rfl⟩ : first = (1, 8) ∧ call = (2, 16) := by simpa using early
    decide
  · have long := early.length_le
    simp at long

/-- The second uid stays in its table though its call failed. -/
theorem half_registered : ¬ Registers [(1, 8), (2, 8)] := by
  intro registers
  have settles := (registers [(1, 8)] (by simp)).2 (2, 8) (by simp)
  have same := settles.unchanged (by decide)
  have bound := congrFun (congrArg Registry.uidToPtr same) 2
  revert bound
  decide

end Registry

end Qthreads.Net
