import Qthreads.Hash.Map

namespace Qthreads.Net

open Qthreads.Hash
open Function (update update_of_ne update_self)

/-! `qthread_multinode_register` puts an action into `uid_to_ptr_hash` and `ptr_to_uid_hash`; both
are hash maps of the default implementation.  A failed assertion of a table ends the program. -/

structure Tables where
  uidToPtr : Table
  ptrToUid : Table

def Tables.create (machine : Machine) : Tables := ⟨machine.create, machine.create⟩

def register (machine : Machine) (tables : Tables) (uid : UInt32) (f : UInt64) :
    Except Table.Stop (Nat × Tables) :=
  if uid = 0 then .ok (1, tables)
  else if tables.uidToPtr.getLocked machine uid.toUInt64 ≠ 0 then .ok (1, tables)
  else
    match tables.uidToPtr.putLocked machine 2 uid.toUInt64 f with
    | .error stop => .error stop
    | .ok (ret, uidToPtr) =>
      if ret ≠ 1 then .ok (1, { tables with uidToPtr })
      else if tables.ptrToUid.getLocked machine f ≠ 0 then .ok (1, { tables with uidToPtr })
      else
        match tables.ptrToUid.putLocked machine 2 f uid.toUInt64 with
        | .error stop => .error stop
        | .ok (ret, ptrToUid) =>
          if ret ≠ 1 then .ok (1, ⟨uidToPtr, ptrToUid⟩) else .ok (0, ⟨uidToPtr, ptrToUid⟩)

def registerAll (machine : Machine) : Tables → List (UInt32 × UInt64) → Except Table.Stop Tables
  | tables, [] => .ok tables
  | tables, action :: rest =>
    match register machine tables action.1 action.2 with
    | .error stop => .error stop
    | .ok (_, tables) => registerAll machine tables rest

def bound {Action : Type} (actions : List (UInt32 × Action)) (uid : UInt32) : Option Action :=
  (actions.find? fun action => action.1 = uid ∧ uid ≠ 0).map Prod.snd

theorem bound_snoc {Action : Type} (actions : List (UInt32 × Action)) (uid other : UInt32)
    (f : Action) :
    bound (actions ++ [(uid, f)]) other =
      (bound actions other).or (if uid = other ∧ other ≠ 0 then some f else none) := by
  rw [bound, List.find?_append, bound]
  cases actions.find? fun action => action.1 = other ∧ other ≠ 0 with
  | some found => rfl
  | none =>
    rw [Option.none_or, Option.map_none, Option.none_or, List.find?_singleton]
    split
    · rename_i same
      rw [if_pos (of_decide_eq_true same)]
      rfl
    · rename_i differs
      rw [if_neg (fun same => differs (decide_eq_true same))]
      rfl

theorem bound_map {Action Other : Type} (actions : List (UInt32 × Action)) (uid : UInt32)
    (f : Action → Other) :
    bound (actions.map fun action => (action.1, f action.2)) uid = (bound actions uid).map f := by
  rw [bound, bound, List.find?_map, Option.map_map, Option.map_map]
  rfl

variable {machine : Machine} {tables : Tables} {actions : List (UInt32 × UInt64)}

structure Registered (machine : Machine) (tables : Tables) (actions : List (UInt32 × UInt64)) :
    Prop where
  uidWf : tables.uidToPtr.WellFormed machine
  uidOnce : tables.uidToPtr.NoKeyTwice
  ptrWf : tables.ptrToUid.WellFormed machine
  ptrOnce : tables.ptrToUid.NoKeyTwice
  /-- No action is at address 0, as no function is. -/
  there : ∀ action ∈ actions, action.2 ≠ 0
  uids : ∀ uid : UInt32, tables.uidToPtr.lookup machine uid.toUInt64 = bound actions uid
  ptrs : ∀ f value, tables.ptrToUid.lookup machine f = some value →
    ∃ uid : UInt32, uid ≠ 0 ∧ value = uid.toUInt64 ∧ bound actions uid = some f
  known : ∀ uid f, bound actions uid = some f → tables.ptrToUid.lookup machine f ≠ none

theorem bound_mem {Action : Type} {actions : List (UInt32 × Action)} {uid : UInt32} {f : Action}
    (found : bound actions uid = some f) : uid ≠ 0 ∧ (uid, f) ∈ actions := by
  obtain ⟨action, search, same⟩ := Option.map_eq_some_iff.mp found
  have chosen := List.find?_some search
  obtain ⟨first, nonzero⟩ := of_decide_eq_true chosen
  have member := List.mem_of_find?_eq_some search
  rw [← first, ← same]
  exact ⟨first ▸ nonzero, member⟩

theorem toUInt64_inj {uid other : UInt32} (same : uid.toUInt64 = other.toUInt64) : uid = other := by
  rw [← UInt32.toNat_inj, ← UInt32.toNat_toUInt64, ← UInt32.toNat_toUInt64, same]

namespace Registered

theorem create (machine : Machine) : Registered machine (.create machine) [] := by
  have single : machine.create.NoKeyTwice := by
    intro slot _ other _ live
    exact absurd rfl (live_iff.mp live).1
  refine ⟨create_wf machine, single, create_wf machine, single, nofun, ?_, ?_, nofun⟩
  · intro uid
    exact congrFun (create_lookup machine) _
  · intro f value found
    rw [show (Tables.create machine).ptrToUid = machine.create from rfl, create_lookup] at found
    cases found

theorem unbound_iff (registered : Registered machine tables actions) (uid : UInt32) :
    tables.uidToPtr.getLocked machine uid.toUInt64 = 0 ↔ bound actions uid = none := by
  rw [Table.getLocked, registered.uids]
  cases found : bound actions uid with
  | none => exact iff_of_true rfl rfl
  | some f => exact iff_of_false (registered.there _ (bound_mem found).2) nofun

theorem unknown_iff (registered : Registered machine tables actions) (f : UInt64) :
    tables.ptrToUid.getLocked machine f = 0 ↔ tables.ptrToUid.lookup machine f = none := by
  rw [Table.getLocked]
  cases found : tables.ptrToUid.lookup machine f with
  | none => exact iff_of_true rfl rfl
  | some value =>
    obtain ⟨uid, nonzero, same, -⟩ := registered.ptrs f value found
    refine iff_of_false ?_ nofun
    intro zero
    exact nonzero (toUInt64_inj (same.symm.trans zero))

variable {uid : UInt32}

theorem refused (registered : Registered machine tables actions) {f : UInt64}
    (given : f ≠ 0) (taken : uid = 0 ∨ bound actions uid ≠ none) :
    Registered machine tables (actions ++ [(uid, f)]) := by
  have same : ∀ other, bound (actions ++ [(uid, f)]) other = bound actions other := by
    intro other
    rw [bound_snoc]
    cases found : bound actions other with
    | some old => rfl
    | none =>
      rw [Option.none_or]
      refine if_neg ?_
      rintro ⟨rfl, nonzero⟩
      exact taken.elim nonzero (fun already => already found)
  refine ⟨registered.uidWf, registered.uidOnce, registered.ptrWf, registered.ptrOnce, ?_, ?_, ?_,
    ?_⟩
  · intro action listed
    rcases List.mem_append.mp listed with before | last
    · exact registered.there action before
    · rw [List.mem_singleton.mp last]
      exact given
  · intro other
    rw [same, registered.uids]
  · intro f value found
    obtain ⟨other, facts⟩ := registered.ptrs f value found
    exact ⟨other, by rw [same]; exact facts⟩
  · intro other f found
    rw [same] at found
    exact registered.known other f found

variable {after : Tables}

section

variable (registered : Registered machine tables actions)
include registered

theorem accepted {f : UInt64}
    (given : f ≠ 0) (nonzero : uid ≠ 0) (unbound : bound actions uid = none)
    (uids : Table.Exact machine tables.uidToPtr after.uidToPtr
      (update (tables.uidToPtr.lookup machine) uid.toUInt64 (some f)))
    (ptrs : (tables.ptrToUid.lookup machine f ≠ none ∧ after.ptrToUid = tables.ptrToUid) ∨
      Table.Exact machine tables.ptrToUid after.ptrToUid
        (update (tables.ptrToUid.lookup machine) f (some uid.toUInt64))) :
    Registered machine after (actions ++ [(uid, f)]) := by
  have here : bound (actions ++ [(uid, f)]) uid = some f := by
    rw [bound_snoc, unbound, Option.none_or, if_pos ⟨rfl, nonzero⟩]
  have away : ∀ other, other ≠ uid → bound (actions ++ [(uid, f)]) other = bound actions other := by
    intro other differs
    rw [bound_snoc, if_neg (fun same => differs same.1.symm), Option.or_none]
  have kept : ∀ other g, bound actions other = some g →
      bound (actions ++ [(uid, f)]) other = some g := by
    intro other g found
    rw [bound_snoc, found]
    rfl
  have there : ∀ action ∈ actions ++ [(uid, f)], action.2 ≠ 0 := by
    intro action listed
    rcases List.mem_append.mp listed with before | last
    · exact registered.there action before
    · rw [List.mem_singleton.mp last]
      exact given
  have named : ∀ other : UInt32, after.uidToPtr.lookup machine other.toUInt64 =
      bound (actions ++ [(uid, f)]) other := by
    intro other
    rw [uids.map]
    by_cases same : other = uid
    · rw [same, update_self, here]
    · rw [update_of_ne (fun equal => same (toUInt64_inj equal)), registered.uids,
        away other same]
  have classify : ∀ other g, bound (actions ++ [(uid, f)]) other = some g →
      g = f ∨ bound actions other = some g := by
    intro other g found
    by_cases same : other = uid
    · rw [same, here] at found
      exact .inl (Option.some.inj found).symm
    · rw [away other same] at found
      exact .inr found
  rcases ptrs with ⟨known, unchanged⟩ | ptrs
  · refine ⟨uids.wf, uids.once, unchanged ▸ registered.ptrWf, unchanged ▸ registered.ptrOnce,
      there, named, ?_, ?_⟩
    · intro g value found
      rw [unchanged] at found
      obtain ⟨other, facts, same, stands⟩ := registered.ptrs g value found
      exact ⟨other, facts, same, kept other g stands⟩
    · intro other g found
      rw [unchanged]
      rcases classify other g found with rfl | old
      · exact known
      · exact registered.known other g old
  · refine ⟨uids.wf, uids.once, ptrs.wf, ptrs.once, there, named, ?_, ?_⟩
    · intro g value found
      rw [ptrs.map] at found
      by_cases same : g = f
      · rw [same, update_self] at found
        exact ⟨uid, nonzero, (Option.some.inj found).symm, same ▸ here⟩
      · rw [update_of_ne same] at found
        obtain ⟨other, facts, equal, stands⟩ := registered.ptrs g value found
        exact ⟨other, facts, equal, kept other g stands⟩
    · intro other g found
      rw [ptrs.map]
      by_cases same : g = f
      · rw [same, update_self]
        exact nofun
      · rw [update_of_ne same]
        exact registered.known other g ((classify other g found).resolve_left same)

theorem register {f : UInt64} (given : f ≠ 0) {code : Nat}
    (done : Net.register machine tables uid f = .ok (code, after)) :
    Registered machine after (actions ++ [(uid, f)]) := by
  rw [Net.register] at done
  by_cases zero : uid = 0
  · rw [if_pos zero] at done
    cases done
    exact registered.refused given (.inl zero)
  rw [if_neg zero] at done
  by_cases free : tables.uidToPtr.getLocked machine uid.toUInt64 = 0
  · have unbound := (registered.unbound_iff uid).mp free
    rw [if_neg (not_not_intro free)] at done
    cases put : tables.uidToPtr.putLocked machine 2 uid.toUInt64 f with
    | error stop =>
      rw [put] at done
      cases done
    | ok result =>
      obtain ⟨one, uids⟩ := Table.putLocked_new registered.uidWf registered.uidOnce
        ((registered.uids uid).trans unbound) put
      rw [put] at done
      simp only [one, ne_eq, not_true_eq_false, if_false] at done
      by_cases new : tables.ptrToUid.getLocked machine f = 0
      · have unknown := (registered.unknown_iff f).mp new
        rw [if_neg (not_not_intro new)] at done
        cases putPtr : tables.ptrToUid.putLocked machine 2 f uid.toUInt64 with
        | error stop =>
          rw [putPtr] at done
          cases done
        | ok last =>
          obtain ⟨again, ptrs⟩ := Table.putLocked_new registered.ptrWf registered.ptrOnce
            unknown putPtr
          rw [putPtr] at done
          simp only [again, not_true_eq_false, if_false] at done
          cases done
          exact registered.accepted given zero unbound uids (.inr ptrs)
      · rw [if_pos new] at done
        cases done
        refine registered.accepted given zero unbound uids (.inl ⟨?_, rfl⟩)
        exact fun absent => new ((registered.unknown_iff f).mpr absent)
  · rw [if_pos free] at done
    cases done
    exact registered.refused given (.inr fun absent => free ((registered.unbound_iff uid).mpr absent))

theorem registerAll (more : List (UInt32 × UInt64)) (given : ∀ action ∈ more, action.2 ≠ 0)
    (done : Net.registerAll machine tables more = .ok after) :
    Registered machine after (actions ++ more) := by
  induction more generalizing tables actions with
  | nil =>
    cases done
    rw [List.append_nil]
    exact registered
  | cons action rest ih =>
    rw [Net.registerAll] at done
    cases one : Net.register machine tables action.1 action.2 with
    | error stop =>
      rw [one] at done
      cases done
    | ok result =>
      rw [one] at done
      have next := registered.register (given action List.mem_cons_self) one
      have all := ih next (fun other listed => given other (List.mem_cons_of_mem _ listed)) done
      rw [List.append_assoc] at all
      exact all

end

end Registered

theorem Registered.action (registered : Registered machine tables actions) {f : UInt64}
    (given : f ≠ 0)
    (checked : tables.uidToPtr.getLocked machine (tables.ptrToUid.getLocked machine f) = f) :
    ∃ uid : UInt32, tables.ptrToUid.getLocked machine f = uid.toUInt64 ∧
      bound actions uid = some f := by
  cases found : tables.ptrToUid.lookup machine f with
  | none =>
    have zero : tables.ptrToUid.getLocked machine f = (0 : UInt32).toUInt64 :=
      (registered.unknown_iff f).mpr found
    have nothing : bound actions 0 = none := by
      cases stands : bound actions 0 with
      | none => rfl
      | some g => exact absurd rfl (bound_mem stands).1
    rw [zero, (registered.unbound_iff 0).mpr nothing] at checked
    exact absurd checked.symm given
  | some value =>
    obtain ⟨uid, -, same, stands⟩ := registered.ptrs f value found
    refine ⟨uid, ?_, stands⟩
    rw [Table.getLocked, found]
    exact same

end Qthreads.Net
