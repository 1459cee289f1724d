import Qthreads.Hash.Rehash

namespace Qthreads.Hash

open Function (update update_of_ne update_self)

abbrev FiniteMap := UInt64 → Option UInt64

namespace Call

def specified (map : FiniteMap) : Call → Answer × FiniteMap
  | put key value =>
    match map key with
    | some _ => (.code Table.putCollision, map)
    | none => (.code Table.putSuccess, update map key (some value))
  | get key => (.pointer ((map key).getD 0), map)
  | remove key =>
    match map key with
    | some _ => (.code 1, update map key none)
    | none => (.code 0, map)

end Call

def specified : FiniteMap → List Call → List Answer × FiniteMap
  | map, [] => ([], map)
  | map, call :: rest =>
    ((call.specified map).1 :: (specified (call.specified map).2 rest).1,
      (specified (call.specified map).2 rest).2)

/-- The calls return what a finite map returns, and leave the table with its bindings. -/
def FiniteMapExact (machine : Machine) (calls : List Call) : Prop :=
  ∃ answers table, exec machine machine.create calls = .ok (answers, table) ∧
    specified (fun _ => none) calls = (answers, table.lookup machine) ∧ table.NoKeyTwice

namespace Table

/-- The key is in the table, outside the one bucket that is searched for a collision. -/
def StoredAway (machine : Machine) (table : Table) (key : UInt64) : Prop :=
  ∃ slot < table.numEntries,
    slot ∉ machine.slots (table.home key) ∧ (table.entries slot).key = key

/-- Where a removal rehashes, no out-of-band key is bound or the last other key goes. -/
def RemoveClear (machine : Machine) (table : Table) (key : UInt64) : Prop :=
  ((table.find machine key).bind fun slot => (table.vacate slot).removeRehash) ≠ none →
    table.bound = 0 ∨ table.population = 1

end Table

namespace Call

def Meets (machine : Machine) (table : Table) : Call → Prop
  | put key _ => outOfBand key = true ∨ ¬ table.StoredAway machine key ∧
      (table.lookup machine key = none → table.PutClear machine key)
  | get _ => True
  | remove key => outOfBand key = true ∨ table.RemoveClear machine key

instance (machine : Machine) (table : Table) : (call : Call) → Decidable (call.Meets machine table)
  | put key _ => inferInstanceAs (Decidable (outOfBand key = true ∨
      (¬ ∃ slot < table.numEntries,
        slot ∉ machine.slots (table.home key) ∧ (table.entries slot).key = key) ∧
      (table.lookup machine key = none →
        (table.firstFree machine key).bind table.putRehash ≠ none →
          table.bound = 0 ∨ table.population = 0)))
  | get _ => .isTrue trivial
  | remove key => inferInstanceAs (Decidable (outOfBand key = true ∨
      (((table.find machine key).bind fun slot => (table.vacate slot).removeRehash) ≠ none →
        table.bound = 0 ∨ table.population = 1)))

end Call

def MeetsAll (machine : Machine) : Table → List Call → Prop
  | _, [] => True
  | table, call :: rest => call.Meets machine table ∧
      match call.apply machine table with
      | .error _ => True
      | .ok (_, next) => MeetsAll machine next rest

namespace Table

variable {machine : Machine} {table : Table} {key : UInt64}

variable {slot : Nat}

theorem stored_of_lookup (inBand : outOfBand key = false)
    (wf : table.WellFormed machine) (found : table.find machine key = some slot) :
    slot < table.numEntries ∧ (table.entries slot).key = key ∧
      (table.entries slot).live = true := by
  obtain ⟨seen, same⟩ := find_some inBand found
  have listed := (List.takeWhile_prefix _).subset seen
  exact ⟨wf.sized.path_lt key slot listed, same, live_inBand.mpr (same ▸ inBand)⟩

theorem find_of_slot (wf : table.WellFormed machine)
    (inside : slot < table.numEntries) (live : (table.entries slot).live = true) :
    ∃ found, table.find machine (table.entries slot).key = some found := by
  have inBand := live_inBand.mp live
  cases search : table.find machine (table.entries slot).key with
  | some found => exact ⟨found, rfl⟩
  | none =>
    rw [find_eq inBand] at search
    have differs := List.find?_eq_none.mp search slot (wf.reach slot inside live)
    exact absurd (holds_iff.mpr rfl) differs

theorem lookup_inBand (wf : table.WellFormed machine) (once : table.NoKeyTwice)
    (inBand : outOfBand key = false) (value : UInt64) :
    table.lookup machine key = some value ↔ table.Stores ⟨key, value⟩ := by
  rw [lookup, inBand, if_neg Bool.false_ne_true, Option.map_eq_some_iff]
  constructor
  · intro found
    obtain ⟨slot, search, same⟩ := found
    obtain ⟨inside, keyed, live⟩ := stored_of_lookup inBand wf search
    have whole : table.entries slot = ⟨key, value⟩ := by
      rw [← keyed, ← same]
    exact whole ▸ stores_of_slot inside live
  · intro stored
    obtain ⟨live, slot, inside, whole⟩ := stored
    rw [← whole] at live
    obtain ⟨found, search⟩ := find_of_slot wf inside live
    obtain ⟨there, keyed, -⟩ := stored_of_lookup (live_inBand.mp live) wf search
    have equal := once slot inside found there live keyed.symm
    refine ⟨slot, ?_, by rw [whole]⟩
    rw [equal, ← search, whole]

theorem lookup_outOfBand (band : outOfBand key = true) :
    table.lookup machine key = if table.hasKey key then some (table.value key) else none := by
  rw [lookup, band, if_pos rfl]

theorem absent_of_lookup (wf : table.WellFormed machine) (once : table.NoKeyTwice)
    (inBand : outOfBand key = false) (absent : table.lookup machine key = none) :
    table.Absent key := by
  intro value stored
  rw [(lookup_inBand wf once inBand value).mpr stored] at absent
  cases absent

variable {after : Table}

theorem Same.lookup (same : Same machine table after)
    (wf : table.WellFormed machine) (once : table.NoKeyTwice) :
    after.lookup machine = table.lookup machine := by
  funext key
  cases band : outOfBand key with
  | true => rw [lookup_outOfBand band, lookup_outOfBand band, same.hasKey, same.value]
  | false =>
    refine Option.ext fun value => ?_
    rw [lookup_inBand same.wf same.once band, lookup_inBand wf once band, same.stores]

theorem Extends.lookup {value : UInt64}
    (extended : Extends machine table after ⟨key, value⟩) (wf : table.WellFormed machine)
    (once : table.NoKeyTwice) (inBand : outOfBand key = false) :
    after.lookup machine = update (table.lookup machine) key (some value) := by
  funext other
  by_cases same : other = key
  · rw [same, update_self, lookup_inBand extended.wf extended.once inBand,
      extended.stores]
    exact .inr rfl
  · rw [update_of_ne same]
    cases band : outOfBand other with
    | true => rw [lookup_outOfBand band, lookup_outOfBand band, extended.hasKey, extended.value]
    | false =>
      refine Option.ext fun found => ?_
      rw [lookup_inBand extended.wf extended.once band, lookup_inBand wf once band,
        extended.stores]
      exact or_iff_left fun equal => same (congrArg Entry.key equal)

theorem lookup_update (table : Table) (band : outOfBand key = true)
    (slots : ∀ other, outOfBand other = false →
      after.lookup machine other = table.lookup machine other)
    (others : ∀ other, other ≠ key →
      after.hasKey other = table.hasKey other ∧ after.value other = table.value other) :
    after.lookup machine = update (table.lookup machine) key
      (if after.hasKey key then some (after.value key) else none) := by
  funext other
  by_cases same : other = key
  · rw [same, update_self, lookup_outOfBand band]
  · rw [update_of_ne same]
    cases shape : outOfBand other with
    | true =>
      rw [lookup_outOfBand shape, lookup_outOfBand shape, (others other same).1,
        (others other same).2]
    | false => exact slots other shape

theorem atHome_of_stored (wf : table.WellFormed machine) (inBand : outOfBand key = false)
    (near : ¬ table.StoredAway machine key) (inside : slot < table.numEntries)
    (same : (table.entries slot).key = key) : table.AtHome machine key := by
  have live : (table.entries slot).live = true := live_inBand.mpr (same ▸ inBand)
  have here : slot ∈ machine.slots (table.home key) := by
    by_contra away
    exact near ⟨slot, inside, away, same⟩
  have seen := wf.reach slot inside live
  rw [same] at seen
  exact ⟨slot, Lib.Probe.mem_takeWhile_front here seen, same⟩

structure Exact (machine : Machine) (table after : Table) (map : FiniteMap) : Prop where
  wf : after.WellFormed machine
  once : after.NoKeyTwice
  map : after.lookup machine = map

theorem putLocked_exact (wf : table.WellFormed machine) (once : table.NoKeyTwice)
    (value : UInt64) (meets : (Call.put key value).Meets machine table) (fuel : Nat) :
    ∃ code after, putLocked machine (fuel + 2) table key value = .ok (code, after) ∧
      Answer.code code = ((Call.put key value).specified (table.lookup machine)).1 ∧
      Exact machine table after ((Call.put key value).specified (table.lookup machine)).2 := by
  cases band : outOfBand key with
  | true =>
    rw [putLocked, band, if_pos rfl, putOutOfBand, Call.specified, lookup_outOfBand band]
    cases bound : table.hasKey key with
    | true => exact ⟨_, _, rfl, rfl, wf, once, rfl⟩
    | false =>
      refine ⟨_, _, rfl, rfl, wf.congr rfl rfl rfl rfl rfl rfl rfl, once, ?_⟩
      refine (lookup_update table band ?_ ?_).trans ?_
      · intro other shape
        rw [lookup, lookup, shape]
        rfl
      · intro other differs
        exact ⟨update_of_ne differs _ _, update_of_ne differs _ _⟩
      · simp only [update_self, if_true, Bool.false_eq_true, if_false]
  | false =>
    obtain ⟨near, clear⟩ := meets.resolve_left (by rw [band]; exact Bool.false_ne_true)
    rw [Call.specified]
    cases found : table.lookup machine key with
    | some old =>
      obtain ⟨-, slot, inside, whole⟩ := (lookup_inBand wf once band old).mp found
      have home := atHome_of_stored wf band near inside (by rw [whole])
      refine ⟨putCollision, table, ?_, rfl, wf, once, rfl⟩
      rw [putLocked, band, if_neg Bool.false_ne_true, place_home band home]
    | none =>
      have absent := absent_of_lookup wf once band found
      obtain ⟨after, stored, extended⟩ := putLocked_extends wf once band absent (clear found)
        fuel value
      exact ⟨1, after, stored, rfl, extended.wf, extended.once, extended.lookup wf once band⟩

theorem putLocked_new (wf : table.WellFormed machine) (once : table.NoKeyTwice)
    (unbound : table.lookup machine key = none) {fuel code : Nat} {value : UInt64}
    (done : putLocked machine (fuel + 2) table key value = .ok (code, after)) :
    code = 1 ∧ Exact machine table after
      (update (table.lookup machine) key (some value)) := by
  cases band : outOfBand key with
  | true =>
    obtain ⟨code', after', put, answer, exact_⟩ := putLocked_exact wf once value
      (.inl band : (Call.put key value).Meets machine table) fuel
    rw [put] at done
    rw [Call.specified, unbound] at answer exact_
    cases done
    cases answer
    exact ⟨rfl, exact_⟩
  | false =>
    obtain ⟨one, extended⟩ := putLocked_returns wf once band
      (absent_of_lookup wf once band unbound) done
    exact ⟨one, extended.wf, extended.once, extended.lookup wf once band⟩

theorem vacate_once (once : table.NoKeyTwice) (slot : Nat) : (table.vacate slot).NoKeyTwice := by
  have away : ∀ other, ((table.vacate slot).entries other).live = true →
      (table.vacate slot).entries other = table.entries other := by
    intro other live
    refine write_other _ ?_
    intro same
    change ((table.write slot _).entries other).live = true at live
    rw [same, write_self] at live
    exact (live_iff.mp live).2 rfl
  intro first inside second there live same
  have also : ((table.vacate slot).entries second).live = true := by
    rw [live_inBand, ← same, ← live_inBand]
    exact live
  rw [away first live, away second also] at same
  rw [away first live] at live
  exact once first inside second there live same

theorem vacate_stores (once : table.NoKeyTwice) (inside : slot < table.numEntries) (entry : Entry) :
    (table.vacate slot).Stores entry ↔
      table.Stores entry ∧ entry.key ≠ (table.entries slot).key := by
  have here : (table.vacate slot).entries slot = { table.entries slot with key := keyDeleted } :=
    write_self ..
  have away : ∀ other, other ≠ slot →
      (table.vacate slot).entries other = table.entries other :=
    fun other differs => write_other _ differs
  constructor
  · intro stored
    obtain ⟨alive, other, there, rfl⟩ := stored
    have differs : other ≠ slot := by
      intro same
      rw [same, here] at alive
      exact (live_iff.mp alive).2 rfl
    rw [away other differs] at alive ⊢
    refine ⟨stores_of_slot there alive, ?_⟩
    intro same
    exact differs (once other there slot inside alive same)
  · intro stored
    obtain ⟨⟨alive, other, there, rfl⟩, differs⟩ := stored
    have apart : other ≠ slot := fun same => differs (by rw [same])
    exact ⟨alive, other, there, away other apart⟩

theorem vacate_lookup (wf : table.WellFormed machine) (once : table.NoKeyTwice)
    (inBand : outOfBand key = false) (found : table.find machine key = some slot) :
    (table.vacate slot).lookup machine = update (table.lookup machine) key none := by
  obtain ⟨inside, same, live⟩ := stored_of_lookup inBand wf found
  have kept := wf.vacate inside live
  have single := vacate_once once slot
  funext other
  cases band : outOfBand other with
  | true =>
    have differs : other ≠ key := by
      intro equal
      rw [equal, inBand] at band
      cases band
    rw [update_of_ne differs, lookup_outOfBand band, lookup_outOfBand band]
    rfl
  | false =>
    refine Option.ext fun value => ?_
    rw [lookup_inBand kept single band, vacate_stores once inside, same]
    by_cases equal : other = key
    · rw [equal, update_self]
      exact iff_of_false (fun stored => stored.2 rfl) nofun
    · rw [update_of_ne equal, lookup_inBand wf once band]
      exact and_iff_left equal

theorem removeRehash_pos (wf : table.WellFormed machine) {len : Nat}
    (rehash : table.removeRehash = some len) : 0 < len := by
  have large := wf.large
  rw [removeRehash] at rehash
  split at rehash
  · cases rehash
    omega
  · split at rehash
    · cases rehash
      omega
    · cases rehash

theorem removeLocked_exact (wf : table.WellFormed machine) (once : table.NoKeyTwice)
    (meets : (Call.remove key).Meets machine table) (fuel : Nat) :
    ∃ code after, removeLocked machine (fuel + 2) table key = .ok (code, after) ∧
      Answer.code code = ((Call.remove key).specified (table.lookup machine)).1 ∧
      Exact machine table after ((Call.remove key).specified (table.lookup machine)).2 := by
  cases band : outOfBand key with
  | true =>
    rw [removeLocked, band, if_pos rfl, Call.specified, lookup_outOfBand band]
    cases bound : table.hasKey key with
    | false => exact ⟨_, _, rfl, rfl, wf, once, rfl⟩
    | true =>
      refine ⟨_, _, rfl, rfl, wf.congr rfl rfl rfl rfl rfl rfl rfl, once, ?_⟩
      refine (lookup_update table band ?_ ?_).trans ?_
      · intro other shape
        rw [lookup, lookup, shape]
        rfl
      · intro other differs
        exact ⟨update_of_ne differs _ _, update_of_ne differs _ _⟩
      · simp only [update_self, Bool.false_eq_true, if_false, if_true]
  | false =>
    have clear := meets.resolve_left (by rw [band]; exact Bool.false_ne_true)
    rw [removeLocked, band, if_neg Bool.false_ne_true, Call.specified, lookup, band,
      if_neg Bool.false_ne_true]
    cases found : table.find machine key with
    | none => exact ⟨_, _, rfl, rfl, wf, once, rfl⟩
    | some slot =>
      obtain ⟨inside, same, live⟩ := stored_of_lookup band wf found
      have kept := wf.vacate inside live
      have single := vacate_once once slot
      have map := vacate_lookup wf once band found
      simp only
      cases rehash : (table.vacate slot).removeRehash with
      | none => exact ⟨_, _, rfl, rfl, kept, single, map⟩
      | some len =>
        have bound : (table.vacate slot).bound = 0 ∨ (table.vacate slot).population = 0 := by
          rcases clear (by rw [found, Option.bind_some, rehash]; exact nofun) with
            unbound | last
          · exact .inl unbound
          · exact .inr (by simp only [vacate, last])
        obtain ⟨after, copied, equal⟩ := brehash_same kept single bound
          (removeRehash_pos kept rehash) fuel
        refine ⟨1, after, ?_, rfl, equal.wf, equal.once, ?_⟩
        · simp only [copied]
        · rw [equal.lookup kept single]
          exact map

end Table

variable {machine : Machine}

theorem apply_exact {table : Table} (call : Call) (wf : table.WellFormed machine)
    (once : table.NoKeyTwice) (meets : call.Meets machine table) :
    ∃ after, call.apply machine table =
        .ok ((call.specified (table.lookup machine)).1, after) ∧
      Table.Exact machine table after (call.specified (table.lookup machine)).2 := by
  cases call with
  | put key value =>
    obtain ⟨code, after, done, answer, exact_⟩ := Table.putLocked_exact wf once value meets 0
    refine ⟨after, ?_, exact_⟩
    rw [Call.apply, done, ← answer]
  | get key => exact ⟨table, rfl, wf, once, rfl⟩
  | remove key =>
    obtain ⟨code, after, done, answer, exact_⟩ := Table.removeLocked_exact wf once meets 0
    refine ⟨after, ?_, exact_⟩
    rw [Call.apply, done, ← answer]

theorem exec_exact (calls : List Call) {table : Table} (wf : table.WellFormed machine)
    (once : table.NoKeyTwice) (met : MeetsAll machine table calls) :
    ∃ answers last, exec machine table calls = .ok (answers, last) ∧
      specified (table.lookup machine) calls = (answers, last.lookup machine) ∧
      last.NoKeyTwice := by
  induction calls generalizing table with
  | nil => exact ⟨[], table, rfl, rfl, once⟩
  | cons call rest ih =>
    obtain ⟨meets, later⟩ := met
    obtain ⟨next, done, kept⟩ := apply_exact call wf once meets
    rw [done] at later
    obtain ⟨answers, last, ran, same, single⟩ := ih kept.wf kept.once later
    rw [kept.map] at same
    refine ⟨(call.specified (table.lookup machine)).1 :: answers, last, ?_, ?_, single⟩
    · rw [exec, done]
      simp only [ran]
    · rw [specified, same]

theorem create_wf (machine : Machine) : machine.create.WellFormed machine :=
  .empty (internalCreate_sized machine (by decide)) (fun _ => rfl) rfl rfl

theorem create_lookup (machine : Machine) : machine.create.lookup machine = fun _ => none := by
  funext key
  cases band : outOfBand key with
  | true =>
    rw [Table.lookup_outOfBand band]
    rfl
  | false =>
    have nothing : machine.create.find machine key = none := by
      rw [Table.find_eq band, Table.visible]
      cases path : machine.create.path machine key with
      | nil => rfl
      | cons slot rest => rfl
    rw [Table.lookup, band, if_neg Bool.false_ne_true, nothing]
    rfl

/-- A run is that of a finite map as long as no put meets its key outside the home bucket and
no rehash meets an out-of-band key beside others. -/
theorem exec_finiteMap (machine : Machine) (calls : List Call)
    (met : MeetsAll machine machine.create calls) : FiniteMapExact machine calls := by
  have single : machine.create.NoKeyTwice := by
    intro slot _ other _ live
    exact absurd rfl (live_iff.mp live).1
  have ran := exec_exact calls (create_wf machine) single met
  rw [create_lookup] at ran
  exact ran

def commonMachine : Machine := ⟨2, 12, by decide, by decide⟩

def MeetsAll.decide (machine : Machine) : (calls : List Call) → (table : Table) →
    Decidable (MeetsAll machine table calls)
  | [], _ => .isTrue trivial
  | call :: rest, table =>
    @instDecidableAnd _ _ inferInstance
      (match call.apply machine table with
      | .error _ => .isTrue trivial
      | .ok (_, next) => MeetsAll.decide machine rest next)

instance (table : Table) (calls : List Call) : Decidable (MeetsAll machine table calls) :=
  MeetsAll.decide machine calls table

theorem exec_finiteMap_collision :
    MeetsAll commonMachine commonMachine.create
        [.put 0 3, .put 97 1, .put 361 2, .put 97 5, .remove 361, .get 97] ∧
      FiniteMapExact commonMachine
        [.put 0 3, .put 97 1, .put 361 2, .put 97 5, .remove 361, .get 97] :=
  have met : MeetsAll commonMachine commonMachine.create
      [.put 0 3, .put 97 1, .put 361 2, .put 97 5, .remove 361, .get 97] := by decide +kernel
  ⟨met, exec_finiteMap commonMachine _ met⟩

/-- Five keys of one bucket of four slots: the second put of the fifth overwrites its value and
reports success. -/
theorem fifth_key_put_twice :
    ¬ FiniteMapExact commonMachine
      [.put 97 1, .put 361 2, .put 397 3, .put 554 4, .put 602 5, .put 602 6] := by
  intro claimed
  obtain ⟨answers, table, ran, same, -⟩ := claimed
  have returned : (exec commonMachine commonMachine.create
      [.put 97 1, .put 361 2, .put 397 3, .put 554 4, .put 602 5, .put 602 6]).toOption.map
        Prod.fst = some (List.replicate 6 (.code 1)) := by decide +kernel
  have wanted : (specified (fun _ => none)
      [.put 97 1, .put 361 2, .put 397 3, .put 554 4, .put 602 5, .put 602 6]).1 =
        List.replicate 5 (.code 1) ++ [.code 0] := by decide +kernel
  rw [ran] at returned
  rw [same] at wanted
  cases wanted
  cases returned

end Qthreads.Hash
