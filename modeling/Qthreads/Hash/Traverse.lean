import Qthreads.Hash.Map

namespace Qthreads.Hash

variable {machine : Machine}

def Reachable (machine : Machine) (table : Table) : Prop :=
  ∃ calls answers, exec machine machine.create calls = .ok (answers, table)

def Enumerates (entries : List Entry) (map : FiniteMap) : Prop :=
  entries.Nodup ∧ ∀ entry, entry ∈ entries ↔ map entry.key = some entry.value

/-- Rehashes keep the bindings, traversals apply their function to each binding once, and the
count is that of the bindings. -/
structure LosesNothing (machine : Machine) (table : Table) : Prop where
  rehash : ∀ len, len = table.numEntries ∨ len = table.numEntries * 2 ∨
      len = table.numEntries / 2 →
    ∃ after, table.brehash machine (Table.putLocked machine 2) len = .ok after ∧
      after.lookup machine = table.lookup machine
  callback : Enumerates table.callback (table.lookup machine)
  destroy : ∃ values entries, table.destroyDeallocate = .ok values ∧
    Enumerates entries (table.lookup machine) ∧ values.Perm (entries.map Entry.value)
  count : ∃ entries, Enumerates entries (table.lookup machine) ∧ table.count = entries.length

theorem Enumerates.length_eq {first second : List Entry} {map : FiniteMap}
    (left : Enumerates first map) (right : Enumerates second map) :
    first.length = second.length := by
  refine ((List.perm_ext_iff_of_nodup left.1 right.1).mpr ?_).length_eq
  intro entry
  rw [left.2, right.2]

theorem removeLocked_wf {table after : Table} {key : UInt64} {fuel code : Nat}
    (wf : table.WellFormed machine)
    (done : table.removeLocked machine fuel key = .ok (code, after)) :
    after.WellFormed machine := by
  rw [Table.removeLocked] at done
  cases band : outOfBand key with
  | true =>
    rw [band, if_pos rfl] at done
    split at done
    · cases done
      exact wf
    · cases done
      exact wf.congr rfl rfl rfl rfl rfl rfl rfl
  | false =>
    rw [band, if_neg Bool.false_ne_true] at done
    cases found : table.find machine key with
    | none =>
      rw [found] at done
      cases done
      exact wf
    | some slot =>
      obtain ⟨inside, -, live⟩ := Table.stored_of_lookup band wf found
      have kept := wf.vacate inside live
      rw [found] at done
      simp only at done
      cases rehash : (table.vacate slot).removeRehash with
      | none =>
        rw [rehash] at done
        cases done
        exact kept
      | some len =>
        have positive := Table.removeRehash_pos kept rehash
        simp only [rehash] at done
        split at done
        · cases done
        · rename_i copied
          cases done
          exact Table.brehash_wf (Table.putLocked_keeps machine fuel) positive copied

theorem apply_wf {table after : Table} {call : Call} {answer : Answer}
    (wf : table.WellFormed machine) (done : call.apply machine table = .ok (answer, after)) :
    after.WellFormed machine := by
  cases call with
  | put key value =>
    rw [Call.apply] at done
    split at done
    · cases done
    · rename_i stored
      cases done
      exact Table.putLocked_keeps machine 2 _ _ _ _ _ wf stored
  | get key =>
    cases done
    exact wf
  | remove key =>
    rw [Call.apply] at done
    split at done
    · cases done
    · rename_i removed
      cases done
      exact removeLocked_wf wf removed

theorem exec_wf (calls : List Call) {table last : Table} {answers : List Answer}
    (wf : table.WellFormed machine) (ran : exec machine table calls = .ok (answers, last)) :
    last.WellFormed machine := by
  induction calls generalizing table answers with
  | nil =>
    cases ran
    exact wf
  | cons call rest ih =>
    rw [exec] at ran
    split at ran
    · cases ran
    · rename_i done
      split at ran
      · cases ran
      · rename_i later
        cases ran
        exact ih (apply_wf wf done) later

theorem Reachable.wf {table : Table} (reached : Reachable machine table) :
    table.WellFormed machine := by
  obtain ⟨calls, answers, ran⟩ := reached
  exact exec_wf calls (create_wf machine) ran

theorem apply_fuel {table : Table} (wf : table.WellFormed machine) (call : Call) :
    call.apply machine table ≠ .error .fuel := by
  cases call with
  | put key value =>
    rw [Call.apply]
    split
    · rename_i stop failed
      intro same
      cases same
      exact Table.putLocked_fuel wf 0 value failed
    · rintro ⟨⟩
  | get key => rintro ⟨⟩
  | remove key =>
    rw [Call.apply]
    split
    · rename_i stop failed
      intro same
      cases same
      rw [Table.removeLocked] at failed
      cases band : outOfBand key with
      | true =>
        rw [band, if_pos rfl] at failed
        split at failed
        · cases failed
        · cases failed
      | false =>
        rw [band, if_neg Bool.false_ne_true] at failed
        split at failed
        · cases failed
        · rename_i slot found
          obtain ⟨inside, -, live⟩ := Table.stored_of_lookup band wf found
          have kept := wf.vacate inside live
          split at failed
          · cases failed
          · rename_i len rehash
            have positive := Table.removeRehash_pos kept rehash
            split at failed
            · rename_i failing
              cases failed
              exact Table.brehash_fuel _ positive 0 failing
            · cases failed
    · rintro ⟨⟩

theorem exec_fuel (calls : List Call) {table : Table} (wf : table.WellFormed machine) :
    exec machine table calls ≠ .error .fuel := by
  induction calls generalizing table with
  | nil => rintro ⟨⟩
  | cons call rest ih =>
    rw [exec]
    split
    · rename_i stop failed
      intro same
      cases same
      exact apply_fuel wf call failed
    · rename_i done
      split
      · rename_i stop later
        intro same
        cases same
        exact ih (apply_wf wf done) later
      · rintro ⟨⟩

/-- No sequence of calls rehashes for ever: a put that finds its bucket full has rehashed, put and
rehashed again at most. -/
theorem calls_end (machine : Machine) (calls : List Call) :
    exec machine machine.create calls ≠ .error .fuel :=
  exec_fuel calls (create_wf machine)

namespace Table

variable {table : Table}

theorem visitEntries_all (slots : List Nat) (visited : Nat)
    (left : visited + (table.liveAmong slots).length = table.population) :
    table.visitEntries slots visited = (table.liveAmong slots).map table.entries := by
  induction slots generalizing visited with
  | nil => rfl
  | cons slot rest ih =>
    rw [visitEntries]
    cases live : (table.entries slot).live with
    | false =>
      have skipped : table.liveAmong (slot :: rest) = table.liveAmong rest :=
        List.filter_cons_of_neg (by rw [live]; exact Bool.false_ne_true)
      rw [skipped] at left ⊢
      rw [if_neg Bool.false_ne_true]
      exact ih visited left
    | true =>
      have counted : table.liveAmong (slot :: rest) = slot :: table.liveAmong rest :=
        List.filter_cons_of_pos live
      rw [counted, List.length_cons] at left
      rw [counted, List.map_cons, if_pos rfl]
      by_cases last : visited + 1 = table.population
      · have empty : table.liveAmong rest = [] := by
          apply List.eq_nil_of_length_eq_zero
          omega
        rw [if_pos last, empty]
        rfl
      · rw [if_neg last, ih (visited + 1) (by omega)]

theorem outOfBandEntries_length (table : Table) : table.outOfBandEntries.length = table.bound := by
  rw [outOfBandEntries, bound]
  cases table.hasKey keyNull <;> cases table.hasKey keyDeleted <;> rfl

theorem callback_unbound (wf : table.WellFormed machine) (unbound : table.bound = 0) :
    table.callback = table.liveSlots.map table.entries := by
  have length := table.outOfBandEntries_length
  rw [unbound] at length
  rw [callback, List.eq_nil_of_length_eq_zero length, List.nil_append, List.length_nil]
  by_cases positive : 0 < table.population
  · rw [if_pos positive]
    refine visitEntries_all _ 0 ?_
    rw [Nat.zero_add, wf.population]
    rfl
  · have empty : table.liveSlots = [] := by
      apply List.eq_nil_of_length_eq_zero
      have population := wf.population
      omega
    rw [if_neg positive, empty]
    rfl

theorem liveSlots_enumerates (wf : table.WellFormed machine) (once : table.NoKeyTwice)
    (unbound : table.bound = 0) :
    Enumerates (table.liveSlots.map table.entries) (table.lookup machine) := by
  obtain ⟨noNull, noDeleted⟩ := bound_eq_zero.mp unbound
  constructor
  · refine List.Nodup.map_on ?_ (List.nodup_range.filter _)
    intro slot listed other also same
    obtain ⟨inside, live⟩ := mem_liveSlots.mp listed
    exact once slot inside other (mem_liveSlots.mp also).1 live (by rw [same])
  · intro entry
    rw [List.mem_map]
    cases band : outOfBand entry.key with
    | true =>
      have free : table.hasKey entry.key = false := by
        rcases of_decide_eq_true band with deleted | null
        · rw [deleted]
          exact noDeleted
        · rw [null]
          exact noNull
      rw [lookup_outOfBand band, free]
      refine iff_of_false ?_ nofun
      intro found
      obtain ⟨slot, listed, rfl⟩ := found
      rw [live_inBand.mp (mem_liveSlots.mp listed).2] at band
      cases band
    | false =>
      rw [lookup_inBand wf once band]
      constructor
      · intro found
        obtain ⟨slot, listed, rfl⟩ := found
        obtain ⟨inside, live⟩ := mem_liveSlots.mp listed
        exact stores_of_slot inside live
      · intro stored
        obtain ⟨live, slot, inside, same⟩ := stored
        exact ⟨slot, mem_liveSlots.mpr ⟨inside, by rw [same]; exact live⟩, same⟩

theorem losesNothing_of_clear (wf : table.WellFormed machine) (once : table.NoKeyTwice)
    (unbound : table.bound = 0) : LosesNothing machine table := by
  have all := liveSlots_enumerates wf once unbound
  have visits := callback_unbound wf unbound
  have length : (table.liveSlots.map table.entries).length = table.population := by
    rw [List.length_map, wf.population]
  obtain ⟨noNull, noDeleted⟩ := bound_eq_zero.mp unbound
  refine ⟨?_, ?_, ?_, ?_⟩
  · intro len size
    have large := wf.large
    obtain ⟨after, copied, same⟩ := brehash_same wf once (.inl unbound)
      (show 0 < len by omega) 0
    exact ⟨after, copied, same.lookup wf once⟩
  · rw [visits]
    exact all
  · refine ⟨_, _, ?_, all, .refl _⟩
    rw [destroyDeallocate, visits, if_pos length]
  · refine ⟨_, all, ?_⟩
    rw [length, count, noNull, noDeleted]
    rfl

theorem bound_of_losesNothing (exact_ : LosesNothing machine table) :
    table.bound = 0 ∧ ∃ entries, Enumerates entries (table.lookup machine) ∧
      entries.length = table.population := by
  obtain ⟨values, entries, destroyed, listed, same⟩ := exact_.destroy
  obtain ⟨others, alsoListed, counted⟩ := exact_.count
  have total : entries.length = table.population := by
    rw [destroyDeallocate] at destroyed
    split at destroyed
    · rename_i visited
      cases destroyed
      have lengths := same.length_eq
      rw [List.length_map, List.length_map] at lengths
      omega
    · cases destroyed
  have lengths := listed.length_eq alsoListed
  refine ⟨?_, entries, listed, total⟩
  rw [count] at counted
  rw [bound]
  omega

theorem once_of_enumerates (wf : table.WellFormed machine) (unbound : table.bound = 0)
    {entries : List Entry} (listed : Enumerates entries (table.lookup machine))
    (total : entries.length = table.population) : table.NoKeyTwice := by
  obtain ⟨noNull, noDeleted⟩ := bound_eq_zero.mp unbound
  have located : ∀ entry ∈ entries, outOfBand entry.key = false ∧
      ∃ slot, table.find machine entry.key = some slot ∧
        (table.entries slot).value = entry.value := by
    intro entry found
    have bound := (listed.2 entry).mp found
    cases band : outOfBand entry.key with
    | true =>
      rw [lookup_outOfBand band] at bound
      rcases of_decide_eq_true band with deleted | null
      · rw [deleted, noDeleted] at bound
        cases bound
      · rw [null, noNull] at bound
        cases bound
    | false =>
      rw [lookup, band, if_neg Bool.false_ne_true, Option.map_eq_some_iff] at bound
      exact ⟨rfl, bound⟩
  let slotOf (entry : Entry) : Nat := (table.find machine entry.key).getD 0
  have slotOf_eq : ∀ entry ∈ entries, ∀ slot, table.find machine entry.key = some slot →
      slotOf entry = slot := by
    intro entry _ slot found
    simp only [slotOf, found, Option.getD_some]
  have covers : entries.map slotOf ⊆ table.liveSlots := by
    intro slot member
    obtain ⟨entry, found, rfl⟩ := List.mem_map.mp member
    obtain ⟨band, slot, search, -⟩ := located entry found
    rw [slotOf_eq entry found slot search]
    obtain ⟨inside, -, live⟩ := stored_of_lookup band wf search
    exact mem_liveSlots.mpr ⟨inside, live⟩
  have distinct : (entries.map slotOf).Nodup := by
    refine List.Nodup.map_on ?_ listed.1
    intro first inFirst second inSecond same
    obtain ⟨firstBand, left, leftSearch, leftValue⟩ := located first inFirst
    obtain ⟨secondBand, right, rightSearch, rightValue⟩ := located second inSecond
    rw [slotOf_eq first inFirst left leftSearch, slotOf_eq second inSecond right rightSearch] at same
    have leftKey := (stored_of_lookup firstBand wf leftSearch).2.1
    have rightKey := (stored_of_lookup secondBand wf rightSearch).2.1
    rw [same] at leftKey leftValue
    cases first
    cases second
    simp only at leftKey leftValue rightKey rightValue
    rw [← leftKey, ← leftValue, rightKey, rightValue]
  have perm : (entries.map slotOf).Perm table.liveSlots := by
    refine (List.subperm_of_subset distinct covers).perm_of_length_le ?_
    rw [List.length_map, total, wf.population]
  have own : ∀ slot < table.numEntries, (table.entries slot).live = true →
      table.find machine (table.entries slot).key = some slot := by
    intro slot inside live
    have member := perm.mem_iff.mpr (mem_liveSlots.mpr ⟨inside, live⟩)
    obtain ⟨entry, found, same⟩ := List.mem_map.mp member
    obtain ⟨band, place, search, -⟩ := located entry found
    rw [slotOf_eq entry found place search] at same
    rw [same] at search
    rw [(stored_of_lookup band wf search).2.1, search]
  intro slot inside other there live same
  have left := own slot inside live
  have right := own other there (by rw [live_inBand, ← same, ← live_inBand]; exact live)
  rw [same, right] at left
  exact (Option.some.inj left).symm

end Table

/-- A reachable table rehashes and traverses exactly when it holds no key twice and none of the
out-of-band keys. -/
theorem losesNothing_iff (machine : Machine) (table : Table)
    (reached : Reachable machine table) :
    LosesNothing machine table ↔
      table.NoKeyTwice ∧ table.hasKey keyNull = false ∧ table.hasKey keyDeleted = false := by
  have wf := reached.wf
  constructor
  · intro exact_
    obtain ⟨unbound, entries, listed, total⟩ := Table.bound_of_losesNothing exact_
    exact ⟨Table.once_of_enumerates wf unbound listed total, Table.bound_eq_zero.mp unbound⟩
  · intro clear
    obtain ⟨once, free⟩ := clear
    exact Table.losesNothing_of_clear wf once (Table.bound_eq_zero.mpr free)

theorem exists_reachable {α : Type} (calls : List Call) (shows : Table → α) (shown : α)
    (ran : (exec commonMachine commonMachine.create calls).toOption.map
      (fun result => shows result.2) = some shown) :
    ∃ table, Reachable commonMachine table ∧ shows table = shown := by
  cases served : exec commonMachine commonMachine.create calls with
  | error stop =>
    rw [served] at ran
    cases ran
  | ok result =>
    rw [served] at ran
    exact ⟨result.2, ⟨_, _, served⟩, Option.some.inj ran⟩

theorem losesNothing_iff_two_keys :
    ∃ table, Reachable commonMachine table ∧
      [5, 69, 7].map (table.lookup commonMachine) = [some 8, some 6, none] ∧
      (LosesNothing commonMachine table ↔
        table.NoKeyTwice ∧ table.hasKey keyNull = false ∧ table.hasKey keyDeleted = false) := by
  obtain ⟨table, reached, bound⟩ := exists_reachable
    [.put 5 4, .put 69 6, .put 7 9, .remove 5, .put 5 8, .remove 7]
    (fun table => [5, 69, 7].map (table.lookup commonMachine)) [some 8, some 6, none]
    (by decide +kernel)
  exact ⟨table, reached, bound, losesNothing_iff commonMachine table reached⟩

/-- With key 0 bound beside key 5, the traversals skip one binding and a rehash fails its
assertion. -/
theorem zero_key_loses_binding :
    ∃ table, Reachable commonMachine table ∧ ¬ LosesNothing commonMachine table := by
  obtain ⟨table, reached, bound⟩ := exists_reachable [.put 0 3, .put 5 4] (·.bound) 1
    (by decide +kernel)
  refine ⟨table, reached, fun exact_ => ?_⟩
  rw [(Table.bound_of_losesNothing exact_).1] at bound
  cases bound

namespace Table

variable {table : Table} {key value : UInt64}

/-- The puts of the copying loop of `brehash` find slots, and none of them starts again. -/
def CopiesFind (machine : Machine) (put : Put) (table : Table) : List Nat → Nat → Table → Prop
  | [], _, _ => True
  | slot :: rest, copied, copy =>
    if (table.entries slot).live then
      copy.place machine (table.entries slot).key ≠ .insert none ∧
        (∀ f, copy.place machine (table.entries slot).key = .insert (some f) →
          copy.putRehash f = none) ∧
        ∀ code next, put copy (table.entries slot).key (table.entries slot).value = .ok (code, next) →
          copied + 1 ≠ table.population → CopiesFind machine put table rest (copied + 1) next
    else CopiesFind machine put table rest copied copy

/-- The searches of a table are rounds of its buckets, and a put finds a slot that is free, at the
latest when it has started once more; so do the puts with which `brehash` copies the table. -/
structure RoomFor (machine : Machine) (table : Table) (key value : UInt64) : Prop where
  round : ∃ bits, table.numEntries = 2 ^ bits ∧
    Round bits machine.lineBits (table.laterBuckets machine key) (table.home key)
  occupied : table.population + table.deletes < table.numEntries
  finds : table.place machine key ≠ .insert none
  free : ∀ f, table.place machine key = .insert (some f) →
    f < table.numEntries ∧ (table.entries f).free = true
  copies : ∀ f len, table.place machine key = .insert (some f) → table.putRehash f = some len →
    table.bound < table.population →
      CopiesFind machine (putLocked machine 1) table (List.range table.numEntries) table.bound
        (table.blank machine len)
  once : ∀ f len next, table.place machine key = .insert (some f) →
    table.putRehash f = some len → table.brehash machine (putLocked machine 1) len = .ok next →
      next.place machine key ≠ .insert none ∧
        ∀ slot, next.place machine key = .insert (some slot) → next.putRehash slot = none
  ends : putLocked machine 2 table key value ≠ .error .fuel

section

variable (wf : table.WellFormed machine)
include wf

theorem WellFormed.place_insert (inBand : outOfBand key = false)
    {f : Option Nat} (found : table.place machine key = .insert f) :
    ∃ slot, f = some slot ∧ slot < table.numEntries ∧ (table.entries slot).free = true := by
  have spec := place_spec machine table inBand
  rw [found] at spec
  obtain ⟨slot, first⟩ := wf.firstFree_some key
  exact ⟨slot, spec.1.trans first, wf.firstFree_lt first⟩

theorem WellFormed.laterBuckets_round (key : UInt64) :
    ∃ bits, table.numEntries = 2 ^ bits ∧
      Round bits machine.lineBits (table.laterBuckets machine key) (table.home key) := by
  obtain ⟨bits, power⟩ := wf.sized.power
  have large := wf.large
  rw [power] at large
  have nine := (Nat.pow_le_pow_iff_right (show 1 < 2 by decide)).mp (show 2 ^ 9 ≤ 2 ^ bits from large)
  have short := machine.lineBits_le
  have round := probes_round (show machine.lineBits ≤ bits by omega) (Feb.qtHash64 key)
  refine ⟨bits, power, ?_⟩
  rw [laterBuckets, home, step, wf.sized.mask, power, Machine.bucketmask, machine.bucketsize_eq]
  exact round

theorem WellFormed.occupied : table.population + table.deletes < table.numEntries := by
  have large := wf.large
  have near := tidyTrigger_near large
  have room := wf.room
  rw [wf.sized.tidy] at room
  omega

omit wf in
theorem copiesFind_room {total : Nat} (fits : table.population ≤ growTrigger total) {copy : Table}
    (slots : List Nat) (copied : Nat) (wf : copy.WellFormed machine)
    (size : copy.numEntries = total) (clean : copy.deletes = 0) (few : copy.population ≤ copied)
    (more : copied < table.population) :
    CopiesFind machine (putLocked machine 1) table slots copied copy := by
  induction slots generalizing copied copy with
  | nil => trivial
  | cons slot rest ih =>
    rw [CopiesFind]
    split
    case isFalse => exact ih copied wf size clean few more
    case isTrue live =>
      have grow : copy.population < copy.growSize := by
        rw [wf.sized.grow, size]
        omega
      have tidy : copy.population + copy.deletes ≤ copy.tidyUpSize := by
        have order := grow_le_tidy wf.large
        rw [wf.sized.grow] at grow
        rw [wf.sized.tidy, clean]
        omega
      refine ⟨fun nothing => ?_, fun f _ => putRehash_of_room grow tidy f, ?_⟩
      · obtain ⟨f, same, -⟩ := wf.place_insert (live_inBand.mp live) nothing
        cases same
      · intro code next stored unfinished
        obtain ⟨_, after, ran, sameSize, fewer, atMost⟩ := putLocked_room wf grow tidy 0
          (table.entries slot).key (table.entries slot).value
        rw [ran] at stored
        cases stored
        have kept := putLocked_keeps machine _ _ _ _ _ _ wf ran
        exact ih (copied + 1) kept (sameSize.trans size) (by omega) (by omega) (by omega)

theorem WellFormed.roomFor (inBand : outOfBand key = false)
    (value : UInt64) : table.RoomFor machine key value := by
  refine ⟨wf.laterBuckets_round key, wf.occupied, ?_, ?_, ?_, ?_, putLocked_fuel wf 0 value⟩
  · intro found
    obtain ⟨slot, same, -⟩ := wf.place_insert inBand found
    cases same
  · intro f found
    obtain ⟨slot, same, free⟩ := wf.place_insert inBand found
    cases same
    exact free
  · intro f len found rehash more
    have room := wf.putRehash_room rehash
    exact copiesFind_room room.le _ _ (.blank machine table (wf.putRehash_pos rehash)) rfl rfl
      (Nat.zero_le _) more
  · intro f len next found rehash copied
    have room := wf.putRehash_room rehash
    have positive := wf.putRehash_pos rehash
    have copies := @brehash_room _ table _ positive room.le 0
    rw [Nat.zero_add, copied] at copies
    obtain ⟨size, clean, population⟩ : next.numEntries = machine.roundEntries len ∧
        next.deletes = 0 ∧ next.population = table.population := by
      cases copies
      assumption
    have kept := brehash_wf (putLocked_keeps machine 1) positive copied
    have grow : next.population < next.growSize := by
      rw [population, kept.sized.grow, size]
      exact room
    have tidy : next.population + next.deletes ≤ next.tidyUpSize := by
      have order := grow_le_tidy kept.large
      rw [kept.sized.grow] at grow
      rw [kept.sized.tidy, clean]
      omega
    refine ⟨fun nothing => ?_, fun slot _ => putRehash_of_room grow tidy slot⟩
    obtain ⟨slot, same, -⟩ := kept.place_insert inBand nothing
    cases same

end

end Table

/-- A search comes by every bucket of a table once before it is back, and in every table that calls
lead to a put finds a slot and starts again once at most. -/
theorem probes_find_room {bits line : Nat} (buckets : 2 * 2 ^ line ≤ 2 ^ bits) (hashed : UInt64)
    (machine : Machine) (table : Table) (reached : Reachable machine table) (key value : UInt64)
    (inBand : outOfBand key = false) :
    Round bits line (probes bits line hashed)
        (hashed.toNat &&& Nat.ldiff (2 ^ bits - 1) (2 ^ line - 1)) ∧
      table.RoomFor machine key value := by
  have few : line < bits := by
    rw [← Nat.pow_succ'] at buckets
    exact (Nat.pow_le_pow_iff_right (by decide)).mp buckets
  exact ⟨probes_round few.le hashed, reached.wf.roomFor inBand value⟩

theorem probes_find_room_after_calls : ∃ table, Reachable commonMachine table ∧
    table.population = 2 ∧ table.deletes = 1 ∧
    Round 9 2 (probes 9 2 77) ((77 : UInt64).toNat &&& Nat.ldiff (2 ^ 9 - 1) (2 ^ 2 - 1)) ∧
    table.RoomFor commonMachine 5 7 := by
  obtain ⟨table, reached, counts⟩ := exists_reachable
    [.put 5 4, .put 69 6, .put 7 9, .remove 5] (fun table => (table.population, table.deletes)) (2, 1)
    (by decide +kernel)
  obtain ⟨population, deletes⟩ := Prod.mk.inj counts
  exact ⟨table, reached, population, deletes,
    probes_find_room (by decide) 77 commonMachine table reached 5 7 (by decide)⟩

end Qthreads.Hash
