import Qthreads.Hash.Geometry

namespace Qthreads.Hash

open Qthreads.Lib

variable {entry : Entry}

theorem live_iff : entry.live = true ↔ entry.key ≠ keyNull ∧ entry.key ≠ keyDeleted := by
  have zero : entry.key = 0 ↔ entry.key.toNat = 0 := UInt64.toNat_inj.symm
  have one : entry.key = 1 ↔ entry.key.toNat = 1 := UInt64.toNat_inj.symm
  have less : keyDeleted < entry.key ↔ 1 < entry.key.toNat := UInt64.lt_iff_toNat_lt
  rw [Entry.live, decide_eq_true_eq, less, keyNull, keyDeleted, Ne, Ne, zero, one]
  omega

theorem free_iff : entry.free = true ↔ entry.key = keyNull ∨ entry.key = keyDeleted := by
  simp only [Entry.free, decide_eq_true_eq]

theorem live_of_not_free (taken : entry.free = false) : entry.live = true := by
  rw [live_iff, ← not_or, ← free_iff, taken]
  exact Bool.false_ne_true

theorem inBand_iff {key : UInt64} : outOfBand key = false ↔ key ≠ keyNull ∧ key ≠ keyDeleted := by
  simp only [outOfBand, decide_eq_false_iff_not, not_or, ne_eq, and_comm]

theorem live_inBand : entry.live = true ↔ outOfBand entry.key = false := by
  rw [live_iff, inBand_iff]

def passes (entries : Nat → Entry) (slot : Nat) : Bool := (entries slot).key ≠ keyNull

theorem passes_iff {entries : Nat → Entry} {slot : Nat} :
    passes entries slot = true ↔ (entries slot).key ≠ keyNull := by
  simp only [passes, decide_eq_true_eq]

def holds (entries : Nat → Entry) (key : UInt64) (slot : Nat) : Bool := (entries slot).key = key

theorem holds_iff {entries : Nat → Entry} {key : UInt64} {slot : Nat} :
    holds entries key slot = true ↔ (entries slot).key = key := by
  simp only [holds, decide_eq_true_eq]

namespace Table

variable {machine : Machine} {entries : Nat → Entry} {key : UInt64}

theorem seek_eq (inBand : outOfBand key = false) (path : List Nat) :
    seek entries key path = (path.takeWhile (passes entries)).find? (holds entries key) := by
  have notNull := (inBand_iff.mp inBand).1
  induction path with
  | nil => rfl
  | cons slot rest ih =>
    rw [seek]
    by_cases here : (entries slot).key = key
    · have pass : passes entries slot = true := passes_iff.mpr (here ▸ notNull)
      rw [if_pos here, List.takeWhile_cons_of_pos pass,
        List.find?_cons_of_pos (holds_iff.mpr here)]
    · rw [if_neg here]
      by_cases null : (entries slot).key = keyNull
      · have stop : ¬ passes entries slot = true := fun pass => passes_iff.mp pass null
        rw [if_pos null, List.takeWhile_cons_of_neg stop]
        rfl
      · rw [if_neg null, List.takeWhile_cons_of_pos (passes_iff.mpr null),
          List.find?_cons_of_neg (fun same => here (holds_iff.mp same)), ih]

theorem scanBucket_eq (inBand : outOfBand key = false) (path : List Nat) (f : Option Nat) :
    scanBucket entries key path f =
      match (path.takeWhile (passes entries)).find? (holds entries key) with
      | some slot => .hit slot
      | none => .miss (f.or (path.find? fun slot => (entries slot).free)) := by
  have notNull := (inBand_iff.mp inBand).1
  induction path generalizing f with
  | nil => simp only [scanBucket, List.takeWhile_nil, List.find?_nil, Option.or_none]
  | cons slot rest ih =>
    rw [scanBucket]
    by_cases here : (entries slot).key = key
    · have pass : passes entries slot = true := passes_iff.mpr (here ▸ notNull)
      rw [if_pos here, List.takeWhile_cons_of_pos pass,
        List.find?_cons_of_pos (holds_iff.mpr here)]
    · have other : ¬ holds entries key slot = true := fun same => here (holds_iff.mp same)
      rw [if_neg here]
      by_cases deleted : (entries slot).key = keyDeleted
      · have pass : passes entries slot = true := passes_iff.mpr (by rw [deleted]; decide)
        have free : (entries slot).free = true := free_iff.mpr (.inr deleted)
        rw [if_pos deleted, ih, List.takeWhile_cons_of_pos pass, List.find?_cons_of_neg other]
        simp only [List.find?_cons, free, Option.or_assoc, Option.some_or]
      · rw [if_neg deleted]
        by_cases null : (entries slot).key = keyNull
        · have stop : ¬ passes entries slot = true := fun pass => passes_iff.mp pass null
          have free : (entries slot).free = true := free_iff.mpr (.inl null)
          rw [if_pos null, List.takeWhile_cons_of_neg stop]
          simp only [List.find?_nil, List.find?_cons, free]
        · have taken : (entries slot).free = false := by
            rw [Bool.eq_false_iff, Ne, free_iff]
            exact not_or.mpr ⟨null, deleted⟩
          rw [if_neg null, ih, List.takeWhile_cons_of_pos (passes_iff.mpr null),
            List.find?_cons_of_neg other]
          simp only [List.find?_cons, taken]

theorem scanBuckets_spec (machine : Machine) (entries : Nat → Entry) (inBand : outOfBand key = false) (buckets : List Nat) :
    match scanBuckets machine entries key buckets with
    | .hit slot => slot ∈ buckets.flatMap machine.slots ∧ (entries slot).key = key
    | .miss f => f = (buckets.flatMap machine.slots).find? fun slot => (entries slot).free := by
  induction buckets with
  | nil => rfl
  | cons bucket rest ih =>
    rw [scanBuckets, scanBucket_eq inBand, List.flatMap_cons]
    cases found : ((machine.slots bucket).takeWhile (passes entries)).find? (holds entries key) with
    | some slot =>
      have member := (List.takeWhile_prefix _).subset (List.mem_of_find?_eq_some found)
      exact ⟨List.mem_append_left _ member, holds_iff.mp (List.find?_some found)⟩
    | none =>
      cases free : (machine.slots bucket).find? fun slot => (entries slot).free with
      | some f => simp only [Option.none_or, List.find?_append, free, Option.some_or]
      | none =>
        simp only [Option.none_or, List.find?_append, free]
        cases later : scanBuckets machine entries key rest with
        | hit slot =>
          rw [later] at ih
          exact ⟨List.mem_append_right _ ih.1, ih.2⟩
        | miss f =>
          rw [later] at ih
          exact ih

def visible (machine : Machine) (table : Table) (key : UInt64) : List Nat :=
  (table.path machine key).takeWhile (passes table.entries)

def AtHome (machine : Machine) (table : Table) (key : UInt64) : Prop :=
  ∃ slot ∈ (machine.slots (table.home key)).takeWhile (passes table.entries),
    (table.entries slot).key = key

def firstFree (machine : Machine) (table : Table) (key : UInt64) : Option Nat :=
  (table.path machine key).find? fun slot => (table.entries slot).free

variable {table : Table}

theorem find_eq (inBand : outOfBand key = false) :
    table.find machine key = (table.visible machine key).find? (holds table.entries key) :=
  seek_eq inBand _

theorem find_some (inBand : outOfBand key = false) {slot : Nat}
    (found : table.find machine key = some slot) :
    slot ∈ table.visible machine key ∧ (table.entries slot).key = key := by
  rw [find_eq inBand] at found
  exact ⟨List.mem_of_find?_eq_some found, holds_iff.mp (List.find?_some found)⟩

theorem place_spec (machine : Machine) (table : Table) (inBand : outOfBand key = false) :
    match table.place machine key with
    | .collision => table.AtHome machine key
    | .overwrite slot =>
      slot ∈ table.path machine key ∧ (table.entries slot).key = key ∧
        ¬ table.AtHome machine key
    | .insert f => f = table.firstFree machine key ∧ ¬ table.AtHome machine key := by
  rw [place, scanBucket_eq inBand]
  cases found : ((machine.slots (table.home key)).takeWhile (passes table.entries)).find?
      (holds table.entries key) with
  | some slot =>
    exact ⟨slot, List.mem_of_find?_eq_some found, holds_iff.mp (List.find?_some found)⟩
  | none =>
    have away : ¬ table.AtHome machine key := by
      intro home
      obtain ⟨slot, here, same⟩ := home
      exact List.find?_eq_none.mp found slot here (holds_iff.mpr same)
    cases free : (machine.slots (table.home key)).find? fun slot => (table.entries slot).free with
    | some f =>
      refine ⟨?_, away⟩
      rw [firstFree, path, List.find?_append, free, Option.some_or]
    | none =>
      have rest : table.firstFree machine key =
          ((table.laterBuckets machine key).flatMap machine.slots).find?
            fun slot => (table.entries slot).free := by
        rw [firstFree, path, List.find?_append, free, Option.none_or]
      have later := scanBuckets_spec machine table.entries inBand (table.laterBuckets machine key)
      simp only [Option.none_or]
      cases scanned : scanBuckets machine table.entries key (table.laterBuckets machine key) with
      | hit slot =>
        rw [scanned] at later
        exact ⟨List.mem_append_right _ later.1, later.2, away⟩
      | miss f =>
        rw [scanned] at later
        exact ⟨later.trans rest.symm, away⟩

theorem place_home (inBand : outOfBand key = false) (home : table.AtHome machine key) :
    table.place machine key = .collision := by
  have spec := place_spec machine table inBand
  cases found : table.place machine key with
  | collision => rfl
  | overwrite slot =>
    rw [found] at spec
    exact absurd home spec.2.2
  | insert f =>
    rw [found] at spec
    exact absurd home spec.2

theorem place_absent (inBand : outOfBand key = false)
    (absent : ∀ slot ∈ table.path machine key, (table.entries slot).key ≠ key) :
    table.place machine key = .insert (table.firstFree machine key) := by
  have spec := place_spec machine table inBand
  cases found : table.place machine key with
  | collision =>
    rw [found] at spec
    obtain ⟨slot, here, same⟩ := spec
    have member := (List.takeWhile_prefix _).subset here
    exact absurd same (absent slot (List.mem_append_left _ member))
  | overwrite slot =>
    rw [found] at spec
    exact absurd spec.2.1 (absent slot spec.1)
  | insert f =>
    rw [found] at spec
    rw [spec.1]

def liveSlots (table : Table) : List Nat :=
  (List.range table.numEntries).filter fun slot => (table.entries slot).live

def deadSlots (table : Table) : List Nat :=
  (List.range table.numEntries).filter fun slot => (table.entries slot).key = keyDeleted

structure WellFormed (machine : Machine) (table : Table) : Prop where
  sized : table.Sized machine
  reach : ∀ slot < table.numEntries, (table.entries slot).live = true →
    slot ∈ table.visible machine (table.entries slot).key
  population : table.population = table.liveSlots.length
  deletes : table.deletes = table.deadSlots.length
  room : table.population + table.deletes ≤ table.tidyUpSize + 1

theorem mem_liveSlots {slot : Nat} :
    slot ∈ table.liveSlots ↔ slot < table.numEntries ∧ (table.entries slot).live = true := by
  rw [liveSlots, List.mem_filter, List.mem_range]

theorem write_self (slot : Nat) (entry : Entry) : (table.write slot entry).entries slot = entry :=
  Function.update_self ..

theorem write_other {slot other : Nat} (entry : Entry) (differs : other ≠ slot) :
    (table.write slot entry).entries other = table.entries other :=
  Function.update_of_ne differs ..

variable {before after : Nat → Bool}

theorem filter_gain {count slot : Nat} (inside : slot < count)
    (absent : before slot = false) (present : after slot = true)
    (others : ∀ other, other ≠ slot → after other = before other) :
    ((List.range count).filter after).Perm (slot :: (List.range count).filter before) := by
  have fresh : slot ∉ (List.range count).filter before := by
    rw [List.mem_filter, absent]
    exact fun found => Bool.false_ne_true found.2
  refine (List.perm_ext_iff_of_nodup (List.nodup_range.filter _)
    (List.nodup_cons.mpr ⟨fresh, List.nodup_range.filter _⟩)).mpr ?_
  intro other
  rw [List.mem_cons, List.mem_filter, List.mem_filter, List.mem_range]
  by_cases same : other = slot
  · subst same
    exact iff_of_true ⟨inside, present⟩ (.inl rfl)
  · rw [others other same]
    exact ⟨.inr, fun found => found.resolve_left same⟩

theorem filter_length_gain {count slot : Nat} (inside : slot < count)
    (absent : before slot = false) (present : after slot = true)
    (others : ∀ other, other ≠ slot → after other = before other) :
    ((List.range count).filter after).length = ((List.range count).filter before).length + 1 := by
  rw [(filter_gain inside absent present others).length_eq, List.length_cons]

theorem putRehash_cases {f len : Nat} (rehash : table.putRehash f = some len) :
    (table.growSize ≤ table.population ∧ len = table.numEntries * 2) ∨
      (table.population < table.growSize ∧ len = table.numEntries) := by
  rw [putRehash] at rehash
  split at rehash
  · split at rehash
    · exact .inl ⟨by assumption, (Option.some.inj rehash).symm⟩
    · split at rehash
      · exact .inr ⟨by omega, (Option.some.inj rehash).symm⟩
      · cases rehash
  · cases rehash

theorem putRehash_none {f : Nat} (null : (table.entries f).key = keyNull)
    (stays : table.putRehash f = none) :
    table.population < table.growSize ∧
      table.population + table.deletes ≤ table.tidyUpSize := by
  rw [putRehash, if_pos null] at stays
  split at stays
  · cases stays
  · split at stays
    · cases stays
    · omega

namespace WellFormed

theorem congr {other : Table} (wf : table.WellFormed machine)
    (entries : other.entries = table.entries) (mask : other.mask = table.mask)
    (total : other.numEntries = table.numEntries)
    (population : other.population = table.population) (deletes : other.deletes = table.deletes)
    (grow : other.growSize = table.growSize) (tidy : other.tidyUpSize = table.tidyUpSize) :
    other.WellFormed machine := by
  cases table
  cases other
  cases entries
  cases mask
  cases total
  cases population
  cases deletes
  cases grow
  cases tidy
  exact ⟨wf.sized.congr rfl rfl rfl rfl, wf.reach, wf.population, wf.deletes, wf.room⟩

theorem empty {table : Table} (sized : table.Sized machine)
    (clear : ∀ slot, (table.entries slot).key = keyNull) (population : table.population = 0)
    (deletes : table.deletes = 0) : table.WellFormed machine := by
  have noLive : table.liveSlots = [] := by
    refine List.filter_eq_nil_iff.mpr ?_
    intro slot _ live
    exact (live_iff.mp live).1 (clear slot)
  have noDead : table.deadSlots = [] := by
    refine List.filter_eq_nil_iff.mpr ?_
    intro slot _ dead
    rw [clear slot] at dead
    exact absurd dead (by decide)
  refine ⟨sized, ?_, by rw [population, noLive]; rfl, by rw [deletes, noDead]; rfl, by omega⟩
  intro slot _ live
  exact absurd (clear slot) (live_iff.mp live).1

section

variable (wf : table.WellFormed machine)
include wf

theorem large : 512 ≤ table.numEntries :=
  machine.minEntries_large.trans wf.sized.large

theorem null_slot : ∃ slot < table.numEntries, (table.entries slot).key = keyNull := by
  by_contra absent
  have full : ∀ slot < table.numEntries, (table.entries slot).key ≠ keyNull :=
    fun slot inside null => absent ⟨slot, inside, null⟩
  have dead : table.deadSlots =
      (List.range table.numEntries).filter fun slot => !(table.entries slot).live := by
    refine List.filter_congr ?_
    intro slot inside
    have taken := full slot (List.mem_range.mp inside)
    cases live : (table.entries slot).live with
    | true => exact decide_eq_false (live_iff.mp live).2
    | false =>
      refine decide_eq_true ?_
      by_contra other
      rw [live_iff.mpr ⟨taken, other⟩] at live
      cases live
  have total := (List.range table.numEntries).length_eq_length_filter_add
    fun slot => (table.entries slot).live
  rw [List.length_range] at total
  have population := wf.population
  have deletes := wf.deletes
  rw [dead] at deletes
  rw [liveSlots] at population
  have room := wf.room
  have large := wf.large
  have near := tidyTrigger_near large
  rw [wf.sized.tidy] at room
  omega

theorem firstFree_some (key : UInt64) : ∃ f, table.firstFree machine key = some f := by
  obtain ⟨slot, inside, null⟩ := wf.null_slot
  cases found : table.firstFree machine key with
  | some f => exact ⟨f, rfl⟩
  | none =>
    have taken := List.find?_eq_none.mp found slot (wf.sized.path_covers key inside)
    exact absurd (free_iff.mpr (.inl null)) taken

theorem firstFree_lt {f : Nat} (first : table.firstFree machine key = some f) :
    f < table.numEntries ∧ (table.entries f).free = true :=
  ⟨wf.sized.path_lt key f (List.mem_of_find?_eq_some first),
    List.find?_some (p := fun slot => (table.entries slot).free) first⟩

theorem putRehash_pos {f len : Nat} (rehash : table.putRehash f = some len) : 0 < len := by
  have large := wf.large
  rcases putRehash_cases rehash with grown | tidied
  · omega
  · omega

end

theorem visible_write {slot other : Nat} {entry : Entry} (taken : entry.key ≠ keyNull)
    (seen : other ∈ table.visible machine key) :
    other ∈ (table.write slot entry).visible machine key := by
  refine Probe.mem_takeWhile_mono ?_ seen
  intro place pass
  by_cases here : place = slot
  · rw [here, passes_iff, write_self]
    exact taken
  · rw [passes_iff, write_other entry here]
    exact passes_iff.mp pass

theorem overwrite (wf : table.WellFormed machine) (slot : Nat) (value : UInt64) :
    (table.write slot { table.entries slot with value := value }).WellFormed machine := by
  have keys : ∀ other,
      ((table.write slot { table.entries slot with value := value }).entries other).key =
        (table.entries other).key := by
    intro other
    by_cases here : other = slot
    · rw [here, write_self]
    · rw [write_other _ here]
  have live : ∀ other,
      ((table.write slot { table.entries slot with value := value }).entries other).live =
        (table.entries other).live := by
    intro other
    rw [Entry.live, Entry.live, keys]
  refine ⟨wf.sized.congr rfl rfl rfl rfl, ?_, ?_, ?_, wf.room⟩
  · intro other inside alive
    rw [live] at alive
    have seen := wf.reach other inside alive
    rw [keys]
    refine Probe.mem_takeWhile_mono ?_ seen
    intro place pass
    rw [passes_iff, keys]
    exact passes_iff.mp pass
  · rw [liveSlots]
    simp only [live]
    exact wf.population
  · rw [deadSlots]
    simp only [keys]
    exact wf.deletes

theorem occupy (wf : table.WellFormed machine) (inBand : outOfBand key = false) {f : Nat}
    (first : table.firstFree machine key = some f) (stays : table.putRehash f = none)
    (value : UInt64) : (table.occupy f key value).WellFormed machine := by
  obtain ⟨inside, free⟩ := wf.firstFree_lt first
  have band := inBand_iff.mp inBand
  have dead : (table.entries f).live = false := by
    rw [Bool.eq_false_iff, Ne, live_iff, ← not_or, not_not]
    exact free_iff.mp free
  have alive : Entry.live ⟨key, value⟩ = true := live_iff.mpr band
  have population : (table.write f ⟨key, value⟩).liveSlots.length = table.liveSlots.length + 1 := by
    refine filter_length_gain inside dead (by rw [write_self]; exact alive) ?_
    intro other differs
    rw [write_other _ differs]
  have seen : f ∈ (table.write f ⟨key, value⟩).visible machine key := by
    refine Probe.mem_takeWhile_find first ?_ ?_
    · intro other taken
      have differs : other ≠ f := by
        intro same
        rw [same, free] at taken
        cases taken
      rw [passes_iff, write_other _ differs]
      exact (live_iff.mp (live_of_not_free taken)).1
    · rw [passes_iff, write_self]
      exact band.1
  have reach : ∀ slot < table.numEntries,
      ((table.write f ⟨key, value⟩).entries slot).live = true →
      slot ∈ (table.write f ⟨key, value⟩).visible machine
        ((table.write f ⟨key, value⟩).entries slot).key := by
    intro slot there live
    by_cases here : slot = f
    · rw [here, write_self]
      exact seen
    · rw [write_other _ here] at live ⊢
      exact visible_write band.1 (wf.reach slot there live)
  have counted := wf.population
  have deletes := wf.deletes
  have room := wf.room
  by_cases null : (table.entries f).key = keyNull
  · have same : (table.write f ⟨key, value⟩).deadSlots = table.deadSlots := by
      refine List.filter_congr ?_
      intro slot _
      by_cases here : slot = f
      · rw [here, write_self, null]
        exact (decide_eq_false band.2).trans (decide_eq_false (by decide)).symm
      · rw [write_other _ here]
    have tidy := (putRehash_none null stays).2
    have kept : (table.occupy f key value).deletes = table.deletes := if_pos null
    refine ⟨wf.sized.congr rfl rfl rfl rfl, reach, ?_, ?_, ?_⟩
    · exact (congrArg (· + 1) counted).trans population.symm
    · rw [kept, deletes, ← same]
      rfl
    · rw [kept]
      simp only [Table.occupy, write]
      omega
  · have deleted : (table.entries f).key = keyDeleted := (free_iff.mp free).resolve_left null
    have fewer : table.deadSlots.length = (table.write f ⟨key, value⟩).deadSlots.length + 1 := by
      refine filter_length_gain inside ?_ (decide_eq_true deleted) ?_
      · rw [write_self]
        exact decide_eq_false band.2
      · intro other differs
        rw [write_other _ differs]
    have kept : (table.occupy f key value).deletes = table.deletes - 1 := if_neg null
    refine ⟨wf.sized.congr rfl rfl rfl rfl, reach, ?_, ?_, ?_⟩
    · exact (congrArg (· + 1) counted).trans population.symm
    · rw [kept, deletes, fewer, Nat.add_sub_cancel]
      rfl
    · rw [kept]
      simp only [Table.occupy, write]
      omega

theorem vacate (wf : table.WellFormed machine) {slot : Nat} (inside : slot < table.numEntries)
    (live : (table.entries slot).live = true) : (table.vacate slot).WellFormed machine := by
  have notNull : ({ table.entries slot with key := keyDeleted } : Entry).key ≠ keyNull :=
    (by decide : keyDeleted ≠ keyNull)
  have dead : ({ table.entries slot with key := keyDeleted } : Entry).live = false := rfl
  have fewer : table.liveSlots.length =
      (table.write slot { table.entries slot with key := keyDeleted }).liveSlots.length + 1 := by
    refine filter_length_gain inside (by rw [write_self]; exact dead) live ?_
    intro other differs
    rw [write_other _ differs]
  have more : (table.write slot { table.entries slot with key := keyDeleted }).deadSlots.length =
      table.deadSlots.length + 1 := by
    refine filter_length_gain inside (decide_eq_false (live_iff.mp live).2) ?_ ?_
    · rw [write_self]
      exact decide_eq_true rfl
    · intro other differs
      rw [write_other _ differs]
  have counted := wf.population
  have deletes := wf.deletes
  have room := wf.room
  refine ⟨wf.sized.congr rfl rfl rfl rfl, ?_, ?_, ?_, ?_⟩
  · intro other there alive
    by_cases here : other = slot
    · change ((table.write slot _).entries other).live = true at alive
      rw [here, write_self, dead] at alive
      cases alive
    · change ((table.write slot _).entries other).live = true at alive
      change other ∈ (table.write slot _).visible machine ((table.write slot _).entries other).key
      rw [write_other _ here] at alive ⊢
      exact visible_write notNull (wf.reach other there alive)
  · change table.population - 1 = (table.write slot _).liveSlots.length
    rw [counted, fewer, Nat.add_sub_cancel]
  · change table.deletes + 1 = (table.write slot _).deadSlots.length
    rw [deletes, more]
  · change table.population - 1 + (table.deletes + 1) ≤ table.tidyUpSize + 1
    have positive := List.length_pos_of_mem (mem_liveSlots.mpr ⟨inside, live⟩)
    omega

theorem blank (machine : Machine) (table : Table) {len : Nat} (positive : 0 < len) :
    (table.blank machine len).WellFormed machine := by
  have sized := internalCreate_sized machine positive
  exact empty (sized.congr rfl rfl rfl rfl) (fun _ => rfl) rfl rfl

end WellFormed

def Put.Keeps (machine : Machine) (put : Put) : Prop :=
  ∀ table key value code after, table.WellFormed machine →
    put table key value = .ok (code, after) → after.WellFormed machine

theorem copyEntries_wf {put : Put} (keeps : put.Keeps machine) (slots : List Nat) (copied : Nat)
    {copy after : Table} (wf : copy.WellFormed machine)
    (done : copyEntries put table slots copied copy = .ok after) : after.WellFormed machine := by
  induction slots generalizing copied copy with
  | nil =>
    cases done
    exact wf
  | cons slot rest ih =>
    rw [copyEntries] at done
    split at done
    · split at done
      · cases done
      · rename_i code next stored
        have kept := keeps _ _ _ _ _ wf stored
        split at done
        · cases done
        · split at done
          · cases done
            exact kept
          · exact ih _ kept done
    · exact ih _ wf done

theorem brehash_wf {put : Put} (keeps : put.Keeps machine) {len : Nat} (positive : 0 < len)
    {after : Table} (done : table.brehash machine put len = .ok after) :
    after.WellFormed machine := by
  rw [brehash] at done
  have fresh := WellFormed.blank machine table positive
  split at done
  · cases done
  · rename_i copy copied
    split at done
    · cases done
      have kept : copy.WellFormed machine := by
        rw [copyAll] at copied
        split at copied
        · exact copyEntries_wf keeps _ _ fresh copied
        · cases copied
          exact fresh
      exact kept.congr rfl rfl rfl rfl rfl rfl rfl
    · cases done

theorem putLocked_keeps (machine : Machine) (fuel : Nat) : (putLocked machine fuel).Keeps machine := by
  induction fuel with
  | zero => nofun
  | succ fuel ih =>
    intro table key value code after wf done
    rw [putLocked] at done
    cases band : outOfBand key with
    | true =>
      rw [band, if_pos rfl, Except.ok.injEq, putOutOfBand] at done
      split at done
      · cases done
        exact wf
      · cases done
        exact wf.congr rfl rfl rfl rfl rfl rfl rfl
    | false =>
      have spec := place_spec machine table band
      rw [band, if_neg Bool.false_ne_true] at done
      cases found : table.place machine key with
      | collision =>
        rw [found] at done
        cases done
        exact wf
      | overwrite slot =>
        rw [found] at done
        cases done
        exact wf.overwrite slot value
      | insert f =>
        rw [found] at done spec
        cases f with
        | none => cases done
        | some f =>
          simp only at done
          cases rehash : table.putRehash f with
          | none =>
            rw [rehash] at done
            cases done
            exact wf.occupy band spec.1.symm rehash value
          | some len =>
            have positive := wf.putRehash_pos rehash
            simp only [rehash] at done
            cases copied : table.brehash machine (putLocked machine fuel) len with
            | error stop =>
              rw [copied] at done
              cases done
            | ok next =>
              rw [copied] at done
              exact ih _ _ _ _ _ (brehash_wf ih positive copied) done

end Table

end Qthreads.Hash
