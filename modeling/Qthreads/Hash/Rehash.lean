import Qthreads.Hash.Invariant

namespace Qthreads.Hash.Table

variable {machine : Machine} {table : Table} {key : UInt64}

theorem grow_le_tidy {entries : Nat} (large : 512 ≤ entries) :
    growTrigger entries ≤ tidyTrigger entries := by
  have grow := growTrigger_near large
  have tidy := tidyTrigger_near large
  omega

namespace WellFormed

theorem round_same (wf : table.WellFormed machine) :
    machine.roundEntries table.numEntries = table.numEntries := by
  obtain ⟨bits, power⟩ := wf.sized.power
  have large := wf.sized.large
  rw [power] at large ⊢
  exact roundEntries_pow large

theorem round_double (wf : table.WellFormed machine) :
    machine.roundEntries (table.numEntries * 2) = table.numEntries * 2 := by
  obtain ⟨bits, power⟩ := wf.sized.power
  have large := wf.sized.large
  rw [power] at large
  have more : machine.minEntries ≤ 2 ^ (bits + 1) := by
    rw [Nat.pow_succ]
    omega
  rw [power, ← Nat.pow_succ]
  exact roundEntries_pow more

theorem putRehash_room (wf : table.WellFormed machine) {f len : Nat}
    (rehash : table.putRehash f = some len) :
    table.population < growTrigger (machine.roundEntries len) := by
  have large := wf.large
  rcases putRehash_cases rehash with ⟨-, same⟩ | ⟨below, same⟩
  · rw [same, wf.round_double]
    have room := wf.room
    rw [wf.sized.tidy] at room
    have tidy := tidyTrigger_near large
    have grow := growTrigger_near (show 512 ≤ table.numEntries * 2 by omega)
    omega
  · rw [same, wf.round_same, ← wf.sized.grow]
    exact below

end WellFormed

theorem putRehash_of_room (grow : table.population < table.growSize)
    (tidy : table.population + table.deletes ≤ table.tidyUpSize) (f : Nat) :
    table.putRehash f = none := by
  have big : ¬ table.growSize ≤ table.population := by omega
  have many : ¬ table.tidyUpSize < table.population + table.deletes := by omega
  rw [putRehash, if_neg big, if_neg many, ite_self]

theorem putLocked_room (wf : table.WellFormed machine) (grow : table.population < table.growSize)
    (tidy : table.population + table.deletes ≤ table.tidyUpSize) (fuel : Nat)
    (key value : UInt64) :
    ∃ code after, putLocked machine (fuel + 1) table key value = .ok (code, after) ∧
      after.numEntries = table.numEntries ∧ after.deletes ≤ table.deletes ∧
      after.population ≤ table.population + 1 := by
  rw [putLocked]
  cases band : outOfBand key with
  | true =>
    rw [if_pos rfl, putOutOfBand]
    split
    · exact ⟨_, _, rfl, rfl, le_refl _, Nat.le_succ _⟩
    · exact ⟨_, _, rfl, rfl, le_refl _, Nat.le_succ _⟩
  | false =>
    have spec := place_spec machine table band
    rw [if_neg Bool.false_ne_true]
    cases found : table.place machine key with
    | collision => exact ⟨_, _, rfl, rfl, le_refl _, Nat.le_succ _⟩
    | overwrite slot => exact ⟨_, _, rfl, rfl, le_refl _, Nat.le_succ _⟩
    | insert f =>
      rw [found] at spec
      obtain ⟨first, present⟩ := wf.firstFree_some key
      rw [spec.1, present]
      simp only [putRehash_of_room grow tidy]
      refine ⟨_, _, rfl, rfl, ?_, le_refl _⟩
      simp only [occupy]
      split
      · exact le_refl _
      · exact Nat.sub_le _ _

inductive Outcome (described : Table → Prop) : Except Stop Table → Prop where
  | returns {after : Table} : described after → Outcome described (.ok after)
  | asserts : Outcome described (.error .assertion)

variable {copy : Table}

theorem copyEntries_room {total : Nat} (fits : table.population ≤ growTrigger total) (fuel : Nat)
    (slots : List Nat) (copied : Nat) (wf : copy.WellFormed machine)
    (size : copy.numEntries = total) (clean : copy.deletes = 0) (few : copy.population ≤ copied)
    (more : copied < table.population) :
    Outcome (fun after => after.numEntries = total ∧ after.deletes = 0)
      (copyEntries (putLocked machine (fuel + 1)) table slots copied copy) := by
  induction slots generalizing copied copy with
  | nil => exact .returns ⟨size, clean⟩
  | cons slot rest ih =>
    rw [copyEntries]
    split
    · have large := wf.large
      have grow : copy.population < copy.growSize := by
        rw [wf.sized.grow, size]
        omega
      have tidy : copy.population + copy.deletes ≤ copy.tidyUpSize := by
        have order := grow_le_tidy large
        rw [wf.sized.grow] at grow
        rw [wf.sized.tidy, clean]
        omega
      obtain ⟨code, next, stored, sameSize, fewer, atMost⟩ :=
        putLocked_room wf grow tidy fuel (table.entries slot).key
          (table.entries slot).value
      have kept := putLocked_keeps machine _ _ _ _ _ _ wf stored
      rw [stored]
      simp only
      split
      · exact .asserts
      · split
        · exact .returns ⟨sameSize.trans size, by omega⟩
        · exact ih (copied + 1) kept (sameSize.trans size) (by omega) (by omega) (by omega)
    · exact ih copied wf size clean few more

variable {len : Nat}

theorem brehash_room (positive : 0 < len)
    (fits : table.population ≤ growTrigger (machine.roundEntries len)) (fuel : Nat) :
    Outcome
      (fun after => after.numEntries = machine.roundEntries len ∧ after.deletes = 0 ∧
        after.population = table.population)
      (table.brehash machine (putLocked machine (fuel + 1)) len) := by
  have copies : Outcome
      (fun after => after.numEntries = machine.roundEntries len ∧ after.deletes = 0)
      (table.copyAll machine (putLocked machine (fuel + 1)) len) := by
    rw [copyAll]
    by_cases less : table.bound < table.population
    · rw [if_pos less]
      exact copyEntries_room fits fuel _ _ (WellFormed.blank machine table positive) rfl rfl
        (Nat.zero_le _) less
    · rw [if_neg less]
      exact .returns ⟨rfl, rfl⟩
  rw [brehash]
  generalize table.copyAll machine (putLocked machine (fuel + 1)) len = result at copies
  cases copies with
  | asserts => exact .asserts
  | returns shape =>
    simp only
    split
    · rename_i same
      exact .returns ⟨shape.1, shape.2, same.symm⟩
    · exact .asserts

theorem putLocked_fuel (wf : table.WellFormed machine) (fuel : Nat) (value : UInt64) :
    putLocked machine (fuel + 2) table key value ≠ .error .fuel := by
  rw [putLocked]
  cases band : outOfBand key with
  | true => rintro ⟨⟩
  | false =>
    rw [if_neg Bool.false_ne_true]
    cases found : table.place machine key with
    | collision => rintro ⟨⟩
    | overwrite slot => rintro ⟨⟩
    | insert f =>
      cases f with
      | none => rintro ⟨⟩
      | some f =>
        simp only
        cases rehash : table.putRehash f with
        | none => rintro ⟨⟩
        | some len =>
          have room := wf.putRehash_room rehash
          have positive := wf.putRehash_pos rehash
          have copies := brehash_room positive room.le fuel
          simp only
          generalize copied : table.brehash machine (putLocked machine (fuel + 1)) len =
            result at copies
          cases copies with
          | asserts => rintro ⟨⟩
          | @returns next shape =>
            obtain ⟨size, clean, population⟩ := shape
            have kept := brehash_wf (putLocked_keeps machine _) positive copied
            have grow : next.population < next.growSize := by
              rw [population, kept.sized.grow, size]
              exact room
            have tidy : next.population + next.deletes ≤ next.tidyUpSize := by
              have order := grow_le_tidy kept.large
              rw [kept.sized.grow] at grow
              rw [kept.sized.tidy, clean]
              omega
            obtain ⟨code, after, stored, -⟩ := putLocked_room kept grow tidy fuel
              key value
            simp only [stored]
            rintro ⟨⟩

theorem copyEntries_fuel (fuel : Nat) (slots : List Nat) (copied : Nat)
    (wf : copy.WellFormed machine) :
    copyEntries (putLocked machine (fuel + 2)) table slots copied copy ≠ .error .fuel := by
  induction slots generalizing copied copy with
  | nil => rintro ⟨⟩
  | cons slot rest ih =>
    rw [copyEntries]
    split
    · cases stored : putLocked machine (fuel + 2) copy (table.entries slot).key
          (table.entries slot).value with
      | error stop =>
        intro failed
        cases failed
        exact putLocked_fuel wf fuel _ stored
      | ok result =>
        have kept := putLocked_keeps machine _ _ _ _ _ _ wf stored
        simp only
        split
        · rintro ⟨⟩
        · split
          · rintro ⟨⟩
          · exact ih _ kept
    · exact ih _ wf

theorem brehash_fuel (table : Table) (positive : 0 < len) (fuel : Nat) :
    table.brehash machine (putLocked machine (fuel + 2)) len ≠ .error .fuel := by
  rw [brehash]
  split
  · rename_i stop failed
    rw [copyAll] at failed
    split at failed
    · intro same
      cases same
      exact copyEntries_fuel fuel _ _ (WellFormed.blank machine table positive) failed
    · cases failed
  · split
    · rintro ⟨⟩
    · rintro ⟨⟩

def NoKeyTwice (table : Table) : Prop :=
  ∀ slot < table.numEntries, ∀ other < table.numEntries, (table.entries slot).live = true →
    (table.entries slot).key = (table.entries other).key → slot = other

def Stores (table : Table) (entry : Entry) : Prop :=
  entry.live = true ∧ ∃ slot < table.numEntries, table.entries slot = entry

def Absent (table : Table) (key : UInt64) : Prop := ∀ value, ¬ table.Stores ⟨key, value⟩

structure Extends (machine : Machine) (before after : Table) (entry : Entry) : Prop where
  wf : after.WellFormed machine
  once : after.NoKeyTwice
  stores : ∀ other, after.Stores other ↔ before.Stores other ∨ other = entry
  population : after.population = before.population + 1
  hasKey : after.hasKey = before.hasKey
  value : after.value = before.value

structure Same (machine : Machine) (before after : Table) : Prop where
  wf : after.WellFormed machine
  once : after.NoKeyTwice
  stores : ∀ entry, after.Stores entry ↔ before.Stores entry
  population : after.population = before.population
  hasKey : after.hasKey = before.hasKey
  value : after.value = before.value

theorem stores_of_slot {slot : Nat} (inside : slot < table.numEntries)
    (live : (table.entries slot).live = true) : table.Stores (table.entries slot) :=
  ⟨live, slot, inside, rfl⟩

theorem Absent.slot (absent : table.Absent key) (inBand : outOfBand key = false) {slot : Nat}
    (inside : slot < table.numEntries) : (table.entries slot).key ≠ key := by
  intro same
  have live : (table.entries slot).live = true := live_inBand.mpr (same ▸ inBand)
  have stored := stores_of_slot inside live
  rw [← same] at absent
  exact absent (table.entries slot).value stored

theorem place_of_absent (wf : table.WellFormed machine) (inBand : outOfBand key = false)
    (absent : table.Absent key) :
    table.place machine key = .insert (table.firstFree machine key) :=
  place_absent inBand fun slot listed =>
    absent.slot inBand (wf.sized.path_lt key slot listed)

theorem occupy_extends (wf : table.WellFormed machine) (once : table.NoKeyTwice)
    (inBand : outOfBand key = false) (absent : table.Absent key) {f : Nat}
    (first : table.firstFree machine key = some f) (stays : table.putRehash f = none)
    (value : UInt64) : Extends machine table (table.occupy f key value) ⟨key, value⟩ := by
  obtain ⟨inside, free⟩ := wf.firstFree_lt first
  have alive : Entry.live ⟨key, value⟩ = true := live_inBand.mpr inBand
  have here : (table.occupy f key value).entries f = ⟨key, value⟩ := write_self ..
  have away : ∀ slot, slot ≠ f →
      (table.occupy f key value).entries slot = table.entries slot :=
    fun slot differs => write_other _ differs
  refine ⟨wf.occupy inBand first stays value, ?_, ?_, rfl, rfl, rfl⟩
  · intro slot there other within live same
    by_cases left : slot = f
    · by_cases right : other = f
      · rw [left, right]
      · rw [left, here, away other right] at same
        exact absurd same.symm (absent.slot inBand within)
    · rw [away slot left] at live same
      by_cases right : other = f
      · rw [right, here] at same
        exact absurd same (absent.slot inBand there)
      · rw [away other right] at same
        exact once slot there other within live same
  · intro entry
    constructor
    · intro stored
      obtain ⟨live, slot, there, rfl⟩ := stored
      by_cases left : slot = f
      · rw [left]
        exact .inr here
      · rw [away slot left] at live ⊢
        exact .inl (stores_of_slot there live)
    · intro stored
      rcases stored with ⟨live, slot, there, same⟩ | rfl
      · refine ⟨live, slot, there, ?_⟩
        have left : slot ≠ f := by
          intro left
          rw [left] at same
          rw [same, Entry.free] at free
          exact absurd (of_decide_eq_true free) (not_or.mpr (live_iff.mp live))
        rw [away slot left, same]
      · exact ⟨alive, f, inside, here⟩

theorem putLocked_extends_room (wf : table.WellFormed machine) (once : table.NoKeyTwice)
    (inBand : outOfBand key = false) (absent : table.Absent key)
    (grow : table.population < table.growSize)
    (tidy : table.population + table.deletes ≤ table.tidyUpSize) (fuel : Nat) (value : UInt64) :
    ∃ after, putLocked machine (fuel + 1) table key value = .ok (1, after) ∧
      Extends machine table after ⟨key, value⟩ ∧ after.numEntries = table.numEntries ∧
      after.deletes ≤ table.deletes := by
  obtain ⟨f, first⟩ := wf.firstFree_some key
  have stays := putRehash_of_room grow tidy f
  refine ⟨table.occupy f key value, ?_, occupy_extends wf once inBand absent first stays value,
    rfl, ?_⟩
  · rw [putLocked, inBand, if_neg Bool.false_ne_true, place_of_absent wf inBand absent, first]
    simp only [stays]
  · simp only [occupy]
    split
    · exact le_refl _
    · exact Nat.sub_le _ _

def liveAmong (table : Table) (slots : List Nat) : List Nat :=
  slots.filter fun slot => (table.entries slot).live

theorem copyEntries_exact {put : Put} {shape : Table → Prop}
    (works : ∀ copy entry, copy.WellFormed machine → copy.NoKeyTwice → shape copy →
      copy.population < table.population → entry.live = true → copy.Absent entry.key →
      ∃ after, put copy entry.key entry.value = .ok (1, after) ∧
        Extends machine copy after entry ∧ shape after)
    (once : table.NoKeyTwice) (slots : List Nat) (distinct : slots.Nodup)
    (inside : ∀ slot ∈ slots, slot < table.numEntries)
    (wf : copy.WellFormed machine) (single : copy.NoKeyTwice) (shaped : shape copy)
    (fresh : ∀ slot ∈ slots, (table.entries slot).live = true →
      copy.Absent (table.entries slot).key)
    (left : copy.population + (table.liveAmong slots).length = table.population) :
    ∃ after, copyEntries put table slots copy.population copy = .ok after ∧
      after.WellFormed machine ∧ after.NoKeyTwice ∧ shape after ∧
      after.population = table.population ∧ after.hasKey = copy.hasKey ∧
      after.value = copy.value ∧
      ∀ entry, after.Stores entry ↔ copy.Stores entry ∨
        ∃ slot ∈ slots, (table.entries slot).live = true ∧ table.entries slot = entry := by
  induction slots generalizing copy with
  | nil =>
    refine ⟨copy, rfl, wf, single, shaped, left, rfl, rfl, ?_⟩
    intro entry
    simp only [List.not_mem_nil, false_and, exists_false, or_false]
  | cons slot rest ih =>
    obtain ⟨apart, distinct⟩ := List.nodup_cons.mp distinct
    have inRest : ∀ other ∈ rest, other < table.numEntries :=
      fun other listed => inside other (List.mem_cons_of_mem _ listed)
    have here := inside slot List.mem_cons_self
    cases live : (table.entries slot).live with
    | false =>
      have skipped : table.liveAmong (slot :: rest) = table.liveAmong rest :=
        List.filter_cons_of_neg (by rw [live]; exact Bool.false_ne_true)
      rw [skipped] at left
      obtain ⟨after, copied, kept, unique, formed, population, hasKey, value, stores⟩ :=
        ih distinct inRest wf single shaped
          (fun other listed => fresh other (List.mem_cons_of_mem _ listed)) left
      refine ⟨after, ?_, kept, unique, formed, population, hasKey, value, ?_⟩
      · rw [copyEntries, live, if_neg Bool.false_ne_true]
        exact copied
      · intro entry
        rw [stores entry]
        simp only [List.mem_cons, or_and_right, exists_or, exists_eq_left, live,
          Bool.false_eq_true, false_and, false_or]
    | true =>
      have counted : table.liveAmong (slot :: rest) = slot :: table.liveAmong rest :=
        List.filter_cons_of_pos live
      rw [counted, List.length_cons] at left
      obtain ⟨next, stored, extended, formed⟩ := works copy (table.entries slot) wf single shaped
        (by omega) live (fresh slot List.mem_cons_self live)
      have population := extended.population
      rw [copyEntries, live, if_pos rfl, stored]
      simp only [if_neg (show ¬ 1 = putCollision by decide)]
      by_cases last : copy.population + 1 = table.population
      · have empty : table.liveAmong rest = [] := by
          apply List.eq_nil_of_length_eq_zero
          omega
        have dead : ∀ other ∈ rest, ¬ (table.entries other).live = true :=
          List.filter_eq_nil_iff.mp empty
        rw [if_pos last]
        refine ⟨next, rfl, extended.wf, extended.once, formed, by omega, extended.hasKey,
          extended.value, ?_⟩
        intro entry
        rw [extended.stores entry]
        refine or_congr_right ?_
        constructor
        · intro same
          exact ⟨slot, List.mem_cons_self, live, same.symm⟩
        · intro found
          obtain ⟨other, listed, alive, same⟩ := found
          rcases List.mem_cons.mp listed with rfl | later
          · exact same.symm
          · exact absurd alive (dead other later)
      · rw [if_neg last, ← population]
        have others : ∀ other ∈ rest, (table.entries other).live = true →
            next.Absent (table.entries other).key := by
          intro other listed alive value found
          rcases (extended.stores _).mp found with old | new
          · exact fresh other (List.mem_cons_of_mem _ listed) alive value old
          · have same := congrArg Entry.key new
            have equal := once other (inRest other listed) slot here alive same
            exact apart (equal ▸ listed)
        obtain ⟨after, copied, kept, unique, formed, total, hasKey, value, stores⟩ :=
          ih distinct inRest extended.wf extended.once formed others (by omega)
        refine ⟨after, copied, kept, unique, formed, total, hasKey.trans extended.hasKey,
          value.trans extended.value, ?_⟩
        intro entry
        rw [stores entry, extended.stores entry, or_assoc]
        refine or_congr_right ?_
        simp only [List.mem_cons, or_and_right, exists_or, exists_eq_left, live, true_and]
        exact or_congr_left eq_comm

theorem brehash_exact {put : Put} {shape : Table → Prop} (positive : 0 < len)
    (works : table.bound = 0 → ∀ copy entry, copy.WellFormed machine → copy.NoKeyTwice →
      copy.hasKey = table.hasKey ∧ shape copy →
      copy.population < table.population → entry.live = true → copy.Absent entry.key →
      ∃ after, put copy entry.key entry.value = .ok (1, after) ∧
        Extends machine copy after entry ∧ after.hasKey = table.hasKey ∧ shape after)
    (blank : shape (table.blank machine len)) (kept : ∀ copy : Table, shape copy →
      shape { copy with shrinkSize := table.shrinkSize })
    (wf : table.WellFormed machine) (once : table.NoKeyTwice)
    (clear : table.bound = 0 ∨ table.population = 0) :
    ∃ after, table.brehash machine put len = .ok after ∧ Same machine table after ∧
      shape after := by
  have fresh := WellFormed.blank machine table positive
  have nothing : ∀ entry, ¬ (table.blank machine len).Stores entry := by
    intro entry stored
    obtain ⟨live, slot, -, rfl⟩ := stored
    exact (live_iff.mp live).1 rfl
  have single : (table.blank machine len).NoKeyTwice := by
    intro slot _ other _ live
    exact absurd rfl (live_iff.mp live).1
  have all : table.liveAmong (List.range table.numEntries) = table.liveSlots := rfl
  by_cases zero : table.population = 0
  · have noneLive : ∀ entry, ¬ table.Stores entry := by
      intro entry stored
      obtain ⟨live, slot, inside, rfl⟩ := stored
      have counted := List.length_pos_of_mem (mem_liveSlots.mpr ⟨inside, live⟩)
      have population := wf.population
      omega
    refine ⟨{ table.blank machine len with shrinkSize := table.shrinkSize }, ?_,
      ⟨fresh.congr rfl rfl rfl rfl rfl rfl rfl, single, ?_, zero.symm, rfl, rfl⟩, kept _ blank⟩
    · rw [brehash, copyAll, if_neg (by omega)]
      exact if_pos zero
    · intro entry
      exact iff_of_false (nothing entry) (noneLive entry)
  · have unbound := clear.resolve_right zero
    have copies := copyEntries_exact (works unbound) once (List.range table.numEntries)
      List.nodup_range (fun slot => List.mem_range.mp) fresh single ⟨rfl, blank⟩
      (fun _ _ _ _ stored => nothing _ stored)
      (by rw [all, ← wf.population]; exact Nat.zero_add _)
    obtain ⟨copy, copied, formed, unique, shaped, population, hasKey, value, stores⟩ := copies
    refine ⟨{ copy with shrinkSize := table.shrinkSize }, ?_,
      ⟨formed.congr rfl rfl rfl rfl rfl rfl rfl, unique, ?_, population, hasKey, value⟩,
      kept _ shaped.2⟩
    · have started : table.copyAll machine put len = .ok copy := by
        rw [copyAll, if_pos (by omega), unbound]
        exact copied
      rw [brehash, started]
      exact if_pos population.symm
    · intro entry
      refine (stores entry).trans ?_
      constructor
      · intro found
        rcases found with stored | ⟨slot, listed, live, rfl⟩
        · exact absurd stored (nothing entry)
        · exact stores_of_slot (List.mem_range.mp listed) live
      · intro stored
        obtain ⟨live, slot, inside, rfl⟩ := stored
        exact .inr ⟨slot, List.mem_range.mpr inside, live, rfl⟩

theorem bound_eq_zero : table.bound = 0 ↔
    table.hasKey keyNull = false ∧ table.hasKey keyDeleted = false := by
  rw [bound, Nat.add_eq_zero_iff, Bool.toNat_eq_zero, Bool.toNat_eq_zero]

theorem brehash_exact_room (wf : table.WellFormed machine) (once : table.NoKeyTwice)
    (clear : table.bound = 0 ∨ table.population = 0) (positive : 0 < len)
    (fits : table.population ≤ growTrigger (machine.roundEntries len)) (fuel : Nat) :
    ∃ after, table.brehash machine (putLocked machine (fuel + 1)) len = .ok after ∧
      Same machine table after ∧ after.numEntries = machine.roundEntries len ∧
      after.deletes = 0 := by
  refine brehash_exact positive ?_ ⟨rfl, rfl⟩ (fun _ shaped => shaped) wf once clear
  intro _ copy entry formed single shaped fewer live absent
  obtain ⟨hasKey, size, clean⟩ := shaped
  have grow : copy.population < copy.growSize := by
    rw [formed.sized.grow, size]
    omega
  have tidy : copy.population + copy.deletes ≤ copy.tidyUpSize := by
    have order := grow_le_tidy formed.large
    rw [formed.sized.grow] at grow
    rw [formed.sized.tidy, clean]
    omega
  obtain ⟨after, stored, extended, sameSize, less⟩ := putLocked_extends_room formed single
    (live_inBand.mp live) absent grow tidy fuel entry.value
  exact ⟨after, stored, extended, extended.hasKey.trans hasKey, sameSize.trans size, by omega⟩

def PutClear (machine : Machine) (table : Table) (key : UInt64) : Prop :=
  (table.firstFree machine key).bind table.putRehash ≠ none →
    table.bound = 0 ∨ table.population = 0

theorem putLocked_extends (wf : table.WellFormed machine) (once : table.NoKeyTwice)
    (inBand : outOfBand key = false) (absent : table.Absent key)
    (clear : table.PutClear machine key) (fuel : Nat) (value : UInt64) :
    ∃ after, putLocked machine (fuel + 2) table key value = .ok (1, after) ∧
      Extends machine table after ⟨key, value⟩ := by
  obtain ⟨f, first⟩ := wf.firstFree_some key
  rw [putLocked, inBand, if_neg Bool.false_ne_true, place_of_absent wf inBand absent, first]
  simp only
  cases rehash : table.putRehash f with
  | none => exact ⟨_, rfl, occupy_extends wf once inBand absent first rehash value⟩
  | some len =>
    have room := wf.putRehash_room rehash
    have bound := clear (by rw [first, Option.bind_some, rehash]; rintro ⟨⟩)
    obtain ⟨next, copied, same, size, clean⟩ := brehash_exact_room wf once
      bound (wf.putRehash_pos rehash) room.le fuel
    have grow : next.population < next.growSize := by
      rw [same.population, same.wf.sized.grow, size]
      exact room
    have tidy : next.population + next.deletes ≤ next.tidyUpSize := by
      have order := grow_le_tidy same.wf.large
      rw [same.wf.sized.grow] at grow
      rw [same.wf.sized.tidy, clean]
      omega
    have stillAbsent : next.Absent key :=
      fun other stored => absent other ((same.stores _).mp stored)
    obtain ⟨after, stored, extended, -⟩ := putLocked_extends_room same.wf same.once inBand
      stillAbsent grow tidy fuel value
    refine ⟨after, ?_, extended.wf, extended.once, ?_, ?_, ?_, ?_⟩
    · simp only [copied, stored]
    · intro entry
      rw [extended.stores, same.stores]
    · rw [extended.population, same.population]
    · rw [extended.hasKey, same.hasKey]
    · rw [extended.value, same.value]

theorem brehash_same (wf : table.WellFormed machine) (once : table.NoKeyTwice)
    (clear : table.bound = 0 ∨ table.population = 0) (positive : 0 < len)
    (fuel : Nat) :
    ∃ after, table.brehash machine (putLocked machine (fuel + 2)) len = .ok after ∧
      Same machine table after := by
  have copies : ∃ after, table.brehash machine (putLocked machine (fuel + 2)) len = .ok after ∧
      Same machine table after ∧ True := by
    refine brehash_exact positive ?_ trivial (fun _ _ => trivial) wf once clear
    intro unbound copy entry formed single shaped _ live absent
    have still : copy.bound = 0 := by
      rw [bound_eq_zero, shaped.1, ← bound_eq_zero]
      exact unbound
    obtain ⟨after, stored, extended⟩ := putLocked_extends formed single (live_inBand.mp live)
      absent (fun _ => .inl still) fuel entry.value
    exact ⟨after, stored, extended, extended.hasKey.trans shaped.1, trivial⟩
  obtain ⟨after, copied, same, -⟩ := copies
  exact ⟨after, copied, same⟩

theorem copyEntries_short {total : Nat} (fits : table.population ≤ growTrigger total) (fuel : Nat)
    (slots : List Nat) (copied : Nat) {copy after : Table} (wf : copy.WellFormed machine)
    (size : copy.numEntries = total) (clean : copy.deletes = 0) (fewer : copy.population < copied)
    (more : copied < table.population)
    (done : copyEntries (putLocked machine (fuel + 1)) table slots copied copy = .ok after) :
    after.population < table.population := by
  induction slots generalizing copied copy with
  | nil =>
    cases done
    omega
  | cons slot rest ih =>
    rw [copyEntries] at done
    split at done
    · have large := wf.large
      have grow : copy.population < copy.growSize := by
        rw [wf.sized.grow, size]
        omega
      have tidy : copy.population + copy.deletes ≤ copy.tidyUpSize := by
        have order := grow_le_tidy large
        rw [wf.sized.grow] at grow
        rw [wf.sized.tidy, clean]
        omega
      obtain ⟨code, next, stored, sameSize, atMost, atMost⟩ :=
        putLocked_room wf grow tidy fuel (table.entries slot).key (table.entries slot).value
      have kept := putLocked_keeps machine _ _ _ _ _ _ wf stored
      rw [stored] at done
      simp only at done
      split at done
      · cases done
      · split at done
        · cases done
          omega
        · exact ih (copied + 1) kept (sameSize.trans size) (by omega) (by omega) (by omega) done
    · exact ih copied wf size clean fewer more done

theorem brehash_stops (positive : 0 < len)
    (fits : table.population ≤ growTrigger (machine.roundEntries len)) (fuel : Nat)
    (bound : table.bound ≠ 0) (nonzero : table.population ≠ 0) (after : Table) :
    table.brehash machine (putLocked machine (fuel + 1)) len ≠ .ok after := by
  have short : ∀ copy, table.copyAll machine (putLocked machine (fuel + 1)) len = .ok copy →
      copy.population < table.population := by
    intro copy copied
    rw [copyAll] at copied
    split at copied
    · rename_i more
      exact copyEntries_short fits fuel _ _ (WellFormed.blank machine table positive) rfl rfl
        (Nat.pos_of_ne_zero bound) more copied
    · cases copied
      exact Nat.pos_of_ne_zero nonzero
  rw [brehash]
  cases copied : table.copyAll machine (putLocked machine (fuel + 1)) len with
  | error stop => rintro ⟨⟩
  | ok copy =>
    have fewer := short copy copied
    simp only
    rw [if_neg (by omega)]
    rintro ⟨⟩

theorem putLocked_returns (wf : table.WellFormed machine) (once : table.NoKeyTwice)
    (inBand : outOfBand key = false) (absent : table.Absent key) {fuel code : Nat}
    {value : UInt64} {after : Table}
    (done : putLocked machine (fuel + 2) table key value = .ok (code, after)) :
    code = 1 ∧ Extends machine table after ⟨key, value⟩ := by
  by_cases clear : table.PutClear machine key
  · obtain ⟨next, stored, extended⟩ := putLocked_extends wf once inBand absent clear fuel value
    rw [stored] at done
    cases done
    exact ⟨rfl, extended⟩
  · obtain ⟨rehashes, crowded⟩ := Classical.not_imp.mp clear
    obtain ⟨bound, nonzero⟩ := not_or.mp crowded
    obtain ⟨f, first⟩ := wf.firstFree_some key
    rw [first, Option.bind_some] at rehashes
    obtain ⟨len, rehash⟩ := Option.ne_none_iff_exists'.mp rehashes
    rw [putLocked, inBand, if_neg Bool.false_ne_true, place_of_absent wf inBand absent, first] at done
    simp only [rehash] at done
    cases copied : table.brehash machine (putLocked machine (fuel + 1)) len with
    | error stop =>
      rw [copied] at done
      cases done
    | ok next =>
      exact absurd copied (brehash_stops (wf.putRehash_pos rehash) (wf.putRehash_room rehash).le
        fuel bound nonzero next)

end Qthreads.Hash.Table
