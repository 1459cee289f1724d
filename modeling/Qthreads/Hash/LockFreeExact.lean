import Qthreads.Hash.LockFreeMap

namespace Qthreads.Hash.LockFree

open Qthreads.Dict (msb soRegularkey soDummykey)

namespace Query

def masked : Query → Query
  | call (.put key value) => call (.put (hashKey key) value)
  | call (.get key) => call (.get (hashKey key))
  | call (.remove key) => call (.remove (hashKey key))
  | count => count

/-- How many buckets there are after a query on a table of `size` buckets. -/
def buckets (page : Page) (bindings : Bindings) (size : Nat) : Query → Nat
  | call (.put key _) =>
    if bindings.lookup key = none ∧ 4 < bindings.pairs.length / size ∧
        2 * size ≤ page.hardMaxBuckets.toNat then 2 * size
    else size
  | _ => size

def answer (bindings : Bindings) (size : Nat) : Query → Answer
  | call made => ((call made).masked.specified bindings).1
  | count => .code size

end Query

def answers (page : Page) : Bindings → Nat → List Query → List Answer
  | _, _, [] => []
  | bindings, size, query :: rest =>
    query.answer bindings size ::
      answers page (query.masked.specified bindings).2 (query.masked.buckets page bindings size) rest

namespace QtHash

variable {page : Page} {h : QtHash} {bucket lkey : UInt64} {bindings : Bindings}

theorem Represents.same {after : QtHash} (represents : h.Represents page bindings)
    (same : Same page h after) : after.Represents page bindings where
  toWellFormed := same.wf
  pairs := same.callback ▸ represents.pairs
  counted := same.count ▸ represents.counted

theorem Represents.alloc (represents : h.Represents page bindings) :
    h.allocHashEntry.2.Represents page bindings where
  toWellFormed := represents.toWellFormed.alloc
  pairs := represents.pairs
  counted := represents.counted

theorem Same.taken {after : QtHash} (wf : h.WellFormed page)
    (same : Same page h.allocHashEntry.2 after) :
    h.fresh < after.fresh ∧ ∀ entry ∈ after.list, entry.addr ≠ h.fresh := by
  refine ⟨Nat.lt_of_lt_of_le (Nat.lt_succ_self _) same.grown, ?_⟩
  intro entry member equal
  have was := same.old entry member (by rw [equal]; exact Nat.lt_succ_self _)
  exact absurd (wf.allocated entry was) (by rw [equal]; exact Nat.lt_irrefl _)

theorem WellFormed.twice_size (wf : h.WellFormed page) : (2 * h.size).toNat = 2 * h.size.toNat := by
  obtain ⟨i, bound, power⟩ := wf.power
  have most := page.fits
  have small : 2 ^ (i + 1) < 2 ^ 64 := Nat.pow_lt_pow_right (by decide) (by omega)
  rw [UInt64.toNat_mul, power, show (2 : UInt64).toNat = 2 from rfl, ← Nat.pow_succ',
    Nat.mod_eq_of_lt small]

theorem WellFormed.grow (wf : h.WellFormed page) : (h.grow page).WellFormed page := by
  refine ⟨⟨wf.sorted, wf.distinct, wf.allocated⟩, wf.kinds, wf.pointer, wf.first, ?_⟩
  obtain ⟨i, bound, power⟩ := wf.power
  have twice : (2 * h.size).toNat = 2 ^ (i + 1) := by
    rw [wf.twice_size, power, ← Nat.pow_succ']
  simp only [QtHash.grow]
  split
  · split
    case isTrue fits =>
      rw [UInt64.le_iff_toNat_le, twice, hardMaxBuckets_eq] at fits
      exact ⟨i + 1, (Nat.pow_le_pow_iff_right (by decide)).mp fits, twice⟩
    case isFalse => exact ⟨i, bound, power⟩
  · exact ⟨i, bound, power⟩

theorem WellFormed.grow_size {count : Nat} (wf : h.WellFormed page)
    (counted : h.count.toNat = count) :
    (h.grow page).size.toNat =
      if 4 < count / h.size.toNat ∧ 2 * h.size.toNat ≤ page.hardMaxBuckets.toNat then
        2 * h.size.toNat
      else h.size.toNat := by
  have twice := wf.twice_size
  have load : h.count / h.size > maxLoad ↔ 4 < count / h.size.toNat := by
    rw [gt_iff_lt, UInt64.lt_iff_toNat_lt, UInt64.toNat_div, counted]
    rfl
  simp only [QtHash.grow, load, UInt64.le_iff_toNat_le, twice]
  by_cases full : 4 < count / h.size.toNat
  · by_cases fits : 2 * h.size.toNat ≤ page.hardMaxBuckets.toNat
    · simp [full, fits, twice]
    · simp [full, fits]
  · simp [full]

section Located

variable {front back : List HashEntry} {old : Option HashEntry}

theorem Located.others (located : Located h bucket (soRegularkey lkey) front old back)
    (wf : h.WellFormed page) :
    ∀ pair ∈ front.filterMap HashEntry.pair ++ back.filterMap HashEntry.pair, pair.1 ≠ lkey := by
  rintro ⟨key, value⟩ member rfl
  rw [← List.filterMap_append, List.mem_filterMap] at member
  obtain ⟨entry, inside, paired⟩ := member
  have listed : entry ∈ h.list := by
    rw [located.shape]
    simp only [List.mem_append] at inside ⊢
    tauto
  have keyed := (wf.pair_key listed paired).2
  rcases List.mem_append.mp inside with early | late
  · have less := located.below entry early
    rw [keyed] at less
    exact UInt64.lt_irrefl _ less
  · have more := located.above entry late
    rw [keyed] at more
    exact UInt64.lt_irrefl _ more

theorem Represents.insert {value : UInt64} {addr : Nat} (represents : h.Represents page bindings)
    (located : Located h bucket (soRegularkey lkey) front none back) (low : lkey.toNat < 2 ^ 63)
    (taken : addr < h.fresh ∧ ∀ entry ∈ h.list, entry.addr ≠ addr) (nonzero : value ≠ 0)
    (absent : bindings.lookup lkey = none) :
    Represents page
      (QtHash.grow page { h with list := front ++ ⟨addr, soRegularkey lkey, value⟩ :: back })
      (bindings.insert lkey value absent) := by
  have kept := represents.toWellFormed.splice located (some ⟨addr, soRegularkey lkey, value⟩)
    ⟨lkey, low, rfl⟩ (fun node here => by cases here; exact ⟨rfl, nonzero⟩)
    (fun node here => by cases here; exact taken)
  simp only [Option.toList_some, List.append_assoc, List.singleton_append] at kept
  have shape : h.list = front ++ back := by simpa using located.shape
  have paired : HashEntry.pair ⟨addr, soRegularkey lkey, value⟩ = some (lkey, value) :=
    HashEntry.pair_regular low rfl
  refine ⟨kept.grow, ?_, ?_⟩
  · have perm := represents.pairs
    rw [qtHashCallback, shape, List.filterMap_append] at perm
    change ((front ++ ⟨addr, soRegularkey lkey, value⟩ :: back).filterMap HashEntry.pair).Perm
      ((lkey, value) :: bindings.pairs)
    rw [List.filterMap_append, List.filterMap_cons, paired]
    exact List.perm_middle.trans (perm.cons _)
  · have few := represents.few
    change (h.count + 1).toNat = bindings.pairs.length + 1
    rw [UInt64.toNat_add, represents.counted, show (1 : UInt64).toNat = 1 from rfl,
      Nat.mod_eq_of_lt (by omega)]

theorem Represents.erase {cur : HashEntry} (represents : h.Represents page bindings)
    (located : Located h bucket (soRegularkey lkey) front (some cur) back)
    (low : lkey.toNat < 2 ^ 63) :
    Represents page { h with list := front ++ back, count := h.count - 1 } (bindings.erase lkey) := by
  have kept := represents.toWellFormed.splice located none ⟨lkey, low, rfl⟩ nofun nofun
  simp only [Option.toList_none, List.append_nil] at kept
  have others := located.others represents.toWellFormed
  have shape : h.list = front ++ cur :: back := by simpa using located.shape
  have paired : cur.pair = some (lkey, cur.value) :=
    HashEntry.pair_regular low (located.current cur rfl)
  have perm := represents.pairs
  rw [qtHashCallback, shape, List.filterMap_append, List.filterMap_cons, paired] at perm
  have left := (List.perm_middle.symm.trans perm).filter fun pair => pair.1 != lkey
  have rest : ((lkey, cur.value) ::
      (front.filterMap HashEntry.pair ++ back.filterMap HashEntry.pair)).filter
        (fun pair => pair.1 != lkey) =
      front.filterMap HashEntry.pair ++ back.filterMap HashEntry.pair := by
    rw [List.filter_cons_of_neg (by simp), List.filter_eq_self]
    intro pair member
    simpa using others pair member
  rw [rest] at left
  have pairs : (bindings.erase lkey).pairs.length + 1 = bindings.pairs.length := by
    rw [← perm.length_eq, Bindings.erase, ← left.length_eq, List.length_append, List.length_append,
      List.length_cons, Nat.add_assoc]
  refine ⟨⟨⟨kept.sorted, kept.distinct, kept.allocated⟩, kept.kinds, kept.pointer, kept.first,
    kept.power⟩, ?_, ?_⟩
  · rw [qtHashCallback, List.filterMap_append]
    exact left
  · have one : (1 : UInt64) ≤ h.count := by
      rw [UInt64.le_iff_toNat_le, represents.counted, ← pairs]
      exact Nat.le_add_left 1 _
    change (h.count - 1).toNat = _
    rw [UInt64.toNat_sub_of_le _ _ one, represents.counted, ← pairs]
    rfl

end Located

def Answers (page : Page) (h : QtHash) (bindings : Bindings) (query : Query) : Prop :=
  ∃ after, query.apply page h = some (query.answer bindings h.size.toNat, after) ∧
    after.Represents page (query.masked.specified bindings).2 ∧
    after.size.toNat = query.masked.buckets page bindings h.size.toNat

section

variable (represents : h.Represents page bindings)
include represents

theorem put_exact {value : UInt64} (key : UInt64)
    (nonzero : value ≠ 0) : h.Answers page bindings (.call (.put key value)) := by
  have low := hashKey_small key
  obtain ⟨bucket, next, addr, ready, same, set, before⟩ := represents.alloc.bucketOf low
  have taken := same.taken represents.toWellFormed
  have reached := represents.alloc.same same
  obtain ⟨front, old, back, located⟩ := same.wf.located set before
  have zero := reached.value_zero located low
  have found := reached.found located low
  have sized : next.size.toNat = h.size.toNat := congrArg UInt64.toNat same.size
  obtain ⟨counted, ran, stale, fresh⟩ : ∃ counted, h.qtHashPut page key value =
      (next.qtLfListInsert bucket ⟨h.fresh, soRegularkey (hashKey key), value⟩).bind counted ∧
      (∀ h, counted (false, h) = some (0, h)) ∧ ∀ h, counted (true, h) = some (1, h.grow page) :=
    ⟨_, congrArg (Option.bind · _) ready, fun _ => rfl, fun _ => rfl⟩
  cases old with
  | none =>
    have absent : bindings.lookup (hashKey key) = none := found
    refine ⟨QtHash.grow page { next with
      list := front ++ ⟨h.fresh, soRegularkey (hashKey key), value⟩ :: back }, ?_, ?_, ?_⟩
    · rw [Query.apply, ran, Query.answer, Query.masked, Query.specified, dif_pos absent]
      simp only [qtLfListInsert, zero.mpr absent, ne_eq, not_true, if_false, located.relinked,
        located.rest]
      simp [fresh]
    · rw [Query.masked, Query.specified, dif_pos absent]
      exact reached.insert located low taken nonzero absent
    · refine (reached.toWellFormed.grow_size reached.counted).trans ?_
      simp only [Query.masked, Query.buckets, absent, sized, true_and]
  | some cur =>
    have present : bindings.lookup (hashKey key) ≠ none := by
      rw [found]
      exact Option.some_ne_none _
    refine ⟨next, ?_, ?_, ?_⟩
    · rw [Query.apply, ran, Query.answer, Query.masked, Query.specified, dif_neg present]
      simp only [qtLfListInsert, ne_eq, mt zero.mp present, not_false_eq_true, if_true,
        Option.bind_some, stale, Option.map_some]
    · rw [Query.masked, Query.specified, dif_neg present]
      exact reached
    · simp only [Query.masked, Query.buckets, present, false_and, if_false, sized]

theorem get_exact (key : UInt64) : h.Answers page bindings (.call (.get key)) := by
  have low := hashKey_small key
  obtain ⟨bucket, next, addr, ready, same, set, before⟩ := represents.bucketOf low
  have reached := represents.same same
  obtain ⟨front, old, back, located⟩ := same.wf.located set before
  refine ⟨next, ?_, reached, congrArg UInt64.toNat same.size⟩
  have ran : h.qtHashGet key =
      some ((qtLfListFind (soRegularkey (hashKey key)) (next.split bucket).2).value, next) := by
    change (h.bucketOf (hashKey key)).bind _ = _
    rw [ready, Option.bind_some]
    rfl
  rw [Query.apply, ran, located.value, ← reached.found located low]
  rfl

theorem remove_exact (key : UInt64) : h.Answers page bindings (.call (.remove key)) := by
  have low := hashKey_small key
  obtain ⟨bucket, next, addr, ready, same, set, before⟩ := represents.bucketOf low
  have reached := represents.same same
  obtain ⟨front, old, back, located⟩ := same.wf.located set before
  have zero := reached.value_zero located low
  have found := reached.found located low
  have sized : next.size.toNat = h.size.toNat := congrArg UInt64.toNat same.size
  obtain ⟨counted, ran, stale, gone⟩ : ∃ counted, h.qtHashRemove key =
      (next.qtLfListDelete bucket (soRegularkey (hashKey key))).bind counted ∧
      (∀ h, counted (false, h) = some (0, h)) ∧
      ∀ h, counted (true, h) = some (1, { h with count := h.count - 1 }) :=
    ⟨_, congrArg (Option.bind · _) ready, fun _ => rfl, fun _ => rfl⟩
  cases old with
  | none =>
    have absent : bindings.lookup (hashKey key) = none := found
    refine ⟨next, ?_, ?_, sized⟩
    · rw [Query.apply, ran, Query.answer, Query.masked, Query.specified, if_pos absent]
      simp only [qtLfListDelete, zero.mpr absent, if_true, Option.bind_some, stale,
        Option.map_some]
    · rw [Query.masked, Query.specified, if_pos absent]
      exact reached
  | some cur =>
    have present : bindings.lookup (hashKey key) ≠ none := by
      rw [found]
      exact Option.some_ne_none _
    refine ⟨{ next with list := front ++ back, count := next.count - 1 }, ?_, ?_, sized⟩
    · rw [Query.apply, ran, Query.answer, Query.masked, Query.specified, if_neg present]
      simp only [qtLfListDelete, mt zero.mp present, if_false, located.relinked, located.rest]
      simp [gone]
    · rw [Query.masked, Query.specified, if_neg present]
      exact reached.erase located low

theorem query_exact : (query : Query) → query.NonNull → h.Answers page bindings query
  | .call (.put key _), nonNull => put_exact represents key nonNull
  | .call (.get key), _ => get_exact represents key
  | .call (.remove key), _ => remove_exact represents key
  | .count, _ => ⟨h, rfl, represents, rfl⟩

end

theorem create_represents (page : Page) : create.Represents page .empty where
  sorted := List.pairwise_singleton _ _
  distinct := List.nodup_singleton _
  allocated := by
    intro entry member
    cases List.mem_singleton.mp member
    decide
  kinds := by
    intro entry member
    cases List.mem_singleton.mp member
    exact .inr ⟨0, by decide, rfl, rfl⟩
  pointer := by
    intro bucket addr set
    simp only [create] at set
    split at set
    case isTrue zero =>
      subst zero
      cases set
      exact ⟨by decide, _, List.mem_singleton.mpr rfl, rfl, by decide⟩
    case isFalse => cases set
  first := ⟨_, [], rfl, rfl⟩
  power := ⟨1, by have := page.least; omega, rfl⟩
  pairs := List.Perm.refl _
  counted := rfl

end QtHash

theorem exec_answers (page : Page) (queries : List Query) {h : QtHash} {bindings : Bindings}
    (represents : h.Represents page bindings) (nonNull : ∀ query ∈ queries, query.NonNull) :
    (exec page h queries).map Prod.fst = some (answers page bindings h.size.toNat queries) := by
  induction queries generalizing h bindings with
  | nil => rfl
  | cons query rest ih =>
    obtain ⟨next, done, kept, sized⟩ :=
      QtHash.query_exact represents query (nonNull query List.mem_cons_self)
    have later := ih kept fun later member => nonNull later (List.mem_cons_of_mem _ member)
    rw [sized] at later
    rw [exec, done, answers]
    cases ran : exec page next rest with
    | none =>
      rw [ran] at later
      cases later
    | some result =>
      rw [ran, Option.map_some, Option.some.injEq] at later
      simp only [ran, ← later, Option.map_some]

/-! A key is stored as its twin is, the key with the highest bit flipped. -/

def twin (key : UInt64) : UInt64 := key ^^^ msb

namespace Query

/-- No twin of the key is bound; a count is made while as many keys are bound as there are
buckets. -/
def Clear (bindings : Bindings) (size : Nat) : Query → Prop
  | call (.put key _) => bindings.lookup (twin key) = none
  | call (.get key) => bindings.lookup (twin key) = none
  | call (.remove key) => bindings.lookup (twin key) = none
  | count => bindings.pairs.length = size

instance (bindings : Bindings) (size : Nat) : (query : Query) → Decidable (query.Clear bindings size)
  | call (.put key _) => inferInstanceAs (Decidable (bindings.lookup (twin key) = none))
  | call (.get key) => inferInstanceAs (Decidable (bindings.lookup (twin key) = none))
  | call (.remove key) => inferInstanceAs (Decidable (bindings.lookup (twin key) = none))
  | count => inferInstanceAs (Decidable (bindings.pairs.length = size))

end Query

def ClearAll (page : Page) : Bindings → Nat → List Query → Prop
  | _, _, [] => True
  | bindings, size, query :: rest => query.Clear bindings size ∧
      ClearAll page (query.specified bindings).2 (query.buckets page bindings size) rest

def ClearAll.decide (page : Page) : (queries : List Query) → (bindings : Bindings) →
    (size : Nat) → Decidable (ClearAll page bindings size queries)
  | [], _, _ => .isTrue trivial
  | _ :: rest, _, _ => @instDecidableAnd _ _ inferInstance (ClearAll.decide page rest _ _)

instance (page : Page) (bindings : Bindings) (size : Nat) (queries : List Query) :
    Decidable (ClearAll page bindings size queries) := ClearAll.decide page queries bindings size

theorem msb_toNat : msb.toNat = 2 ^ 63 := by decide

theorem hashKey_bit (key : UInt64) (i : Nat) :
    (hashKey key).toNat.testBit i = (decide (i < 63) && key.toNat.testBit i) := by
  have mask : (~~~msb).toNat = 2 ^ 63 - 1 := by decide
  rw [hashKey, UInt64.toNat_and, mask, Nat.and_two_pow_sub_one_eq_mod, Nat.testBit_mod_two_pow]

theorem twin_bit (key : UInt64) (i : Nat) :
    (twin key).toNat.testBit i = (key.toNat.testBit i ^^ decide (63 = i)) := by
  rw [twin, UInt64.toNat_xor, Nat.testBit_xor, msb_toNat, Nat.testBit_two_pow]

theorem twin_twin (key : UInt64) : twin (twin key) = key := by
  rw [twin, twin, UInt64.xor_assoc, UInt64.xor_self, UInt64.xor_zero]

theorem twin_ne (key : UInt64) : twin key ≠ key := by
  intro same
  have bit := twin_bit key 63
  rw [same] at bit
  simp at bit

theorem hashKey_twin (key : UInt64) : hashKey (twin key) = hashKey key := by
  apply UInt64.toNat.inj
  apply Nat.eq_of_testBit_eq
  intro i
  rw [hashKey_bit, hashKey_bit, twin_bit]
  by_cases low : i < 63
  · simp [show ¬ 63 = i by omega]
  · simp [low]

theorem hashKey_eq {key other : UInt64} (same : hashKey key = hashKey other) :
    key = other ∨ key = twin other := by
  have low : ∀ i, i < 63 → key.toNat.testBit i = other.toNat.testBit i := by
    intro i below
    have bits := congrArg (fun x : UInt64 => x.toNat.testBit i) same
    simpa only [hashKey_bit, below, decide_true, Bool.true_and] using bits
  have high : ∀ i, 63 < i → key.toNat.testBit i = other.toNat.testBit i := by
    intro i above
    rw [Dict.high_bit key (by omega), Dict.high_bit other (by omega)]
  by_cases top : key.toNat.testBit 63 = other.toNat.testBit 63
  · left
    apply UInt64.toNat.inj
    apply Nat.eq_of_testBit_eq
    intro i
    rcases Nat.lt_trichotomy i 63 with below | rfl | above
    · exact low i below
    · exact top
    · exact high i above
  · right
    apply UInt64.toNat.inj
    apply Nat.eq_of_testBit_eq
    intro i
    rw [twin_bit]
    rcases Nat.lt_trichotomy i 63 with below | rfl | above
    · simp [low i below, show ¬ 63 = i by omega]
    · simpa using Bool.eq_not.mpr top
    · simp [high i above, show ¬ 63 = i by omega]

namespace Bindings

variable {bindings : Bindings} {key other : UInt64}

theorem lookup_insert {value : UInt64} (absent : bindings.lookup key = none) :
    (bindings.insert key value absent).lookup other =
      if other = key then some value else bindings.lookup other := by
  by_cases same : other = key
  · simp [lookup, insert, same]
  · simp [lookup, insert, same, Ne.symm same]

theorem lookup_erase :
    (bindings.erase key).lookup other = if other = key then none else bindings.lookup other := by
  ext value
  rw [lookup_some, erase, List.mem_filter]
  by_cases same : other = key
  · simp [same]
  · simp [same, lookup_some]

end Bindings

theorem specified_call (bindings : Bindings) (made : Call) :
    ((Query.call made).specified bindings).1 = (made.specified bindings.lookup).1 ∧
      ((Query.call made).specified bindings).2.lookup = (made.specified bindings.lookup).2 := by
  cases made with
  | put key value =>
    cases bound : bindings.lookup key with
    | none =>
      simp only [Query.specified, Call.specified, bound, dif_pos]
      refine ⟨rfl, ?_⟩
      funext other
      rw [Bindings.lookup_insert, Function.update_apply]
    | some old =>
      simp only [Query.specified, Call.specified, bound, reduceCtorEq, dite_false]
      exact ⟨rfl, trivial⟩
  | get key => exact ⟨rfl, rfl⟩
  | remove key =>
    cases bound : bindings.lookup key with
    | none =>
      simp only [Query.specified, Call.specified, bound, if_true]
      exact ⟨trivial, trivial⟩
    | some old =>
      simp only [Query.specified, Call.specified, bound, reduceCtorEq, if_false]
      refine ⟨trivial, ?_⟩
      funext other
      rw [Bindings.lookup_erase, Function.update_apply]

structure Merged (masked bindings : Bindings) : Prop where
  pairs : masked.pairs = bindings.pairs.map fun pair => (hashKey pair.1, pair.2)
  apart : ∀ key, bindings.lookup key ≠ none → bindings.lookup (twin key) = none
  values : ∀ key, bindings.lookup key ≠ some 0

namespace Merged

variable {page : Page} {masked bindings : Bindings} {key : UInt64}

section

variable (merged : Merged masked bindings)
include merged

theorem lookup_clear (clear : bindings.lookup (twin key) = none) :
    masked.lookup (hashKey key) = bindings.lookup key := by
  ext value
  rw [Bindings.lookup_some, Bindings.lookup_some, merged.pairs, List.mem_map]
  constructor
  · rintro ⟨⟨other, stored⟩, member, same⟩
    rw [Prod.mk.injEq] at same
    obtain ⟨same, rfl⟩ := same
    rcases hashKey_eq same with rfl | rfl
    · exact member
    · rw [Bindings.lookup_some.mpr member] at clear
      cases clear
  · intro member
    exact ⟨_, member, rfl⟩

theorem lookup_twin (bound : bindings.lookup (twin key) ≠ none) :
    masked.lookup (hashKey key) = bindings.lookup (twin key) ∧ bindings.lookup key = none := by
  have absent := merged.apart (twin key) bound
  rw [twin_twin] at absent
  refine ⟨?_, absent⟩
  rw [← hashKey_twin]
  exact merged.lookup_clear (by rw [twin_twin]; exact absent)

theorem insert {value : UInt64} (clear : bindings.lookup (twin key) = none) (nonzero : value ≠ 0)
    (free : masked.lookup (hashKey key) = none) (absent : bindings.lookup key = none) :
    Merged (masked.insert (hashKey key) value free) (bindings.insert key value absent) where
  pairs := by
    simp only [Bindings.insert, merged.pairs, List.map_cons]
  apart := by
    intro other bound
    rw [Bindings.lookup_insert] at bound ⊢
    by_cases same : other = key
    · rw [same, if_neg (twin_ne key)]
      exact clear
    · rw [if_neg same] at bound
      have differs : twin other ≠ key := by
        rintro rfl
        rw [twin_twin] at clear
        exact bound clear
      rw [if_neg differs]
      exact merged.apart other bound
  values := by
    intro other
    rw [Bindings.lookup_insert]
    split
    · simpa using nonzero
    · exact merged.values other

theorem erase (clear : bindings.lookup (twin key) = none) :
    Merged (masked.erase (hashKey key)) (bindings.erase key) where
  pairs := by
    simp only [Bindings.erase, merged.pairs, List.filter_map]
    congr 1
    apply List.filter_congr
    rintro ⟨other, value⟩ member
    rw [Bindings.lookup_none] at clear
    have stays : other ≠ twin key := by
      rintro rfl
      exact clear (List.mem_map_of_mem member)
    have same : hashKey other = hashKey key ↔ other = key :=
      ⟨fun equal => (hashKey_eq equal).resolve_right stays, fun equal => by rw [equal]⟩
    simp [same, bne]
  apart := by
    intro other bound
    rw [Bindings.lookup_erase] at bound ⊢
    split
    · rfl
    · split at bound
      · exact absurd rfl bound
      · exact merged.apart other bound
  values := by
    intro other
    rw [Bindings.lookup_erase]
    split
    · exact nofun
    · exact merged.values other

end

structure Agrees (page : Page) (masked bindings : Bindings) (size : Nat) (query : Query) : Prop where
  answer : query.answer masked size = (query.specified bindings).1
  merged : Merged (query.masked.specified masked).2 (query.specified bindings).2
  buckets : query.masked.buckets page masked size = query.buckets page bindings size

theorem length_eq (merged : Merged masked bindings) :
    masked.pairs.length = bindings.pairs.length := by
  rw [merged.pairs, List.length_map]

theorem agrees {size : Nat} (merged : Merged masked bindings) (query : Query)
    (clear : query.Clear bindings size) (nonNull : query.NonNull) :
    Agrees page masked bindings size query := by
  match query, clear, nonNull with
  | .call (.put key value), clear, nonNull =>
    have same := merged.lookup_clear clear
    by_cases absent : bindings.lookup key = none
    · have free := same.trans absent
      refine ⟨?_, ?_, ?_⟩
      · simp only [Query.answer, Query.masked, Query.specified, dif_pos free, dif_pos absent]
      · simp only [Query.masked, Query.specified, dif_pos free, dif_pos absent]
        exact merged.insert clear nonNull free absent
      · simp only [Query.masked, Query.buckets, same, merged.length_eq]
    · have taken : ¬ masked.lookup (hashKey key) = none := same ▸ absent
      refine ⟨?_, ?_, ?_⟩
      · simp only [Query.answer, Query.masked, Query.specified, dif_neg taken, dif_neg absent]
      · simp only [Query.masked, Query.specified, dif_neg taken, dif_neg absent]
        exact merged
      · simp only [Query.masked, Query.buckets, same, merged.length_eq]
  | .call (.get key), clear, _ =>
    refine ⟨?_, merged, rfl⟩
    simp only [Query.answer, Query.masked, Query.specified, merged.lookup_clear clear]
  | .call (.remove key), clear, _ =>
    have same := merged.lookup_clear clear
    by_cases absent : bindings.lookup key = none
    · refine ⟨?_, ?_, rfl⟩
      · simp only [Query.answer, Query.masked, Query.specified, same, if_pos absent]
      · simp only [Query.masked, Query.specified, same, if_pos absent]
        exact merged
    · refine ⟨?_, ?_, rfl⟩
      · simp only [Query.answer, Query.masked, Query.specified, same, if_neg absent]
      · simp only [Query.masked, Query.specified, same, if_neg absent]
        exact merged.erase clear
  | .count, clear, _ => exact ⟨congrArg Answer.code (Eq.symm clear), merged, rfl⟩

theorem differs {size : Nat} (merged : Merged masked bindings) (query : Query)
    (unclear : ¬ query.Clear bindings size) :
    query.answer masked size ≠ (query.specified bindings).1 := by
  match query, unclear with
  | .call (.put key value), bound =>
    obtain ⟨same, absent⟩ := merged.lookup_twin bound
    have taken : ¬ masked.lookup (hashKey key) = none := by
      rw [same]
      exact bound
    simp only [Query.answer, Query.masked, Query.specified, dif_neg taken, dif_pos absent]
    rintro ⟨⟩
  | .call (.get key), bound =>
    obtain ⟨same, absent⟩ := merged.lookup_twin bound
    simp only [Query.answer, Query.masked, Query.specified, same, absent]
    cases found : bindings.lookup (twin key) with
    | none => exact absurd found bound
    | some value =>
      intro equal
      cases equal
      exact merged.values (twin key) found
  | .call (.remove key), bound =>
    obtain ⟨same, absent⟩ := merged.lookup_twin bound
    have taken : ¬ masked.lookup (hashKey key) = none := by
      rw [same]
      exact bound
    simp only [Query.answer, Query.masked, Query.specified, if_neg taken, if_pos absent]
    rintro ⟨⟩
  | .count, apart =>
    intro equal
    simp only [Query.answer, Query.specified, Answer.code.injEq] at equal
    exact apart equal.symm

end Merged

theorem answers_iff (page : Page) (queries : List Query) {masked bindings : Bindings} {size : Nat}
    (merged : Merged masked bindings) (nonNull : ∀ query ∈ queries, query.NonNull) :
    answers page masked size queries = specified bindings queries ↔
      ClearAll page bindings size queries := by
  induction queries generalizing masked bindings size with
  | nil => exact iff_of_true rfl trivial
  | cons query rest ih =>
    rw [answers, specified, List.cons.injEq, ClearAll]
    by_cases clear : query.Clear bindings size
    · have agrees : Merged.Agrees page masked bindings size query :=
        merged.agrees query clear (nonNull query List.mem_cons_self)
      rw [agrees.buckets, ih agrees.merged fun later member =>
        nonNull later (List.mem_cons_of_mem _ member)]
      exact and_congr_left fun _ => iff_of_true agrees.answer clear
    · exact iff_of_false (fun same => merged.differs query clear same.1) fun all => clear all.1

/-- A run is that of a finite map exactly when no key is used while its twin is bound and no
count is taken while the table has more or fewer buckets than keys. -/
theorem exec_finiteMap_iff (page : Page) (queries : List Query)
    (nonNull : ∀ query ∈ queries, query.NonNull) :
    FiniteMapExact page queries ↔ ClearAll page .empty 2 queries := by
  have merged : Merged .empty .empty := ⟨rfl, fun _ bound => absurd rfl bound, fun _ => nofun⟩
  rw [FiniteMapExact, exec_answers page queries (QtHash.create_represents page) nonNull,
    Option.some.injEq, ← answers_iff page queries merged nonNull]
  rfl

theorem specified_calls (bindings : Bindings) (calls : List Hash.Call) :
    specified bindings (calls.map .call) = (Hash.specified bindings.lookup calls).1 := by
  induction calls generalizing bindings with
  | nil => rfl
  | cons call rest ih =>
    obtain ⟨answer, after⟩ := specified_call bindings call
    rw [List.map_cons, specified, Hash.specified, ih, answer, after]

/-- Where the default table is a finite map, the lock-free one gives the same answers if and only if
no key is used while its twin is bound. -/
theorem tables_agree_iff (machine : Machine) (page : Page) (calls : List Hash.Call)
    (met : MeetsAll machine machine.create calls)
    (nonNull : ∀ query ∈ calls.map Query.call, query.NonNull) :
    (exec page .create (calls.map .call)).map Prod.fst =
        (Hash.exec machine machine.create calls).toOption.map Prod.fst ↔
      ClearAll page .empty 2 (calls.map .call) := by
  have merged : Merged .empty .empty := ⟨rfl, fun _ bound => absurd rfl bound, fun _ => nofun⟩
  obtain ⟨answers, table, ran, same, -⟩ :=
    exec_exact calls (create_wf machine)
      (fun slot _ other _ live => absurd rfl (live_iff.mp live).1) met
  have answered : specified .empty (calls.map .call) = answers := by
    rw [specified_calls, show Bindings.empty.lookup = machine.create.lookup machine from
      (create_lookup machine).symm, same]
  rw [exec_answers page _ (QtHash.create_represents page) nonNull, ran,
    ← answers_iff page _ merged nonNull, answered]
  exact Option.some_inj

def commonPage : Page := ⟨12, commonMachine.pageBits_ge, by decide⟩

theorem tables_agree_iff_collision : ClearAll commonPage .empty 2
    ([.put 97 1, .put 361 2, .remove 361, .put 97 5, .get 97].map .call) :=
  (tables_agree_iff commonMachine commonPage [.put 97 1, .put 361 2, .remove 361, .put 97 5, .get 97]
    (by decide +kernel) (by decide)).mp (by decide +kernel)

def doubling : List Query :=
  (List.range 12).map (fun i => .call (.put (.ofNat i) 7)) ++
    (List.range 8).map (fun i => .call (.remove (.ofNat i))) ++ [.count, .call (.get 9)]

theorem exec_finiteMap_across_a_doubling :
    ClearAll commonPage .empty 2 doubling ∧ FiniteMapExact commonPage doubling :=
  have clear : ClearAll commonPage .empty 2 doubling := by decide +kernel
  ⟨clear, (exec_finiteMap_iff commonPage doubling (by decide)).mpr clear⟩

/-- A key is refused for its twin's sake, and two buckets are counted where no key is bound. -/
theorem twin_key_refused :
    ¬ FiniteMapExact commonPage [.call (.put 5 1), .call (.put 0x8000000000000005 2)] ∧
      ¬ FiniteMapExact commonPage [.count] := by
  decide +kernel

end Qthreads.Hash.LockFree
