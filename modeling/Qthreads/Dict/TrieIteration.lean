import Qthreads.Dict.TrieIterator

namespace Qthreads.Dict

open Lib

variable {keys : KeyOps} {key value lkey : UInt64} {e : Entry} {depth low : Nat} {slot : Slot}

theorem Slot.WellFormed.binding_iff (wf : slot.WellFormed keys depth low) :
    slot.binding keys (keys.hash key) key depth = some value ↔
      ∃ e, slot.Has e ∧ keys.opEquals e.key key = true ∧ e.value = value := by
  induction slot generalizing depth low with
  | empty =>
    constructor
    · rintro ⟨⟩
    · rintro ⟨_, has, _⟩
      exact has.elim
  | chain head next =>
    obtain ⟨same, -, distinct⟩ := wf
    rw [binding]
    split
    · exact bound_iff distinct
    · rename_i differ
      constructor
      · rintro ⟨⟩
      rintro ⟨e, has, equals, _⟩
      refine absurd ?_ differ
      obtain ⟨hashed, alike⟩ := same e has
      rw [← alike, hashed, hash_congr equals]
  | spine count elements ih =>
    have whole := wf
    obtain ⟨-, small, -, -, below⟩ := wf
    rw [binding, ih _ (below _)]
    constructor
    · rintro ⟨e, has, found⟩
      exact ⟨e, ⟨_, has⟩, found⟩
    · rintro ⟨e, ⟨i, has⟩, equals, stored⟩
      have bucket := bucket_of_has whole has
      rw [((below i).has_low has).1, hash_congr equals] at bucket
      exact ⟨e, bucket ▸ has, equals, stored⟩

theorem Trie.WellFormed.binding_iff {h : Trie} (wf : h.WellFormed keys) :
    h.binding keys key = some value ↔
      ∃ e, h.Has e ∧ keys.opEquals e.key key = true ∧ e.value = value := by
  rw [Trie.binding, (wf.slots _).binding_iff]
  constructor
  · rintro ⟨e, has, found⟩
    exact ⟨e, ⟨_, has⟩, found⟩
  · rintro ⟨e, ⟨i, has⟩, equals, stored⟩
    obtain ⟨hashed, residue⟩ := (wf.slots i).has_low has
    have bucket : baseSpineBucket (keys.hash key) = i := by
      rw [← hash_congr equals, ← hashed]
      exact Fin.ext residue
    exact ⟨e, bucket ▸ has, equals, stored⟩

namespace SpineTrie

variable {h : SpineTrie}

def spineChains (h : SpineTrie) (id : Nat) : Nat → List Entry :=
  match if h.spines.taken id then h.spineAt id else none with
  | some elements => chainsOf elements
  | none => fun _ => []

def chainAt (h : SpineTrie) (j : Nat) : List Entry := h.spineChains (j / 32) (j % 32)

def chainsFrom (h : SpineTrie) (j : Nat) : List (List Entry) :=
  fullCells h.chainAt j (h.spines.maxspines * 32)

def baseFrom (h : SpineTrie) (i : Nat) : List (List Entry) := fullCells (chainsOf h.base) i 64

def place (h : SpineTrie) (lkey : UInt64) : Place :=
  (h.base (baseSpineBucket lkey)).place lkey 0 (.base (baseSpineBucket lkey))

theorem base_place (wf : h.erase.WellFormed keys) {i : Nat} (member : e ∈ chainsOf h.base i) :
    h.erase.Has e ∧ e.hashedKey = keys.hash e.key ∧ ∃ inside : i < 64,
      h.place e.hashedKey = .base ⟨i, inside⟩ := by
  obtain ⟨inside, chained⟩ := mem_chainsOf.mp member
  have has := Cell.chainOf_has chained
  obtain ⟨hashed, residue⟩ := (wf.slots ⟨i, inside⟩).has_low has
  have bucket : baseSpineBucket e.hashedKey = ⟨i, inside⟩ := Fin.ext residue
  refine ⟨⟨_, has⟩, hashed, inside, ?_⟩
  rw [place, bucket, Cell.place_chain chained]

theorem chainAt_cases (h : SpineTrie) (j : Nat) :
    h.chainAt j = [] ∨ ∃ elements i, (h.base i).Leads (j / 32) elements ∧
      h.chainAt j = (elements (.ofNat 32 j)).chainOf := by
  rw [chainAt, spineChains]
  by_cases taken : h.spines.taken (j / 32) = true
  · rw [if_pos taken]
    cases found : h.spineAt (j / 32) with
    | none => exact .inl rfl
    | some elements =>
      obtain ⟨i, leads⟩ := spineAt_leads found
      refine .inr ⟨elements, i, leads, ?_⟩
      exact dif_pos (Nat.mod_lt j (by decide))
  · rw [if_neg taken]
    exact .inl rfl

theorem mem_chainAt {j : Nat} (member : e ∈ h.chainAt j) :
    ∃ elements i, (h.base i).Leads (j / 32) elements ∧
      e ∈ (elements (.ofNat 32 j)).chainOf := by
  rcases h.chainAt_cases j with nothing | ⟨elements, i, leads, chain⟩
  · rw [nothing] at member
    cases member
  · exact ⟨elements, i, leads, chain ▸ member⟩

theorem chain_place (wf : h.erase.WellFormed keys) {j : Nat} (member : e ∈ h.chainAt j) :
    h.erase.Has e ∧ e.hashedKey = keys.hash e.key ∧
      h.place e.hashedKey = .spine (j / 32) (.ofNat 32 j) := by
  obtain ⟨elements, i, leads, chained⟩ := mem_chainAt member
  have has := leads.has chained
  obtain ⟨hashed, residue⟩ := (wf.slots i).has_low has
  have bucket : baseSpineBucket e.hashedKey = i := Fin.ext residue
  refine ⟨⟨i, has⟩, hashed, ?_⟩
  rw [place, bucket]
  exact leads.place (wf.slots i) chained _

theorem chainOf_distinct {cell : Cell} (wf : cell.erase.WellFormed keys depth low) :
    Distinct keys cell.chainOf := by
  cases cell with
  | empty => exact List.Pairwise.nil
  | chain head next => exact wf.2.2
  | spine => exact List.Pairwise.nil

theorem leads_wf {cell : Cell} {id : Nat} {elements : Fin 32 → Cell}
    (leads : cell.Leads id elements) (wf : cell.erase.WellFormed keys depth low) (i : Fin 32) :
    ∃ depth low, (elements i).erase.WellFormed keys depth low := by
  induction leads generalizing depth low with
  | here count => exact ⟨_, _, wf.2.2.2.2 i⟩
  | deeper count own inner k leads ih => exact ih (wf.2.2.2.2 k)

theorem base_distinct (wf : h.erase.WellFormed keys) (i : Nat) :
    Distinct keys (chainsOf h.base i) := by
  rw [chainsOf]
  split
  · exact chainOf_distinct (wf.slots _)
  · exact List.Pairwise.nil

theorem chain_distinct (wf : h.erase.WellFormed keys) (j : Nat) : Distinct keys (h.chainAt j) := by
  rcases h.chainAt_cases j with nothing | ⟨elements, i, leads, chain⟩
  · rw [nothing]
    exact List.Pairwise.nil
  · obtain ⟨depth, low, inner⟩ := leads_wf leads (wf.slots i) (.ofNat 32 j)
    rw [chain]
    exact chainOf_distinct inner

theorem mem_entries (tracks : h.spines.Tracks h.ids) (has : h.erase.Has e) :
    e ∈ (h.baseFrom 0).flatten ++ (h.chainsFrom 0).flatten := by
  obtain ⟨i, inside⟩ := has
  rw [List.mem_append]
  rcases Cell.has_cases inside with here | ⟨id, elements, k, leads, member⟩
  · refine .inl (mem_fullCells.mpr ⟨i, Nat.zero_le _, i.isLt, ?_⟩)
    exact mem_chainsOf.mpr ⟨i.isLt, here⟩
  · obtain ⟨taken, below⟩ := leads_taken tracks leads
    refine .inr (mem_fullCells.mpr ⟨id * 32 + k, Nat.zero_le _, by omega, ?_⟩)
    rw [chainAt, show (id * 32 + k.val) / 32 = id by omega,
      show (id * 32 + k.val) % 32 = k.val by omega, spineChains, if_pos taken,
      leads_spineAt tracks leads]
    exact mem_chainsOf.mpr ⟨k.isLt, member⟩

theorem entries_listed {map : FiniteMap} (wf : h.erase.WellFormed keys)
    (tracks : h.spines.Tracks h.ids) (represents : ∀ key, h.erase.binding keys key = map key) :
    map.Listed keys ((h.baseFrom 0).flatten ++ (h.chainsFrom 0).flatten) := by
  have apart : ∀ {e later : Entry}, e.hashedKey = keys.hash e.key →
      later.hashedKey = keys.hash later.key → h.place e.hashedKey ≠ h.place later.hashedKey →
      keys.opEquals e.key later.key = false := by
    intro e later first second places
    rw [Bool.eq_false_iff]
    intro equals
    apply places
    rw [first, second, hash_congr equals]
  constructor
  · rw [List.pairwise_append]
    refine ⟨fullCells_pairwise (base_distinct wf) ?_, fullCells_pairwise (chain_distinct wf) ?_, ?_⟩
    · intro j k differ e first later second
      obtain ⟨-, hashed, inside, here⟩ := base_place wf first
      obtain ⟨-, others, within, there⟩ := base_place wf second
      refine apart hashed others ?_
      rw [here, there]
      intro same
      cases same
      exact differ rfl
    · intro j k differ e first later second
      obtain ⟨-, hashed, here⟩ := chain_place wf first
      obtain ⟨-, others, there⟩ := chain_place wf second
      refine apart hashed others ?_
      rw [here, there]
      intro same
      obtain ⟨spines, slots⟩ := Place.spine.inj same
      have low : j % 32 = k % 32 := congrArg Fin.val slots
      omega
    · intro e base later spine
      obtain ⟨i, -, -, first⟩ := mem_fullCells.mp base
      obtain ⟨j, -, -, second⟩ := mem_fullCells.mp spine
      obtain ⟨-, hashed, inside, here⟩ := base_place wf first
      obtain ⟨-, others, there⟩ := chain_place wf second
      refine apart hashed others ?_
      rw [here, there]
      exact nofun
  · intro key value
    rw [← represents key, wf.binding_iff]
    constructor
    · rintro ⟨e, has, found⟩
      exact ⟨e, mem_entries tracks has, found⟩
    · rintro ⟨e, member, found⟩
      refine ⟨e, ?_, found⟩
      rcases List.mem_append.mp member with base | spine
      · obtain ⟨i, -, -, inside⟩ := mem_fullCells.mp base
        exact (base_place wf inside).1
      · obtain ⟨j, -, -, inside⟩ := mem_fullCells.mp spine
        exact (chain_place wf inside).1

/-- Neither the numbers of the spines nor the calls that leave a chain run out of `int`. -/
def FitsInt (h : SpineTrie) : Prop :=
  (h.spines.maxspines : Int) ≤ intMax ∧ 64 + ((h.chainsFrom 0).length : Int) ≤ intMax

structure Ahead (h : SpineTrie) (it : SpineIterator) (list : List Entry) : Prop where
  left : list = it.crt.tail ++ ((h.baseFrom (it.baseIndex + 1).toNat).flatten ++
    (h.chainsFrom (it.bkt.toNat * 32 + it.spineIndex)).flatten)
  begun : -1 ≤ it.baseIndex
  fits : max it.baseIndex 63 + (h.chainsFrom (it.bkt.toNat * 32 + it.spineIndex)).length + 1 ≤ intMax
  bkt : it.bkt ≤ h.spines.maxspines
  inside : it.spineIndex = 0 ∨ h.spines.taken it.bkt.toNat = true
  index : it.spineIndex ≤ 32

theorem spineChains_free {id : Nat} (free : h.spines.taken id ≠ true) :
    h.spineChains id = fun _ => [] := by
  rw [spineChains, if_neg free]

theorem spineChains_taken {id : Nat} {elements : Fin 32 → Cell} (taken : h.spines.taken id = true)
    (found : h.spineAt id = some elements) : h.spineChains id = chainsOf elements := by
  rw [spineChains, if_pos taken, found]

theorem chainAt_index {bkt i : Nat} (below : i < 32) :
    h.chainAt (bkt * 32 + i) = h.spineChains bkt i := by
  rw [chainAt, show (bkt * 32 + i) / 32 = bkt by omega, show (bkt * 32 + i) % 32 = i by omega]

theorem chainsFrom_skip {bkt i j : Nat} (le : i ≤ j) (bound : j ≤ 32)
    (skipped : ∀ k, i ≤ k → k < j → h.spineChains bkt k = []) :
    h.chainsFrom (bkt * 32 + i) = h.chainsFrom (bkt * 32 + j) := by
  refine fullCells_skip (by omega) fun k lower upper => ?_
  obtain ⟨k, rfl⟩ : ∃ k', k = bkt * 32 + k' := ⟨k - bkt * 32, by omega⟩
  rw [chainAt_index (by omega)]
  exact skipped k (by omega) (by omega)

theorem overSpines_ahead (tracks : h.spines.Tracks h.ids)
    (small : (h.spines.maxspines : Int) ≤ intMax) (room bkt index : Nat) (crt : List Entry)
    (base : Int) (left : bkt + room = h.spines.maxspines) (bound : index ≤ 32)
    (inside : index = 0 ∨ h.spines.taken bkt = true) :
    (∀ chain rest, h.chainsFrom (bkt * 32 + index) = chain :: rest →
      ∃ first walk spine slot, chain = first :: walk ∧
        h.overSpines room ⟨crt, (bkt : Nat), index, base⟩ =
          some (.entry first, ⟨first :: walk, (spine : Nat), slot, base⟩) ∧
        rest = h.chainsFrom (spine * 32 + slot) ∧ spine ≤ h.spines.maxspines ∧ slot ≤ 32 ∧
        h.spines.taken spine = true) ∧
    (h.chainsFrom (bkt * 32 + index) = [] →
      ∃ last, h.overSpines room ⟨crt, (bkt : Nat), index, base⟩ = some (.null, last) ∧
        last.crt = [] ∧ last.bkt = h.spines.maxspines) := by
  induction room generalizing bkt index with
  | zero =>
    have nothing : h.chainsFrom (bkt * 32 + index) = [] := fullCells_stop (by omega)
    rw [nothing]
    refine ⟨nofun, fun _ => ⟨_, rfl, rfl, ?_⟩⟩
    rw [← left, Nat.add_zero]
  | succ room ih =>
    have counts : (bkt : Int) < intMax := by omega
    have deeper := ih (bkt + 1) 0 (by omega) (Nat.zero_le 32) (.inl rfl)
    have onward : (bkt + 1) * 32 + 0 = bkt * 32 + 32 := by omega
    by_cases taken : h.spines.taken bkt = true
    · obtain ⟨elements, found⟩ := taken_spineAt tracks taken
      have chains := spineChains_taken taken found
      cases next : firstFull (chainsOf elements) index 32 with
      | none =>
        have skips : h.chainsFrom (bkt * 32 + index) = h.chainsFrom (bkt * 32 + 32) := by
          refine chainsFrom_skip bound (Nat.le_refl 32) fun k lower upper => ?_
          rw [chains]
          exact firstFull_none_empty next lower upper
        have step : h.overSpines (room + 1) ⟨crt, (bkt : Nat), index, base⟩ =
            h.overSpines room ⟨crt, ((bkt + 1 : Nat) : Int), 0, base⟩ := by
          simp only [overSpines, Int.toNat_natCast, taken, if_true, found, next, if_pos counts,
            Int.natCast_succ]
        rw [skips, step, ← onward]
        exact deeper
      | some i =>
        obtain ⟨lower, upper, full, -⟩ := firstFull_some next
        have skips : h.chainsFrom (bkt * 32 + index) = h.chainsFrom (bkt * 32 + i) := by
          refine chainsFrom_skip lower (Nat.le_of_lt upper) fun k first last => ?_
          rw [chains]
          exact firstFull_before next first last
        have here : h.chainAt (bkt * 32 + i) = chainsOf elements i := by
          rw [chainAt_index upper, chains]
        cases chain : chainsOf elements i with
        | nil => exact absurd chain full
        | cons first walk =>
          have cells : h.chainsFrom (bkt * 32 + i) =
              (first :: walk) :: h.chainsFrom (bkt * 32 + i + 1) := by
            rw [chainsFrom, fullCells_full (by omega) (by rw [here]; exact full), here, chain]
            rfl
          rw [skips, cells]
          refine ⟨fun other rest both => ?_, nofun⟩
          cases both
          refine ⟨first, walk, bkt, i + 1, rfl, ?_, rfl, by omega, upper, taken⟩
          simp only [overSpines, Int.toNat_natCast, taken, if_true, found, next, chain,
            List.head?_cons, Option.map_some]
    · have zero : index = 0 := inside.resolve_right taken
      subst zero
      have skips : h.chainsFrom (bkt * 32 + 0) = h.chainsFrom (bkt * 32 + 32) := by
        refine chainsFrom_skip bound (Nat.le_refl 32) fun k _ _ => ?_
        rw [spineChains_free taken]
      have step : h.overSpines (room + 1) ⟨crt, (bkt : Nat), 0, base⟩ =
          h.overSpines room ⟨crt, ((bkt + 1 : Nat) : Int), 0, base⟩ := by
        simp only [overSpines, Int.toNat_natCast, if_neg taken, if_pos counts, Int.natCast_succ]
      rw [skips, step, ← onward]
      exact deeper

variable {it : SpineIterator}

theorem next_leaves (beyond : it.crt.tail = []) (counts : it.baseIndex < intMax) :
    h.iteratorNext it =
      match if it.baseIndex + 1 < 64 then
          firstFull (chainsOf h.base) (it.baseIndex + 1).toNat 64 else none with
      | some i => (chainsOf h.base i).head?.map fun crt =>
        (.entry crt, { it with baseIndex := i, crt := chainsOf h.base i })
      | none =>
        h.overSpines (h.spines.maxspines - (if it.bkt < 0 then 0 else it.bkt).toNat)
          { it with baseIndex := it.baseIndex + 1, bkt := if it.bkt < 0 then 0 else it.bkt } := by
  obtain ⟨crt, bkt, spineIndex, baseIndex⟩ := it
  match crt with
  | [] =>
    rw [iteratorNext]
    exact if_pos counts
  | [_] =>
    rw [iteratorNext]
    exact if_pos counts
  | _ :: _ :: _ => cases beyond

theorem base_over (beyond : (if it.baseIndex + 1 < 64 then
      firstFull (chainsOf h.base) (it.baseIndex + 1).toNat 64 else none) = none) :
    h.baseFrom (it.baseIndex + 1).toNat = [] := by
  split at beyond
  · exact firstFull_none beyond
  · exact fullCells_stop (by omega)

theorem next_ahead (tracks : h.spines.Tracks h.ids) (small : (h.spines.maxspines : Int) ≤ intMax)
    {first : Entry} {rest : List Entry} (ahead : h.Ahead it (first :: rest)) :
    ∃ later, h.iteratorNext it = some (.entry first, later) ∧ h.Ahead later rest := by
  obtain ⟨left, begun, fits, bkt, inside, index⟩ := ahead
  cases behind : it.crt.tail with
  | cons next walk =>
    rw [behind, List.cons_append] at left
    cases left
    obtain ⟨crt, bkt, spineIndex, baseIndex⟩ := it
    cases crt with
    | nil => cases behind
    | cons prior =>
      cases behind
      exact ⟨_, rfl, rfl, begun, fits, bkt, inside, index⟩
  | nil =>
    rw [behind, List.nil_append] at left
    have counts : it.baseIndex < intMax := by omega
    rw [next_leaves behind counts]
    cases search : (if it.baseIndex + 1 < 64 then
        firstFull (chainsOf h.base) (it.baseIndex + 1).toNat 64 else none) with
    | some i =>
      split at search
      · obtain ⟨lower, upper, full, cells⟩ := firstFull_some search
        rw [baseFrom, cells, List.flatten_cons] at left
        cases chain : chainsOf h.base i with
        | nil => exact absurd chain full
        | cons crt walk =>
          rw [chain, List.cons_append, List.cons_append, List.append_assoc] at left
          cases left
          refine ⟨{ it with baseIndex := i, crt := first :: walk }, ?_, rfl, ?_, ?_, bkt,
            inside, index⟩
          · simp only [chain, List.head?_cons, Option.map_some]
          · change (-1 : Int) ≤ (i : Nat)
            omega
          · have low : max ((i : Nat) : Int) 63 ≤ max it.baseIndex 63 := by omega
            change max ((i : Nat) : Int) 63 +
              ((h.chainsFrom (it.bkt.toNat * 32 + it.spineIndex)).length : Int) + 1 ≤ intMax
            omega
      · cases search
    | none =>
      have beyond := base_over search
      rw [beyond, List.flatten_nil, List.nil_append] at left
      obtain ⟨spine, at_, room⟩ : ∃ spine : Nat,
          (if it.bkt < 0 then 0 else it.bkt) = spine ∧ it.bkt.toNat = spine := by
        refine ⟨it.bkt.toNat, ?_, rfl⟩
        split <;> omega
      have limit : spine ≤ h.spines.maxspines := by omega
      rw [room] at left fits inside
      cases chains : h.chainsFrom (spine * 32 + it.spineIndex) with
      | nil =>
        rw [chains] at left
        cases left
      | cons chain others =>
        obtain ⟨crt, walk, next, slot, whole, step, remain, bound, within, taken⟩ :=
          (overSpines_ahead tracks small (h.spines.maxspines - spine) spine it.spineIndex
            it.crt (it.baseIndex + 1) (by omega) index inside).1 chain others chains
        rw [chains, whole, List.flatten_cons, List.cons_append] at left
        cases left
        simp only [at_, Int.toNat_natCast, step]
        refine ⟨_, rfl, ?_, ?_, ?_, ?_, .inr taken, within⟩
        · have next : (it.baseIndex + 1 + 1).toNat = (it.baseIndex + 1).toNat + 1 := by omega
          rw [baseFrom] at beyond
          simp only [List.tail_cons, next, baseFrom, fullCells_nil beyond, List.flatten_nil,
            List.nil_append, Int.toNat_natCast, remain]
        · dsimp only
          omega
        · rw [chains, List.length_cons] at fits
          simp only [Int.toNat_natCast, ← remain]
          omega
        · dsimp only
          omega

theorem next_finish (tracks : h.spines.Tracks h.ids) (small : (h.spines.maxspines : Int) ≤ intMax)
    (ahead : h.Ahead it []) :
    ∃ last, h.iteratorNext it = some (.null, last) ∧ last.crt = [] ∧
      last.bkt = h.spines.maxspines := by
  obtain ⟨left, begun, fits, bkt, inside, index⟩ := ahead
  obtain ⟨behind, cells⟩ := List.append_eq_nil_iff.mp left.symm
  obtain ⟨base, chains⟩ := List.append_eq_nil_iff.mp cells
  have counts : it.baseIndex < intMax := by omega
  have search : (if it.baseIndex + 1 < 64 then
      firstFull (chainsOf h.base) (it.baseIndex + 1).toNat 64 else none) = none := by
    split
    · cases found : firstFull (chainsOf h.base) (it.baseIndex + 1).toNat 64 with
      | none => rfl
      | some i =>
        obtain ⟨-, -, full, cells⟩ := firstFull_some found
        rw [baseFrom, cells, List.flatten_cons] at base
        exact absurd (List.append_eq_nil_iff.mp base).1 full
    · rfl
  have empty : h.chainsFrom (it.bkt.toNat * 32 + it.spineIndex) = [] := by
    cases cells : h.chainsFrom (it.bkt.toNat * 32 + it.spineIndex) with
    | nil => rfl
    | cons chain rest =>
      have full : chain ≠ [] := fullCells_nonempty chain (by
        rw [chainsFrom] at cells
        rw [cells]
        exact List.mem_cons_self)
      rw [cells, List.flatten_cons] at chains
      exact absurd (List.append_eq_nil_iff.mp chains).1 full
  obtain ⟨spine, at_, room⟩ : ∃ spine : Nat,
      (if it.bkt < 0 then 0 else it.bkt) = spine ∧ it.bkt.toNat = spine := by
    refine ⟨it.bkt.toNat, ?_, rfl⟩
    split <;> omega
  rw [room] at empty inside
  rw [next_leaves behind counts, search]
  simp only [at_, Int.toNat_natCast]
  exact (overSpines_ahead tracks small (h.spines.maxspines - spine) spine it.spineIndex it.crt
    (it.baseIndex + 1) (by omega) index inside).2 empty

theorem iteration_exact {map : FiniteMap} (wf : h.erase.WellFormed keys)
    (tracks : h.spines.Tracks h.ids) (represents : ∀ key, h.erase.binding keys key = map key)
    (fits : h.FitsInt) : h.iteration.Exact keys map := by
  have bmod : (h.spines.maxspines : Int).bmod (2 ^ 32) = h.spines.maxspines := by
    have small := fits.1
    rw [intMax] at small
    exact Int.bmod_eq_of_le (by omega) (by omega)
  have new : h.Ahead ⟨[], -1, 0, -1⟩ ((h.baseFrom 0).flatten ++ (h.chainsFrom 0).flatten) := by
    refine ⟨rfl, Int.le_refl _, ?_, ?_, .inl rfl, Nat.zero_le 32⟩
    · have counted := fits.2
      change max (-1 : Int) 63 + ((h.chainsFrom 0).length : Int) + 1 ≤ intMax
      omega
    · change (-1 : Int) ≤ h.spines.maxspines
      omega
  obtain ⟨last, returns, equals⟩ := h.iteration.returns h.Ahead
    (fun it first rest ahead => next_ahead tracks fits.1 ahead)
    (fun it ahead => by
      obtain ⟨last, returned, crt, bkt⟩ := next_finish tracks fits.1 ahead
      refine ⟨last, returned, ?_⟩
      simp only [iteration, crt, bkt, bmod]
      simp) new
  exact ⟨_, last, returns, entries_listed wf tracks represents, equals⟩

end SpineTrie

end Qthreads.Dict
