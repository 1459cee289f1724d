import Qthreads.Dict.Trie

namespace Qthreads.Dict

open Function (update)

/-! The spines of `dictionary_trie.c` and their numbers

The trie with the number that a slot has for its spine, and with `h->spines`.  The way up by
`parent` is the way down. -/

inductive Cell where
  | empty
  | chain (head : Entry) (next : List Entry)
  | spine (count id : Nat) (elements : Fin 32 → Cell)

structure Spines where
  taken : Nat → Bool
  maxspines : Nat
  numspines : UInt64

namespace Spines

/-- `allocate_spine`; no number is free where the assertion fails. -/
def allocate (s : Spines) : Option (Nat × Spines) :=
  let newspineCt := s.numspines + 1
  let maxspines := if newspineCt.toNat ≥ s.maxspines then s.maxspines * 2 else s.maxspines
  ((List.range maxspines).find? fun id => !s.taken id).map fun id =>
    (id, ⟨update s.taken id true, maxspines, newspineCt⟩)

/-- `deallocate_spine`. -/
def deallocate (s : Spines) (id : Nat) : Spines :=
  { s with taken := update s.taken id false, numspines := s.numspines - 1 }

end Spines

def Cell.countedAs (count id : Nat) (elements : Fin 32 → Cell) (s : Spines) : Cell × Spines :=
  if count = 0 then (.empty, s.deallocate id) else (.spine count id elements, s)

def Cell.ofChain : List Entry → Cell
  | [] => .empty
  | head :: next => .chain head next

/-- As `upgrade`.  After a push-down into one bucket the loop goes round with the value it had:
it allocates another spine, fails to store it, and gives it back. -/
def upgradeCell (e head : Entry) (next : List Entry) :
    Nat → Nat → Spines → Option (Cell × Spines)
  | room, depth, s =>
    let bucket1 := spineBucket head.hashedKey (depth + 1)
    let bucket2 := spineBucket e.hashedKey (depth + 1)
    match s.allocate with
    | none => none
    | some (id, s) =>
      if bucket1 ≠ bucket2 then
        some (.spine 2 id (update (update (fun _ => .empty) bucket1
          (.chain head next)) bucket2 (.chain e [])), s)
      else
        match s.allocate, room with
        | none, _ => none
        | some _, 0 => none
        | some (spare, s), room + 1 =>
          (upgradeCell e head next room (depth + 1) (s.deallocate spare)).map fun inner =>
            (.spine 1 id (update (fun _ => .empty) bucket1 inner.1), inner.2)

/-- As `Placed`, with the spines. -/
structure PlacedCell where
  cell : Cell
  value : UInt64
  added : Bool
  spines : Spines

/-- As `Removed`, with the spines. -/
structure RemovedCell where
  cell : Cell
  freed : Option Entry
  up : Bool
  spines : Spines

namespace Cell

/-- `qt_hash_put_helper` from a slot on. -/
def put (keys : KeyOps) (ifAbsent : Bool) (e : Entry) : Nat → Cell → Spines → Option PlacedCell
  | _, empty, s => some ⟨chain e [], e.value, true, s⟩
  | depth, spine count id elements, s =>
    let bucket := spineBucket e.hashedKey (depth + 1)
    if count + 1 < countLimit ∧ depth + 1 ≤ maxDepth then
      ((elements bucket).put keys ifAbsent e (depth + 1) s).map fun placed =>
        let left := countedAs (if placed.added then count + 1 else count) id
          (update elements bucket placed.cell) placed.spines
        ⟨left.1, placed.value, false, left.2⟩
    else none
  | depth, chain head next, s =>
    if head.hashedKey ≠ e.hashedKey then
      (upgradeCell e head next (maxDepth - depth) depth s).map fun made =>
        ⟨made.1, e.value, false, made.2⟩
    else
      match chainPut keys ifAbsent e (head :: next) with
      | some (value, list) => some ⟨ofChain list, value, false, s⟩
      | none => some ⟨chain e (head :: next), e.value, true, s⟩

/-- `qt_dictionary_remove` from a slot on. -/
def remove (keys : KeyOps) (lkey key : UInt64) : Nat → Cell → Spines → Option RemovedCell
  | _, empty, s => some ⟨empty, none, false, s⟩
  | depth, spine count id elements, s =>
    let bucket := spineBucket lkey (depth + 1)
    if depth + 1 ≤ maxDepth then
      ((elements bucket).remove keys lkey key (depth + 1) s).map fun removed =>
        if removed.up then
          let left := countedAs (count - 1) id
            (update elements bucket removed.cell) removed.spines
          ⟨left.1, removed.freed, count - 1 = 0, left.2⟩
        else
          ⟨spine count id (update elements bucket removed.cell), removed.freed, false,
            removed.spines⟩
    else none
  | _, chain head next, s =>
    if head.hashedKey = lkey then
      if (head :: next).any fun e => keys.opEquals e.key key then
        some ⟨ofChain ((head :: next).eraseP fun e => keys.opEquals e.key key), some head, true, s⟩
      else some ⟨chain head next, none, false, s⟩
    else some ⟨chain head next, none, false, s⟩

/-- `qt_dictionary_get` from a slot on. -/
def get (keys : KeyOps) (lkey key : UInt64) : Nat → Cell → Option UInt64
  | _, empty => some 0
  | depth, spine _ _ elements =>
    if depth + 1 ≤ maxDepth then
      (elements (spineBucket lkey (depth + 1))).get keys lkey key (depth + 1)
    else none
  | _, chain head next =>
    if head.hashedKey = lkey then
      match (head :: next).find? fun e => keys.opEquals e.key key with
      | some e => some e.value
      | none => some 0
    else some 0

end Cell

structure SpineTrie where
  base : Fin 64 → Cell
  spines : Spines
  count : UInt64
  fresh : Nat
  freed : List Entry

namespace SpineTrie

/-- `qt_hash_create`: `base`, `count` and `numspines` are what `malloc` left in the block. -/
def create (pageWords : Nat) (base : Fin 64 → Cell) (count numspines : UInt64) : SpineTrie :=
  ⟨base, ⟨fun _ => false, pageWords, numspines⟩, count, 0, []⟩

def putHelper (keys : KeyOps) (h : SpineTrie) (key value : UInt64) (ifAbsent : Bool) :
    Option (UInt64 × SpineTrie) :=
  let lkey := keys.hash key
  let bucket := baseSpineBucket lkey
  ((h.base bucket).put keys ifAbsent ⟨h.fresh, lkey, key, value⟩ 0 h.spines).map fun placed =>
    (placed.value,
      { h with
        base := update h.base bucket placed.cell
        spines := placed.spines
        fresh := h.fresh + 1 })

def get (keys : KeyOps) (h : SpineTrie) (key : UInt64) : Option UInt64 :=
  (h.base (baseSpineBucket (keys.hash key))).get keys (keys.hash key) key 0

def remove (keys : KeyOps) (h : SpineTrie) (key : UInt64) : Option (Bool × SpineTrie) :=
  let lkey := keys.hash key
  let bucket := baseSpineBucket lkey
  ((h.base bucket).remove keys lkey key 0 h.spines).map fun removed =>
    match removed.freed with
    | none => (false, h)
    | some e => (true, { h with
        base := update h.base bucket removed.cell
        spines := removed.spines
        count := h.count - 1
        freed := e :: h.freed })

def delete (keys : KeyOps) (h : SpineTrie) (key : UInt64) : Option (UInt64 × SpineTrie) :=
  match h.get keys key, h.remove keys key with
  | some val, some (ret, left) => some (if ret then val else 0, left)
  | _, _ => none

def call (keys : KeyOps) (h : SpineTrie) : Call → Option (UInt64 × SpineTrie)
  | .put key value => h.putHelper keys key value false
  | .putIfAbsent key value => h.putHelper keys key value true
  | .get key => (h.get keys key).map fun value => (value, h)
  | .delete key => h.delete keys key

def calls (keys : KeyOps) : SpineTrie → List Call → Option (List UInt64 × SpineTrie)
  | h, [] => some ([], h)
  | h, first :: rest =>
    match h.call keys first with
    | none => none
    | some (answer, next) =>
      match calls keys next rest with
      | none => none
      | some (answers, last) => some (answer :: answers, last)

end SpineTrie

namespace Cell

def erase : Cell → Slot
  | empty => .empty
  | chain head next => .chain head next
  | spine count _ elements => .spine count fun i => (elements i).erase

theorem erase_update (elements : Fin 32 → Cell) (bucket : Fin 32) (cell : Cell) :
    (fun i => (update elements bucket cell i).erase) =
      update (fun i => (elements i).erase) bucket cell.erase :=
  Function.comp_update erase elements bucket cell

theorem erase_ofChain (list : List Entry) : (ofChain list).erase = chained list := by
  cases list <;> rfl

theorem erase_countedAs (count id : Nat) (elements : Fin 32 → Cell) (s : Spines) :
    (countedAs count id elements s).1.erase = counted count fun i => (elements i).erase := by
  rw [countedAs, counted]
  split <;> rfl

end Cell

theorem upgradeCell_cases {e head : Entry} {next : List Entry} {room depth : Nat}
    {s left : Spines} {cell : Cell}
    (made : upgradeCell e head next room depth s = some (cell, left)) :
    ∃ id first, s.allocate = some (id, first) ∧
      ((spineBucket head.hashedKey (depth + 1) ≠ spineBucket e.hashedKey (depth + 1) ∧
        cell = .spine 2 id (update (update (fun _ => .empty)
          (spineBucket head.hashedKey (depth + 1)) (.chain head next))
          (spineBucket e.hashedKey (depth + 1)) (.chain e [])) ∧ left = first) ∨
      (spineBucket head.hashedKey (depth + 1) = spineBucket e.hashedKey (depth + 1) ∧
        ∃ spare second deeper inner, first.allocate = some (spare, second) ∧ room = deeper + 1 ∧
          upgradeCell e head next deeper (depth + 1) (second.deallocate spare) =
            some (inner, left) ∧
          cell = .spine 1 id (update (fun _ => .empty)
            (spineBucket head.hashedKey (depth + 1)) inner))) := by
  unfold upgradeCell at made
  dsimp only at made
  split at made
  · cases made
  · rename_i id first allocated
    refine ⟨id, first, allocated, ?_⟩
    split at made
    · rename_i apart
      cases made
      exact .inl ⟨apart, rfl, rfl⟩
    · rename_i same
      split at made
      · cases made
      · cases made
      · rename_i spare second deeper again
        obtain ⟨inner, pushed, both⟩ := Option.map_eq_some_iff.mp made
        cases both
        exact .inr ⟨not_not.mp same, spare, second, deeper, inner.1, again, rfl, pushed, rfl⟩

namespace Cell

theorem erase_upgrade {e head : Entry} {next : List Entry} {room depth : Nat} {s left : Spines}
    {cell : Cell} (made : upgradeCell e head next room depth s = some (cell, left)) :
    upgrade e head next room depth = some cell.erase := by
  induction room generalizing depth s cell with
  | zero =>
    obtain ⟨id, first, -, ⟨apart, rfl, -⟩ | ⟨-, _, _, _, _, -, short, -⟩⟩ :=
      upgradeCell_cases made
    · rw [upgrade, if_pos apart]
      simp only [erase, erase_update]
    · cases short
  | succ room ih =>
    obtain ⟨id, first, -, ⟨apart, rfl, -⟩ | ⟨same, _, _, _, inner, -, fits, pushed, rfl⟩⟩ :=
      upgradeCell_cases made
    · rw [upgrade, if_pos apart]
      simp only [erase, erase_update]
    · cases fits
      rw [upgrade, if_neg (not_not_intro same)]
      simp only [ih pushed, Option.map_some, erase, erase_update]

variable {keys : KeyOps} {depth : Nat} {cell : Cell} {s : Spines}

theorem erase_put {ifAbsent : Bool} {e : Entry} {placed : PlacedCell}
    (put : cell.put keys ifAbsent e depth s = some placed) :
    cell.erase.put keys ifAbsent e depth =
      some ⟨placed.cell.erase, placed.value, placed.added⟩ := by
  induction cell generalizing depth s placed with
  | empty =>
    cases put
    rfl
  | chain head next =>
    rw [Cell.put] at put
    rw [erase, Slot.put]
    split at put
    · rename_i differ
      obtain ⟨made, pushed, both⟩ := Option.map_eq_some_iff.mp put
      cases both
      rw [if_pos differ, erase_upgrade pushed, Option.map_some]
    · rename_i same
      rw [if_neg same]
      revert put
      cases chainPut keys ifAbsent e (head :: next) with
      | none =>
        intro put
        cases put
        simp only [erase]
      | some changed =>
        intro put
        cases put
        simp only [erase_ofChain]
  | spine count id elements ih =>
    rw [Cell.put] at put
    dsimp only at put
    split at put
    · rename_i room
      obtain ⟨inner, deeper, both⟩ := Option.map_eq_some_iff.mp put
      cases both
      simp only [erase, Slot.put, if_pos room, ih _ deeper, Option.map_some, erase_countedAs,
        erase_update]
    · cases put

theorem erase_remove {lkey key : UInt64} {removed : RemovedCell}
    (remove : cell.remove keys lkey key depth s = some removed) :
    cell.erase.remove keys lkey key depth =
      some ⟨removed.cell.erase, removed.freed, removed.up⟩ := by
  induction cell generalizing depth s removed with
  | empty =>
    cases remove
    rfl
  | chain head next =>
    rw [Cell.remove] at remove
    rw [erase, Slot.remove]
    split at remove
    · rename_i same
      rw [if_pos same]
      split at remove
      · rename_i found
        cases remove
        rw [if_pos found, erase_ofChain]
      · rename_i absent
        cases remove
        rw [if_neg absent]
        rfl
    · rename_i differ
      cases remove
      rw [if_neg differ]
      rfl
  | spine count id elements ih =>
    rw [Cell.remove] at remove
    dsimp only at remove
    split at remove
    · rename_i room
      obtain ⟨inner, deeper, both⟩ := Option.map_eq_some_iff.mp remove
      cases both
      simp only [erase, Slot.remove, if_pos room, ih _ deeper, Option.map_some]
      cases inner.up with
      | true => simp only [if_true, erase_countedAs, erase_update]
      | false => simp only [Bool.false_eq_true, if_false, erase, erase_update]
    · cases remove

theorem erase_get (lkey key : UInt64) :
    cell.erase.get keys lkey key depth = cell.get keys lkey key depth := by
  induction cell generalizing depth with
  | empty => rfl
  | chain head next => rfl
  | spine count id elements ih => simp only [erase, Slot.get, Cell.get, ih]

end Cell

namespace SpineTrie

variable {keys : KeyOps} {h : SpineTrie}

def erase (h : SpineTrie) : Trie := ⟨fun i => (h.base i).erase, h.count, h.fresh, h.freed⟩

theorem erase_base (h : SpineTrie) (bucket : Fin 64) (cell : Cell) :
    (fun i => (update h.base bucket cell i).erase) =
      update (fun i => (h.base i).erase) bucket cell.erase :=
  Function.comp_update Cell.erase h.base bucket cell

variable {left : SpineTrie}

theorem erase_putHelper {key value result : UInt64} {ifAbsent : Bool}
    (put : h.putHelper keys key value ifAbsent = some (result, left)) :
    h.erase.putHelper keys key value ifAbsent = some (result, left.erase) := by
  obtain ⟨placed, stored, both⟩ := Option.map_eq_some_iff.mp put
  cases both
  have erased := Cell.erase_put stored
  simp only [Trie.putHelper, erase, erase_base] at erased ⊢
  rw [erased]
  rfl

theorem erase_get (h : SpineTrie) (key : UInt64) : h.erase.get keys key = h.get keys key :=
  Cell.erase_get ..

theorem erase_remove {key : UInt64} {ret : Bool} (remove : h.remove keys key = some (ret, left)) :
    h.erase.remove keys key = some (ret, left.erase) := by
  obtain ⟨removed, unlinked, both⟩ := Option.map_eq_some_iff.mp remove
  have erased := Cell.erase_remove unlinked
  simp only [Trie.remove, erase] at erased ⊢
  rw [erased, Option.map_some]
  cases freed : removed.freed with
  | none =>
    rw [freed] at both
    cases both
    rfl
  | some e =>
    rw [freed] at both
    cases both
    simp only [erase_base]

theorem erase_call {call : Call} {answer : UInt64}
    (called : h.call keys call = some (answer, left)) :
    h.erase.call keys call = some (answer, left.erase) := by
  cases call with
  | put key value => exact erase_putHelper called
  | putIfAbsent key value => exact erase_putHelper called
  | get key =>
    obtain ⟨value, got, both⟩ := Option.map_eq_some_iff.mp called
    cases both
    rw [Trie.call, erase_get, got]
    rfl
  | delete key =>
    simp only [SpineTrie.call, delete] at called
    split at called
    · rename_i val ret after got removed
      cases called
      simp only [Trie.call, Trie.delete, erase_get, got, erase_remove removed]
    · cases called

end SpineTrie

end Qthreads.Dict
