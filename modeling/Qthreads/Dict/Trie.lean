import Mathlib.Algebra.BigOperators.Fin
import Qthreads.Dict.Interface

namespace Qthreads.Dict

open Function (update)

/-! `dictionary_trie.c` on one task

A slot of a spine is empty, the head of a chain of entries with one hash, or a pointer to a
spine with the count kept in it.  A spine is told by the slot that points to it: its number in
`h->spines` and the `parent` it has for the way back are not part of the model.  On one task no
compare-and-swap fails, other than the one that a push-down repeats. -/

inductive Slot where
  | empty
  | chain (head : Entry) (next : List Entry)
  | spine (count : Nat) (elements : Fin 32 → Slot)

/-- `(uint64_t)(uintptr_t)(op_hash(key))`. -/
def KeyOps.hash (keys : KeyOps) (key : UInt64) : UInt64 := (keys.opHash key).toInt64.toUInt64

def baseSpineBucket (key : UInt64) : Fin 64 := .ofNat 64 key.toNat

def spineBucket (key : UInt64) (depth : Nat) : Fin 32 :=
  .ofNat 32 (key.toNat >>> (6 + 5 * (depth - 1)))

def maxDepth : Nat := 11

/-- What the assertion of `INCREMENT_COUNT` keeps the count under. -/
def countLimit : Nat := 0x7fffffff

def counted (count : Nat) (elements : Fin 32 → Slot) : Slot :=
  if count = 0 then .empty else .spine count elements

def chained : List Entry → Slot
  | [] => .empty
  | head :: next => .chain head next

/-- The slot after a put, what the put returns, and whether the spine around the slot keeps the
count it was given on the way in. -/
structure Placed where
  slot : Slot
  value : UInt64
  added : Bool

def chainPut (keys : KeyOps) (ifAbsent : Bool) (e : Entry) : List Entry → Option (UInt64 × List Entry)
  | [] => none
  | crt :: next =>
    if keys.opEquals crt.key e.key then
      if ifAbsent then some (crt.value, crt :: next)
      else some (e.value, { crt with value := e.value } :: next)
    else (chainPut keys ifAbsent e next).map fun found => (found.1, crt :: found.2)

/-- Pushing a chain down, with the depth its slot is at and the depths that may still be entered.
Where both hashes have one bucket the new spine is entered and the chain pushed down in it. -/
def upgrade (e head : Entry) (next : List Entry) : Nat → Nat → Option Slot
  | room, depth =>
    let bucket1 := spineBucket head.hashedKey (depth + 1)
    let bucket2 := spineBucket e.hashedKey (depth + 1)
    if bucket1 ≠ bucket2 then
      some (.spine 2 (update (update (fun _ => .empty) bucket1
        (.chain head next)) bucket2 (.chain e [])))
    else
      match room with
      | 0 => none
      | room + 1 => (upgrade e head next room (depth + 1)).map fun inner =>
        .spine 1 (update (fun _ => .empty) bucket1 inner)

namespace Slot

/-- `qt_hash_put_helper` from a slot on; no result where an assertion fails. -/
def put (keys : KeyOps) (ifAbsent : Bool) (e : Entry) : Nat → Slot → Option Placed
  | _, empty => some ⟨chain e [], e.value, true⟩
  | depth, spine count elements =>
    let bucket := spineBucket e.hashedKey (depth + 1)
    if count + 1 < countLimit ∧ depth + 1 ≤ maxDepth then
      ((elements bucket).put keys ifAbsent e (depth + 1)).map fun placed =>
        ⟨counted (if placed.added then count + 1 else count)
          (update elements bucket placed.slot), placed.value, false⟩
    else none
  | depth, chain head next =>
    if head.hashedKey ≠ e.hashedKey then
      (upgrade e head next (maxDepth - depth) depth).map fun slot => ⟨slot, e.value, false⟩
    else
      match chainPut keys ifAbsent e (head :: next) with
      | some (value, list) => some ⟨chained list, value, false⟩
      | none => some ⟨chain e (head :: next), e.value, true⟩

/-- `qt_dictionary_get` from a slot on. -/
def get (keys : KeyOps) (lkey key : UInt64) : Nat → Slot → Option UInt64
  | _, empty => some 0
  | depth, spine _ elements =>
    if depth + 1 ≤ maxDepth then
      (elements (spineBucket lkey (depth + 1))).get keys lkey key (depth + 1)
    else none
  | _, chain head next =>
    if head.hashedKey = lkey then
      match (head :: next).find? fun e => keys.opEquals e.key key with
      | some e => some e.value
      | none => some 0
    else some 0

end Slot

/-- The slot after a removal, the entry that is cleaned up and freed if the key was there, and
whether the spine around the slot is to be counted down. -/
structure Removed where
  slot : Slot
  freed : Option Entry
  up : Bool

/-- `qt_dictionary_remove` from a slot on.  The entry with the key is unlinked, and the head of
its chain is freed. -/
def Slot.remove (keys : KeyOps) (lkey key : UInt64) : Nat → Slot → Option Removed
  | _, empty => some ⟨empty, none, false⟩
  | depth, spine count elements =>
    let bucket := spineBucket lkey (depth + 1)
    if depth + 1 ≤ maxDepth then
      ((elements bucket).remove keys lkey key (depth + 1)).map fun removed =>
        if removed.up then
          ⟨counted (count - 1) (update elements bucket removed.slot), removed.freed,
            count - 1 = 0⟩
        else
          ⟨spine count (update elements bucket removed.slot), removed.freed, false⟩
    else none
  | _, chain head next =>
    if head.hashedKey = lkey then
      if (head :: next).any fun e => keys.opEquals e.key key then
        some ⟨chained ((head :: next).eraseP fun e => keys.opEquals e.key key), some head, true⟩
      else some ⟨chain head next, none, false⟩
    else some ⟨chain head next, none, false⟩

structure Trie where
  base : Fin 64 → Slot
  count : UInt64
  fresh : Nat
  freed : List Entry

namespace Trie

/-- `qt_hash_create`: the slots and the count are what `malloc` left in the block. -/
def create (block : Fin 64 → Slot) (count : UInt64) : Trie := ⟨block, count, 0, []⟩

def putHelper (keys : KeyOps) (h : Trie) (key value : UInt64) (ifAbsent : Bool) :
    Option (UInt64 × Trie) :=
  let lkey := keys.hash key
  let bucket := baseSpineBucket lkey
  ((h.base bucket).put keys ifAbsent ⟨h.fresh, lkey, key, value⟩ 0).map fun placed =>
    (placed.value,
      { h with base := update h.base bucket placed.slot, fresh := h.fresh + 1 })

def get (keys : KeyOps) (h : Trie) (key : UInt64) : Option UInt64 :=
  (h.base (baseSpineBucket (keys.hash key))).get keys (keys.hash key) key 0

def remove (keys : KeyOps) (h : Trie) (key : UInt64) : Option (Bool × Trie) :=
  let lkey := keys.hash key
  let bucket := baseSpineBucket lkey
  ((h.base bucket).remove keys lkey key 0).map fun removed =>
    match removed.freed with
    | none => (false, h)
    | some e => (true, { h with
        base := update h.base bucket removed.slot
        count := h.count - 1
        freed := e :: h.freed })

def delete (keys : KeyOps) (h : Trie) (key : UInt64) : Option (UInt64 × Trie) :=
  match h.get keys key, h.remove keys key with
  | some val, some (ret, after) => some (if ret then val else 0, after)
  | _, _ => none

def call (keys : KeyOps) (h : Trie) : Call → Option (UInt64 × Trie)
  | .put key value => h.putHelper keys key value false
  | .putIfAbsent key value => h.putHelper keys key value true
  | .get key => (h.get keys key).map fun value => (value, h)
  | .delete key => h.delete keys key

def calls (keys : KeyOps) : Trie → List Call → Option (List UInt64 × Trie)
  | h, [] => some ([], h)
  | h, first :: rest =>
    match h.call keys first with
    | none => none
    | some (answer, next) =>
      match calls keys next rest with
      | none => none
      | some (answers, last) => some (answer :: answers, last)

end Trie

end Qthreads.Dict
