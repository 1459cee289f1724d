import Qthreads.Qalloc.Find

namespace Qthreads.Qalloc

open Lib
open Function (update)

/-! `qalloc_dynmalloc`

One call at a time.  A block is told by its offset in the map, and a header by its stream and its
place in the chain of the stream.  There is no result where a task waits for a lock that it holds,
and where a bitmap is read or written behind its end. -/

inductive Lock where
  | stream (stream : Nat)
  | bitmap
  | small (stream place : Nat)
  | big (stream place : Nat)
deriving DecidableEq

abbrev Locks := List Lock

/-- `QALLOC_LOCK` -/
def Locks.acquire (held : Locks) (lock : Lock) : Option Locks :=
  if lock ∈ held then none else some (lock :: held)

/-- `QALLOC_UNLOCK` -/
def Locks.release (held : Locks) (lock : Lock) : Locks := held.erase lock

theorem findmarkBit_length {array after : List Byte} {bits offset : Nat}
    (found : findmarkBit array bits = some (after, offset)) : after.length = array.length := by
  simp only [findmarkBit, Option.bind_eq_bind, Option.bind_eq_some_iff] at found
  obtain ⟨i, -, rest⟩ := found
  split at rest
  · cases rest
    rfl
  · obtain ⟨value, -, marked⟩ := Option.bind_eq_some_iff.mp rest
    split at marked
    · cases marked
      exact List.length_modify ..
    · cases marked
      rfl

structure Header (length : Nat) (Entries : Type) where
  block : Nat
  bitmap : List Byte
  sized : bitmap.length = length
  entries : Entries

/-- `smallblock_t`; `SMALLBLOCK_BITMAP_LEN` is 3 + 1. -/
abbrev Smallblock := Header 4 Unit

/-- `bigblock_header_t`, with `entry` and `block_count` of its entries. -/
abbrev BigblockHeader := Header 20 (Nat → Nat × Nat)

def smallblockSliceCount : Nat := 1920 / 64

def bigblockEntryCount : Nat := 1920 / (8 + 4)

section

variable {length : Nat} {Entries : Type}

/-- `qalloc_findmark_bit` on the bitmap of a header. -/
def Header.findmarkBit (header : Header length Entries) (bits : Nat) :
    Option (Header length Entries × Nat) :=
  match found : Qalloc.findmarkBit header.bitmap bits with
  | none => none
  | some (bitmap, offset) =>
    some (⟨header.block, bitmap, (findmarkBit_length found).trans header.sized, header.entries⟩,
      offset)

structure Chased (length : Nat) (Entries : Type) where
  chain : List (Header length Entries)
  place : Option Nat
  offset : Nat
  held : Locks

def chase (lock : Nat → Lock) (count : Nat) :
    Nat → List (Header length Entries) → Locks → Nat → Option (Chased length Entries)
  | _, [], held, offset => some ⟨[], none, offset, held⟩
  | place, header :: rest, held, _ =>
    match header.findmarkBit count with
    | none => none
    | some (header, offset) =>
      if offset > count then
        match if rest.isEmpty then some held else held.acquire (lock (place + 1)) with
        | none => none
        | some held =>
          (chase lock count (place + 1) rest (held.release (lock place)) offset).map
            fun chased => { chased with chain := header :: chased.chain }
      else some ⟨header :: rest, some place, offset, held⟩

/-- `qalloc_find_smallblock_entry` and `qalloc_find_bigblock_header_entry` -/
def findEntry (lock : Nat → Lock) (count stream : Nat) (chain : List (Header length Entries))
    (held : Locks) (offset : Nat) : Option (Chased length Entries) :=
  match held.acquire (.stream stream) with
  | none => none
  | some held =>
    match if chain.isEmpty then some held else held.acquire (lock 0) with
    | none => none
    | some held => chase lock count 0 chain (held.release (.stream stream)) offset

end

/-- What is in the blocks where a header is made of one: the last two bytes of the bitmap of a
small block, and the entries. -/
structure Memory where
  bytes : Nat → Byte × Byte
  entries : Nat → Nat → Nat × Nat

structure DynMap where
  streamcount : Nat
  streams : 0 < streamcount
  bitmap : List Byte
  smallblocks : Nat → List Smallblock
  bigblocks : Nat → List BigblockHeader
  held : Locks

inductive Returned where
  | slice (block slot : Nat)
  | blocks (block : Nat)
  | null
deriving DecidableEq

inductive Attempt where
  | done (ret : Returned) (m : DynMap)
  | failed (m : DynMap) (offset : Nat)

namespace DynMap

def markBlocks (m : DynMap) (search : List Byte → Option (List Byte × Nat)) :
    Option (DynMap × Nat) :=
  match m.held.acquire .bitmap with
  | none => none
  | some held =>
    (search m.bitmap).map fun found =>
      ({ m with bitmap := found.1, held := held.release .bitmap }, found.2)

def markBlock (m : DynMap) : Option (DynMap × Nat) :=
  m.markBlocks fun bitmap => findmarkBit bitmap (bitmap.length * 8)

def pushing (held : Locks) (stream : Nat) (lock : Lock) : Option Locks :=
  match held.acquire (.stream stream) with
  | none => none
  | some held => (held.acquire lock).map fun held => held.release (.stream stream)

def smallAttempt (memory : Memory) (m : DynMap) (stream offset : Nat) : Option Attempt :=
  match findEntry (.small stream) smallblockSliceCount stream (m.smallblocks stream) m.held
      offset with
  | none => none
  | some chased =>
    let m := { m with
      smallblocks := update m.smallblocks stream chased.chain
      held := chased.held }
    match chased.place with
    | some place =>
      (chased.chain[place]?).map fun sb =>
        .done (.slice sb.block chased.offset)
          { m with held := m.held.release (.small stream place) }
    | none =>
      match m.markBlock with
      | none => none
      | some (m, offset) =>
        if offset > m.bitmap.length * 8 then some (.failed m offset)
        else
          let sb : Smallblock :=
            ⟨offset, [0x80, 0, (memory.bytes offset).1, (memory.bytes offset).2], rfl, ()⟩
          (pushing m.held stream (.small stream 0)).map fun held =>
            .done (.slice offset 0) { m with
              smallblocks := update m.smallblocks stream (sb :: m.smallblocks stream)
              held := held.release (.small stream 0) }

/-- `bbh->entries[offset] = { ret, blocks }` -/
def setEntry (bbh : BigblockHeader) (offset ret blocks : Nat) : BigblockHeader :=
  { bbh with entries := update bbh.entries offset (ret, blocks) }

def bigAttempt (memory : Memory) (ret blocks : Nat) (m : DynMap) (stream offset : Nat) :
    Option Attempt :=
  match findEntry (.big stream) bigblockEntryCount stream (m.bigblocks stream) m.held offset with
  | none => none
  | some chased =>
    let m := { m with
      bigblocks := update m.bigblocks stream chased.chain
      held := chased.held }
    match chased.place with
    | some place =>
      let chain := chased.chain.modify place fun bbh => setEntry bbh chased.offset ret blocks
      some (.done (.blocks ret) { m with
        bigblocks := update m.bigblocks stream chain
        held := m.held.release (.big stream place) })
    | none =>
      match m.markBlock with
      | none => none
      | some (m, newoffset) =>
        if newoffset > m.bitmap.length * 8 then some (.failed m chased.offset)
        else
          let bbh : BigblockHeader :=
            ⟨newoffset, List.replicate 20 0, List.length_replicate, memory.entries newoffset⟩
          match pushing m.held stream (.big stream 0), bbh.findmarkBit bigblockEntryCount with
          | some held, some (bbh, offset) =>
            some (.done (.blocks ret) { m with
              bigblocks := update m.bigblocks stream
                (setEntry bbh offset ret blocks :: m.bigblocks stream)
              held := held.release (.big stream 0) })
          | _, _ => none

def overStreams (attempt : DynMap → Nat → Nat → Option Attempt)
    (giveUp : DynMap → Nat → Option (Returned × DynMap)) (originalStream : Nat) :
    Nat → DynMap → Nat → Nat → Option (Returned × DynMap)
  | 0, _, _, _ => none
  | left + 1, m, stream, offset =>
    match attempt m stream offset with
    | none => none
    | some (.done ret m) => some (ret, m)
    | some (.failed m offset) =>
      if m.streamcount > 1 ∧ (stream + 1) % m.streamcount ≠ originalStream then
        overStreams attempt giveUp originalStream left m ((stream + 1) % m.streamcount) offset
      else giveUp m offset

/-- The roll-back, from `offset` to `offset + blocks - 1` where that is in the bitmap. -/
def rollBack (blocks : Nat) (m : DynMap) (offset : Nat) : Option (Returned × DynMap) :=
  if offset + blocks ≠ 0 ∧ offset < 8 * m.bitmap.length ∧ offset + blocks ≤ 8 * m.bitmap.length then
    some (.null, { m with bitmap := unmarkbits m.bitmap offset blocks })
  else none

/-- `QT_CEIL_POW2(size, 11)` -/
def ceilBlocks (size : Nat) : Nat := (size + 2047) % 2 ^ 64 / 2 ^ 11

def dynmalloc (memory : Memory) (m : DynMap) (me size : Nat) : Option (Returned × DynMap) :=
  let stream := me % m.streamcount
  if size ≤ 64 then
    overStreams (smallAttempt memory) (fun m _ => some (.null, m)) stream m.streamcount m stream 0
  else
    let blocks := ceilBlocks size
    match if blocks > 1 then m.markBlocks fun bitmap => findmarkBits bitmap blocks
        else m.markBlock with
    | none => none
    | some (m, offset) =>
      if offset > m.bitmap.length * 8 then some (.null, m)
      else overStreams (bigAttempt memory offset blocks) (rollBack blocks) stream m.streamcount m
        stream offset

end DynMap

end Qthreads.Qalloc
