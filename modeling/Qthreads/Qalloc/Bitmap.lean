import Mathlib.Algebra.Group.Int.Defs
import Qthreads.Lib.Bits

namespace Qthreads.Qalloc

open Lib

/-! The bitmaps of `qalloc.c`

No result stands for a byte read behind the end of a bitmap, and for a shift by less than zero. -/

/-- `0xff >> offset` -/
def lastPart (offset : Nat) : Byte := 0xff#8 >>> offset

/-- `0xff & (0xff80 >> offset)` -/
def firstPart (offset : Nat) : Byte := ((0xff80#32 >>> offset) &&& 0xff#32).setWidth 8

def fill (array : List Byte) (value : Byte) (first last : Nat) : List Byte :=
  (List.range' first (last - first)).foldl (fun array i => array.set i value) array

def unmarkbits (array : List Byte) (startbit count : Nat) : List Byte :=
  let endbit := startbit + count - 1
  if startbit / 8 = endbit / 8 then
    let bitmask := lastPart (startbit - startbit / 8 * 8) &&& firstPart (endbit - endbit / 8 * 8)
    array.modify (startbit / 8) (· &&& ~~~bitmask)
  else
    let array := array.modify (startbit / 8) (· &&& ~~~lastPart (startbit - startbit / 8 * 8))
    let array := fill array 0 (startbit / 8 + 1) (endbit / 8)
    array.modify (endbit / 8) (· &&& ~~~firstPart (endbit - endbit / 8 * 8))

def markbits (array : List Byte) (startbit endbit : Nat) : List Byte :=
  if startbit / 8 = endbit / 8 then
    let bitmask := lastPart (startbit - startbit / 8 * 8) &&& firstPart (endbit - endbit / 8 * 8)
    array.modify (startbit / 8) (· ||| bitmask)
  else
    let array := array.modify (startbit / 8) (· ||| lastPart (startbit - startbit / 8 * 8))
    let array := fill array 0xff (startbit / 8 + 1) (endbit / 8)
    array.modify (endbit / 8) (· ||| firstPart (endbit - endbit / 8 * 8))

/-- The first of `bytes` bytes that has a zero bit, or `bytes`. -/
def firstOpen (array : List Byte) (bytes i : Nat) : Option Nat :=
  if i < bytes then
    match array[i]? with
    | none => none
    | some value => if value = 0xff then firstOpen array bytes (i + 1) else some i
  else some i
termination_by bytes - i

/-- `(size_t)-1` -/
def sizeMax : Nat := 2 ^ 64 - 1

def findmarkBit (array : List Byte) (bits : Nat) : Option (List Byte × Nat) := do
  let bytes := bits / 8
  let i ← firstOpen array bytes 0
  if i = bytes then some (array, bytes * 8 + 8)
  else do
    let value ← array[i]?
    match (List.range 8).find? fun k => value &&& (0x80#8 >>> k) = 0 with
    | some k => some (array.modify i (· ||| (0x80#8 >>> k)), i * 8 + k)
    | none => some (array, sizeMax)

/-- The loop in `qalloc_findmark_bits` over the places of a short run in a byte. -/
def slide (array : List Byte) (byte count : Nat) : Nat → Byte → Nat → Option (Option (List Byte × Nat))
  | 0, _, _ => none
  | rounds + 1, mask, bit =>
    if (if mask = 0 then 1 else 0) &&& 1 ≠ 0 then
      match array[byte]? with
      | none => none
      | some value =>
        let xorbyte := mask ^^^ value
        if value &&& xorbyte = value then
          let startbit := byte * 8 + bit
          some (some (markbits array startbit (startbit + count - 1), startbit))
        else slide array byte count rounds (mask.sshiftRight 1) (bit + 1)
    else some none

/-- `qalloc_findmark_bits` for fewer than eight bits. -/
def findmarkFew (array : List Byte) (count byte : Nat) : Option (List Byte × Nat) :=
  if byte < array.length then
    let mask := ((0xff00#32 >>> count) &&& 0xff#32).setWidth 8
    match slide array byte count 8 mask 0 with
    | none => none
    | some (some found) => some found
    | some none => findmarkFew array count (byte + 1)
  else some (array, sizeMax)
termination_by array.length - byte

/-- `(long int)count` -/
def signed (count : Nat) : Int := if count < 2 ^ 63 then count else count - 2 ^ 64

def available (value : Byte) : Nat :=
  if value &&& 0xff = 0 then 8
  else if value &&& 0x7f = 0 then 7
  else if value &&& 0x3f = 0 then 6
  else if value &&& 0x1f = 0 then 5
  else if value &&& 0x0f = 0 then 4
  else if value &&& 0x07 = 0 then 3
  else if value &&& 0x03 = 0 then 2
  else if value &&& 0x01 = 0 then 1
  else 0

/-- The three stages of the search, with `startbit` and `left_to_find` behind the first one. -/
inductive Stage where
  | one
  | two (startbit : Nat) (leftToFind : Int)
  | three (startbit : Nat) (leftToFind : Int)

def Stage.rank : Stage → Nat
  | .three _ _ => 0
  | .one => 1
  | .two _ _ => 2

/-- `qalloc_findmark_bits` for eight bits and more, from a stage and a `byte` on; the second stage
begins behind its `byte++`. -/
def findmarkMany (array : List Byte) (count : Nat) (stage : Stage) (byte : Nat) :
    Option (List Byte × Nat) :=
  match stage with
  | .one =>
    if inside : byte < array.length then
      let value := array[byte]
      if value &&& 0x1 ≠ 0 then findmarkMany array count .one (byte + 1)
      else if available value ≠ 0 then
        let startbit := byte * 8 + (8 - available value)
        let leftToFind := signed count - available value
        if leftToFind = 0 then some (array.set byte 0xff, startbit)
        else if leftToFind < 8 then findmarkMany array count (.three startbit leftToFind) byte
        else findmarkMany array count (.two startbit leftToFind) (byte + 1)
      else findmarkMany array count .one (byte + 1)
    else some (array, sizeMax)
  | .two startbit leftToFind =>
    if inside : byte < array.length then
      if array[byte] = 0 then
        if leftToFind - 8 < 8 then
          findmarkMany array count (.three startbit (leftToFind - 8)) byte
        else findmarkMany array count (.two startbit (leftToFind - 8)) (byte + 1)
      else findmarkMany array count .one byte
    else some (array, sizeMax)
  | .three startbit leftToFind =>
    if inside : byte + 1 < array.length then
      if leftToFind < 0 then none
      else if array[byte + 1] &&& (((0xff00#32 >>> leftToFind.toNat) &&& 0xff#32).setWidth 8) ≠ 0 then
        findmarkMany array count .one (byte + 1)
      else some (markbits array startbit (startbit + count - 1), startbit)
    else none
termination_by 4 * (array.length - byte) + stage.rank
decreasing_by all_goals simp only [Stage.rank]; omega

def findmarkBits (array : List Byte) (count : Nat) : Option (List Byte × Nat) :=
  if count < 8 then findmarkFew array count 0 else findmarkMany array count .one 0

end Qthreads.Qalloc
