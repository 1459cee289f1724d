import Mathlib.Algebra.Group.Nat.Defs
import Mathlib.Data.List.Basic

namespace Qthreads.Lib.Bytes

/-! A number of a given width, least byte first, and the buffer with a run of bytes written at an
offset. -/

def encode : Nat → Nat → List UInt8
  | 0, _ => []
  | width + 1, value => UInt8.ofNat (value % 256) :: encode width (value / 256)

def decode : List UInt8 → Nat
  | [] => 0
  | byte :: bytes => byte.toNat + 256 * decode bytes

@[simp] theorem encode_length (width value : Nat) : (encode width value).length = width := by
  induction width generalizing value with
  | zero => rfl
  | succ width ih => simp only [encode, List.length_cons, ih]

theorem decode_encode (width value : Nat) : decode (encode width value) = value % 256 ^ width := by
  induction width generalizing value with
  | zero => simp only [encode, decode, Nat.pow_zero, Nat.mod_one]
  | succ width ih =>
    have byte : (UInt8.ofNat (value % 256)).toNat = value % 256 := by
      rw [UInt8.toNat_ofNat']
      exact Nat.mod_mod value 256
    rw [encode, decode, byte, ih, Nat.pow_succ', Nat.mod_mul]

theorem decode_encode_of_lt {width value : Nat} (fits : value < 256 ^ width) :
    decode (encode width value) = value := by
  rw [decode_encode, Nat.mod_eq_of_lt fits]

/-- The buffer after `memcpy(buffer + offset, bytes, bytes.length)`. -/
def store (buffer : List UInt8) (offset : Nat) (bytes : List UInt8) : List UInt8 :=
  buffer.take offset ++ bytes ++ buffer.drop (offset + bytes.length)

def load (buffer : List UInt8) (offset size : Nat) : List UInt8 := (buffer.drop offset).take size

variable {buffer bytes : List UInt8} {offset : Nat}

@[simp] theorem store_length (room : offset + bytes.length ≤ buffer.length) :
    (store buffer offset bytes).length = buffer.length := by
  simp only [store, List.length_append, List.length_take, List.length_drop]
  omega

theorem load_take {size : Nat} {total : Nat} (inside : offset + size ≤ total) :
    load (buffer.take total) offset size = load buffer offset size := by
  rw [load, load, List.drop_take, List.take_take, Nat.min_eq_left (by omega)]

theorem load_store (room : offset + bytes.length ≤ buffer.length) :
    load (store buffer offset bytes) offset bytes.length = bytes := by
  have before : (buffer.take offset).length = offset := by
    rw [List.length_take]
    omega
  rw [load, store, List.append_assoc, List.drop_left' before, List.take_left' rfl]

theorem load_store_before {other size : Nat} (apart : other + size ≤ offset)
    (room : offset + bytes.length ≤ buffer.length) :
    load (store buffer offset bytes) other size = load buffer other size := by
  have before : (buffer.take offset).length = offset := by
    rw [List.length_take]
    omega
  rw [load, load, store, List.append_assoc, List.drop_append_of_le_length (by omega),
    List.take_append_of_le_length (by rw [List.length_drop]; omega), List.drop_take,
    List.take_take, Nat.min_eq_left (by omega)]

theorem load_store_behind {other size : Nat} (apart : offset + bytes.length ≤ other)
    (room : offset + bytes.length ≤ buffer.length) :
    load (store buffer offset bytes) other size = load buffer other size := by
  have front : (buffer.take offset ++ bytes).length = offset + bytes.length := by
    rw [List.length_append, List.length_take]
    omega
  have rest : other = offset + bytes.length + (other - (offset + bytes.length)) := by omega
  rw [load, load, store, rest, ← List.drop_drop, List.drop_left' front, List.drop_drop]

theorem load_store_apart {other size : Nat}
    (apart : other + size ≤ offset ∨ offset + bytes.length ≤ other)
    (room : offset + bytes.length ≤ buffer.length) :
    load (store buffer offset bytes) other size = load buffer other size := by
  rcases apart with before | behind
  · exact load_store_before before room
  · exact load_store_behind behind room

@[irreducible] def loadWord (mem : Nat → UInt8) (address : Nat) : Nat :=
  decode ((List.range 8).map fun i => mem (address + i))

def storeWord (mem : Nat → UInt8) (address value : Nat) : Nat → UInt8 := fun byte =>
  if address ≤ byte ∧ byte < address + 8 then (encode 8 value).getD (byte - address) 0 else mem byte

variable {mem other : Nat → UInt8} {address value : Nat}

theorem loadWord_congr (same : ∀ i < 8, other (address + i) = mem (address + i)) :
    loadWord other address = loadWord mem address := by
  rw [loadWord, loadWord]
  congr 1
  refine List.map_congr_left fun i member => ?_
  exact same i (List.mem_range.mp member)

theorem decode_zeros (width : Nat) : decode (List.replicate width 0) = 0 := by
  induction width with
  | zero => rfl
  | succ width ih => rw [List.replicate_succ, decode, ih, UInt8.toNat_zero]

theorem loadWord_zero : loadWord (fun _ => 0) address = 0 := by
  rw [loadWord, List.map_const', decode_zeros]

theorem loadWord_storeWord (fits : value < 2 ^ 64) :
    loadWord (storeWord mem address value) address = value := by
  have bytes : ((List.range 8).map fun i => storeWord mem address value (address + i)) =
      encode 8 value := by
    refine List.ext_getElem (by simp) ?_
    intro i inside _
    have below : i < 8 := by simpa using inside
    rw [List.getElem_map, List.getElem_range, storeWord, if_pos (by omega), Nat.add_sub_cancel_left]
    rw [List.getD_eq_getElem?_getD, List.getElem?_eq_getElem (by simpa using below),
      Option.getD_some]
  rw [loadWord, bytes, decode_encode_of_lt fits]

theorem loadWord_storeWord_apart {word : Nat} (apart : word + 8 ≤ address ∨ address + 8 ≤ word) :
    loadWord (storeWord mem address value) word = loadWord mem word := by
  refine loadWord_congr fun i below => ?_
  rw [storeWord, if_neg (by omega)]

end Qthreads.Lib.Bytes
