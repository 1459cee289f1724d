import Mathlib.Data.UInt
import Qthreads.Lib.Bytes

namespace Qthreads.Net

open Qthreads.Lib.Bytes

/-! The messages of `net.c`

A message is the bytes of a C structure: `return_addr`, `uid`, `origin_node`, `arg_len` and
then `args`, on a little-endian machine with eight-byte alignment. -/

def forkMsgPayload : Nat := 44

def shortMsgTag : Nat := 0x1
def longMsgTag : Nat := 0x6
def returnMsgTag : Nat := 0x4

/-- `sizeof(struct fork_msg_t)` -/
def forkMsgSize : Nat := 64

/-- `sizeof(struct fork_long_msg_t)`: the header's twenty bytes and four of padding. -/
def forkLongMsgSize : Nat := 24

/-- `sizeof(struct return_msg_t)` -/
def returnMsgSize : Nat := 16

/-- The offset of `args`, in both structures. -/
def argsOffset : Nat := 20

structure Field where
  offset : Nat
  size : Nat

def returnAddr : Field := ⟨0, 8⟩
def uid : Field := ⟨8, 4⟩
def originNode : Field := ⟨12, 4⟩
def argLen : Field := ⟨16, 4⟩
def returnVal : Field := ⟨8, 8⟩

namespace Field

def get (field : Field) (message : List UInt8) : Nat :=
  decode (load message field.offset field.size)

def set (field : Field) (value : Nat) (message : List UInt8) : List UInt8 :=
  store message field.offset (encode field.size value)

variable {field other : Field} {message : List UInt8}

def inHeader (field : Field) : Prop := field.offset + field.size ≤ argsOffset

def apart (field other : Field) : Prop :=
  field.offset + field.size ≤ other.offset ∨ other.offset + other.size ≤ field.offset

instance : DecidablePred inHeader := fun _ => Nat.decLe _ _
instance : DecidableRel apart := fun _ _ => inferInstanceAs (Decidable (_ ∨ _))

theorem set_length (value : Nat) (room : field.offset + field.size ≤ message.length) :
    (field.set value message).length = message.length :=
  store_length (by rw [encode_length]; exact room)

theorem get_set {value : Nat} (room : field.offset + field.size ≤ message.length)
    (fits : value < 256 ^ field.size) : field.get (field.set value message) = value := by
  have stored := @load_store message (encode field.size value) field.offset
    (by rw [encode_length]; exact room)
  rw [encode_length] at stored
  rw [get, set, stored, decode_encode_of_lt fits]

theorem get_set_apart {value : Nat} (apart : field.apart other)
    (room : other.offset + other.size ≤ message.length) :
    field.get (other.set value message) = field.get message := by
  rw [get, get, set, load_store_apart]
  · rw [encode_length]
    exact apart
  · rw [encode_length]
    exact room

theorem get_store_behind {offset : Nat} {bytes : List UInt8}
    (apart : field.offset + field.size ≤ offset)
    (room : offset + bytes.length ≤ message.length) :
    field.get (store message offset bytes) = field.get message := by
  rw [get, get, load_store_before apart room]

end Field

/-- The assignments to the header, in the order of `qthread_fork_remote`, over what the memory
held before.  The length goes into 32 bits, and nobody reads it. -/
def forkHeader (memory : List UInt8) (action ret : UInt64) (rank length : Nat) : List UInt8 :=
  argLen.set length (originNode.set rank (returnAddr.set ret.toNat (uid.set action.toNat memory)))

/-- The header and the `memcpy` of the argument. -/
def forkFields (memory : List UInt8) (action ret : UInt64) (rank : Nat) (arg : List UInt8) :
    List UInt8 :=
  store (forkHeader memory action ret rank arg.length) argsOffset arg

structure ForkMsg (message : List UInt8) (action ret : UInt64) (rank : Nat) (arg : List UInt8) :
    Prop where
  returnAddr : returnAddr.get message = ret.toNat
  uid : uid.get message = action.toNat
  originNode : originNode.get message = rank
  args : load message argsOffset arg.length = arg

section Fork

variable {memory arg : List UInt8} {action ret : UInt64} {rank length : Nat}

theorem header_room (field : Field) (inside : field.inHeader) (header : argsOffset ≤ memory.length) :
    field.offset + field.size ≤ memory.length :=
  Nat.le_trans inside header

theorem forkHeader_spec (ret : UInt64) (length : Nat) (header : argsOffset ≤ memory.length) (short : action.toNat < 2 ^ 32)
    (known : rank < 2 ^ 32) :
    (forkHeader memory action ret rank length).length = memory.length ∧
      returnAddr.get (forkHeader memory action ret rank length) = ret.toNat ∧
      uid.get (forkHeader memory action ret rank length) = action.toNat ∧
      originNode.get (forkHeader memory action ret rank length) = rank := by
  have uidLength : (uid.set action.toNat memory).length = memory.length :=
    Field.set_length _ (header_room _ (by decide) header)
  have addrRoom : argsOffset ≤ (uid.set action.toNat memory).length := uidLength ▸ header
  have addrLength := Field.set_length ret.toNat
    (header_room returnAddr (by decide) addrRoom)
  have nodeRoom := addrLength.symm ▸ addrRoom
  have nodeLength := Field.set_length rank
    (header_room originNode (by decide) nodeRoom)
  have lenRoom := nodeLength.symm ▸ nodeRoom
  have lenLength := Field.set_length length
    (header_room argLen (by decide) lenRoom)
  refine ⟨lenLength.trans (nodeLength.trans (addrLength.trans uidLength)), ?_, ?_, ?_⟩
  · rw [forkHeader, Field.get_set_apart (by decide) (header_room _ (by decide) lenRoom),
      Field.get_set_apart (by decide) (header_room _ (by decide) nodeRoom),
      Field.get_set (header_room _ (by decide) addrRoom) ret.toNat_lt]
  · rw [forkHeader, Field.get_set_apart (by decide) (header_room _ (by decide) lenRoom),
      Field.get_set_apart (by decide) (header_room _ (by decide) nodeRoom),
      Field.get_set_apart (by decide) (header_room _ (by decide) addrRoom),
      Field.get_set (header_room _ (by decide) header) short]
  · rw [forkHeader, Field.get_set_apart (by decide) (header_room _ (by decide) lenRoom),
      Field.get_set (header_room _ (by decide) nodeRoom) known]

theorem forkFields_length (room : argsOffset + arg.length ≤ memory.length)
    (short : action.toNat < 2 ^ 32) (known : rank < 2 ^ 32) :
    (forkFields memory action ret rank arg).length = memory.length := by
  have header := Nat.le_trans (Nat.le_add_right _ _) room
  have length := (forkHeader_spec ret arg.length header short known).1
  rw [forkFields, store_length (length ▸ room), length]

theorem forkFields_msg (room : argsOffset + arg.length ≤ memory.length)
    (short : action.toNat < 2 ^ 32) (known : rank < 2 ^ 32) :
    ForkMsg (forkFields memory action ret rank arg) action ret rank arg := by
  have header := Nat.le_trans (Nat.le_add_right _ _) room
  obtain ⟨length, addr, uid, node⟩ :=
    forkHeader_spec ret arg.length header short known
  have behind := length.symm ▸ room
  constructor
  · rw [forkFields, Field.get_store_behind (by decide) behind, addr]
  · rw [forkFields, Field.get_store_behind (by decide) behind, uid]
  · rw [forkFields, Field.get_store_behind (by decide) behind, node]
  · exact load_store behind

end Fork

/-- `ret_msg` of the helpers. -/
def returnMsg (memory : List UInt8) (addr : Nat) (value : UInt64) : List UInt8 :=
  returnVal.set value.toNat (returnAddr.set addr memory)

theorem returnMsg_fields {memory : List UInt8} {addr : Nat} (value : UInt64)
    (size : memory.length = returnMsgSize) (fits : addr < 2 ^ 64) :
    returnAddr.get (returnMsg memory addr value) = addr ∧
      returnVal.get (returnMsg memory addr value) = value.toNat := by
  have room : returnAddr.offset + returnAddr.size ≤ memory.length := size ▸ by decide
  have rest : returnVal.offset + returnVal.size ≤ (returnAddr.set addr memory).length := by
    rw [Field.set_length _ room, size]
    decide
  constructor
  · rw [returnMsg, Field.get_set_apart (by decide) rest, Field.get_set room fits]
  · rw [returnMsg, Field.get_set rest value.toNat_lt]

end Qthreads.Net
