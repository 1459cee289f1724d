import Mathlib.Data.List.Basic

namespace Qthreads.Dict

/-! Keys and values are pointers, 0 is `NULL`. -/

/-- The functions given to `qt_dictionary_create`, with what the header asks of them. -/
structure KeyOps where
  opEquals : UInt64 → UInt64 → Bool
  opHash : UInt64 → Int32
  refl : ∀ key, opEquals key key = true
  symm : ∀ key other, opEquals key other = true → opEquals other key = true
  trans : ∀ key other third, opEquals key other = true → opEquals other third = true →
    opEquals key third = true
  sameHash : ∀ key other, opEquals key other = true → opHash key = opHash other

/-- `list_entry`, with its address; how entries are linked is each implementation's. -/
structure Entry where
  addr : Nat
  hashedKey : UInt64
  key : UInt64
  value : UInt64

inductive Call where
  | put (key value : UInt64)
  | putIfAbsent (key value : UInt64)
  | get (key : UInt64)
  | delete (key : UInt64)

namespace Call

def key : Call → UInt64
  | put key _ => key
  | putIfAbsent key _ => key
  | get key => key
  | delete key => key

/-- Neither the key nor the value is `NULL`. -/
def NonNull : Call → Prop
  | put key value => key ≠ 0 ∧ value ≠ 0
  | putIfAbsent key value => key ≠ 0 ∧ value ≠ 0
  | get key => key ≠ 0
  | delete key => key ≠ 0

instance : (call : Call) → Decidable call.NonNull
  | put key value => inferInstanceAs (Decidable (key ≠ 0 ∧ value ≠ 0))
  | putIfAbsent key value => inferInstanceAs (Decidable (key ≠ 0 ∧ value ≠ 0))
  | get key => inferInstanceAs (Decidable (key ≠ 0))
  | delete key => inferInstanceAs (Decidable (key ≠ 0))

end Call

abbrev FiniteMap := UInt64 → Option UInt64

namespace FiniteMap

def bind (keys : KeyOps) (map : FiniteMap) (key : UInt64) (value : Option UInt64) : FiniteMap :=
  fun other => if keys.opEquals other key then value else map other

def call (keys : KeyOps) (map : FiniteMap) : Call → UInt64 × FiniteMap
  | .put key value => (value, map.bind keys key (some value))
  | .putIfAbsent key value =>
    match map key with
    | some old => (old, map)
    | none => (value, map.bind keys key (some value))
  | .get key => ((map key).getD 0, map)
  | .delete key => ((map key).getD 0, map.bind keys key none)

def calls (keys : KeyOps) : FiniteMap → List Call → List UInt64 × FiniteMap
  | map, [] => ([], map)
  | map, first :: rest =>
    ((map.call keys first).1 :: (calls keys (map.call keys first).2 rest).1,
      (calls keys (map.call keys first).2 rest).2)

end FiniteMap

end Qthreads.Dict
