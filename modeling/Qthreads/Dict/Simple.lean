import Qthreads.Dict.Interface
import Qthreads.Lib.Chain
import Qthreads.Lib.Tasks

namespace Qthreads.Dict.Simple

open Lib
open Function (update)

/-! `dictionary_simple.c`: concurrent puts

Any number of tasks run `qt_dictionary_put_helper`, holding the read lock, so that nothing is
deleted meanwhile.  Every read of a bucket, every step along a list and every compare-and-swap is a
step of its own. -/

abbrev Addr := Nat

/-- Where a `list_entry` is: not allocated, with the task that means to add it, or in a list. -/
inductive Owner where
  | free
  | task (task : Nat)
  | listed

/-- The buckets and the entries.  Of `owner` and `lists` the code knows nothing: `lists` has the
entries of each bucket from its head on. -/
structure Shared where
  content : Nat → Option Addr
  next : Addr → Option Addr
  hashedKey : Addr → UInt64
  key : Addr → UInt64
  value : Addr → UInt64
  owner : Addr → Owner
  lists : Nat → List Addr

def bktPow : Int32 := 20

def dictAbs (v : Int32) : Int32 := if v > 0 then v else -v

def getBucket (hash : Int32) : Nat :=
  (dictAbs hash &&& ((1 <<< bktPow) - 1)).toInt.toNat

/-- The `int` as it is stored in `hashed_key` and compared with it. -/
def widen (hash : Int32) : UInt64 := hash.toInt64.toUInt64

inductive PutType where
  | always
  | ifAbsent

structure Put where
  type : PutType
  key : UInt64
  value : UInt64

inductive Pc where
  | idle
  | start (put : Put)
  | walk (put : Put) (head stop walk toadd : Option Addr)
  | found (put : Put) (entry : Addr) (toadd : Option Addr)
  | readValue (put : Put) (entry : Addr)
  | casValue (put : Put) (entry : Addr) (crtVal : UInt64)
  | load (put : Put) (entry : Addr)
  | create (put : Put) (head : Option Addr)
  | casHead (put : Put) (head : Option Addr) (toadd : Addr)
  | reread (put : Put) (head : Option Addr) (toadd : Addr)
  | done (put : Put) (result : UInt64)
  | noMemory (put : Put)

inductive Label where
  | call (put : Put)
  | go
  | ret (put : Put) (result : UInt64)
  | failed (put : Put)

namespace Shared

variable (s : Shared)

/-- The dictionary as `qt_dictionary_create` leaves it. -/
def create : Shared where
  content := fun _ => none
  next := fun _ => none
  hashedKey := fun _ => 0
  key := fun _ => 0
  value := fun _ => 0
  owner := fun _ => .free
  lists := fun _ => []

def setValue (entry : Addr) (value : UInt64) : Shared :=
  { s with value := update s.value entry value }

def setNext (entry : Addr) (next : Option Addr) : Shared :=
  { s with next := update s.next entry next }

/-- `FREE`, where there is something to free. -/
def release : Option Addr → Shared
  | none => s
  | some toadd => { s with owner := update s.owner toadd .free }

/-- `MALLOC`, with the stores that follow. -/
def fill (me : Nat) (toadd : Addr) (hash : Int32) (put : Put) (head : Option Addr) : Shared :=
  { s with
    next := update s.next toadd head
    hashedKey := update s.hashedKey toadd (widen hash)
    key := update s.key toadd put.key
    value := update s.value toadd put.value
    owner := update s.owner toadd (.task me) }

def insert (bucket : Nat) (toadd : Addr) : Shared :=
  { s with
    content := update s.content bucket (some toadd)
    owner := update s.owner toadd .listed
    lists := update s.lists bucket (toadd :: s.lists bucket) }

end Shared

section

variable (keys : KeyOps)

def Put.hash (put : Put) : Int32 := keys.opHash put.key

def Put.bucket (put : Put) : Nat := getBucket (put.hash keys)

def matching (s : Shared) (put : Put) (entry : Addr) : Bool :=
  s.hashedKey entry == widen (put.hash keys) && keys.opEquals (s.key entry) put.key

def Put.onFound (put : Put) (entry : Addr) : Pc :=
  match put.type with
  | .always => .readValue put entry
  | .ifAbsent => .load put entry

inductive Act (me : Nat) : Shared → Pc → Label → Shared → Pc → Prop where
  | call {s : Shared} (put : Put) : Act me s .idle (.call put) s (.start put)
  | readHead {s : Shared} {put : Put} :
      Act me s (.start put) .go s
        (.walk put (s.content (put.bucket keys)) none (s.content (put.bucket keys)) none)
  | hit {s : Shared} {put : Put} {head stop toadd : Option Addr} {entry : Addr} :
      some entry ≠ stop → matching keys s put entry = true →
      Act me s (.walk put head stop (some entry) toadd) .go s (.found put entry toadd)
  | miss {s : Shared} {put : Put} {head stop toadd : Option Addr} {entry : Addr} :
      some entry ≠ stop → matching keys s put entry = false →
      Act me s (.walk put head stop (some entry) toadd) .go s
        (.walk put head stop (s.next entry) toadd)
  | scanned {s : Shared} {put : Put} {head stop walk : Option Addr} : walk = stop ∨ walk = none →
      Act me s (.walk put head stop walk none) .go s (.create put head)
  | rescanned {s : Shared} {put : Put} {head stop walk : Option Addr} {toadd : Addr} :
      walk = stop ∨ walk = none →
      Act me s (.walk put head stop walk (some toadd)) .go s (.casHead put head toadd)
  | found {s : Shared} {put : Put} {entry : Addr} {toadd : Option Addr} :
      Act me s (.found put entry toadd) .go (s.release toadd) (put.onFound entry)
  | readValue {s : Shared} {put : Put} {entry : Addr} :
      Act me s (.readValue put entry) .go s (.casValue put entry (s.value entry))
  | casValue {s : Shared} {put : Put} {entry : Addr} {crtVal : UInt64} : s.value entry = crtVal →
      Act me s (.casValue put entry crtVal) .go (s.setValue entry put.value) (.load put entry)
  | casValueFail {s : Shared} {put : Put} {entry : Addr} {crtVal : UInt64} :
      s.value entry ≠ crtVal →
      Act me s (.casValue put entry crtVal) .go s (.readValue put entry)
  | load {s : Shared} {put : Put} {entry : Addr} :
      Act me s (.load put entry) .go s (.done put (s.value entry))
  | malloc {s : Shared} {put : Put} {head : Option Addr} (toadd : Addr) : s.owner toadd = .free →
      Act me s (.create put head) .go (s.fill me toadd (put.hash keys) put head)
        (.casHead put head toadd)
  | noMemory {s : Shared} {put : Put} {head : Option Addr} :
      Act me s (.create put head) .go s (.noMemory put)
  | insert {s : Shared} {put : Put} {head : Option Addr} {toadd : Addr} :
      s.content (put.bucket keys) = head →
      Act me s (.casHead put head toadd) .go (s.insert (put.bucket keys) toadd) (.done put put.value)
  | insertFail {s : Shared} {put : Put} {head : Option Addr} {toadd : Addr} :
      s.content (put.bucket keys) ≠ head →
      Act me s (.casHead put head toadd) .go s (.reread put head toadd)
  | reread {s : Shared} {put : Put} {head : Option Addr} {toadd : Addr} :
      Act me s (.reread put head toadd) .go (s.setNext toadd (s.content (put.bucket keys)))
        (.walk put (s.content (put.bucket keys)) head (s.content (put.bucket keys)) (some toadd))
  | ret {s : Shared} {put : Put} {result : UInt64} :
      Act me s (.done put result) (.ret put result) s .idle
  | retFailed {s : Shared} {put : Put} : Act me s (.noMemory put) (.failed put) s .idle

abbrev Step := Config.Step (Act keys)

structure Good (s : Shared) : Prop where
  chain : ∀ b, Chain s.next (s.content b) (s.lists b) none
  once : ∀ b, (s.lists b).Nodup
  listed : ∀ a, s.owner a = .listed ↔ ∃ b, a ∈ s.lists b
  hashed : ∀ b, ∀ a ∈ s.lists b,
    s.hashedKey a = widen (keys.opHash (s.key a)) ∧ getBucket (keys.opHash (s.key a)) = b
  distinct : ∀ b, (s.lists b).Pairwise fun a c => keys.opEquals (s.key a) (s.key c) = false

def Lacks (s : Shared) (put : Put) (entries : List Addr) : Prop :=
  ∀ a ∈ entries, keys.opEquals (s.key a) put.key = false

def Scanned (s : Shared) (put : Put) (head : Option Addr) : Prop :=
  ∃ entries, entries <:+ s.lists (put.bucket keys) ∧ entries.head? = head ∧ Lacks keys s put entries

def Scanning (s : Shared) (put : Put) (head stop walk : Option Addr) : Prop :=
  ∃ seen rest old, seen ++ rest <:+ s.lists (put.bucket keys) ∧ (seen ++ rest).head? = head ∧
    rest.head? = walk ∧ old <:+ rest ∧ old.head? = stop ∧ Lacks keys s put seen ∧ Lacks keys s put old

def Ready (s : Shared) (put : Put) (head : Option Addr) (toadd : Addr) : Prop :=
  s.hashedKey toadd = widen (put.hash keys) ∧ s.key toadd = put.key ∧ s.value toadd = put.value ∧
    s.next toadd = head

def Hit (s : Shared) (put : Put) (entry : Addr) : Prop :=
  entry ∈ s.lists (put.bucket keys) ∧ keys.opEquals (s.key entry) put.key = true

def Present (s : Shared) (put : Put) : Prop := ∃ entry, Hit keys s put entry

def Place (s : Shared) : Pc → Prop
  | .walk put head stop walk toadd =>
    Scanning keys s put head stop walk ∧ ∀ a, toadd = some a → Ready keys s put head a
  | .found put entry _ => Hit keys s put entry
  | .readValue put entry => put.type = .always ∧ Hit keys s put entry
  | .casValue put entry _ => put.type = .always ∧ Hit keys s put entry
  | .load put entry => Hit keys s put entry
  | .create put head => Scanned keys s put head
  | .casHead put head toadd => Scanned keys s put head ∧ Ready keys s put head toadd
  | .reread put head toadd => Scanned keys s put head ∧ Ready keys s put head toadd
  | .done put _ => Present keys s put
  | _ => True

def Pc.toadd : Pc → Option Addr
  | walk _ _ _ _ toadd => toadd
  | found _ _ toadd => toadd
  | casHead _ _ toadd => some toadd
  | reread _ _ toadd => some toadd
  | _ => none

def Pc.request : Pc → Option Put
  | idle => none
  | start put => some put
  | walk put _ _ _ _ => some put
  | found put _ _ => some put
  | readValue put _ => some put
  | casValue put _ _ => some put
  | load put _ => some put
  | create put _ => some put
  | casHead put _ _ => some put
  | reread put _ _ => some put
  | done put _ => some put
  | noMemory put => some put

structure Own (me : Nat) (s : Shared) (pc : Pc) : Prop where
  mine : ∀ a, s.owner a = .task me ↔ pc.toadd = some a
  place : Place keys s pc

end

end Qthreads.Dict.Simple
