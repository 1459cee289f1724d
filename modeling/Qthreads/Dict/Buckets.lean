import Qthreads.Dict.Iterator
import Qthreads.Dict.Simple
import Qthreads.Lib.Cells

namespace Qthreads.Dict

open Lib

def noBuckets : Nat := 1 <<< 20

def Entry.sought (keys : KeyOps) (key : UInt64) (walk : Entry) : Bool :=
  walk.hashedKey == Simple.widen (keys.opHash key) && keys.opEquals walk.key key

/-- `qt_dictionary`, with the list of each bucket. -/
structure Buckets where
  content : Nat → List Entry
  fresh : Nat

/-- The walk of `qt_dictionary_put_helper`: the list with the value stored, if the key is there. -/
def walkPut (keys : KeyOps) (ifAbsent : Bool) (key value : UInt64) :
    List Entry → Option (UInt64 × List Entry)
  | [] => none
  | walk :: next =>
    if walk.sought keys key then
      if ifAbsent then some (walk.value, walk :: next)
      else some (value, { walk with value } :: next)
    else (walkPut keys ifAbsent key value next).map fun found => (found.1, walk :: found.2)

namespace Buckets

def create : Buckets := ⟨fun _ => [], 0⟩

def putHelper (keys : KeyOps) (h : Buckets) (key value : UInt64) (ifAbsent : Bool) :
    UInt64 × Buckets :=
  let hash := keys.opHash key
  let bucket := Simple.getBucket hash
  match walkPut keys ifAbsent key value (h.content bucket) with
  | some (result, list) => (result, { h with content := Function.update h.content bucket list })
  | none =>
    let toadd : Entry := ⟨h.fresh, Simple.widen hash, key, value⟩
    (value, {
      content := Function.update h.content bucket (toadd :: h.content bucket)
      fresh := h.fresh + 1 })

def get (keys : KeyOps) (h : Buckets) (key : UInt64) : UInt64 :=
  match (h.content (Simple.getBucket (keys.opHash key))).find? (·.sought keys key) with
  | some walk => walk.value
  | none => 0

def delete (keys : KeyOps) (h : Buckets) (key : UInt64) : UInt64 × Buckets :=
  let bucket := Simple.getBucket (keys.opHash key)
  match (h.content bucket).find? (·.sought keys key) with
  | some walk => (walk.value, { h with
      content := Function.update h.content bucket ((h.content bucket).eraseP (·.sought keys key)) })
  | none => (0, h)

def call (keys : KeyOps) (h : Buckets) : Call → UInt64 × Buckets
  | .put key value => h.putHelper keys key value false
  | .putIfAbsent key value => h.putHelper keys key value true
  | .get key => (h.get keys key, h)
  | .delete key => h.delete keys key

def calls (keys : KeyOps) : Buckets → List Call → List UInt64 × Buckets
  | h, [] => ([], h)
  | h, first :: rest =>
    ((h.call keys first).1 :: (calls keys (h.call keys first).2 rest).1,
      (calls keys (h.call keys first).2 rest).2)

end Buckets

/-- `qt_dictionary_iterator`.  The entry `crt` points to stands with those behind it. -/
structure BucketIterator where
  crt : List Entry
  bkt : Int

namespace Buckets

/-- The loop of `qt_dictionary_iterator_next` over the buckets that are left. -/
def onward (h : Buckets) : Nat → Nat → List Entry → Returned × BucketIterator
  | 0, bkt, _ => (.null, ⟨[], bkt⟩)
  | _ + 1, bkt, e :: rest => (.entry e, ⟨e :: rest, bkt⟩)
  | room + 1, bkt, [] =>
    onward h room (bkt + 1) (if bkt + 1 < noBuckets then h.content (bkt + 1) else [])

def iteratorNext (h : Buckets) (it : BucketIterator) : Option (Returned × BucketIterator) :=
  if it.bkt = -1 then
    match firstFull h.content 0 noBuckets with
    | some i => (h.content i).head?.map fun crt => (.entry crt, ⟨h.content i, i⟩)
    | none => none
  else
    match it.crt with
    | [] => some (.error, { it with bkt := -1 })
    | _ :: walk => some (h.onward (noBuckets - it.bkt.toNat) it.bkt.toNat walk)

def iteration (h : Buckets) : Iteration BucketIterator where
  create := ⟨[], -1⟩
  next := h.iteratorNext
  finish := ⟨[], noBuckets⟩
  equals a b := a.crt.head?.map (·.addr) == b.crt.head?.map (·.addr) && a.bkt == b.bkt

end Buckets

variable {keys : KeyOps} {key value other : UInt64} {list after : List Entry} {bucket : Nat}

def bound (keys : KeyOps) (list : List Entry) (key : UInt64) : Option UInt64 :=
  (list.find? fun e => keys.opEquals e.key key).map (·.value)

def Distinct (keys : KeyOps) (list : List Entry) : Prop :=
  list.Pairwise fun e later => keys.opEquals e.key later.key = false

def Entry.Hashed (keys : KeyOps) (e : Entry) : Prop :=
  e.hashedKey = Simple.widen (keys.opHash e.key)

theorem Entry.sought_eq {walk : Entry} (hashed : walk.Hashed keys) (key : UInt64) :
    walk.sought keys key = keys.opEquals walk.key key := by
  cases equals : keys.opEquals walk.key key with
  | false => rw [sought, equals, Bool.and_false]
  | true =>
    rw [sought, equals, Bool.and_true, beq_iff_eq, hashed, keys.sameHash _ _ equals]

theorem find_sought (hashed : ∀ e ∈ list, e.Hashed keys) (key : UInt64) :
    (list.find? (·.sought keys key)) = list.find? fun e => keys.opEquals e.key key := by
  induction list with
  | nil => rfl
  | cons walk next ih =>
    simp only [List.find?_cons, Entry.sought_eq (hashed walk List.mem_cons_self)]
    rw [ih fun e member => hashed e (List.mem_cons_of_mem _ member)]

theorem bound_cons (walk : Entry) (next : List Entry) (key : UInt64) :
    bound keys (walk :: next) key =
      if keys.opEquals walk.key key then some walk.value else bound keys next key := by
  rw [bound, List.find?_cons]
  cases keys.opEquals walk.key key <;> rfl

theorem equals_congr {first : UInt64} (same : keys.opEquals other key = true) :
    keys.opEquals first other = keys.opEquals first key := by
  rw [Bool.eq_iff_iff]
  exact ⟨fun equals => keys.trans _ _ _ equals same,
    fun equals => keys.trans _ _ _ equals (keys.symm _ _ same)⟩

theorem equals_comm (first second : UInt64) :
    keys.opEquals first second = keys.opEquals second first := by
  rw [Bool.eq_iff_iff]
  exact ⟨keys.symm _ _, keys.symm _ _⟩

theorem bound_congr (same : keys.opEquals other key = true) :
    bound keys list other = bound keys list key := by
  have alike : (fun e : Entry => keys.opEquals e.key other) = fun e => keys.opEquals e.key key :=
    funext fun _ => equals_congr same
  rw [bound, bound, alike]

theorem bound_none (absent : ∀ e ∈ list, keys.opEquals e.key key = false) :
    bound keys list key = none := by
  rw [bound, Option.map_eq_none_iff, List.find?_eq_none]
  intro e member
  rw [absent e member]
  exact Bool.false_ne_true

theorem bound_iff (distinct : Distinct keys list) :
    bound keys list key = some value ↔
      ∃ e ∈ list, keys.opEquals e.key key = true ∧ e.value = value := by
  induction list with
  | nil => simp [bound]
  | cons walk next ih =>
    obtain ⟨apart, rest⟩ := List.pairwise_cons.mp distinct
    rw [bound_cons]
    cases equals : keys.opEquals walk.key key with
    | true =>
      rw [if_pos rfl]
      constructor
      · intro stored
        exact ⟨walk, List.mem_cons_self, equals, Option.some.inj stored⟩
      · rintro ⟨e, member, same, stored⟩
        rcases List.mem_cons.mp member with rfl | later
        · rw [stored]
        · have differ := apart e later
          rw [equals_comm, equals_congr equals, same] at differ
          cases differ
    | false =>
      rw [if_neg Bool.false_ne_true, ih rest]
      constructor
      · rintro ⟨e, member, found⟩
        exact ⟨e, List.mem_cons_of_mem _ member, found⟩
      · rintro ⟨e, member, same, stored⟩
        rcases List.mem_cons.mp member with rfl | later
        · rw [equals] at same
          cases same
        · exact ⟨e, later, same, stored⟩

structure Stored (keys : KeyOps) (ifAbsent : Bool) (key value : UInt64) (list : List Entry)
    (result : UInt64) (after : List Entry) : Prop where
  alike : after.map (fun e => (e.hashedKey, e.key)) = list.map fun e => (e.hashedKey, e.key)
  old : ∃ old, bound keys list key = some old ∧ result = if ifAbsent then old else value
  bound : ∀ other, bound keys after other =
    if keys.opEquals other key then some result else bound keys list other

theorem walkPut_some {ifAbsent : Bool} {result : UInt64} (hashed : ∀ e ∈ list, e.Hashed keys)
    (walked : walkPut keys ifAbsent key value list = some (result, after)) :
    Stored keys ifAbsent key value list result after := by
  induction list generalizing after with
  | nil => cases walked
  | cons walk next ih =>
    rw [walkPut, Entry.sought_eq (hashed walk List.mem_cons_self)] at walked
    cases equals : keys.opEquals walk.key key with
    | true =>
      have here : ∀ other, keys.opEquals walk.key other = keys.opEquals other key := by
        intro other
        rw [equals_comm, equals_congr equals]
      rw [if_pos equals] at walked
      cases ifAbsent with
      | true =>
        cases walked
        refine ⟨rfl, ⟨walk.value, by rw [bound_cons, if_pos equals], rfl⟩, fun other => ?_⟩
        rw [bound_cons, here other]
        split <;> rfl
      | false =>
        cases walked
        refine ⟨rfl, ⟨walk.value, by rw [bound_cons, if_pos equals], rfl⟩, fun other => ?_⟩
        rw [bound_cons, bound_cons, here other]
        split <;> rfl
    | false =>
      rw [equals, if_neg Bool.false_ne_true] at walked
      obtain ⟨⟨found, rest⟩, later, both⟩ := Option.map_eq_some_iff.mp walked
      cases both
      have stored := ih (fun e member => hashed e (List.mem_cons_of_mem _ member)) later
      refine ⟨?_, ?_, fun other => ?_⟩
      · rw [List.map_cons, List.map_cons, stored.alike]
      · obtain ⟨old, there, result⟩ := stored.old
        exact ⟨old, by rw [bound_cons, equals, if_neg Bool.false_ne_true, there], result⟩
      · rw [bound_cons, bound_cons, stored.bound other]
        cases same : keys.opEquals other key with
        | true =>
          rw [equals_congr same, equals]
          rfl
        | false => rfl

theorem walkPut_none {ifAbsent : Bool} (hashed : ∀ e ∈ list, e.Hashed keys)
    (walked : walkPut keys ifAbsent key value list = none) :
    ∀ e ∈ list, keys.opEquals e.key key = false := by
  induction list with
  | nil => exact nofun
  | cons walk next ih =>
    rw [walkPut, Entry.sought_eq (hashed walk List.mem_cons_self)] at walked
    cases equals : keys.opEquals walk.key key with
    | true =>
      rw [if_pos equals] at walked
      split at walked <;> cases walked
    | false =>
      rw [equals, if_neg Bool.false_ne_true] at walked
      intro e member
      rcases List.mem_cons.mp member with rfl | later
      · exact equals
      · exact ih (fun e member => hashed e (List.mem_cons_of_mem _ member))
          (Option.map_eq_none_iff.mp walked) e later

end Qthreads.Dict
