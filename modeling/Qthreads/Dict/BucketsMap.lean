import Qthreads.Dict.Buckets

namespace Qthreads.Dict

open Lib

variable {keys : KeyOps} {key value other : UInt64} {list : List Entry} {bucket : Nat}

theorem getBucket_lt (hash : Int32) : Simple.getBucket hash < noBuckets := by
  have mask : ((1 <<< Simple.bktPow) - 1 : Int32).toBitVec = 0xfffff#32 := by decide
  have small : ((Simple.dictAbs hash).toBitVec &&& 0xfffff#32).toNat < 2 ^ 20 := by
    rw [BitVec.toNat_and]
    exact Nat.lt_of_le_of_lt Nat.and_le_right (by decide)
  rw [Simple.getBucket, ← Int32.toInt_toBitVec, Int32.toBitVec_and, mask,
    BitVec.toInt_eq_toNat_of_lt (by omega), Int.toNat_natCast, noBuckets]
  exact small

namespace Buckets

variable {h : Buckets}

def binding (keys : KeyOps) (h : Buckets) (key : UInt64) : Option UInt64 :=
  bound keys (h.content (Simple.getBucket (keys.opHash key))) key

structure WellFormed (keys : KeyOps) (h : Buckets) : Prop where
  hashed : ∀ bucket, ∀ e ∈ h.content bucket, e.Hashed keys
  placed : ∀ bucket, ∀ e ∈ h.content bucket, Simple.getBucket (keys.opHash e.key) = bucket
  distinct : ∀ bucket, Distinct keys (h.content bucket)

theorem create_wf (keys : KeyOps) : create.WellFormed keys where
  hashed _ _ member := nomatch member
  placed _ _ member := nomatch member
  distinct _ := List.Pairwise.nil

theorem WellFormed.update (wf : h.WellFormed keys) (fresh : Nat)
    (hashed : ∀ e ∈ list, e.Hashed keys)
    (placed : ∀ e ∈ list, Simple.getBucket (keys.opHash e.key) = bucket)
    (distinct : Distinct keys list) :
    (Buckets.mk (Function.update h.content bucket list) fresh).WellFormed keys := by
  refine ⟨fun i => ?_, fun i => ?_, fun i => ?_⟩ <;>
    simp only [Function.update_apply] <;> split
  · exact hashed
  · exact wf.hashed i
  · rename_i here
    rw [here]
    exact placed
  · exact wf.placed i
  · exact distinct
  · exact wf.distinct i

theorem binding_update {after : Option UInt64} (fresh : Nat)
    (changed : ∀ other, bound keys list other =
      if keys.opEquals other key then after
      else bound keys (h.content (Simple.getBucket (keys.opHash key))) other) (other : UInt64) :
    (Buckets.mk (Function.update h.content (Simple.getBucket (keys.opHash key)) list)
        fresh).binding keys other =
      if keys.opEquals other key then after else h.binding keys other := by
  rw [binding]
  simp only [Function.update_apply]
  split
  · rename_i here
    rw [changed other, binding, here]
  · rename_i elsewhere
    cases equals : keys.opEquals other key with
    | true => exact absurd (by rw [keys.sameHash _ _ equals]) elsewhere
    | false => rfl

theorem putHelper_exact (wf : h.WellFormed keys) (key value : UInt64) (ifAbsent : Bool) :
    (h.putHelper keys key value ifAbsent).1 =
        (if ifAbsent then (h.binding keys key).getD value else value) ∧
      (h.putHelper keys key value ifAbsent).2.WellFormed keys ∧
      ∀ other, (h.putHelper keys key value ifAbsent).2.binding keys other =
        if keys.opEquals other key then
          some (if ifAbsent then (h.binding keys key).getD value else value)
        else h.binding keys other := by
  have hashed := wf.hashed (Simple.getBucket (keys.opHash key))
  have placed := wf.placed (Simple.getBucket (keys.opHash key))
  have distinct := wf.distinct (Simple.getBucket (keys.opHash key))
  rw [putHelper]
  cases walked : walkPut keys ifAbsent key value
      (h.content (Simple.getBucket (keys.opHash key))) with
  | some found =>
    obtain ⟨result, list⟩ := found
    have stored := walkPut_some hashed walked
    obtain ⟨old, there, returned⟩ := stored.old
    have answer : result = if ifAbsent then (h.binding keys key).getD value else value := by
      rw [returned, binding, there]
      rfl
    have alike : ∀ e ∈ list, ∃ kept ∈ h.content (Simple.getBucket (keys.opHash key)),
        kept.hashedKey = e.hashedKey ∧ kept.key = e.key := by
      intro e member
      have moved := List.mem_map_of_mem (f := fun e : Entry => (e.hashedKey, e.key)) member
      rw [stored.alike] at moved
      obtain ⟨kept, inside, same⟩ := List.mem_map.mp moved
      exact ⟨kept, inside, congrArg Prod.fst same, congrArg Prod.snd same⟩
    refine ⟨answer, wf.update _ ?_ ?_ ?_, ?_⟩
    · intro e member
      obtain ⟨kept, inside, hash, key⟩ := alike e member
      rw [Entry.Hashed, ← hash, ← key]
      exact hashed kept inside
    · intro e member
      obtain ⟨kept, inside, -, key⟩ := alike e member
      rw [← key]
      exact placed kept inside
    · have apart : (list.map fun e => (e.hashedKey, e.key)).Pairwise
          fun e later => keys.opEquals e.2 later.2 = false := by
        rw [stored.alike]
        exact List.pairwise_map.mpr distinct
      exact List.pairwise_map.mp apart
    · rw [← answer]
      exact binding_update _ stored.bound
  | none =>
    have absent := walkPut_none hashed walked
    have unbound : h.binding keys key = none := bound_none absent
    have answer : value = if ifAbsent then (h.binding keys key).getD value else value := by
      rw [unbound]
      cases ifAbsent <;> rfl
    refine ⟨answer, wf.update _ ?_ ?_ ?_, ?_⟩
    · intro e member
      rcases List.mem_cons.mp member with rfl | later
      · rfl
      · exact hashed e later
    · intro e member
      rcases List.mem_cons.mp member with rfl | later
      · rfl
      · exact placed e later
    · refine List.pairwise_cons.mpr ⟨fun e member => ?_, distinct⟩
      rw [equals_comm]
      exact absent e member
    · rw [← answer]
      refine binding_update _ fun other => ?_
      rw [bound_cons, equals_comm]

theorem get_exact (wf : h.WellFormed keys) (key : UInt64) :
    h.get keys key = (h.binding keys key).getD 0 := by
  rw [get, find_sought (wf.hashed _), binding, bound]
  cases (h.content (Simple.getBucket (keys.opHash key))).find?
    fun e => keys.opEquals e.key key <;> rfl

theorem erased {e : Entry} (hashed : ∀ e ∈ list, e.Hashed keys) (distinct : Distinct keys list)
    (kept : e ∈ list.eraseP (·.sought keys key)) : keys.opEquals e.key key = false := by
  induction list with
  | nil => cases kept
  | cons walk next ih =>
    obtain ⟨apart, rest⟩ := List.pairwise_cons.mp distinct
    have later := fun e member => hashed e (List.mem_cons_of_mem walk member)
    rw [List.eraseP_cons, Entry.sought_eq (hashed walk List.mem_cons_self)] at kept
    cases equals : keys.opEquals walk.key key with
    | true =>
      rw [equals, cond_true] at kept
      have differ := apart e kept
      rw [equals_comm, equals_congr equals] at differ
      exact differ
    | false =>
      rw [equals, cond_false] at kept
      rcases List.mem_cons.mp kept with rfl | inside
      · exact equals
      · exact ih later rest inside

theorem bound_erased (hashed : ∀ e ∈ list, e.Hashed keys) (distinct : Distinct keys list)
    (other : UInt64) :
    bound keys (list.eraseP (·.sought keys key)) other =
      if keys.opEquals other key then none else bound keys list other := by
  cases equals : keys.opEquals other key with
  | true =>
    rw [if_pos rfl, bound_congr equals]
    exact bound_none fun e kept => erased hashed distinct kept
  | false =>
    rw [if_neg Bool.false_ne_true]
    induction list with
    | nil => rfl
    | cons walk next ih =>
      have later := fun e member => hashed e (List.mem_cons_of_mem walk member)
      rw [List.eraseP_cons, Entry.sought_eq (hashed walk List.mem_cons_self)]
      cases same : keys.opEquals walk.key key with
      | true =>
        have apart : keys.opEquals walk.key other = false := by
          rw [equals_comm, equals_congr same, equals]
        rw [cond_true, bound_cons, apart, if_neg Bool.false_ne_true]
      | false =>
        rw [cond_false, bound_cons, bound_cons,
          ih later (List.pairwise_cons.mp distinct).2]

theorem delete_exact (wf : h.WellFormed keys) (key : UInt64) :
    (h.delete keys key).1 = (h.binding keys key).getD 0 ∧
      (h.delete keys key).2.WellFormed keys ∧
      ∀ other, (h.delete keys key).2.binding keys other =
        if keys.opEquals other key then none else h.binding keys other := by
  have hashed := wf.hashed (Simple.getBucket (keys.opHash key))
  have distinct := wf.distinct (Simple.getBucket (keys.opHash key))
  rw [delete]
  cases found : (h.content (Simple.getBucket (keys.opHash key))).find? (·.sought keys key) with
  | none =>
    rw [find_sought hashed] at found
    have unbound : h.binding keys key = none := by rw [binding, bound, found]; rfl
    refine ⟨by rw [unbound]; rfl, wf, fun other => ?_⟩
    cases equals : keys.opEquals other key with
    | true =>
      rw [if_pos rfl, ← unbound, binding, binding, keys.sameHash _ _ equals,
        bound_congr equals]
    | false => rfl
  | some walk =>
    have there := found
    rw [find_sought hashed] at there
    refine ⟨by rw [binding, bound, there]; rfl, wf.update _ ?_ ?_ ?_, ?_⟩
    · exact fun e kept => hashed e (List.mem_of_mem_eraseP kept)
    · exact fun e kept => wf.placed _ e (List.mem_of_mem_eraseP kept)
    · exact List.Pairwise.sublist List.eraseP_sublist distinct
    · exact binding_update _ (bound_erased hashed distinct)

variable {map : FiniteMap}

theorem call_exact (call : Call) (wf : h.WellFormed keys)
    (represents : ∀ key, h.binding keys key = map key) :
    (h.call keys call).1 = (map.call keys call).1 ∧ (h.call keys call).2.WellFormed keys ∧
      ∀ key, (h.call keys call).2.binding keys key = (map.call keys call).2 key := by
  cases call with
  | put key value =>
    obtain ⟨answer, kept, bindings⟩ := putHelper_exact wf key value false
    refine ⟨answer, kept, fun other => ?_⟩
    rw [call, bindings other, represents other]
    rfl
  | putIfAbsent key value =>
    obtain ⟨answer, kept, bindings⟩ := putHelper_exact wf key value true
    rw [if_pos rfl, represents key] at answer bindings
    refine ⟨?_, kept, fun other => ?_⟩
    · rw [call, answer, FiniteMap.call]
      cases map key <;> rfl
    · rw [call, bindings other, FiniteMap.call, represents other]
      cases there : map key with
      | none => rfl
      | some old =>
        cases equals : keys.opEquals other key with
        | true =>
          have alike : h.binding keys other = h.binding keys key := by
            rw [binding, binding, keys.sameHash _ _ equals, bound_congr equals]
          rw [represents other, represents key, there] at alike
          exact alike.symm
        | false => rfl
  | get key =>
    refine ⟨?_, wf, represents⟩
    rw [call, get_exact wf key, represents key]
    rfl
  | delete key =>
    obtain ⟨answer, kept, bindings⟩ := delete_exact wf key
    refine ⟨by rw [call, answer, represents key]; rfl, kept, fun other => ?_⟩
    rw [call, bindings other, represents other]
    rfl

theorem calls_exact (calls : List Call) (wf : h.WellFormed keys)
    (represents : ∀ key, h.binding keys key = map key) :
    (h.calls keys calls).1 = (map.calls keys calls).1 ∧ (h.calls keys calls).2.WellFormed keys ∧
      ∀ key, (h.calls keys calls).2.binding keys key = (map.calls keys calls).2 key := by
  induction calls generalizing h map with
  | nil => exact ⟨rfl, wf, represents⟩
  | cons call rest ih =>
    obtain ⟨answer, nextWf, nextMap⟩ := call_exact call wf represents
    obtain ⟨answers, kept, bindings⟩ := ih nextWf nextMap
    exact ⟨by rw [Buckets.calls, FiniteMap.calls, answer, answers], kept, bindings⟩

def entriesFrom (h : Buckets) (i : Nat) : List Entry := (fullCells h.content i noBuckets).flatten

theorem entriesFrom_listed (wf : h.WellFormed keys)
    (represents : ∀ key, h.binding keys key = map key) : map.Listed keys (h.entriesFrom 0) := by
  refine ⟨fullCells_pairwise wf.distinct ?_, fun key value => ?_⟩
  · intro j k apart e first later second
    rw [Bool.eq_false_iff]
    intro equals
    apply apart
    rw [← wf.placed j e first, ← wf.placed k later second, keys.sameHash _ _ equals]
  · rw [← represents key, binding, bound_iff (wf.distinct _)]
    constructor
    · rintro ⟨e, member, equals, stored⟩
      exact ⟨e, mem_fullCells.mpr ⟨_, Nat.zero_le _, getBucket_lt _, member⟩, equals, stored⟩
    · rintro ⟨e, member, equals, stored⟩
      obtain ⟨bucket, -, -, inside⟩ := mem_fullCells.mp member
      have here := wf.placed bucket e inside
      rw [keys.sameHash _ _ equals] at here
      exact ⟨e, here ▸ inside, equals, stored⟩

inductive Ahead (h : Buckets) : BucketIterator → List Entry → Prop
  | new (full : h.entriesFrom 0 ≠ []) : Ahead h ⟨[], -1⟩ (h.entriesFrom 0)
  | inside (bkt : Nat) (crt : Entry) (walk : List Entry) (below : bkt < noBuckets) :
      Ahead h ⟨crt :: walk, bkt⟩ (walk ++ h.entriesFrom (bkt + 1))

theorem entriesFrom_next {bkt : Nat} (below : bkt < noBuckets) :
    h.entriesFrom bkt = h.content bkt ++ h.entriesFrom (bkt + 1) := by
  by_cases empty : h.content bkt = []
  · rw [entriesFrom, fullCells_empty below empty, empty]
    rfl
  · rw [entriesFrom, fullCells_full below empty]
    rfl

theorem onward_ahead (room bkt : Nat) (walk : List Entry) (left : bkt + room + 1 = noBuckets) :
    (∀ first rest, walk ++ h.entriesFrom (bkt + 1) = first :: rest →
      ∃ later, h.onward (room + 1) bkt walk = (.entry first, later) ∧ h.Ahead later rest) ∧
    (walk ++ h.entriesFrom (bkt + 1) = [] →
      h.onward (room + 1) bkt walk = (.null, ⟨[], noBuckets⟩)) := by
  induction room generalizing bkt walk with
  | zero =>
    have nothing : h.entriesFrom (bkt + 1) = [] := by
      rw [entriesFrom, fullCells_stop (by omega)]
      rfl
    rw [nothing, List.append_nil]
    cases walk with
    | nil =>
      refine ⟨nofun, fun _ => ?_⟩
      simp only [onward, ← left, Nat.add_zero]
    | cons crt next =>
      refine ⟨fun first rest both => ?_, nofun⟩
      cases both
      have ahead : h.Ahead ⟨crt :: next, bkt⟩ (next ++ h.entriesFrom (bkt + 1)) :=
        .inside bkt crt next (by omega)
      rw [nothing, List.append_nil] at ahead
      exact ⟨_, rfl, ahead⟩
  | succ room ih =>
    cases walk with
    | nil =>
      have inside : bkt + 1 < noBuckets := by omega
      rw [List.nil_append, entriesFrom_next inside, onward, if_pos inside]
      exact ih (bkt + 1) (h.content (bkt + 1)) (by omega)
    | cons crt next =>
      refine ⟨fun first rest both => ?_, nofun⟩
      cases both
      exact ⟨_, rfl, .inside bkt crt next (by omega)⟩

theorem next_inside (bkt : Nat) (crt : Entry) (walk : List Entry) :
    h.iteratorNext ⟨crt :: walk, bkt⟩ = some (h.onward (noBuckets - bkt) bkt walk) := by
  have started : (bkt : Int) ≠ -1 := by omega
  simp only [iteratorNext, if_neg started, Int.toNat_natCast]

theorem next_ahead {it : BucketIterator} {first : Entry} {rest : List Entry}
    (ahead : h.Ahead it list) (whole : list = first :: rest) :
    ∃ later, h.iteratorNext it = some (.entry first, later) ∧ h.Ahead later rest := by
  cases ahead with
  | new full =>
    rw [iteratorNext, if_pos rfl]
    cases found : firstFull h.content 0 noBuckets with
    | none => exact absurd (by rw [entriesFrom, firstFull_none found]; rfl) full
    | some i =>
      obtain ⟨-, below, nonempty, cells⟩ := firstFull_some found
      cases bucket : h.content i with
      | nil => exact absurd bucket nonempty
      | cons crt walk =>
        rw [entriesFrom, cells, bucket] at whole
        cases whole
        refine ⟨⟨first :: walk, i⟩, ?_, .inside i first walk below⟩
        simp [bucket]
  | inside bkt crt walk below =>
    obtain ⟨room, left⟩ : ∃ room, bkt + room + 1 = noBuckets := ⟨noBuckets - bkt - 1, by omega⟩
    obtain ⟨later, moved, kept⟩ := (onward_ahead room bkt walk left).1 first rest whole
    refine ⟨later, ?_, kept⟩
    rw [next_inside, show noBuckets - bkt = room + 1 by omega, moved]

theorem next_finish {it : BucketIterator} (ahead : h.Ahead it list) (nothing : list = []) :
    h.iteratorNext it = some (.null, ⟨[], noBuckets⟩) := by
  cases ahead with
  | new full => exact absurd nothing full
  | inside bkt crt walk below =>
    obtain ⟨room, left⟩ : ∃ room, bkt + room + 1 = noBuckets := ⟨noBuckets - bkt - 1, by omega⟩
    rw [next_inside, show noBuckets - bkt = room + 1 by omega,
      (onward_ahead room bkt walk left).2 nothing]

theorem next_empty (empty : h.entriesFrom 0 = []) : h.iteratorNext ⟨[], -1⟩ = none := by
  rw [iteratorNext, if_pos rfl]
  cases found : firstFull h.content 0 noBuckets with
  | none => rfl
  | some i =>
    obtain ⟨-, -, nonempty, cells⟩ := firstFull_some found
    rw [entriesFrom, cells, List.flatten_cons] at empty
    exact absurd (List.append_eq_nil_iff.mp empty).1 nonempty

theorem iteration_iff (wf : h.WellFormed keys) (represents : ∀ key, h.binding keys key = map key) :
    h.iteration.Exact keys map ↔ ∃ key, map key ≠ none := by
  have listed := entriesFrom_listed wf represents
  constructor
  · rintro ⟨entries, last, returns, -, -⟩
    by_contra unbound
    have empty : h.entriesFrom 0 = [] := by
      rw [List.eq_nil_iff_forall_not_mem]
      intro e member
      exact unbound ⟨e.key, by rw [(listed.2 e.key e.value).mpr ⟨e, member, keys.refl _, rfl⟩]; nofun⟩
    have fails := next_empty empty
    cases entries with
    | nil =>
      change h.iteratorNext ⟨[], -1⟩ = _ at returns
      rw [fails] at returns
      cases returns
    | cons first rest =>
      obtain ⟨later, returned, -⟩ := returns
      change h.iteratorNext ⟨[], -1⟩ = _ at returned
      rw [fails] at returned
      cases returned
  · rintro ⟨key, there⟩
    have full : h.entriesFrom 0 ≠ [] := by
      intro empty
      obtain ⟨value, stored⟩ := Option.ne_none_iff_exists'.mp there
      obtain ⟨e, member, -⟩ := (listed.2 key value).mp stored
      rw [empty] at member
      cases member
    obtain ⟨last, returns, equals⟩ := h.iteration.returns h.Ahead
      (fun it first rest ahead => next_ahead ahead rfl)
      (fun it ahead => ⟨_, next_finish ahead rfl, by simp [iteration]⟩) (.new full)
    exact ⟨_, last, returns, listed, equals⟩

end Buckets

end Qthreads.Dict
