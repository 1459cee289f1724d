import Qthreads.Dict.TrieSlot

namespace Qthreads.Dict

open Slot
open Function (update update_of_ne update_self update_apply)

variable {keys : KeyOps} {key other : UInt64} {slot : Slot} {e : Entry}

namespace Trie

def Has (h : Trie) (e : Entry) : Prop := ∃ i, (h.base i).Has e

def binding (keys : KeyOps) (h : Trie) (key : UInt64) : Option UInt64 :=
  (h.base (baseSpineBucket (keys.hash key))).binding keys (keys.hash key) key 0

def Sound (h : Trie) : Prop := ∀ e, h.Has e → ∀ gone ∈ h.freed, gone.addr ≠ e.addr

structure WellFormed (keys : KeyOps) (h : Trie) : Prop where
  slots : ∀ i : Fin 64, (h.base i).WellFormed keys 0 i
  named : ∃ name : Nat → UInt64, ∀ e, h.Has e → name e.addr = e.key
  allocated : ∀ e, h.Has e → e.addr < h.fresh
  released : ∀ gone ∈ h.freed, gone.addr < h.fresh
  sound : h.Sound

variable {h : Trie}

theorem base_residue (x : UInt64) : x.toNat % span 0 = (baseSpineBucket x).val := rfl

theorem WellFormed.base_update {bucket : Fin 64} (wf : h.WellFormed keys)
    (fits : slot.WellFormed keys 0 bucket) (i : Fin 64) :
    (update h.base bucket slot i).WellFormed keys 0 i := by
  by_cases same : i = bucket
  · subst same
    rw [update_self]
    exact fits
  · rw [update_of_ne same]
    exact wf.slots i

theorem base_has {base : Fin 64 → Slot} {bucket : Fin 64}
    (has : ∃ i, (update base bucket slot i).Has e) : slot.Has e ∨ ∃ i, (base i).Has e := by
  obtain ⟨i, inside⟩ := has
  by_cases same : i = bucket
  · subst same
    rw [update_self] at inside
    exact .inl inside
  · rw [update_of_ne same] at inside
    exact .inr ⟨i, inside⟩

theorem reach (slots : ∀ i : Fin 64, (h.base i).WellFormed keys 0 i) (has : h.Has e)
    (same : keys.opEquals e.key key = true) : h.binding keys key ≠ none := by
  obtain ⟨i, inside⟩ := has
  obtain ⟨hashed, residue⟩ := (slots i).has_low inside
  have place : baseSpineBucket (keys.hash key) = i := by
    rw [← hash_congr same, ← hashed]
    exact Fin.ext residue
  rw [binding, place]
  exact (slots i).reach inside same

theorem binding_alike (same : keys.opEquals other key = true) :
    h.binding keys other = h.binding keys key := by
  rw [binding, binding_congr same, hash_congr same, binding]

theorem get_exact (wf : h.WellFormed keys) (key : UInt64) :
    h.get keys key = some ((h.binding keys key).getD 0) :=
  (wf.slots _).shallow (Nat.zero_le 6)

theorem binding_base {after : Option UInt64}
    (changed : ∀ other, slot.binding keys (keys.hash other) other 0 =
      if keys.opEquals other key then after
      else (h.base (baseSpineBucket (keys.hash key))).binding keys (keys.hash other) other 0)
    (other : UInt64) :
    (update h.base (baseSpineBucket (keys.hash key)) slot
        (baseSpineBucket (keys.hash other))).binding keys (keys.hash other) other 0 =
      if keys.opEquals other key then after else h.binding keys other := by
  rw [update_apply]
  split
  · rename_i here
    rw [changed other, binding, here]
  · rename_i elsewhere
    cases equals : keys.opEquals other key with
    | true => exact absurd (by rw [hash_congr equals]) elsewhere
    | false =>
      rw [binding]
      simp

theorem putHelper_exact (wf : h.WellFormed keys) (key value : UInt64) (ifAbsent : Bool)
    (clear : (h.base (baseSpineBucket (keys.hash key))).PutClear (keys.hash key) 0) :
    ∃ after, h.putHelper keys key value ifAbsent =
        some (if ifAbsent then (h.binding keys key).getD value else value, after) ∧
      after.WellFormed keys ∧ ∀ other, after.binding keys other =
        if keys.opEquals other key then
          some (if ifAbsent then (h.binding keys key).getD value else value)
        else h.binding keys other := by
  obtain ⟨placed, put, done⟩ := put_done ifAbsent
    (e := ⟨h.fresh, keys.hash key, key, value⟩) (wf.slots (baseSpineBucket (keys.hash key))) rfl
    (base_residue _) (Nat.zero_le 6) clear
  obtain ⟨name, named⟩ := wf.named
  have has : ∀ x, (∃ i, (update h.base (baseSpineBucket (keys.hash key)) placed.slot i).Has
      x) → x.addr = h.fresh ∧ x.key = key ∨ ∃ old, h.Has old ∧ old.addr = x.addr ∧ old.key = x.key := by
    intro x linked
    rcases base_has linked with here | elsewhere
    · rcases done.has x here with rfl | ⟨old, inside, same⟩
      · exact .inl ⟨rfl, rfl⟩
      · exact .inr ⟨old, ⟨_, inside⟩, same⟩
    · exact .inr ⟨x, elsewhere, rfl, rfl⟩
  refine ⟨{ h with
    base := update h.base (baseSpineBucket (keys.hash key)) placed.slot
    fresh := h.fresh + 1 }, ?_, ⟨wf.base_update done.wf, ?_, ?_, ?_, ?_⟩, ?_⟩
  · simp only [putHelper, put, Option.map_some, done.value]
    rfl
  · refine ⟨update name h.fresh key, ?_⟩
    intro x linked
    rcases has x linked with ⟨new, keyed⟩ | ⟨old, linked, addr, keyed⟩
    · rw [new, keyed, update_self]
    · have earlier : x.addr ≠ h.fresh := by
        rw [← addr]
        exact Nat.ne_of_lt (wf.allocated old linked)
      rw [update_of_ne earlier, ← addr, ← keyed]
      exact named old linked
  · intro x linked
    rcases has x linked with ⟨new, -⟩ | ⟨old, linked, addr, -⟩
    · rw [new]
      exact Nat.lt_succ_self _
    · rw [← addr]
      exact Nat.lt_succ_of_lt (wf.allocated old linked)
  · intro gone freed
    exact Nat.lt_succ_of_lt (wf.released gone freed)
  · intro x linked gone freed
    rcases has x linked with ⟨new, -⟩ | ⟨old, linked, addr, -⟩
    · rw [new]
      exact Nat.ne_of_lt (wf.released gone freed)
    · rw [← addr]
      exact wf.sound old linked gone freed
  · have value := done.value
    have changed := done.bindings
    rw [value] at changed
    exact binding_base changed

theorem remove_exact (wf : h.WellFormed keys) (key : UInt64)
    (clear : (h.base (baseSpineBucket (keys.hash key))).RemoveClear keys (keys.hash key) key 0) :
    ∃ after, h.remove keys key = some ((h.binding keys key).isSome, after) ∧
      after.WellFormed keys ∧ ∀ other, after.binding keys other =
        if keys.opEquals other key then none else h.binding keys other := by
  obtain ⟨removed, remove, done⟩ :=
    remove_done (wf.slots (baseSpineBucket (keys.hash key))) (Nat.zero_le 6) clear
  have found : removed.freed.isSome = (h.binding keys key).isSome := done.found
  have bindings := binding_base done.bindings
  simp only [Trie.remove, remove, Option.map_some]
  cases freed : removed.freed with
  | none =>
    rw [freed] at found
    refine ⟨h, by rw [← found]; rfl, wf, ?_⟩
    intro other
    cases equals : keys.opEquals other key with
    | true =>
      have absent : h.binding keys key = none := Option.isNone_iff_eq_none.mp (by
        rw [← Option.not_isSome, ← found]
        rfl)
      rw [if_pos rfl, binding_alike equals, absent]
    | false => rw [if_neg Bool.false_ne_true]
  | some gone =>
    rw [freed] at found
    obtain ⟨inside, same⟩ := done.freed gone freed
    obtain ⟨name, named⟩ := wf.named
    have kept : ∀ x, (∃ i, (update h.base (baseSpineBucket (keys.hash key))
        removed.slot i).Has x) → h.Has x := by
      intro x linked
      rcases base_has linked with here | elsewhere
      · exact ⟨_, done.has x here⟩
      · exact elsewhere
    refine ⟨{ h with
      base := update h.base (baseSpineBucket (keys.hash key)) removed.slot
      count := h.count - 1
      freed := gone :: h.freed }, by rw [← found]; rfl, ⟨wf.base_update done.wf,
        ⟨name, fun x linked => named x (kept x linked)⟩,
        fun x linked => wf.allocated x (kept x linked), ?_, ?_⟩, bindings⟩
    · intro x freed
      rcases List.mem_cons.mp freed with rfl | earlier
      · exact wf.allocated x ⟨_, inside⟩
      · exact wf.released x earlier
    · intro x linked y freed
      rcases List.mem_cons.mp freed with rfl | earlier
      · intro reused
        have keyed : x.key = y.key := by
          rw [← named x (kept x linked), ← named y ⟨_, inside⟩, reused]
        have gone := bindings key
        rw [if_pos (keys.refl key)] at gone
        exact reach (wf.base_update done.wf) linked (keyed ▸ same) gone
      · exact wf.sound x (kept x linked) y earlier

/-- The calls that meet neither a chain of several entries to push down, nor a count without
room, nor a key to delete behind the head of its chain. -/
def Clear (keys : KeyOps) (h : Trie) : Call → Prop
  | .put key _ => (h.base (baseSpineBucket (keys.hash key))).PutClear (keys.hash key) 0
  | .putIfAbsent key _ => (h.base (baseSpineBucket (keys.hash key))).PutClear (keys.hash key) 0
  | .get _ => True
  | .delete key =>
    (h.base (baseSpineBucket (keys.hash key))).RemoveClear keys (keys.hash key) key 0

def ClearAll (keys : KeyOps) : Trie → List Call → Prop
  | _, [] => True
  | h, call :: rest => h.Clear keys call ∧
      match h.call keys call with
      | none => True
      | some (_, next) => ClearAll keys next rest

/-- The calls return what a finite map returns, leave what it has bound reachable and nothing
else, and free no entry that is linked. -/
def FiniteMapExact (keys : KeyOps) (block : Fin 64 → Slot) (count : UInt64) (made : List Call) :
    Prop :=
  ∃ last, (create block count).calls keys made =
      some ((FiniteMap.calls keys (fun _ => none) made).1, last) ∧
    (∀ key, last.binding keys key = (FiniteMap.calls keys (fun _ => none) made).2 key) ∧
    last.Sound

theorem call_exact (call : Call) {map : FiniteMap} (wf : h.WellFormed keys)
    (represents : ∀ key, h.binding keys key = map key) (clear : h.Clear keys call) :
    ∃ after, h.call keys call = some ((map.call keys call).1, after) ∧ after.WellFormed keys ∧
      ∀ key, after.binding keys key = (map.call keys call).2 key := by
  cases call with
  | put key value =>
    obtain ⟨after, done, kept, bindings⟩ := putHelper_exact wf key value false clear
    refine ⟨after, done, kept, fun other => ?_⟩
    rw [bindings other, represents other]
    rfl
  | putIfAbsent key value =>
    obtain ⟨after, done, kept, bindings⟩ := putHelper_exact wf key value true clear
    rw [if_pos rfl] at done bindings
    refine ⟨after, ?_, kept, fun other => ?_⟩
    · rw [call, done, FiniteMap.call, represents key]
      cases map key <;> rfl
    · rw [bindings other, FiniteMap.call, represents other, represents key]
      cases bound : map key with
      | none => rfl
      | some old =>
        cases equals : keys.opEquals other key with
        | true =>
          have alike := binding_alike (h := h) equals
          rw [represents other, represents key, bound] at alike
          exact alike.symm
        | false => rfl
  | get key =>
    refine ⟨h, ?_, wf, represents⟩
    rw [call, get_exact wf key, represents key]
    rfl
  | delete key =>
    obtain ⟨after, removed, kept, bindings⟩ := remove_exact wf key clear
    refine ⟨after, ?_, kept, fun other => ?_⟩
    · rw [call, delete, get_exact wf key, removed, represents key, FiniteMap.call]
      cases map key with
      | none => rfl
      | some value => rfl
    · rw [bindings other, represents other]
      rfl

theorem calls_exact (calls : List Call) {map : FiniteMap} (wf : h.WellFormed keys)
    (represents : ∀ key, h.binding keys key = map key) (clear : h.ClearAll keys calls) :
    ∃ last, h.calls keys calls = some ((map.calls keys calls).1, last) ∧ last.WellFormed keys ∧
      ∀ key, last.binding keys key = (map.calls keys calls).2 key := by
  induction calls generalizing h map with
  | nil => exact ⟨h, rfl, wf, represents⟩
  | cons call rest ih =>
    obtain ⟨first, later⟩ := clear
    obtain ⟨next, done, nextWf, nextMap⟩ := call_exact call wf represents first
    rw [done] at later
    obtain ⟨last, ran, kept, bindings⟩ := ih nextWf nextMap later
    refine ⟨last, ?_, kept, bindings⟩
    simp only [Trie.calls, done, ran, FiniteMap.calls]

theorem create_wf (keys : KeyOps) (count : UInt64) :
    (create (fun _ => .empty) count).WellFormed keys where
  slots _ := trivial
  named := ⟨fun _ => 0, fun _ ⟨_, linked⟩ => linked.elim⟩
  allocated := fun _ ⟨_, linked⟩ => linked.elim
  released := nofun
  sound := fun _ ⟨_, linked⟩ => linked.elim

/-- In a block that `malloc` returns zeroed, every run of clear calls is that of a finite map. -/
theorem trie_finiteMap (keys : KeyOps) (block : Fin 64 → Slot) (count : UInt64) (made : List Call)
    (zeroed : block = fun _ => .empty) (clear : (create block count).ClearAll keys made) :
    FiniteMapExact keys block count made := by
  subst zeroed
  obtain ⟨last, ran, wf, bindings⟩ :=
    calls_exact made (create_wf keys count) (fun _ => rfl) clear
  exact ⟨last, ran, bindings, wf.sound⟩

instance decidablePutClear (lkey : UInt64) : (depth : Nat) → (slot : Slot) →
    Decidable (slot.PutClear lkey depth)
  | _, .empty => .isTrue trivial
  | depth, .spine count elements =>
    have := decidablePutClear lkey (depth + 1) (elements (spineBucket lkey (depth + 1)))
    inferInstanceAs (Decidable (count + 1 < countLimit ∧
      (elements (spineBucket lkey (depth + 1))).PutClear lkey (depth + 1)))
  | _, .chain head next => inferInstanceAs (Decidable (head.hashedKey ≠ lkey → next = []))

instance decidableRemoveClear (keys : KeyOps) (lkey key : UInt64) : (depth : Nat) → (slot : Slot) →
    Decidable (slot.RemoveClear keys lkey key depth)
  | _, .empty => .isTrue trivial
  | depth, .spine _ elements =>
    decidableRemoveClear keys lkey key (depth + 1) (elements (spineBucket lkey (depth + 1)))
  | _, .chain head next => inferInstanceAs (Decidable (head.hashedKey = lkey →
      ∀ e ∈ next, keys.opEquals e.key key = false))

instance (keys : KeyOps) (h : Trie) : (call : Call) → Decidable (h.Clear keys call)
  | .put _ _ => decidablePutClear ..
  | .putIfAbsent _ _ => decidablePutClear ..
  | .get _ => .isTrue trivial
  | .delete _ => decidableRemoveClear ..

def ClearAll.decide (keys : KeyOps) : (calls : List Call) → (h : Trie) →
    Decidable (h.ClearAll keys calls)
  | [], _ => .isTrue trivial
  | call :: rest, h =>
    @instDecidableAnd _ _ inferInstance
      (match h.call keys call with
      | none => .isTrue trivial
      | some (_, next) => ClearAll.decide keys rest next)

instance (h : Trie) (calls : List Call) : Decidable (h.ClearAll keys calls) :=
  ClearAll.decide keys calls h

/-- The hash is the remainder by 1000: keys 1000 apart collide, 1 and 65 have one base slot. -/
def thousands : KeyOps where
  opEquals key other := key == other
  opHash key := (key % 1000).toUInt32.toInt32
  refl := by simp
  symm := by
    intro key other same
    rw [beq_iff_eq] at same ⊢
    exact same.symm
  trans := by
    intro key other third first second
    rw [beq_iff_eq] at first second ⊢
    exact first.trans second
  sameHash := by
    intro key other same
    rw [beq_iff_eq] at same
    rw [same]

theorem trie_finiteMap_spines :
    (create (fun _ => .empty) 0).ClearAll thousands
        [.put 1 10, .put 65 11, .put 1065 12, .put 129 13, .put 1065 14, .delete 1065, .delete 65,
          .putIfAbsent 1 15, .get 129] ∧
      FiniteMapExact thousands (fun _ => .empty) 0
        [.put 1 10, .put 65 11, .put 1065 12, .put 129 13, .put 1065 14, .delete 1065, .delete 65,
          .putIfAbsent 1 15, .get 129] :=
  have clear : (create (fun _ => .empty) 0).ClearAll thousands
      [.put 1 10, .put 65 11, .put 1065 12, .put 129 13, .put 1065 14, .delete 1065, .delete 65,
        .putIfAbsent 1 15, .get 129] := by decide +kernel
  ⟨clear, trie_finiteMap thousands _ 0 _ rfl clear⟩

/-- Two keys of one hash are pushed down together and counted as one: once the third key and one
of them are deleted the spine is dropped, and the other is lost. -/
theorem chain_pushed_down_is_lost :
    ¬ FiniteMapExact thousands (fun _ => .empty) 0
      [.put 1 10, .put 1001 11, .put 65 12, .delete 65, .delete 1001, .get 1] := by
  intro claimed
  obtain ⟨last, ran, -⟩ := claimed
  have returned : ((create (fun _ => .empty) 0).calls thousands
      [.put 1 10, .put 1001 11, .put 65 12, .delete 65, .delete 1001, .get 1]).map Prod.fst =
        some [10, 11, 12, 12, 11, 0] := by decide +kernel
  have wanted : (FiniteMap.calls thousands (fun _ => none)
      [.put 1 10, .put 1001 11, .put 65 12, .delete 65, .delete 1001, .get 1]).1 =
        [10, 11, 12, 12, 11, 10] := by decide +kernel
  rw [ran, wanted] at returned
  cases returned

end Trie

end Qthreads.Dict
