import Qthreads.Dict.Trie

namespace Qthreads.Dict

open Function (update update_of_ne update_self update_apply)

namespace Slot

def weight : Slot → Nat
  | empty => 0
  | chain _ next => next.length + 1
  | spine _ _ => 1

def binding (keys : KeyOps) (lkey key : UInt64) : Nat → Slot → Option UInt64
  | _, empty => none
  | depth, spine _ elements =>
    (elements (spineBucket lkey (depth + 1))).binding keys lkey key (depth + 1)
  | _, chain head next =>
    if head.hashedKey = lkey then
      ((head :: next).find? fun e => keys.opEquals e.key key).map (·.value)
    else none

def Has (e : Entry) : Slot → Prop
  | empty => False
  | chain head next => e ∈ head :: next
  | spine _ elements => ∃ i, (elements i).Has e

def span (depth : Nat) : Nat := 2 ^ (6 + 5 * depth)

def WellFormed (keys : KeyOps) : Nat → Nat → Slot → Prop
  | _, _, empty => True
  | depth, low, chain head next =>
    (∀ e ∈ head :: next, e.hashedKey = keys.hash e.key ∧ e.hashedKey = head.hashedKey) ∧
    head.hashedKey.toNat % span depth = low ∧
    (head :: next).Pairwise fun e later => keys.opEquals e.key later.key = false
  | depth, low, spine count elements =>
    depth ≤ 5 ∧ low < span depth ∧ 0 < count ∧ count = ∑ i, (elements i).weight ∧
    ∀ i, (elements i).WellFormed keys (depth + 1) (low + span depth * i)

def PutClear (lkey : UInt64) : Nat → Slot → Prop
  | _, empty => True
  | depth, spine count elements => count + 1 < countLimit ∧
      (elements (spineBucket lkey (depth + 1))).PutClear lkey (depth + 1)
  | _, chain head next => head.hashedKey ≠ lkey → next = []

def RemoveClear (keys : KeyOps) (lkey key : UInt64) : Nat → Slot → Prop
  | _, empty => True
  | depth, spine _ elements =>
    (elements (spineBucket lkey (depth + 1))).RemoveClear keys lkey key (depth + 1)
  | _, chain head next => head.hashedKey = lkey → ∀ e ∈ next, keys.opEquals e.key key = false

end Slot

open Slot

variable {keys : KeyOps} {depth low : Nat} {lkey key other : UInt64} {slot : Slot}
  {elements : Fin 32 → Slot} {bucket : Fin 32}

theorem span_succ (depth : Nat) : span (depth + 1) = span depth * 32 := by
  rw [span, span, show 6 + 5 * (depth + 1) = 6 + 5 * depth + 5 by omega, Nat.pow_add]

theorem mod_span_succ (x : UInt64) (depth : Nat) :
    x.toNat % span (depth + 1) =
      x.toNat % span depth + span depth * (spineBucket x (depth + 1)).val := by
  have index : (spineBucket x (depth + 1)).val = x.toNat / span depth % 32 := by
    rw [spineBucket, Fin.val_ofNat, Nat.add_sub_cancel, Nat.shiftRight_eq_div_pow, span]
  rw [span_succ, Nat.mod_mul, index]

theorem spineBucket_eq {x : UInt64} {i : Fin 32} (small : low < span depth)
    (residue : x.toNat % span (depth + 1) = low + span depth * i) :
    spineBucket x (depth + 1) = i := by
  rw [mod_span_succ] at residue
  have below : x.toNat % span depth < span depth := Nat.mod_lt _ (Nat.two_pow_pos _)
  have positive : 0 < span depth := Nat.two_pow_pos _
  have quotient : (x.toNat % span depth + span depth * (spineBucket x (depth + 1)).val) /
      span depth = (low + span depth * i) / span depth := congrArg (· / span depth) residue
  rw [Nat.add_mul_div_left _ _ positive, Nat.add_mul_div_left _ _ positive,
    Nat.div_eq_of_lt below, Nat.div_eq_of_lt small, Nat.zero_add, Nat.zero_add] at quotient
  exact Fin.ext quotient

theorem hash_low (keys : KeyOps) (key : UInt64) :
    (keys.hash key).toNat % 2 ^ 32 = (keys.opHash key).toBitVec.toNat := by
  have extended : (keys.hash key).toNat =
      ((keys.opHash key).toBitVec.signExtend 64).toNat := rfl
  have small := (keys.opHash key).toBitVec.isLt
  rw [extended, BitVec.toNat_signExtend, BitVec.toNat_setWidth_of_le (by decide)]
  split <;> omega

/-- Hashes have 32 bits, so that six spines tell all of them apart. -/
theorem hash_inj (residue : (keys.hash key).toNat % span 6 = (keys.hash other).toNat % span 6) :
    keys.hash key = keys.hash other := by
  have divides : 2 ^ 32 ∣ span 6 := by decide
  have low := congrArg (· % 2 ^ 32) residue
  simp only [Nat.mod_mod_of_dvd _ divides, hash_low] at low
  have same : keys.opHash key = keys.opHash other :=
    Int32.toBitVec_inj.mp (BitVec.eq_of_toNat_eq low)
  rw [KeyOps.hash, KeyOps.hash, same]

theorem hash_congr (same : keys.opEquals key other = true) : keys.hash key = keys.hash other := by
  rw [KeyOps.hash, KeyOps.hash, keys.sameHash _ _ same]

theorem weight_update (elements : Fin 32 → Slot) (bucket : Fin 32) (slot : Slot) :
    ∑ i, (update elements bucket slot i).weight + (elements bucket).weight =
      ∑ i, (elements i).weight + slot.weight := by
  have after := Finset.add_sum_erase Finset.univ
    (fun i => (update elements bucket slot i).weight) (Finset.mem_univ bucket)
  have before := Finset.add_sum_erase Finset.univ (fun i => (elements i).weight)
    (Finset.mem_univ bucket)
  have others : ∑ i ∈ Finset.univ.erase bucket, (update elements bucket slot i).weight =
      ∑ i ∈ Finset.univ.erase bucket, (elements i).weight := by
    apply Finset.sum_congr rfl
    intro i member
    rw [update_of_ne (Finset.ne_of_mem_erase member)]
  simp only [update_self] at after
  omega

theorem weight_pos (wf : slot.WellFormed keys depth low) (nonempty : slot ≠ .empty) :
    0 < slot.weight := by
  cases slot with
  | empty => exact absurd rfl nonempty
  | chain head next => exact Nat.succ_pos _
  | spine count elements => exact Nat.one_pos

theorem binding_update (slot : Slot) (count : Nat) :
    (spine count (update elements bucket slot)).binding keys lkey key depth =
      if spineBucket lkey (depth + 1) = bucket then slot.binding keys lkey key (depth + 1)
      else (elements (spineBucket lkey (depth + 1))).binding keys lkey key (depth + 1) := by
  rw [binding, update_apply]
  split <;> rfl

variable {count : Nat}

theorem wellFormed_update (wf : (spine count elements).WellFormed keys depth low)
    {slot : Slot} (fits : slot.WellFormed keys (depth + 1) (low + span depth * bucket))
    (i : Fin 32) :
    (update elements bucket slot i).WellFormed keys (depth + 1) (low + span depth * i) := by
  obtain ⟨-, -, -, -, below⟩ := wf
  by_cases same : i = bucket
  · subst same
    rw [update_self]
    exact fits
  · rw [update_of_ne same]
    exact below i

theorem has_update {e : Entry} {i : Fin 32} (has : (update elements bucket slot i).Has e) :
    slot.Has e ∨ (elements i).Has e := by
  by_cases same : i = bucket
  · subst same
    rw [update_self] at has
    exact .inl has
  · rw [update_of_ne same] at has
    exact .inr has

section

variable (wf : slot.WellFormed keys depth low)
include wf

theorem Slot.WellFormed.shallow (bound : depth ≤ 6) :
    slot.get keys lkey key depth = some ((slot.binding keys lkey key depth).getD 0) := by
  induction slot generalizing depth low with
  | empty => rfl
  | chain head next =>
    rw [get, binding]
    split
    · cases (head :: next).find? fun e => keys.opEquals e.key key <;> rfl
    · rfl
  | spine count elements ih =>
    obtain ⟨five, -, -, -, below⟩ := wf
    have inside : depth + 1 ≤ maxDepth := by
      rw [maxDepth]
      omega
    rw [get, if_pos inside, binding]
    exact ih _ (below _) (by omega)

theorem Slot.WellFormed.has_low {e : Entry}
    (has : slot.Has e) : e.hashedKey = keys.hash e.key ∧ e.hashedKey.toNat % span depth = low := by
  induction slot generalizing depth low with
  | empty => exact has.elim
  | chain head next =>
    obtain ⟨same, residue, -⟩ := wf
    obtain ⟨hashed, equal⟩ := same e has
    exact ⟨hashed, by rw [equal, residue]⟩
  | spine count elements ih =>
    obtain ⟨-, small, -, -, below⟩ := wf
    obtain ⟨i, inside⟩ := has
    obtain ⟨hashed, residue⟩ := ih i (below i) inside
    refine ⟨hashed, ?_⟩
    have divides : span depth ∣ span (depth + 1) := ⟨32, span_succ depth⟩
    rw [← Nat.mod_mod_of_dvd _ divides, residue, Nat.add_mul_mod_self_left, Nat.mod_eq_of_lt small]

theorem Slot.WellFormed.reach {e : Entry}
    (has : slot.Has e) (same : keys.opEquals e.key key = true) :
    slot.binding keys (keys.hash key) key depth ≠ none := by
  induction slot generalizing depth low with
  | empty => exact has.elim
  | chain head next =>
    obtain ⟨chained, -, -⟩ := wf
    obtain ⟨hashed, equal⟩ := chained e has
    rw [binding, if_pos (by rw [← equal, hashed, hash_congr same]), ne_eq, Option.map_eq_none_iff,
      List.find?_eq_none]
    intro never
    exact never e has same
  | spine count elements ih =>
    have below := wf
    obtain ⟨-, small, -, -, below⟩ := below
    obtain ⟨i, inside⟩ := has
    obtain ⟨hashed, residue⟩ := (below i).has_low inside
    have place : spineBucket (keys.hash key) (depth + 1) = i := by
      rw [← hash_congr same, ← hashed]
      exact spineBucket_eq small residue
    rw [binding, place]
    exact ih i (below i) inside

end

theorem binding_congr (same : keys.opEquals other key = true) (slot : Slot) :
    slot.binding keys (keys.hash other) other depth =
      slot.binding keys (keys.hash key) key depth := by
  have found : (fun e : Entry => keys.opEquals e.key other) = fun e => keys.opEquals e.key key := by
    funext e
    rw [Bool.eq_iff_iff]
    exact ⟨fun equals => keys.trans _ _ _ equals same,
      fun equals => keys.trans _ _ _ equals (keys.symm _ _ same)⟩
  induction slot generalizing depth with
  | empty => rfl
  | chain head next => rw [binding, binding, hash_congr same, found]
  | spine count elements ih =>
    have inner : (elements (spineBucket (keys.hash key) (depth + 1))).binding keys
        (keys.hash other) other (depth + 1) = _ := ih _
    rw [binding, binding, hash_congr same, ← inner, hash_congr same]

structure Chained (keys : KeyOps) (depth low : Nat) (hash : UInt64) (list : List Entry) : Prop where
  hashed : ∀ e ∈ list, e.hashedKey = keys.hash e.key ∧ e.hashedKey = hash
  residue : hash.toNat % span depth = low
  distinct : list.Pairwise fun e later => keys.opEquals e.key later.key = false

variable {hash : UInt64} {list front back : List Entry} {crt e : Entry}

theorem Chained.wf (chain : Chained keys depth low hash list) :
    (chained list).WellFormed keys depth low := by
  cases list with
  | nil => trivial
  | cons head next =>
    have same := (chain.hashed head List.mem_cons_self).2
    refine ⟨?_, ?_, chain.distinct⟩
    · rw [same]
      exact chain.hashed
    · rw [same]
      exact chain.residue

variable {next : List Entry}

theorem chain_chained {head : Entry} (wf : (chain head next).WellFormed keys depth low) :
    Chained keys depth low head.hashedKey (head :: next) :=
  ⟨wf.1, wf.2.1, wf.2.2⟩

theorem Chained.binding (chain : Chained keys depth low hash list) (lkey key : UInt64) :
    (chained list).binding keys lkey key depth =
      if hash = lkey then (list.find? fun e => keys.opEquals e.key key).map (·.value) else none := by
  cases list with
  | nil => simp [chained, Slot.binding]
  | cons head next =>
    rw [chained, Slot.binding, (chain.hashed head List.mem_cons_self).2]

theorem chained_weight (list : List Entry) : (chained list).weight = list.length := by
  cases list <;> rfl

theorem chained_has : (chained list).Has e ↔ e ∈ list := by
  cases list with
  | nil => simp [chained, Has]
  | cons head next => rfl

theorem apart_of_apart (same : keys.opEquals crt.key key = true)
    (apart : keys.opEquals other key = false) : keys.opEquals crt.key other = false := by
  rw [Bool.eq_false_iff]
  intro equals
  have joined := keys.trans _ _ _ (keys.symm _ _ equals) same
  rw [apart] at joined
  cases joined

theorem apart_congr (same : keys.opEquals other key = true)
    (apart : keys.opEquals crt.key key = false) : keys.opEquals crt.key other = false := by
  rw [Bool.eq_false_iff]
  intro equals
  rw [keys.trans _ _ _ equals same] at apart
  cases apart

variable {ifAbsent : Bool}

theorem chainPut_none (absent : chainPut keys ifAbsent e list = none) :
    ∀ crt ∈ list, keys.opEquals crt.key e.key = false := by
  induction list with
  | nil => exact nofun
  | cons crt next ih =>
    simp only [chainPut] at absent
    split at absent
    · split at absent <;> cases absent
    · rename_i differs
      intro entry member
      rcases List.mem_cons.mp member with rfl | later
      · exact Bool.eq_false_iff.mpr differs
      · exact ih (Option.map_eq_none_iff.mp absent) entry later

theorem chainPut_some {value : UInt64} {after : List Entry}
    (found : chainPut keys ifAbsent e list = some (value, after)) :
    ∃ front crt back, list = front ++ crt :: back ∧
      (∀ entry ∈ front, keys.opEquals entry.key e.key = false) ∧
      keys.opEquals crt.key e.key = true ∧ after = front ++ { crt with value := value } :: back ∧
      value = if ifAbsent then crt.value else e.value := by
  induction list generalizing after with
  | nil => cases found
  | cons crt next ih =>
    simp only [chainPut] at found
    split at found
    · rename_i same
      cases ifAbsent with
      | true =>
        cases found
        exact ⟨[], crt, next, rfl, nofun, same, rfl, rfl⟩
      | false =>
        cases found
        exact ⟨[], crt, next, rfl, nofun, same, rfl, rfl⟩
    · rename_i differs
      obtain ⟨⟨value', later⟩, inner, joined⟩ := Option.map_eq_some_iff.mp found
      cases joined
      obtain ⟨front, cur, back, shape, early, same, changed, stored⟩ := ih inner
      refine ⟨crt :: front, cur, back, by rw [shape]; rfl, ?_, same, by rw [changed]; rfl, stored⟩
      intro entry member
      rcases List.mem_cons.mp member with rfl | later
      · exact Bool.eq_false_iff.mpr differs
      · exact early entry later

theorem find_stored (value : UInt64) (early : ∀ entry ∈ front, keys.opEquals entry.key key = false)
    (same : keys.opEquals crt.key key = true) :
    (((front ++ { crt with value := value } :: back).find? fun e =>
        keys.opEquals e.key other).map (·.value)) =
      if keys.opEquals other key then some value
      else ((front ++ crt :: back).find? fun e => keys.opEquals e.key other).map (·.value) := by
  cases equals : keys.opEquals other key with
  | true =>
    have before : front.find? (fun e => keys.opEquals e.key other) = none := by
      rw [List.find?_eq_none]
      intro entry member
      rw [apart_congr equals (early entry member)]
      exact Bool.false_ne_true
    have here : keys.opEquals crt.key other = true :=
      keys.trans _ _ _ same (keys.symm _ _ equals)
    simp [List.find?_append, before, here]
  | false =>
    have here : keys.opEquals crt.key other = false := apart_of_apart same equals
    simp [List.find?_append, here]

structure PutDone (keys : KeyOps) (ifAbsent : Bool) (e : Entry) (depth low : Nat) (slot : Slot)
    (placed : Placed) : Prop where
  wf : placed.slot.WellFormed keys depth low
  weight : placed.slot.weight = slot.weight + placed.added.toNat
  value : placed.value =
    if ifAbsent then (slot.binding keys (keys.hash e.key) e.key depth).getD e.value else e.value
  bindings : ∀ other, placed.slot.binding keys (keys.hash other) other depth =
    if keys.opEquals other e.key then some placed.value
    else slot.binding keys (keys.hash other) other depth
  has : ∀ x, placed.slot.Has x → x = e ∨ ∃ old, slot.Has old ∧ old.addr = x.addr ∧ old.key = x.key

theorem single_chained (hashed : e.hashedKey = keys.hash e.key)
    (residue : e.hashedKey.toNat % span depth = low) :
    Chained keys depth low e.hashedKey [e] where
  hashed := by
    intro entry member
    cases List.mem_singleton.mp member
    exact ⟨hashed, rfl⟩
  residue := residue
  distinct := List.pairwise_singleton _ _

theorem single_binding (hashed : e.hashedKey = keys.hash e.key) :
    (chain e []).binding keys (keys.hash other) other depth =
      if keys.opEquals other e.key then some e.value else none := by
  rw [binding]
  cases equals : keys.opEquals other e.key with
  | true =>
    rw [if_pos (by rw [hashed, hash_congr equals])]
    simp [keys.symm _ _ equals]
  | false =>
    have differs : keys.opEquals e.key other = false := by
      rw [Bool.eq_false_iff]
      intro reverse
      rw [keys.symm _ _ reverse] at equals
      cases equals
    split <;> simp [differs]

theorem residue_succ {x : UInt64} (residue : x.toNat % span depth = low) :
    x.toNat % span (depth + 1) = low + span depth * (spineBucket x (depth + 1)).val := by
  rw [mod_span_succ, residue]

theorem residue_lt {x : UInt64} (residue : x.toNat % span depth = low) : low < span depth := by
  rw [← residue]
  exact Nat.mod_lt _ (Nat.two_pow_pos _)

theorem empty_weight : Slot.empty.weight = 0 := rfl

theorem single_weight (e : Entry) : (chain e []).weight = 1 := rfl

theorem none_weight (elements : Fin 32 → Slot) (empties : ∀ i, elements i = .empty) :
    ∑ i, (elements i).weight = 0 := by
  apply Finset.sum_eq_zero
  intro i _
  rw [empties i]
  rfl

structure UpgradeDone (keys : KeyOps) (e head : Entry) (depth low : Nat) (slot : Slot) : Prop where
  wf : slot.WellFormed keys depth low
  weight : slot.weight = 1
  bindings : ∀ other, slot.binding keys (keys.hash other) other depth =
    if keys.opEquals other e.key then some e.value
    else (chain head []).binding keys (keys.hash other) other depth
  has : ∀ x, slot.Has x → x = e ∨ x = head

section Upgrade

variable {head : Entry} (headHash : head.hashedKey = keys.hash head.key)
  (newHash : e.hashedKey = keys.hash e.key) (headLow : head.hashedKey.toNat % span depth = low)
  (newLow : e.hashedKey.toNat % span depth = low) (five : depth ≤ 5)

include headHash newHash headLow newLow five

theorem upgrade_split
    (buckets : spineBucket head.hashedKey (depth + 1) ≠ spineBucket e.hashedKey (depth + 1)) :
    UpgradeDone keys e head depth low (.spine 2 (update (update (fun _ => .empty)
      (spineBucket head.hashedKey (depth + 1)) (.chain head []))
      (spineBucket e.hashedKey (depth + 1)) (.chain e []))) := by
  have whole := weight_update (fun _ => .empty) (spineBucket head.hashedKey (depth + 1))
    (chain head [])
  have total := weight_update (update (fun _ => .empty)
    (spineBucket head.hashedKey (depth + 1)) (chain head []))
    (spineBucket e.hashedKey (depth + 1)) (chain e [])
  rw [none_weight _ (fun _ => rfl)] at whole
  rw [update_of_ne (Ne.symm buckets)] at total
  rw [single_weight] at whole total
  rw [empty_weight] at whole total
  refine ⟨⟨five, residue_lt headLow, Nat.two_pos, by omega, ?_⟩, rfl, ?_, ?_⟩
  · intro i
    by_cases last : i = spineBucket e.hashedKey (depth + 1)
    · subst last
      rw [update_self]
      exact (single_chained newHash (residue_succ newLow)).wf
    · rw [update_of_ne last]
      by_cases first : i = spineBucket head.hashedKey (depth + 1)
      · subst first
        rw [update_self]
        exact (single_chained headHash (residue_succ headLow)).wf
      · rw [update_of_ne first]
        trivial
  · intro other
    rw [binding_update, single_binding newHash]
    cases equals : keys.opEquals other e.key with
    | true =>
      rw [if_pos (by rw [newHash, hash_congr equals])]
      simp
    | false =>
      by_cases hash : head.hashedKey = keys.hash other
      · rw [← hash, if_neg buckets, update_self]
        rfl
      · have below : (update (fun _ => Slot.empty)
            (spineBucket head.hashedKey (depth + 1)) (chain head [])
            (spineBucket (keys.hash other) (depth + 1))).binding keys (keys.hash other) other
              (depth + 1) = none := by
          rw [update_apply]
          split
          · rw [binding, if_neg hash]
          · rfl
        rw [below, binding, if_neg hash]
        simp
  · intro x linked
    obtain ⟨i, inside⟩ := linked
    rcases has_update inside with here | earlier
    · exact .inl (List.mem_singleton.mp here)
    · rcases has_update earlier with here | nothing
      · exact .inr (List.mem_singleton.mp here)
      · exact nothing.elim

omit headHash newLow in
theorem upgrade_deeper {inner : Slot}
    (buckets : spineBucket head.hashedKey (depth + 1) = spineBucket e.hashedKey (depth + 1))
    (done : UpgradeDone keys e head (depth + 1)
      (low + span depth * (spineBucket head.hashedKey (depth + 1)).val) inner) :
    UpgradeDone keys e head depth low (.spine 1 (update (fun _ => .empty)
      (spineBucket head.hashedKey (depth + 1)) inner)) := by
  have total := weight_update (fun _ => .empty) (spineBucket head.hashedKey (depth + 1)) inner
  rw [none_weight _ (fun _ => rfl), done.weight, empty_weight] at total
  refine ⟨⟨five, residue_lt headLow, Nat.one_pos, by omega, ?_⟩, rfl, ?_, ?_⟩
  · intro i
    by_cases same : i = spineBucket head.hashedKey (depth + 1)
    · subst same
      rw [update_self]
      exact done.wf
    · rw [update_of_ne same]
      trivial
  · intro other
    rw [binding_update]
    by_cases here : spineBucket (keys.hash other) (depth + 1) =
        spineBucket head.hashedKey (depth + 1)
    · rw [if_pos here, done.bindings other]
      rfl
    · rw [if_neg here]
      cases equals : keys.opEquals other e.key with
      | true =>
        refine absurd ?_ here
        rw [buckets, newHash, hash_congr equals]
      | false =>
        have differs : head.hashedKey ≠ keys.hash other := by
          intro equal
          rw [equal] at here
          exact here rfl
        simp [binding, differs]
  · intro x linked
    obtain ⟨i, inside⟩ := linked
    rcases has_update inside with below | nothing
    · exact done.has x below
    · exact nothing.elim

omit five in
theorem upgrade_shallow (apart : head.hashedKey ≠ e.hashedKey) (bound : depth ≤ 6) : depth ≤ 5 := by
  by_contra deep
  have six : depth = 6 := by omega
  subst six
  rw [headHash, newHash] at apart
  rw [headHash] at headLow
  rw [newHash] at newLow
  exact apart (hash_inj (headLow.trans newLow.symm))

end Upgrade

theorem upgrade_done {room : Nat} {head : Entry} (apart : head.hashedKey ≠ e.hashedKey)
    (headHash : head.hashedKey = keys.hash head.key) (newHash : e.hashedKey = keys.hash e.key)
    (headLow : head.hashedKey.toNat % span depth = low)
    (newLow : e.hashedKey.toNat % span depth = low) (bound : depth ≤ 6)
    (enough : 6 ≤ room + depth) :
    ∃ slot, upgrade e head [] room depth = some slot ∧ UpgradeDone keys e head depth low slot := by
  induction room generalizing depth low with
  | zero =>
    have five := upgrade_shallow headHash newHash headLow newLow apart bound
    omega
  | succ room ih =>
    have five := upgrade_shallow headHash newHash headLow newLow apart bound
    by_cases buckets : spineBucket head.hashedKey (depth + 1) = spineBucket e.hashedKey (depth + 1)
    · have nextLow : e.hashedKey.toNat % span (depth + 1) =
          low + span depth * (spineBucket head.hashedKey (depth + 1)).val := by
        rw [buckets]
        exact residue_succ newLow
      obtain ⟨inner, made, done⟩ := ih (residue_succ headLow) nextLow (by omega) (by omega)
      refine ⟨_, ?_, upgrade_deeper newHash headLow five buckets done⟩
      simp only [upgrade, if_neg (not_not_intro buckets), made, Option.map_some]
    · refine ⟨_, ?_, upgrade_split headHash newHash headLow newLow five buckets⟩
      simp only [upgrade, if_pos buckets]

theorem counted_wf (five : depth ≤ 5) (small : low < span depth)
    (total : count = ∑ i, (elements i).weight)
    (below : ∀ i, (elements i).WellFormed keys (depth + 1) (low + span depth * i)) :
    (counted count elements).WellFormed keys depth low := by
  rw [counted]
  split
  · trivial
  · exact ⟨five, small, by omega, total, below⟩

theorem counted_has (has : (counted count elements).Has e) : ∃ i, (elements i).Has e := by
  rw [counted] at has
  split at has
  · exact has.elim
  · exact has

theorem counted_weight (count : Nat) (elements : Fin 32 → Slot) :
    (counted count elements).weight = if count = 0 then 0 else 1 := by
  rw [counted]
  split <;> rfl

theorem counted_binding (total : count = ∑ i, (elements i).weight)
    (below : ∀ i, (elements i).WellFormed keys (depth + 1) (low + span depth * i)) :
    (counted count elements).binding keys lkey key depth =
      (elements (spineBucket lkey (depth + 1))).binding keys lkey key (depth + 1) := by
  rw [counted]
  split
  · rename_i zero
    rw [zero] at total
    have isZero := (Finset.sum_eq_zero_iff.mp total.symm) (spineBucket lkey (depth + 1))
      (Finset.mem_univ _)
    have empty : elements (spineBucket lkey (depth + 1)) = .empty := by
      by_contra nonempty
      exact absurd isZero (Nat.ne_of_gt (weight_pos (below _) nonempty))
    rw [empty]
    rfl
  · rfl

theorem chain_put_done {head : Entry}
    (wf : (chain head next).WellFormed keys depth low) (hashed : e.hashedKey = keys.hash e.key)
    (same : head.hashedKey = e.hashedKey) :
    ∃ placed, (chain head next).put keys ifAbsent e depth = some placed ∧
      PutDone keys ifAbsent e depth low (chain head next) placed := by
  have chain := chain_chained wf
  rw [put, if_neg (not_not_intro same)]
  cases found : chainPut keys ifAbsent e (head :: next) with
  | none =>
    have absent := chainPut_none found
    have longer : Chained keys depth low head.hashedKey (e :: head :: next) := by
      refine ⟨?_, chain.residue, List.pairwise_cons.mpr ⟨?_, chain.distinct⟩⟩
      · intro entry member
        rcases List.mem_cons.mp member with rfl | later
        · exact ⟨hashed, same.symm⟩
        · exact chain.hashed entry later
      · intro entry member
        rw [Bool.eq_false_iff]
        intro equals
        have differs := absent entry member
        rw [keys.symm _ _ equals] at differs
        cases differs
    have nothing : (head :: next).find? (fun crt => keys.opEquals crt.key e.key) = none := by
      rw [List.find?_eq_none]
      intro entry member
      rw [absent entry member]
      exact Bool.false_ne_true
    refine ⟨_, rfl, longer.wf, rfl, ?_, ?_, ?_⟩
    · rw [Slot.binding, nothing]
      split <;> simp
    · intro other
      have first := longer.binding (keys.hash other) other
      have second := chain.binding (keys.hash other) other
      simp only [chained] at first second
      rw [first, second, same]
      cases equals : keys.opEquals other e.key with
      | true =>
        rw [if_pos (by rw [hashed, hash_congr equals])]
        simp [keys.symm _ _ equals]
      | false =>
        have differs : keys.opEquals e.key other = false :=
          apart_of_apart (keys.refl e.key) equals
        simp [differs]
    · intro x linked
      rcases List.mem_cons.mp linked with here | later
      · exact .inl here
      · exact .inr ⟨x, later, rfl, rfl⟩
  | some result =>
    obtain ⟨value, after⟩ := result
    obtain ⟨front, crt, back, shape, early, equals, changed, stored⟩ := chainPut_some found
    have keptChain : Chained keys depth low head.hashedKey after := by
      refine ⟨?_, chain.residue, ?_⟩
      · intro entry member
        have was := chain.hashed
        rw [shape] at was
        rw [changed] at member
        rcases List.mem_append.mp member with inFront | later
        · exact was entry (List.mem_append_left _ inFront)
        · rcases List.mem_cons.mp later with rfl | inBack
          · exact was crt (List.mem_append_right _ List.mem_cons_self)
          · exact was entry (List.mem_append_right _ (List.mem_cons_of_mem _ inBack))
      · have was := chain.distinct
        rw [shape] at was
        rw [changed]
        simpa [List.pairwise_append, List.pairwise_cons] using was
    have bound : (head :: next).find? (fun entry => keys.opEquals entry.key e.key) = some crt := by
      rw [shape, List.find?_append]
      have before : front.find? (fun entry => keys.opEquals entry.key e.key) = none := by
        rw [List.find?_eq_none]
        intro entry member
        rw [early entry member]
        exact Bool.false_ne_true
      simp [before, equals]
    refine ⟨_, rfl, keptChain.wf, ?_, ?_, ?_, ?_⟩
    · change (chained after).weight = (head :: next).length + 0
      rw [chained_weight, changed, shape]
      simp
    · have old : (Slot.chain head next).binding keys (keys.hash e.key) e.key depth =
          some crt.value := by
        rw [Slot.binding, if_pos (by rw [same, hashed]), bound]
        rfl
      rw [old]
      exact stored
    · intro other
      have first := keptChain.binding (keys.hash other) other
      have second := chain.binding (keys.hash other) other
      simp only [chained] at second
      rw [first, second, same, changed, shape, find_stored value early equals]
      cases also : keys.opEquals other e.key with
      | true =>
        rw [if_pos (by rw [hashed, hash_congr also])]
        simp
      | false => simp
    · intro x linked
      rw [chained_has, changed] at linked
      right
      have inside : ∀ entry ∈ front ++ crt :: back, (Slot.chain head next).Has entry := by
        intro entry member
        rw [← shape] at member
        exact member
      rcases List.mem_append.mp linked with inFront | later
      · exact ⟨x, inside x (List.mem_append_left _ inFront), rfl, rfl⟩
      · rcases List.mem_cons.mp later with rfl | inBack
        · exact ⟨crt, inside crt (List.mem_append_right _ List.mem_cons_self), rfl, rfl⟩
        · exact ⟨x, inside x (List.mem_append_right _ (List.mem_cons_of_mem _ inBack)), rfl, rfl⟩

theorem spine_put_done {placed : Placed}
    (wf : (spine count elements).WellFormed keys depth low) (hashed : e.hashedKey = keys.hash e.key)
    (done : PutDone keys ifAbsent e (depth + 1)
      (low + span depth * (spineBucket e.hashedKey (depth + 1)).val)
      (elements (spineBucket e.hashedKey (depth + 1))) placed) :
    PutDone keys ifAbsent e depth low (spine count elements)
      ⟨counted (if placed.added then count + 1 else count)
        (update elements (spineBucket e.hashedKey (depth + 1)) placed.slot),
        placed.value, false⟩ := by
  have below := wellFormed_update wf done.wf
  obtain ⟨five, small, positive, counts, -⟩ := wf
  have moved := weight_update elements (spineBucket e.hashedKey (depth + 1)) placed.slot
  rw [done.weight] at moved
  have total : (if placed.added then count + 1 else count) = ∑ i, (update elements
      (spineBucket e.hashedKey (depth + 1)) placed.slot i).weight := by
    cases added : placed.added with
    | true =>
      rw [added, Bool.toNat_true] at moved
      rw [if_pos rfl]
      omega
    | false =>
      rw [added, Bool.toNat_false] at moved
      rw [if_neg Bool.false_ne_true]
      omega
  have nonzero : (if placed.added then count + 1 else count) ≠ 0 := by
    split <;> omega
  refine ⟨counted_wf five small total below, ?_, ?_, ?_, ?_⟩
  · rw [counted_weight, if_neg nonzero]
    rfl
  · rw [done.value, binding, hashed]
  · intro other
    rw [counted_binding total below, update_apply]
    split
    · rename_i here
      rw [done.bindings other, binding, here]
    · rename_i elsewhere
      cases equals : keys.opEquals other e.key with
      | true => exact absurd (by rw [hashed, hash_congr equals]) elsewhere
      | false =>
        rw [binding]
        simp
  · intro x linked
    obtain ⟨i, inside⟩ := counted_has linked
    rcases has_update inside with here | elsewhere
    · rcases done.has x here with new | ⟨old, inner, same⟩
      · exact .inl new
      · exact .inr ⟨old, ⟨_, inner⟩, same⟩
    · exact .inr ⟨x, ⟨i, elsewhere⟩, rfl, rfl⟩

theorem put_done (ifAbsent : Bool) (wf : slot.WellFormed keys depth low)
    (hashed : e.hashedKey = keys.hash e.key) (residue : e.hashedKey.toNat % span depth = low)
    (bound : depth ≤ 6) (clear : slot.PutClear e.hashedKey depth) :
    ∃ placed, slot.put keys ifAbsent e depth = some placed ∧
      PutDone keys ifAbsent e depth low slot placed := by
  induction slot generalizing depth low with
  | empty =>
    refine ⟨_, rfl, (single_chained hashed residue).wf, rfl, ?_, ?_, ?_⟩
    · cases ifAbsent <;> rfl
    · intro other
      rw [single_binding hashed]
      rfl
    · intro x linked
      exact .inl (List.mem_singleton.mp linked)
  | chain head next =>
    by_cases same : head.hashedKey = e.hashedKey
    · exact chain_put_done wf hashed same
    · have single : next = [] := clear same
      subst single
      have chain := chain_chained wf
      obtain ⟨after, made, done⟩ := upgrade_done same (chain.hashed head List.mem_cons_self).1
        hashed chain.residue residue bound (show 6 ≤ maxDepth - depth + depth by
          rw [maxDepth]
          omega)
      refine ⟨⟨after, e.value, false⟩, ?_, done.wf, done.weight, ?_, done.bindings, ?_⟩
      · rw [put, if_pos same, made, Option.map_some]
      · have absent : (Slot.chain head []).binding keys (keys.hash e.key) e.key depth = none := by
          rw [binding, if_neg (by rw [← hashed]; exact same)]
        rw [absent]
        cases ifAbsent <;> rfl
      · intro x linked
        rcases done.has x linked with new | old
        · exact .inl new
        · exact .inr ⟨head, List.mem_cons_self, by rw [old], by rw [old]⟩
  | spine count elements ih =>
    have below := wf
    obtain ⟨five, -, -, -, below⟩ := below
    obtain ⟨room, clear⟩ := clear
    obtain ⟨placed, put, done⟩ := ih _ (below _) (residue_succ residue) (by omega) clear
    refine ⟨_, ?_, spine_put_done wf hashed done⟩
    have inside : depth + 1 ≤ maxDepth := by
      rw [maxDepth]
      omega
    simp only [Slot.put, if_pos (And.intro room inside), put, Option.map_some]

structure RemoveDone (keys : KeyOps) (key : UInt64) (depth low : Nat) (slot : Slot)
    (removed : Removed) : Prop where
  wf : removed.slot.WellFormed keys depth low
  weight : removed.slot.weight + removed.up.toNat = slot.weight
  found : removed.freed.isSome = (slot.binding keys (keys.hash key) key depth).isSome
  bindings : ∀ other, removed.slot.binding keys (keys.hash other) other depth =
    if keys.opEquals other key then none else slot.binding keys (keys.hash other) other depth
  freed : ∀ gone ∈ removed.freed, slot.Has gone ∧ keys.opEquals gone.key key = true
  has : ∀ x, removed.slot.Has x → slot.Has x

theorem chain_remove_done {head : Entry} (wf : (chain head next).WellFormed keys depth low)
    (clear : (chain head next).RemoveClear keys (keys.hash key) key depth) :
    ∃ removed, (chain head next).remove keys (keys.hash key) key depth = some removed ∧
      RemoveDone keys key depth low (chain head next) removed := by
  have chain := chain_chained wf
  have unchanged : (Slot.chain head next).binding keys (keys.hash key) key depth = none →
      RemoveDone keys key depth low (Slot.chain head next) ⟨Slot.chain head next, none, false⟩ := by
    intro absent
    refine ⟨wf, rfl, by rw [absent]; rfl, ?_, nofun, fun _ linked => linked⟩
    intro other
    cases equals : keys.opEquals other key with
    | true => rw [binding_congr equals, absent, if_pos rfl]
    | false => rw [if_neg Bool.false_ne_true]
  by_cases same : head.hashedKey = keys.hash key
  · have others := clear same
    rw [remove, if_pos same]
    cases here : keys.opEquals head.key key with
    | true =>
      have rest : Chained keys depth low head.hashedKey next :=
        ⟨fun entry member => chain.hashed entry (List.mem_cons_of_mem _ member), chain.residue,
          (List.pairwise_cons.mp chain.distinct).2⟩
      refine ⟨⟨chained next, some head, true⟩, by simp [here], rest.wf, ?_, ?_, ?_, ?_, ?_⟩
      · rw [chained_weight]
        rfl
      · rw [binding, if_pos same]
        simp [here]
      · intro other
        rw [rest.binding, binding]
        cases equals : keys.opEquals other key with
        | true =>
          have missing : next.find? (fun e => keys.opEquals e.key other) = none := by
            rw [List.find?_eq_none]
            intro entry member
            rw [apart_congr equals (others entry member)]
            exact Bool.false_ne_true
          rw [missing]
          simp
        | false => simp [apart_of_apart here equals]
      · intro gone freed
        cases freed
        exact ⟨List.mem_cons_self, here⟩
      · intro x linked
        exact List.mem_cons_of_mem _ (chained_has.mp linked)
    | false =>
      have nowhere : ∀ e ∈ head :: next, keys.opEquals e.key key = false := by
        intro entry member
        rcases List.mem_cons.mp member with rfl | later
        · exact here
        · exact others entry later
      have unset : ((head :: next).any fun e => keys.opEquals e.key key) = false := by
        rw [List.any_eq_false]
        intro entry member
        rw [nowhere entry member]
        exact Bool.false_ne_true
      refine ⟨_, by rw [unset, if_neg Bool.false_ne_true], unchanged ?_⟩
      rw [binding, if_pos same, Option.map_eq_none_iff, List.find?_eq_none]
      intro entry member
      rw [nowhere entry member]
      exact Bool.false_ne_true
  · refine ⟨_, by rw [remove, if_neg same], unchanged ?_⟩
    rw [binding, if_neg same]

theorem spine_remove_done {removed : Removed}
    (wf : (spine count elements).WellFormed keys depth low)
    (done : RemoveDone keys key (depth + 1)
      (low + span depth * (spineBucket (keys.hash key) (depth + 1)).val)
      (elements (spineBucket (keys.hash key) (depth + 1))) removed) :
    RemoveDone keys key depth low (spine count elements)
      (if removed.up then
        ⟨counted (count - 1) (update elements (spineBucket (keys.hash key) (depth + 1))
          removed.slot), removed.freed, count - 1 = 0⟩
      else
        ⟨spine count (update elements (spineBucket (keys.hash key) (depth + 1))
          removed.slot), removed.freed, false⟩) := by
  have below := wellFormed_update wf done.wf
  obtain ⟨five, small, positive, counts, -⟩ := wf
  have moved := weight_update elements (spineBucket (keys.hash key) (depth + 1)) removed.slot
  rw [← done.weight] at moved
  have bindings : ∀ other, (update elements (spineBucket (keys.hash key) (depth + 1))
      removed.slot (spineBucket (keys.hash other) (depth + 1))).binding keys (keys.hash other) other
        (depth + 1) = if keys.opEquals other key then none
          else (spine count elements).binding keys (keys.hash other) other depth := by
    intro other
    rw [update_apply]
    split
    · rename_i here
      rw [done.bindings other, binding, here]
    · rename_i elsewhere
      cases equals : keys.opEquals other key with
      | true => exact absurd (by rw [hash_congr equals]) elsewhere
      | false =>
        rw [binding]
        simp
  have has : ∀ x, (∃ i, (update elements (spineBucket (keys.hash key) (depth + 1))
      removed.slot i).Has x) → (spine count elements).Has x := by
    intro x linked
    obtain ⟨i, inside⟩ := linked
    rcases has_update inside with here | elsewhere
    · exact ⟨_, done.has x here⟩
    · exact ⟨i, elsewhere⟩
  have freed : ∀ gone ∈ removed.freed, (spine count elements).Has gone ∧
      keys.opEquals gone.key key = true := by
    intro gone member
    obtain ⟨inner, same⟩ := done.freed gone member
    exact ⟨⟨_, inner⟩, same⟩
  have found : removed.freed.isSome =
      ((spine count elements).binding keys (keys.hash key) key depth).isSome := by
    rw [done.found, binding]
  cases up : removed.up with
  | true =>
    rw [up, Bool.toNat_true] at moved
    rw [if_pos rfl]
    have total : count - 1 = ∑ i, (update elements
        (spineBucket (keys.hash key) (depth + 1)) removed.slot i).weight := by omega
    refine ⟨counted_wf five small total below, ?_, found, ?_, freed, ?_⟩
    · rw [counted_weight]
      by_cases zero : count - 1 = 0 <;> simp [zero, weight]
    · intro other
      rw [counted_binding total below, bindings other]
    · intro x linked
      exact has x (counted_has linked)
  | false =>
    rw [up, Bool.toNat_false] at moved
    rw [if_neg Bool.false_ne_true]
    exact ⟨⟨five, small, positive, by omega, below⟩, rfl, found, bindings, freed, has⟩

theorem remove_done (wf : slot.WellFormed keys depth low) (bound : depth ≤ 6)
    (clear : slot.RemoveClear keys (keys.hash key) key depth) :
    ∃ removed, slot.remove keys (keys.hash key) key depth = some removed ∧
      RemoveDone keys key depth low slot removed := by
  induction slot generalizing depth low with
  | empty =>
    refine ⟨_, rfl, trivial, rfl, rfl, ?_, nofun, fun _ linked => linked⟩
    intro other
    cases keys.opEquals other key <;> rfl
  | chain head next => exact chain_remove_done wf clear
  | spine count elements ih =>
    have below := wf
    obtain ⟨five, -, -, -, below⟩ := below
    obtain ⟨removed, remove, done⟩ := ih _ (below _) (by omega) clear
    refine ⟨_, ?_, spine_remove_done wf done⟩
    have inside : depth + 1 ≤ maxDepth := by
      rw [maxDepth]
      omega
    simp only [Slot.remove, if_pos inside, remove, Option.map_some]

end Qthreads.Dict
