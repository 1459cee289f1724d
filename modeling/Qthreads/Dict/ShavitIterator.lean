import Qthreads.Dict.Iterator
import Qthreads.Dict.ShavitMap

namespace Qthreads.Dict

/-- `qt_dictionary_iterator`.  The entry `crt` points to stands with those behind it. -/
structure SplitIterator where
  crt : List Entry
  bkt : Int

namespace Dictionary

/-- `qt_dictionary_iterator_next_element`; a bucket that points at no entry has no result. -/
def iteratorNextElement (h : Dictionary) (it : SplitIterator) :
    Option (Returned × SplitIterator) :=
  if h.count = 0 then some (.null, { it with bkt := 1 })
  else
    let bucket := (List.range h.size.toNat).find? fun bucket => (h.B (.ofNat bucket)).isSome
    match if it.bkt = -1 then bucket else none with
    | some bucket =>
      let list := (h.split (.ofNat bucket)).2
      list.head?.map fun crt => (.entry crt, ⟨list, 1⟩)
    | none =>
      match it.crt with
      | [] => some (.null, it)
      | _ :: [] => some (.null, { it with crt := [] })
      | _ :: next :: rest => some (.entry next, { it with crt := next :: rest })

/-- `qt_dictionary_iterator_next`, with the entries its loop may pass. -/
def iteratorNext (h : Dictionary) : Nat → SplitIterator → Option (Returned × SplitIterator)
  | 0, _ => none
  | room + 1, it =>
    match h.iteratorNextElement it with
    | some (.entry ret, later) =>
      if ret.key = 0 then iteratorNext h room later else some (.entry ret, later)
    | result => result

def iteration (h : Dictionary) : Iteration SplitIterator where
  create := ⟨[], -1⟩
  next := h.iteratorNext (h.list.length + 1)
  finish := ⟨[], 1⟩
  equals a b := a.crt.head?.map (·.addr) == b.crt.head?.map (·.addr) && a.bkt == b.bkt

variable {keys : KeyOps} {h : Dictionary} {map : FiniteMap} {list : List Entry}

def keyed (list : List Entry) : List Entry := list.filter fun e => e.key != 0

theorem keyed_listed (represents : h.Represents keys map) : map.Listed keys (keyed h.list) := by
  constructor
  · rw [List.pairwise_iff_forall_sublist]
    intro e later both
    rw [Bool.eq_false_iff]
    intro equals
    have regular : ∀ x ∈ [e, later], x.key ≠ 0 := by
      intro x member
      simpa using (List.mem_filter.mp (both.subset member)).2
    have first : e.holds keys e.key = true :=
      Entry.holds_iff.mpr ⟨regular e List.mem_cons_self, keys.refl _⟩
    have second : later.holds keys e.key = true :=
      Entry.holds_iff.mpr ⟨regular later (by simp), keys.symm _ _ equals⟩
    have twice := ((both.trans List.filter_sublist).filter (·.holds keys e.key)).length_le
    have once := congrArg List.length (represents e.key)
    rw [bindings, List.length_map] at once
    simp only [List.filter_cons, first, second, if_true, List.filter_nil, List.length_cons,
      List.length_nil, once] at twice
    cases there : map e.key <;> simp [there] at twice
  · intro key value
    rw [← Option.mem_toList, ← represents key, bindings]
    simp only [keyed, List.mem_map, List.mem_filter, Entry.holds_iff, bne_iff_ne]
    constructor
    · rintro ⟨e, ⟨member, regular, equals⟩, stored⟩
      exact ⟨e, ⟨member, regular⟩, equals, stored⟩
    · rintro ⟨e, ⟨member, regular⟩, equals, stored⟩
      exact ⟨e, ⟨member, regular, equals⟩, stored⟩

inductive Ahead (h : Dictionary) : SplitIterator → List Entry → Prop
  | inside (crt : List Entry) (short : crt.length ≤ h.list.length) :
      Ahead h ⟨crt, 1⟩ (keyed crt.tail)

theorem iteratorNextElement_inside (counted : h.count ≠ 0) (crt : List Entry) :
    h.iteratorNextElement ⟨crt, 1⟩ = match crt with
      | [] => some (.null, ⟨crt, 1⟩)
      | _ :: [] => some (.null, ⟨[], 1⟩)
      | _ :: next :: rest => some (.entry next, ⟨next :: rest, 1⟩) := by
  rw [iteratorNextElement, if_neg counted]
  rfl

theorem next_inside (counted : h.count ≠ 0) {room : Nat} (crt : List Entry)
    (short : crt.length ≤ h.list.length) (fits : crt.length ≤ room + 1) :
    (∀ first rest, keyed crt.tail = first :: rest →
      ∃ later, h.iteratorNext (room + 1) ⟨crt, 1⟩ = some (.entry first, later) ∧
        h.Ahead later rest) ∧
    (keyed crt.tail = [] → h.iteratorNext (room + 1) ⟨crt, 1⟩ = some (.null, ⟨[], 1⟩)) := by
  induction room generalizing crt with
  | zero =>
    match crt with
    | [] => exact ⟨nofun, fun _ => by rw [iteratorNext, iteratorNextElement_inside counted]⟩
    | [_] => exact ⟨nofun, fun _ => by rw [iteratorNext, iteratorNextElement_inside counted]⟩
  | succ room ih =>
    match crt with
    | [] => exact ⟨nofun, fun _ => by rw [iteratorNext, iteratorNextElement_inside counted]⟩
    | [_] => exact ⟨nofun, fun _ => by rw [iteratorNext, iteratorNextElement_inside counted]⟩
    | prior :: next :: rest =>
      have shorter : (next :: rest).length ≤ h.list.length := Nat.le_of_succ_le short
      by_cases dummy : next.key = 0
      · have skipped : keyed (next :: rest) = keyed rest := by simp [keyed, dummy]
        have step : h.iteratorNext (room + 1 + 1) ⟨prior :: next :: rest, 1⟩ =
            h.iteratorNext (room + 1) ⟨next :: rest, 1⟩ := by
          rw [iteratorNext, iteratorNextElement_inside counted]
          simp only [dummy, if_true]
        rw [List.tail_cons, skipped, step]
        exact ih (next :: rest) shorter (Nat.le_of_succ_le_succ fits)
      · have kept : keyed (next :: rest) = next :: keyed rest := by simp [keyed, dummy]
        rw [List.tail_cons, kept, iteratorNext, iteratorNextElement_inside counted]
        simp only [if_neg dummy]
        refine ⟨fun first others both => ?_, nofun⟩
        cases both
        exact ⟨_, rfl, .inside (next :: rest) shorter⟩

theorem next_new (wf : h.WellFormed keys) (counted : h.count ≠ 0) :
    ∃ dummy rest, h.list = dummy :: rest ∧ dummy.key = 0 ∧
      h.iteratorNext (h.list.length + 1) ⟨[], -1⟩ =
        h.iteratorNext h.list.length ⟨dummy :: rest, 1⟩ := by
  obtain ⟨dummy, rest, list, set⟩ := wf.first
  have zeroKey : dummy.key = 0 := by
    obtain ⟨-, entry, member, addr, key, -⟩ := wf.pointer 0 dummy.addr set
    have same : entry = dummy := List.inj_on_of_nodup_map wf.distinct member
      (by rw [list]; exact List.mem_cons_self) addr
    rw [← same]
    exact key
  obtain ⟨i, -, size⟩ := wf.power
  have first : (List.range h.size.toNat).find? (fun bucket => (h.B (.ofNat bucket)).isSome) =
      some 0 := by
    obtain ⟨below, positive⟩ : ∃ below, h.size.toNat = below + 1 :=
      ⟨h.size.toNat - 1, by have := Nat.two_pow_pos i; omega⟩
    have there : (h.B (UInt64.ofNat 0)).isSome = true := by
      change (h.B 0).isSome = true
      rw [set]
      rfl
    rw [positive, List.range_succ_eq_map, List.find?_cons, there]
  have whole : (h.split (UInt64.ofNat 0)).2 = dummy :: rest := by
    change (h.split 0).2 = dummy :: rest
    rw [split, set, list]
    simp [List.span_eq_takeWhile_dropWhile]
  refine ⟨dummy, rest, list, zeroKey, ?_⟩
  rw [iteratorNext, iteratorNextElement, if_neg counted]
  simp only [first, if_true, whole, List.head?_cons, Option.map_some, zeroKey]

theorem iteration_iff (wf : h.WellFormed keys) (represents : h.Represents keys map) :
    h.iteration.Exact keys map ↔ (h.count = 0 → ∀ key, map key = none) := by
  have listed := keyed_listed represents
  by_cases counted : h.count = 0
  · have beyond : h.iteratorNext (h.list.length + 1) ⟨[], -1⟩ = some (.null, ⟨[], 1⟩) := by
      rw [iteratorNext, iteratorNextElement, if_pos counted]
    constructor
    · rintro ⟨entries, last, returns, complete, -⟩ - key
      cases entries with
      | nil =>
        rw [Option.eq_none_iff_forall_ne_some]
        intro value stored
        obtain ⟨e, member, -⟩ := (complete.2 key value).mp stored
        cases member
      | cons first rest =>
        obtain ⟨later, returned, -⟩ := returns
        change h.iteratorNext (h.list.length + 1) ⟨[], -1⟩ = _ at returned
        rw [beyond] at returned
        cases returned
    · intro unbound
      refine ⟨[], ⟨[], 1⟩, beyond, ⟨List.Pairwise.nil, fun key value => ?_⟩, rfl⟩
      rw [unbound counted key]
      simp
  · refine iff_of_true ?_ (fun zero => absurd zero counted)
    obtain ⟨dummy, rest, list, zeroKey, moves⟩ := next_new wf counted
    have same : keyed h.list = keyed rest := by
      rw [list]
      simp [keyed, zeroKey]
    have inside : ∀ it list, h.Ahead it list →
        (∀ first rest, list = first :: rest →
          ∃ later, h.iteration.next it = some (.entry first, later) ∧ h.Ahead later rest) ∧
        (list = [] → h.iteration.next it = some (.null, ⟨[], 1⟩)) := by
      rintro it list ⟨crt, short⟩
      exact next_inside counted crt short (Nat.le_succ_of_le short)
    have finish : ∀ it, h.Ahead it [] → ∃ last, h.iteration.next it = some (.null, last) ∧
        h.iteration.equals last h.iteration.finish = true :=
      fun it ahead => ⟨_, (inside it _ ahead).2 rfl, rfl⟩
    have length : h.list.length = rest.length + 1 := by rw [list, List.length_cons]
    have begun := next_inside counted (dummy :: rest) (Nat.le_of_eq length.symm)
      (Nat.le_refl (rest.length + 1))
    rw [← length, ← moves, List.tail_cons, ← same] at begun
    rw [same] at listed begun
    cases entries : keyed rest with
    | nil =>
      refine ⟨[], ⟨[], 1⟩, begun.2 entries, ?_, rfl⟩
      rw [← entries]
      exact listed
    | cons first others =>
      obtain ⟨later, returned, ahead⟩ := begun.1 first others entries
      obtain ⟨last, returns, equals⟩ := h.iteration.returns h.Ahead
        (fun it first rest ahead => (inside it _ ahead).1 first rest rfl) finish ahead
      refine ⟨first :: others, last, ⟨later, returned, returns⟩, ?_, equals⟩
      rw [← entries]
      exact listed

end Dictionary

end Qthreads.Dict
