import Qthreads.Lib.Chain
import Qthreads.Precond.Launch

namespace Qthreads.Precond

open Feb (Task)
open Feb.Steps (Queue)
open Lib
open Function (update update_of_ne update_self update_eq_self update_apply)

/-- Where a node is; the head of a side list, and the node whose task is being launched, are the
`head` of the task that launches. -/
inductive Spot where
  | free
  | queue (maddr : UInt64) (queue : Queue)
  | head (me : Task)
  | side (me : Task)
deriving DecidableEq

def Return.head : Return → Option Nat
  | .spawn => none
  | .launch head _ _ => some head

def Return.tail : Return → Option Nat
  | .spawn => none
  | .launch _ tail _ => some tail

def Pc.head : Pc → Option Nat
  | .filling _ _ tasks | .emptying _ _ tasks | .unlocking _ _ tasks => tasks
  | .launch tasks _ => some tasks
  | .next head _ _ | .handled head _ _ => some head
  | .check _ return_ | .checking _ _ return_ | .ready _ return_ => return_.head
  | _ => none

def lastOf (waiter : Nat → Waiter) (head : Nat) : Option Nat :=
  match waiter head with
  | .node last => some last
  | .task _ => none

def Pc.tail (waiter : Nat → Waiter) : Pc → Option Nat
  | .filling _ _ tasks | .emptying _ _ tasks | .unlocking _ _ tasks => tasks.bind (lastOf waiter)
  | .launch tasks _ => lastOf waiter tasks
  | .next _ tail _ | .handled _ tail _ => some tail
  | .check _ return_ | .checking _ _ return_ | .ready _ return_ => return_.tail
  | _ => none

def Linked (next : Nat → Option Nat) (waiter : Nat → Waiter) (pc : Pc) (side : List Nat) : Prop :=
  match pc.head with
  | none => side = []
  | some head => (head :: side).IsChain (fun a b => next a = some b) ∧
      pc.tail waiter = (head :: side).getLast?

structure Queues (next : Nat → Option Nat) (first : UInt64 → Queue → Option Nat)
    (queue : UInt64 → Queue → List Nat) (spot : Nat → Spot) : Prop where
  chain : ∀ maddr q, Chain next (first maddr q) (queue maddr q) none
  member : ∀ maddr q x, x ∈ queue maddr q ↔ spot x = .queue maddr q
  once : ∀ maddr q, (queue maddr q).Nodup

structure Sides (next : Nat → Option Nat) (waiter : Nat → Waiter) (pcs : Task → Pc)
    (side : Task → List Nat) (spot : Nat → Spot) : Prop where
  linked : ∀ me, Linked next waiter (pcs me) (side me)
  headed : ∀ me x, (pcs me).head = some x ↔ spot x = .head me
  member : ∀ me x, x ∈ side me ↔ spot x = .side me
  once : ∀ me, (side me).Nodup

/-- Every node is free or in one list, and the lists are where their pointers say. -/
structure Lists (s : State) (queue : UInt64 → Queue → List Nat) (side : Task → List Nat)
    (spot : Nat → Spot) : Prop where
  queues : Queues s.next s.first queue spot
  sides : Sides s.next s.waiter s.pcs side spot
  used : ∀ x, s.used x = true ↔ spot x ≠ .free

variable {s after : State} {queue : UInt64 → Queue → List Nat} {side : Task → List Nat}
  {spot moved : Nat → Spot} {next nextAfter : Nat → Option Nat} {waiter waiterAfter : Nat → Waiter}
  {first firstAfter : UInt64 → Queue → Option Nat} {pcs pcsAfter : Task → Pc} {me : Task}
  {maddr : UInt64} {q : Queue} {x head last : Nat} {pc : Pc} {rest : List Nat} {α : Type*}

theorem spot_update {value other : Spot} (y : Nat) :
    update spot x value y = other ↔ y = x ∧ value = other ∨ y ≠ x ∧ spot y = other := by
  by_cases same : y = x
  · subst same
    simp
  · simp [same]

theorem Queues.frame (queues : Queues next first queue spot)
    (cells : ∀ x maddr q, spot x = .queue maddr q → nextAfter x = next x)
    (spots : ∀ x maddr q, moved x = .queue maddr q ↔ spot x = .queue maddr q) :
    Queues nextAfter first queue moved where
  chain := by
    intro maddr q
    refine (queues.chain maddr q).congr fun x member => ?_
    exact cells x maddr q ((queues.member maddr q x).mp member)
  member := by
    intro maddr q x
    rw [queues.member, spots]
  once := queues.once

def set (f : UInt64 → Queue → α) (maddr : UInt64) (q : Queue) (value : α) : UInt64 → Queue → α :=
  update f maddr (update (f maddr) q value)

theorem set_self (f : UInt64 → Queue → α) (value : α) : set f maddr q value maddr q = value := by
  simp [set]

theorem set_other (f : UInt64 → Queue → α) (value : α) {other : UInt64} {r : Queue}
    (differs : ¬ (other = maddr ∧ r = q)) : set f maddr q value other r = f other r := by
  unfold set
  by_cases same : other = maddr
  · subst same
    have queues : r ≠ q := fun equal => differs ⟨rfl, equal⟩
    simp [queues]
  · simp [same]

theorem Queues.push (queues : Queues next first queue spot)
    (fresh : ∀ maddr q, spot x ≠ .queue maddr q) :
    Queues (update next x (first maddr q)) (set first maddr q (some x))
      (set queue maddr q (x :: queue maddr q)) (update spot x (.queue maddr q)) := by
  have absent : ∀ other r, x ∉ queue other r := by
    intro other r member
    exact fresh other r ((queues.member other r x).mp member)
  have kept : ∀ other r, Chain (update next x (first maddr q)) (first other r)
      (queue other r) none := by
    intro other r
    refine (queues.chain other r).congr fun y member => update_of_ne ?_ ..
    rintro rfl
    exact absent other r member
  refine ⟨?_, ?_, ?_⟩
  · intro other r
    by_cases same : other = maddr ∧ r = q
    · obtain ⟨rfl, rfl⟩ := same
      rw [set_self, set_self]
      refine ⟨rfl, ?_⟩
      rw [update_self]
      exact kept other r
    · rw [set_other _ _ same, set_other _ _ same]
      exact kept other r
  · intro other r y
    rw [spot_update]
    by_cases same : other = maddr ∧ r = q
    · obtain ⟨rfl, rfl⟩ := same
      rw [set_self, List.mem_cons, queues.member]
      grind
    · rw [set_other _ _ same, queues.member]
      grind
  · intro other r
    by_cases same : other = maddr ∧ r = q
    · obtain ⟨rfl, rfl⟩ := same
      rw [set_self]
      exact List.nodup_cons.mpr ⟨absent other r, queues.once other r⟩
    · rw [set_other _ _ same]
      exact queues.once other r

theorem Queues.pop (queues : Queues next first queue spot) (value : Spot)
    (nextAfter : Nat → Option Nat) (here : first maddr q = some x) (elsewhere : ∀ other r, value ≠ .queue other r)
    (cells : ∀ y other r, y ≠ x → spot y = .queue other r → nextAfter y = next y) :
    spot x = .queue maddr q ∧
      Queues nextAfter (set first maddr q (next x)) (set queue maddr q (queue maddr q).tail)
        (update spot x value) := by
  have chain := queues.chain maddr q
  have once := queues.once maddr q
  cases shape : queue maddr q with
  | nil =>
    rw [shape, here] at chain
    cases chain
  | cons y rest =>
    rw [shape, here] at chain
    rw [shape] at once
    obtain ⟨same, later⟩ := chain
    cases same
    obtain ⟨absent, restOnce⟩ := List.nodup_cons.mp once
    have known : spot x = .queue maddr q := by
      rw [← queues.member, shape]
      exact List.mem_cons_self
    refine ⟨known, ?_, ?_, ?_⟩
    · intro other r
      by_cases same : other = maddr ∧ r = q
      · obtain ⟨rfl, rfl⟩ := same
        rw [set_self, set_self, List.tail_cons]
        refine later.congr fun y member => cells y other r ?_ ?_
        · rintro rfl
          exact absent member
        · rw [← queues.member, shape]
          exact List.mem_cons_of_mem _ member
      · rw [set_other _ _ same, set_other _ _ same]
        refine (queues.chain other r).congr fun y member => ?_
        have there := (queues.member other r y).mp member
        refine cells y other r ?_ there
        rintro rfl
        rw [known] at there
        cases there
        exact same ⟨rfl, rfl⟩
    · intro other r y
      rw [spot_update]
      have others := elsewhere other r
      by_cases same : other = maddr ∧ r = q
      · obtain ⟨rfl, rfl⟩ := same
        have member := queues.member other r y
        rw [shape, List.mem_cons] at member
        rw [set_self, List.tail_cons]
        grind
      · rw [set_other _ _ same, queues.member]
        grind
    · intro other r
      by_cases same : other = maddr ∧ r = q
      · obtain ⟨rfl, rfl⟩ := same
        rw [set_self, List.tail_cons]
        exact restOnce
      · rw [set_other _ _ same]
        exact queues.once other r

theorem tail_congr (same : ∀ head, pc.head = some head → waiterAfter head = waiter head) :
    pc.tail waiterAfter = pc.tail waiter := by
  cases pc with
  | filling outer maddr tasks | emptying outer maddr tasks | unlocking outer maddr tasks =>
    cases tasks with
    | none => rfl
    | some head => simp only [Pc.tail, Option.bind_some, lastOf, same head rfl]
  | launch tasks remove => simp only [Pc.tail, lastOf, same tasks rfl]
  | _ => rfl

theorem Linked.congr (linked : Linked next waiter pc rest)
    (same : ∀ x, pc.head = some x ∨ x ∈ rest → nextAfter x = next x ∧ waiterAfter x = waiter x) :
    Linked nextAfter waiterAfter pc rest := by
  have tail : pc.tail waiterAfter = pc.tail waiter :=
    tail_congr fun head here => (same head (.inl here)).2
  unfold Linked at linked ⊢
  cases here : pc.head with
  | none =>
    rw [here] at linked
    exact linked
  | some head =>
    simp only [here] at linked
    refine ⟨linked.1.imp_of_mem_imp fun a b member _ pointed => ?_, tail.trans linked.2⟩
    rw [(same a ?_).1]
    · exact pointed
    · rcases List.mem_cons.mp member with rfl | inside
      · exact .inl here
      · exact .inr inside

theorem Sides.frame (sides : Sides next waiter pcs side spot) (mine : List Nat)
    (others : ∀ other, other ≠ me → pcsAfter other = pcs other)
    (cells : ∀ x other, other ≠ me → spot x = .head other ∨ spot x = .side other →
      nextAfter x = next x ∧ waiterAfter x = waiter x)
    (heads : ∀ x other, other ≠ me → (moved x = .head other ↔ spot x = .head other))
    (rests : ∀ x other, other ≠ me → (moved x = .side other ↔ spot x = .side other))
    (linked : Linked nextAfter waiterAfter (pcsAfter me) mine)
    (headed : ∀ x, (pcsAfter me).head = some x ↔ moved x = .head me)
    (member : ∀ x, x ∈ mine ↔ moved x = .side me) (once : mine.Nodup) :
    Sides nextAfter waiterAfter pcsAfter (update side me mine) moved := by
  refine ⟨?_, ?_, ?_, ?_⟩
  · intro other
    by_cases same : other = me
    · subst same
      rw [update_self]
      exact linked
    · rw [update_of_ne same, others other same]
      refine (sides.linked other).congr fun x here => cells x other same ?_
      rw [← sides.headed, ← sides.member]
      exact here
  · intro other x
    by_cases same : other = me
    · subst same
      exact headed x
    · rw [others other same, heads x other same]
      exact sides.headed other x
  · intro other x
    by_cases same : other = me
    · subst same
      rw [update_self]
      exact member x
    · rw [update_of_ne same, rests x other same]
      exact sides.member other x
  · intro other
    by_cases same : other = me
    · subst same
      rw [update_self]
      exact once
    · rw [update_of_ne same]
      exact sides.once other

theorem Linked.same (linked : Linked next waiter (pcs me) rest) (heads : pc.head = (pcs me).head)
    (tails : pc.tail waiter = (pcs me).tail waiter) : Linked next waiter pc rest := by
  unfold Linked at linked ⊢
  rw [heads]
  cases here : (pcs me).head with
  | none =>
    rw [here] at linked
    exact linked
  | some head =>
    simp only [here] at linked ⊢
    exact ⟨linked.1, tails.trans linked.2⟩

theorem isChain_update {value : Option Nat} (chain : rest.IsChain (fun a b => next a = some b))
    (once : rest.Nodup) (ends : rest.getLast? = some last) :
    rest.IsChain (fun a b => update next last value a = some b) := by
  induction rest with
  | nil => exact List.isChain_nil
  | cons a others ih =>
    cases others with
    | nil => exact List.isChain_singleton a
    | cons b later =>
      rw [List.getLast?_cons_cons] at ends
      obtain ⟨absent, onceLater⟩ := List.nodup_cons.mp once
      rw [List.isChain_cons_cons] at chain ⊢
      refine ⟨?_, ih chain.2 onceLater ends⟩
      rw [update_of_ne]
      · exact chain.1
      · rintro rfl
        exact absent (List.mem_of_getLast? ends)

theorem Sides.keep (sides : Sides next waiter pcs side spot) (heads : pc.head = (pcs me).head)
    (tails : pc.tail waiter = (pcs me).tail waiter)
    (cells : ∀ x other, spot x = .head other ∨ spot x = .side other →
      nextAfter x = next x ∧ waiterAfter x = waiter x)
    (headSpots : ∀ x other, moved x = .head other ↔ spot x = .head other)
    (sideSpots : ∀ x other, moved x = .side other ↔ spot x = .side other) :
    Sides nextAfter waiterAfter (update pcs me pc) side moved := by
  suffices kept : Sides nextAfter waiterAfter (update pcs me pc)
      (update side me (side me)) moved by
    rwa [update_eq_self] at kept
  refine sides.frame (side me) (fun _ differs => update_of_ne differs ..)
    (fun x other _ here => cells x other here) (fun x other _ => headSpots x other)
    (fun x other _ => sideSpots x other) ?_ ?_ ?_ (sides.once me)
  · rw [update_self]
    refine ((sides.linked me).same heads tails).congr fun x here => cells x me ?_
    rw [heads] at here
    rw [← sides.headed, ← sides.member]
    exact here
  · intro x
    rw [update_self, heads, headSpots]
    exact sides.headed me x
  · intro x
    rw [sideSpots]
    exact sides.member me x

theorem used_update {used : Nat → Bool} {value : Spot}
    (known : ∀ y, used y = true ↔ spot y ≠ .free) (out : value ≠ .free) (y : Nat) :
    update used x true y = true ↔ update spot x value y ≠ .free := by
  by_cases same : y = x
  · subst same
    simp [out]
  · simp [same, known]

theorem freed_update {used : Nat → Bool} (known : ∀ y, used y = true ↔ spot y ≠ .free) (y : Nat) :
    update used x false y = true ↔ update spot x .free y ≠ .free := by
  by_cases same : y = x
  · subst same
    simp
  · simp [same, known]

theorem Lists.free_of_unused (lists : Lists s queue side spot) (unused : s.used x = false) :
    spot x = .free := by
  by_contra out
  rw [(lists.used x).mpr out] at unused
  cases unused

section Steps

variable (lists : Lists s queue side spot) (moves : after.pcs = update s.pcs me pc)

include lists moves

section

variable (heads : pc.head = (s.pcs me).head) (tails : pc.tail s.waiter = (s.pcs me).tail s.waiter)
include heads tails

theorem Lists.quiet (next : after.next = s.next)
    (waiter : after.waiter = s.waiter) (used : after.used = s.used) (first : after.first = s.first) :
    Lists after queue side spot where
  queues := by
    rw [next, first]
    exact lists.queues
  sides := by
    rw [next, waiter, moves]
    exact lists.sides.keep heads tails (fun _ _ _ => ⟨rfl, rfl⟩) (fun _ _ => Iff.rfl)
      (fun _ _ => Iff.rfl)
  used := by
    rw [used]
    exact lists.used

theorem Lists.push {value : Waiter} (unused : s.used x = false)
    (next : after.next = update s.next x (s.first maddr q))
    (waiter : after.waiter = update s.waiter x value)
    (used : after.used = update s.used x true)
    (first : after.first = set s.first maddr q (some x)) :
    Lists after (set queue maddr q (x :: queue maddr q)) side
      (update spot x (.queue maddr q)) := by
  have free := lists.free_of_unused unused
  refine ⟨?_, ?_, ?_⟩
  · rw [next, first]
    refine lists.queues.push fun _ _ here => ?_
    rw [free] at here
    cases here
  · rw [next, waiter, moves]
    refine lists.sides.keep heads tails ?_ ?_ ?_
    · intro y other here
      have differs : y ≠ x := by
        rintro rfl
        rw [free] at here
        rcases here with here | here <;> cases here
      exact ⟨update_of_ne differs .., update_of_ne differs ..⟩
    · intro y other
      rw [spot_update]
      grind
    · intro y other
      rw [spot_update]
      grind
  · rw [used]
    exact used_update lists.used Spot.noConfusion

theorem Lists.popFree (here : s.first maddr q = some x)
    (next : after.next = s.next) (waiter : after.waiter = s.waiter)
    (used : after.used = update s.used x false)
    (first : after.first = set s.first maddr q (s.next x)) :
    spot x = .queue maddr q ∧ Lists after (set queue maddr q (queue maddr q).tail) side
      (update spot x .free) := by
  obtain ⟨known, popped⟩ := lists.queues.pop .free s.next here (fun _ _ => Spot.noConfusion)
    (fun _ _ _ _ _ => rfl)
  refine ⟨known, ?_, ?_, ?_⟩
  · rw [next, first]
    exact popped
  · rw [next, waiter, moves]
    refine lists.sides.keep heads tails (fun _ _ _ => ⟨rfl, rfl⟩) ?_ ?_
    · intro y other
      rw [spot_update]
      grind
    · intro y other
      rw [spot_update]
      grind
  · rw [used]
    exact freed_update lists.used

end

theorem Lists.createHead (noHead : (s.pcs me).head = none) (heads : pc.head = some x)
    (tails : pc.tail after.waiter = some x) (unused : s.used x = false)
    (next : after.next = update s.next x none)
    (waiter : after.waiter = update s.waiter x (.node x))
    (used : after.used = update s.used x true) (first : after.first = s.first) :
    side me = [] ∧ Lists after queue (update side me [])
      (update spot x (.head me)) := by
  have free := lists.free_of_unused unused
  have apart : ∀ y, spot y ≠ .free → y ≠ x := by
    rintro y out rfl
    exact out free
  have empty : side me = [] := by
    have linked := lists.sides.linked me
    rw [Linked, noHead] at linked
    exact linked
  have nobody : ∀ y, spot y ≠ .head me := by
    intro y here
    rw [← lists.sides.headed, noHead] at here
    cases here
  have never : ∀ y, spot y ≠ .side me := by
    intro y here
    rw [← lists.sides.member, empty] at here
    cases here
  refine ⟨empty, ?_, ?_, ?_⟩
  · rw [next, first]
    refine lists.queues.frame ?_ ?_
    · intro y _ _ here
      refine update_of_ne (apart y ?_) ..
      rw [here]
      exact Spot.noConfusion
    · intro y _ _
      rw [spot_update]
      grind
  · rw [next, moves]
    refine lists.sides.frame [] (fun _ differs => update_of_ne differs ..) ?_ ?_ ?_ ?_ ?_ ?_
      List.nodup_nil
    · intro y other _ here
      have differs : y ≠ x := by
        refine apart y fun gone => ?_
        rw [gone] at here
        rcases here with here | here <;> cases here
      rw [waiter]
      exact ⟨update_of_ne differs .., update_of_ne differs ..⟩
    · intro y other differs
      rw [spot_update]
      grind
    · intro y other differs
      rw [spot_update]
      grind
    · rw [update_self]
      unfold Linked
      rw [heads]
      exact ⟨List.isChain_singleton x, tails⟩
    · intro y
      rw [update_self, heads, spot_update]
      have here := nobody y
      grind
    · intro y
      rw [spot_update]
      have here := never y
      grind
  · rw [used]
    exact used_update lists.used Spot.noConfusion

theorem Lists.collect (headed : (s.pcs me).head = some head)
    (tails : (s.pcs me).tail s.waiter = some last) (heads : pc.head = some head)
    (tailsAfter : pc.tail after.waiter = some x) (here : s.first maddr q = some x)
    (next : after.next = update s.next last (some x))
    (waiter : after.waiter = update s.waiter head (.node x)) (used : after.used = s.used)
    (first : after.first = set s.first maddr q (s.next x)) :
    spot x = .queue maddr q ∧ Lists after (set queue maddr q (queue maddr q).tail)
      (update side me (side me ++ [x])) (update spot x (.side me)) := by
  have linked := lists.sides.linked me
  unfold Linked at linked
  simp only [headed] at linked
  obtain ⟨chain, ends⟩ := linked
  rw [tails] at ends
  have mine : spot last = .head me ∨ spot last = .side me := by
    rw [← lists.sides.headed, ← lists.sides.member, headed]
    rcases List.mem_cons.mp (List.mem_of_getLast? ends.symm) with same | inside
    · exact .inl (congrArg some same.symm)
    · exact .inr inside
  have headSpot := (lists.sides.headed me head).mp headed
  have apart : ∀ y, spot y ≠ .head me → spot y ≠ .side me → y ≠ last := by
    rintro y notHead notSide rfl
    exact mine.elim notHead notSide
  obtain ⟨known, popped⟩ := lists.queues.pop (.side me) (update s.next last (some x)) here
    (fun _ _ => Spot.noConfusion) (by
      intro y other r _ there
      refine update_of_ne (apart y ?_ ?_) .. <;> rw [there] <;> exact Spot.noConfusion)
  have absent : x ∉ head :: side me := by
    intro member
    rcases List.mem_cons.mp member with rfl | inside
    · rw [headSpot] at known
      cases known
    · rw [(lists.sides.member me x).mp inside] at known
      cases known
  have once : (head :: side me).Nodup := by
    refine List.nodup_cons.mpr ⟨fun inside => ?_, lists.sides.once me⟩
    rw [(lists.sides.member me head).mp inside] at headSpot
    cases headSpot
  refine ⟨known, ?_, ?_, ?_⟩
  · rw [next, first]
    exact popped
  · rw [next, moves]
    refine lists.sides.frame (side me ++ [x]) (fun _ differs => update_of_ne differs ..)
      ?_ ?_ ?_ ?_ ?_ ?_ ?_
    · intro y other differs there
      have notHead : spot y ≠ .head me := by
        intro same
        rw [same] at there
        rcases there with there | there <;> cases there
        exact differs rfl
      have notSide : spot y ≠ .side me := by
        intro same
        rw [same] at there
        rcases there with there | there <;> cases there
        exact differs rfl
      rw [waiter]
      refine ⟨update_of_ne (apart y notHead notSide) .., update_of_ne ?_ ..⟩
      rintro rfl
      exact notHead headSpot
    · intro y other differs
      rw [spot_update]
      grind
    · intro y other differs
      rw [spot_update]
      grind
    · rw [update_self]
      unfold Linked
      simp only [heads]
      constructor
      · rw [← List.cons_append]
        refine List.IsChain.append ?_ (List.isChain_singleton x) ?_
        · exact isChain_update chain once ends.symm
        · intro a atEnd b atStart
          cases atStart
          rw [← ends] at atEnd
          cases atEnd
          exact update_self ..
      · rw [tailsAfter, ← List.cons_append, List.getLast?_concat]
    · intro y
      rw [update_self, heads, ← headed, lists.sides.headed, spot_update]
      grind
    · intro y
      rw [List.mem_append, lists.sides.member, List.mem_singleton, spot_update]
      grind
    · rw [List.nodup_append]
      refine ⟨lists.sides.once me, List.nodup_singleton x, ?_⟩
      rintro a inside b atEnd rfl
      rw [List.mem_singleton] at atEnd
      exact absent (List.mem_cons_of_mem _ (atEnd ▸ inside))
  · intro y
    rw [used, lists.used, ne_eq, ne_eq, spot_update]
    grind

theorem Lists.advance (headed : (s.pcs me).head = some head) (behind : s.next head = some x)
    (more : (s.pcs me).tail s.waiter ≠ some head) (heads : pc.head = some x)
    (tails : pc.tail s.waiter = (s.pcs me).tail s.waiter) (next : after.next = s.next)
    (waiter : after.waiter = s.waiter) (used : after.used = update s.used head false)
    (first : after.first = s.first) :
    ∃ rest, side me = x :: rest ∧ spot head = .head me ∧ spot x = .side me ∧
      Lists after queue (update side me rest)
        (update (update spot head .free) x (.head me)) := by
  have linked := lists.sides.linked me
  unfold Linked at linked
  simp only [headed] at linked
  obtain ⟨chain, ends⟩ := linked
  cases shape : side me with
  | nil =>
    rw [shape] at ends
    exact absurd ends more
  | cons y rest =>
    rw [shape, List.isChain_cons_cons] at chain
    rw [shape, List.getLast?_cons_cons] at ends
    obtain ⟨pointed, later⟩ := chain
    rw [behind] at pointed
    cases pointed
    have headSpot := (lists.sides.headed me head).mp headed
    have sideSpot : spot x = .side me := by
      rw [← lists.sides.member, shape]
      exact List.mem_cons_self
    have once := lists.sides.once me
    rw [shape] at once
    obtain ⟨absent, restOnce⟩ := List.nodup_cons.mp once
    have apart : x ≠ head := by
      rintro rfl
      rw [headSpot] at sideSpot
      cases sideSpot
    have onlyHead : ∀ y, spot y = .head me ↔ y = head := by
      intro y
      rw [← lists.sides.headed, headed, Option.some_inj]
      exact eq_comm
    refine ⟨rest, rfl, headSpot, sideSpot, ?_, ?_, ?_⟩
    · rw [next, first]
      refine lists.queues.frame (fun _ _ _ _ => rfl) ?_
      intro y _ _
      rw [spot_update, spot_update]
      grind
    · rw [next, waiter, moves]
      refine lists.sides.frame rest (fun _ differs => update_of_ne differs ..)
        (fun _ _ _ _ => ⟨rfl, rfl⟩) ?_ ?_ ?_ ?_ ?_ restOnce
      · intro y other differs
        rw [spot_update, spot_update]
        grind
      · intro y other differs
        rw [spot_update, spot_update]
        grind
      · rw [update_self]
        unfold Linked
        simp only [heads]
        exact ⟨later, tails.trans ends⟩
      · intro y
        rw [update_self, heads, spot_update, spot_update]
        have only := onlyHead y
        grind
      · intro y
        have member := lists.sides.member me y
        rw [shape, List.mem_cons] at member
        rw [spot_update, spot_update]
        grind
    · intro y
      rw [used, ne_eq, spot_update, spot_update, update_apply]
      have known := lists.used y
      split <;> grind

theorem Lists.dropHead (headed : (s.pcs me).head = some head)
    (ends : (s.pcs me).tail s.waiter = some head) (heads : pc.head = none)
    (next : after.next = s.next) (waiter : after.waiter = s.waiter)
    (used : after.used = update s.used head false) (first : after.first = s.first) :
    side me = [] ∧ spot head = .head me ∧
      Lists after queue (update side me []) (update spot head .free) := by
  have linked := lists.sides.linked me
  unfold Linked at linked
  simp only [headed] at linked
  obtain ⟨chain, tail⟩ := linked
  rw [ends] at tail
  have headSpot := (lists.sides.headed me head).mp headed
  have empty : side me = [] := by
    cases shape : side me with
    | nil => rfl
    | cons y rest =>
      rw [shape, List.getLast?_cons_cons] at tail
      have inside : head ∈ side me := by
        rw [shape]
        exact List.mem_of_getLast? tail.symm
      rw [lists.sides.member, headSpot] at inside
      cases inside
  have onlyHead : ∀ y, spot y = .head me ↔ y = head := by
    intro y
    rw [← lists.sides.headed, headed, Option.some_inj]
    exact eq_comm
  have never : ∀ y, spot y ≠ .side me := by
    intro y here
    rw [← lists.sides.member, empty] at here
    cases here
  refine ⟨empty, headSpot, ?_, ?_, ?_⟩
  · rw [next, first]
    refine lists.queues.frame (fun _ _ _ _ => rfl) ?_
    intro y _ _
    rw [spot_update]
    grind
  · rw [next, waiter, moves]
    refine lists.sides.frame [] (fun _ differs => update_of_ne differs ..)
      (fun _ _ _ _ => ⟨rfl, rfl⟩) ?_ ?_ ?_ ?_ ?_ List.nodup_nil
    · intro y other differs
      rw [spot_update]
      grind
    · intro y other differs
      rw [spot_update]
      grind
    · rw [update_self]
      unfold Linked
      rw [heads]
    · intro y
      rw [update_self, heads, spot_update]
      have only := onlyHead y
      grind
    · intro y
      rw [spot_update]
      have gone := never y
      grind
  · rw [used]
    exact freed_update lists.used

end Steps

end Qthreads.Precond
