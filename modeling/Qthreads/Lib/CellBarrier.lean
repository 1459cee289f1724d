import Qthreads.Lib.Tasks

namespace Qthreads.Lib

open Function (update update_of_ne update_self)

/-! Barriers made of one-place cells.

A call of the barrier runs a list of operations on cells that are full or empty: to put something
into a cell it must be empty, to take it out it must be full.  Which list a call runs depends on the
number it was given.  There are two cells for each number, one for the way up and one for the way
down a tree. -/

inductive CellOp where
  | takeUp (cell : Nat)
  | putUp (cell : Nat)
  | takeDown (cell : Nat)
  | putDown (cell : Nat)

namespace CellOp

def cell : CellOp → Nat
  | takeUp cell => cell
  | putUp cell => cell
  | takeDown cell => cell
  | putDown cell => cell

def waits : CellOp → Bool
  | takeUp _ => true
  | takeDown _ => true
  | _ => false

def releases : CellOp → Bool
  | putDown _ => true
  | _ => false

end CellOp

/-- The tasks that use a barrier, what a call does with its number, and how the calls are given
their numbers: from the task and a ticket that is drawn. -/
structure CellBarrier where
  size : Nat
  program : Nat → List CellOp
  assign : Nat → Nat → Nat
  advance : Nat → Nat

/-- The cells and the next ticket.  The other fields only watch: `entered` and `passed` are the calls
with a number that were begun and that have no wait ahead of them any more, `sent`, `heard` and
`released` count what was put into the cells up, taken out of them and put into the cells down,
`started` are the calls of a task, `holder` is the task that has a wait ahead of it with a number and
`releaser` the one that has only cells to fill. -/
structure Cells where
  up : Nat → Bool
  down : Nat → Bool
  ticket : Nat
  entered : Nat → Nat
  sent : Nat → Nat
  heard : Nat → Nat
  released : Nat → Nat
  passed : Nat → Nat
  started : Nat → Nat
  holder : Nat → Option Nat
  releaser : Nat → Option Nat

inductive Place where
  | outside
  | inside (id : Nat) (ops : List CellOp)

inductive CellLabel where
  | enter
  | go
  | leave

def bump (count : Nat → Nat) (i : Nat) : Nat → Nat := update count i (count i + 1)

theorem bump_self (count : Nat → Nat) (i : Nat) : bump count i i = count i + 1 := update_self ..

theorem bump_of_ne (count : Nat → Nat) {i j : Nat} (differ : j ≠ i) : bump count i j = count j :=
  update_of_ne differ ..

theorem le_bump (count : Nat → Nat) (i j : Nat) : count j ≤ bump count i j := by
  by_cases same : j = i
  · subst same
    rw [bump_self]
    omega
  · rw [bump_of_ne count same]

namespace Cells

variable (s : Cells)

def initial : Cells where
  up := fun _ => false
  down := fun _ => false
  ticket := 0
  entered := fun _ => 0
  sent := fun _ => 0
  heard := fun _ => 0
  released := fun _ => 0
  passed := fun _ => 0
  started := fun _ => 0
  holder := fun _ => none
  releaser := fun _ => none

def pass (me id : Nat) (ops : List CellOp) : Cells :=
  { s with
    passed := bump s.passed id
    holder := update s.holder id none
    releaser := update s.releaser id
      (if ops.any CellOp.releases then some me else s.releaser id) }

def settle (me id : Nat) (ops : List CellOp) : Cells :=
  if ops.any CellOp.waits then s else s.pass me id ops

def enter (me id : Nat) (ticket : Nat) : Cells :=
  { s with
    ticket := ticket
    entered := bump s.entered id
    started := bump s.started me
    holder := update s.holder id (some me) }

def takeUp (c : Nat) : Cells :=
  { s with up := update s.up c false, heard := bump s.heard c }

def putUp (c : Nat) : Cells :=
  { s with up := update s.up c true, sent := bump s.sent c }

def takeDown (c : Nat) : Cells := { s with down := update s.down c false }

def putDown (id c : Nat) (rest : List CellOp) : Cells :=
  { s with
    down := update s.down c true
    released := bump s.released c
    releaser := update s.releaser id
      (if rest.any CellOp.releases then s.releaser id else none) }

end Cells

namespace CellBarrier

variable (b : CellBarrier)

inductive Act (me : Nat) : Cells → Place → CellLabel → Cells → Place → Prop where
  | enter {s : Cells} : me < b.size →
      Act me s .outside .enter
        ((s.enter me (b.assign me s.ticket) (b.advance s.ticket)).settle me (b.assign me s.ticket)
          (b.program (b.assign me s.ticket)))
        (.inside (b.assign me s.ticket) (b.program (b.assign me s.ticket)))
  | takeUp {s : Cells} {id c : Nat} {rest : List CellOp} : s.up c = true →
      Act me s (.inside id (.takeUp c :: rest)) .go ((s.takeUp c).settle me id rest) (.inside id rest)
  | putUp {s : Cells} {id c : Nat} {rest : List CellOp} : s.up c = false →
      Act me s (.inside id (.putUp c :: rest)) .go (s.putUp c) (.inside id rest)
  | takeDown {s : Cells} {id c : Nat} {rest : List CellOp} : s.down c = true →
      Act me s (.inside id (.takeDown c :: rest)) .go ((s.takeDown c).settle me id rest)
        (.inside id rest)
  | putDown {s : Cells} {id c : Nat} {rest : List CellOp} : s.down c = false →
      Act me s (.inside id (.putDown c :: rest)) .go (s.putDown id c rest) (.inside id rest)
  | leave {s : Cells} {id : Nat} : Act me s (.inside id []) .leave s .outside

abbrev System := Config Cells Place

def start : System := ⟨.initial, fun _ => .outside⟩

abbrev Step : System → Nat × CellLabel → System → Prop := Config.Step b.Act

def Free (config : System) (id : Nat) : Prop :=
  ∀ t ops, config.tasks t = .inside id ops → ops.any CellOp.waits = false

def Allowed (config : System) : Nat × CellLabel → Prop
  | (me, .enter) => Free config (b.assign me config.shared.ticket)
  | _ => True

structure Tree where
  waits : Nat → List Nat
  releases : Nat → List Nat
  parent : Nat → Nat
  mem_waits : ∀ i c, c ∈ waits i ↔ 0 < c ∧ c < b.size ∧ parent c = i
  mem_releases : ∀ i c, c ∈ releases i ↔ c ∈ waits i
  waitsOnce : ∀ i, (waits i).Nodup
  releasesOnce : ∀ i, (releases i).Nodup
  parent_lt : ∀ c, 0 < c → c < b.size → parent c < c
  assign_lt : ∀ me ticket, me < b.size → b.assign me ticket < b.size
  program : ∀ i, i < b.size → b.program i =
    (waits i).map .takeUp ++ (if i = 0 then [] else [.putUp i, .takeDown i]) ++
      (releases i).map .putDown

end CellBarrier

end Qthreads.Lib
