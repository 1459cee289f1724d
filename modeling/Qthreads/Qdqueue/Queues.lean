import Qthreads.Lib.Bag
import Qthreads.Lib.Run
import Qthreads.Qdqueue.Ads
import Qthreads.Qdqueue.Sheps

namespace Qthreads.Qdqueue

open Function (update update_of_ne update_self)

/-! `qdqueue.c`

Calls are made one at a time.  A call that fails an assertion or does not end has no result. -/

variable {n : Nat} {α : Type}

/-- `struct qdqueue_s`, with the fields of each `struct qdsubqueue_s` by its shepherd. -/
structure State (n : Nat) (α : Type) where
  theQ : Fin n → List α
  lastConsumed : Fin n → Option (Fin n)
  ads : Fin n → Ads n
  lastAdIssued : Fin n → Nat
  lastAdConsumed : Fin n → Nat
  neighbors : Fin n → List (Fin n)
  allsheps : Fin n → List (Fin n)

def newAds (me : Fin n) (allsheps : List (Fin n)) : Ads n where
  next _ := none
  prev _ := none
  inheap _ := false
  shep i := ((me :: allsheps)[i.val]?).getD me
  generation _ := 0
  first := none

/-- `qdqueue_create`, with what `random()` returns in the two loops that use it. -/
def create (distances : Fin n → Fin n → Int) (random randomNear : Fin n → Nat → Nat) :
    Option (State n α) :=
  if ∀ me, (sortedSheps (random me) me (distances me)).isSome then
    let allsheps := fun me => (sortedSheps (random me) me (distances me)).getD []
    some
      { theQ := fun _ => []
        lastConsumed := fun _ => none
        ads := fun me => newAds me (allsheps me)
        lastAdIssued := fun _ => 1
        lastAdConsumed := fun _ => 1
        neighbors := fun me => getNeighbors (randomNear me) me (distances me)
        allsheps }
  else none

namespace State

variable (s : State n α)

def setQ (shep : Fin n) (list : List α) : State n α :=
  { s with theQ := update s.theQ shep list }

def setLastConsumed (shep : Fin n) (consumed : Option (Fin n)) : State n α :=
  { s with lastConsumed := update s.lastConsumed shep consumed }

def setAds (shep : Fin n) (ads : Ads n) : State n α :=
  { s with ads := update s.ads shep ads }

theorem setAds_self (shep : Fin n) (ads : Ads n) : (s.setAds shep ads).ads shep = ads :=
  update_self ..

theorem setAds_of_ne {shep other : Fin n} (ads : Ads n) (differs : other ≠ shep) :
    (s.setAds shep ads).ads other = s.ads other :=
  update_of_ne differs ..

theorem setLastConsumed_self (shep : Fin n) (consumed : Option (Fin n)) :
    (s.setLastConsumed shep consumed).lastConsumed shep = consumed :=
  update_self ..

theorem setLastConsumed_of_ne {shep other : Fin n} (consumed : Option (Fin n))
    (differs : other ≠ shep) :
    (s.setLastConsumed shep consumed).lastConsumed other = s.lastConsumed other :=
  update_of_ne differs ..

/-- `qdqueue_adheap_push(&(neighbor->ads), myq, generation);` for each neighbor. -/
def advertise (me : Fin n) (generation : Nat) : State n α → List (Fin n) → Option (State n α)
  | s, [] => some s
  | s, neighbor :: rest =>
    ((s.ads neighbor).push me generation).bind fun ads =>
      advertise me generation (s.setAds neighbor ads) rest

/-- `qdqueue_enqueue_there`, and `qdqueue_enqueue` at the caller's own shepherd. -/
def enqueue (there : Fin n) (elem : α) : Option (State n α) :=
  let after := s.setQ there (s.theQ there ++ [elem])
  if (s.theQ there).isEmpty then some after
  else if s.lastAdIssued there ≤ s.lastAdConsumed there then
    let issued := { after with
      lastAdIssued := update s.lastAdIssued there (s.lastAdIssued there + 1) }
    advertise there (s.lastAdIssued there) issued (s.neighbors there)
  else some after

/-- The loop over all other shepherds: it takes an element from a queue, or it finds nothing, or it
goes back to the advertisements. -/
inductive Scan (n : Nat) (α : Type) where
  | found (elem : α) (rest : List α) (shep : Fin n)
  | nothing
  | checkads

def scan (me : Fin n) : List (Fin n) → Scan n α
  | [] => .nothing
  | remote :: rest =>
    match s.theQ remote with
    | elem :: later => .found elem later remote
    | [] =>
      let hint := match s.lastConsumed remote with
        | none => none
        | some lc =>
          if lc = remote then none
          else match s.theQ lc with
            | [] => none
            | elem :: later => some (elem, later, lc)
      match hint with
      | some (elem, later, lc) => .found elem later lc
      | none => if (s.ads me).first ≠ none then .checkads else scan me rest

/-- An element is taken from a queue, and `myq->last_consumed` is set. -/
def consume (me shep : Fin n) (rest : List α) : State n α :=
  (s.setQ shep rest).setLastConsumed me (some shep)

/-- The loop of compare-and-swaps on `last_ad_consumed`. -/
def adConsumed (ad : Ad n) : State n α :=
  { s with
    lastAdConsumed := update s.lastAdConsumed ad.shep
      (max (s.lastAdConsumed ad.shep) ad.generation) }

/-- `qdqueue_dequeue` from `checkads` on. -/
def checkAds (me : Fin n) : Nat → State n α → Option (Option α × State n α)
  | 0, _ => none
  | fuel + 1, s =>
    match (s.ads me).pop with
    | (none, _) =>
      match s.scan me (s.allsheps me) with
      | .found elem rest shep => some (some elem, s.consume me shep rest)
      | .nothing => some (none, s)
      | .checkads => checkAds me fuel s
    | (some ad, ads) =>
      let s := s.setAds me ads
      match s.lastConsumed ad.shep with
      | none => checkAds me fuel s
      | some lc =>
        if lc = ad.shep then
          let s := s.adConsumed ad
          match s.theQ ad.shep with
          | elem :: rest => some (some elem, s.consume me ad.shep rest)
          | [] => checkAds me fuel s
        else
          ((s.ads me).push lc 0).bind fun ads =>
            checkAds me fuel ((s.setAds me ads).setLastConsumed ad.shep none)

/-- `qdqueue_dequeue`; nobody goes round more often than this. -/
def dequeue (me : Fin n) : Option (Option α × State n α) :=
  match s.theQ me with
  | elem :: rest => some (some elem, s.consume me me rest)
  | [] => checkAds me (3 * n + 1) (s.setLastConsumed me none)

def empty (me : Fin n) : Bool :=
  (s.theQ me).isEmpty &&
    (s.allsheps me).all fun remote =>
      !(decide (s.lastConsumed remote = some remote) && !(s.theQ remote).isEmpty)

end State

inductive Call (n : Nat) (α : Type) where
  | enqueue (there : Fin n) (elem : α)
  | dequeue (me : Fin n) (result : Option α)
  | empty (me : Fin n) (result : Bool)

def Step (before : State n α) (call : Call n α) (after : State n α) : Prop :=
  match call with
  | .enqueue there elem => before.enqueue there elem = some after
  | .dequeue me result => before.dequeue me = some (result, after)
  | .empty me result => before.empty me = result ∧ after = before

def Bag.Step (before : Multiset α) (call : Call n α) (after : Multiset α) : Prop :=
  match call with
  | .enqueue _ elem => after = elem ::ₘ before
  | .dequeue _ none => before = 0 ∧ after = 0
  | .dequeue _ (some elem) => before = elem ::ₘ after
  | .empty _ result => (result = true ↔ before = 0) ∧ after = before

end Qthreads.Qdqueue
