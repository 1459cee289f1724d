import Mathlib.Data.List.Nodup

namespace Qthreads.Lib

open Function (update update_of_ne update_self)

variable {Node : Type*}

structure Links (Node : Type*) where
  next : Node → Option Node
  prev : Node → Option Node

namespace Links

def setNext [DecidableEq Node] (links : Links Node) (node : Node) (target : Option Node) :
    Links Node :=
  { links with next := update links.next node target }

def setPrev [DecidableEq Node] (links : Links Node) (node : Node) (target : Option Node) :
    Links Node :=
  { links with prev := update links.prev node target }

def Segment (links : Links Node) (before : Option Node) : List Node → Option Node → Prop
  | [], _ => True
  | node :: rest, after => links.prev node = before ∧ links.next node = rest.head?.or after ∧
      Segment links (some node) rest after

def SameAt (links other : Links Node) (node : Node) : Prop :=
  other.next node = links.next node ∧ other.prev node = links.prev node

namespace SameAt

variable {links other third : Links Node} {node : Node}

theorem refl (links : Links Node) (node : Node) : links.SameAt links node := ⟨rfl, rfl⟩

theorem trans (front : links.SameAt other node) (back : other.SameAt third node) :
    links.SameAt third node :=
  ⟨back.1.trans front.1, back.2.trans front.2⟩

variable [DecidableEq Node] {target : Option Node} {changed : Node}

theorem setNext (links : Links Node) (target : Option Node) (differs : node ≠ changed) :
    links.SameAt (links.setNext changed target) node :=
  ⟨update_of_ne differs .., rfl⟩

theorem setPrev (links : Links Node) (target : Option Node) (differs : node ≠ changed) :
    links.SameAt (links.setPrev changed target) node :=
  ⟨rfl, update_of_ne differs ..⟩

end SameAt

namespace Segment

variable {links other : Links Node} {before after : Option Node} {front back nodes : List Node}
  {node : Node}

theorem congr (same : ∀ node ∈ nodes, links.SameAt other node)
    (segment : links.Segment before nodes after) : other.Segment before nodes after := by
  induction nodes generalizing before with
  | nil => trivial
  | cons node rest ih =>
    obtain ⟨next, prev⟩ := same node List.mem_cons_self
    exact ⟨prev.trans segment.1, next.trans segment.2.1,
      ih (fun later member => same later (List.mem_cons_of_mem _ member)) segment.2.2⟩

theorem append : links.Segment before (front ++ back) after ↔
    links.Segment before front (back.head?.or after) ∧
      links.Segment (front.getLast?.or before) back after := by
  induction front generalizing before with
  | nil => simp [Segment]
  | cons node rest ih =>
    have last : (node :: rest).getLast?.or before = rest.getLast?.or (some node) := by
      cases rest with
      | nil => rfl
      | cons second others =>
        rw [List.getLast?_cons_cons, List.getLast?_eq_some_getLast (List.cons_ne_nil _ _)]
        rfl
    rw [List.cons_append, last]
    simp only [Segment, ih, List.head?_append, Option.or_assoc]
    exact ⟨fun ⟨prev, next, early, late⟩ => ⟨⟨prev, next, early⟩, late⟩,
      fun ⟨⟨prev, next, early⟩, late⟩ => ⟨prev, next, early, late⟩⟩

theorem prev_first (segment : links.Segment before nodes after)
    (first : nodes.head? = some node) : links.prev node = before := by
  cases nodes with
  | nil => cases first
  | cons start rest =>
    cases first
    exact segment.1

theorem next_last (segment : links.Segment before nodes after)
    (last : nodes.getLast? = some node) : links.next node = after := by
  obtain ⟨rest, rfl⟩ := List.getLast?_eq_some_iff.mp last
  exact (append.mp segment).2.2.1

variable [DecidableEq Node]

section

variable (segment : links.Segment before nodes after)
include segment

theorem setNext_last (once : nodes.Nodup)
    (last : nodes.getLast? = some node) (target : Option Node) :
    (links.setNext node target).Segment before nodes target := by
  obtain ⟨rest, rfl⟩ := List.getLast?_eq_some_iff.mp last
  obtain ⟨early, prev, -, -⟩ := append.mp segment
  have apart : ∀ other ∈ rest, other ≠ node := by
    intro other member same
    exact (List.nodup_append.mp once).2.2 other member node (List.mem_singleton.mpr rfl) same
  refine append.mpr ⟨early.congr fun other member => .setNext links target (apart other member),
    prev, update_self .., trivial⟩

theorem setPrev_first (once : nodes.Nodup)
    (first : nodes.head? = some node) (target : Option Node) :
    (links.setPrev node target).Segment target nodes after := by
  cases nodes with
  | nil => cases first
  | cons start rest =>
    cases first
    have apart : ∀ other ∈ rest, other ≠ node := by
      rintro other member rfl
      exact (List.nodup_cons.mp once).1 member
    exact ⟨update_self .., segment.2.1,
      segment.2.2.congr fun other member => .setPrev links target (apart other member)⟩

theorem setNext_other (outside : node ∉ nodes)
    (target : Option Node) : (links.setNext node target).Segment before nodes after :=
  segment.congr fun _ member => .setNext links target fun same => outside (same ▸ member)

theorem setPrev_other (outside : node ∉ nodes)
    (target : Option Node) : (links.setPrev node target).Segment before nodes after :=
  segment.congr fun _ member => .setPrev links target fun same => outside (same ▸ member)

end

theorem join {first last : Node} {left right : Option Node}
    (early : links.Segment before front left) (late : links.Segment right back after)
    (once : (front ++ back).Nodup) (ends : front.getLast? = some last)
    (starts : back.head? = some first) :
    ((links.setPrev first (some last)).setNext last (some first)).Segment before (front ++ back)
      after := by
  obtain ⟨frontOnce, backOnce, apart⟩ := List.nodup_append.mp once
  have firstOutside : first ∉ front := fun member =>
    apart first member first (List.mem_of_mem_head? starts) rfl
  have lastOutside : last ∉ back := fun member =>
    apart last (List.mem_of_getLast? ends) last member rfl
  rw [append, starts, ends]
  exact ⟨(early.setPrev_other firstOutside _).setNext_last frontOnce ends _,
    (late.setPrev_first backOnce starts _).setNext_other lastOutside _⟩

end Segment

end Links

end Qthreads.Lib
