import Qthreads.Qlfqueue.Invariant

namespace Qthreads.Qlfqueue

open Lib
open Function (update_of_ne update_self)

variable {s after : Shared} {strict : Bool} {t me : Nat} {n : Node}

inductive Change (strict : Bool) (me : Nat) (s : Shared) : Shared → Prop where
  | same : Change strict me s s
  | begin : Change strict me s (s.begin me)
  | slot0 (node : Option Node) : Change strict me s (s.setSlot0 me node)
  | slot1 (node : Option Node) : Change strict me s (s.setSlot1 me node)
  | watch (node : Option Node) : Change strict me s (s.watch me node)
  | alloc (node : Node) : s.status node = .pool →
      (strict = true → ∀ u, s.watches u ≠ some node) →
      Change strict me s (s.setStatus node (.fresh me))
  | init (node : Node) (elem : Nat) : s.status node = .fresh me →
      Change strict me s ((s.fill node elem none).setStatus node (.own me))
  | swing (node : Node) : node ∈ s.nodes.tail → Change strict me s (s.swing node)
  | link (tail node : Node) (elem : Nat) : Ready s me elem node → s.status tail = .linked →
      s.next tail = none → Change strict me s (s.link tail node elem)
  | remove (next : Node) : s.tail ≠ s.head → s.next s.head = some next →
      Change strict me s (s.remove me s.head next (s.value next))
  | retire (node : Node) : s.status node = .removed me →
      Change strict me s (s.setStatus node (.retired me))

section

variable (sound : Sound s)
include sound

theorem Sound.later (inside : n ∈ s.nodes.tail) : n ∈ s.nodes ∧ n ≠ s.head := by
  obtain ⟨rest, shape⟩ := sound.nonempty
  have once := sound.once
  rw [shape] at once inside
  constructor
  · rw [shape]
    exact List.mem_cons_of_mem _ inside
  · rintro rfl
    exact (List.nodup_cons.mp once).1 inside

theorem Sound.linked_head : s.status s.head = .linked := by
  obtain ⟨rest, shape⟩ := sound.nonempty
  rw [← sound.linked, shape]
  exact List.mem_cons_self

theorem Sound.setStatus {status : Status} (outside : s.status n ≠ .linked)
    (never : status ≠ .linked) (pointed : Visible status → s.next n ≠ none) :
    Sound (s.setStatus n status) := by
  refine { sound with linked := ?_, gone := ?_ }
  · intro node
    by_cases same : node = n
    · subst same
      simp [Shared.setStatus, sound.linked, outside, never]
    · simp [Shared.setStatus, same, sound.linked]
  · intro node visible unlinked
    by_cases same : node = n
    · subst same
      simp only [Shared.setStatus, update_self] at visible
      exact pointed visible
    · simp only [Shared.setStatus, update_of_ne same] at visible unlinked
      exact sound.gone node visible unlinked

theorem Sound.ne_hidden (hidden : ¬ Visible (s.status n)) : ∀ node ∈ s.nodes, node ≠ n := by
  rintro node member rfl
  rw [sound.linked] at member
  exact hidden (member ▸ trivial)

theorem Sound.contents_fill (hidden : ¬ Visible (s.status n)) (value : Nat)
    (next : Option Node) : (s.fill n value next).contents = s.contents := by
  apply List.map_congr_left
  intro node member
  exact update_of_ne (sound.ne_hidden hidden node (List.mem_of_mem_tail member)) ..

theorem Sound.fill (hidden : ¬ Visible (s.status n)) (value : Nat)
    (next : Option Node) : Sound (s.fill n value next) := by
  have outside := sound.ne_hidden hidden
  refine { sound with chain := ?_, gone := ?_, fifo := ?_ }
  · refine sound.chain.congr fun node member => ?_
    exact update_of_ne (outside node member) ..
  · intro node visible unlinked
    by_cases same : node = n
    · subst same
      exact absurd visible hidden
    · simp only [Shared.fill, update_of_ne same]
      exact sound.gone node visible unlinked
  · rw [sound.contents_fill hidden]
    exact sound.fifo

theorem Sound.link {tail : Node} {elem : Nat} (ready : Ready s me elem n)
    (inside : s.status tail = .linked) (last : s.next tail = none) :
    Sound (s.link tail n elem) := by
  obtain ⟨nonzero, status, value, null⟩ := ready
  have member : tail ∈ s.nodes := (sound.linked tail).mpr inside
  have outside : n ∉ s.nodes := by
    rw [sound.linked, status]
    simp
  have differs : n ≠ tail := fun same => outside (same ▸ member)
  refine ⟨?_, ?_, ?_, ?_, ?_, ?_, ?_⟩
  · have relinked := sound.chain.relink sound.once (sound.chain.ends member last) (some n)
    refine Chain.append.mpr ⟨some n, relinked, rfl, ?_⟩
    simp [Shared.link, Chain, update_of_ne differs, null]
  · simp only [Shared.link, List.nodup_append]
    refine ⟨sound.once, by simp, ?_⟩
    rintro a first b second rfl
    rw [List.mem_singleton] at second
    exact outside (second ▸ first)
  · exact List.mem_append_left _ sound.tail
  · intro node
    by_cases same : node = n
    · subst same
      simp [Shared.link]
    · simp [Shared.link, same, sound.linked]
  · intro node visible unlinked
    have other : node ≠ n := by
      rintro rfl
      simp [Shared.link] at unlinked
    simp only [Shared.link, update_of_ne other] at visible unlinked
    by_cases same : node = tail
    · subst same
      exact absurd inside unlinked
    · simp only [Shared.link, update_of_ne same]
      exact sound.gone node visible unlinked
  · obtain ⟨rest, shape⟩ := sound.nonempty
    have fifo := sound.fifo
    simp only [Shared.contents, shape, List.tail_cons] at fifo
    simp [Shared.link, Shared.contents, shape, value, ← fifo]
  · intro v member
    simp only [Shared.link, List.mem_append, List.mem_singleton] at member
    rcases member with before | rfl
    · exact sound.nonzero v before
    · exact nonzero

end

theorem Sound.contents_second {x : Node} {rest : List Node} (shape : s.nodes = s.head :: x :: rest) :
    s.contents = s.value x :: rest.map s.value := by
  simp [Shared.contents, shape]

theorem Sound.remove {next : Node} (sound : Sound s) (passed : s.tail ≠ s.head)
    (pointed : s.next s.head = some next) :
    Sound (s.remove me s.head next (s.value next)) := by
  obtain ⟨rest, shape⟩ := sound.second pointed
  have chain := sound.chain
  have once := sound.once
  rw [shape] at chain once
  refine ⟨?_, ?_, ?_, ?_, ?_, ?_, ?_⟩
  · have later := chain.2
    rw [pointed] at later
    simpa [Shared.remove, shape] using later
  · simpa [Shared.remove, shape] using (List.nodup_cons.mp once).2
  · have tail := sound.tail
    simp only [shape, List.mem_cons, passed, false_or] at tail
    simpa [Shared.remove, shape] using tail
  · intro node
    have linked := sound.linked node
    by_cases same : node = s.head
    · subst same
      have absent := (List.nodup_cons.mp once).1
      simpa [Shared.remove, shape] using absent
    · rw [shape, List.mem_cons] at linked
      simpa [Shared.remove, shape, same] using linked
  · intro node visible unlinked
    by_cases same : node = s.head
    · subst same
      simp [Shared.remove, pointed]
    · simp only [Shared.remove, update_of_ne same] at visible unlinked
      exact sound.gone node visible unlinked
  · have fifo := sound.fifo
    rw [contents_second shape] at fifo
    simpa [Shared.remove, Shared.contents, shape] using fifo
  · exact sound.nonzero

theorem Change.sound (sound : Sound s) (change : Change strict me s after) : Sound after := by
  cases change with
  | same => exact sound
  | begin => exact { sound with }
  | slot0 node => exact { sound with }
  | slot1 node => exact { sound with }
  | watch node => exact { sound with }
  | alloc node pool unwatched =>
    exact sound.setStatus (by simp [pool]) (by simp) (by simp [Visible])
  | init node elem fresh =>
    have filled := sound.fill (n := node) (by simp [fresh, Visible]) elem none
    exact filled.setStatus (by simp [Shared.fill, fresh]) (by simp) (by simp [Visible])
  | swing node inside => exact { sound with tail := (sound.later inside).1 }
  | link tail node elem ready inside last => exact sound.link ready inside last
  | remove next passed pointed => exact sound.remove passed pointed
  | retire node removed =>
    refine sound.setStatus (by simp [removed]) (by simp) fun _ => ?_
    exact sound.gone node (by simp [removed, Visible]) (by simp [removed])

theorem Steady.of_same (slot0 : after.slot0 t = s.slot0 t) (watches : after.watches t = s.watches t)
    (sawEmpty : after.sawEmpty t = s.sawEmpty t) (sawSome : after.sawSome t = s.sawSome t)
    (status : after.status = s.status) (next : after.next = s.next) (head : after.head = s.head)
    (tail : after.tail = s.tail) (value : after.value = s.value) : Steady strict t s after := by
  refine ⟨slot0, watches, by simp [sawEmpty], by simp [sawSome], ?_, ?_, ?_, ?_, ?_, ?_, ?_, ?_, ?_,
    ?_⟩ <;> simp_all [Kept, First]

theorem Steady.setStatus {status : Status} (fresh : s.status n ≠ .fresh t)
    (own : s.status n ≠ .own t) (removed : s.status n ≠ .removed t)
    (outside : s.status n ≠ .linked) (never : status ≠ .linked)
    (kept : s.slot0 t = some n → Kept s t n → Visible status ∧ status ≠ .retired t)
    (watched : strict = true → s.watches t = some n → Unused (s.status n) → Unused status) :
    Steady strict t s (s.setStatus n status) := by
  have elsewhere : ∀ node, node ≠ n → (s.setStatus n status).status node = s.status node :=
    fun node differs => update_of_ne differs ..
  have there : (s.setStatus n status).status n = status := update_self ..
  refine ⟨rfl, rfl, id, id, ?_, ?_, ?_, ?_, ?_, fun node x _ pointed => pointed, ?_,
    fun node _ _ here => here, fun node _ _ passed => passed, fun node _ => rfl⟩
  · intro node is
    rw [elsewhere node (fun same => fresh (same ▸ is))]
    exact is
  · intro node is
    rw [elsewhere node (fun same => own (same ▸ is))]
    exact ⟨is, rfl, rfl⟩
  · intro node is
    rw [elsewhere node (fun same => removed (same ▸ is))]
    exact is
  · intro node slot before
    by_cases same : node = n
    · subst same
      rw [Kept, there]
      exact kept slot before
    · rw [Kept, elsewhere node same]
      exact before
  · intro isStrict node watches unused
    by_cases same : node = n
    · subst same
      rw [there]
      exact watched isStrict watches unused
    · rw [elsewhere node same]
      exact unused
  · intro node first unused
    by_cases same : node = n
    · subst same
      right
      rw [there]
      exact never
    · rw [First, elsewhere node same]
      exact first

theorem Steady.fill (hidden : ¬ Visible (s.status n)) (own : s.status n ≠ .own t) (value : Nat)
    (next : Option Node) : Steady strict t s (s.fill n value next) := by
  refine ⟨rfl, rfl, id, id, fun _ is => is, ?_, fun _ is => is, fun _ _ kept => kept,
    fun _ _ _ unused => unused, ?_, fun _ first _ => first, fun _ _ _ here => here,
    fun _ _ _ passed => passed, ?_⟩
  · intro node is
    have differs : node ≠ n := fun same => own (same ▸ is)
    exact ⟨is, update_of_ne differs .., update_of_ne differs ..⟩
  · intro node x visible pointed
    have differs : node ≠ n := fun same => hidden (same ▸ visible)
    exact (update_of_ne differs ..).trans pointed
  · intro node linked
    have differs : node ≠ n := by
      rintro rfl
      exact hidden (linked ▸ trivial)
    exact update_of_ne differs ..

theorem Steady.trans {middle : Shared} (one : Steady strict t s middle)
    (two : Steady strict t middle after) (linked : ∀ n, s.status n = .linked → middle.status n = .linked)
    (visible : ∀ n, Visible (s.status n) → Visible (middle.status n))
    (unused : ∀ n, Unused (s.status n) → Unused (middle.status n)) (head : middle.head = s.head) :
    Steady strict t s after := by
  refine ⟨two.slot0.trans one.slot0, two.watches.trans one.watches,
    fun saw => two.sawEmpty (one.sawEmpty saw), fun saw => two.sawSome (one.sawSome saw),
    fun n is => two.fresh n (one.fresh n is), ?_, fun n is => two.removed n (one.removed n is),
    fun n slot kept => two.kept n (one.slot0.trans slot) (one.kept n slot kept), ?_, ?_, ?_, ?_, ?_, ?_⟩
  · intro n is
    obtain ⟨is', value, next⟩ := one.own n is
    obtain ⟨is'', value', next'⟩ := two.own n is'
    exact ⟨is'', value'.trans value, next'.trans next⟩
  · intro isStrict n watches unused
    exact two.watched isStrict n (one.watches.trans watches) (one.watched isStrict n watches unused)
  · intro n x seen pointed
    exact two.next n x (visible n seen) (one.next n x seen pointed)
  · intro n first clear
    exact two.first n (one.first n first clear) (unused n clear)
  · intro n first clear here
    rw [← head]
    exact two.back n (one.first n first clear) (unused n clear) here
  · intro n here there passed
    have middle := head.trans here
    exact two.tail n middle there (one.tail n here middle passed)
  · intro n is
    exact (two.value n (linked n is)).trans (one.value n is)

theorem Steady.swing (sound : Sound s) (inside : n ∈ s.nodes.tail) :
    Steady strict t s (s.swing n) := by
  refine ⟨rfl, rfl, id, id, fun _ is => is, fun _ is => ⟨is, rfl, rfl⟩, fun _ is => is,
    fun _ _ kept => kept, fun _ _ _ unused => unused, fun _ _ _ pointed => pointed,
    fun _ first _ => first, fun _ _ _ here => here, ?_, fun _ _ => rfl⟩
  intro node here _ _ same
  exact (sound.later inside).2 (same.trans here.symm)

theorem Steady.link {tail : Node} {elem : Nat} (differs : t ≠ me) (ready : Ready s me elem n)
    (inside : s.status tail = .linked) (last : s.next tail = none) :
    Steady strict t s (s.link tail n elem) := by
  have elsewhere : ∀ node, s.status node ≠ .own me → (s.link tail n elem).status node = s.status node := by
    intro node other
    have apart : node ≠ n := by
      rintro rfl
      exact other ready.2.1
    exact update_of_ne apart ..
  have target : ∀ node, s.next node ≠ none ∨ s.status node ≠ .linked →
      (s.link tail n elem).next node = s.next node := by
    intro node other
    have apart : node ≠ tail := by
      rintro rfl
      rcases other with pointed | outside
      · exact pointed last
      · exact outside inside
    exact update_of_ne apart ..
  refine ⟨rfl, rfl, id, id, ?_, ?_, ?_, ?_, ?_, ?_, ?_, fun _ _ _ here => here,
    fun _ _ _ passed => passed, fun _ _ => rfl⟩
  · intro node is
    rw [elsewhere node (by simp [is])]
    exact is
  · intro node is
    rw [elsewhere node (by simp [is, differs]), target node (by simp [is])]
    exact ⟨is, rfl, rfl⟩
  · intro node is
    rw [elsewhere node (by simp [is])]
    exact is
  · intro node _ kept
    have other : s.status node ≠ .own me := by
      intro is
      have visible := kept.1
      rw [is] at visible
      exact visible
    rw [Kept, elsewhere node other]
    exact kept
  · intro _ node _ unused
    have other : s.status node ≠ .own me := by
      intro is
      rw [is] at unused
      exact unused
    rw [elsewhere node other]
    exact unused
  · intro node x _ pointed
    rw [target node (by simp [pointed])]
    exact pointed
  · intro node first unused
    have other : s.status node ≠ .own me := by
      intro is
      rw [is] at unused
      exact unused
    rw [First, elsewhere node other]
    exact first

theorem Steady.remove {next : Node} {p : Nat} (sound : Sound s)
    (pointed : s.next s.head = some next) : Steady strict t s (s.remove me s.head next p) := by
  obtain ⟨rest, shape⟩ := sound.second pointed
  have later : next ∈ s.nodes ∧ next ≠ s.head := sound.later (by simp [shape])
  have elsewhere : ∀ node, s.status node ≠ .linked →
      (s.remove me s.head next p).status node = s.status node := by
    intro node other
    have apart : node ≠ s.head := by
      rintro rfl
      exact other sound.linked_head
    exact update_of_ne apart ..
  have gone : (s.remove me s.head next p).status s.head = .removed me := update_self ..
  refine ⟨rfl, rfl, id, id, ?_, ?_, ?_, ?_, ?_, fun _ _ _ same => same, ?_, ?_, ?_, fun _ _ => rfl⟩
  · intro node is
    rw [elsewhere node (by simp [is])]
    exact is
  · intro node is
    rw [elsewhere node (by simp [is])]
    exact ⟨is, rfl, rfl⟩
  · intro node is
    rw [elsewhere node (by simp [is])]
    exact is
  · intro node _ kept
    by_cases same : node = s.head
    · subst same
      rw [Kept, gone]
      exact ⟨trivial, by simp⟩
    · simp only [Kept, Shared.remove, update_of_ne same]
      exact kept
  · intro _ node _ unused
    by_cases same : node = s.head
    · subst same
      rw [gone]
      trivial
    · simp only [Shared.remove, update_of_ne same]
      exact unused
  · intro node first _
    right
    by_cases same : node = s.head
    · subst same
      rw [gone]
      simp
    · have outside := first.resolve_left same
      rw [elsewhere node outside]
      exact outside
  · rintro node first _ rfl
    have linked : s.status next = .linked := (sound.linked next).mp later.1
    exact (first.resolve_right (fun outside => outside linked)).symm
  · rintro node here there _
    exact absurd (there.trans here.symm) later.2

theorem Change.steady (sound : Sound s) (differs : t ≠ me) (change : Change strict me s after) :
    Steady strict t s after := by
  cases change with
  | same => exact .of_same rfl rfl rfl rfl rfl rfl rfl rfl rfl
  | begin =>
    exact .of_same rfl rfl (update_of_ne differs ..) (update_of_ne differs ..)
      rfl rfl rfl rfl rfl
  | slot0 node => exact .of_same (update_of_ne differs ..) rfl rfl rfl rfl rfl rfl rfl rfl
  | slot1 node => exact .of_same rfl rfl rfl rfl rfl rfl rfl rfl rfl
  | watch node => exact .of_same rfl (update_of_ne differs ..) rfl rfl rfl rfl rfl rfl rfl
  | alloc node pool unwatched =>
    refine .setStatus (by simp [pool]) (by simp [pool]) (by simp [pool]) (by simp [pool]) (by simp)
      ?_ ?_
    · intro _ kept
      have visible := kept.1
      rw [pool] at visible
      cases visible
    · intro isStrict watches
      exact absurd watches (unwatched isStrict t)
  | init node elem fresh =>
    have filled : Steady strict t s (s.fill node elem none) :=
      .fill (by simp [fresh, Visible]) (by simp [fresh]) elem none
    have owned : Steady strict t (s.fill node elem none)
        ((s.fill node elem none).setStatus node (.own me)) := by
      refine .setStatus ?_ ?_ ?_ ?_ (by simp) ?_ ?_ <;>
        simp [Shared.fill, fresh, Kept, Visible, Unused, differs.symm]
    exact filled.trans owned (fun _ is => is) (fun _ is => is) (fun _ is => is) rfl
  | swing node inside => exact .swing sound inside
  | link tail node elem ready inside last => exact .link differs ready inside last
  | remove next passed pointed => exact .remove sound pointed
  | retire node removed =>
    refine .setStatus ?_ ?_ ?_ ?_ (by simp) ?_ ?_ <;>
      simp [removed, Visible, Unused, differs.symm]

theorem Steady.free (retired : s.status n = .retired me)
    (unheld : t ≠ me → s.slot0 t ≠ some n) : Steady strict t s (s.setStatus n .pool) := by
  refine .setStatus ?_ ?_ ?_ ?_ (by simp) ?_ ?_
  · simp [retired]
  · simp [retired]
  · simp [retired]
  · simp [retired]
  · intro slot kept
    by_cases same : t = me
    · subst same
      exact absurd retired kept.2
    · exact absurd slot (unheld same)
  · intro _ _ _
    trivial

theorem Steady.observe (steady : Steady strict t s after) : Steady strict t s after.observe := by
  refine { steady with sawEmpty := ?_, sawSome := ?_ }
  · intro saw
    simp [Shared.observe, steady.sawEmpty saw]
  · intro saw
    simp [Shared.observe, steady.sawSome saw]

theorem Sound.observe (sound : Sound s) : Good s.observe where
  toSound := { sound with }
  sawEmpty := by
    intro t null
    have same : s.contents = [] := null
    simp [Shared.observe, same]
  sawSome := by
    intro t filled
    have same : s.contents ≠ [] := filled
    simp [Shared.observe, same]

end Qthreads.Qlfqueue
