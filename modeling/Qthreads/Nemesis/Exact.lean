import Qthreads.Nemesis.Changes

namespace Qthreads.Nemesis

open Lib
open Tqueue (Node Task)
open Function (update update_of_ne update_self)

variable {s after : Shared} {consumer me t : Nat} {n node prev : Node} {pc next : Pc}
  {seen : Seen Op Result}

structure Moved (consumer me : Nat) (s after : Shared) (next : Pc) : Prop where
  good : Good after
  own : Own consumer me after next
  steady : ∀ t, t ≠ me → Steady t s after
  undisturbed : me ≠ consumer → Undisturbed s after

theorem consumes_iff_settled (enqueues : pc.dequeues = false) :
    Consumes s pc ↔ s.front = .atHead ∨ s.front = .atShadow := by
  cases pc with
  | done result =>
    cases result with
    | enqueued => exact .rfl
    | dequeued t => cases enqueues
  | idle | eAlloc | eFill | eSwap | eHead | eLink => exact .rfl
  | _ => cases enqueues

theorem held_eq_none (enqueues : pc.dequeues = false) : pc.held = none := by
  cases pc with
  | dUnlink | dThread | dFree => cases enqueues
  | _ => rfl

theorem inHand_eq_nil (enqueues : pc.dequeues = false) : pc.inHand s = [] := by
  cases pc with
  | done result =>
    cases result with
    | enqueued => rfl
    | dequeued t => cases enqueues
  | dUnlink | dThread | dFree => cases enqueues
  | _ => rfl

theorem Own.enqueues (own : Own consumer me s pc) (before : pc.dequeues = false)
    (later : next.dequeues = false) (undisturbed : Undisturbed s after)
    (fresh : ∀ n, after.stage n = .fresh me ↔ next.fresh = some n)
    (pending : ∀ n, after.stage n = .pending me ↔ next.pending = some n)
    (place : Place after next) : Own consumer me after next where
  fresh := fresh
  pending := pending
  place := place
  dequeuing := fun dequeues => by rw [later] at dequeues; cases dequeues
  consumes := by
    intro mine
    rw [consumes_iff_settled later, undisturbed.front, ← consumes_iff_settled before]
    exact own.consumes mine
  held := by
    intro mine n
    rw [undisturbed.held, own.held mine, held_eq_none before, held_eq_none later]
  taken := by
    intro mine
    rw [undisturbed.taken, undisturbed.returned, own.taken mine, inHand_eq_nil before,
      inHand_eq_nil later]

theorem Own.unowned_fresh (own : Own consumer me s pc) (absent : pc.fresh = none) (n : Node) :
    s.stage n ≠ .fresh me := by
  intro mine
  rw [own.fresh n, absent] at mine
  cases mine

theorem Own.unowned_pending (own : Own consumer me s pc) (absent : pc.pending = none) (n : Node) :
    s.stage n ≠ .pending me := by
  intro mine
  rw [own.pending n, absent] at mine
  cases mine

theorem moved_alloc {task : Task} (good : Good s) (own : Own consumer me s (.eAlloc task))
    (free : s.stage node = .pool) :
    Moved consumer me s (s.setStage node (.fresh me)) (.eFill task node) := by
  have undisturbed : Undisturbed s (s.setStage node (.fresh me)) :=
    ⟨held_of_stage rfl (by simp [free]) (by simp), fun _ _ => rfl, rfl, id, fun _ => id, fun _ _ => id,
      fun _ _ => id, rfl, rfl⟩
  refine ⟨good.setStage (by simp [free, Queued]) (by simp [Queued]), ?_, ?_, fun _ => undisturbed⟩
  · refine own.enqueues rfl rfl undisturbed ?_ ?_ trivial
    · intro m
      have noOther := own.unowned_fresh rfl m
      by_cases same : m = node
      · subst same
        simp [Shared.setStage, Pc.fresh]
      · simp only [Shared.setStage, update_of_ne same, Pc.fresh, Option.some.injEq]
        exact iff_of_false noOther (Ne.symm same)
    · intro m
      have differ := own.unowned_pending rfl m
      by_cases same : m = node
      · subst same
        simp [Shared.setStage, Pc.pending]
      · simp only [Shared.setStage, update_of_ne same, Pc.pending]
        exact iff_of_false differ (by simp)
  · intro t other
    exact .of_stage rfl (by simp [free]) (by simp [other.symm]) (fun _ _ => rfl) (fun _ _ => rfl)
      (fun _ _ => id) (fun _ _ _ => id)

theorem moved_fill {task : Task} (good : Good s) (own : Own consumer me s (.eFill task node)) :
    Moved consumer me s (s.fill node task) (.eSwap node) := by
  have mine : s.stage node = .fresh me := (own.fresh node).mpr rfl
  have others : ∀ m, s.stage m ≠ .fresh me → m ≠ node := by
    rintro m other rfl
    exact other mine
  have inside : ∀ m ∈ s.order, m ≠ node := by
    rintro m inside rfl
    have queued := (good.member m).mp inside
    rw [mine] at queued
    exact queued
  have undisturbed : Undisturbed s (s.fill node task) := by
    refine ⟨fun _ => .rfl, ?_, rfl, id, fun _ => id, ?_, fun _ _ => id, rfl, rfl⟩
    · intro m held
      exact update_of_ne (others m (by simp [held])) ..
    · intro m queued present
      simpa only [Shared.fill, update_of_ne (inside m queued)] using present
  refine ⟨good.fill (by simp [mine, Queued]), ?_, ?_, fun _ => undisturbed⟩
  · exact own.enqueues rfl rfl undisturbed own.fresh own.pending (update_self ..)
  · intro t other
    have apart : ∀ m, s.stage m = .fresh t → m ≠ node := by
      intro m theirs
      apply others m
      rw [theirs]
      simpa using other
    exact ⟨fun _ => .rfl, fun _ => .rfl, fun m theirs => update_of_ne (apart m theirs) ..,
      fun m theirs => update_of_ne (apart m theirs) .., fun _ _ => id, fun _ _ _ => id⟩

theorem moved_swap (good : Good s) (own : Own consumer me s (.eSwap node)) :
    Moved consumer me s (s.swap me node) (swapped s.tail node) := by
  have mine : s.stage node = .fresh me := (own.fresh node).mpr rfl
  have inside : ∀ m ∈ s.order, m ≠ node := by
    rintro m inside rfl
    have queued := (good.member m).mp inside
    rw [mine] at queued
    exact queued
  have first : ∀ m, s.order.head? = some m → (s.order ++ [node]).head? = some m := by
    intro m first
    rw [List.head?_append, first, Option.some_or]
  have undisturbed : Undisturbed s (s.swap me node) := by
    refine ⟨held_of_stage rfl (by simp [mine]) (by simp), fun _ _ => rfl, rfl, id, first,
      fun _ _ => id, ?_, rfl, rfl⟩
    intro m queued _ last
    exact inside m queued (Option.some.inj last).symm
  have enqueues : (swapped s.tail node).dequeues = false := by cases s.tail <;> rfl
  have noFresh : (swapped s.tail node).fresh = none := by cases s.tail <;> rfl
  have pending : (swapped s.tail node).pending = some node := by cases s.tail <;> rfl
  refine ⟨good.swap mine own.place, ?_, ?_, fun _ => undisturbed⟩
  · refine own.enqueues rfl enqueues undisturbed ?_ ?_ ?_
    · intro m
      have only := own.fresh m
      rw [noFresh]
      by_cases same : m = node
      · subst same
        simp [Shared.swap]
      · simp only [Shared.swap, update_of_ne same]
        refine iff_of_false ?_ (by simp)
        intro fresh
        exact same (Option.some.inj (only.mp fresh)).symm
    · intro m
      have differ := own.unowned_pending rfl m
      rw [pending]
      by_cases same : m = node
      · subst same
        simp [Shared.swap]
      · simp only [Shared.swap, update_of_ne same, Option.some.injEq]
        exact iff_of_false differ (Ne.symm same)
    · cases tail : s.tail with
      | none =>
        have empty : s.order = [] := List.getLast?_eq_none_iff.mp (good.tail.symm.trans tail)
        simp only [swapped, Place, Shared.swap, empty, List.nil_append, List.head?_cons]
      | some prev =>
        exact Adjacent.append_iff.mpr (.inr ⟨good.tail.symm.trans tail, rfl⟩)
  · intro t other
    exact .of_stage rfl (by simp [mine, other.symm]) (by simp [other.symm]) (fun _ _ => rfl)
      (fun _ _ => rfl) (fun m _ => first m) (fun _ _ _ adjacent => Adjacent.append_iff.mpr (.inl adjacent))

theorem Own.linked (own : Own consumer me s pc) (before : pc.dequeues = false)
    (noFresh : pc.fresh = none) (pending : pc.pending = some node)
    (undisturbed : Undisturbed s after)
    (changed : after.stage = update s.stage node .linked) :
    Own consumer me after (.done .enqueued) := by
  refine own.enqueues before rfl undisturbed ?_ ?_ trivial
  · intro m
    have differ := own.unowned_fresh noFresh m
    rw [changed]
    by_cases same : m = node
    · subst same
      simp [Pc.fresh]
    · rw [update_of_ne same]
      exact iff_of_false differ (by simp [Pc.fresh])
  · intro m
    have only := own.pending m
    rw [changed]
    by_cases same : m = node
    · subst same
      simp [Pc.pending]
    · rw [update_of_ne same]
      refine iff_of_false ?_ (by simp [Pc.pending])
      intro mine
      rw [only, pending] at mine
      exact same (Option.some.inj mine).symm

theorem moved_storeHead (good : Good s) (own : Own consumer me s (.eHead node)) :
    Moved consumer me s (s.storeHead node) (.done .enqueued) := by
  have mine : s.stage node = .pending me := (own.pending node).mpr rfl
  have undisturbed : Undisturbed s (s.storeHead node) :=
    ⟨held_of_stage rfl (by simp [mine]) (by simp), fun _ _ => rfl, rfl, fun _ => by simp [Shared.storeHead],
      fun _ => id, fun _ _ => id, fun _ _ => id, rfl, rfl⟩
  refine ⟨good.storeHead mine own.place, own.linked rfl rfl rfl undisturbed rfl, ?_,
    fun _ => undisturbed⟩
  intro t other
  exact .of_stage rfl (by simp [mine, other.symm]) (by simp) (fun _ _ => rfl) (fun _ _ => rfl)
    (fun _ _ => id) (fun _ _ _ => id)

theorem moved_link (good : Good s) (own : Own consumer me s (.eLink prev node)) :
    Moved consumer me s (s.link prev node) (.done .enqueued) := by
  have mine : s.stage node = .pending me := (own.pending node).mpr rfl
  have adjacent : Adjacent s.order prev node := own.place
  have undisturbed : Undisturbed s (s.link prev node) := by
    refine ⟨held_of_stage rfl (by simp [mine]) (by simp), fun _ _ => rfl, rfl, id, fun _ => id, ?_,
      fun _ _ => id, rfl, rfl⟩
    intro m _ present
    by_cases same : m = prev
    · subst same
      simp [Shared.link]
    · simpa only [Shared.link, update_of_ne same] using present
  refine ⟨good.link mine adjacent, own.linked rfl rfl rfl undisturbed rfl, ?_, fun _ => undisturbed⟩
  intro t other
  refine .of_stage rfl (by simp [mine, other.symm]) (by simp) ?_ (fun _ _ => rfl) (fun _ _ => id)
    (fun _ _ _ => id)
  intro m theirs
  refine update_of_ne ?_ ..
  rintro rfl
  have queued := (good.member m).mp adjacent.left_mem
  rw [theirs] at queued
  exact queued

theorem Own.consumed (own : Own consumer me s pc) (mine : me = consumer)
    (before : pc.fresh = none ∧ pc.pending = none) (later : next.fresh = none ∧ next.pending = none)
    (good : Good after) (steady : ∀ t, Steady t s after) (place : Place after next)
    (consumes : Consumes after next) (held : ∀ n, after.stage n = .held ↔ next.held = some n)
    (taken : after.taken = after.returned ++ next.inHand after) :
    Moved consumer me s after next := by
  refine ⟨good, ?_, fun t _ => steady t, fun other => absurd mine other⟩
  refine ⟨?_, ?_, place, fun _ => mine, fun _ => consumes, fun _ => held, fun _ => taken⟩
  · intro n
    rw [(steady me).fresh, own.fresh, before.1, later.1]
  · intro n
    rw [(steady me).pending, own.pending, before.2, later.2]

theorem Own.read (own : Own consumer me s pc) (mine : me = consumer)
    (before : pc.fresh = none ∧ pc.pending = none) (later : next.fresh = none ∧ next.pending = none)
    (good : Good s) (place : Place s next) (consumes : Consumes s next)
    (held : next.held = pc.held) (inHand : next.inHand s = pc.inHand s) :
    Moved consumer me s s next := by
  refine own.consumed mine before later good (fun t => .refl t s) place consumes ?_ ?_
  · rw [held]
    exact own.held mine
  · rw [inHand]
    exact own.taken mine

theorem Steady.of_words (stage : after.stage = s.stage) (next : after.next = s.next)
    (thread : after.thread = s.thread) (order : after.order = s.order) (t : Nat) :
    Steady t s after := by
  refine ⟨?_, ?_, ?_, ?_, ?_, ?_⟩
  · exact fun n => by rw [stage]
  · exact fun n => by rw [stage]
  · exact fun n _ => by rw [next]
  · exact fun n _ => by rw [thread]
  · exact fun n _ => by rw [order]; exact id
  · exact fun a n _ => by rw [order]; exact id

theorem Steady.takeOff (first : s.order.head? = some n) (linked : s.stage n = .linked)
    (behind : ∀ m, Adjacent s.order n m → s.stage m = .linked)
    (order : after.order = s.order.tail) (next : after.next = s.next)
    (thread : after.thread = s.thread) (stage : after.stage = update s.stage n .held)
    (t : Nat) : Steady t s after := by
  refine .of_stage stage (by simp [linked]) (by simp) (fun m _ => by rw [next])
    (fun m _ => by rw [thread]) ?_ ?_
  · intro m pending there
    rw [first] at there
    cases there
    rw [linked] at pending
    cases pending
  · intro a m pending adjacent
    obtain ⟨rest, list⟩ : ∃ rest, s.order = n :: rest := List.head?_eq_some_iff.mp first
    rw [order, list, List.tail_cons]
    have split := adjacent
    rw [list] at split
    rcases split with ⟨rfl, _⟩ | later
    · rw [behind m adjacent] at pending
      cases pending
    · exact later

theorem Good.first_linked (good : Good s) (front : s.front = .atShadow ∨ s.front = .cut)
    (first : s.order.head? = some n) : s.stage n = .linked := by
  have fronted := good.fronted
  unfold Fronted at fronted
  rcases front with shadow | cut
  · rw [shadow] at fronted
    obtain ⟨m, there, _⟩ := fronted
    exact Option.some.inj (first.symm.trans there.1) ▸ there.2
  · rw [cut] at fronted
    obtain ⟨m, there, _⟩ := fronted
    exact Option.some.inj (first.symm.trans there.1) ▸ there.2

theorem held_of_takeOff (never : ∀ m, s.stage m ≠ .held)
    (stage : after.stage = update s.stage n .held) (m : Node) :
    after.stage m = .held ↔ some n = some m := by
  rw [stage]
  by_cases same : m = n
  · subst same
    simp
  · rw [update_of_ne same]
    exact iff_of_false (never m) (fun eq => same (Option.some.inj eq).symm)

theorem Own.none_held (own : Own consumer me s pc) (mine : me = consumer) (absent : pc.held = none)
    (m : Node) : s.stage m ≠ .held := by
  rw [Ne, own.held mine m, absent]
  simp

theorem moved_advance (good : Good s) (own : Own consumer me s pc) (mine : me = consumer)
    (before : pc.fresh = none ∧ pc.pending = none) (empty : pc.held = none ∧ pc.inHand s = [])
    (front : s.front = .atShadow ∨ s.front = .cut) (first : s.order.head? = some n)
    (present : s.next n ≠ none) : Moved consumer me s (s.advance n) (.dUnlink n) := by
  have behind : ∀ m, Adjacent s.order n m → s.stage m = .linked := by
    intro m adjacent
    have link := good.links n m adjacent
    by_contra notYet
    rw [if_neg notYet] at link
    exact present link
  refine own.consumed mine before ⟨rfl, rfl⟩ (good.advance front first present)
    (Steady.takeOff first (good.first_linked front first) behind rfl rfl rfl rfl) trivial
    (.inr rfl) (held_of_takeOff (own.none_held mine empty.1) rfl) ?_
  have taken := own.taken mine
  rw [empty.2, List.append_nil] at taken
  simp only [Shared.advance, Pc.inHand, taken]

theorem moved_finish (good : Good s) (own : Own consumer me s (.dCas n)) (tail : s.tail = some n) :
    Moved consumer me s (s.finish n) (.dThread n) := by
  have mine := own.dequeuing rfl
  obtain ⟨front, first⟩ := own.consumes mine
  have behind : ∀ m, Adjacent s.order n m → s.stage m = .linked := by
    intro m adjacent
    exact absurd adjacent (Adjacent.ne_getLast good.once (good.tail ▸ tail))
  refine own.consumed mine ⟨rfl, rfl⟩ ⟨rfl, rfl⟩ (good.finish front first tail)
    (Steady.takeOff first (good.first_linked (.inr front) first) behind rfl rfl rfl rfl) trivial
    (.inl rfl) (held_of_takeOff (own.none_held mine rfl) rfl) ?_
  have taken := own.taken mine
  simp only [Pc.inHand, List.append_nil] at taken
  simp only [Shared.finish, Pc.inHand, taken]

theorem moved_unlink (good : Good s) (own : Own consumer me s (.dUnlink n)) :
    Moved consumer me s (s.unlink n) (.dThread n) := by
  have mine := own.dequeuing rfl
  have held : s.stage n = .held := (own.held mine n).mpr rfl
  refine own.consumed mine ⟨rfl, rfl⟩ ⟨rfl, rfl⟩ (good.unlink held) ?_ trivial (own.consumes mine)
    (own.held mine) (own.taken mine)
  intro t
  refine ⟨fun _ => .rfl, fun _ => .rfl, ?_, fun _ _ => rfl, fun _ _ => id, fun _ _ _ => id⟩
  intro m theirs
  refine update_of_ne ?_ ..
  rintro rfl
  rw [held] at theirs
  cases theirs

theorem moved_free {retval : Task} (good : Good s) (own : Own consumer me s (.dFree n retval)) :
    Moved consumer me s (s.setStage n .pool) (.done (.dequeued (some retval))) := by
  have mine := own.dequeuing rfl
  have held : s.stage n = .held := (own.held mine n).mpr rfl
  refine own.consumed mine ⟨rfl, rfl⟩ ⟨rfl, rfl⟩
    (good.setStage (by simp [held, Queued]) (by simp [Queued])) ?_ trivial (own.consumes mine) ?_
    (own.taken mine)
  · intro t
    exact .of_stage rfl (by simp [held]) (by simp) (fun _ _ => rfl) (fun _ _ => rfl) (fun _ _ => id)
      (fun _ _ _ => id)
  · intro m
    have only := own.held mine m
    by_cases same : m = n
    · subst same
      simp [Shared.setStage, Pc.held]
    · simp only [Shared.setStage, update_of_ne same, Pc.held]
      refine iff_of_false ?_ (by simp)
      intro theirs
      exact same (Option.some.inj (only.mp theirs)).symm

theorem moved_ret {result : Result} (good : Good s) (own : Own consumer me s (.done result)) :
    Moved consumer me s (s.record result) .idle := by
  cases result with
  | enqueued =>
    refine ⟨good, ?_, fun t _ => .refl t s, fun _ => .refl s⟩
    exact own.enqueues rfl rfl (.refl s) own.fresh own.pending trivial
  | dequeued task =>
    have mine := own.dequeuing rfl
    have idle : ∀ (after : Shared), Good after → (∀ t, Steady t s after) → after.front = s.front →
        after.stage = s.stage → after.taken = after.returned → Moved consumer me s after .idle := by
      intro after good steady front stage taken
      refine ⟨good, ?_, fun t _ => steady t, fun other => absurd mine other⟩
      refine ⟨?_, ?_, trivial, ?_, ?_, ?_, ?_⟩
      · exact fun n => stage ▸ own.fresh n
      · exact fun n => stage ▸ own.pending n
      · exact fun dequeues => absurd dequeues (by decide)
      · exact fun mine => (own.consumes mine).imp front.trans front.trans
      · exact fun mine n => stage ▸ own.held mine n
      · exact fun _ => taken.trans (List.append_nil _).symm
    have taken := own.taken mine
    refine idle _ (good.record _) ?_ ?_ ?_ ?_
    · cases task with
      | none => exact fun t => .refl t s
      | some task => exact .of_words rfl rfl rfl rfl
    · cases task <;> rfl
    · cases task <;> rfl
    · cases task with
      | none => exact taken.trans (List.append_nil _)
      | some task => exact taken

theorem moved (good : Good s) (own : Own consumer me s pc) (acted : Act consumer me s pc seen after next) :
    Moved consumer me s after next := by
  cases acted with
  | ret => exact moved_ret good own
  | enqueue task =>
    refine ⟨good, ?_, fun t _ => .refl t s, fun _ => .refl s⟩
    exact own.enqueues rfl rfl (.refl s) own.fresh own.pending trivial
  | alloc node free => exact moved_alloc good own free
  | fill => exact moved_fill good own
  | swap => exact moved_swap good own
  | storeHead => exact moved_storeHead good own
  | link => exact moved_link good own
  | dequeue mine =>
    exact own.read mine ⟨rfl, rfl⟩ ⟨rfl, rfl⟩ good trivial (own.consumes mine) rfl rfl
  | noShadow absent =>
    have mine := own.dequeuing rfl
    refine own.read mine ⟨rfl, rfl⟩ ⟨rfl, rfl⟩ good trivial ?_ rfl rfl
    rcases own.consumes mine with atHead | atShadow
    · exact atHead
    · have fronted := good.fronted
      unfold Fronted at fronted
      rw [atShadow] at fronted
      obtain ⟨m, _, _, shadow⟩ := fronted
      rw [absent] at shadow
      cases shadow
  | shadow present =>
    have mine := own.dequeuing rfl
    refine own.read mine ⟨rfl, rfl⟩ ⟨rfl, rfl⟩ good trivial ?_ rfl rfl
    rcases own.consumes mine with atHead | atShadow
    · have fronted := good.fronted
      unfold Fronted at fronted
      rw [atHead] at fronted
      exact absurd fronted.1 present
    · exact atShadow
  | noHead absent =>
    have mine := own.dequeuing rfl
    exact own.read mine ⟨rfl, rfl⟩ ⟨rfl, rfl⟩ good trivial (.inl (own.consumes mine)) rfl rfl
  | head present =>
    have mine := own.dequeuing rfl
    exact own.read mine ⟨rfl, rfl⟩ ⟨rfl, rfl⟩ good trivial ⟨own.consumes mine, present⟩ rfl rfl
  | adopt =>
    have mine := own.dequeuing rfl
    obtain ⟨front, present⟩ := own.consumes mine
    exact own.consumed mine ⟨rfl, rfl⟩ ⟨rfl, rfl⟩ (good.adopt front present)
      (.of_words rfl rfl rfl rfl) trivial rfl (own.held mine) (own.taken mine)
  | clear =>
    have mine := own.dequeuing rfl
    exact own.consumed mine ⟨rfl, rfl⟩ ⟨rfl, rfl⟩ (good.clearHead (own.consumes mine))
      (.of_words rfl rfl rfl rfl) trivial rfl (own.held mine) (own.taken mine)
  | take shadow =>
    have mine := own.dequeuing rfl
    have front : s.front = .atShadow := own.consumes mine
    refine own.read mine ⟨rfl, rfl⟩ ⟨rfl, rfl⟩ good trivial ⟨front, ?_⟩ rfl rfl
    have fronted := good.fronted
    unfold Fronted at fronted
    rw [front] at fronted
    obtain ⟨m, first, _, there⟩ := fronted
    exact (shadow.symm.trans there) ▸ first.1
  | takeNone absent =>
    have mine := own.dequeuing rfl
    exact own.read mine ⟨rfl, rfl⟩ ⟨rfl, rfl⟩ good trivial (.inr (own.consumes mine)) rfl rfl
  | next present =>
    have mine := own.dequeuing rfl
    obtain ⟨front, first⟩ := own.consumes mine
    exact own.read mine ⟨rfl, rfl⟩ ⟨rfl, rfl⟩ good trivial ⟨front, first, present⟩ rfl rfl
  | noNext absent =>
    have mine := own.dequeuing rfl
    exact own.read mine ⟨rfl, rfl⟩ ⟨rfl, rfl⟩ good trivial (own.consumes mine) rfl rfl
  | step =>
    have mine := own.dequeuing rfl
    obtain ⟨front, first, present⟩ := own.consumes mine
    exact moved_advance good own mine ⟨rfl, rfl⟩ ⟨rfl, rfl⟩ (.inl front) first present
  | last =>
    have mine := own.dequeuing rfl
    obtain ⟨front, first⟩ := own.consumes mine
    exact own.consumed mine ⟨rfl, rfl⟩ ⟨rfl, rfl⟩ (good.clearShadow front)
      (.of_words rfl rfl rfl rfl) trivial ⟨rfl, first⟩ (own.held mine) (own.taken mine)
  | cas tail => exact moved_finish good own tail
  | casFail other =>
    have mine := own.dequeuing rfl
    obtain ⟨front, first⟩ := own.consumes mine
    exact own.read mine ⟨rfl, rfl⟩ ⟨rfl, rfl⟩ good trivial ⟨front, first, other⟩ rfl rfl
  | spin absent =>
    have mine := own.dequeuing rfl
    exact own.read mine ⟨rfl, rfl⟩ ⟨rfl, rfl⟩ good trivial (own.consumes mine) rfl rfl
  | spun present =>
    have mine := own.dequeuing rfl
    obtain ⟨front, first, _⟩ := own.consumes mine
    exact own.read mine ⟨rfl, rfl⟩ ⟨rfl, rfl⟩ good trivial ⟨front, first, present⟩ rfl rfl
  | stepOn =>
    have mine := own.dequeuing rfl
    obtain ⟨front, first, present⟩ := own.consumes mine
    exact moved_advance good own mine ⟨rfl, rfl⟩ ⟨rfl, rfl⟩ (.inr front) first present
  | unlink => exact moved_unlink good own
  | thread =>
    have mine := own.dequeuing rfl
    exact own.read mine ⟨rfl, rfl⟩ ⟨rfl, rfl⟩ good trivial (own.consumes mine) rfl rfl
  | free => exact moved_free good own

theorem Moved.stable {theirs : Pc} (moved : Moved consumer me s after next) (other : t ≠ me)
    (own : Own consumer t s theirs) : Own consumer t after theirs := by
  refine own.stable (moved.steady t other) ?_
  rintro rfl
  exact moved.undisturbed (Ne.symm other)

abbrev Invariant (consumer : Nat) : System → Prop := Config.Holds Good (Own consumer)

theorem respects : Config.Respects (Act consumer) Good (Own consumer) where
  keeps := by
    intro me before after mine next seen good own acted
    exact ⟨(moved good own acted).good, (moved good own acted).own⟩
  stable := by
    intro me t before after mine next theirs seen other good own theirOwn acted
    exact (moved good own acted).stable other theirOwn

theorem invariant_initial : Invariant consumer initial where
  shared := by
    refine ⟨List.nodup_nil, rfl, ?_, fun _ _ => False.elim, ?_, ⟨rfl, fun _ => rfl, ?_⟩, rfl⟩
    · intro n
      simp [initial, Shared.empty, Queued]
    · intro n last
      cases last
    · intro n first
      cases first
  tasks := by
    intro t
    constructor
    case place => trivial
    case dequeuing => rintro ⟨⟩
    case consumes => exact fun _ => .inl rfl
    case taken => exact fun _ => rfl
    all_goals simp [initial, Shared.empty, Pc.fresh, Pc.pending, Pc.held]

theorem invariant_run {labels : List (Nat × Seen Op Result)} {last : System}
    (run : Run (Step consumer) initial labels last) : Invariant consumer last :=
  Config.Holds.run respects run invariant_initial

end Qthreads.Nemesis
