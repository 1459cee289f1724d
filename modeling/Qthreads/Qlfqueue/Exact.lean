import Qthreads.Qlfqueue.Changes

namespace Qthreads.Qlfqueue

open Lib
open Function (update update_of_ne update_self)

/-- No node that a call of `qlfqueue_empty` works with is handed out. -/
def Unwatched (s : Shared) (label : Label) : Prop :=
  ∀ node, label = .alloc node → ∀ thread, s.watches thread ≠ some node

inductive Aside (me : Nat) (s : Shared) : Shared → Prop where
  | free (node : Node) : s.status node = .retired me →
      (∀ other, other ≠ me → s.slot0 other ≠ some node ∧ s.slot1 other ≠ some node) →
      Aside me s (s.setStatus node .pool)
  | scribble (node : Node) (value : Nat) (next : Option Node) :
      (s.status node = .pool ∨ ∃ thread, s.status node = .fresh thread) →
      Aside me s (s.fill node value next)

variable {s after raw : Shared} {strict : Bool} {t me : Nat} {pc next : Pc} {label : Label}

theorem Aside.sound (sound : Sound s) (aside : Aside me s raw) : Sound raw := by
  cases aside with
  | free node retired unheld => exact sound.setStatus (by simp [retired]) (by simp) (by simp [Visible])
  | scribble node value next unseen =>
    have hidden : ¬ Visible (s.status node) := by
      rcases unseen with pool | ⟨thread, fresh⟩
      · simp [pool, Visible]
      · simp [fresh, Visible]
    exact sound.fill hidden value next

theorem Aside.steady (aside : Aside me s raw) : Steady strict t s raw := by
  cases aside with
  | free node retired unheld => exact .free retired fun differs => (unheld t differs).1
  | scribble node value next unseen =>
    rcases unseen with pool | ⟨thread, fresh⟩
    · exact .fill (by simp [pool, Visible]) (by simp [pool]) value next
    · exact .fill (by simp [fresh, Visible]) (by simp [fresh]) value next

theorem Sound.held_last {n : Node} (sound : Sound s) (held : Held s t n) (null : s.next n = none) :
    s.status n = .linked := by
  by_contra outside
  exact sound.gone n held.2.1 outside null

theorem Sound.held_tail {n x : Node} (sound : Sound s) (here : s.tail = n)
    (pointed : s.next n = some x) : x ∈ s.nodes.tail :=
  sound.chain.following (here ▸ sound.tail) pointed

theorem Act.change (sound : Sound s) (own : Own strict me s pc)
    (guard : strict = true → Unwatched s label) (act : Act me s pc label raw next) :
    Change strict me s raw ∨ Aside me s raw ∧ next = pc := by
  cases act with
  | enqueue elem nonzero => exact .inl .begin
  | alloc node pool => exact .inl (.alloc node pool fun isStrict => guard isStrict node rfl)
  | init => exact .inl (.init _ _ own.2)
  | eTail => exact .inl .same
  | eHazard => exact .inl (.slot0 _)
  | eCheck => exact .inl .same
  | eRetry => exact .inl .same
  | eLast => exact .inl .same
  | eBehind => exact .inl .same
  | eHelp here => exact .inl (.swing _ (sound.held_tail here own.2.2))
  | eHelpFail => exact .inl .same
  | link null => exact .inl (.link _ _ _ own.1 (sound.held_last own.2 null) null)
  | linkFail => exact .inl .same
  | eSwing here => exact .inl (.swing _ (sound.held_tail here own.2))
  | eSwingFail => exact .inl .same
  | eClear => exact .inl (.slot0 _)
  | dequeue => exact .inl .begin
  | dHead => exact .inl .same
  | dHazard => exact .inl (.slot0 _)
  | dCheck => exact .inl .same
  | dRetry => exact .inl .same
  | dTail => exact .inl .same
  | dNext => exact .inl .same
  | dNull => exact .inl (.slot1 _)
  | dBehind => exact .inl (.slot1 _)
  | dAhead => exact .inl (.slot1 _)
  | dHelp here => exact .inl (.swing _ (sound.held_tail here own.2))
  | dHelpFail => exact .inl .same
  | dValue => exact .inl .same
  | remove here =>
    obtain ⟨held, first, passed, pointed, value⟩ := own
    subst here
    rw [← value rfl]
    exact .inl (.remove _ (passed rfl) pointed)
  | removeFail => exact .inl .same
  | release => exact .inl (.retire _ own.1)
  | dClear0 => exact .inl (.slot0 _)
  | dClear1 => exact .inl (.slot1 _)
  | dReturn => exact .inl .same
  | empty => exact .inl .begin
  | mHead => exact .inl (.watch _)
  | mTail => exact .inl .same
  | mNext => exact .inl .same
  | mAnswer => exact .inl (.watch _)
  | mRetry => exact .inl (.watch _)
  | mReturn => exact .inl .same
  | free node retired unheld => exact .inr ⟨.free node retired unheld, rfl⟩
  | scribble node value next unseen => exact .inr ⟨.scribble node value next unseen, rfl⟩

theorem Sound.alone (sound : Sound s) (null : s.next s.head = none) : s.contents = [] := by
  obtain ⟨rest, shape⟩ := sound.nonempty
  have chain := sound.chain
  rw [shape] at chain
  have later := chain.2
  rw [null] at later
  cases rest with
  | nil => simp [Shared.contents, shape]
  | cons second others => cases later.1

theorem Sound.filled {x : Node} (sound : Sound s) (pointed : s.next s.head = some x) :
    s.contents ≠ [] := by
  obtain ⟨rest, shape⟩ := sound.second pointed
  simp [Shared.contents, shape]

theorem Sound.ahead (sound : Sound s) (differs : s.tail ≠ s.head) : s.contents ≠ [] := by
  obtain ⟨rest, shape⟩ := sound.nonempty
  have tail := sound.tail
  simp only [shape, List.mem_cons, differs, false_or] at tail
  intro null
  simp only [Shared.contents, shape, List.tail_cons, List.map_eq_nil_iff] at null
  rw [null] at tail
  cases tail

theorem Act.own (good : Good s) (own : Own strict me s pc) (act : Act me s pc label raw next) :
    Own strict me raw next := by
  have sound := good.toSound
  cases act with
  | enqueue elem nonzero => exact nonzero
  | alloc node pool => exact ⟨own, update_self ..⟩
  | init =>
    refine ⟨own.1, ?_, ?_, ?_⟩ <;> simp [Shared.setStatus, Shared.fill]
  | eTail => exact own
  | eHazard => exact ⟨own, update_self ..⟩
  | eCheck here =>
    obtain ⟨ready, slot⟩ := own
    have linked : s.status s.tail = .linked := (sound.linked _).mp sound.tail
    subst here
    exact ⟨ready, slot, by simp [Kept, linked, Visible]⟩
  | eRetry => exact own.1
  | eLast => exact own
  | eBehind pointed => exact ⟨own.1, own.2, pointed⟩
  | eHelp => exact own.1
  | eHelpFail => exact own.1
  | @link _ node tail null =>
    obtain ⟨ready, slot, kept⟩ := own
    refine ⟨⟨slot, ?_⟩, update_self ..⟩
    have differs : tail ≠ node := by
      rintro rfl
      have visible := kept.1
      rw [ready.2.1] at visible
      cases visible
    simpa [Kept, Shared.link, differs] using kept
  | linkFail => exact own.1
  | eSwing => trivial
  | eSwingFail => trivial
  | eClear => trivial
  | dequeue => trivial
  | dHead => trivial
  | dHazard => exact update_self ..
  | dCheck here =>
    have linked := sound.linked_head
    subst here
    exact ⟨⟨own, by simp [Kept, linked, Visible]⟩, .inl rfl⟩
  | dRetry => trivial
  | dTail => exact ⟨own.1, own.2, fun differs _ => differs⟩
  | @dNext head tail =>
    obtain ⟨held, first, passed⟩ := own
    refine ⟨held, first, passed, fun null => ?_, fun _ => rfl⟩
    have here := first.resolve_right (fun outside => outside (sound.held_last held null))
    subst here
    exact good.sawEmpty me (sound.alone null)
  | dNull => exact ⟨fun _ => own.2.2.2.1 rfl, by simp⟩
  | dBehind => exact ⟨own.1, own.2.2.2.2 (by simp)⟩
  | dAhead differs =>
    obtain ⟨held, first, passed, null, pointed⟩ := own
    exact ⟨held, first, passed differs.symm, pointed (by simp)⟩
  | dHelp => trivial
  | dHelpFail => trivial
  | dValue =>
    obtain ⟨held, first, passed, pointed⟩ := own
    exact ⟨held, first, passed, pointed, fun _ => rfl⟩
  | remove here =>
    obtain ⟨held, first, passed, pointed, value⟩ := own
    subst here
    refine ⟨update_self .., ?_⟩
    rw [← value rfl]
    obtain ⟨rest, shape⟩ := sound.second pointed
    apply sound.nonzero
    rw [← sound.fifo, Sound.contents_second shape]
    simp
  | removeFail => trivial
  | release => exact own.2
  | dClear0 => exact own
  | dClear1 => exact ⟨by simp, fun zero => own (Option.some.inj zero)⟩
  | dReturn => trivial
  | empty => trivial
  | mHead =>
    intro isStrict
    refine ⟨update_self .., ?_, .inl rfl⟩
    simp [Shared.watch, sound.linked_head, Unused]
  | mTail =>
    intro isStrict
    refine ⟨own isStrict, fun here differs => ?_⟩
    subst here
    exact good.sawSome me (sound.ahead differs.symm)
  | mNext =>
    intro isStrict
    obtain ⟨watched, ahead⟩ := own isStrict
    refine ⟨watched, ahead, ?_, ?_⟩
    · intro here null
      subst here
      exact good.sawEmpty me (sound.alone null)
    · intro here pointed
      subst here
      cases found : s.next s.head with
      | none => exact absurd found pointed
      | some x => exact good.sawSome me (sound.filled found)
  | mAnswer here =>
    intro isStrict
    obtain ⟨watched, ahead, null, pointed⟩ := own isStrict
    constructor
    · intro yes
      simp only [Bool.and_eq_true, Option.isNone_iff_eq_none] at yes
      exact null here.symm yes.2
    · intro no
      simp only [Bool.and_eq_false_iff, decide_eq_false_iff_not] at no
      rcases no with differs | found
      · exact ahead here.symm differs
      · refine pointed here.symm fun isNull => ?_
        simp [isNull] at found
  | mRetry => trivial
  | mReturn => trivial
  | free node retired unheld => exact own.stable sound (Aside.free node retired unheld).steady
  | scribble node value next unseen =>
    have aside : Aside me _ _ := .scribble node value next unseen
    exact own.stable sound aside.steady

def Took (t : Nat) (s : Shared) : Pc → Prop
  | .dLoop | .dHazard _ | .dCheck _ | .dTail _ | .dNext _ _ | .dHazard1 _ _ _ | .dHelp _ _
  | .dValue _ _ | .dCas _ _ _ => s.took t = none
  | .dRelease _ p | .dClear0 p | .dClear1 p => s.took t = some p
  | .dequeued result => s.took t = result
  | _ => True

theorem Act.took (took : Took me s pc) (act : Act me s pc label raw next) : Took me raw next := by
  cases act with
  | dequeue => exact update_self ..
  | remove => exact update_self ..
  | free => cases pc <;> exact took
  | scribble => cases pc <;> exact took
  | _ => first | exact took | trivial

theorem Took.congr (took : Took t s pc) (same : after.took t = s.took t) : Took t after pc := by
  cases pc <;> simp_all [Took]

theorem Act.took_other (differs : t ≠ me) (act : Act me s pc label raw next) :
    raw.took t = s.took t := by
  cases act with
  | enqueue => exact update_of_ne differs ..
  | dequeue => exact update_of_ne differs ..
  | remove => exact update_of_ne differs ..
  | empty => exact update_of_ne differs ..
  | _ => rfl

def Allowed (strict : Bool) (me : Nat) (s : Shared) (pc : Pc) (label : Label) (after : Shared)
    (next : Pc) : Prop :=
  (strict = true → Unwatched s label) ∧ Observed me s pc label after next

def Known (strict : Bool) (t : Nat) (s : Shared) (pc : Pc) : Prop := Own strict t s pc ∧ Took t s pc

theorem respects (strict : Bool) : Config.Respects (Allowed strict) Good (Known strict) where
  keeps := by
    rintro me s after pc next label good ⟨own, took⟩ ⟨guard, raw, act, rfl⟩
    have sound : Sound raw := by
      rcases act.change good.toSound own guard with change | ⟨aside, _⟩
      · exact change.sound good.toSound
      · exact aside.sound good.toSound
    have steady : Steady strict me raw raw.observe :=
      Steady.observe (.of_same rfl rfl rfl rfl rfl rfl rfl rfl rfl)
    exact ⟨sound.observe, (act.own good own).stable sound steady, (act.took took).congr rfl⟩
  stable := by
    rintro me other s after pc next theirs label differs good ⟨own, _⟩ ⟨others, took⟩
      ⟨guard, raw, act, rfl⟩
    have steady : Steady strict other s raw := by
      rcases act.change good.toSound own guard with change | ⟨aside, _⟩
      · exact change.steady good.toSound differs
      · exact aside.steady
    have kept := act.took_other differs
    have same : raw.observe.took other = s.took other := kept
    exact ⟨others.stable good.toSound steady.observe, took.congr same⟩

def start (head : Node) : Config := ⟨(Shared.create head).observe, fun _ => .idle⟩

theorem start_holds (strict : Bool) (head : Node) :
    Config.Holds Good (Known strict) (start head) := by
  refine ⟨Sound.observe ⟨⟨rfl, rfl⟩, by simp [Shared.create], by simp [Shared.create], ?_, ?_, rfl, ?_⟩,
    fun _ => ⟨trivial, trivial⟩⟩
  · intro n
    by_cases same : n = head <;> simp [Shared.create, same]
  · intro n visible unlinked
    by_cases same : n = head
    · simp [Shared.create, same] at unlinked
    · simp [Shared.create, same, Visible] at visible
  · intro v member
    cases member

/-- What a step does to the queue of elements: an enqueue puts its element last, a dequeue takes
the first one, which it has read from the node after the head it removes, and no other step makes
a difference. -/
inductive Effect (t : Nat) (s : Shared) (label : Label) (after : Shared) : Pc → Pc → Prop where
  | put {elem : Nat} {node tail : Node} : after.contents = s.contents ++ [elem] →
      after.enqueued = s.enqueued ++ [elem] → after.dequeued = s.dequeued → after.took = s.took →
      Effect t s label after (.eCas elem node tail) (.eSwing node tail)
  | take {head next : Node} {p : Nat} : s.head = head → s.next head = some next →
      s.value next = p → s.contents = p :: after.contents → after.enqueued = s.enqueued →
      after.dequeued = s.dequeued ++ [p] → after.took = update s.took t (some p) →
      Effect t s label after (.dCas head next p) (.dRelease head p)
  | call {pc next : Pc} : label = .call → after.contents = s.contents → after.enqueued = s.enqueued →
      after.dequeued = s.dequeued → after.took = update s.took t none →
      Effect t s label after pc next
  | other {pc next : Pc} : label ≠ .call → after.contents = s.contents → after.enqueued = s.enqueued →
      after.dequeued = s.dequeued → after.took = s.took → Effect t s label after pc next

theorem Act.effect (sound : Sound s) (own : Own strict me s pc) (act : Act me s pc label raw next) :
    Effect me s label raw pc next := by
  cases act with
  | enqueue => exact .call rfl rfl rfl rfl rfl
  | dequeue => exact .call rfl rfl rfl rfl rfl
  | empty => exact .call rfl rfl rfl rfl rfl
  | @init elem node =>
    have kept := sound.contents_fill (by simp [own.2, Visible] : ¬ Visible (s.status node)) elem none
    exact .other (by simp) kept rfl rfl rfl
  | scribble node value next unseen =>
    refine .other (by simp) (sound.contents_fill ?_ ..) rfl rfl rfl
    rcases unseen with pool | ⟨thread, fresh⟩
    · simp [pool, Visible]
    · simp [fresh, Visible]
  | link null =>
    refine .put ?_ rfl rfl rfl
    obtain ⟨rest, shape⟩ := sound.nonempty
    simp [Shared.contents, Shared.link, shape, own.1.2.2.1]
  | remove here =>
    obtain ⟨held, first, passed, pointed, value⟩ := own
    refine .take here pointed (value here) ?_ rfl rfl rfl
    subst here
    obtain ⟨rest, shape⟩ := sound.second pointed
    simp [Shared.contents, Shared.remove, shape, value rfl]
  | _ => exact .other (by simp) rfl rfl rfl rfl

theorem Effect.observe (effect : Effect t s label raw pc next) :
    Effect t s label raw.observe pc next := by
  cases effect with
  | put contents enqueued dequeued took => exact .put contents enqueued dequeued took
  | take here pointed value contents enqueued dequeued took =>
    exact .take here pointed value contents enqueued dequeued took
  | call called contents enqueued dequeued took =>
    exact .call called contents enqueued dequeued took
  | other uncalled contents enqueued dequeued took =>
    exact .other uncalled contents enqueued dequeued took

/-- The calls agree with a queue of elements that is first in, first out. -/
structure Linear (config : Config) : Prop where
  fifo : config.shared.dequeued ++ config.shared.contents = config.shared.enqueued
  effect : ∀ t label after, Step config (t, label) after →
    Effect t config.shared label after.shared (config.tasks t) (after.tasks t)
  result : ∀ t result, config.tasks t = .dequeued result →
    config.shared.took t = result ∧ result ≠ some 0
  null : ∀ t, config.tasks t = .dequeued none → config.shared.sawEmpty t = true

/-- The answer of `qlfqueue_empty` was right at a moment of the call. -/
def Answers (config : Config) : Prop :=
  ∀ t answer, config.tasks t = .emptied answer →
    (answer = true → config.shared.sawEmpty t = true) ∧
    (answer = false → config.shared.sawSome t = true)

theorem linear_of_holds {config : Config} (holds : Config.Holds Good (Known strict) config) :
    Linear config := by
  refine ⟨holds.shared.fifo, ?_, ?_, ?_⟩
  · rintro t label after ⟨raw, act, same⟩
    subst same
    simp only [update_self]
    exact (act.effect holds.shared.toSound (holds.tasks t).1).observe
  · intro t result here
    obtain ⟨own, took⟩ := holds.tasks t
    rw [here] at own took
    exact ⟨took, own.2⟩
  · intro t here
    obtain ⟨own, _⟩ := holds.tasks t
    rw [here] at own
    exact own.1 rfl

theorem answers_of_holds {config : Config} (holds : Config.Holds Good (Known true) config) :
    Answers config := by
  intro t answer here
  obtain ⟨own, _⟩ := holds.tasks t
  rw [here] at own
  exact own rfl

theorem linear_of_run {head : Node} {labels : List (Nat × Label)} {last : Config}
    (run : Run Step (start head) labels last) : Linear last := by
  have allowed : Run (Config.Step (Allowed false)) (start head) labels last := by
    refine run.mono fun before label after taken => ?_
    cases taken with
    | move acted => exact .move ⟨nofun, acted⟩
  exact linear_of_holds (Config.Holds.run (respects false) allowed (start_holds false head))

/-- The pool hands out no node that a call of `qlfqueue_empty` works with. -/
def HeadsKept (config : Config) (label : Nat × Label) : Prop := Unwatched config.shared label.2

theorem qlfqueue_linearizable {head : Node} {labels : List (Nat × Label)} {last : Config}
    (run : Run (Guarded HeadsKept Step) (start head) labels last) : Linear last ∧ Answers last := by
  have allowed : Run (Config.Step (Allowed true)) (start head) labels last := by
    refine run.mono fun before label after taken => ?_
    obtain ⟨kept, taken⟩ := taken
    cases taken with
    | move acted => exact .move ⟨fun _ => kept, acted⟩
  have holds := Config.Holds.run (respects true) allowed (start_holds true head)
  exact ⟨linear_of_holds holds, answers_of_holds holds⟩

end Qthreads.Qlfqueue
