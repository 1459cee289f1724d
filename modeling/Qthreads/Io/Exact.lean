import Mathlib.Algebra.Group.Nat.Defs
import Qthreads.Io.Jobs

namespace Qthreads.Io

open Lib

section Doing

variable {proxies : List Proxy} {proxy number : Nat} {here there : Proxy}
  {kind : Node → Nat → Proxy}

def Doing (proxies : List Proxy) (kind : Node → Nat → Proxy) (number : Nat) : Prop :=
  ∃ here ∈ proxies, ∃ item, here = kind item number

def Elsewhere (proxies : List Proxy) (proxy : Nat) (kind : Node → Nat → Proxy) (number : Nat) : Prop :=
  ∃ other ≠ proxy, ∃ item, proxies[other]? = some (kind item number)

theorem doing_iff (at_ : proxies[proxy]? = some here) : Doing proxies kind number ↔
    (∃ item, here = kind item number) ∨ Elsewhere proxies proxy kind number := by
  constructor
  · rintro ⟨_, member, item, rfl⟩
    obtain ⟨other, found⟩ := List.mem_iff_getElem?.mp member
    by_cases mine : other = proxy
    · subst mine
      exact .inl ⟨item, Option.some.inj (at_.symm.trans found)⟩
    · exact .inr ⟨other, mine, item, found⟩
  · rintro (⟨item, same⟩ | ⟨other, -, item, found⟩)
    · exact ⟨here, List.mem_of_getElem? at_, item, same⟩
    · exact ⟨_, List.mem_of_getElem? found, item, rfl⟩

theorem elsewhere_set : Elsewhere (proxies.set proxy there) proxy kind number ↔
    Elsewhere proxies proxy kind number := by
  constructor <;> rintro ⟨other, differs, item, found⟩ <;> refine ⟨other, differs, item, ?_⟩
  · rwa [List.getElem?_set_ne (Ne.symm differs)] at found
  · rwa [List.getElem?_set_ne (Ne.symm differs)]

theorem doing_set (at_ : proxies[proxy]? = some here) : Doing (proxies.set proxy there) kind number ↔
    (∃ item, there = kind item number) ∨ Elsewhere proxies proxy kind number := by
  obtain ⟨less, -⟩ := List.getElem?_eq_some_iff.mp at_
  rw [doing_iff (List.getElem?_set_self less), elsewhere_set]

theorem doing_set_of_not (at_ : proxies[proxy]? = some here)
    (before : ∀ item number, here ≠ kind item number)
    (later : ∀ item number, there ≠ kind item number) :
    Doing (proxies.set proxy there) kind number ↔ Doing proxies kind number := by
  rw [doing_set at_, doing_iff at_]
  constructor
  · rintro (⟨item, same⟩ | others)
    · exact absurd same (later item number)
    · exact .inr others
  · rintro (⟨item, same⟩ | others)
    · exact absurd same (before item number)
    · exact .inr others

theorem doing_come {item : Node} (at_ : proxies[proxy]? = some here)
    (inj : ∀ other also, kind item number = kind also other → other = number)
    (before : ∀ item number, here ≠ kind item number) {other : Nat} :
    Doing (proxies.set proxy (kind item number)) kind other ↔
      other = number ∨ Doing proxies kind other := by
  refine (doing_set at_).trans (or_congr ?_ ?_)
  · constructor
    · rintro ⟨also, same⟩
      exact inj other also same
    · rintro rfl
      exact ⟨item, rfl⟩
  · refine Iff.trans ⟨.inr, fun either => either.resolve_left ?_⟩ (doing_iff at_).symm
    rintro ⟨also, same⟩
    exact before also other same

theorem doing_leave {item : Node} (at_ : proxies[proxy]? = some (kind item number))
    (inj : ∀ other also, kind item number = kind also other → other = number)
    (later : ∀ item number, there ≠ kind item number)
    (only : ¬ Elsewhere proxies proxy kind number) {other : Nat} :
    Doing (proxies.set proxy there) kind other ↔ other ≠ number ∧ Doing proxies kind other := by
  refine (doing_set at_).trans ⟨?_, ?_⟩
  · rintro (⟨also, same⟩ | others)
    · exact absurd same (later also other)
    · refine ⟨?_, (doing_iff at_).mpr (.inr others)⟩
      rintro rfl
      exact only others
  · rintro ⟨differs, doing⟩
    refine .inr (((doing_iff at_).mp doing).resolve_left ?_)
    rintro ⟨also, same⟩
    exact differs (inj other also same)

end Doing

namespace State

variable {s : State} {number : Nat}

theorem making_def : s.Making number ↔ Doing s.proxies .make number := Iff.rfl

theorem requeueing_def : s.Requeueing number ↔ Doing s.proxies .requeue number := Iff.rfl

def At (s : State) (proxy number : Nat) (item : Node) : Prop :=
  s.proxies[proxy]? = some (.make item number) ∨ s.proxies[proxy]? = some (.requeue item number)

theorem at_setProxy {there : Proxy} {proxy other : Nat} {item : Node}
    (now : (s.setProxy proxy there).At other number item) :
    s.At other number item ∨
      other = proxy ∧ (there = .make item number ∨ there = .requeue item number) := by
  simp only [At, setProxy, List.getElem?_set] at now
  split at now
  next same =>
      split at now
      · exact .inr ⟨same.symm, now.imp Option.some.inj Option.some.inj⟩
      · rcases now with now | now <;> cases now
  next => exact .inl now

end State

structure Worked (s : State) : Prop where
  works : ∀ proxy number item, s.At proxy number item →
    s.took[number]? = some (item, proxy) ∧ s.entered[number]? = some ⟨item, s.job item⟩
  makes : ∀ (number : Nat) (entry : Entry), s.entered[number]? = some entry →
    (number < s.took.length ∧ ¬ s.Making number → s.callsOf number = [entry.job.named]) ∧
    (s.took.length ≤ number ∨ s.Making number → s.callsOf number = [])
  backs : ∀ (number : Nat) (entry : Entry), s.entered[number]? = some entry →
    (number < s.took.length ∧ ¬ s.Making number ∧ ¬ s.Requeueing number →
      s.backOf number = [(entry.job.thread.shepherd, entry.job.thread)]) ∧
    (s.took.length ≤ number ∨ s.Making number ∨ s.Requeueing number → s.backOf number = [])
  later : ∀ number, s.took.length ≤ number → s.callsOf number = [] ∧ s.backOf number = []

namespace Worked

variable {s after : State} {label : Label} {caller proxy : Nat}

variable {item : Node} {number : Nat}

section

variable (worked : Worked s)
include worked

theorem took_lt (at_ : s.At proxy number item) : number < s.took.length :=
  (List.getElem?_eq_some_iff.mp (worked.works proxy number item at_).1).1

theorem alone {number other : Nat} {item also : Node}
    (at_ : s.At proxy number item) (there : s.At other number also) : other = proxy := by
  have mine := (worked.works proxy number item at_).1
  have theirs := (worked.works other number also there).1
  rw [mine] at theirs
  cases theirs
  rfl

theorem not_elsewhere (at_ : s.At proxy number item) : ¬ Elsewhere s.proxies proxy .make number ∧
      ¬ Elsewhere s.proxies proxy .requeue number := by
  constructor
  · rintro ⟨other, differs, also, found⟩
    exact differs (worked.alone at_ (.inl found))
  · rintro ⟨other, differs, also, found⟩
    exact differs (worked.alone at_ (.inr found))

theorem kept (stays : ∀ (number : Nat) (entry : Entry), s.entered[number]? = some entry →
      after.entered[number]? = some entry)
    (came : ∀ (number : Nat) (entry : Entry), after.entered[number]? = some entry →
      s.entered[number]? = some entry ∨ s.took.length ≤ number) (took : after.took = s.took)
    (made : after.made = s.made) (back : after.back = s.back)
    (making : ∀ number, after.Making number ↔ s.Making number)
    (requeueing : ∀ number, after.Requeueing number ↔ s.Requeueing number)
    (at_ : ∀ proxy number item, after.At proxy number item → s.At proxy number item)
    (job : ∀ proxy number item, s.At proxy number item → after.job item = s.job item) :
    Worked after := by
  have calls : ∀ number, after.callsOf number = s.callsOf number := by
    intro number
    rw [State.callsOf, made, State.callsOf]
  have backs : ∀ number, after.backOf number = s.backOf number := by
    intro number
    rw [State.backOf, back, State.backOf]
  refine ⟨?_, ?_, ?_, ?_⟩
  · intro proxy number item there
    have before := at_ proxy number item there
    obtain ⟨taken, there⟩ := worked.works proxy number item before
    rw [took, job proxy number item before]
    exact ⟨taken, stays number _ there⟩
  · intro number entry found
    rw [took, making, calls]
    rcases came number entry found with old | beyond
    · exact worked.makes number entry old
    · exact ⟨fun early => absurd early.1 (Nat.not_lt.mpr beyond), fun _ => (worked.later number beyond).1⟩
  · intro number entry found
    rw [took, making, requeueing, backs]
    rcases came number entry found with old | beyond
    · exact worked.backs number entry old
    · exact ⟨fun early => absurd early.1 (Nat.not_lt.mpr beyond), fun _ => (worked.later number beyond).2⟩
  · intro number beyond
    rw [took] at beyond
    rw [calls, backs]
    exact worked.later number beyond

theorem setProxy {here : Proxy} (at_ : s.proxies[proxy]? = some here)
    (there : Proxy) (before : ∀ item number, here ≠ .make item number ∧ here ≠ .requeue item number)
    (later : ∀ item number, there ≠ .make item number ∧ there ≠ .requeue item number) :
    Worked (s.setProxy proxy there) := by
  refine worked.kept (fun _ _ => id) (fun _ _ => .inl) rfl rfl rfl ?_ ?_ ?_ (fun _ _ _ _ => rfl)
  · intro number
    exact doing_set_of_not at_ (fun item number => (before item number).1)
      (fun item number => (later item number).1)
  · intro number
    exact doing_set_of_not at_ (fun item number => (before item number).2)
      (fun item number => (later item number).2)
  · intro other number item now
    rcases State.at_setProxy now with before | ⟨-, make | requeue⟩
    · exact before
    · exact absurd make (later item number).1
    · exact absurd requeue (later item number).2

theorem fill {node : Node} {job : Job} (fresh : ¬ s.InUse node) :
    Worked (s.fill caller node job) := by
  refine worked.kept (fun _ _ => id) (fun _ _ => .inl) rfl rfl rfl (fun _ => Iff.rfl) (fun _ => Iff.rfl) (fun _ _ _ => id) ?_
  intro proxy number item at_
  refine Function.update_of_ne ?_ _ _
  rintro rfl
  rcases at_ with at_ | at_
  · exact fresh (.of_holds ⟨_, at_, rfl⟩)
  · exact fresh (.of_holds ⟨_, at_, rfl⟩)

theorem append {node : Node} (short : s.took.length ≤ s.entered.length)
    (entered : after.entered = s.entered ++ [⟨node, s.job node⟩]) (took : after.took = s.took)
    (made : after.made = s.made) (back : after.back = s.back) (proxies : after.proxies = s.proxies)
    (job : after.job = s.job) : Worked after := by
  refine worked.kept ?_ ?_ took made back (fun number => ?_) (fun number => ?_)
    (fun proxy number item at_ => ?_) fun _ _ _ _ => by rw [job]
  · intro number entry found
    obtain ⟨less, -⟩ := List.getElem?_eq_some_iff.mp found
    rw [entered]
    exact (List.getElem?_append_left less).trans found
  · intro number entry found
    rw [entered, List.getElem?_append] at found
    split at found
    · exact .inl found
    · exact .inr (Nat.le_trans short (by omega))
  · rw [State.making_def, State.making_def, proxies]
  · rw [State.requeueing_def, State.requeueing_def, proxies]
  · rwa [State.At, proxies] at at_

theorem create : Worked (s.create caller) := by
  have same {kind : Node → Nat → Proxy} (other : ∀ item number, kind item number ≠ .test)
      (number : Nat) : Doing (s.proxies ++ [.test]) kind number ↔ Doing s.proxies kind number := by
    constructor
    · rintro ⟨here, member, item, rfl⟩
      rcases List.mem_append.mp member with old | new
      · exact ⟨_, old, item, rfl⟩
      · exact absurd (List.mem_singleton.mp new) (other item number)
    · rintro ⟨here, member, item, rfl⟩
      exact ⟨_, List.mem_append_left _ member, item, rfl⟩
  refine worked.kept (fun _ _ => id) (fun _ _ => .inl) rfl rfl rfl (same nofun) (same nofun) ?_ (fun _ _ _ _ => rfl)
  intro proxy number item at_
  simp only [State.At, State.create, State.setCaller, List.getElem?_append] at at_
  split at at_
  · exact at_
  · rw [List.getElem?_singleton] at at_
    split at at_ <;> rcases at_ with at_ | at_ <;> cases at_

theorem unlink {here : Proxy} (queued : Queued s) (at_ : s.proxies[proxy]? = some here)
    (idle : ∀ item number, here ≠ .make item number ∧ here ≠ .requeue item number)
    (first : s.head = some item) :
    Worked ((s.unlink proxy item).setProxy proxy (.make item s.took.length)) := by
  obtain ⟨entry, rest, front⟩ : ∃ entry rest, s.entered.drop s.took.length = entry :: rest := by
    have present := queued.head.symm.trans first
    cases front : s.entered.drop s.took.length with
    | nil =>
      rw [State.waiting, front] at present
      cases present
    | cons entry rest => exact ⟨entry, rest, rfl⟩
  have node : entry.node = item := by
    have present := queued.head.symm.trans first
    rw [State.waiting, front] at present
    exact Option.some.inj present
  have entered : s.entered[s.took.length]? = some entry := by
    have head : (s.entered.drop s.took.length)[0]? = some entry := by
      rw [front]
      rfl
    rwa [List.getElem?_drop] at head
  have content : s.job item = entry.job := by
    rw [← node]
    exact queued.content entry (front ▸ List.mem_cons_self)
  have whole : entry = ⟨item, s.job item⟩ := by
    rw [content, ← node]
  have more : ((s.unlink proxy item).setProxy proxy (.make item s.took.length)).took.length =
      s.took.length + 1 := by
    simp only [State.setProxy, State.unlink, List.length_append, List.length_singleton]
  have making {number : Nat} : ((s.unlink proxy item).setProxy proxy
      (.make item s.took.length)).Making number ↔ number = s.took.length ∨ s.Making number :=
    doing_come at_ (by rintro _ _ ⟨⟩; rfl) fun item number => (idle item number).1
  have requeueing {number : Nat} : ((s.unlink proxy item).setProxy proxy
      (.make item s.took.length)).Requeueing number ↔ s.Requeueing number :=
    doing_set_of_not at_ (fun item number => (idle item number).2) (by rintro _ _ ⟨⟩)
  refine ⟨?_, ?_, ?_, ?_⟩
  · intro other number also now
    rcases State.at_setProxy now with before | ⟨rfl, make | requeue⟩
    · obtain ⟨taken, there⟩ := worked.works other number also before
      obtain ⟨less, -⟩ := List.getElem?_eq_some_iff.mp taken
      exact ⟨(List.getElem?_append_left less).trans taken, there⟩
    · cases make
      exact ⟨List.getElem?_concat_length, entered.trans (congrArg some whole)⟩
    · cases requeue
  · intro number now found
    rw [more, making]
    have old := worked.makes number now found
    constructor
    · rintro ⟨early, still⟩
      refine old.1 ⟨?_, fun making => still (.inr making)⟩
      exact Nat.lt_of_le_of_ne (Nat.le_of_lt_succ early) fun same => still (.inl same)
    · rintro (beyond | rfl | making)
      · exact old.2 (.inl (Nat.le_of_lt beyond))
      · exact old.2 (.inl (Nat.le_refl _))
      · exact old.2 (.inr making)
  · intro number now found
    rw [more, making, requeueing]
    have old := worked.backs number now found
    constructor
    · rintro ⟨early, still, requeue⟩
      refine old.1 ⟨?_, fun making => still (.inr making), requeue⟩
      exact Nat.lt_of_le_of_ne (Nat.le_of_lt_succ early) fun same => still (.inl same)
    · rintro (beyond | (rfl | making) | requeue)
      · exact old.2 (.inl (Nat.le_of_lt beyond))
      · exact old.2 (.inl (Nat.le_refl _))
      · exact old.2 (.inr (.inl making))
      · exact old.2 (.inr (.inr requeue))
  · intro number beyond
    rw [more] at beyond
    exact worked.later number (Nat.le_of_lt beyond)

theorem make {answer : Word} (queued : Queued s)
    (at_ : s.proxies[proxy]? = some (.make item number)) :
    Worked ((s.make item number answer).setProxy proxy (.requeue item number)) := by
  have here : s.At proxy number item := .inl at_
  have entered := (worked.works proxy number item here).2
  have only := worked.not_elsewhere here
  have now : s.Making number := ⟨_, List.mem_of_getElem? at_, item, rfl⟩
  have making {other : Nat} : ((s.make item number answer).setProxy proxy
      (.requeue item number)).Making other ↔ other ≠ number ∧ s.Making other :=
    doing_leave at_ (by rintro _ _ ⟨⟩; rfl) (by rintro _ _ ⟨⟩) only.1
  have requeueing {other : Nat} : ((s.make item number answer).setProxy proxy
      (.requeue item number)).Requeueing other ↔ other = number ∨ s.Requeueing other :=
    doing_come at_ (by rintro _ _ ⟨⟩; rfl) (by rintro _ _ ⟨⟩)
  have calls (other : Nat) : ((s.make item number answer).setProxy proxy
      (.requeue item number)).callsOf other =
        s.callsOf other ++ (if other = number then (s.job item).dispatch else []) := by
    simp only [State.callsOf, State.setProxy, State.make, List.filter_append, List.map_append]
    congr 1
    by_cases same : other = number
    · subst same
      simp [List.filter_map, Function.comp_def]
    · simp [List.filter_map, Function.comp_def, same, Ne.symm same]
  refine ⟨?_, ?_, ?_, ?_⟩
  · intro other third also there
    rcases State.at_setProxy there with before | ⟨rfl, make | requeue⟩
    · exact worked.works other third also before
    · cases make
    · cases requeue
      exact worked.works other number item here
  · intro other entry found
    rw [making, calls]
    have old := worked.makes other entry found
    by_cases mine : other = number
    · subst mine
      rw [if_pos rfl, old.2 (.inr now), List.nil_append]
      have same : entry = ⟨item, s.job item⟩ := Option.some.inj (found.symm.trans entered)
      have ended := queued.ended entry (List.mem_of_getElem? found)
      constructor
      · intro _
        rw [same] at ended ⊢
        exact (Job.dispatch_eq_named_iff _).mpr ended
      · rintro (beyond | ⟨differs, -⟩)
        · exact absurd (worked.took_lt here) (Nat.not_lt.mpr beyond)
        · exact absurd rfl differs
    · rw [if_neg mine, List.append_nil]
      refine ⟨fun done => old.1 ⟨done.1, fun making => done.2 ⟨mine, making⟩⟩, ?_⟩
      rintro (beyond | ⟨-, making⟩)
      · exact old.2 (.inl beyond)
      · exact old.2 (.inr making)
  · intro other entry found
    rw [making, requeueing]
    have old := worked.backs other entry found
    constructor
    · rintro ⟨early, making, requeue⟩
      refine old.1 ⟨early, ?_, fun also => requeue (.inr also)⟩
      exact fun also => making ⟨fun same => requeue (.inl same), also⟩
    · rintro (beyond | ⟨-, making⟩ | rfl | requeue)
      · exact old.2 (.inl beyond)
      · exact old.2 (.inr (.inl making))
      · exact old.2 (.inr (.inl now))
      · exact old.2 (.inr (.inr requeue))
  · intro other beyond
    have differs : other ≠ number := by
      rintro rfl
      exact absurd (worked.took_lt here) (Nat.not_lt.mpr beyond)
    rw [calls, if_neg differs, List.append_nil]
    exact worked.later other beyond

theorem requeue (at_ : s.proxies[proxy]? = some (.requeue item number)) :
    Worked ((s.requeue item number).setProxy proxy (.free item)) := by
  have here : s.At proxy number item := .inr at_
  have entered := (worked.works proxy number item here).2
  have only := worked.not_elsewhere here
  have now : s.Requeueing number := ⟨_, List.mem_of_getElem? at_, item, rfl⟩
  have still : ¬ s.Making number := by
    intro making
    rcases (doing_iff at_).mp making with ⟨also, same⟩ | others
    · cases same
    · exact only.1 others
  have making {other : Nat} : ((s.requeue item number).setProxy proxy (.free item)).Making other ↔
      s.Making other :=
    doing_set_of_not at_ nofun nofun
  have requeueing {other : Nat} : ((s.requeue item number).setProxy proxy
      (.free item)).Requeueing other ↔ other ≠ number ∧ s.Requeueing other :=
    doing_leave at_ (by rintro _ _ ⟨⟩; rfl) (by rintro _ _ ⟨⟩) only.2
  have backs (other : Nat) : ((s.requeue item number).setProxy proxy (.free item)).backOf other =
      s.backOf other ++ (if other = number then
        [((s.job item).thread.shepherd, (s.job item).thread)] else []) := by
    simp only [State.backOf, State.setProxy, State.requeue, List.filter_append, List.map_append]
    congr 1
    by_cases same : other = number
    · subst same
      simp
    · simp [same, Ne.symm same]
  refine ⟨?_, ?_, ?_, ?_⟩
  · intro other third also there
    rcases State.at_setProxy there with before | ⟨rfl, make | requeue⟩
    · exact worked.works other third also before
    · cases make
    · cases requeue
  · intro other entry found
    rw [making]
    exact worked.makes other entry found
  · intro other entry found
    rw [making, requeueing, backs]
    have old := worked.backs other entry found
    by_cases mine : other = number
    · subst mine
      rw [if_pos rfl, old.2 (.inr (.inr now)), List.nil_append]
      have same : entry = ⟨item, s.job item⟩ := Option.some.inj (found.symm.trans entered)
      refine ⟨fun _ => by rw [same], ?_⟩
      rintro (beyond | making | ⟨differs, -⟩)
      · exact absurd (worked.took_lt here) (Nat.not_lt.mpr beyond)
      · exact absurd making still
      · exact absurd rfl differs
    · rw [if_neg mine, List.append_nil]
      refine ⟨fun done => old.1 ⟨done.1, done.2.1, fun also => done.2.2 ⟨mine, also⟩⟩, ?_⟩
      rintro (beyond | making | ⟨-, requeue⟩)
      · exact old.2 (.inl beyond)
      · exact old.2 (.inr (.inl making))
      · exact old.2 (.inr (.inr requeue))
  · intro other beyond
    have differs : other ≠ number := by
      rintro rfl
      exact absurd (worked.took_lt here) (Nat.not_lt.mpr beyond)
    rw [backs, if_neg differs, List.append_nil]
    exact worked.later other beyond

theorem moves (queued : Queued s) (clear : s.Clear label)
    (moves : Moves s label after) : Worked after := by
  cases moves with
  | fill node job => exact worked.fill clear.1
  | append at_ =>
    simp only [State.recruit]
    split
    · exact worked.append queued.took_le rfl rfl rfl rfl rfl rfl
    · exact worked.append queued.took_le rfl rfl rfl rfl rfl rfl
  | create => exact worked.create
  | count =>
    exact worked.kept (fun _ _ => id) (fun _ _ => .inl) rfl rfl rfl (fun _ => Iff.rfl) (fun _ => Iff.rfl) (fun _ _ _ => id)
      (fun _ _ _ _ => rfl)
  | test at_ =>
    rw [show s.proxyExit = false from clear]
    exact worked.setProxy at_ _ (fun _ _ => ⟨by rintro ⟨⟩, by rintro ⟨⟩⟩) (fun _ _ =>
      ⟨by rintro ⟨⟩, by rintro ⟨⟩⟩)
  | @process proxy here _ at_ start =>
    have idle : ∀ item number, here ≠ .make item number ∧ here ≠ .requeue item number := by
      rcases start with rfl | rfl <;> exact fun _ _ => ⟨by rintro ⟨⟩, by rintro ⟨⟩⟩
    cases first : s.head with
    | none =>
      simp only [State.process, first]
      exact worked.setProxy at_ _ idle (fun _ _ => ⟨by rintro ⟨⟩, by rintro ⟨⟩⟩)
    | some item =>
      simp only [State.process, first]
      exact worked.unlink queued at_ idle first
  | timedOut at_ =>
    cases first : s.head with
    | none =>
      simp only [State.timedOut, first]
      have left := worked.setProxy at_ .left (fun _ _ => ⟨by rintro ⟨⟩, by rintro ⟨⟩⟩)
        (fun _ _ => ⟨by rintro ⟨⟩, by rintro ⟨⟩⟩)
      exact left.kept (fun _ _ => id) (fun _ _ => .inl) rfl rfl rfl (fun _ => Iff.rfl) (fun _ => Iff.rfl) (fun _ _ _ => id)
        (fun _ _ _ _ => rfl)
    | some item =>
      simp only [State.timedOut, first]
      exact worked.setProxy at_ _ (fun _ _ => ⟨by rintro ⟨⟩, by rintro ⟨⟩⟩) (fun _ _ =>
        ⟨by rintro ⟨⟩, by rintro ⟨⟩⟩)
  | make answer at_ => exact worked.make queued at_
  | requeue at_ => exact worked.requeue at_
  | free link at_ =>
    have moved := worked.setProxy at_ .test (fun _ _ => ⟨by rintro ⟨⟩, by rintro ⟨⟩⟩) (fun _ _ =>
      ⟨by rintro ⟨⟩, by rintro ⟨⟩⟩)
    exact moved.kept (fun _ _ => id) (fun _ _ => .inl) rfl rfl rfl (fun _ => Iff.rfl) (fun _ => Iff.rfl) (fun _ _ _ => id)
      (fun _ _ _ _ => rfl)
  | stop =>
    exact worked.kept (fun _ _ => id) (fun _ _ => .inl) rfl rfl rfl (fun _ => Iff.rfl) (fun _ => Iff.rfl) (fun _ _ _ => id)
      (fun _ _ _ _ => rfl)

end

end Worked

structure Good (s : State) : Prop where
  counted : Counted s
  queued : Queued s
  worked : Worked s

namespace Good

variable {s : State}

theorem counts (good : Good s) (free : s.lock = none) : s.ioWorkerCount = s.alive := by
  have all := good.counted.counted
  rw [State.uncounted, free] at all
  simpa using all

theorem ends (good : Good s) (spin : s.stopwork = .spin) (free : s.lock = none)
    (gone : ∀ here ∈ s.proxies, here = .left) : s.step .spin = some { s with stopwork := .lock } := by
  have isZero : s.alive = 0 := by
    refine List.countP_eq_zero.mpr fun here member => ?_
    rw [gone here member]
    decide
  have zero : s.ioWorkerCount = 0 := by
    rw [good.counts free, isZero]
    rfl
  simp only [State.step, spin, if_pos zero]

theorem serves (good : Good s) (free : s.lock = none) (nonempty : s.waiting ≠ []) : 0 < s.alive := by
  have head : s.head ≠ none := by
    rw [good.queued.head]
    intro absent
    exact nonempty (List.head?_eq_none_iff.mp absent)
  have positive := good.counted.served free head
  rw [good.counts free] at positive
  exact Int.natCast_pos.mp positive

theorem right (good : Good s) : s.Right where
  counts := good.counts
  ends := good.ends
  listed := good.queued.listed
  tail := good.queued.tail
  length := good.queued.length
  order := good.queued.order
  makes := good.worked.makes
  backs := good.worked.backs
  works := fun proxy number item at_ => (good.worked.works proxy number item at_).1
  serves := fun _ => good.serves

theorem step {after : State} {label : Label} (good : Good s) (clear : s.Clear label)
    (step : s.Step label after) : Good after := by
  have moves := Moves.of_step step
  exact ⟨good.counted.moves good.queued.length_nonneg clear moves, good.queued.moves clear moves,
    good.worked.moves good.queued clear moves⟩

theorem initial {setting : Option Word} {next : Node → Option Node} {job : Node → Job}
    {ret : Node → Word} (room : 0 < (getEnvNum setting 10 1).toInt) :
    Good (initial setting next job ret) where
  counted := by
    refine ⟨rfl, ?_, fun _ present => absurd rfl present, Int.le_refl _, room⟩
    intro caller
    simp [Io.initial]
  queued := by
    refine ⟨rfl, rfl, rfl, List.prefix_rfl, List.nodup_nil, nofun, nofun, ?_, ?_, nofun, nofun, nofun,
      nofun⟩
    · rintro p q node ⟨here, at_, -⟩
      cases at_
    · rintro p node ⟨here, at_, -⟩
      cases at_
  worked := by
    refine ⟨?_, nofun, nofun, fun _ _ => ⟨rfl, rfl⟩⟩
    rintro proxy number item (at_ | at_) <;> cases at_

end Good

def someJob : Job := ⟨⟨0, 0⟩, .read, fun _ => 0⟩

def untouched : State := initial none (fun _ => none) (fun _ => someJob) (fun _ => 0)

def through (job : Job) : List Label :=
  [.call 0 0 job, .append 0, .create 0, .count 0, .test 0, .process 0, .make 0 0, .requeue 0]

end Qthreads.Io
