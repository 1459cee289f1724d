import Qthreads.Dict.Simple

namespace Qthreads.Dict.Simple

open Lib
open Function (update update_of_ne update_self)

variable {keys : KeyOps} {s after : Shared} {me t : Nat} {put : Put} {head stop walk : Option Addr}
  {entry toadd : Addr} {pc next : Pc} {label : Label}

structure Steady (t : Nat) (s after : Shared) : Prop where
  lists : ∀ b, s.lists b <:+ after.lists b
  listed : ∀ a, s.owner a = .listed → after.key a = s.key a
  mine : ∀ a, s.owner a = .task t → after.hashedKey a = s.hashedKey a ∧ after.key a = s.key a ∧
    after.value a = s.value a ∧ after.next a = s.next a
  owned : ∀ a, after.owner a = .task t ↔ s.owner a = .task t

namespace Steady

variable (steady : Steady t s after) (good : Good keys s)

include steady good

theorem key_eq {entries : List Addr} {b : Nat} (inside : entries <:+ s.lists b) {a : Addr}
    (member : a ∈ entries) : after.key a = s.key a :=
  steady.listed a ((good.listed a).mpr ⟨b, inside.subset member⟩)

theorem lacks {entries : List Addr} {b : Nat} (inside : entries <:+ s.lists b)
    (lacks : Lacks keys s put entries) : Lacks keys after put entries := by
  intro a member
  rw [steady.key_eq good inside member]
  exact lacks a member

theorem scanned (scanned : Scanned keys s put head) : Scanned keys after put head := by
  obtain ⟨entries, inside, first, lacks⟩ := scanned
  exact ⟨entries, inside.trans (steady.lists _), first, steady.lacks good inside lacks⟩

theorem scanning (scanning : Scanning keys s put head stop walk) :
    Scanning keys after put head stop walk := by
  obtain ⟨seen, rest, old, inside, first, here, part, last, lacksSeen, lacksOld⟩ := scanning
  have oldInside : old <:+ s.lists (put.bucket keys) :=
    (part.trans (List.suffix_append seen rest)).trans inside
  refine ⟨seen, rest, old, inside.trans (steady.lists _), first, here, part, last, ?_,
    steady.lacks good oldInside lacksOld⟩
  intro a member
  rw [steady.key_eq good inside (List.mem_append_left _ member)]
  exact lacksSeen a member

theorem hit (hit : Hit keys s put entry) : Hit keys after put entry := by
  refine ⟨(steady.lists _).subset hit.1, ?_⟩
  rw [steady.key_eq good (List.suffix_refl _) hit.1]
  exact hit.2

theorem present (present : Present keys s put) : Present keys after put := by
  obtain ⟨entry, hit⟩ := present
  exact ⟨entry, steady.hit good hit⟩

omit good in
theorem ready (mine : s.owner toadd = .task t) (ready : Ready keys s put head toadd) :
    Ready keys after put head toadd := by
  obtain ⟨hashed, key, value, next⟩ := steady.mine toadd mine
  exact ⟨hashed.trans ready.1, key.trans ready.2.1, value.trans ready.2.2.1, next.trans ready.2.2.2⟩

theorem place (own : Own keys t s pc) : Place keys after pc := by
  have here := own.place
  cases pc with
  | walk put head stop walk toadd =>
    refine ⟨steady.scanning good here.1, ?_⟩
    intro a mine
    exact steady.ready ((own.mine a).mpr mine) (here.2 a mine)
  | found put entry toadd => exact steady.hit good here
  | readValue put entry => exact ⟨here.1, steady.hit good here.2⟩
  | casValue put entry crtVal => exact ⟨here.1, steady.hit good here.2⟩
  | load put entry => exact steady.hit good here
  | create put head => exact steady.scanned good here
  | casHead put head toadd =>
    exact ⟨steady.scanned good here.1, steady.ready ((own.mine toadd).mpr rfl) here.2⟩
  | reread put head toadd =>
    exact ⟨steady.scanned good here.1, steady.ready ((own.mine toadd).mpr rfl) here.2⟩
  | done put result => exact steady.present good here
  | idle => trivial
  | start put => trivial
  | noMemory put => trivial

theorem own (own : Own keys t s pc) : Own keys t after pc :=
  ⟨fun a => (steady.owned a).trans (own.mine a), steady.place good own⟩

end Steady

theorem Steady.refl (t : Nat) (s : Shared) : Steady t s s :=
  ⟨fun _ => List.suffix_refl _, fun _ _ => rfl, fun _ _ => ⟨rfl, rfl, rfl, rfl⟩, fun _ => .rfl⟩

theorem owned_of_update {owner : Owner} (changed : after.owner = update s.owner toadd owner)
    (before : s.owner toadd ≠ .task t) (later : owner ≠ .task t) (a : Addr) :
    after.owner a = .task t ↔ s.owner a = .task t := by
  rw [changed]
  by_cases same : a = toadd
  · subst same
    rw [update_self]
    exact iff_of_false later before
  · rw [update_of_ne same]

theorem steady_setValue (listed : s.owner entry = .listed) (value : UInt64) (t : Nat) :
    Steady t s (s.setValue entry value) := by
  refine ⟨fun _ => List.suffix_refl _, fun _ _ => rfl, ?_, fun _ => .rfl⟩
  intro a mine
  refine ⟨rfl, rfl, update_of_ne ?_ .., rfl⟩
  rintro rfl
  rw [listed] at mine
  cases mine

theorem steady_setNext (other : t ≠ me) (owner : s.owner toadd = .task me) (next : Option Addr) :
    Steady t s (s.setNext toadd next) := by
  refine ⟨fun _ => List.suffix_refl _, fun _ _ => rfl, ?_, fun _ => .rfl⟩
  intro a mine
  refine ⟨rfl, rfl, rfl, update_of_ne ?_ ..⟩
  rintro rfl
  rw [owner] at mine
  exact other (Owner.task.inj mine).symm

theorem steady_release {toadd : Option Addr} (other : t ≠ me)
    (owner : ∀ a, toadd = some a → s.owner a = .task me) : Steady t s (s.release toadd) := by
  cases toadd with
  | none => exact .refl t s
  | some a =>
    refine ⟨fun _ => List.suffix_refl _, fun _ _ => rfl, fun _ _ => ⟨rfl, rfl, rfl, rfl⟩, ?_⟩
    refine owned_of_update rfl ?_ (by simp)
    rw [owner a rfl]
    simpa using other.symm

theorem steady_fill (other : t ≠ me) (free : s.owner toadd = .free) (hash : Int32) :
    Steady t s (s.fill me toadd hash put head) := by
  have apart : ∀ a, s.owner a ≠ .free → a ≠ toadd := by
    rintro a taken rfl
    exact taken free
  refine ⟨fun _ => List.suffix_refl _, ?_, ?_, ?_⟩
  · intro a listed
    exact update_of_ne (apart a (by simp [listed])) ..
  · intro a mine
    have differs := apart a (by simp [mine])
    exact ⟨update_of_ne differs .., update_of_ne differs ..,
      update_of_ne differs .., update_of_ne differs ..⟩
  · exact owned_of_update rfl (by simp [free]) (by simpa using other.symm)

theorem lists_insert (b bucket : Nat) : s.lists b <:+ (s.insert bucket toadd).lists b := by
  by_cases same : b = bucket
  · subst same
    simp only [Shared.insert, update_self]
    exact List.suffix_cons _ _
  · simp only [Shared.insert, update_of_ne same]
    exact List.suffix_refl _

theorem steady_insert (other : t ≠ me) (owner : s.owner toadd = .task me) (bucket : Nat) :
    Steady t s (s.insert bucket toadd) := by
  refine ⟨fun b => lists_insert b bucket, fun _ _ => rfl, fun _ _ => ⟨rfl, rfl, rfl, rfl⟩, ?_⟩
  refine owned_of_update rfl ?_ (by simp)
  rw [owner]
  simpa using other.symm

theorem Good.setNext (good : Good keys s) (owner : s.owner toadd = .task me) (next : Option Addr) :
    Good keys (s.setNext toadd next) := by
  refine ⟨?_, good.once, good.listed, good.hashed, good.distinct⟩
  intro b
  refine (good.chain b).congr ?_
  intro a member
  refine update_of_ne ?_ ..
  rintro rfl
  have listed := (good.listed a).mpr ⟨b, member⟩
  rw [owner] at listed
  cases listed

theorem Good.of_owner (good : Good keys s) {owner : Owner} (before : s.owner toadd ≠ .listed)
    (later : owner ≠ .listed) : Good keys { s with owner := update s.owner toadd owner } := by
  refine ⟨good.chain, good.once, ?_, good.hashed, good.distinct⟩
  intro a
  rw [← good.listed a]
  by_cases same : a = toadd
  · subst same
    simp only [update_self]
    exact iff_of_false later before
  · simp only [update_of_ne same]

theorem Good.release (good : Good keys s) {toadd : Option Addr}
    (owner : ∀ a, toadd = some a → s.owner a = .task me) : Good keys (s.release toadd) := by
  cases toadd with
  | none => exact good
  | some a => exact good.of_owner (by simp [owner a rfl]) (by simp)

theorem Good.fill (good : Good keys s) (free : s.owner toadd = .free) (hash : Int32) :
    Good keys (s.fill me toadd hash put head) := by
  have apart : ∀ {b a}, a ∈ s.lists b → a ≠ toadd := by
    rintro b a member rfl
    have listed := (good.listed a).mpr ⟨b, member⟩
    rw [free] at listed
    cases listed
  constructor
  case chain =>
    intro b
    refine (good.chain b).congr ?_
    intro a member
    exact update_of_ne (apart member) ..
  case once => exact good.once
  case listed => exact (good.of_owner (by simp [free]) (by simp)).listed
  case hashed =>
    intro b a member
    simp only [Shared.fill, update_of_ne (apart member)]
    exact good.hashed b a member
  case distinct =>
    intro b
    refine (good.distinct b).imp_of_mem ?_
    intro a c first second differ
    simp only [Shared.fill, update_of_ne (apart first), update_of_ne (apart second)]
    exact differ

theorem suffix_eq_of_head {entries list : List Addr} (once : list.Nodup) (inside : entries <:+ list)
    (same : entries.head? = list.head?) : entries = list := by
  obtain ⟨front, whole⟩ := inside
  cases front with
  | nil => exact whole
  | cons first front =>
    subst whole
    cases entries with
    | nil => cases same
    | cons second entries =>
      cases same
      exact absurd (List.mem_append_right _ List.mem_cons_self) (List.nodup_cons.mp once).1

theorem Scanned.all (good : Good keys s) (scanned : Scanned keys s put head)
    (same : s.content (put.bucket keys) = head) : Lacks keys s put (s.lists (put.bucket keys)) := by
  obtain ⟨entries, inside, first, lacks⟩ := scanned
  have whole : entries = s.lists (put.bucket keys) := by
    refine suffix_eq_of_head (good.once _) inside ?_
    rw [first, ← same]
    exact (good.chain _).head
  rw [← whole]
  exact lacks

theorem Good.insert (good : Good keys s) (owner : s.owner toadd = .task me)
    (ready : Ready keys s put head toadd) (same : s.content (put.bucket keys) = head)
    (lacks : Lacks keys s put (s.lists (put.bucket keys))) :
    Good keys (s.insert (put.bucket keys) toadd) := by
  obtain ⟨hashed, key, value, next⟩ := ready
  have apart : ∀ {b a}, a ∈ s.lists b → a ≠ toadd := by
    rintro b a member rfl
    have listed := (good.listed a).mpr ⟨b, member⟩
    rw [owner] at listed
    cases listed
  have here : (s.insert (put.bucket keys) toadd).lists (put.bucket keys) =
      toadd :: s.lists (put.bucket keys) := update_self ..
  have there : ∀ b, b ≠ put.bucket keys →
      (s.insert (put.bucket keys) toadd).lists b = s.lists b :=
    fun b other => update_of_ne other ..
  constructor
  case chain =>
    intro b
    by_cases bucket : b = put.bucket keys
    · subst bucket
      rw [here]
      refine ⟨update_self .., ?_⟩
      have rest := good.chain (put.bucket keys)
      rw [same, ← next] at rest
      exact rest
    · rw [there b bucket]
      have content : (s.insert (put.bucket keys) toadd).content b = s.content b :=
        update_of_ne bucket ..
      rw [content]
      exact good.chain b
  case once =>
    intro b
    by_cases bucket : b = put.bucket keys
    · subst bucket
      rw [here]
      exact List.nodup_cons.mpr ⟨fun member => apart member rfl, good.once _⟩
    · rw [there b bucket]
      exact good.once b
  case listed =>
    intro a
    by_cases new : a = toadd
    · subst new
      simp only [Shared.insert, update_self, true_iff]
      exact ⟨put.bucket keys, by rw [update_self]; exact List.mem_cons_self⟩
    · simp only [Shared.insert, update_of_ne new]
      rw [good.listed a]
      refine exists_congr fun b => ?_
      by_cases bucket : b = put.bucket keys
      · subst bucket
        simp only [update_self, List.mem_cons, new, false_or]
      · simp only [update_of_ne bucket]
  case hashed =>
    intro b a member
    by_cases bucket : b = put.bucket keys
    · subst bucket
      rw [here, List.mem_cons] at member
      rcases member with rfl | old
      · refine ⟨?_, ?_⟩
        · exact hashed.trans (congrArg (fun k => widen (keys.opHash k)) key.symm)
        · exact congrArg (fun k => getBucket (keys.opHash k)) key
      · exact good.hashed _ a old
    · rw [there b bucket] at member
      exact good.hashed b a member
  case distinct =>
    intro b
    by_cases bucket : b = put.bucket keys
    · subst bucket
      rw [here]
      refine List.pairwise_cons.mpr ⟨?_, good.distinct _⟩
      intro c member
      have differ := lacks c member
      rw [← Bool.not_eq_true] at differ ⊢
      intro equal
      apply differ
      apply keys.symm
      have newKey : (s.insert (put.bucket keys) toadd).key toadd = put.key := key
      rw [newKey] at equal
      exact equal
    · rw [there b bucket]
      exact good.distinct b

theorem next_of_suffix {rest : List Addr} {b : Nat} (good : Good keys s)
    (inside : entry :: rest <:+ s.lists b) : s.next entry = rest.head? := by
  obtain ⟨front, whole⟩ := inside
  have chain := good.chain b
  rw [← whole] at chain
  obtain ⟨middle, _, back⟩ := Chain.append.mp chain
  exact back.2.head

theorem equals_of_matching (matched : matching keys s put entry = true) :
    keys.opEquals (s.key entry) put.key = true := by
  rw [matching, Bool.and_eq_true] at matched
  exact matched.2

theorem differs_of_not_matching {b : Nat} (good : Good keys s) (member : entry ∈ s.lists b)
    (unmatched : matching keys s put entry = false) :
    keys.opEquals (s.key entry) put.key = false := by
  rw [← Bool.not_eq_true]
  intro equal
  have hashed : s.hashedKey entry = widen (put.hash keys) := by
    rw [(good.hashed b entry member).1, keys.sameHash _ _ equal]
    rfl
  rw [matching, hashed, equal] at unmatched
  simp at unmatched

theorem Good.scanning_start (good : Good keys s) (head : Option Addr)
    (old : Scanned keys s put head) :
    Scanning keys s put (s.content (put.bucket keys)) head (s.content (put.bucket keys)) := by
  obtain ⟨entries, inside, first, lacks⟩ := old
  have start := (good.chain (put.bucket keys)).head.symm
  exact ⟨[], s.lists (put.bucket keys), entries, List.suffix_refl _, start, start, inside, first,
    fun _ member => absurd member List.not_mem_nil, lacks⟩

theorem scanned_none (s : Shared) (put : Put) : Scanned keys s put none :=
  ⟨[], List.nil_suffix, rfl, fun _ member => absurd member List.not_mem_nil⟩

theorem Scanning.hit (scanning : Scanning keys s put head stop (some entry))
    (matched : matching keys s put entry = true) : Hit keys s put entry := by
  obtain ⟨seen, rest, old, inside, _, here, _⟩ := scanning
  refine ⟨inside.subset ?_, equals_of_matching matched⟩
  exact List.mem_append_right _ (List.mem_of_mem_head? here)

theorem Scanning.miss (good : Good keys s) (scanning : Scanning keys s put head stop (some entry))
    (on : some entry ≠ stop) (unmatched : matching keys s put entry = false) :
    Scanning keys s put head stop (s.next entry) := by
  obtain ⟨seen, rest, old, inside, first, here, part, last, lacksSeen, lacksOld⟩ := scanning
  obtain ⟨later, rfl⟩ : ∃ later, rest = entry :: later := List.head?_eq_some_iff.mp here
  have follows : s.next entry = later.head? :=
    next_of_suffix good ((List.suffix_append seen _).trans inside)
  have oldLater : old <:+ later := by
    rcases List.suffix_cons_iff.mp part with whole | shorter
    · subst whole
      exact absurd last on
    · exact shorter
  have split : seen ++ [entry] ++ later = seen ++ entry :: later := by simp
  refine ⟨seen ++ [entry], later, old, split ▸ inside, split ▸ first, follows.symm, oldLater, last,
    ?_, lacksOld⟩
  intro a member
  rcases List.mem_append.mp member with before | now
  · exact lacksSeen a before
  · cases List.mem_singleton.mp now
    have listed : entry ∈ s.lists (put.bucket keys) :=
      inside.subset (List.mem_append_right _ List.mem_cons_self)
    exact differs_of_not_matching good listed unmatched

theorem Scanning.scanned (good : Good keys s) (scanning : Scanning keys s put head stop walk)
    (beyond : walk = stop ∨ walk = none) : Scanned keys s put head := by
  obtain ⟨seen, rest, old, inside, first, here, part, last, lacksSeen, lacksOld⟩ := scanning
  have whole : old = rest := by
    rcases beyond with atStop | atEnd
    · refine suffix_eq_of_head ?_ part (last.trans (atStop.symm.trans here.symm))
      have once := inside.sublist.nodup (good.once (put.bucket keys))
      exact (List.nodup_append.mp once).2.1
    · rw [atEnd, List.head?_eq_none_iff] at here
      subst here
      exact List.suffix_nil.mp part
  subst whole
  refine ⟨seen ++ old, inside, first, ?_⟩
  intro a member
  rcases List.mem_append.mp member with before | later
  · exact lacksSeen a before
  · exact lacksOld a later

structure Moved (keys : KeyOps) (me : Nat) (s after : Shared) (next : Pc) : Prop where
  good : Good keys after
  own : Own keys me after next
  steady : ∀ t, t ≠ me → Steady t s after

theorem Moved.read (good : Good keys s) (own : Own keys me s pc) (toadd : next.toadd = pc.toadd)
    (place : Place keys s next) : Moved keys me s s next :=
  ⟨good, ⟨fun a => by rw [toadd]; exact own.mine a, place⟩, fun t _ => .refl t s⟩

theorem mine_of_release {toadd : Option Addr} (own : ∀ a, s.owner a = .task me ↔ toadd = some a)
    (a : Addr) : (s.release toadd).owner a ≠ .task me := by
  cases toadd with
  | none =>
    intro mine
    cases (own a).mp mine
  | some b =>
    simp only [Shared.release]
    by_cases same : a = b
    · subst same
      simp
    · rw [update_of_ne same]
      intro mine
      exact same (Option.some.inj ((own a).mp mine)).symm

theorem Hit.release {toadd : Option Addr} (hit : Hit keys s put entry) :
    Hit keys (s.release toadd) put entry := by
  cases toadd <;> exact hit

section

variable (good : Good keys s)
include good

theorem moved_found {toadd : Option Addr} (own : Own keys me s (.found put entry toadd)) :
    Moved keys me s (s.release toadd) (put.onFound entry) := by
  have hit : Hit keys s put entry := own.place
  have owner : ∀ a, toadd = some a → s.owner a = .task me := fun a here => (own.mine a).mpr here
  refine ⟨good.release owner, ⟨?_, ?_⟩, fun t other => steady_release other owner⟩
  · intro a
    have absent : (put.onFound entry).toadd = none := by
      unfold Put.onFound
      cases put.type <;> rfl
    rw [absent]
    exact iff_of_false (mine_of_release own.mine a) (by simp)
  · unfold Put.onFound
    cases type : put.type with
    | always => exact ⟨type, hit.release⟩
    | ifAbsent => exact hit.release

theorem moved_malloc (own : Own keys me s (.create put head)) (free : s.owner toadd = .free) :
    Moved keys me s (s.fill me toadd (put.hash keys) put head) (.casHead put head toadd) := by
  have scanned : Scanned keys s put head := own.place
  have apart : ∀ a, s.owner a = .listed → a ≠ toadd := by
    rintro a listed rfl
    rw [free] at listed
    cases listed
  refine ⟨good.fill free _, ⟨?_, ?_, ?_⟩, fun t other => steady_fill other free _⟩
  · intro a
    by_cases same : a = toadd
    · subst same
      simp [Shared.fill, Pc.toadd]
    · simp only [Shared.fill, update_of_ne same, Pc.toadd, Option.some.injEq]
      rw [own.mine a]
      exact iff_of_false (by simp [Pc.toadd]) (Ne.symm same)
  · obtain ⟨entries, inside, first, lacks⟩ := scanned
    refine ⟨entries, inside, first, ?_⟩
    intro a member
    have listed := (good.listed a).mpr ⟨_, inside.subset member⟩
    simp only [Shared.fill, update_of_ne (apart a listed)]
    exact lacks a member
  · simp only [Ready, Shared.fill, update_self, and_self]

theorem moved_insert (own : Own keys me s (.casHead put head toadd))
    (same : s.content (put.bucket keys) = head) :
    Moved keys me s (s.insert (put.bucket keys) toadd) (.done put put.value) := by
  obtain ⟨scanned, ready⟩ := own.place
  have owner : s.owner toadd = .task me := (own.mine toadd).mpr rfl
  refine ⟨good.insert owner ready same (scanned.all good same), ⟨?_, ?_⟩,
    fun t other => steady_insert other owner _⟩
  · intro a
    by_cases new : a = toadd
    · subst new
      simp [Shared.insert, Pc.toadd]
    · simp only [Shared.insert, update_of_ne new, Pc.toadd]
      rw [own.mine a]
      exact iff_of_false (fun mine => new (Option.some.inj mine).symm) (by simp)
  · refine ⟨toadd, ?_, ?_⟩
    · simp only [Shared.insert, update_self]
      exact List.mem_cons_self
    · have key : (s.insert (put.bucket keys) toadd).key toadd = put.key := ready.2.1
      rw [key]
      exact keys.refl put.key

theorem moved_reread (own : Own keys me s (.reread put head toadd)) :
    Moved keys me s (s.setNext toadd (s.content (put.bucket keys)))
      (.walk put (s.content (put.bucket keys)) head (s.content (put.bucket keys)) (some toadd)) := by
  obtain ⟨scanned, hashed, key, value, _⟩ := own.place
  have owner : s.owner toadd = .task me := (own.mine toadd).mpr rfl
  refine ⟨good.setNext owner _, ⟨own.mine, good.scanning_start head scanned, ?_⟩,
    fun t other => steady_setNext other owner _⟩
  rintro a ⟨⟩
  exact ⟨hashed, key, value, update_self ..⟩

theorem moved_casValue {crtVal : UInt64} (own : Own keys me s (.casValue put entry crtVal)) :
    Moved keys me s (s.setValue entry put.value) (.load put entry) := by
  obtain ⟨_, hit⟩ := own.place
  have listed : s.owner entry = .listed := (good.listed entry).mpr ⟨_, hit.1⟩
  refine ⟨?_, ⟨own.mine, hit⟩, fun t _ => steady_setValue listed _ t⟩
  exact ⟨good.chain, good.once, good.listed, good.hashed, good.distinct⟩

theorem moved (own : Own keys me s pc)
    (acted : Act keys me s pc label after next) : Moved keys me s after next := by
  cases acted with
  | call put => exact .read good own rfl trivial
  | readHead =>
    exact .read good own rfl ⟨good.scanning_start none (scanned_none s _), fun _ no => nomatch no⟩
  | hit on matched => exact .read good own rfl (own.place.1.hit matched)
  | miss on unmatched =>
    exact .read good own rfl ⟨own.place.1.miss good on unmatched, own.place.2⟩
  | scanned beyond => exact .read good own rfl (own.place.1.scanned good beyond)
  | rescanned beyond =>
    exact .read good own rfl ⟨own.place.1.scanned good beyond, own.place.2 _ rfl⟩
  | found => exact moved_found good own
  | readValue => exact .read good own rfl own.place
  | casValue same => exact moved_casValue good own
  | casValueFail differs => exact .read good own rfl own.place
  | load => exact .read good own rfl ⟨_, own.place⟩
  | malloc toadd free => exact moved_malloc good own free
  | noMemory => exact .read good own rfl trivial
  | insert same => exact moved_insert good own same
  | insertFail differs => exact .read good own rfl own.place
  | reread => exact moved_reread good own
  | ret => exact .read good own rfl trivial
  | retFailed => exact .read good own rfl trivial

end

abbrev System := Config Shared Pc

abbrev Invariant (keys : KeyOps) : System → Prop := Config.Holds (Good keys) (Own keys)

theorem respects : Config.Respects (Act keys) (Good keys) (Own keys) where
  keeps := by
    intro me before after mine next label good own acted
    exact ⟨(moved good own acted).good, (moved good own acted).own⟩
  stable := by
    intro me t before after mine next theirs label other good own theirOwn acted
    exact ((moved good own acted).steady t other).own good theirOwn

variable {first middle last : System} {labels more : List (Nat × Label)} {k : UInt64}

/-- A dictionary with nobody in it: as it was created, or as earlier calls have left it. -/
structure WellFormed (keys : KeyOps) (config : System) : Prop where
  good : Good keys config.shared
  idle : ∀ t, config.tasks t = .idle
  noOwner : ∀ a t, config.shared.owner a ≠ .task t

theorem WellFormed.invariant (wellFormed : WellFormed keys first) : Invariant keys first := by
  refine ⟨wellFormed.good, fun t => ?_⟩
  rw [wellFormed.idle t]
  exact ⟨fun a => iff_of_false (wellFormed.noOwner a t) (by simp [Pc.toadd]), trivial⟩

theorem created_wellFormed : WellFormed keys ⟨.create, fun _ => .idle⟩ := by
  refine ⟨⟨fun _ => rfl, fun _ => List.nodup_nil, ?_, ?_, fun _ => .nil⟩, fun _ => rfl, ?_⟩
  · intro a
    simp [Shared.create]
  · intro b a member
    cases member
  · intro a t
    simp [Shared.create]

def Bucket (s : Shared) (b : Nat) (entries : List Addr) : Prop :=
  Chain s.next (s.content b) entries none

section

variable (holds : Invariant keys first) (run : Run (Step keys) first labels last)
include holds run

theorem lists_suffix (b : Nat) : first.shared.lists b <:+ last.shared.lists b := by
  induction run with
  | nil => exact List.suffix_refl _
  | cons taken _ ih =>
    have grows := ih (holds.step respects taken)
    cases taken with
    | @move me label shared mine acted =>
      have steady := (moved holds.shared (holds.tasks me) acted).steady (me + 1) (by omega)
      exact (steady.lists b).trans grows

theorem bucket_suffix (b : Nat) {entries : List Addr} (old : Bucket first.shared b entries) :
    entries <:+ last.shared.lists b := by
  rw [old.unique (holds.shared.chain b)]
  exact lists_suffix holds run b

theorem present_run (present : Present keys first.shared put) : Present keys last.shared put := by
  induction run with
  | nil => exact present
  | cons taken _ ih =>
    refine ih (holds.step respects taken) ?_
    cases taken with
    | @move me label shared mine acted =>
      have steady := (moved holds.shared (holds.tasks me) acted).steady (me + 1) (by omega)
      exact steady.present holds.shared present

end

variable {result : UInt64}

theorem present_of_returned (holds : Invariant keys first)
    (run : Run (Step keys) first labels last) (returned : (t, .ret put result) ∈ labels) :
    Present keys last.shared put := by
  induction run with
  | nil => cases returned
  | @cons before next after label labels taken rest ih =>
    have kept := holds.step respects taken
    rcases List.mem_cons.mp returned with now | later
    · cases now
      refine present_run kept rest ?_
      cases taken with
      | @move _ _ shared mine acted =>
        have own := holds.tasks t
        generalize here : before.tasks t = pc at acted
        rw [here] at own
        cases acted with
        | ret => exact own.place
    · exact ih kept later

/-- The call is no `qt_dictionary_put` on the key. -/
def Spares (keys : KeyOps) (k : UInt64) (put : Put) : Prop :=
  put.type = .always → keys.opEquals put.key k = false

/-- No `qt_dictionary_put` on the key is going on. -/
def Quiet (keys : KeyOps) (k : UInt64) (config : System) : Prop :=
  ∀ t put, (config.tasks t).request = some put → Spares keys k put

def Bound (keys : KeyOps) (s : Shared) (k value : UInt64) : Prop :=
  ∃ b entry, entry ∈ s.lists b ∧ keys.opEquals (s.key entry) k = true ∧ s.value entry = value

theorem put_of_act (acted : Act keys me s pc label after next) :
    next.request = none ∨ next.request = pc.request ∨ ∃ put, label = .call put ∧ next.request = some put := by
  cases acted with
  | call put => exact .inr (.inr ⟨put, rfl, rfl⟩)
  | ret => exact .inl rfl
  | retFailed => exact .inl rfl
  | @found put entry toadd =>
    refine .inr (.inl ?_)
    unfold Put.onFound
    cases put.type <;> rfl
  | _ => exact .inr (.inl rfl)

theorem Quiet.step (quiet : Quiet keys k first) (taken : Step keys first (me, label) middle)
    (spares : ∀ put, label = .call put → Spares keys k put) : Quiet keys k middle := by
  cases taken with
  | @move _ _ shared mine acted =>
    intro t put here
    by_cases same : t = me
    · subst same
      simp only [update_self] at here
      rcases put_of_act acted with absent | kept | ⟨called, call, new⟩
      · rw [here] at absent
        cases absent
      · exact quiet t put (kept ▸ here)
      · rw [here] at new
        cases new
        exact spares put call
    · simp only [update_of_ne same] at here
      exact quiet t put here

theorem Bound.unique (good : Good keys s) {one two : UInt64} (left : Bound keys s k one)
    (right : Bound keys s k two) : one = two := by
  obtain ⟨b, a, member, equal, rfl⟩ := left
  obtain ⟨b', a', member', equal', rfl⟩ := right
  have together : keys.opEquals (s.key a) (s.key a') = true :=
    keys.trans _ _ _ equal (keys.symm _ _ equal')
  have bucket : b = b' := by
    rw [← (good.hashed b a member).2, ← (good.hashed b' a' member').2, keys.sameHash _ _ together]
  subst bucket
  have apart : ∀ x y, x ∈ s.lists b → y ∈ s.lists b → x ≠ y →
      keys.opEquals (s.key x) (s.key y) = false := by
    have symmetric : Std.Symm fun x y => keys.opEquals (s.key x) (s.key y) = false := by
      refine ⟨fun x y different => ?_⟩
      rw [← Bool.not_eq_true] at different ⊢
      exact fun equal => different (keys.symm _ _ equal)
    intro x y inX inY differ
    exact (good.distinct b).forall inX inY differ
  by_contra differ
  have entries : a ≠ a' := by
    rintro rfl
    exact differ rfl
  rw [apart a a' member member' entries] at together
  cases together

variable {value : UInt64}

theorem Bound.step (good : Good keys s) (own : Own keys me s pc)
    (spares : ∀ put, pc.request = some put → Spares keys k put) (bound : Bound keys s k value)
    (acted : Act keys me s pc label after next) : Bound keys after k value := by
  obtain ⟨b, entry, member, equal, rfl⟩ := bound
  have listed : s.owner entry = .listed := (good.listed entry).mpr ⟨b, member⟩
  cases acted with
  | @casValue put other crtVal same =>
    obtain ⟨type, hit⟩ := own.place
    have apart : entry ≠ other := by
      rintro rfl
      have clash := spares put rfl type
      rw [keys.trans _ _ _ (keys.symm _ _ hit.2) equal] at clash
      cases clash
    exact ⟨b, entry, member, equal, update_of_ne apart ..⟩
  | @found put other toadd => cases toadd <;> exact ⟨b, entry, member, equal, rfl⟩
  | malloc toadd free =>
    have apart : entry ≠ toadd := by
      rintro rfl
      rw [free] at listed
      cases listed
    refine ⟨b, entry, member, ?_, update_of_ne apart ..⟩
    simp only [Shared.fill, update_of_ne apart]
    exact equal
  | insert same => exact ⟨b, entry, (lists_insert b _).subset member, equal, rfl⟩
  | _ => exact ⟨b, entry, member, equal, rfl⟩

theorem Bound.move (holds : Invariant keys first) (quiet : Quiet keys k first)
    (bound : Bound keys first.shared k value) (taken : Step keys first (me, label) middle) :
    Bound keys middle.shared k value := by
  cases taken with
  | move acted => exact bound.step holds.shared (holds.tasks me) (quiet me) acted

theorem Bound.run (holds : Invariant keys first) (quiet : Quiet keys k first)
    (spares : ∀ t put, (t, .call put) ∈ labels → Spares keys k put)
    (bound : Bound keys first.shared k value) (run : Run (Step keys) first labels last) :
    Bound keys last.shared k value := by
  induction run with
  | nil => exact bound
  | @cons before next after label labels taken _ ih =>
    obtain ⟨me, label⟩ := label
    have quietNext : Quiet keys k next :=
      quiet.step taken fun put call => spares me put (call ▸ List.mem_cons_self)
    exact ih (holds.step respects taken) quietNext
      (fun t put member => spares t put (List.mem_cons_of_mem _ member))
      (bound.move holds quiet taken)

theorem bound_of_done (own : Own keys me s pc) (equal : keys.opEquals put.key k = true)
    (acted : Act keys me s pc label after (.done put result)) : Bound keys after k result := by
  generalize target : Pc.done put result = next at acted
  cases acted with
  | @load mine entry =>
    cases target
    have hit : Hit keys s put entry := own.place
    exact ⟨_, entry, hit.1, keys.trans _ _ _ hit.2 equal, rfl⟩
  | @insert mine head toadd same =>
    cases target
    obtain ⟨_, _, key, value, _⟩ := own.place
    have member : toadd ∈ (s.insert (put.bucket keys) toadd).lists (put.bucket keys) := by
      simp only [Shared.insert, update_self]
      exact List.mem_cons_self
    have newKey : (s.insert (put.bucket keys) toadd).key toadd = put.key := key
    exact ⟨_, toadd, member, by rw [newKey]; exact equal, value⟩
  | @found mine entry toadd =>
    unfold Put.onFound at target
    cases type : mine.type with
    | always =>
      rw [type] at target
      cases target
    | ifAbsent =>
      rw [type] at target
      cases target
  | _ => cases target

def Settled (keys : KeyOps) (k : UInt64) (since : Nat → Prop) (config : System) : Prop :=
  ∀ t, since t → ∀ put result, config.tasks t = .done put result → keys.opEquals put.key k = true →
    Bound keys config.shared k result

theorem Settled.step {since : Nat → Prop} (settled : Settled keys k since first)
    (holds : Invariant keys first) (quiet : Quiet keys k first)
    (taken : Step keys first (me, label) middle) :
    Settled keys k (fun t => since t ∨ ∃ put, (t, Label.call put) = (me, label)) middle := by
  have stays : ∀ {value}, Bound keys first.shared k value → Bound keys middle.shared k value :=
    fun bound => bound.move holds quiet taken
  cases taken with
  | @move _ _ shared mine acted =>
    intro t called put result here equal
    by_cases same : t = me
    · subst same
      simp only [update_self] at here
      subst here
      exact bound_of_done (holds.tasks t) equal acted
    · simp only [update_of_ne same] at here
      rcases called with before | ⟨_, now⟩
      · exact stays (settled t before put result here equal)
      · exact absurd (Prod.mk.inj now).1 same

theorem bound_of_returned {since : Nat → Prop} (holds : Invariant keys first)
    (quiet : Quiet keys k first) (spares : ∀ t put, (t, .call put) ∈ labels → Spares keys k put)
    (settled : Settled keys k since first) (run : Run (Step keys) first labels last)
    {front back : List (Nat × Label)} (split : labels = front ++ (t, .ret put result) :: back)
    (equal : keys.opEquals put.key k = true) (called : since t ∨ ∃ put, (t, .call put) ∈ front) :
    Bound keys last.shared k result := by
  induction run generalizing since front with
  | nil => simp at split
  | @cons before next after label labels taken rest ih =>
    obtain ⟨me, label⟩ := label
    have kept := holds.step respects taken
    have quietNext : Quiet keys k next :=
      quiet.step taken fun put call => spares me put (call ▸ List.mem_cons_self)
    have sparesRest : ∀ t put, (t, Label.call put) ∈ labels → Spares keys k put :=
      fun t put member => spares t put (List.mem_cons_of_mem _ member)
    cases front with
    | nil =>
      cases split
      have called : since t := called.resolve_right (by simp)
      refine Bound.run kept quietNext sparesRest ?_ rest
      refine Bound.move holds quiet ?_ taken
      cases taken with
      | @move _ _ shared mine acted =>
        generalize here : before.tasks t = pc at acted
        cases acted with
        | ret => exact settled t called put result here equal
    | cons label front =>
      cases split
      refine ih kept quietNext sparesRest (settled.step holds quiet taken) rfl ?_
      rcases called with early | ⟨call, member⟩
      · exact .inl (.inl early)
      · rcases List.mem_cons.mp member with now | later
        · exact .inl (.inr ⟨call, now⟩)
        · exact .inr ⟨call, later⟩

def ReturnedIn (keys : KeyOps) (k : UInt64) (labels : List (Nat × Label)) (result : UInt64) : Prop :=
  ∃ front t put back, labels = front ++ (t, .ret put result) :: back ∧
    keys.opEquals put.key k = true ∧ ∃ call, (t, .call call) ∈ front

theorem put_helper_concurrent (start : WellFormed keys first) (run : Run (Step keys) first labels middle)
    (segment : Run (Step keys) middle more last) :
    (∀ b, ∃ entries, Bucket last.shared b entries ∧
      entries.Pairwise (fun a c => keys.opEquals (last.shared.key a) (last.shared.key c) = false) ∧
      ∀ old, Bucket middle.shared b old → old <:+ entries) ∧
    (∀ t put result, (t, .ret put result) ∈ labels ++ more →
      ∃ entries entry, Bucket last.shared (put.bucket keys) entries ∧ entry ∈ entries ∧
        keys.opEquals (last.shared.key entry) put.key = true) ∧
    ∀ k, Quiet keys k middle → (∀ t put, (t, .call put) ∈ more → Spares keys k put) →
      ∀ one two, ReturnedIn keys k more one → ReturnedIn keys k more two → one = two := by
  have before : Invariant keys middle := Config.Holds.run respects run start.invariant
  have holds : Invariant keys last := Config.Holds.run respects segment before
  refine ⟨?_, ?_, ?_⟩
  · intro b
    exact ⟨last.shared.lists b, holds.shared.chain b, holds.shared.distinct b,
      fun old there => bucket_suffix before segment b there⟩
  · intro t put result returned
    obtain ⟨entry, inside, equal⟩ :=
      present_of_returned start.invariant (run.append segment) returned
    exact ⟨_, entry, holds.shared.chain _, inside, equal⟩
  · intro k quiet spares one two returnedOne returnedTwo
    have bound : ∀ result, ReturnedIn keys k more result → Bound keys last.shared k result := by
      rintro result ⟨front, t, put, back, split, equal, called⟩
      have settled : Settled keys k (fun _ => False) middle := fun _ no => no.elim
      exact bound_of_returned before quiet spares settled segment split equal (.inr called)
    exact (bound one returnedOne).unique holds.shared (bound two returnedTwo)

def plainKeys : KeyOps where
  opEquals := fun key other => decide (key = other)
  opHash := fun _ => 0
  refl := by simp
  symm := by
    intro key other same
    rw [decide_eq_true_iff] at same ⊢
    exact same.symm
  trans := by
    intro key other third one two
    rw [decide_eq_true_iff] at one two ⊢
    exact one.trans two
  sameHash := by simp

def raceLabels : List (Nat × Label) :=
  [(0, .call ⟨.ifAbsent, 5, 7⟩), (0, .go), (0, .go), (0, .go), (1, .call ⟨.ifAbsent, 5, 9⟩),
    (1, .go), (1, .go), (1, .go), (0, .go), (0, .ret ⟨.ifAbsent, 5, 7⟩ 7), (1, .go), (1, .go),
    (1, .go), (1, .go), (1, .go), (1, .ret ⟨.ifAbsent, 5, 9⟩ 7)]

theorem race_run : ∃ last, Run (Step plainKeys) ⟨.create, fun _ => .idle⟩ raceLabels last :=
  ⟨_, .cons (.of_eq rfl (.call _)) <| .cons (.of_eq rfl .readHead) <|
    .cons (.of_eq rfl (.scanned (.inl rfl))) <| .cons (.of_eq rfl (.malloc 0 rfl)) <|
    .cons (.of_eq rfl (.call _)) <| .cons (.of_eq rfl .readHead) <|
    .cons (.of_eq rfl (.scanned (.inl rfl))) <| .cons (.of_eq rfl (.malloc 1 rfl)) <|
    .cons (.of_eq rfl (.insert rfl)) <| .cons (.of_eq rfl .ret) <|
    .cons (.of_eq rfl (.insertFail (Option.some_ne_none 0))) <| .cons (.of_eq rfl .reread) <|
    .cons (.of_eq rfl (.hit (Option.some_ne_none 0) rfl)) <| .cons (.of_eq rfl .found) <|
    .cons (.of_eq rfl .load) <| .cons (.of_eq rfl .ret) <| .nil _⟩

theorem put_helper_race : ∃ last,
    Run (Step plainKeys) ⟨.create, fun _ => .idle⟩ raceLabels last ∧
      ReturnedIn plainKeys 5 raceLabels 7 ∧
      ∀ two, ReturnedIn plainKeys 5 raceLabels two → 7 = two := by
  obtain ⟨last, run⟩ := race_run
  have first : ReturnedIn plainKeys 5 raceLabels 7 :=
    ⟨raceLabels.take 9, 0, ⟨.ifAbsent, 5, 7⟩, raceLabels.drop 10, rfl, rfl, _, List.mem_cons_self⟩
  refine ⟨last, run, first, ?_⟩
  obtain ⟨_, _, same⟩ := put_helper_concurrent created_wellFormed (.nil _) run
  refine fun two => same 5 ?_ ?_ 7 two first
  · intro t put present
    cases present
  · intro t put called type
    simp only [raceLabels, List.mem_cons, Prod.mk.injEq, Label.call.injEq, reduceCtorEq, and_false,
      false_or, List.not_mem_nil, or_false] at called
    rcases called with ⟨_, rfl⟩ | ⟨_, rfl⟩
    · cases type
    · cases type

end Qthreads.Dict.Simple
