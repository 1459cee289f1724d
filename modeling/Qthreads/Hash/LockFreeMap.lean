import Qthreads.Hash.LockFree

namespace Qthreads.Hash.LockFree

open Qthreads.Dict (msb reverse soRegularkey soDummykey getParent)
open Function (update update_of_ne update_self)

/-! `HASH_KEY` clears the highest bit of every key.  On what is left the split-ordered list is a
finite map, through any number of doublings. -/

namespace QtHash

structure Linked (h : QtHash) : Prop where
  sorted : h.list.Pairwise fun entry later => entry.key < later.key
  distinct : (h.list.map (·.addr)).Nodup
  allocated : ∀ entry ∈ h.list, entry.addr < h.fresh

structure WellFormed (page : Page) (h : QtHash) : Prop extends h.Linked where
  kinds : ∀ entry ∈ h.list,
    (∃ key, key.toNat < 2 ^ 63 ∧ entry.key = soRegularkey key ∧ entry.value ≠ 0) ∨
    (∃ bucket, entry.key = soDummykey bucket ∧ entry.value = 0 ∧ h.B bucket = some entry.addr)
  pointer : ∀ bucket addr, h.B bucket = some addr → bucket.toNat < 2 ^ 63 ∧
    ∃ entry ∈ h.list, entry.addr = addr ∧ entry.key = soDummykey bucket
  first : ∃ entry rest, h.list = entry :: rest ∧ h.B 0 = some entry.addr
  power : ∃ i ≤ page.bits - 3, h.size.toNat = 2 ^ i

end QtHash

theorem hardMaxBuckets_eq (page : Page) : page.hardMaxBuckets.toNat = 2 ^ (page.bits - 3) := by
  have least := page.least
  have most := page.fits
  have eighth : 2 ^ page.bits / 8 = 2 ^ (page.bits - 3) := by
    rw [show page.bits = page.bits - 3 + 3 by omega, Nat.pow_add]
    exact Nat.mul_div_cancel _ (by decide)
  have small : 2 ^ (page.bits - 3) < 2 ^ 64 := Nat.pow_lt_pow_right (by decide) (by omega)
  rw [Page.hardMaxBuckets, eighth, UInt64.toNat_ofNat', Nat.mod_eq_of_lt small]

theorem hashKey_small (key : UInt64) : (hashKey key).toNat < 2 ^ 63 := by
  have mask : (~~~msb).toNat = 2 ^ 63 - 1 := by decide
  rw [hashKey, UInt64.toNat_and, mask]
  have least := Nat.and_le_right (n := key.toNat) (m := 2 ^ 63 - 1)
  omega

section Find

variable (key : UInt64)

theorem find_append (list : List HashEntry) :
    (qtLfListFind key list).passed ++ (qtLfListFind key list).rest = list := by
  induction list with
  | nil => rfl
  | cons cur next ih =>
    simp only [qtLfListFind]
    split
    · rfl
    · exact congrArg (cur :: ·) ih

theorem find_passed (list : List HashEntry) :
    ∀ entry ∈ (qtLfListFind key list).passed, entry.key < key := by
  induction list with
  | nil => exact nofun
  | cons cur next ih =>
    simp only [qtLfListFind]
    split
    case isTrue => exact nofun
    case isFalse less =>
      intro entry member
      rcases List.mem_cons.mp member with rfl | later
      · exact UInt64.not_le.mp less
      · exact ih entry later

theorem find_ends (list : List HashEntry) :
    (qtLfListFind key list).value = 0 ∧
        (∀ cur ∈ (qtLfListFind key list).rest.head?, key < cur.key) ∨
      ∃ cur next, (qtLfListFind key list).rest = cur :: next ∧ cur.key = key ∧
        (qtLfListFind key list).value = cur.value := by
  induction list with
  | nil => exact .inl ⟨rfl, nofun⟩
  | cons cur next ih =>
    simp only [qtLfListFind]
    split
    case isTrue atLeast =>
      by_cases equal : cur.key = key
      · exact .inr ⟨cur, next, rfl, equal, if_pos equal⟩
      · refine .inl ⟨if_neg equal, ?_⟩
        intro entry here
        cases here
        exact UInt64.lt_of_le_of_ne atLeast (Ne.symm equal)
    case isFalse => exact ih

end Find

namespace QtHash

variable {page : Page} {h : QtHash} {bucket key : UInt64} {addr : Nat}

theorem WellFormed.split_bucket (wf : h.WellFormed page) (set : h.B bucket = some addr) :
    ∃ front dummy back, h.split bucket = (front, dummy :: back) ∧
      h.list = front ++ dummy :: back ∧ dummy.key = soDummykey bucket := by
  obtain ⟨-, entry, member, here, keyed⟩ := wf.pointer bucket addr set
  have cut : h.split bucket = (h.list.takeWhile (fun entry => entry.addr != addr),
      h.list.dropWhile fun entry => entry.addr != addr) := by
    simp only [split, set, List.span_eq_takeWhile_dropWhile]
  have whole := List.takeWhile_append_dropWhile (p := fun entry : HashEntry => entry.addr != addr)
    (l := h.list)
  cases rest : h.list.dropWhile (fun entry => entry.addr != addr) with
  | nil =>
    have all := List.dropWhile_eq_nil_iff.mp rest entry member
    simp [here] at all
  | cons dummy back =>
    have stop : (dummy.addr != addr) = false := by
      have head := List.head?_dropWhile_not (fun entry : HashEntry => entry.addr != addr) h.list
      rw [rest] at head
      simpa using head
    rw [rest] at whole
    have inside : dummy ∈ h.list := by
      rw [← whole]
      simp
    have same : dummy = entry :=
      List.inj_on_of_nodup_map wf.distinct inside member (by simpa [here] using stop)
    exact ⟨_, dummy, back, by rw [cut, rest], whole.symm, same ▸ keyed⟩

structure Located (h : QtHash) (bucket key : UInt64) (front : List HashEntry)
    (old : Option HashEntry) (back : List HashEntry) : Prop where
  nonempty : front ≠ []
  shape : h.list = front ++ old.toList ++ back
  below : ∀ entry ∈ front, entry.key < key
  above : ∀ entry ∈ back, key < entry.key
  current : ∀ cur ∈ old, cur.key = key
  rest : (qtLfListFind key (h.split bucket).2).rest = old.toList ++ back
  value : (qtLfListFind key (h.split bucket).2).value = (old.map (·.value)).getD 0
  relinked : ∀ rest, h.relink bucket (qtLfListFind key (h.split bucket).2).passed rest =
    some { h with list := front ++ rest }

theorem WellFormed.located (wf : h.WellFormed page) (set : h.B bucket = some addr)
    (before : soDummykey bucket < key) : ∃ front old back, Located h bucket key front old back := by
  obtain ⟨front, dummy, back, cut, whole, keyed⟩ := wf.split_bucket set
  have joined := find_append key (dummy :: back)
  have passedOver := find_passed key (dummy :: back)
  have ends := find_ends key (dummy :: back)
  have headed : ∃ later, (qtLfListFind key (dummy :: back)).passed = dummy :: later := by
    have less : ¬ dummy.key ≥ key := by
      rw [keyed]
      exact UInt64.not_le.mpr before
    simp only [qtLfListFind, if_neg less]
    exact ⟨_, rfl⟩
  generalize result : qtLfListFind key (dummy :: back) = found at *
  obtain ⟨later, passed⟩ := headed
  have shape : h.list = (front ++ found.passed) ++ found.rest := by
    rw [List.append_assoc, joined, whole]
  have sorted := wf.sorted
  rw [shape, List.pairwise_append] at sorted
  have below : ∀ entry ∈ front ++ found.passed, entry.key < key := by
    intro entry member
    rcases List.mem_append.mp member with early | late
    · have pairs := wf.sorted
      rw [whole, List.pairwise_append] at pairs
      have less := pairs.2.2 entry early dummy List.mem_cons_self
      rw [keyed] at less
      exact UInt64.lt_trans less before
    · exact passedOver entry late
  have relinked : ∀ rest, h.relink bucket found.passed rest =
      some { h with list := (front ++ found.passed) ++ rest } := by
    intro rest
    simp only [relink, passed, cut]
  have nonempty : front ++ found.passed ≠ [] := by simp [passed]
  rcases ends with ⟨zero, greater⟩ | ⟨cur, next, rest, equal, value⟩
  · refine ⟨front ++ found.passed, none, found.rest, nonempty, by simpa using shape, below, ?_,
      nofun, ?_, ?_, ?_⟩
    · intro entry member
      cases list : found.rest with
      | nil =>
        rw [list] at member
        cases member
      | cons start tail =>
        rw [list] at greater member sorted
        have first := greater start rfl
        rcases List.mem_cons.mp member with rfl | inside
        · exact first
        · exact UInt64.lt_trans first ((List.pairwise_cons.mp sorted.2.1).1 entry inside)
    · rw [cut, result]
      rfl
    · rw [cut, result]
      exact zero
    · rw [cut, result]
      exact relinked
  · rw [rest] at shape sorted
    refine ⟨front ++ found.passed, some cur, next, nonempty, by simpa using shape, below, ?_, ?_,
      ?_, ?_, ?_⟩
    · intro entry member
      have after := (List.pairwise_cons.mp sorted.2.1).1 entry member
      rw [equal] at after
      exact after
    · intro entry here
      cases here
      exact equal
    · rw [cut, result]
      exact rest
    · rw [cut, result]
      exact value
    · rw [cut, result]
      exact relinked

variable {front back : List HashEntry} {old : Option HashEntry}

theorem Linked.splice (linked : h.Linked)
    (new : Option HashEntry) (shape : h.list = front ++ old.toList ++ back)
    (below : ∀ entry ∈ front, ∀ node ∈ new, entry.key < node.key)
    (above : ∀ node ∈ new, ∀ entry ∈ back, node.key < entry.key)
    (taken : ∀ node ∈ new, node.addr < h.fresh ∧ ∀ entry ∈ h.list, entry.addr ≠ node.addr) :
    Linked { h with list := front ++ new.toList ++ back } := by
  have fewer : (front ++ back).Sublist h.list := by
    rw [shape, List.append_assoc]
    exact (List.Sublist.refl front).append (List.sublist_append_right _ back)
  have sorted := linked.sorted.sublist fewer
  have distinct := linked.distinct.sublist (fewer.map (·.addr))
  cases new with
  | none =>
    refine ⟨by simpa using sorted, by simpa using distinct, ?_⟩
    intro entry member
    exact linked.allocated entry (fewer.subset (by simpa using member))
  | some node =>
    obtain ⟨inside, apart⟩ := taken node rfl
    have perm : (front ++ [node] ++ back).Perm (node :: (front ++ back)) := by
      rw [List.append_assoc]
      exact List.perm_middle
    refine ⟨?_, ?_, ?_⟩
    · rw [List.pairwise_append] at sorted
      simp only [Option.toList_some, List.append_assoc, List.singleton_append,
        List.pairwise_append, List.pairwise_cons]
      refine ⟨sorted.1, ⟨above node rfl, sorted.2.1⟩, ?_⟩
      intro entry early later member
      rcases List.mem_cons.mp member with rfl | late
      · exact below entry early later rfl
      · exact sorted.2.2 entry early later late
    · refine (perm.map _).nodup_iff.mpr ?_
      rw [List.map_cons, List.nodup_cons]
      refine ⟨?_, distinct⟩
      intro member
      obtain ⟨entry, was, same⟩ := List.mem_map.mp member
      exact apart entry (fewer.subset was) same
    · intro entry member
      rcases List.mem_cons.mp (perm.subset member) with rfl | was
      · exact inside
      · exact linked.allocated entry (fewer.subset was)

theorem WellFormed.first_append {front rest : List HashEntry} (wf : h.WellFormed page)
    (shape : h.list = front ++ rest) (nonempty : front ≠ []) :
    ∃ entry later, front = entry :: later ∧ h.B 0 = some entry.addr := by
  obtain ⟨entry, tail, list, set⟩ := wf.first
  cases front with
  | nil => exact absurd rfl nonempty
  | cons start later =>
    rw [shape, List.cons_append, List.cons.injEq] at list
    exact ⟨start, later, rfl, list.1 ▸ set⟩

theorem WellFormed.splice (wf : h.WellFormed page) (located : Located h bucket key front old back)
    (new : Option HashEntry) (regular : ∃ lkey, lkey.toNat < 2 ^ 63 ∧ key = soRegularkey lkey)
    (fits : ∀ node ∈ new, node.key = key ∧ node.value ≠ 0)
    (taken : ∀ node ∈ new, node.addr < h.fresh ∧ ∀ entry ∈ h.list, entry.addr ≠ node.addr) :
    WellFormed page { h with list := front ++ new.toList ++ back } := by
  obtain ⟨lkey, small, rfl⟩ := regular
  have linked := wf.toLinked.splice new located.shape
    (fun entry early node here => (fits node here).1 ▸ located.below entry early)
    (fun node here entry late => (fits node here).1 ▸ located.above entry late) taken
  refine ⟨linked, ?_, ?_, ?_, wf.power⟩
  · intro entry member
    have from_old : entry ∈ h.list ∨ entry ∈ new := by
      rw [located.shape]
      simp only [List.mem_append, Option.mem_toList] at member ⊢
      tauto
    rcases from_old with was | fresh
    · exact wf.kinds entry was
    · exact .inl ⟨lkey, small, (fits entry fresh).1, (fits entry fresh).2⟩
  · intro other place set
    obtain ⟨bounded, entry, member, here, keyed⟩ := wf.pointer other place set
    have stays : entry ∉ old := by
      intro gone
      exact Dict.dummy_ne_regular bounded (keyed.symm.trans (located.current entry gone))
    refine ⟨bounded, entry, ?_, here, keyed⟩
    rw [located.shape] at member
    simp only [List.mem_append, Option.mem_toList] at member ⊢
    tauto
  · have shape := located.shape
    rw [List.append_assoc] at shape
    obtain ⟨start, later, list, set⟩ := wf.first_append shape located.nonempty
    exact ⟨start, later ++ (new.toList ++ back), by rw [list, List.append_assoc, List.cons_append],
      set⟩

theorem WellFormed.addDummy (wf : h.WellFormed page)
    (located : Located h (getParent bucket) (soDummykey bucket) front none back)
    (old : addr < h.fresh) (apart : ∀ entry ∈ h.list, entry.addr ≠ addr)
    (unset : h.B bucket = none) (small : bucket.toNat < 2 ^ 63) :
    WellFormed page { h with
      list := front ++ ⟨addr, soDummykey bucket, 0⟩ :: back
      B := update h.B bucket (some addr) } := by
  have linked := wf.toLinked.splice (some ⟨addr, soDummykey bucket, 0⟩) located.shape
    (fun entry early node here => by cases here; exact located.below entry early)
    (fun node here entry late => by cases here; exact located.above entry late)
    (fun node here => by cases here; exact ⟨old, apart⟩)
  simp only [Option.toList_some, List.append_assoc, List.singleton_append] at linked
  have shape : h.list = front ++ back := by simpa using located.shape
  have members : ∀ entry, entry ∈ front ++ ⟨addr, soDummykey bucket, 0⟩ :: back ↔
      entry = ⟨addr, soDummykey bucket, 0⟩ ∨ entry ∈ h.list := by
    intro entry
    rw [shape]
    simp only [List.mem_append, List.mem_cons]
    tauto
  have kept : ∀ other place, h.B other = some place →
      update h.B bucket (some addr) other = some place := by
    intro other place set
    have differs : other ≠ bucket := by
      rintro rfl
      rw [unset] at set
      cases set
    rw [update_of_ne differs, set]
  refine ⟨⟨linked.sorted, linked.distinct, linked.allocated⟩, ?_, ?_, ?_, wf.power⟩
  · intro entry member
    rcases (members entry).mp member with rfl | was
    · exact .inr ⟨bucket, rfl, rfl, update_self ..⟩
    · rcases wf.kinds entry was with regular | ⟨other, keyed, zero, set⟩
      · exact .inl regular
      · exact .inr ⟨other, keyed, zero, kept other _ set⟩
  · intro other place set
    by_cases same : other = bucket
    · subst same
      simp only [update_self] at set
      cases set
      exact ⟨small, _, (members _).mpr (.inl rfl), rfl, rfl⟩
    · simp only [update_of_ne same] at set
      obtain ⟨bounded, entry, member, rest⟩ := wf.pointer other place set
      exact ⟨bounded, entry, (members entry).mpr (.inr member), rest⟩
  · obtain ⟨start, later, list, set⟩ := wf.first_append shape located.nonempty
    exact ⟨start, _, by rw [list, List.cons_append], kept 0 _ set⟩

theorem WellFormed.alloc (wf : h.WellFormed page) : h.allocHashEntry.2.WellFormed page where
  toLinked := ⟨wf.sorted, wf.distinct, fun entry member =>
    Nat.lt_succ_of_lt (wf.allocated entry member)⟩
  kinds := wf.kinds
  pointer := wf.pointer
  first := wf.first
  power := wf.power

structure Same (page : Page) (h after : QtHash) : Prop where
  wf : after.WellFormed page
  callback : after.qtHashCallback = h.qtHashCallback
  count : after.count = h.count
  size : after.size = h.size
  grown : h.fresh ≤ after.fresh
  old : ∀ entry ∈ after.list, entry.addr < h.fresh → entry ∈ h.list

theorem Same.refl (wf : h.WellFormed page) : Same page h h :=
  ⟨wf, rfl, rfl, rfl, Nat.le_refl _, fun _ member _ => member⟩

theorem Same.trans {next after : QtHash} (front : Same page h next)
    (back : Same page next after) : Same page h after where
  wf := back.wf
  callback := back.callback.trans front.callback
  count := back.count.trans front.count
  size := back.size.trans front.size
  grown := Nat.le_trans front.grown back.grown
  old := by
    intro entry member early
    exact front.old entry (back.old entry member (Nat.lt_of_lt_of_le early front.grown)) early

section

variable (wf : h.WellFormed page)
include wf

theorem WellFormed.nonzero (unset : h.B bucket = none) : bucket ≠ 0 := by
  rintro rfl
  obtain ⟨entry, rest, list, first⟩ := wf.first
  rw [unset] at first
  cases first

theorem WellFormed.dummy_absent {start : UInt64}
    (located : Located h start (soDummykey bucket) front old back) (unset : h.B bucket = none)
    (small : bucket.toNat < 2 ^ 63) : old = none := by
  cases old with
  | none => rfl
  | some cur =>
    have member : cur ∈ h.list := by
      rw [located.shape]
      simp
    have keyed := located.current cur rfl
    rcases wf.kinds cur member with ⟨lkey, -, regular, -⟩ | ⟨other, dummy, -, set⟩
    · exact absurd (keyed.symm.trans regular) (Dict.dummy_ne_regular small)
    · have same : bucket = other := Dict.reverse_inj (keyed.symm.trans dummy)
      rw [← same, unset] at set
      cases set

theorem WellFormed.linkDummy (unset : h.B bucket = none)
    (small : bucket.toNat < 2 ^ 63) (set : h.B (getParent bucket) = some addr) :
    ∃ after, h.linkDummy bucket = some after ∧ Same page h after ∧
      after.B = update h.B bucket (some h.fresh) := by
  obtain ⟨front, old, back, located⟩ :=
    wf.alloc.located set (Dict.parent_dummy_lt (wf.nonzero unset))
  cases wf.alloc.dummy_absent located unset small
  have shape : h.list = front ++ back := by simpa [allocHashEntry] using located.shape
  have apart : ∀ entry ∈ h.list, entry.addr ≠ h.fresh := fun entry member =>
    Nat.ne_of_lt (wf.allocated entry member)
  refine ⟨{ h.allocHashEntry.2 with
    list := front ++ ⟨h.fresh, soDummykey bucket, 0⟩ :: back
    B := update h.B bucket (some h.fresh) }, ?_, ?_, rfl⟩
  · have zero : (qtLfListFind (soDummykey bucket)
        (h.allocHashEntry.2.split (getParent bucket)).2).value = 0 := located.value
    simp only [QtHash.linkDummy, qtLfListInsert, zero, ne_eq, not_true, if_false,
      located.relinked, located.rest, Option.map_some]
    rfl
  · refine ⟨wf.alloc.addDummy located (Nat.lt_succ_self _) apart unset small, ?_, rfl, rfl,
      Nat.le_succ _, ?_⟩
    · simp [qtHashCallback, HashEntry.pair, shape, Dict.dummy_unmarked small]
    · intro entry member early
      rw [shape]
      simp only [List.mem_append, List.mem_cons] at member ⊢
      rcases member with front | rfl | back
      · exact .inl front
      · exact absurd early (Nat.lt_irrefl _)
      · exact .inr back

theorem WellFormed.initializeBucket {depth : Nat}
    (unset : h.B bucket = none) (small : bucket.toNat < 2 ^ 63) (enough : bucket.toNat < depth) :
    ∃ after, QtHash.initializeBucket depth h bucket = some after ∧ Same page h after ∧
      (∃ addr, after.B bucket = some addr) ∧
      ∀ other, bucket.toNat < other.toNat → after.B other = h.B other := by
  induction depth generalizing h bucket with
  | zero => exact absurd enough (Nat.not_lt_zero _)
  | succ depth ih =>
    have smaller := Dict.getParent_lt (wf.nonzero unset)
    have linked : ∀ next addr, Same page h next →
        (∀ other, (getParent bucket).toNat < other.toNat → next.B other = h.B other) →
        next.B (getParent bucket) = some addr →
        ∃ after, next.linkDummy bucket = some after ∧ Same page h after ∧
          (∃ addr, after.B bucket = some addr) ∧
          ∀ other, bucket.toNat < other.toNat → after.B other = h.B other := by
      intro next addr same others set
      have still : next.B bucket = none := (others bucket smaller).trans unset
      obtain ⟨after, done, made, pointers⟩ := same.wf.linkDummy still small set
      refine ⟨after, done, same.trans made, ⟨next.fresh, ?_⟩, ?_⟩
      · rw [pointers, update_self]
      · intro other above
        have differs : other ≠ bucket := by
          rintro rfl
          exact absurd above (Nat.lt_irrefl _)
        rw [pointers, update_of_ne differs]
        exact others other (by omega)
    simp only [QtHash.initializeBucket]
    cases parent : h.B (getParent bucket) with
    | none =>
      obtain ⟨next, ready, same, ⟨addr, set⟩, others⟩ := ih wf parent (by omega) (by omega)
      simp only [ready, Option.bind_some]
      exact linked next addr same others set
    | some addr => exact linked h addr (.refl wf) (fun _ _ => rfl) parent

theorem WellFormed.bucketOf {lkey : UInt64} (low : lkey.toNat < 2 ^ 63) :
    ∃ bucket after addr, h.bucketOf lkey = some (bucket, after) ∧ Same page h after ∧
      after.B bucket = some addr ∧ soDummykey bucket < soRegularkey lkey := by
  obtain ⟨i, -, power⟩ := wf.power
  have small : (lkey % h.size).toNat < 2 ^ 63 := by
    rw [UInt64.toNat_mod]
    exact Nat.lt_of_le_of_lt (Nat.mod_le _ _) low
  have before := Dict.dummy_lt_regular (Dict.mod_two_pow_bits power) small
  cases pointer : h.B (lkey % h.size) with
  | none =>
    obtain ⟨after, done, same, ⟨addr, set⟩, -⟩ :=
      wf.initializeBucket pointer small (Nat.lt_succ_self _)
    refine ⟨_, after, addr, ?_, same, set, before⟩
    simp only [QtHash.bucketOf, pointer, done, Option.map_some]
  | some addr =>
    refine ⟨_, h, addr, ?_, .refl wf, pointer, before⟩
    simp only [QtHash.bucketOf, pointer]

end

end QtHash

theorem HashEntry.pair_regular {entry : HashEntry} {lkey : UInt64} (low : lkey.toNat < 2 ^ 63)
    (keyed : entry.key = soRegularkey lkey) : entry.pair = some (lkey, entry.value) := by
  have marked : ¬ entry.key &&& 1 = 0 := by
    rw [keyed, Dict.regular_marked]
    decide
  rw [HashEntry.pair, if_neg marked, keyed, Dict.regular_back low]

theorem QtHash.WellFormed.pair_key {page : Page} {h : QtHash} {entry : HashEntry}
    {lkey value : UInt64} (wf : h.WellFormed page) (member : entry ∈ h.list)
    (paired : entry.pair = some (lkey, value)) :
    lkey.toNat < 2 ^ 63 ∧ entry.key = soRegularkey lkey := by
  rcases wf.kinds entry member with ⟨other, low, keyed, -⟩ | ⟨bucket, keyed, -, set⟩
  · rw [HashEntry.pair_regular low keyed] at paired
    cases paired
    exact ⟨low, keyed⟩
  · have unmarked : entry.key &&& 1 = 0 := by
      rw [keyed, Dict.dummy_unmarked (wf.pointer bucket _ set).1]
    rw [HashEntry.pair, if_pos unmarked] at paired
    cases paired

namespace Bindings

theorem lookup_some {bindings : Bindings} {key value : UInt64} :
    bindings.lookup key = some value ↔ (key, value) ∈ bindings.pairs := by
  have at_most : ∀ pair ∈ bindings.pairs, (key, value) ∈ bindings.pairs → pair.1 = key →
      pair = (key, value) := by
    intro pair member here same
    exact List.inj_on_of_nodup_map bindings.distinct member here same
  rw [lookup, Option.map_eq_some_iff]
  constructor
  · rintro ⟨pair, found, rfl⟩
    have same : pair.1 = key := by simpa using List.find?_some found
    rw [← same]
    exact List.mem_of_find?_eq_some found
  · intro member
    cases found : bindings.pairs.find? fun pair => pair.1 == key with
    | none =>
      have nothing := List.find?_eq_none.mp found _ member
      exact absurd (beq_self_eq_true key) nothing
    | some pair =>
      have same : pair.1 = key := by simpa using List.find?_some found
      exact ⟨pair, rfl, congrArg Prod.snd
        (at_most pair (List.mem_of_find?_eq_some found) member same)⟩

end Bindings

namespace QtHash

variable {page : Page} {h : QtHash} {bucket lkey : UInt64} {bindings : Bindings}

structure Represents (page : Page) (h : QtHash) (bindings : Bindings) : Prop
    extends h.WellFormed page where
  pairs : h.qtHashCallback.Perm bindings.pairs
  counted : h.count.toNat = bindings.pairs.length

theorem Represents.mem_pairs (represents : h.Represents page bindings) {value : UInt64} :
    (lkey, value) ∈ bindings.pairs ↔
      ∃ entry ∈ h.list, lkey.toNat < 2 ^ 63 ∧ entry.key = soRegularkey lkey ∧
        entry.value = value := by
  rw [← represents.pairs.mem_iff, qtHashCallback, List.mem_filterMap]
  constructor
  · rintro ⟨entry, member, paired⟩
    obtain ⟨low, keyed⟩ := represents.pair_key member paired
    rw [HashEntry.pair_regular low keyed] at paired
    cases paired
    exact ⟨entry, member, low, keyed, rfl⟩
  · rintro ⟨entry, member, low, keyed, rfl⟩
    exact ⟨entry, member, HashEntry.pair_regular low keyed⟩

theorem Represents.few (represents : h.Represents page bindings) :
    bindings.pairs.length ≤ 2 ^ 63 := by
  have low : ∀ key ∈ bindings.pairs.map Prod.fst, key.toNat < 2 ^ 63 := by
    intro key member
    obtain ⟨⟨lkey, value⟩, inside, rfl⟩ := List.mem_map.mp member
    obtain ⟨entry, -, low, -⟩ := represents.mem_pairs.mp inside
    exact low
  have distinct : ((bindings.pairs.map Prod.fst).map UInt64.toNat).Nodup :=
    bindings.distinct.map fun _ _ => UInt64.toNat.inj
  have inside : (bindings.pairs.map Prod.fst).map UInt64.toNat ⊆ List.range (2 ^ 63) := by
    intro n member
    obtain ⟨key, here, rfl⟩ := List.mem_map.mp member
    exact List.mem_range.mpr (low key here)
  have few := (List.subperm_of_subset distinct inside).length_le
  simpa only [List.length_map, List.length_range] using few

section Located

variable {front back : List HashEntry} {old : Option HashEntry}

theorem Represents.found (represents : h.Represents page bindings)
    (located : Located h bucket (soRegularkey lkey) front old back) (low : lkey.toNat < 2 ^ 63) :
    bindings.lookup lkey = old.map (·.value) := by
  cases old with
  | some cur =>
    have member : cur ∈ h.list := by
      rw [located.shape]
      simp
    exact Bindings.lookup_some.mpr
      (represents.mem_pairs.mpr ⟨cur, member, low, located.current cur rfl, rfl⟩)
  | none =>
    cases bound : bindings.lookup lkey with
    | none => rfl
    | some value =>
      obtain ⟨entry, member, -, keyed, -⟩ :=
        represents.mem_pairs.mp (Bindings.lookup_some.mp bound)
      rw [located.shape] at member
      rcases List.mem_append.mp member with early | late
      · have less := located.below entry (by simpa using early)
        rw [keyed] at less
        exact absurd less (UInt64.lt_irrefl _)
      · have more := located.above entry late
        rw [keyed] at more
        exact absurd more (UInt64.lt_irrefl _)

theorem Represents.value_zero (represents : h.Represents page bindings)
    (located : Located h bucket (soRegularkey lkey) front old back) (low : lkey.toNat < 2 ^ 63) :
    (qtLfListFind (soRegularkey lkey) (h.split bucket).2).value = 0 ↔
      bindings.lookup lkey = none := by
  rw [located.value, represents.found located low]
  cases old with
  | none => exact iff_of_true rfl rfl
  | some cur =>
    have member : cur ∈ h.list := by
      rw [located.shape]
      simp
    refine iff_of_false ?_ (Option.some_ne_none _)
    rcases represents.kinds cur member with ⟨-, -, -, nonzero⟩ | ⟨other, dummy, -, set⟩
    · exact nonzero
    · exact absurd (dummy.symm.trans (located.current cur rfl))
        (Dict.dummy_ne_regular (represents.pointer other _ set).1)

end Located

/-- What the order of the keys is for, in a table of `2 ^ i` buckets: a bucket's dummy comes before
its keys and these before the next dummy, and a dummy goes into the list behind that of the bucket its
keys had in the largest table without the bucket. -/
structure SplitOrdered (page : Page) (i : Nat) : Prop where
  own : ∀ key bucket : UInt64, key.toNat < 2 ^ 63 → bucket.toNat = key.toNat % 2 ^ i →
    soDummykey bucket < soRegularkey key
  next : ∀ key bucket other : UInt64, key.toNat < 2 ^ 63 → bucket.toNat = key.toNat % 2 ^ i →
    other.toNat < 2 ^ i → soDummykey bucket < soDummykey other →
      soRegularkey key < soDummykey other
  apart : ∀ bucket key : UInt64, bucket.toNat < 2 ^ i → key.toNat < 2 ^ 63 →
    soDummykey bucket ≠ soRegularkey key
  regular : ∀ key other : UInt64, key.toNat < 2 ^ 63 → other.toNat < 2 ^ 63 →
    soRegularkey key = soRegularkey other → key = other
  dummy : ∀ bucket other : UInt64, soDummykey bucket = soDummykey other → bucket = other
  parent : ∀ bucket : UInt64, bucket ≠ 0 → bucket.toNat < 2 ^ i →
    (getParent bucket).toNat < bucket.toNat ∧ soDummykey (getParent bucket) < soDummykey bucket ∧
      ∃ j < i, 2 ^ j ≤ bucket.toNat ∧ bucket.toNat < 2 ^ (j + 1) ∧
        (∀ key : UInt64, key.toNat % 2 ^ i = bucket.toNat →
          key.toNat % 2 ^ j = (getParent bucket).toNat) ∧
        ∀ other : UInt64, other.toNat < 2 ^ j → soDummykey (getParent bucket) < soDummykey other →
          soDummykey bucket < soDummykey other
  initialized : ∀ (h : QtHash) (bucket : UInt64), h.WellFormed page → h.B bucket = none →
    bucket.toNat < 2 ^ i → ∃ after addr front back,
      h.initializeBucket (bucket.toNat + 1) bucket = some after ∧ after.WellFormed page ∧
      after.qtHashCallback = h.qtHashCallback ∧ after.B bucket = some addr ∧
      after.list = front ++ ⟨addr, soDummykey bucket, 0⟩ :: back ∧
      (∀ entry ∈ front, entry.key < soDummykey bucket) ∧
      ∀ entry ∈ back, soDummykey bucket < entry.key

theorem WellFormed.dummy_entry (wf : h.WellFormed page) (set : h.B bucket = some addr) :
    ∃ front back, h.list = front ++ ⟨addr, soDummykey bucket, 0⟩ :: back ∧
      (∀ entry ∈ front, entry.key < soDummykey bucket) ∧
      ∀ entry ∈ back, soDummykey bucket < entry.key := by
  obtain ⟨small, ⟨_, key, value⟩, member, rfl, keyed⟩ := wf.pointer bucket addr set
  have blank : value = 0 := by
    rcases wf.kinds _ member with ⟨lkey, -, regular, -⟩ | ⟨-, -, zero, -⟩
    · exact absurd (keyed.symm.trans regular) (Dict.dummy_ne_regular small)
    · exact zero
  cases keyed
  cases blank
  obtain ⟨front, back, shape⟩ := List.append_of_mem member
  have sorted := wf.sorted
  rw [shape, List.pairwise_append, List.pairwise_cons] at sorted
  obtain ⟨-, ⟨above, -⟩, below⟩ := sorted
  exact ⟨front, back, shape, fun entry early => below entry early _ List.mem_cons_self, above⟩

theorem splitOrdered (page : Page) {i : Nat} (most : i ≤ 63) : SplitOrdered page i := by
  have power : 2 ^ i ≤ 2 ^ 63 := Nat.pow_le_pow_right (by decide) most
  refine ⟨?own, ?next, ?apart, ?regular, ?dummy, ?parent, ?initialized⟩
  case own =>
    intro key bucket small hashed
    have low : bucket.toNat < 2 ^ i := by
      rw [hashed]
      exact Nat.mod_lt _ (Nat.two_pow_pos i)
    have size : (UInt64.ofNat (2 ^ i)).toNat = 2 ^ i := by
      rw [UInt64.toNat_ofNat']
      exact Nat.mod_eq_of_lt (Nat.lt_of_le_of_lt power (by decide))
    have same : bucket = key % UInt64.ofNat (2 ^ i) := by
      apply UInt64.toNat.inj
      rw [hashed, UInt64.toNat_mod, size]
    rw [same]
    refine Dict.dummy_lt_regular (Dict.mod_two_pow_bits size) ?_
    rw [← same]
    omega
  case next =>
    intro key bucket other small hashed inside before
    refine Dict.reverse_lt_next (show i ≤ 64 by omega) ?_ inside before
    rw [Dict.regular_hashed most, hashed]
  case apart =>
    intro bucket key low _
    exact Dict.dummy_ne_regular (by omega)
  case regular =>
    intro key other small less same
    exact Dict.regular_inj small less same
  case dummy =>
    intro bucket other same
    exact Dict.reverse_inj same
  case parent =>
    intro bucket nonzero low
    have positive : bucket.toNat ≠ 0 := fun zero => nonzero (UInt64.toNat.inj zero)
    have parent := Dict.getParent_eq nonzero
    have top : 2 ^ Nat.log 2 bucket.toNat ≤ bucket.toNat := Nat.pow_log_le_self 2 positive
    have less : Nat.log 2 bucket.toNat < i :=
      (Nat.pow_lt_pow_iff_right (by decide)).mp (Nat.lt_of_le_of_lt top low)
    refine ⟨Dict.getParent_lt nonzero, Dict.parent_dummy_lt nonzero, Nat.log 2 bucket.toNat, less, top,
      Nat.lt_pow_succ_log_self (by decide) _, ?_, ?_⟩
    · intro key hashed
      have divides := Nat.mod_mod_of_dvd key.toNat (Nat.pow_dvd_pow 2 (Nat.le_of_lt less))
      rw [hashed] at divides
      rw [parent, divides]
    · intro other inside before
      exact Dict.reverse_lt_next (by omega) parent.symm inside before
  case initialized =>
    intro h bucket wf unset low
    obtain ⟨after, done, same, ⟨addr, set⟩, -⟩ :=
      wf.initializeBucket unset (by omega) (Nat.lt_succ_self _)
    obtain ⟨front, back, shape, below, above⟩ := same.wf.dummy_entry set
    exact ⟨after, addr, front, back, done, same.wf, same.callback, set, shape, below, above⟩

theorem splitOrdered_largest : SplitOrdered ⟨12, by decide, by decide⟩ 63 :=
  splitOrdered ⟨12, by decide, by decide⟩ (by decide)

end QtHash

end Qthreads.Hash.LockFree
