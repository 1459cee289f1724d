import Mathlib.Data.List.TakeDrop
import Mathlib.Data.List.TakeWhile
import Mathlib.Data.List.Nodup
import Qthreads.Dict.Shavit

namespace Qthreads.Dict

open Function (update update_of_ne update_self)

def Entry.holds (keys : KeyOps) (key : UInt64) (entry : Entry) : Bool :=
  entry.key != 0 && keys.opEquals entry.key key

namespace Dictionary

def bindings (keys : KeyOps) (h : Dictionary) (key : UInt64) : List UInt64 :=
  (h.list.filter (·.holds keys key)).map (·.value)

def Sorted (h : Dictionary) : Prop :=
  h.list.Pairwise fun entry later => entry.hashedKey ≤ later.hashedKey

structure Linked (h : Dictionary) : Prop where
  sorted : h.Sorted
  distinct : (h.list.map (·.addr)).Nodup
  allocated : ∀ entry ∈ h.list, entry.addr < h.fresh

structure WellFormed (keys : KeyOps) (h : Dictionary) : Prop extends h.Linked where
  regular : ∀ entry ∈ h.list, entry.key ≠ 0 →
    entry.value ≠ 0 ∧ entry.hashedKey = soRegularkey (keys.lkey entry.key)
  dummy : ∀ entry ∈ h.list, entry.key = 0 →
    ∃ bucket, entry.hashedKey = soDummykey bucket ∧ h.B bucket = some entry.addr
  pointer : ∀ bucket addr, h.B bucket = some addr → bucket.toNat < 2 ^ 63 ∧
    ∃ entry ∈ h.list, entry.addr = addr ∧ entry.key = 0 ∧ entry.hashedKey = soDummykey bucket
  first : ∃ entry rest, h.list = entry :: rest ∧ h.B 0 = some entry.addr
  power : ∃ i ≤ 20, h.size.toNat = 2 ^ i

end Dictionary

theorem Entry.holds_iff {keys : KeyOps} {key : UInt64} {entry : Entry} :
    entry.holds keys key = true ↔ entry.key ≠ 0 ∧ keys.opEquals entry.key key = true := by
  simp [Entry.holds]

section Find

variable (keys : KeyOps) (hashedKey key : UInt64)

theorem find_append (list : List Entry) :
    (qtLfListFind keys hashedKey key list).passed ++ (qtLfListFind keys hashedKey key list).rest =
      list := by
  induction list with
  | nil => rfl
  | cons cur next ih =>
    simp only [qtLfListFind]
    split
    · split
      · split
        · rfl
        · exact congrArg (cur :: ·) ih
      · rfl
    · exact congrArg (cur :: ·) ih

theorem find_passed (list : List Entry) :
    ∀ entry ∈ (qtLfListFind keys hashedKey key list).passed, entry.hashedKey ≤ hashedKey ∧
      (entry.hashedKey = hashedKey → entry.holds keys key = false) := by
  induction list with
  | nil => exact nofun
  | cons cur next ih =>
    simp only [qtLfListFind]
    split
    case isTrue atLeast =>
      split
      case isTrue equal =>
        split
        case isTrue found => exact nofun
        case isFalse other =>
          intro entry member
          rcases List.mem_cons.mp member with rfl | later
          · refine ⟨UInt64.le_of_eq equal, fun _ => ?_⟩
            rw [Bool.eq_false_iff]
            intro holds
            exact other (Entry.holds_iff.mp holds)
          · exact ih entry later
      case isFalse greater => exact nofun
    case isFalse less =>
      intro entry member
      rcases List.mem_cons.mp member with rfl | later
      · have below : entry.hashedKey < hashedKey := UInt64.not_le.mp less
        refine ⟨UInt64.le_of_lt below, fun equal => ?_⟩
        exact absurd below (equal ▸ UInt64.lt_irrefl _)
      · exact ih entry later

theorem find_ends (list : List Entry) :
    (qtLfListFind keys hashedKey key list).value = 0 ∧
        (∀ cur ∈ (qtLfListFind keys hashedKey key list).rest.head?, hashedKey < cur.hashedKey) ∨
      ∃ cur next, (qtLfListFind keys hashedKey key list).rest = cur :: next ∧
        cur.hashedKey = hashedKey ∧ cur.holds keys key = true ∧
        (qtLfListFind keys hashedKey key list).value = cur.value := by
  induction list with
  | nil => exact .inl ⟨rfl, nofun⟩
  | cons cur next ih =>
    simp only [qtLfListFind]
    split
    case isTrue atLeast =>
      split
      case isTrue equal =>
        split
        case isTrue found => exact .inr ⟨cur, next, rfl, equal, Entry.holds_iff.mpr found, rfl⟩
        case isFalse other => exact ih
      case isFalse apart =>
        refine .inl ⟨rfl, ?_⟩
        intro entry here
        cases here
        exact UInt64.lt_of_le_of_ne atLeast (Ne.symm apart)
    case isFalse less => exact ih

end Find

namespace Dictionary

variable {keys : KeyOps} {h : Dictionary} {bucket hashedKey key : UInt64} {addr : Nat}

theorem WellFormed.split_bucket (wf : h.WellFormed keys) (set : h.B bucket = some addr) :
    ∃ front dummy back, h.split bucket = (front, dummy :: back) ∧
      h.list = front ++ dummy :: back ∧ dummy.hashedKey = soDummykey bucket := by
  obtain ⟨-, entry, member, here, -, hashed⟩ := wf.pointer bucket addr set
  have cut : h.split bucket = (h.list.takeWhile (fun entry => entry.addr != addr),
      h.list.dropWhile fun entry => entry.addr != addr) := by
    simp only [split, set, List.span_eq_takeWhile_dropWhile]
  have whole := List.takeWhile_append_dropWhile (p := fun entry : Entry => entry.addr != addr)
    (l := h.list)
  cases rest : h.list.dropWhile (fun entry => entry.addr != addr) with
  | nil =>
    have all := List.dropWhile_eq_nil_iff.mp rest entry member
    simp [here] at all
  | cons dummy back =>
    have stop : (dummy.addr != addr) = false := by
      have head := List.head?_dropWhile_not (fun entry : Entry => entry.addr != addr) h.list
      rw [rest] at head
      simpa using head
    rw [rest] at whole
    have same : dummy = entry := by
      have inside : dummy ∈ h.list := by
        rw [← whole]
        simp
      exact List.inj_on_of_nodup_map wf.distinct inside member (by simpa [here] using stop)
    exact ⟨_, dummy, back, by rw [cut, rest], whole.symm, same ▸ hashed⟩

variable {entry : Entry}

theorem least_first {list : List Entry}
    (sorted : list.Pairwise fun entry later => entry.hashedKey ≤ later.hashedKey)
    (member : entry ∈ list) :
    ∃ cur, list.head? = some cur ∧ cur.hashedKey ≤ entry.hashedKey := by
  cases list with
  | nil => cases member
  | cons cur next =>
    refine ⟨cur, rfl, ?_⟩
    rcases List.mem_cons.mp member with rfl | later
    · exact UInt64.le_refl _
    · exact (List.pairwise_cons.mp sorted).1 entry later

structure Located (keys : KeyOps) (h : Dictionary) (hashedKey key : UInt64) (front : List Entry)
    (found : Found) : Prop where
  shape : h.list = front ++ found.rest
  below : ∀ entry ∈ front, entry.hashedKey ≤ hashedKey ∧
    (entry.hashedKey = hashedKey → entry.holds keys key = false)
  above : ∀ entry ∈ found.rest, hashedKey ≤ entry.hashedKey
  ends : found.value = 0 ∧ (∀ entry ∈ found.rest, hashedKey < entry.hashedKey) ∨
    ∃ cur next, found.rest = cur :: next ∧ cur.hashedKey = hashedKey ∧
      cur.holds keys key = true ∧ found.value = cur.value

theorem WellFormed.located (wf : h.WellFormed keys) (key : UInt64) (set : h.B bucket = some addr)
    (before : soDummykey bucket < hashedKey) :
    ∃ front, front ≠ [] ∧
      Located keys h hashedKey key front
        (qtLfListFind keys hashedKey key (h.split bucket).2) ∧
      ∀ rest, h.relink bucket (qtLfListFind keys hashedKey key (h.split bucket).2).passed rest =
        some { h with list := front ++ rest } := by
  obtain ⟨front, dummy, back, cut, whole, hashed⟩ := wf.split_bucket set
  rw [cut]
  have joined := find_append keys hashedKey key (dummy :: back)
  have passedOver := find_passed keys hashedKey key (dummy :: back)
  have ends := find_ends keys hashedKey key (dummy :: back)
  have headed : ∃ later, (qtLfListFind keys hashedKey key (dummy :: back)).passed =
      dummy :: later := by
    have less : ¬ dummy.hashedKey ≥ hashedKey := by
      rw [hashed]
      exact UInt64.not_le.mpr before
    simp only [qtLfListFind, if_neg less]
    exact ⟨_, rfl⟩
  generalize qtLfListFind keys hashedKey key (dummy :: back) = found at *
  obtain ⟨later, passed⟩ := headed
  have shape : h.list = front ++ found.passed ++ found.rest := by
    rw [List.append_assoc, joined, whole]
  have sorted := wf.sorted
  rw [Sorted, shape, List.pairwise_append] at sorted
  have restSorted := sorted.2.1
  refine ⟨front ++ found.passed, ?_, ⟨shape, ?_, ?_, ?_⟩, ?_⟩
  · simp [passed]
  · intro entry member
    rcases List.mem_append.mp member with early | late
    · have less : entry.hashedKey ≤ dummy.hashedKey := by
        have pairs := wf.sorted
        rw [Sorted, whole, List.pairwise_append] at pairs
        exact pairs.2.2 entry early dummy List.mem_cons_self
      rw [hashed] at less
      have strict : entry.hashedKey < hashedKey := UInt64.lt_of_le_of_lt less before
      refine ⟨UInt64.le_of_lt strict, fun equal => ?_⟩
      exact absurd strict (equal ▸ UInt64.lt_irrefl _)
    · exact passedOver entry late
  · intro entry member
    obtain ⟨cur, head, least⟩ := least_first restSorted member
    rcases ends with ⟨-, greater⟩ | ⟨start, next, rest, equal, -, -⟩
    · exact UInt64.le_trans (UInt64.le_of_lt (greater cur head)) least
    · rw [rest] at head
      cases head
      exact equal ▸ least
  · rcases ends with ⟨zero, greater⟩ | ended
    · refine .inl ⟨zero, ?_⟩
      intro entry member
      obtain ⟨cur, head, least⟩ := least_first restSorted member
      exact UInt64.lt_of_lt_of_le (greater cur head) least
    · exact .inr ended
  · intro rest
    simp only [relink, passed, cut]

theorem Linked.splice {front old back : List Entry} (linked : h.Linked) (new : Option Entry)
    (shape : h.list = front ++ old ++ back)
    (below : ∀ entry ∈ front, ∀ node ∈ new, entry.hashedKey ≤ node.hashedKey)
    (above : ∀ node ∈ new, ∀ entry ∈ back, node.hashedKey ≤ entry.hashedKey)
    (taken : ∀ node ∈ new, node.addr < h.fresh ∧ ∀ entry ∈ h.list, entry.addr ≠ node.addr) :
    Linked { h with list := front ++ new.toList ++ back } := by
  have fewer : (front ++ back).Sublist h.list := by
    rw [shape, List.append_assoc]
    exact (List.Sublist.refl front).append (List.sublist_append_right old back)
  have sorted := linked.sorted.sublist fewer
  have distinct := linked.distinct.sublist (fewer.map (·.addr))
  cases new with
  | none =>
    refine ⟨?_, ?_, ?_⟩
    · simpa [Sorted] using sorted
    · simpa using distinct
    · intro entry member
      exact linked.allocated entry (fewer.subset (by simpa using member))
  | some node =>
    obtain ⟨old, apart⟩ := taken node rfl
    have perm : (front ++ [node] ++ back).Perm (node :: (front ++ back)) := by
      rw [List.append_assoc]
      exact List.perm_middle
    refine ⟨?_, ?_, ?_⟩
    · rw [List.pairwise_append] at sorted
      simp only [Sorted, Option.toList_some, List.append_assoc, List.singleton_append,
        List.pairwise_append, List.pairwise_cons]
      refine ⟨sorted.1, ⟨above node rfl, sorted.2.1⟩, ?_⟩
      intro entry early later member
      rcases List.mem_cons.mp member with rfl | late
      · exact below entry early later rfl
      · exact sorted.2.2 entry early later late
    · refine (perm.map _).nodup_iff.mpr ?_
      rw [List.map_cons, List.nodup_cons]
      refine ⟨?_, distinct⟩
      intro member
      obtain ⟨entry, inside, same⟩ := List.mem_map.mp member
      exact apart entry (fewer.subset inside) same
    · intro entry member
      rcases List.mem_cons.mp (perm.subset member) with rfl | inside
      · exact old
      · exact linked.allocated entry (fewer.subset inside)

theorem bindings_splice (front new back : List Entry) :
    bindings keys { h with list := front ++ new ++ back } key =
      (front.filter (·.holds keys key)).map (·.value) ++
        ((new.filter (·.holds keys key)).map (·.value) ++
          (back.filter (·.holds keys key)).map (·.value)) := by
  simp [bindings]

theorem WellFormed.splice {front old back : List Entry} (wf : h.WellFormed keys)
    (new : Option Entry) (shape : h.list = front ++ old ++ back) (nonempty : front ≠ [])
    (below : ∀ entry ∈ front, ∀ node ∈ new, entry.hashedKey ≤ node.hashedKey)
    (above : ∀ node ∈ new, ∀ entry ∈ back, node.hashedKey ≤ entry.hashedKey)
    (taken : ∀ node ∈ new, node.addr < h.fresh ∧ ∀ entry ∈ h.list, entry.addr ≠ node.addr)
    (gone : ∀ entry ∈ old, entry.key ≠ 0)
    (fits : ∀ node ∈ new, node.key ≠ 0 ∧ node.value ≠ 0 ∧
      node.hashedKey = soRegularkey (keys.lkey node.key)) :
    WellFormed keys { h with list := front ++ new.toList ++ back } := by
  have from_old : ∀ entry ∈ front ++ new.toList ++ back, entry ∈ h.list ∨ entry ∈ new := by
    intro entry member
    rw [shape]
    simp only [List.mem_append, Option.mem_toList] at member ⊢
    tauto
  have kept : ∀ entry ∈ h.list, entry.key = 0 → entry ∈ front ++ new.toList ++ back := by
    intro entry member zero
    rw [shape] at member
    simp only [List.mem_append] at member ⊢
    have stays : entry ∉ old := fun here => gone entry here zero
    tauto
  have linked := wf.toLinked.splice new shape below above taken
  refine { toLinked := linked, regular := ?_, dummy := ?_, pointer := ?_, first := ?_, power := wf.power }
  · intro entry member nonzero
    rcases from_old entry member with was | fresh
    · exact wf.regular entry was nonzero
    · exact (fits entry fresh).2
  · intro entry member zero
    rcases from_old entry member with was | fresh
    · exact wf.dummy entry was zero
    · exact absurd zero (fits entry fresh).1
  · intro bucket addr set
    obtain ⟨small, entry, member, here, zero, hashed⟩ := wf.pointer bucket addr set
    exact ⟨small, entry, kept entry member zero, here, zero, hashed⟩
  · obtain ⟨entry, rest, list, set⟩ := wf.first
    cases front with
    | nil => exact absurd rfl nonempty
    | cons start later =>
      rw [shape, List.append_assoc, List.cons_append, List.cons.injEq] at list
      exact ⟨start, later ++ new.toList ++ back, rfl, list.1 ▸ set⟩

theorem WellFormed.addDummy {front back : List Entry} (wf : h.WellFormed keys)
    (shape : h.list = front ++ back) (nonempty : front ≠ [])
    (below : ∀ entry ∈ front, entry.hashedKey ≤ soDummykey bucket)
    (above : ∀ entry ∈ back, soDummykey bucket ≤ entry.hashedKey)
    (old : addr < h.fresh) (apart : ∀ entry ∈ h.list, entry.addr ≠ addr)
    (unset : h.B bucket = none) (small : bucket.toNat < 2 ^ 63) :
    WellFormed keys { h with
      list := front ++ ⟨addr, soDummykey bucket, 0, 0⟩ :: back
      B := update h.B bucket (some addr) } := by
  have whole : h.list = front ++ [] ++ back := by rw [shape, List.append_nil]
  have linked := wf.toLinked.splice (some ⟨addr, soDummykey bucket, 0, 0⟩) whole
    (fun entry early node here => by cases here; exact below entry early)
    (fun node here entry late => by cases here; exact above entry late)
    (fun node here => by cases here; exact ⟨old, apart⟩)
  simp only [Option.toList_some, List.append_assoc, List.singleton_append] at linked
  have members : ∀ entry, entry ∈ front ++ ⟨addr, soDummykey bucket, 0, 0⟩ :: back ↔
      entry = ⟨addr, soDummykey bucket, 0, 0⟩ ∨ entry ∈ h.list := by
    intro entry
    rw [shape]
    simp only [List.mem_append, List.mem_cons]
    tauto
  refine ⟨⟨linked.sorted, linked.distinct, linked.allocated⟩, ?_, ?_, ?_, ?_, wf.power⟩
  · intro entry member nonzero
    rcases (members entry).mp member with rfl | was
    · exact absurd rfl nonzero
    · exact wf.regular entry was nonzero
  · intro entry member zero
    rcases (members entry).mp member with rfl | was
    · exact ⟨bucket, rfl, update_self ..⟩
    · obtain ⟨other, hashed, set⟩ := wf.dummy entry was zero
      have differs : other ≠ bucket := by
        rintro rfl
        rw [unset] at set
        cases set
      exact ⟨other, hashed, (update_of_ne differs ..).trans set⟩
  · intro other place set
    by_cases same : other = bucket
    · subst same
      simp only [update_self] at set
      cases set
      exact ⟨small, _, (members _).mpr (.inl rfl), rfl, rfl, rfl⟩
    · simp only [update_of_ne same] at set
      obtain ⟨bounded, entry, member, rest⟩ := wf.pointer other place set
      exact ⟨bounded, entry, (members entry).mpr (.inr member), rest⟩
  · obtain ⟨entry, rest, list, set⟩ := wf.first
    have differs : (0 : UInt64) ≠ bucket := by
      rintro rfl
      rw [unset] at set
      cases set
    cases front with
    | nil => exact absurd rfl nonempty
    | cons start later =>
      rw [shape, List.cons_append, List.cons.injEq] at list
      refine ⟨start, _, rfl, ?_⟩
      rw [list.1]
      exact (update_of_ne differs ..).trans set

theorem WellFormed.alloc (wf : h.WellFormed keys) : h.qpoolAlloc.2.WellFormed keys where
  toLinked := ⟨wf.sorted, wf.distinct, fun entry member =>
    Nat.lt_succ_of_lt (wf.allocated entry member)⟩
  regular := wf.regular
  dummy := wf.dummy
  pointer := wf.pointer
  first := wf.first
  power := wf.power

structure Same (keys : KeyOps) (h after : Dictionary) : Prop where
  wf : after.WellFormed keys
  bindings : ∀ key, after.bindings keys key = h.bindings keys key
  grown : h.fresh ≤ after.fresh
  old : ∀ entry ∈ after.list, entry.addr < h.fresh → entry ∈ h.list

theorem Same.trans {next after : Dictionary} (front : Same keys h next)
    (back : Same keys next after) : Same keys h after where
  wf := back.wf
  bindings key := (back.bindings key).trans (front.bindings key)
  grown := Nat.le_trans front.grown back.grown
  old := by
    intro entry member early
    exact front.old entry (back.old entry member (Nat.lt_of_lt_of_le early front.grown)) early

theorem WellFormed.linkDummy (wf : h.WellFormed keys) (unset : h.B bucket = none)
    (small : bucket.toNat < 2 ^ 63) (set : h.B (getParent bucket) = some addr) :
    ∃ after, h.linkDummy keys bucket = some after ∧ Same keys h after ∧
      after.B = update h.B bucket (some h.fresh) := by
  have nonzero : bucket ≠ 0 := by
    rintro rfl
    obtain ⟨entry, rest, list, first⟩ := wf.first
    rw [unset] at first
    cases first
  obtain ⟨front, nonempty, at_, relinked⟩ :=
    wf.alloc.located 0 set (parent_dummy_lt nonzero)
  have shape : h.list = front ++ _ := at_.shape
  have zero : (qtLfListFind keys (soDummykey bucket) 0
      (h.qpoolAlloc.2.split (getParent bucket)).2).value = 0 := by
    rcases at_.ends with ⟨zero, -⟩ | ⟨cur, next, rest, equal, holds, -⟩
    · exact zero
    · have member : cur ∈ h.list := by
        rw [shape, rest]
        simp
      have keyed := (Entry.holds_iff.mp holds).1
      have hashed := (wf.regular cur member keyed).2
      exact absurd (equal.symm.trans hashed) (dummy_ne_regular small)
  refine ⟨{ h.qpoolAlloc.2 with
    list := front ++ ⟨h.fresh, soDummykey bucket, 0, 0⟩ ::
      (qtLfListFind keys (soDummykey bucket) 0 (h.qpoolAlloc.2.split (getParent bucket)).2).rest
    B := update h.B bucket (some h.fresh) }, ?_, ?_, rfl⟩
  · simp only [Dictionary.linkDummy, qtLfListInsert, zero, ne_eq, not_true, if_false, relinked,
      Option.map_some]
    rfl
  · have apart : ∀ entry ∈ h.list, entry.addr ≠ h.fresh := fun entry member =>
      Nat.ne_of_lt (wf.allocated entry member)
    refine ⟨wf.alloc.addDummy at_.shape nonempty (fun entry early => (at_.below entry early).1)
      at_.above (Nat.lt_succ_self _) apart unset small, ?_, Nat.le_succ _, ?_⟩
    · intro key
      simp [bindings, shape, Entry.holds]
    · intro entry member early
      rw [shape]
      simp only [List.mem_append, List.mem_cons] at member ⊢
      rcases member with front | rfl | back
      · exact .inl front
      · exact absurd early (Nat.lt_irrefl _)
      · exact .inr back

theorem WellFormed.initializeBucket {depth : Nat} (wf : h.WellFormed keys)
    (unset : h.B bucket = none) (small : bucket.toNat < 2 ^ 63) (enough : bucket.toNat < depth) :
    ∃ after, h.initializeBucket keys depth bucket = some after ∧ Same keys h after ∧
      (∃ addr, after.B bucket = some addr) ∧
      ∀ other, bucket.toNat < other.toNat → after.B other = h.B other := by
  induction depth generalizing h bucket with
  | zero => exact absurd enough (Nat.not_lt_zero _)
  | succ depth ih =>
    have nonzero : bucket ≠ 0 := by
      rintro rfl
      obtain ⟨entry, rest, list, first⟩ := wf.first
      rw [unset] at first
      cases first
    have smaller := getParent_lt nonzero
    have linked : ∀ next addr, Same keys h next →
        (∀ other, (getParent bucket).toNat < other.toNat → next.B other = h.B other) →
        next.B (getParent bucket) = some addr →
        ∃ after, next.linkDummy keys bucket = some after ∧ Same keys h after ∧
          (∃ addr, after.B bucket = some addr) ∧
          ∀ other, bucket.toNat < other.toNat → after.B other = h.B other := by
      intro next addr same others set
      have still : next.B bucket = none := (others bucket smaller).trans unset
      obtain ⟨after, done, made, pointers⟩ := same.wf.linkDummy still small set
      refine ⟨after, done, same.trans made, ⟨next.fresh, ?_⟩, ?_⟩
      · rw [pointers, update_self]
      · intro other above
        have differs : other ≠ bucket := by
          rintro rfl
          exact absurd above (Nat.lt_irrefl _)
        rw [pointers, update_of_ne differs]
        exact others other (by omega)
    simp only [Dictionary.initializeBucket]
    cases parent : h.B (getParent bucket) with
    | none =>
      obtain ⟨next, ready, same, ⟨addr, set⟩, others⟩ := ih wf parent (by omega) (by omega)
      simp only [ready, Option.bind_some]
      exact linked next addr same others set
    | some addr =>
      exact linked h addr ⟨wf, fun _ => rfl, Nat.le_refl _, fun _ member _ => member⟩
        (fun _ _ => rfl) parent

theorem lkey_small (key : UInt64) : (keys.lkey key).toNat < 2 ^ 63 := by
  have mask : (~~~msb).toNat = 2 ^ 63 - 1 := by decide
  rw [KeyOps.lkey, UInt64.toNat_and, mask]
  have least := Nat.and_le_right (n := ((keys.opHash key).toInt64.toUInt64).toNat)
    (m := 2 ^ 63 - 1)
  omega

theorem WellFormed.bucketOf (wf : h.WellFormed keys) (key : UInt64) :
    ∃ bucket after addr, h.bucketOf keys key = some (bucket, after) ∧ Same keys h after ∧
      after.B bucket = some addr ∧ soDummykey bucket < soRegularkey (keys.lkey key) := by
  obtain ⟨i, -, power⟩ := wf.power
  have small : (keys.lkey key % h.size).toNat < 2 ^ 63 := by
    rw [UInt64.toNat_mod]
    exact Nat.lt_of_le_of_lt (Nat.mod_le _ _) (lkey_small key)
  have bits : (keys.lkey key % h.size) &&& keys.lkey key = keys.lkey key % h.size :=
    mod_two_pow_bits power
  have before := dummy_lt_regular bits small
  cases pointer : h.B (keys.lkey key % h.size) with
  | none =>
    obtain ⟨after, done, same, ⟨addr, set⟩, -⟩ :=
      wf.initializeBucket pointer small (Nat.lt_succ_self _)
    refine ⟨_, after, addr, ?_, same, set, before⟩
    simp only [Dictionary.bucketOf, pointer, done, Option.map_some]
  | some addr =>
    refine ⟨_, h, addr, ?_, ⟨wf, fun _ => rfl, Nat.le_refl _, fun _ member _ => member⟩, pointer,
      before⟩
    simp only [Dictionary.bucketOf, pointer]

def Represents (keys : KeyOps) (h : Dictionary) (map : FiniteMap) : Prop :=
  ∀ key, h.bindings keys key = (map key).toList

variable {other : UInt64}

theorem holds_congr (entry : Entry) (same : keys.opEquals other key = true) :
    entry.holds keys other = entry.holds keys key := by
  rw [Bool.eq_iff_iff, Entry.holds_iff, Entry.holds_iff]
  constructor
  · exact fun ⟨nonzero, equals⟩ => ⟨nonzero, keys.trans _ _ _ equals same⟩
  · exact fun ⟨nonzero, equals⟩ => ⟨nonzero, keys.trans _ _ _ equals (keys.symm _ _ same)⟩

theorem holds_apart (holds : entry.holds keys key = true)
    (apart : keys.opEquals other key = false) : entry.holds keys other = false := by
  rw [Bool.eq_false_iff]
  intro also
  have first := (Entry.holds_iff.mp holds).2
  have second := (Entry.holds_iff.mp also).2
  have same := keys.trans _ _ _ (keys.symm _ _ second) first
  rw [apart] at same
  cases same

theorem WellFormed.holds_hashed (wf : h.WellFormed keys) (member : entry ∈ h.list)
    (holds : entry.holds keys key = true) :
    entry.hashedKey = soRegularkey (keys.lkey key) := by
  obtain ⟨nonzero, equals⟩ := Entry.holds_iff.mp holds
  rw [(wf.regular entry member nonzero).2, KeyOps.lkey, KeyOps.lkey, keys.sameHash _ _ equals]

theorem Located.absent {front : List Entry} {found : Found} (wf : h.WellFormed keys)
    (located : Located keys h (soRegularkey (keys.lkey key)) key front found)
    (greater : ∀ entry ∈ found.rest, soRegularkey (keys.lkey key) < entry.hashedKey) :
    ∀ entry ∈ h.list, entry.holds keys key = false := by
  intro entry member
  rw [Bool.eq_false_iff]
  intro holds
  have hashed := wf.holds_hashed member holds
  rw [located.shape] at member
  rcases List.mem_append.mp member with early | late
  · rw [(located.below entry early).2 hashed] at holds
    cases holds
  · have more := greater entry late
    rw [hashed] at more
    exact UInt64.lt_irrefl _ more

theorem bindings_absent (absent : ∀ entry ∈ h.list, entry.holds keys key = false)
    (same : keys.opEquals other key = true) : h.bindings keys other = [] := by
  rw [bindings, List.map_eq_nil_iff, List.filter_eq_nil_iff]
  intro entry member
  rw [holds_congr entry same, absent entry member]
  exact Bool.false_ne_true

variable {map : FiniteMap}

theorem bindings_present {front back : List Entry} {cur : Entry}
    (shape : h.list = front ++ [cur] ++ back) (holds : cur.holds keys key = true)
    (same : keys.opEquals other key = true) (represents : h.Represents keys map) :
    map other = some cur.value ∧ front.filter (·.holds keys other) = [] ∧
      back.filter (·.holds keys other) = [] := by
  have one := represents other
  rw [← holds_congr cur same] at holds
  have whole : h.bindings keys other = (front.filter (·.holds keys other)).map (·.value) ++
      (cur.value :: (back.filter (·.holds keys other)).map (·.value)) := by
    simp [bindings, shape, holds]
  rw [whole] at one
  cases bound : map other with
  | none => simp [bound] at one
  | some value =>
    rw [bound, Option.toList_some] at one
    rcases List.append_eq_singleton_iff.mp one with ⟨vacant, single⟩ | ⟨-, empty⟩
    · rw [List.cons.injEq] at single
      exact ⟨congrArg some single.1.symm, List.map_eq_nil_iff.mp vacant,
        List.map_eq_nil_iff.mp single.2⟩
    · cases empty

theorem Represents.splice {front back : List Entry} (old : Option Entry)
    (new : Option Entry) (represents : h.Represents keys map)
    (shape : h.list = front ++ old.toList ++ back)
    (current : match old with
      | some cur => cur.holds keys key = true
      | none => ∀ entry ∈ h.list, entry.holds keys key = false)
    (keyed : ∀ node ∈ new, node.holds keys key = true) :
    Represents keys { h with list := front ++ new.toList ++ back }
      (map.bind keys key (new.map (·.value))) := by
  intro other
  rw [bindings_splice, FiniteMap.bind]
  cases same : keys.opEquals other key with
  | false =>
    have outside : ∀ entry : Option Entry, (∀ node ∈ entry, node.holds keys key = true) →
        entry.toList.filter (·.holds keys other) = [] := by
      intro entry holds
      cases entry with
      | none => rfl
      | some node => simp [holds_apart (holds node rfl) same]
    have before : old.toList.filter (·.holds keys other) = [] := by
      cases old with
      | none => rfl
      | some cur => exact outside (some cur) (fun node here => by cases here; exact current)
    rw [outside new keyed, if_neg Bool.false_ne_true, ← represents other]
    simp [bindings, shape, before]
  | true =>
    have empty : front.filter (·.holds keys other) = [] ∧
        back.filter (·.holds keys other) = [] := by
      cases old with
      | some cur => exact (bindings_present shape current same represents).2
      | none =>
        have nothing := bindings_absent current same
        rw [bindings, List.map_eq_nil_iff, shape] at nothing
        simpa using nothing
    have added : (new.toList.filter (·.holds keys other)).map (·.value) =
        (new.map (·.value)).toList := by
      cases new with
      | none => rfl
      | some node => simp [holds_congr node same, keyed node rfl]
    rw [empty.1, empty.2, added, if_pos rfl]
    simp

structure Searched (keys : KeyOps) (h : Dictionary) (bucket key : UInt64)
    (front : List Entry) (old : Option Entry) (back : List Entry) : Prop where
  nonempty : front ≠ []
  shape : h.list = front ++ old.toList ++ back
  below : ∀ entry ∈ front, entry.hashedKey ≤ soRegularkey (keys.lkey key)
  above : ∀ entry ∈ back, soRegularkey (keys.lkey key) ≤ entry.hashedKey
  current : match old with
    | some cur => cur.holds keys key = true
    | none => ∀ entry ∈ h.list, entry.holds keys key = false
  rest : (qtLfListFind keys (soRegularkey (keys.lkey key)) key (h.split bucket).2).rest =
    old.toList ++ back
  value : (qtLfListFind keys (soRegularkey (keys.lkey key)) key (h.split bucket).2).value =
    (old.map (·.value)).getD 0
  relinked : ∀ rest, h.relink bucket
    (qtLfListFind keys (soRegularkey (keys.lkey key)) key (h.split bucket).2).passed rest =
      some { h with list := front ++ rest }

theorem WellFormed.search (wf : h.WellFormed keys) (set : h.B bucket = some addr)
    (before : soDummykey bucket < soRegularkey (keys.lkey key)) :
    ∃ front old back, Searched keys h bucket key front old back := by
  obtain ⟨front, nonempty, located, relinked⟩ := wf.located key set before
  rcases located.ends with ⟨zero, greater⟩ | ⟨cur, next, rest, equal, holds, value⟩
  · exact ⟨front, none, _, {
      nonempty, relinked
      shape := by simpa using located.shape
      below := fun entry early => (located.below entry early).1
      above := located.above
      current := located.absent wf greater
      rest := rfl
      value := zero }⟩
  · exact ⟨front, some cur, next, {
      nonempty, relinked, value, rest
      shape := by simpa [rest] using located.shape
      below := fun entry early => (located.below entry early).1
      above := fun entry late => located.above entry (rest ▸ List.mem_cons_of_mem _ late)
      current := holds }⟩

section Searched

variable {front back : List Entry} {old : Option Entry}

section

variable (searched : Searched keys h bucket key front old back)
include searched

theorem Searched.old_holds : ∀ entry ∈ old, entry ∈ h.list ∧ entry.holds keys key = true := by
  intro entry here
  cases here
  exact ⟨by rw [searched.shape]; simp, searched.current⟩

theorem Searched.value_zero (wf : h.WellFormed keys) :
    (qtLfListFind keys (soRegularkey (keys.lkey key)) key (h.split bucket).2).value = 0 ↔
      old = none := by
  rw [searched.value]
  cases old with
  | none => exact iff_of_true rfl rfl
  | some cur =>
    obtain ⟨member, holds⟩ := searched.old_holds cur rfl
    have nonzero := (wf.regular cur member (Entry.holds_iff.mp holds).1).1
    exact iff_of_false nonzero (Option.some_ne_none cur)

theorem Searched.bound {map : FiniteMap}
    (represents : h.Represents keys map) : map key = old.map (·.value) := by
  cases old with
  | some cur =>
    exact (bindings_present searched.shape searched.current (keys.refl key) represents).1
  | none =>
    have nothing := represents key
    rw [bindings_absent searched.current (keys.refl key)] at nothing
    cases bound : map key with
    | none => rfl
    | some value => simp [bound] at nothing

theorem Searched.splice {map : FiniteMap}
    (wf : h.WellFormed keys) (represents : h.Represents keys map) (new : Option Entry)
    (fits : ∀ node ∈ new, node.key = key ∧ key ≠ 0 ∧ node.value ≠ 0 ∧
      node.hashedKey = soRegularkey (keys.lkey key))
    (taken : ∀ node ∈ new, node.addr < h.fresh ∧ ∀ entry ∈ h.list, entry.addr ≠ node.addr) :
    WellFormed keys { h with list := front ++ (new.toList ++ back) } ∧
      Represents keys { h with list := front ++ (new.toList ++ back) }
        (map.bind keys key (new.map (·.value))) := by
  rw [← List.append_assoc]
  constructor
  · refine wf.splice new searched.shape searched.nonempty ?_ ?_ taken ?_ ?_
    · intro entry early node here
      rw [(fits node here).2.2.2]
      exact searched.below entry early
    · intro node here entry late
      rw [(fits node here).2.2.2]
      exact searched.above entry late
    · intro entry member
      obtain ⟨-, holds⟩ := searched.old_holds entry (Option.mem_toList.mp member)
      exact (Entry.holds_iff.mp holds).1
    · intro node here
      obtain ⟨same, nonzero, value, hashed⟩ := fits node here
      subst same
      exact ⟨nonzero, value, hashed⟩
  · refine represents.splice old new searched.shape searched.current ?_
    intro node here
    obtain ⟨same, nonzero, -⟩ := fits node here
    subst same
    exact Entry.holds_iff.mpr ⟨nonzero, keys.refl _⟩

end

end Searched

theorem WellFormed.grow (wf : h.WellFormed keys) : h.grow.WellFormed keys := by
  refine ⟨⟨wf.sorted, wf.distinct, wf.allocated⟩, wf.regular, wf.dummy, wf.pointer, wf.first, ?_⟩
  obtain ⟨i, bound, power⟩ := wf.power
  simp only [Dictionary.grow]
  split
  · split
    case isTrue fits =>
      have most : (2 : UInt64).toNat = 2 := rfl
      have cap : hardMaxBuckets.toNat = 2 ^ 20 := by decide
      have small : 2 ^ i ≤ 2 ^ 20 := Nat.pow_le_pow_right (by decide) bound
      rw [UInt64.le_iff_toNat_le, UInt64.toNat_mul, power, most, cap,
        Nat.mod_eq_of_lt (by omega), ← Nat.pow_succ'] at fits
      refine ⟨i + 1, (Nat.pow_le_pow_iff_right (by decide)).mp fits, ?_⟩
      rw [UInt64.toNat_mul, power, most, Nat.mod_eq_of_lt (by omega), ← Nat.pow_succ']
    case isFalse => exact ⟨i, bound, power⟩
  · exact ⟨i, bound, power⟩

theorem Represents.same {after : Dictionary} (represents : h.Represents keys map)
    (same : Same keys h after) : after.Represents keys map := by
  intro key
  rw [same.bindings, represents key]

section

variable (wf : h.WellFormed keys)
include wf

theorem Same.taken {after : Dictionary} (same : Same keys h.qpoolAlloc.2 after) :
    h.fresh < after.fresh ∧ ∀ entry ∈ after.list, entry.addr ≠ h.fresh := by
  refine ⟨Nat.lt_of_lt_of_le (Nat.lt_succ_self _) same.grown, ?_⟩
  intro entry member equal
  have was := same.old entry member (by rw [equal]; exact Nat.lt_succ_self _)
  exact absurd (wf.allocated entry was) (by rw [equal]; exact Nat.lt_irrefl _)

section

variable (represents : h.Represents keys map)
include represents

theorem put_exact {value : UInt64} (keyed : key ≠ 0) (valued : value ≠ 0) :
    ∃ after, h.put keys key value = some (value, after) ∧ after.WellFormed keys ∧
      after.Represents keys (map.bind keys key (some value)) := by
  obtain ⟨bucket, next, addr, ready, same, set, before⟩ := wf.alloc.bucketOf key
  have taken := same.taken wf
  have represents : h.qpoolAlloc.2.Represents keys map := represents
  obtain ⟨front, old, back, searched⟩ := same.wf.search set before
  obtain ⟨kept, bound⟩ := searched.splice same.wf (represents.same same)
    (some ⟨h.fresh, soRegularkey (keys.lkey key), key, value⟩)
    (fun node here => by cases here; exact ⟨rfl, keyed, valued, rfl⟩)
    (fun node here => by cases here; exact taken)
  refine ⟨_, ?_, kept.grow, bound⟩
  have inserted : next.qtLfForceListInsert keys bucket
      ⟨h.fresh, soRegularkey (keys.lkey key), key, value⟩ = some { next with
        list := front ++ ⟨h.fresh, soRegularkey (keys.lkey key), key, value⟩ :: back } := by
    simp only [qtLfForceListInsert, searched.relinked, searched.rest]
    have value := searched.value_zero same.wf
    cases old with
    | none => simp [value]
    | some cur => simp [value]
  change ((h.qpoolAlloc.2.bucketOf keys key).bind fun found =>
    (found.2.qtLfForceListInsert keys found.1
      ⟨h.fresh, soRegularkey (keys.lkey key), key, value⟩).bind fun after =>
        some (value, after.grow)) = _
  rw [ready, Option.bind_some, inserted, Option.bind_some]
  rfl

theorem putIfAbsent_exact {value : UInt64} (keyed : key ≠ 0) (valued : value ≠ 0) :
    ∃ after, h.putIfAbsent keys key value =
        some ((map.call keys (.putIfAbsent key value)).1, after) ∧ after.WellFormed keys ∧
      after.Represents keys (map.call keys (.putIfAbsent key value)).2 := by
  obtain ⟨bucket, next, addr, ready, same, set, before⟩ := wf.alloc.bucketOf key
  have taken := same.taken wf
  have represents : h.qpoolAlloc.2.Represents keys map := represents
  obtain ⟨front, old, back, searched⟩ := same.wf.search set before
  have found := searched.bound (represents.same same)
  have zero := searched.value_zero same.wf
  change ∃ after, (h.qpoolAlloc.2.bucketOf keys key).bind _ = _ ∧ _
  rw [ready, Option.bind_some]
  simp only [qtLfListInsert, searched.relinked, searched.rest, ne_eq, zero, FiniteMap.call, found]
  cases old with
  | some cur => exact ⟨next, by simp, same.wf, represents.same same⟩
  | none =>
    obtain ⟨kept, bound⟩ := searched.splice same.wf (represents.same same)
      (some ⟨h.fresh, soRegularkey (keys.lkey key), key, value⟩)
      (fun node here => by cases here; exact ⟨rfl, keyed, valued, rfl⟩)
      (fun node here => by cases here; exact taken)
    exact ⟨_, by simp, kept.grow, bound⟩

theorem get_exact (key : UInt64) :
    ∃ after, h.get keys key = some ((map key).getD 0, after) ∧ after.WellFormed keys ∧
      after.Represents keys map := by
  obtain ⟨bucket, next, addr, ready, same, set, before⟩ := wf.bucketOf key
  obtain ⟨front, old, back, searched⟩ := same.wf.search set before
  refine ⟨next, ?_, same.wf, represents.same same⟩
  change (h.bucketOf keys key).bind _ = _
  rw [ready, Option.bind_some, searched.bound (represents.same same), ← searched.value]
  rfl

theorem remove_exact (key : UInt64) :
    ∃ after, h.remove keys key = some ((map key).isSome, after) ∧ after.WellFormed keys ∧
      after.Represents keys (map.bind keys key none) := by
  obtain ⟨bucket, next, addr, ready, same, set, before⟩ := wf.bucketOf key
  obtain ⟨front, old, back, searched⟩ := same.wf.search set before
  have found := searched.bound (represents.same same)
  have zero := searched.value_zero same.wf
  obtain ⟨kept, bound⟩ := searched.splice same.wf (represents.same same) none nofun nofun
  change ∃ after, (h.bucketOf keys key).bind _ = _ ∧ _
  rw [ready, Option.bind_some]
  simp only [qtLfListDelete, searched.relinked, searched.rest, zero, found]
  cases old with
  | none =>
    have unchanged : { next with list := front ++ (none.toList ++ back) } = next := by
      have shape := searched.shape
      simp only [Option.toList_none, List.append_nil] at shape
      simp only [Option.toList_none, List.nil_append, ← shape]
    rw [unchanged] at kept bound
    exact ⟨next, by simp, kept, bound⟩
  | some cur =>
    refine ⟨{ next with list := front ++ back, count := next.count - 1 }, by simp, ?_, bound⟩
    exact ⟨⟨kept.sorted, kept.distinct, kept.allocated⟩, kept.regular, kept.dummy, kept.pointer,
      kept.first, kept.power⟩

theorem delete_exact (key : UInt64) :
    ∃ after, h.delete keys key = some ((map key).getD 0, after) ∧ after.WellFormed keys ∧
      after.Represents keys (map.bind keys key none) := by
  obtain ⟨next, got, nextWf, nextMap⟩ := get_exact wf represents key
  obtain ⟨after, removed, kept, bound⟩ := remove_exact nextWf nextMap key
  refine ⟨after, ?_, kept, bound⟩
  simp only [delete, got, removed, Option.bind_eq_bind, Option.bind_some, Option.pure_def]
  cases map key with
  | none => rfl
  | some value => rfl

end

end

theorem call_exact (call : Call) (wf : h.WellFormed keys)
    (represents : h.Represents keys map) (nonNull : call.NonNull) :
    ∃ after, h.call keys call = some ((map.call keys call).1, after) ∧ after.WellFormed keys ∧
      after.Represents keys (map.call keys call).2 := by
  cases call with
  | put key value => exact put_exact wf represents nonNull.1 nonNull.2
  | putIfAbsent key value => exact putIfAbsent_exact wf represents nonNull.1 nonNull.2
  | get key => exact get_exact wf represents key
  | delete key => exact delete_exact wf represents key

theorem calls_exact (calls : List Call) (wf : h.WellFormed keys)
    (represents : h.Represents keys map) (nonNull : ∀ call ∈ calls, call.NonNull) :
    ∃ last, h.calls keys calls = some ((map.calls keys calls).1, last) ∧ last.WellFormed keys ∧
      last.Represents keys (map.calls keys calls).2 := by
  induction calls generalizing h map with
  | nil => exact ⟨h, rfl, wf, represents⟩
  | cons call rest ih =>
    obtain ⟨next, done, nextWf, nextMap⟩ :=
      call_exact call wf represents (nonNull call List.mem_cons_self)
    obtain ⟨last, ran, kept, bound⟩ :=
      ih nextWf nextMap (fun later member => nonNull later (List.mem_cons_of_mem _ member))
    refine ⟨last, ?_, kept, bound⟩
    simp only [calls, done, ran, FiniteMap.calls]

theorem create_wf (keys : KeyOps) : create.WellFormed keys where
  sorted := List.pairwise_singleton _ _
  distinct := List.nodup_singleton _
  allocated := by
    intro entry member
    cases List.mem_singleton.mp member
    decide
  regular := by
    intro entry member nonzero
    cases List.mem_singleton.mp member
    exact absurd rfl nonzero
  dummy := by
    intro entry member _
    cases List.mem_singleton.mp member
    exact ⟨0, by decide, rfl⟩
  pointer := by
    intro bucket addr set
    simp only [create] at set
    split at set
    case isTrue zero =>
      subst zero
      cases set
      exact ⟨by decide, _, List.mem_singleton.mpr rfl, rfl, rfl, by decide⟩
    case isFalse => cases set
  first := ⟨_, [], rfl, rfl⟩
  power := ⟨1, by decide, rfl⟩

/-- The calls return what a finite map returns; the list from `B[0]` is in split order and has
each bound key once. -/
def FiniteMapExact (keys : KeyOps) (made : List Call) : Prop :=
  ∃ last, create.calls keys made = some ((FiniteMap.calls keys (fun _ => none) made).1, last) ∧
    last.list.head?.map (·.addr) = last.B 0 ∧ last.Sorted ∧
    last.Represents keys (FiniteMap.calls keys (fun _ => none) made).2

/-- Every run is that of a finite map, however often the buckets double and in whatever order
they are initialised. -/
theorem shavit_finiteMap (keys : KeyOps) (made : List Call)
    (nonNull : ∀ call ∈ made, call.NonNull) : FiniteMapExact keys made := by
  have empty : create.Represents keys fun _ => none := fun _ => rfl
  obtain ⟨last, ran, wf, represents⟩ := calls_exact made (create_wf keys) empty nonNull
  obtain ⟨entry, rest, list, set⟩ := wf.first
  refine ⟨last, ran, ?_, wf.sorted, represents⟩
  rw [list, set]
  rfl

def lowBits : KeyOps where
  opEquals key other := key % 16 == other % 16
  opHash key := -(key % 16 / 2).toUInt32.toInt32
  refl := by simp
  symm := by
    intro key other same
    rw [beq_iff_eq] at same ⊢
    exact same.symm
  trans := by
    intro key other third first second
    rw [beq_iff_eq] at first second ⊢
    exact first.trans second
  sameHash := by
    intro key other same
    rw [beq_iff_eq] at same
    rw [same]

theorem shavit_finiteMap_across_a_resize :
    (create.calls lowBits ((List.range 12).map (fun i => .put (.ofNat (i + 1)) (.ofNat (i + 20))) ++
        [.get 17, .delete 18, .get 2, .putIfAbsent 19 7])).map (fun ran => (ran.1.drop 12, ran.2.size)) =
      some ([20, 21, 0, 22], 4) ∧
    FiniteMapExact lowBits ((List.range 12).map (fun i => .put (.ofNat (i + 1)) (.ofNat (i + 20))) ++
        [.get 17, .delete 18, .get 2, .putIfAbsent 19 7]) :=
  ⟨by decide +kernel, shavit_finiteMap lowBits _ (by decide +kernel)⟩

end Dictionary

end Qthreads.Dict
