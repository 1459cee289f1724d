import Qthreads.Qarray.Placement

namespace Qthreads.Segments

variable {n pagesize : Nat} {a : Record} {around : Around} {shared : Shared} {request : Request}
  {tracker : Nat → Int} {seg index other : Nat}

/-- The elements lie apart inside of the array, each with room for an object, and the shepherd of
each segment lies in its segment beside the elements. -/
structure LaidOut (a : Record) (objSize : Nat) : Prop where
  size : 0 < a.segmentSize
  bytes : 0 < a.segmentBytes
  room : objSize ≤ a.unitSize
  inside : ∀ index < a.count, ∃ elem, a.elemNomigrate index = some elem ∧ a.basePtr ≤ elem ∧
    elem + a.unitSize ≤ a.head a.segmentCount
  apart : ∀ index other elem before, index < other → other < a.count →
    a.elemNomigrate index = some before → a.elemNomigrate other = some elem →
      before + a.unitSize ≤ elem
  slots : a.distType = .dist → ∀ seg < a.segmentCount, ∃ slot,
    a.segmentShep (a.head seg) = some slot ∧ a.head seg ≤ slot ∧ slot + 2 ≤ a.head (seg + 1) ∧
      ∀ index < a.count, ∀ elem, a.elemNomigrate index = some elem →
        elem + a.unitSize ≤ slot ∨ slot + 2 ≤ elem

/-- A thread that migrates finds the same element, and goes where the element is told to be. -/
def Migrates (a : Record) (n : Nat) (memory : Nat → Nat) : Prop :=
  ∀ index < a.count, ∃ elem dest, a.elemMigrate n memory index = some (elem, dest) ∧
    a.elemNomigrate index = some elem ∧ a.shepof n memory index = some dest

namespace Record

theorem elemNomigrate_eq (positive : 0 < a.segmentSize) (inside : index ≤ a.count) :
    a.elemNomigrate index =
      .some (a.head (index / a.segmentSize) + index % a.segmentSize * a.unitSize) := by
  have divided := Nat.div_add_mod index a.segmentSize
  have rest : index - index / a.segmentSize * a.segmentSize = index % a.segmentSize := by
    rw [Nat.mul_comm]
    omega
  simp only [elemNomigrate, if_neg (Nat.not_lt.mpr inside), divide_eq positive, Option.bind_eq_bind,
    Option.bind_some, rest, head, Nat.add_assoc]

theorem elem_bounds (positive : 0 < a.segmentSize) (inside : index ≤ a.count) {elem : Nat}
    (found : a.elemNomigrate index = .some elem) :
    a.head (index / a.segmentSize) ≤ elem ∧
      elem + a.unitSize ≤ a.head (index / a.segmentSize) + a.segmentSize * a.unitSize := by
  rw [elemNomigrate_eq positive inside] at found
  obtain rfl := Option.some.inj found
  have below := Nat.mod_lt index positive
  have scaled := Nat.mul_le_mul_right a.unitSize (Nat.succ_le_of_lt below)
  rw [Nat.succ_mul] at scaled
  omega

theorem laid_elements (positive : 0 < a.segmentSize) (held : a.segmentSize * a.unitSize ≤ a.segmentBytes) :
    (∀ index < a.count, ∃ elem, a.elemNomigrate index = .some elem ∧ a.basePtr ≤ elem ∧
      elem + a.unitSize ≤ a.head a.segmentCount) ∧
    ∀ index other elem before, index < other → other < a.count →
      a.elemNomigrate index = .some before → a.elemNomigrate other = .some elem →
        before + a.unitSize ≤ elem := by
  constructor
  · intro index inside
    have found := elemNomigrate_eq positive (Nat.le_of_lt inside)
    have bounds := elem_bounds positive (Nat.le_of_lt inside) found
    have last := a.head_mono (Nat.succ_le_of_lt (a.div_lt_segmentCount positive inside))
    rw [Nat.succ_eq_add_one, head_succ] at last
    have first : a.basePtr ≤ a.head (index / a.segmentSize) := Nat.le_add_right ..
    exact ⟨_, found, by omega, by omega⟩
  · intro index other elem before order inside first second
    have firstBounds := elem_bounds positive (by omega) first
    have secondBounds := elem_bounds positive (by omega) second
    rcases Nat.lt_or_eq_of_le (Nat.div_le_div_right (c := a.segmentSize) (Nat.le_of_lt order))
      with earlier | same
    · have next := a.head_mono (Nat.succ_le_of_lt earlier)
      rw [Nat.succ_eq_add_one, head_succ] at next
      omega
    · rw [elemNomigrate_eq positive (by omega)] at first second
      obtain rfl := Option.some.inj first
      obtain rfl := Option.some.inj second
      have firstDivided := Nat.div_add_mod index a.segmentSize
      have secondDivided := Nat.div_add_mod other a.segmentSize
      rw [same] at firstDivided ⊢
      have less : index % a.segmentSize + 1 ≤ other % a.segmentSize := by omega
      have scaled := Nat.mul_le_mul_right a.unitSize less
      rw [Nat.add_one_mul] at scaled
      omega

theorem segmentShep_iff (type : a.distType = .dist) (base : 4 ∣ a.basePtr) (words : 4 ∣ a.segmentBytes) :
    (∃ slot, a.segmentShep (a.head seg) = some slot) ↔
      a.segmentSize * a.unitSize + 4 ≤ a.segmentBytes := by
  have aligned : 4 ∣ a.head seg := Nat.dvd_add base (Dvd.dvd.mul_left words seg)
  simp only [segmentShep, if_pos type]
  constructor
  · rintro ⟨slot, found⟩
    split_ifs at found <;> omega
  · intro room
    split_ifs <;> first | exact ⟨_, rfl⟩ | omega

theorem slot_beside (positive : 0 < a.segmentSize) (held : a.segmentSize * a.unitSize ≤ a.segmentBytes)
    {slot elem : Nat} (found : a.segmentShep (a.head seg) = .some slot) (inside : index < a.count)
    (there : a.elemNomigrate index = .some elem) : elem + a.unitSize ≤ slot ∨ slot + 2 ≤ elem := by
  have bounds := elem_bounds positive (Nat.le_of_lt inside) there
  have own := segmentShep_bounds found
  rcases Nat.lt_trichotomy (index / a.segmentSize) seg with earlier | rfl | later
  · have next := a.head_mono (Nat.succ_le_of_lt earlier)
    rw [Nat.succ_eq_add_one, head_succ] at next
    omega
  · have past : a.head (index / a.segmentSize) + a.segmentSize * a.unitSize ≤ slot := by
      simp only [segmentShep] at found
      split_ifs at found <;> obtain rfl := Option.some.inj found <;> omega
    omega
  · have next := a.head_mono (Nat.succ_le_of_lt later)
    rw [Nat.succ_eq_add_one] at next
    omega

end Record

theorem laidOut_of {objSize : Nat} (pos : 0 < a.segmentSize) (units : 0 < a.unitSize)
    (room : objSize ≤ a.unitSize) (held : a.segmentSize * a.unitSize ≤ a.segmentBytes)
    (slots : a.distType = .dist → ∀ seg < a.segmentCount, ∃ slot,
      a.segmentShep (a.head seg) = .some slot) : LaidOut a objSize := by
  have positive := Nat.mul_pos pos units
  obtain ⟨inside, apart⟩ := Record.laid_elements pos held
  refine ⟨pos, by omega, room, inside, apart, ?_⟩
  intro type seg within
  obtain ⟨slot, found⟩ := slots type seg within
  have bounds := Record.segmentShep_bounds found
  exact ⟨slot, found, bounds.1, by omega, fun index inside elem there =>
    Record.slot_beside pos held found inside there⟩

namespace Request

def bytes (pagesize : Nat) (request : Request) : Nat :=
  if request.segPages = 0 then 16 * pagesize else request.segPages * pagesize

/-- Where a segment holds an element, and its shepherd where that is stored in the segment: either
the elements leave four bytes, or the last element's room gives them. -/
def Roomy (pagesize : Nat) (request : Request) : Prop :=
  if request.d.distType = .dist then
    (request.unitSize ≤ request.bytes pagesize ∧
        4 ≤ request.bytes pagesize % request.unitSize) ∨
      (2 * request.unitSize ≤ request.bytes pagesize ∧
        if request.unitSize ≤ pagesize then
          4 ≤ request.bytes pagesize % request.unitSize + request.unitSize
        else pagesize ∣ request.unitSize ∨
          4 ≤ request.bytes pagesize % request.unitSize + request.unitSize % pagesize)
  else request.segPages = 0 ∨ request.unitSize ≤ request.segPages * pagesize

theorem le_unitSize (request : Request) : request.objSize ≤ request.unitSize := by
  simp only [unitSize]
  split_ifs <;> omega

theorem sizes_fixed (fixed : request.d.distType ≠ .dist) (asks : 0 < request.objSize)
    (paged : 0 < pagesize) : (request.sizes pagesize).1 * request.unitSize ≤ (request.sizes pagesize).2 ∧
      (0 < (request.sizes pagesize).1 ↔
        request.segPages = 0 ∨ request.unitSize ≤ request.segPages * pagesize) := by
  have units : 0 < request.unitSize := Nat.lt_of_lt_of_le asks request.le_unitSize
  have same : request.sizes pagesize =
      ((if request.segPages = 0 then
          if request.unitSize > 16 * pagesize then Nat.lcm request.unitSize pagesize
          else 16 * pagesize
        else request.segPages * pagesize) / request.unitSize,
        if request.segPages = 0 then
          if request.unitSize > 16 * pagesize then Nat.lcm request.unitSize pagesize
          else 16 * pagesize
        else request.segPages * pagesize) := by
    rw [sizes]
    split
    · contradiction
    · rfl
  rw [same]
  refine ⟨Nat.div_mul_le_self _ _, ?_⟩
  change 0 < _ / _ ↔ _
  rw [Nat.div_pos_iff]
  have multiple := Nat.le_of_dvd (Nat.lcm_pos units paged) (Nat.dvd_lcm_left request.unitSize pagesize)
  split_ifs <;> omega

theorem minus_eq {x y : Nat} (le : y ≤ x) (fits : x < 2 ^ 64) : minus x y = x - y := by
  rw [minus]
  omega

theorem sizes_dist (dist : request.d.distType = .dist) (asks : 0 < request.objSize)
    (power : 4 ≤ pagesize) (words : 4 ∣ pagesize) (fits : request.bytes pagesize < 2 ^ 64) :
    4 ∣ (request.sizes pagesize).2 ∧
      (0 < (request.sizes pagesize).1 ∧
        (request.sizes pagesize).1 * request.unitSize + 4 ≤ (request.sizes pagesize).2 ↔
          request.Roomy pagesize) := by
  have units : 0 < request.unitSize := Nat.lt_of_lt_of_le asks request.le_unitSize
  have large : 4 ≤ request.bytes pagesize ∧ 4 ∣ request.bytes pagesize := by
    rw [bytes]
    split_ifs with zero
    · exact ⟨by omega, Dvd.dvd.mul_left words 16⟩
    · have := Nat.mul_le_mul (Nat.one_le_iff_ne_zero.mpr zero) power
      exact ⟨by omega, Dvd.dvd.mul_left words _⟩
  obtain ⟨four, wordBytes⟩ := large
  have divided : request.bytes pagesize / request.unitSize * request.unitSize +
      request.bytes pagesize % request.unitSize = request.bytes pagesize := Nat.div_add_mod' ..
  have fewer := Nat.div_le_self (request.bytes pagesize) request.unitSize
  have rest := Nat.mod_lt (request.bytes pagesize) units
  have asked : request.Roomy pagesize ↔ _ := iff_of_eq (if_pos dist)
  rw [asked]
  have same : request.sizes pagesize =
      if request.bytes pagesize -
          request.bytes pagesize / request.unitSize * request.unitSize < 4 then
        (minus (request.bytes pagesize / request.unitSize) 1,
          if request.unitSize > pagesize then
            if request.unitSize % pagesize = 0 then
              (minus (request.bytes pagesize) (request.unitSize / pagesize * pagesize) + pagesize) %
                2 ^ 64
            else minus (request.bytes pagesize) (request.unitSize / pagesize * pagesize)
          else request.bytes pagesize)
      else (request.bytes pagesize / request.unitSize, request.bytes pagesize) := by
    simp only [sizes, dist, bytes]
    split_ifs <;> rfl
  rw [same]
  by_cases left : 4 ≤ request.bytes pagesize % request.unitSize
  · rw [if_neg (by omega)]
    refine ⟨wordBytes, ?_⟩
    change 0 < _ / _ ∧ _ / _ * _ + 4 ≤ _ ↔ _
    rw [Nat.div_pos_iff]
    constructor
    · rintro ⟨⟨-, fit⟩, -⟩
      exact .inl ⟨fit, left⟩
    · rintro (⟨fit, -⟩ | ⟨fit, -⟩) <;> omega
  · rw [if_pos (by omega)]
    have positive : 0 < request.bytes pagesize / request.unitSize := by
      refine Nat.pos_of_ne_zero fun zero => ?_
      rw [zero, Nat.zero_mul] at divided
      omega
    have one : (request.bytes pagesize / request.unitSize - 1) * request.unitSize +
        request.unitSize = request.bytes pagesize / request.unitSize * request.unitSize := by
      rw [← Nat.add_one_mul, Nat.sub_add_cancel positive]
    have two : 0 < request.bytes pagesize / request.unitSize - 1 ↔
        2 * request.unitSize ≤ request.bytes pagesize := by
      rw [← Nat.le_div_iff_mul_le units]
      omega
    have pages := Nat.div_add_mod' request.unitSize pagesize
    have wordPages : 4 ∣ request.unitSize / pagesize * pagesize := Dvd.dvd.mul_left words _
    have dropped := Nat.mod_lt request.unitSize (show 0 < pagesize by omega)
    obtain ⟨kept, part⟩ : ∃ kept, request.bytes pagesize =
        request.unitSize / pagesize * pagesize + kept := Nat.exists_eq_add_of_le (by omega)
    have cut : minus (request.bytes pagesize) (request.unitSize / pagesize * pagesize) = kept := by
      rw [minus_eq (by omega) fits]
      omega
    have back : pagesize < request.unitSize → (kept + pagesize) % 2 ^ 64 = kept + pagesize := by
      intro wide
      have := Nat.mul_le_mul_right pagesize (Nat.div_pos (Nat.le_of_lt wide) (by omega))
      exact Nat.mod_eq_of_lt (by omega)
    rw [minus_eq positive (by omega), cut]
    change 4 ∣ (if _ then _ else _) ∧ (0 < _ - 1 ∧ (_ - 1) * _ + 4 ≤ (if _ then _ else _) ↔ _)
    rw [two, Nat.dvd_iff_mod_eq_zero (m := pagesize)]
    by_cases wide : request.unitSize > pagesize
    · have narrow : ¬request.unitSize ≤ pagesize := by omega
      rw [if_pos wide, if_neg narrow, back wide]
      split_ifs <;> omega
    · rw [if_neg wide, if_pos (by omega)]
      omega

end Request

theorem laidOut_iff (around : Around) (tracker : Nat → Int) (power : 4 ≤ pagesize)
    (words : 4 ∣ pagesize) (base : pagesize ∣ around.basePtr) (counted : 0 < request.count)
    (asks : 0 < request.objSize) (fits : request.bytes pagesize < 2 ^ 64) :
    LaidOut (request.record pagesize n around tracker) request.objSize ↔ request.Roomy pagesize := by
  have units : 0 < request.unitSize := Nat.lt_of_lt_of_le asks request.le_unitSize
  by_cases dist : request.d.distType = .dist
  · obtain ⟨wordBytes, roomy⟩ := request.sizes_dist dist asks power words fits
    have wordBase : 4 ∣ around.basePtr := Nat.dvd_trans words base
    have slot : ∀ seg, (∃ slot, (request.record pagesize n around tracker).segmentShep
        ((request.record pagesize n around tracker).head seg) = some slot) ↔
        (request.sizes pagesize).1 * request.unitSize + 4 ≤ (request.sizes pagesize).2 :=
      fun seg => Record.segmentShep_iff dist wordBase wordBytes
    rw [← roomy]
    constructor
    · intro laid
      have first : 0 < (request.record pagesize n around tracker).segmentCount :=
        Nat.lt_of_le_of_lt (Nat.zero_le _) (Record.div_lt_segmentCount laid.size counted)
      obtain ⟨found, there, -⟩ := laid.slots dist 0 first
      exact ⟨laid.size, (slot 0).mp ⟨found, there⟩⟩
    · rintro ⟨size, held⟩
      exact laidOut_of size units request.le_unitSize (Nat.le_of_add_right_le held)
        fun _ seg _ => (slot seg).mpr held
  · obtain ⟨held, size⟩ := request.sizes_fixed dist asks (show 0 < pagesize by omega)
    have asked : request.Roomy pagesize ↔ _ := iff_of_eq (if_neg dist)
    rw [asked, ← size]
    constructor
    · exact fun laid => laid.size
    · intro size
      exact laidOut_of size units request.le_unitSize held fun type => absurd type dist

theorem least_lt (tracker : Nat → Int) (positive : 0 < n) : least n tracker < n := by
  have stays : ∀ (indices : List Nat) start, start < n → (∀ i ∈ indices, i < n) →
      indices.foldl (fun least i => if tracker i < tracker least then i else least) start < n := by
    intro indices
    induction indices with
    | nil => exact fun start below _ => below
    | cons first rest induction =>
      intro start below each
      rw [List.foldl_cons]
      refine induction _ ?_ fun i member => each i (List.mem_cons_of_mem _ member)
      split_ifs
      · exact each first List.mem_cons_self
      · exact below
  refine stays _ 0 positive fun i member => ?_
  rw [List.mem_range'_1] at member
  omega

theorem fields_total (around : Around) (tracker : Nat → Int) (shared : Shared)
    (fields : request.d.Fields) {segments : Nat} (cut : Cut pagesize segments request)
    (few : segments < n) (inside : seg < segments) :
    ∃ shep < n, (request.record pagesize n around tracker).target request.d n around shared seg =
      some shep := by
  have zero : segments / n = 0 := Nat.div_eq_of_lt few
  have extras : segments % n = segments := Nat.mod_eq_of_lt few
  have half : seg / (1 + 1) < segments := by omega
  rcases fields with fields | fields
  · refine ⟨_, ?_, by rw [fields, target_fixedFields around tracker shared fields cut seg]⟩
    simp only [Distribution.hand, Lib.blockOf, zero, extras, if_true, if_pos half]
    omega
  · refine ⟨seg, by omega, ?_⟩
    simp only [fields, Record.target, record_segmentCount around tracker cut, zero, extras]
    rw [if_neg (by omega), Nat.div_one]

theorem target_total (around : Around) (tracker : Nat → Int) (shared : Shared) (positive : 0 < n)
    (runs : around.shep < n) {segments : Nat} (cut : Cut pagesize segments request)
    (inside : seg < segments) :
    ∃ shep < n, (request.record pagesize n around tracker).target request.d n around shared seg =
      .some shep := by
  by_cases placing : request.d.Fields ∨ request.d.Turns
  · by_cases enough : n ≤ segments ∨ segments = 1
    · exact ⟨_, hand_lt positive enough placing inside,
        target_hand around tracker shared placing cut positive enough inside⟩
    · rcases placing with fields | (turns | turns)
      · exact fields_total around tracker shared fields cut (by omega) inside
      all_goals exact ⟨seg % n, Nat.mod_lt seg positive, by rw [turns]; rfl⟩
  · cases type : request.d with
    | fixedHash => exact absurd (.inr (.inl type)) placing
    | distStripes => exact absurd (.inr (.inr type)) placing
    | fixedFields => exact absurd (.inl (.inl type)) placing
    | distFields => exact absurd (.inl (.inr type)) placing
    | dist => exact ⟨_, Nat.mod_lt (around.random seg) positive, rfl⟩
    | distRand => exact ⟨_, Nat.mod_lt (around.random seg) positive, rfl⟩
    | distLeast => exact ⟨_, least_lt shared.tracker positive, rfl⟩
    | allSame => exact ⟨around.shep, runs, by simp only [Record.target, Request.record, type,
        Distribution.distShep]⟩
    | allLocal => exact ⟨around.shep, runs, by simp only [Record.target, Request.record, type,
        Distribution.distShep]⟩
    | allRand => exact ⟨_, Nat.mod_lt (around.random 0 % 2 ^ 16) positive, by
        simp only [Record.target, Request.record, type, Distribution.distShep]⟩
    | allLeast => exact ⟨_, least_lt tracker positive, by
        simp only [Record.target, Request.record, type, Distribution.distShep]⟩

theorem assign_total {objSize k : Nat} (laid : LaidOut a objSize) (within : k ≤ a.segmentCount)
    (d : Distribution) (around : Around) (shared : Shared)
    (targets : ∀ seg < a.segmentCount, ∀ shared, ∃ shep < n, a.target d n around shared seg = some shep) :
    ∃ after, (List.range k).foldlM (a.assign d n around) shared = some after := by
  induction k with
  | zero => exact ⟨shared, rfl⟩
  | succ k induction =>
    obtain ⟨between, ran⟩ := induction (by omega)
    obtain ⟨shep, below, target⟩ := targets k (by omega) between
    have noted : ∃ memory, a.note between.memory k shep = some memory := by
      by_cases type : a.distType = .dist
      · obtain ⟨slot, found, -⟩ := laid.slots type k (by omega)
        exact ⟨_, by rw [Record.note, if_pos type,
          Record.elemNomigrate_head laid.size (show k < a.segmentCount by omega),
          Option.bind_eq_bind, Option.bind_some, Record.segmentShepWrite, found, Option.map_some]⟩
      · exact ⟨_, if_neg type⟩
    obtain ⟨memory, noted⟩ := noted
    refine ⟨⟨Function.update between.tracker shep (between.tracker shep + 1), memory⟩, ?_⟩
    rw [List.range_succ, List.foldlM_append, ran]
    simp only [Option.bind_eq_bind, Option.bind_some, List.foldlM_cons, List.foldlM_nil, Record.assign,
      target, noted, if_pos below]
    rfl

theorem not_migrates (memory : Nat → Nat) (counted : 0 < a.count) : ¬Migrates a n memory := by
  intro migrates
  obtain ⟨elem, dest, migrated, -⟩ := migrates 0 counted
  have index : ¬0 ≥ a.count := Nat.not_le.mpr counted
  rw [Record.elemMigrate, if_neg index] at migrated
  cases migrated

/-- `qarray` layout: a thread that migrates is never led to its element, since the index must not
be one of the array.  The layout itself is sound, on pages of four bytes or more, exactly where the
request is roomy, and then the creation goes through. -/
theorem layout_unsound (around : Around) (shared : Shared) (page : ∃ power, pagesize = 2 ^ power)
    (base : pagesize ∣ around.basePtr) (positive : 0 < n) (runs : around.shep < n)
    (counted : 0 < request.count) (asks : 0 < request.objSize)
    (fits : request.bytes pagesize < 2 ^ 64) :
    (¬∃ a after, create pagesize n around shared request = .some (a, after) ∧
      LaidOut a request.objSize ∧ Migrates a n after.memory) ∧
    (4 ≤ pagesize → ((∃ a after, create pagesize n around shared request = .some (a, after) ∧
      LaidOut a request.objSize) ↔ request.Roomy pagesize)) := by
  constructor
  · rintro ⟨a, after, created, -, migrates⟩
    obtain ⟨rfl, -⟩ := create_inv created
    exact not_migrates after.memory counted migrates
  · intro power
    have words : 4 ∣ pagesize := by
      obtain ⟨exponent, rfl⟩ := page
      have two : 2 ≤ exponent := by
        by_contra few
        have : 2 ^ exponent ≤ 2 ^ 1 := Nat.pow_le_pow_right (by decide) (by omega)
        omega
      exact Nat.pow_dvd_pow 2 two
    rw [← laidOut_iff around shared.tracker power words base counted asks fits]
    constructor
    · rintro ⟨a, after, created, laid⟩
      obtain ⟨rfl, -⟩ := create_inv created
      exact laid
    · intro laid
      have cut : Cut pagesize (request.record pagesize n around shared.tracker).segmentCount request :=
        ⟨laid.size, laid.bytes, rfl⟩
      obtain ⟨after, ran⟩ := assign_total laid (Nat.le_refl _) request.d around
        { shared with
          tracker := Segments.counted (request.record pagesize n around shared.tracker) shared.tracker }
        fun seg inside there => target_total around shared.tracker there positive runs cut inside
      refine ⟨_, after, ?_, laid⟩
      rw [create, if_pos ⟨counted, asks⟩]
      simp only [if_pos (And.intro laid.size laid.bytes), ran, Option.bind_eq_bind, Option.bind_some]

theorem layout_words :
    (¬∃ a after, create 4096 2 ⟨0, fun _ => 0, 0⟩ ⟨fun _ => 0, fun _ => 0⟩
        ⟨100000, 12, .distRand, false, 0⟩ = some (a, after) ∧ LaidOut a 12 ∧
          Migrates a 2 after.memory) ∧
      ∃ a after, create 4096 2 ⟨0, fun _ => 0, 0⟩ ⟨fun _ => 0, fun _ => 0⟩
        ⟨100000, 12, .distRand, false, 0⟩ = some (a, after) ∧ LaidOut a 12 := by
  have unsound := layout_unsound (n := 2) ⟨0, fun _ => 0, 0⟩ ⟨fun _ => 0, fun _ => 0⟩
    ⟨12, rfl⟩ (Nat.dvd_zero 4096) (by decide) (by decide) (show 0 < 100000 by decide)
    (show 0 < 12 by decide) (show Request.bytes 4096 ⟨100000, 12, .distRand, false, 0⟩ < 2 ^ 64 by decide)
  exact ⟨unsound.1, (unsound.2 (by decide)).mpr ((iff_of_eq (if_pos rfl)).mpr (.inr (by decide)))⟩

theorem layout_one :
    ¬∃ a after, create 4096 1 ⟨0, fun _ => 0, 0⟩ ⟨fun _ => 0, fun _ => 0⟩
      ⟨1, 8, .fixedHash, false, 0⟩ = some (a, after) ∧ LaidOut a 8 ∧ Migrates a 1 after.memory := by
  rintro ⟨a, after, created, -, migrates⟩
  obtain ⟨rfl, -⟩ := create_inv created
  exact not_migrates after.memory Nat.one_pos migrates

end Qthreads.Segments
