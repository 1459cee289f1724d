import Qthreads.Mpool.Groups

namespace Qthreads.Mpool

open Lib
open Function (update update_of_ne update_self update_apply update_idem)

def Conserved (itemsPerAlloc : Nat) (s : State) : Prop :=
  ∃ upper lower groups spot, Threads itemsPerAlloc s upper lower spot ∧
    Pooled itemsPerAlloc s groups spot ∧ Items itemsPerAlloc s spot

variable {sizes : Sizes} {itemsPerAlloc : Nat} {s after : State} {thread : Nat}
  {upper lower : Nat → List Item} {groups : List (List Item)} {spot moved : Item → Spot}
  {item : Item} {tc : Cache}

theorem spot_update {value other : Spot} (x : Item) :
    update spot item value x = other ↔
      x = item ∧ value = other ∨ x ≠ item ∧ spot x = other := by
  by_cases same : x = item
  · subst same
    simp
  · simp [same]

theorem update_true (flag : Item → Bool) (x : Item) :
    update flag item true x = true ↔ x = item ∨ flag x = true := by
  by_cases same : x = item
  · subst same
    simp
  · simp [same]

structure Joined (next blockTail : Item → Option Item) (n : Item) (cache : Option Item)
    (nextAfter tailAfter : Item → Option Item) : Prop where
  first : nextAfter n = cache
  nextRest : ∀ x, x ≠ n → nextAfter x = next x
  tailRest : ∀ x, x ≠ n → tailAfter x = blockTail x

variable {next blockTail nextAfter tailAfter : Item → Option Item} {cache : Option Item}

theorem Joined.chain {n : Item} {list : List Item}
    (joined : Joined next blockTail n cache nextAfter tailAfter)
    (chain : Chain next cache list none) (absent : n ∉ list) :
    Chain nextAfter (some n) (n :: list) none := by
  refine ⟨rfl, ?_⟩
  rw [joined.first]
  refine chain.congr fun x member => joined.nextRest x ?_
  rintro rfl
  exact absent member

theorem Joined.tailed {n : Item} {list : List Item}
    (joined : Joined next blockTail n cache nextAfter tailAfter)
    (tailed : Tailed blockTail list) (absent : n ∉ list) : Tailed tailAfter list := by
  refine tailed.congr fun x member => joined.tailRest x ?_
  rintro rfl
  exact absent member

theorem Joined.member {n c : Item} {rest : List Item}
    (joined : Joined next blockTail n cache nextAfter tailAfter)
    (tailed : Tailed blockTail (c :: rest)) (absent : n ∉ c :: rest)
    (here : tailAfter n = blockTail c) : Tailed tailAfter (n :: c :: rest) := by
  refine (joined.tailed tailed absent).cons ?_
  rw [here, joined.tailRest c]
  rintro rfl
  exact absent List.mem_cons_self

section Steps

variable (threads : Threads itemsPerAlloc s upper lower spot)
  (pooled : Pooled itemsPerAlloc s groups spot) (items : Items itemsPerAlloc s spot)

include threads pooled items

theorem pop (high low : List Item)
    (shape : upper thread ++ lower thread = item :: (high ++ low)) (absent : item ∉ high ++ low)
    (owns : Owns itemsPerAlloc s.next s.blockTail tc .idle high low)
    (block : tc.block = (s.caches thread).block) (i : tc.i = (s.caches thread).i) :
    Conserved itemsPerAlloc ((s.settle thread tc).hand item) := by
  have members : ∀ x, x ∈ high ++ low ↔ spot x = .cache thread ∧ x ≠ item := by
    intro x
    rw [← threads.owned, shape, List.mem_cons]
    grind
  have mine : spot item = .cache thread := by
    rw [← threads.owned, shape]
    exact List.mem_cons_self
  refine ⟨_, _, groups, update spot item .live,
    threads.frame thread high low (fun _ differs => s.settle_caches_other thread tc differs)
      (fun _ differs => s.settle_places_other thread tc differs) (fun _ _ _ _ => ⟨rfl, rfl⟩) ?_ ?_
      (by simpa using owns),
    pooled.frame rfl (fun _ _ => ⟨rfl, rfl⟩) ?_,
    items.frame thread (fun _ differs => s.settle_caches_other thread tc differs)
      (fun _ differs => s.settle_places_other thread tc differs) ?_ ?_ ?_ rfl
      (by simp [Blockless]) ?_⟩
  · intro other differs x
    rw [spot_update]
    grind
  · intro x
    rw [members, spot_update]
    grind
  · intro x
    rw [spot_update]
    grind
  · intro x
    change update s.live item true x = true ↔ _
    rw [update_true, items.live, spot_update]
    grind
  · intro x
    change update s.carved item true x = true ↔ _
    rw [update_true, items.carved]
    grind
  · intro x
    rw [spot_update]
    grind
  · intro b k carves
    simp only [State.hand_caches, State.settle_caches_self, State.hand_places,
      State.settle_places_self, Carves, reduceCtorEq, false_and, or_false, block, i]
      at carves
    exact .inl carves

theorem carve {block i : Nat} (carves : Carves (s.caches thread) (s.places thread) block i)
    (bare : upper thread = [] ∧ lower thread = []) (cache : tc.cache = none)
    (count : tc.count = 0)
    (rest : tc.block = if i + 1 = itemsPerAlloc then none else some block)
    (next : tc.i = i + 1) : Conserved itemsPerAlloc ((s.settle thread tc).hand (block, i)) := by
  obtain ⟨known, bound, raw⟩ := items.carving thread block i carves
  have here : spot (block, i) = .raw := raw i (Nat.le_refl i)
  have owns : Owns itemsPerAlloc s.next s.blockTail tc .idle [] [] :=
    ⟨List.nodup_nil, nofun, nofun, cache, by rw [count]; rfl, Nat.zero_le _,
      Nat.lt_of_le_of_lt (Nat.zero_le i) bound, fun nonempty => absurd rfl nonempty⟩
  have bare : ∀ x, spot x ≠ .cache thread := by
    intro x mine
    have member := (threads.owned thread x).mpr mine
    rw [bare.1, bare.2] at member
    cases member
  have mine : ∀ b k, Carves ((s.settle thread tc).caches thread)
      ((s.settle thread tc).places thread) b k → b = block ∧ k = i + 1 ∧ i + 1 ≠ itemsPerAlloc := by
    intro b k cut
    simp only [State.settle_caches_self, State.settle_places_self, Carves, reduceCtorEq,
      false_and, or_false, rest, next] at cut
    grind
  have others : ∀ other b k, other ≠ thread → Carves ((s.settle thread tc).caches other)
      ((s.settle thread tc).places other) b k →
        Carves (s.caches other) (s.places other) b k ∧ b ≠ block := by
    intro other b k differs cut
    rw [s.settle_caches_other thread tc differs, s.settle_places_other thread tc differs] at cut
    refine ⟨cut, ?_⟩
    rintro rfl
    exact differs (items.apart other thread b k i cut carves)
  refine ⟨_, _, groups, update spot (block, i) .live,
    threads.frame thread [] [] (fun _ differs => s.settle_caches_other thread tc differs)
      (fun _ differs => s.settle_places_other thread tc differs) (fun _ _ _ _ => ⟨rfl, rfl⟩) ?_ ?_
      (by simpa using owns),
    pooled.frame rfl (fun _ _ => ⟨rfl, rfl⟩) ?_, ?_, ?_, ?_, ?_, ?_, ?_⟩
  · intro other differs x
    rw [spot_update]
    grind
  · intro x
    rw [spot_update]
    have absent := bare x
    grind
  · intro x
    rw [spot_update]
    grind
  · intro x
    change update s.live (block, i) true x = true ↔ _
    rw [update_true, items.live, spot_update]
    grind
  · intro x
    change update s.carved (block, i) true x = true ↔ _
    rw [update_true, items.carved, ne_eq, ne_eq, spot_update]
    grind
  · intro x out
    rw [ne_eq, spot_update] at out
    by_cases same : x = (block, i)
    · subst same
      exact ⟨known, bound⟩
    · exact items.inside x (fun inside => out (.inr ⟨same, inside⟩))
  · intro other blockless
    by_cases same : other = thread
    · subst same
      simp [Blockless] at blockless
    · simp only [State.hand_places, s.settle_places_other thread tc same] at blockless
      simp only [State.hand_caches, s.settle_caches_other thread tc same]
      exact items.blockless other blockless
  · intro other b k cut
    by_cases same : other = thread
    · subst same
      obtain ⟨rfl, rfl, more⟩ := mine b k cut
      refine ⟨known, by omega, fun j above => ?_⟩
      rw [spot_update]
      refine .inr ⟨?_, raw j (by omega)⟩
      intro equal
      have index : j = i := congrArg Prod.snd equal
      omega
    · obtain ⟨was, differs⟩ := others other b k same cut
      obtain ⟨old, inside, free⟩ := items.carving other b k was
      refine ⟨old, inside, fun j above => ?_⟩
      rw [spot_update]
      exact .inr ⟨fun equal => differs (congrArg Prod.fst equal), free j above⟩
  · intro first second b j k one two
    by_cases firstMine : first = thread
    · by_cases secondMine : second = thread
      · rw [firstMine, secondMine]
      · subst firstMine
        exact absurd (mine b j one).1 (others second b k secondMine two).2
    · by_cases secondMine : second = thread
      · subst secondMine
        exact absurd (mine b k two).1 (others first b j firstMine one).2
      · exact items.apart first second b j k (others first b j firstMine one).1
          (others second b k secondMine two).1

theorem wait {place : Place} (bare : upper thread = [] ∧ lower thread = [])
    (arranged : Arranged itemsPerAlloc s.next (s.caches thread) [] [] place)
    (block : (s.caches thread).block = none)
    (carves : ∀ b k, Carves (s.caches thread) place b k →
      Carves (s.caches thread) (s.places thread) b k) :
    Conserved itemsPerAlloc (s.goto thread place) := by
  refine ⟨_, _, groups, spot,
    threads.frame thread [] [] (fun _ _ => rfl)
      (fun _ differs => s.goto_places_other thread place differs) (fun _ _ _ _ => ⟨rfl, rfl⟩)
      (fun _ _ _ => Iff.rfl) ?_ ?_,
    pooled.frame rfl (fun _ _ => ⟨rfl, rfl⟩) (fun _ => Iff.rfl),
    items.frame thread (fun _ _ => rfl) (fun _ differs => s.goto_places_other thread place differs)
      items.live (fun _ => Iff.rfl) (fun _ => Iff.rfl) rfl (fun _ => block) ?_⟩
  · intro x
    rw [← threads.owned, bare.1, bare.2]
  · rw [State.goto_places_self]
    exact ⟨List.nodup_nil, nofun, nofun, arranged⟩
  · intro b k cut
    rw [State.goto_places_self] at cut
    exact carves b k cut

theorem pull {cache tail : Item} (two : 2 ≤ itemsPerAlloc) (place : s.places thread = .pull)
    (pool : s.reusePool = some cache) (tailed : s.blockTail cache = some tail) :
    Conserved itemsPerAlloc ({ s with
      reusePool := s.next tail
      next := update s.next tail none }.goto thread (.took cache)) := by
  have mine := (threads.owns thread).arranged
  rw [place] at mine
  obtain ⟨noUpper, noLower, -, -⟩ := mine
  have idle : ∀ x, spot x ≠ .cache thread := by
    intro x owned
    have member := (threads.owned thread x).mpr owned
    rw [noUpper, noLower] at member
    cases member
  cases groups with
  | nil =>
    have empty := pooled.chain
    rw [pool] at empty
    cases empty
  | cons group rest =>
    obtain ⟨length, groupTail⟩ := pooled.whole group List.mem_cons_self
    have chain := pooled.chain
    rw [List.flatten_cons, pool] at chain
    obtain ⟨middle, first, later⟩ := Chain.append.mp chain
    have once := pooled.once
    rw [List.flatten_cons, List.nodup_append] at once
    obtain ⟨groupOnce, restOnce, disjoint⟩ := once
    have known : ∀ x, x ∈ group ∨ x ∈ rest.flatten ↔ spot x = .reuse := by
      intro x
      rw [← pooled.member, List.flatten_cons, List.mem_append]
    have ends : group.getLast? = some tail := by
      cases group with
      | nil =>
        rw [List.length_nil] at length
        omega
      | cons start others =>
        cases first.1
        rw [← groupTail cache List.mem_cons_self, tailed]
    have inside := List.mem_of_getLast? ends
    have untouched : ∀ x, x ∉ group → update s.next tail none x = s.next x := by
      intro x outside
      refine update_of_ne ?_ ..
      rintro rfl
      exact outside inside
    refine ⟨_, _, rest, fun x => if x ∈ group then .cache thread else spot x,
      threads.frame thread [] group (fun _ _ => rfl)
        (fun _ differs => State.goto_places_other _ thread _ differs) ?_ ?_ ?_ ?_,
      ⟨?_, restOnce, ?_, ?_⟩,
      items.frame thread (fun _ _ => rfl)
        (fun _ differs => State.goto_places_other _ thread _ differs) ?_ (fun _ => Iff.rfl) ?_ rfl
        ?_ ?_⟩
    · intro other differs x owned
      refine ⟨untouched x ?_, rfl⟩
      intro member
      have reused := (known x).mp (.inl member)
      rw [owned] at reused
      cases reused
    · intro other differs x
      have reused := known x
      grind
    · intro x
      have free := idle x
      grind
    · rw [State.goto_places_self]
      exact ⟨by simpa using groupOnce, nofun, groupTail, rfl, length,
        first.relink groupOnce ends none⟩
    · intro x
      have reused := known x
      have apart : x ∈ group → x ∉ rest.flatten := fun one two => disjoint x one x two rfl
      grind
    · change Chain _ (s.next tail) _ _
      rw [first.after_last ends]
      refine later.congr fun x member => untouched x ?_
      exact fun one => disjoint x one x member rfl
    · intro other member
      exact pooled.whole other (List.mem_cons_of_mem _ member)
    · intro x
      have reused := known x
      change s.live x = true ↔ _
      rw [items.live]
      grind
    · intro x
      have reused := known x
      grind
    · intro _
      refine items.blockless thread ?_
      rw [place]
      trivial
    · intro b k cut
      rcases cut with held | ⟨record | fill, -⟩
      · exact .inl held
      · rw [State.goto_places_self] at record
        cases record
      · rw [State.goto_places_self] at fill
        cases fill

omit threads pooled in
theorem grow_items (place : s.places thread = .grow) (two : 2 ≤ itemsPerAlloc) :
    Items itemsPerAlloc ({ s with blocks := s.blocks + 1 }.goto thread (.record s.blocks)) spot := by
  have block : (s.caches thread).block = none := by
    refine items.blockless thread ?_
    rw [place]
    trivial
  have mine : ∀ b k, Carves (s.caches thread)
      (({ s with blocks := s.blocks + 1 }.goto thread (.record s.blocks)).places thread) b k →
        b = s.blocks ∧ k = 0 := by
    intro b k cut
    rw [State.goto_places_self] at cut
    rcases cut with ⟨held, -⟩ | ⟨record | fill, zero⟩
    · rw [block] at held
      cases held
    · cases record
      exact ⟨rfl, zero⟩
    · cases fill
  have others : ∀ other b k, other ≠ thread → Carves (s.caches other)
      (({ s with blocks := s.blocks + 1 }.goto thread (.record s.blocks)).places other) b k →
        Carves (s.caches other) (s.places other) b k := by
    intro other b k differs cut
    rw [State.goto_places_other _ thread _ differs] at cut
    exact cut
  refine ⟨items.live, items.carved, ?_, ?_, ?_, ?_⟩
  · intro x out
    obtain ⟨known, bound⟩ := items.inside x out
    exact ⟨Nat.lt_succ_of_lt known, bound⟩
  · intro other blockless
    by_cases same : other = thread
    · subst same
      exact block
    · rw [State.goto_places_other _ thread _ same] at blockless
      exact items.blockless other blockless
  · intro other b k cut
    by_cases same : other = thread
    · subst same
      obtain ⟨rfl, rfl⟩ := mine b k cut
      refine ⟨Nat.lt_succ_self _, by omega, fun j _ => ?_⟩
      by_contra out
      exact absurd (items.inside _ out).1 (Nat.lt_irrefl _)
    · obtain ⟨known, rest⟩ := items.carving other b k (others other b k same cut)
      exact ⟨Nat.lt_succ_of_lt known, rest⟩
  · intro first second b j k one two
    by_cases firstMine : first = thread
    · by_cases secondMine : second = thread
      · rw [firstMine, secondMine]
      · subst firstMine
        have old := (items.carving second b k (others second b k secondMine two)).1
        have new := (mine b j one).1
        omega
    · by_cases secondMine : second = thread
      · subst secondMine
        have old := (items.carving first b j (others first b j firstMine one)).1
        have new := (mine b k two).1
        omega
      · exact items.apart first second b j k (others first b j firstMine one)
          (others second b k secondMine two)

theorem grow (two : 2 ≤ itemsPerAlloc) (place : s.places thread = .grow) :
    Conserved itemsPerAlloc
      ({ s with blocks := s.blocks + 1 }.goto thread (.record s.blocks)) := by
  have mine := (threads.owns thread).arranged
  rw [place] at mine
  obtain ⟨noUpper, noLower, cache, count⟩ := mine
  refine ⟨_, _, groups, spot,
    threads.frame thread [] [] (fun _ _ => rfl)
      (fun _ differs => State.goto_places_other _ thread _ differs) (fun _ _ _ _ => ⟨rfl, rfl⟩)
      (fun _ _ _ => Iff.rfl) ?_ ?_,
    pooled.frame rfl (fun _ _ => ⟨rfl, rfl⟩) (fun _ => Iff.rfl), grow_items items place two⟩
  · intro x
    rw [← threads.owned, noUpper, noLower]
  · rw [State.goto_places_self]
    exact ⟨List.nodup_nil, nofun, nofun, rfl, rfl, cache, count⟩

theorem store (high low : List Item) {next blockTail : Item → Option Item}
    {caches : Nat → Cache} {places : Nat → Place} (was : spot item = .live)
    (cells : ∀ x, x ≠ item → spot x ≠ .cache thread →
      next x = s.next x ∧ blockTail x = s.blockTail x)
    (cachesOther : ∀ other, other ≠ thread → caches other = s.caches other)
    (placesOther : ∀ other, other ≠ thread → places other = s.places other)
    (members : ∀ x, x ∈ high ++ low ↔ x = item ∨ x ∈ upper thread ++ lower thread)
    (owns : Owns itemsPerAlloc next blockTail (caches thread) (places thread) high low)
    (blockless : ¬ Blockless (places thread))
    (carves : ∀ b k, Carves (caches thread) (places thread) b k →
      Carves (s.caches thread) (s.places thread) b k) :
    Conserved itemsPerAlloc { s with
      next := next
      blockTail := blockTail
      live := update s.live item false
      caches := caches
      places := places } := by
  refine ⟨_, _, groups, update spot item (.cache thread),
    threads.frame thread high low cachesOther placesOther ?_ ?_ ?_ owns,
    pooled.frame rfl ?_ ?_,
    items.frame thread cachesOther placesOther ?_ (fun _ => Iff.rfl) ?_ rfl
      (fun waits => absurd waits blockless) carves⟩
  · intro other differs x owned
    refine cells x ?_ ?_
    · rintro rfl
      rw [was] at owned
      cases owned
    · rw [owned]
      intro same
      exact differs (Spot.cache.inj same)
  · intro other differs x
    rw [spot_update]
    grind
  · intro x
    rw [members, threads.owned, spot_update]
    grind
  · intro x reused
    refine cells x ?_ ?_
    · rintro rfl
      rw [was] at reused
      cases reused
    · rw [reused]
      exact Spot.noConfusion
  · intro x
    rw [spot_update]
    grind
  · intro x
    change update s.live item false x = true ↔ _
    have live := items.live x
    rw [spot_update, update_apply]
    split <;> grind
  · intro x
    rw [spot_update]
    grind

variable {cnt : Nat} {n : Item}

theorem keep (high low : List Item) {next blockTail : Item → Option Item} {cache : Option Item}
    (was : spot n = .live)
    (joined : Joined s.next s.blockTail n cache next blockTail)
    (members : ∀ x, x ∈ high ++ low ↔ x = n ∨ x ∈ upper thread ++ lower thread)
    (owns : Owns itemsPerAlloc next blockTail
      { s.caches thread with cache := some n, count := cnt } .idle high low) :
    Conserved itemsPerAlloc ({ s with
      next := next
      blockTail := blockTail
      live := update s.live n false }.settle thread
        { s.caches thread with cache := some n, count := cnt }) := by
  refine store threads pooled items high low was
    (fun x differs _ => ⟨joined.nextRest x differs, joined.tailRest x differs⟩)
    (fun _ differs => update_of_ne differs ..)
    (fun _ differs => update_of_ne differs ..) members ?_ ?_ ?_
  · simpa using owns
  · simp [Blockless]
  · intro b k cut
    simp only [update_self, Carves, reduceCtorEq, false_and, or_false] at cut
    exact .inl cut

theorem chop {n tail toglobal : Item} {next blockTail : Item → Option Item} {cache : Option Item}
    (was : spot n = .live)
    (joined : Joined s.next s.blockTail n cache next blockTail)
    (ends : (n :: upper thread).getLast? = some tail)
    (owns : Owns itemsPerAlloc (update next tail none) blockTail (s.caches thread)
      (.push n toglobal cnt) (n :: upper thread) (lower thread)) :
    Conserved itemsPerAlloc ({ s with
      next := update next tail none
      blockTail := blockTail
      live := update s.live n false }.goto thread (.push n toglobal cnt)) := by
  have mine : tail = n ∨ spot tail = .cache thread := by
    rcases List.mem_cons.mp (List.mem_of_getLast? ends) with same | member
    · exact .inl same
    · exact .inr ((threads.owned thread tail).mp (List.mem_append_left _ member))
  refine store threads pooled items (n :: upper thread) (lower thread) was ?_ (fun _ _ => rfl)
    (fun _ differs => update_of_ne differs ..) ?_ ?_ ?_ ?_
  · intro x differs other
    refine ⟨?_, joined.tailRest x differs⟩
    change update next tail none x = s.next x
    rw [update_of_ne, joined.nextRest x differs]
    rintro rfl
    exact mine.elim differs other
  · intro x
    rw [List.cons_append, List.mem_cons]
  · simpa using owns
  · simp [Blockless]
  · intro b k cut
    simp only [update_self, Carves, reduceCtorEq, or_self, false_and, or_false] at cut
    exact .inl cut

omit threads pooled items in
theorem joined_update (next blockTail : Item → Option Item) (n : Item) (cache tail : Option Item) :
    Joined next blockTail n cache (update next n cache)
      (update blockTail n tail) :=
  ⟨update_self .., fun _ differs => update_of_ne differs ..,
    fun _ differs => update_of_ne differs ..⟩

theorem free_first (two : 2 ≤ itemsPerAlloc) (was : spot n = .live)
    (empty : upper thread = [] ∧ lower thread = []) :
    Conserved itemsPerAlloc ({ s with
      next := update s.next n none
      blockTail := update s.blockTail n (some n)
      live := update s.live n false }.settle thread
        { s.caches thread with cache := some n, count := 0 + 1 }) := by
  have joined := joined_update s.next s.blockTail n none (some n)
  refine keep threads pooled items [] [n] was joined ?_ ?_
  · intro x
    rw [empty.1, empty.2]
    simp
  · refine ⟨by simp, nofun, ?_, joined.chain rfl List.not_mem_nil, by simp, ?_, ?_, nofun⟩
    · intro x member
      rw [List.mem_singleton.mp member]
      simp
    · rw [List.length_singleton]
      omega
    · rw [List.length_nil]
      omega

theorem free_more {n c : Item} {tail : Option Item} (place : s.places thread = .idle)
    (was : spot n = .live) (cache : (s.caches thread).cache = some c)
    (room : (s.caches thread).count + 1 < itemsPerAlloc * 2)
    (tailed : tail =
      if (s.caches thread).count + 1 = itemsPerAlloc + 1 then some n else s.blockTail c) :
    Conserved itemsPerAlloc ({ s with
      next := update s.next n (some c)
      blockTail := update s.blockTail n tail
      live := update s.live n false }.settle thread
        { s.caches thread with cache := some n, count := (s.caches thread).count + 1 }) := by
  have owns := threads.owns thread
  have mine := owns.arranged
  rw [place, Arranged, cache] at mine
  obtain ⟨chain, count, lowBound, highBound, whole⟩ := mine
  have absent : n ∉ upper thread ++ lower thread := by
    intro member
    rw [(threads.owned thread n).mp member] at was
    cases was
  have once := List.nodup_cons.mpr ⟨absent, owns.once⟩
  have joined := joined_update s.next s.blockTail n (some c) tail
  have after := joined.chain chain absent
  have highTail := joined.tailed owns.upperTail fun member => absent (List.mem_append_left _ member)
  have lowTail := joined.tailed owns.lowerTail fun member => absent (List.mem_append_right _ member)
  cases highShape : upper thread with
  | cons first rest =>
    have lowLength := whole (by rw [highShape]; exact List.cons_ne_nil _ _)
    have size : (upper thread).length = rest.length + 1 := by rw [highShape, List.length_cons]
    rw [if_neg (by omega)] at tailed
    have same : first = c := by
      rw [highShape] at chain
      exact (Option.some.inj chain.1).symm
    refine keep threads pooled items (n :: upper thread) (lower thread) was joined
      (fun x => List.mem_cons) ⟨once, ?_, lowTail, after, ?_, lowBound, ?_, fun _ => lowLength⟩
    · rw [highShape]
      refine joined.member (highShape ▸ owns.upperTail)
        (fun member => absent (List.mem_append_left _ (highShape ▸ member))) ?_
      rw [update_self, tailed, same]
    · rw [List.length_cons]
      simp only
      omega
    · rw [List.length_cons]
      omega
  | nil =>
    rw [highShape, List.nil_append] at chain absent once after
    rw [highShape, List.length_nil, Nat.zero_add] at count
    have members : ∀ x, x ∈ n :: lower thread ↔ x = n ∨ x ∈ upper thread ++ lower thread := by
      intro x
      rw [highShape, List.nil_append, List.mem_cons]
    by_cases fresh : (s.caches thread).count + 1 = itemsPerAlloc + 1
    · rw [if_pos fresh] at tailed
      refine keep threads pooled items [n] (lower thread) was joined members
        ⟨once, ?_, lowTail, after, ?_, lowBound, ?_, fun _ => by omega⟩
      · intro x member
        rw [List.mem_singleton.mp member, update_self, tailed]
        rfl
      · rw [List.length_singleton]
        simp only
        omega
      · rw [List.length_singleton]
        omega
    · rw [if_neg fresh] at tailed
      refine keep threads pooled items [] (n :: lower thread) was joined members
        ⟨once, nofun, ?_, after, ?_, ?_, ?_, fun nonempty => absurd rfl nonempty⟩
      · cases lowShape : lower thread with
        | nil =>
          rw [lowShape] at chain
          cases chain
        | cons first rest =>
          have same : first = c := by
            rw [lowShape] at chain
            exact (Option.some.inj chain.1).symm
          refine joined.member (lowShape ▸ owns.lowerTail) (lowShape ▸ absent) ?_
          rw [update_self, tailed, same]
      · rw [List.length_cons, List.length_nil]
        simp only
        omega
      · rw [List.length_cons]
        omega
      · rw [List.length_nil]
        omega

theorem free_full {n c : Item} (two : 2 ≤ itemsPerAlloc) (place : s.places thread = .idle)
    (was : spot n = .live) (cache : (s.caches thread).cache = some c)
    (full : itemsPerAlloc * 2 ≤ (s.caches thread).count + 1) :
    ∃ tail toglobal, s.blockTail c = some tail ∧
      update s.next n (some c) tail = some toglobal ∧
      (update s.blockTail n (s.blockTail c) toglobal).isSome = true ∧
      Conserved itemsPerAlloc ({ s with
        next := update (update s.next n (some c)) tail none
        blockTail := update s.blockTail n (s.blockTail c)
        live := update s.live n false }.goto thread
          (.push n toglobal ((s.caches thread).count + 1))) := by
  have owns := threads.owns thread
  have mine := owns.arranged
  rw [place, Arranged, cache] at mine
  obtain ⟨chain, count, lowBound, highBound, whole⟩ := mine
  have absent : n ∉ upper thread ++ lower thread := by
    intro member
    rw [(threads.owned thread n).mp member] at was
    cases was
  have once := List.nodup_cons.mpr ⟨absent, owns.once⟩
  have joined := joined_update s.next s.blockTail n (some c) (s.blockTail c)
  have after := joined.chain chain absent
  have lowTail := joined.tailed owns.lowerTail fun member => absent (List.mem_append_right _ member)
  cases highShape : upper thread with
  | nil =>
    rw [highShape, List.length_nil] at count
    omega
  | cons first rest =>
    cases lowShape : lower thread with
    | nil =>
      rw [lowShape, List.length_nil] at count
      omega
    | cons toglobal others =>
      have same : first = c := by
        rw [highShape] at chain
        exact (Option.some.inj chain.1).symm
      subst same
      obtain ⟨tail, firstTail, ends⟩ := (highShape ▸ owns.upperTail).last
      have endsAfter : (n :: upper thread).getLast? = some tail := by
        rw [highShape, List.getLast?_cons_cons, ends]
      rw [← List.cons_append] at after once
      obtain ⟨middle, highChain, lowChain⟩ := Chain.append.mp after
      obtain ⟨highOnce, lowOnce, disjoint⟩ := List.nodup_append.mp once
      have linked := highChain.after_last endsAfter
      have lowHead : middle = some toglobal := by
        rw [lowShape] at lowChain
        exact lowChain.1
      obtain ⟨lowLast, toglobalTail, -⟩ := (lowShape ▸ lowTail).last
      refine ⟨tail, toglobal, firstTail, linked.trans lowHead, by rw [toglobalTail]; rfl, ?_⟩
      refine chop threads pooled items was joined endsAfter
        ⟨once, ?_, lowTail, ?_, by omega, highChain.relink highOnce endsAfter none, ?_, ?_⟩
      · rw [highShape]
        exact joined.member (highShape ▸ owns.upperTail)
          (fun member => absent (List.mem_append_left _ (highShape ▸ member)))
          (update_self ..)
      · rw [List.length_cons]
        omega
      · rw [← lowHead]
        refine lowChain.congr fun x member => update_of_ne ?_ ..
        rintro rfl
        exact disjoint x (List.mem_of_getLast? endsAfter) x member rfl
      · omega

theorem free (size : sizes.itemsPerAlloc = itemsPerAlloc)
    (place : s.places thread = .idle) (was : spot n = .live) :
    ∃ after, s.free sizes thread n = some after ∧ Conserved itemsPerAlloc after := by
  have two := sizes.two
  subst size
  have mine := (threads.owns thread).arranged
  rw [place] at mine
  obtain ⟨chain, count, -⟩ := mine
  cases cache : (s.caches thread).cache with
  | none =>
    have empty : upper thread ++ lower thread = [] := by
      rw [cache] at chain
      exact chain.unique (rfl : Chain s.next none [] none)
    have bare := List.append_eq_nil_iff.mp empty
    have zero : (s.caches thread).count = 0 := by
      rw [count, bare.1, bare.2]
      rfl
    refine ⟨_, ?_, free_first threads pooled items two was bare⟩
    simp only [State.free, cache, zero, if_true, Option.bind_some]
    rw [if_neg (by omega), if_neg (by omega)]
  | some c =>
    have nonzero : (s.caches thread).count ≠ 0 := by
      intro zero
      rw [zero] at count
      have nobody : upper thread ++ lower thread = [] := by
        rw [← List.length_eq_zero_iff, List.length_append]
        exact count.symm
      rw [cache, nobody] at chain
      cases chain
    by_cases full : sizes.itemsPerAlloc * 2 ≤ (s.caches thread).count + 1
    · obtain ⟨tail, toglobal, tailed, linked, ends, conserved⟩ :=
        free_full threads pooled items two place was cache full
      refine ⟨_, ?_, conserved⟩
      simp only [State.free, cache, nonzero, ne_eq, not_false_eq_true, if_true, Option.bind_some]
      rw [if_pos full]
      simp only [update_self, tailed, linked]
      rw [tailed] at ends
      rw [if_pos ends]
    · refine ⟨_, ?_, free_more threads pooled items place was cache (Nat.lt_of_not_le full) rfl⟩
      simp only [State.free, cache, nonzero, ne_eq, not_false_eq_true, if_true, Option.bind_some]
      rw [if_neg full]
      by_cases fresh : (s.caches thread).count + 1 = sizes.itemsPerAlloc + 1
      · rw [if_pos fresh, if_pos fresh]
        simp only [update_idem]
      · rw [if_neg fresh, if_neg fresh]

theorem push {n toglobal tail : Item} (place : s.places thread = .push n toglobal cnt)
    (two : 2 ≤ itemsPerAlloc) (tailed : s.blockTail toglobal = some tail) :
    Conserved itemsPerAlloc ({ s with
      next := update s.next tail s.reusePool
      reusePool := some toglobal }.goto thread (.pushed n cnt)) := by
  have owns := threads.owns thread
  have mine := owns.arranged
  rw [place] at mine
  obtain ⟨highLength, lowLength, high, low, count⟩ := mine
  have once := owns.once
  rw [List.nodup_append] at once
  obtain ⟨highOnce, lowOnce, disjoint⟩ := once
  have known : ∀ x, x ∈ upper thread ∨ x ∈ lower thread ↔ spot x = .cache thread := by
    intro x
    rw [← threads.owned, List.mem_append]
  have ends : (lower thread).getLast? = some tail := by
    have lowerTail := owns.lowerTail
    cases shape : lower thread with
    | nil =>
      rw [shape, List.length_nil] at lowLength
      omega
    | cons start others =>
      rw [shape] at low lowerTail
      cases low.1
      rw [← lowerTail toglobal List.mem_cons_self, tailed]
  have inside := List.mem_of_getLast? ends
  have untouched : ∀ x, x ∉ lower thread →
      update s.next tail s.reusePool x = s.next x := by
    intro x outside
    refine update_of_ne ?_ ..
    rintro rfl
    exact outside inside
  have reused : ∀ x, spot x = .reuse → x ∉ lower thread := by
    intro x pooled member
    rw [(known x).mp (.inr member)] at pooled
    cases pooled
  refine ⟨_, _, lower thread :: groups, fun x => if x ∈ lower thread then .reuse else spot x,
    threads.frame thread [] (upper thread) (fun _ _ => rfl)
      (fun _ differs => State.goto_places_other _ thread _ differs) ?_ ?_ ?_ ?_,
    ⟨?_, ?_, ?_, ?_⟩,
    items.frame thread (fun _ _ => rfl)
      (fun _ differs => State.goto_places_other _ thread _ differs) ?_ (fun _ => Iff.rfl) ?_ rfl
      ?_ ?_⟩
  · intro other differs x owned
    refine ⟨untouched x ?_, rfl⟩
    intro member
    rw [(known x).mp (.inr member)] at owned
    exact differs (Spot.cache.inj owned).symm
  · intro other differs x
    have mine := known x
    grind
  · intro x
    have mine := known x
    have apart : x ∈ upper thread → x ∉ lower thread := fun one two => disjoint x one x two rfl
    grind
  · rw [State.goto_places_self]
    refine ⟨by simpa using highOnce, nofun, owns.upperTail, rfl, highLength, ?_, count⟩
    exact high.congr fun x member => untouched x fun low => disjoint x member x low rfl
  · intro x
    rw [List.flatten_cons, List.mem_append, pooled.member]
    have mine := known x
    grind
  · rw [List.flatten_cons, List.nodup_append]
    refine ⟨lowOnce, pooled.once, ?_⟩
    rintro x low y there rfl
    exact reused x ((pooled.member x).mp there) low
  · rw [List.flatten_cons]
    refine Chain.append.mpr ⟨s.reusePool, low.relink lowOnce ends _, ?_⟩
    exact pooled.chain.congr fun x member => untouched x (reused x ((pooled.member x).mp member))
  · intro group member
    rcases List.mem_cons.mp member with rfl | old
    · exact ⟨lowLength, owns.lowerTail⟩
    · exact pooled.whole group old
  · intro x
    have mine := known x
    change s.live x = true ↔ _
    rw [items.live]
    grind
  · intro x
    have mine := known x
    grind
  · intro waits
    rw [State.goto_places_self] at waits
    exact waits.elim
  · intro b k cut
    rcases cut with held | ⟨record | fill, -⟩
    · exact .inl held
    · rw [State.goto_places_self] at record
      cases record
    · rw [State.goto_places_self] at fill
      cases fill

theorem pushed (place : s.places thread = .pushed n cnt) (two : 2 ≤ itemsPerAlloc) :
    Conserved itemsPerAlloc (s.settle thread { s.caches thread with
      cache := some n
      count := cnt - itemsPerAlloc }) := by
  have owns := threads.owns thread
  have mine := owns.arranged
  rw [place] at mine
  obtain ⟨noUpper, length, chain, count⟩ := mine
  refine ⟨_, _, groups, spot,
    threads.frame thread [] (lower thread) (fun _ differs => s.settle_caches_other thread _ differs)
      (fun _ differs => s.settle_places_other thread _ differs) (fun _ _ _ _ => ⟨rfl, rfl⟩)
      (fun _ _ _ => Iff.rfl) ?_ ?_,
    pooled.frame rfl (fun _ _ => ⟨rfl, rfl⟩) (fun _ => Iff.rfl),
    items.frame thread (fun _ differs => s.settle_caches_other thread _ differs)
      (fun _ differs => s.settle_places_other thread _ differs) items.live (fun _ => Iff.rfl)
      (fun _ => Iff.rfl) rfl ?_ ?_⟩
  · intro x
    rw [← threads.owned, noUpper]
  · rw [State.settle_caches_self, State.settle_places_self]
    have once := owns.once
    rw [noUpper] at once
    refine ⟨once, nofun, owns.lowerTail, chain, ?_, by omega, ?_, fun nonempty => absurd rfl nonempty⟩
    · rw [length, count, List.length_nil]
      simp only
      omega
    · rw [List.length_nil]
      omega
  · intro waits
    rw [State.settle_places_self] at waits
    exact waits.elim
  · intro b k cut
    rw [State.settle_caches_self, State.settle_places_self] at cut
    rcases cut with held | ⟨record | fill, -⟩
    · exact .inl held
    · cases record
    · cases fill

theorem write (was : spot item = .live) (next blockTail : Option Item) :
    Conserved itemsPerAlloc { s with
      next := update s.next item next
      blockTail := update s.blockTail item blockTail } := by
  have cells : ∀ x, spot x ≠ .live → update s.next item next x = s.next x ∧
      update s.blockTail item blockTail x = s.blockTail x := by
    intro x used
    have differs : x ≠ item := by
      rintro rfl
      exact used was
    exact ⟨update_of_ne differs .., update_of_ne differs ..⟩
  refine ⟨upper, lower, groups, spot, ⟨threads.owned, fun thread => ?_⟩,
    pooled.frame rfl (fun x reused => cells x ?_) (fun _ => Iff.rfl),
    ⟨items.live, items.carved, items.inside, items.blockless, items.carving, items.apart⟩⟩
  · refine (threads.owns thread).congr fun x member => cells x ?_
    rw [(threads.owned thread x).mp member]
    exact Spot.noConfusion
  · rw [reused]
    exact Spot.noConfusion

theorem alloc (size : sizes.itemsPerAlloc = itemsPerAlloc) (place : s.places thread = .idle) :
    Conserved itemsPerAlloc (s.alloc sizes thread) := by
  subst size
  have owns := threads.owns thread
  have mine := owns.arranged
  rw [place] at mine
  obtain ⟨chain, count, lowBound, highBound, whole⟩ := mine
  cases cache : (s.caches thread).cache with
  | some c =>
    simp only [State.alloc, cache]
    rw [cache] at chain
    cases highShape : upper thread with
    | cons first rest =>
      have lowLength := whole (by rw [highShape]; exact List.cons_ne_nil _ _)
      rw [highShape, List.cons_append] at chain
      rw [highShape, List.length_cons] at count highBound
      obtain ⟨same, later⟩ := chain
      cases same
      have once := owns.once
      rw [highShape, List.cons_append, List.nodup_cons] at once
      refine pop threads pooled items rest (lower thread) ?_ ?_ ⟨once.2,
        (highShape ▸ owns.upperTail).tail, owns.lowerTail, later, ?_, lowBound, ?_,
        fun _ => lowLength⟩ rfl rfl
      · rw [highShape, List.cons_append]
      · exact once.1
      · simp only
        omega
      · omega
    | nil =>
      cases lowShape : lower thread with
      | nil =>
        rw [highShape, lowShape] at chain
        cases chain
      | cons first rest =>
        rw [highShape, lowShape] at chain
        rw [lowShape, List.length_cons] at count lowBound
        rw [highShape, List.length_nil] at count
        obtain ⟨same, later⟩ := chain
        cases same
        have once := owns.once
        rw [highShape, lowShape, List.nil_append, List.nodup_cons] at once
        refine pop threads pooled items [] rest ?_ ?_ ⟨once.2, nofun,
          (lowShape ▸ owns.lowerTail).tail, later, ?_, by omega, ?_,
          fun nonempty => absurd rfl nonempty⟩ rfl rfl
        · rw [highShape, lowShape]
          rfl
        · exact once.1
        · rw [List.length_nil]
          simp only
          omega
        · rw [List.length_nil]
          omega
  | none =>
    have empty : upper thread ++ lower thread = [] := by
      rw [cache] at chain
      exact chain.unique (rfl : Chain s.next none [] none)
    have nobody := List.append_eq_nil_iff.mp empty
    have zero : (s.caches thread).count = 0 := by
      rw [count, nobody.1, nobody.2]
      rfl
    cases block : (s.caches thread).block with
    | some b =>
      simp only [State.alloc, cache, block]
      exact carve threads pooled items (.inl ⟨block, rfl⟩) nobody rfl zero rfl rfl
    | none =>
      simp only [State.alloc, cache, block]
      refine wait threads pooled items nobody ?_ block ?_
      · cases s.reusePool.isSome <;> exact ⟨rfl, rfl, cache, zero⟩
      · intro b k cut
        rcases cut with ⟨held, -⟩ | ⟨record | fill, -⟩
        · rw [block] at held
          cases held
        · cases pool : s.reusePool.isSome <;> simp [pool] at record
        · cases pool : s.reusePool.isSome <;> simp [pool] at fill

theorem took {cache : Item} (size : sizes.itemsPerAlloc = itemsPerAlloc)
    (place : s.places thread = .took cache) :
    Conserved itemsPerAlloc ((s.settle thread { s.caches thread with
      cache := s.next cache
      count := sizes.itemsPerAlloc - 1 }).hand cache) := by
  have two := sizes.two
  have owns := threads.owns thread
  have mine := owns.arranged
  rw [place] at mine
  obtain ⟨noUpper, length, chain⟩ := mine
  cases lowShape : lower thread with
  | nil =>
    rw [lowShape, List.length_nil] at length
    omega
  | cons first rest =>
    rw [lowShape] at chain
    rw [lowShape, List.length_cons] at length
    obtain ⟨same, later⟩ := chain
    cases same
    have once := owns.once
    rw [noUpper, lowShape, List.nil_append, List.nodup_cons] at once
    refine pop threads pooled items [] rest ?_ once.1 ⟨once.2, nofun,
      (lowShape ▸ owns.lowerTail).tail, later, ?_, by omega, ?_, fun nonempty => absurd rfl nonempty⟩
      rfl rfl
    · rw [noUpper, lowShape]
      rfl
    · rw [List.length_nil]
      simp only
      omega
    · rw [List.length_nil]
      omega

theorem fill {p : Nat} (two : 2 ≤ itemsPerAlloc) (place : s.places thread = .fill p) :
    Conserved itemsPerAlloc
      ((s.settle thread { s.caches thread with block := some p, i := 1 }).hand (p, 0)) := by
  have mine := (threads.owns thread).arranged
  rw [place] at mine
  obtain ⟨noUpper, noLower, cache, count⟩ := mine
  refine carve threads pooled items (.inr ⟨.inr place, rfl⟩) ⟨noUpper, noLower⟩ cache count ?_ rfl
  rw [if_neg (by omega)]

theorem repage {p pageCount pos : Nat} {pages : Nat → Nat → Word} {list : Word}
    (place : s.places thread = .record p) :
    Conserved itemsPerAlloc ({ s with
      pages := pages
      allocList := list
      allocListPos := pos
      pageCount := pageCount }.goto thread (.fill p)) := by
  have mine := (threads.owns thread).arranged
  rw [place] at mine
  obtain ⟨noUpper, noLower, cache, count⟩ := mine
  have block : (s.caches thread).block = none := by
    refine items.blockless thread ?_
    rw [place]
    trivial
  refine wait (s := { s with
      pages := pages
      allocList := list
      allocListPos := pos
      pageCount := pageCount }) ⟨threads.owned, threads.owns⟩
    ⟨pooled.member, pooled.once, pooled.chain, pooled.whole⟩
    ⟨items.live, items.carved, items.inside, items.blockless, items.carving, items.apart⟩
    ⟨noUpper, noLower⟩ ⟨rfl, rfl, cache, count⟩ block ?_
  intro b k cut
  rcases cut with ⟨held, -⟩ | ⟨record | fill, zero⟩
  · rw [block] at held
    cases held
  · cases record
  · cases fill
    exact .inr ⟨.inl place, zero⟩

theorem record {p page : Nat} (sizes : Sizes) (book : s.allocList = .page page)
    (place : s.places thread = .record p) :
    ∃ after, s.recordBlock sizes p = some after ∧
      Conserved itemsPerAlloc (after.goto thread (.fill p)) := by
  by_cases full : s.allocListPos = sizes.pagePtrs - 1
  · exact ⟨_, State.recordBlock_full full, repage threads pooled items place⟩
  · exact ⟨_, State.recordBlock_room book full, repage threads pooled items place⟩

theorem pull_none (place : s.places thread = .pull) :
    Conserved itemsPerAlloc (s.goto thread .grow) := by
  have mine := (threads.owns thread).arranged
  rw [place] at mine
  obtain ⟨noUpper, noLower, cache, count⟩ := mine
  have block : (s.caches thread).block = none := by
    refine items.blockless thread ?_
    rw [place]
    trivial
  refine wait threads pooled items ⟨noUpper, noLower⟩ ⟨rfl, rfl, cache, count⟩ block ?_
  intro b k cut
  rcases cut with ⟨held, -⟩ | ⟨record | fill, -⟩
  · rw [block] at held
    cases held
  · cases record
  · cases fill

omit threads items in
theorem pull_tail {cache : Item} (two : 2 ≤ itemsPerAlloc) (pool : s.reusePool = some cache) :
    ∃ tail, s.blockTail cache = some tail := by
  have chain := pooled.chain
  rw [pool] at chain
  cases groups with
  | nil => cases chain
  | cons group rest =>
    obtain ⟨length, tailed⟩ := pooled.whole group List.mem_cons_self
    cases group with
    | nil =>
      rw [List.length_nil] at length
      omega
    | cons first others =>
      cases chain.1
      obtain ⟨last, ends, -⟩ := tailed.last
      exact ⟨last, ends⟩

omit pooled items in
theorem push_tail {n toglobal : Item} {cnt : Nat} (two : 2 ≤ itemsPerAlloc)
    (place : s.places thread = .push n toglobal cnt) :
    ∃ tail, s.blockTail toglobal = some tail := by
  have owns := threads.owns thread
  have mine := owns.arranged
  rw [place] at mine
  obtain ⟨-, length, -, chain, -⟩ := mine
  have tailed := owns.lowerTail
  cases shape : lower thread with
  | nil =>
    rw [shape, List.length_nil] at length
    omega
  | cons first others =>
    rw [shape] at chain tailed
    cases chain.1
    obtain ⟨last, ends, -⟩ := tailed.last
    exact ⟨last, ends⟩

theorem advance {page : Nat} (size : sizes.itemsPerAlloc = itemsPerAlloc)
    (book : s.allocList = .page page) (busy : s.places thread ≠ .idle) :
    ∃ after, s.advance sizes thread = some after ∧ Conserved itemsPerAlloc after := by
  have two := sizes.two
  subst size
  cases place : s.places thread with
  | idle => exact absurd place busy
  | pull =>
    cases pool : s.reusePool with
    | none => exact ⟨_, by simp only [State.advance, place, pool],
        pull_none threads pooled items place⟩
    | some cache =>
      obtain ⟨tail, tailed⟩ := pull_tail pooled two pool
      exact ⟨_, by simp only [State.advance, place, pool, tailed],
        pull threads pooled items two place pool tailed⟩
  | took cache => exact ⟨_, by simp only [State.advance, place], took threads pooled items rfl place⟩
  | grow => exact ⟨_, by simp only [State.advance, place], grow threads pooled items two place⟩
  | record p =>
    obtain ⟨after, recorded, conserved⟩ := record threads pooled items sizes book place
    exact ⟨_, by simp only [State.advance, place, recorded, Option.map_some], conserved⟩
  | fill p => exact ⟨_, by simp only [State.advance, place], fill threads pooled items two place⟩
  | push n toglobal cnt =>
    obtain ⟨tail, tailed⟩ := push_tail threads two place
    exact ⟨_, by simp only [State.advance, place, tailed],
      push threads pooled items place two tailed⟩
  | pushed n cnt => exact ⟨_, by simp only [State.advance, place],
      pushed threads pooled items place two⟩

end Steps

end Qthreads.Mpool
