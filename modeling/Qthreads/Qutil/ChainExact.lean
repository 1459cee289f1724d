import Qthreads.Qutil.Chain

namespace Qthreads.Qutil

open Lib

variable {α : Type} {call : Loop.Reduction α} {s after : Chain α} {worker : Nat}

theorem worker_single (low : Nat) : call.worker low (low + 1) = call.array low := by
  rw [Loop.Reduction.worker, Nat.sub_self]
  rfl

theorem worker_succ {low i : Nat} (less : low < i) :
    call.worker low (i + 1) = call.op (call.worker low i) (call.array i) := by
  have count : i + 1 - (low + 1) = i - (low + 1) + 1 := by omega
  have last : low + 1 + (i - (low + 1)) = i := by omega
  rw [Loop.Reduction.worker, count, List.range'_1_concat, last, List.foldl_append]
  rfl

def readBy : Pc → Nat
  | .free => 1
  | .fill => 1
  | .done => 1
  | _ => 0

def freedBy : Pc → Nat
  | .fill => 1
  | .done => 1
  | _ => 0

def Pc.Past : Pc → Prop
  | .add => True
  | .free => True
  | .fill => True
  | .done => True
  | _ => False

def Valued (call : Loop.Reduction α) (s : Chain α) (worker : Nat) : Pc → Prop
  | .start => True
  | .fold i =>
    worker * mtLoopChunk < i ∧ i ≤ s.stop call worker ∧
      s.rets worker = call.worker (worker * mtLoopChunk) i
  | .await => 0 < worker ∧ s.rets worker = call.worker (worker * mtLoopChunk) (s.stop call worker)
  | .add => 0 < worker ∧ s.rets worker = call.worker (worker * mtLoopChunk) (s.stop call worker)
  | .free => 0 < worker ∧ s.rets worker = call.worker 0 (s.stop call worker)
  | .fill => s.rets worker = call.worker 0 (s.stop call worker)
  | .done => s.rets worker = call.worker 0 (s.stop call worker)

theorem Valued.congr {k : Nat} {pc : Pc} (valued : Valued call s k pc)
    (rets : after.rets k = s.rets k) (stop : after.stop call k = s.stop call k) :
    Valued call after k pc := by
  cases pc <;> simp only [Valued, rets, stop] at valued ⊢ <;> exact valued

structure ChainInv (call : Loop.Reduction α) (s : Chain α) : Prop where
  bound : ∀ k < s.spawned, k * mtLoopChunk + mtLoopChunk < call.length
  running : ∀ k, s.pcs k ≠ .start → s.Running call k
  value : ∀ k, Valued call s k (s.pcs k)
  behind : ∀ k, (s.pcs (k + 1)).Past → s.full k = true
  full : ∀ k, s.full k = true ↔ s.pcs k = .done ∧ k < s.spawned
  reads : ∀ k, s.reads k = readBy (s.pcs (k + 1))
  frees : ∀ k, s.frees k = freedBy (s.pcs (k + 1))
  whole : s.broken = false

theorem Pc.past_of_freed {pc : Pc} (freed : freedBy pc ≠ 0) : pc.Past := by
  cases pc with
  | fill => trivial
  | done => trivial
  | _ => exact absurd rfl freed

theorem use_eq {record : Nat} (live : s.frees record = 0) : s.use record = s := by
  rw [Chain.use, live]
  simp

section

variable (inv : ChainInv call s)
include inv

theorem ChainInv.not_past (busy : s.pcs worker ≠ .done) : ¬ (s.pcs (worker + 1)).Past :=
  fun past => busy ((inv.full worker).mp (inv.behind worker past)).1

theorem ChainInv.not_full (busy : s.pcs worker ≠ .done) : ¬ s.full worker = true :=
  fun full => busy ((inv.full worker).mp full).1

theorem ChainInv.same_reads {next : Pc} (same : readBy next = readBy (s.pcs worker)) (k : Nat) :
    s.reads k = if k + 1 = worker then readBy next else s.reads k := by
  by_cases before : k + 1 = worker
  · rw [if_pos before, same, ← before, inv.reads]
  · rw [if_neg before]

theorem ChainInv.same_frees {next : Pc} (same : freedBy next = freedBy (s.pcs worker)) (k : Nat) :
    s.frees k = if k + 1 = worker then freedBy next else s.frees k := by
  by_cases before : k + 1 = worker
  · rw [if_pos before, same, ← before, inv.frees]
  · rw [if_neg before]

theorem ChainInv.useOwn_eq (busy : s.pcs worker ≠ .done) : s.useOwn worker = s := by
  rw [Chain.useOwn]
  split
  · refine use_eq ?_
    rw [inv.frees]
    by_contra freed
    exact inv.not_past busy (Pc.past_of_freed freed)
  · rfl

theorem ChainInv.update {next : Pc} (running : s.Running call worker)
    (busy : s.pcs worker ≠ .done) (spawned : after.spawned = s.spawned)
    (pcs : after.pcs = Function.update s.pcs worker next)
    (rets : ∀ k, k ≠ worker → after.rets k = s.rets k) (value : Valued call after worker next)
    (past : next.Past → 0 < worker → s.full (worker - 1) = true)
    (full : ∀ k, k ≠ worker → after.full k = s.full k)
    (own : after.full worker = true ↔ next = .done ∧ worker < s.spawned)
    (reads : ∀ k, after.reads k = if k + 1 = worker then readBy next else s.reads k)
    (frees : ∀ k, after.frees k = if k + 1 = worker then freedBy next else s.frees k)
    (whole : after.broken = s.broken) : ChainInv call after := by
  have other : ∀ k, k ≠ worker → after.pcs k = s.pcs k := by
    intro k differs
    rw [pcs, Function.update_of_ne differs]
  have here : after.pcs worker = next := by rw [pcs, Function.update_self]
  have stop : ∀ k, after.stop call k = s.stop call k := by
    intro k
    rw [Chain.stop, Chain.stop, spawned]
  have runs : ∀ k, s.Running call k → after.Running call k := by
    intro k runs
    rw [Chain.Running, spawned]
    exact runs
  constructor
  · rw [spawned]
    exact inv.bound
  · intro k started
    by_cases same : k = worker
    · rw [same]
      exact runs worker running
    · rw [other k same] at started
      exact runs k (inv.running k started)
  · intro k
    by_cases same : k = worker
    · rw [same, here]
      exact value
    · have before := inv.value k
      rw [other k same]
      exact before.congr (rets k same) (stop k)
  · intro k
    by_cases same : k = worker
    · rw [same, other (worker + 1) (by omega)]
      exact fun reached => absurd reached (inv.not_past busy)
    · rw [full k same]
      by_cases next_ : k + 1 = worker
      · rw [next_, here]
        intro reached
        have before := past reached (by omega)
        rw [← next_] at before
        exact before
      · rw [other (k + 1) next_]
        exact inv.behind k
  · intro k
    by_cases same : k = worker
    · rw [same, here, spawned]
      exact own
    · rw [full k same, other k same, spawned]
      exact inv.full k
  · intro k
    rw [reads k]
    by_cases next_ : k + 1 = worker
    · rw [if_pos next_, next_, here]
    · rw [if_neg next_, other (k + 1) next_]
      exact inv.reads k
  · intro k
    rw [frees k]
    by_cases next_ : k + 1 = worker
    · rw [if_pos next_, next_, here]
    · rw [if_neg next_, other (k + 1) next_]
      exact inv.frees k
  · rw [whole]
    exact inv.whole

end

theorem ChainInv.spawn (inv : ChainInv call s)
    (more : s.spawned * mtLoopChunk + mtLoopChunk < call.length) :
    ChainInv call
      { s with spawned := s.spawned + 1, full := Function.update s.full s.spawned false } := by
  have fresh : ∀ k, s.spawned ≤ k → s.pcs k = .start := by
    intro k behind
    by_contra started
    obtain below | ⟨_, beyond⟩ := inv.running k started
    · omega
    · exact beyond more
  constructor
  · intro k less
    by_cases last : k = s.spawned
    · rw [last]
      exact more
    · exact inv.bound k (Nat.lt_of_le_of_ne (Nat.le_of_lt_succ less) last)
  · intro k started
    left
    by_contra outside
    exact started (fresh k (Nat.le_of_succ_le (Nat.le_of_not_lt outside)))
  · intro k
    have before := inv.value k
    by_cases below : k < s.spawned
    · have stop : Chain.stop call
          { s with spawned := s.spawned + 1, full := Function.update s.full s.spawned false } k =
          s.stop call k := by
        rw [Chain.stop, Chain.stop, if_pos below]
        exact if_pos (Nat.lt_succ_of_lt below)
      exact before.congr rfl stop
    · simp only [fresh k (Nat.le_of_not_lt below), Valued]
  · intro k reached
    have before := inv.behind k reached
    have below := ((inv.full k).mp before).2
    exact (Function.update_of_ne (Nat.ne_of_lt below) _ _).trans before
  · intro k
    by_cases last : k = s.spawned
    · simp only [last, Function.update_self, fresh s.spawned (Nat.le_refl _)]
      exact ⟨nofun, fun both => nomatch both.1⟩
    · simp only [Function.update_of_ne last]
      rw [inv.full k]
      exact ⟨fun both => ⟨both.1, Nat.lt_succ_of_lt both.2⟩,
        fun both => ⟨both.1, Nat.lt_of_le_of_ne (Nat.le_of_lt_succ both.2) last⟩⟩
  · exact inv.reads
  · exact inv.frees
  · exact inv.whole

theorem ChainInv.chunk (inv : ChainInv call s) (positive : 0 < call.length)
    (running : s.Running call worker) :
    worker * mtLoopChunk < s.stop call worker ∧ (worker ≠ 0 →
      s.stop call (worker - 1) = worker * mtLoopChunk ∧ 0 < worker * mtLoopChunk) := by
  have before : worker ≠ 0 → (worker - 1) * mtLoopChunk + mtLoopChunk = worker * mtLoopChunk := by
    intro later
    rw [← Nat.succ_mul, Nat.succ_eq_add_one, Nat.sub_add_cancel (Nat.pos_of_ne_zero later)]
  have chunk : 0 < mtLoopChunk := by decide
  have below : worker ≠ 0 → worker - 1 < s.spawned := by
    intro later
    obtain own | ⟨own, -⟩ := running
    · omega
    · omega
  constructor
  · rw [Chain.stop]
    split
    · omega
    · obtain own | ⟨own, -⟩ := running
      · omega
      · by_cases first : worker = 0
        · rw [first, Nat.zero_mul]
          exact positive
        · have bound := inv.bound _ (below first)
          rw [before first] at bound
          exact bound
  · intro later
    rw [Chain.stop, if_pos (below later), before later]
    exact ⟨rfl, Nat.mul_pos (Nat.pos_of_ne_zero later) chunk⟩

theorem ChainInv.live (inv : ChainInv call s) (later : worker ≠ 0)
    (unfreed : freedBy (s.pcs worker) = 0) : s.frees (worker - 1) = 0 := by
  rw [inv.frees, Nat.sub_add_cancel (Nat.pos_of_ne_zero later)]
  exact unfreed

theorem ChainInv.step [Std.Associative call.op] [Std.Commutative call.op] {move : ChainMove}
    (inv : ChainInv call s) (pos : 0 < call.length) (taken : ChainStep call s move after) :
    ChainInv call after := by
  cases taken with
  | spawn more => exact inv.spawn more
  | @start worker running here _ =>
    have busy : s.pcs worker ≠ .done := by rw [here]; nofun
    obtain ⟨wide, -⟩ := inv.chunk pos running
    rw [inv.useOwn_eq busy]
    refine inv.update running busy rfl rfl (fun k differs => Function.update_of_ne differs _ _)
      ⟨Nat.lt_succ_self _, wide, ?_⟩ (fun past => past.elim) (fun _ _ => rfl)
      ⟨fun full => absurd full (inv.not_full busy), fun both => nomatch both.1⟩
      (inv.same_reads (by rw [here]; rfl)) (inv.same_frees (by rw [here]; rfl)) rfl
    rw [worker_single]
    exact Function.update_self ..
  | @next worker i here inside _ =>
    have busy : s.pcs worker ≠ .done := by rw [here]; nofun
    have running := inv.running worker (by rw [here]; nofun)
    have value := inv.value worker
    rw [here] at value
    obtain ⟨lower, -, ret⟩ := value
    rw [inv.useOwn_eq busy]
    refine inv.update running busy rfl rfl (fun k differs => Function.update_of_ne differs _ _)
      ⟨Nat.lt_succ_of_lt lower, inside, ?_⟩ (fun past => past.elim) (fun _ _ => rfl)
      ⟨fun full => absurd full (inv.not_full busy), fun both => nomatch both.1⟩
      (inv.same_reads (by rw [here]; rfl)) (inv.same_frees (by rw [here]; rfl)) rfl
    rw [worker_succ lower, ← ret]
    exact Function.update_self ..
  | @folded worker i here beyond =>
    have busy : s.pcs worker ≠ .done := by rw [here]; nofun
    have running := inv.running worker (by rw [here]; nofun)
    have value := inv.value worker
    rw [here] at value
    obtain ⟨-, upper, ret⟩ := value
    have ends : i = s.stop call worker := Nat.le_antisymm upper (Nat.le_of_not_lt beyond)
    rw [ends] at ret
    rw [inv.useOwn_eq busy]
    by_cases first : worker = 0
    · rw [if_pos first]
      refine inv.update running busy rfl rfl (fun _ _ => rfl) ?_
        (fun _ positive => absurd first (Nat.ne_of_gt positive)) (fun _ _ => rfl)
        ⟨fun full => absurd full (inv.not_full busy), fun both => nomatch both.1⟩ ?_ ?_ rfl
      · rw [first, Nat.zero_mul] at ret
        rw [first]
        exact ret
      · intro k
        rw [if_neg (by omega)]
        rfl
      · intro k
        rw [if_neg (by omega)]
        rfl
    · rw [if_neg first]
      exact inv.update running busy rfl rfl (fun _ _ => rfl) ⟨Nat.pos_of_ne_zero first, ret⟩
        (fun past => past.elim) (fun _ _ => rfl)
        ⟨fun full => absurd full (inv.not_full busy), fun both => nomatch both.1⟩
        (inv.same_reads (by rw [here]; rfl)) (inv.same_frees (by rw [here]; rfl)) rfl
  | @readFF worker here full =>
    have busy : s.pcs worker ≠ .done := by rw [here]; nofun
    have running := inv.running worker (by rw [here]; nofun)
    have value := inv.value worker
    rw [here] at value
    obtain ⟨positive, ret⟩ := value
    rw [inv.useOwn_eq busy, use_eq (inv.live (Nat.ne_of_gt positive) (by rw [here]; rfl))]
    exact inv.update running busy rfl rfl (fun _ _ => rfl) ⟨positive, ret⟩ (fun _ _ => full)
      (fun _ _ => rfl)
      ⟨fun full => absurd full (inv.not_full busy), fun both => nomatch both.1⟩
      (inv.same_reads (by rw [here]; rfl)) (inv.same_frees (by rw [here]; rfl)) rfl
  | @add worker here =>
    have busy : s.pcs worker ≠ .done := by rw [here]; nofun
    have running := inv.running worker (by rw [here]; nofun)
    have value := inv.value worker
    rw [here] at value
    obtain ⟨positive, ret⟩ := value
    have later : worker ≠ 0 := Nat.ne_of_gt positive
    have before : worker - 1 + 1 = worker := Nat.sub_add_cancel positive
    have full : s.full (worker - 1) = true := inv.behind (worker - 1) (by rw [before, here]; trivial)
    have total := inv.value (worker - 1)
    rw [((inv.full _).mp full).1] at total
    obtain ⟨wide, join⟩ := inv.chunk pos running
    obtain ⟨stop, front⟩ := join later
    have totalIs : s.rets (worker - 1) = call.worker 0 (worker * mtLoopChunk) := by
      rw [← stop]
      exact total
    rw [inv.useOwn_eq busy, use_eq (inv.live later (by rw [here]; rfl))]
    refine inv.update running busy rfl rfl (fun k differs => Function.update_of_ne differs _ _)
      ⟨positive, ?_⟩ (fun _ _ => full) (fun _ _ => rfl)
      ⟨fun full => absurd full (inv.not_full busy), fun both => nomatch both.1⟩ ?_
      (inv.same_frees (by rw [here]; rfl)) rfl
    · have stays : Chain.stop call { ((s.setRet worker (call.op (s.rets worker)
          (s.rets (worker - 1)))).move worker .free) with
            reads := Function.update s.reads (worker - 1) (s.reads (worker - 1) + 1) } worker =
          s.stop call worker := rfl
      rw [stays, Loop.worker_append front wide, ← ret, ← totalIs,
        @Std.Commutative.comm _ call.op _]
      exact Function.update_self ..
    · intro k
      show Function.update s.reads (worker - 1) (s.reads (worker - 1) + 1) k = _
      by_cases same : k + 1 = worker
      · have at_ : k = worker - 1 := by omega
        rw [if_pos same, at_, Function.update_self, inv.reads, before, here]
        rfl
      · rw [if_neg same, Function.update_of_ne (by omega)]
  | @free worker here =>
    have busy : s.pcs worker ≠ .done := by rw [here]; nofun
    have running := inv.running worker (by rw [here]; nofun)
    have value := inv.value worker
    rw [here] at value
    obtain ⟨positive, ret⟩ := value
    have later : worker ≠ 0 := Nat.ne_of_gt positive
    have before : worker - 1 + 1 = worker := Nat.sub_add_cancel positive
    have full : s.full (worker - 1) = true := inv.behind (worker - 1) (by rw [before, here]; trivial)
    rw [inv.useOwn_eq busy]
    refine inv.update running busy rfl rfl (fun _ _ => rfl) ret (fun _ _ => full) (fun _ _ => rfl)
      ⟨fun full => absurd full (inv.not_full busy), fun both => nomatch both.1⟩
      (inv.same_reads (by rw [here]; rfl)) ?_ rfl
    intro k
    show Function.update s.frees (worker - 1) (s.frees (worker - 1) + 1) k = _
    by_cases same : k + 1 = worker
    · have at_ : k = worker - 1 := by omega
      rw [if_pos same, at_, Function.update_self, inv.frees, before, here]
      rfl
    · rw [if_neg same, Function.update_of_ne (by omega)]
  | @fill worker here =>
    have busy : s.pcs worker ≠ .done := by rw [here]; nofun
    have running := inv.running worker (by rw [here]; nofun)
    have value := inv.value worker
    rw [here] at value
    rw [inv.useOwn_eq busy]
    refine inv.update running busy rfl rfl (fun _ _ => rfl) value ?_ ?_ ?_
      (inv.same_reads (by rw [here]; rfl)) (inv.same_frees (by rw [here]; rfl)) rfl
    · intro _ positive
      refine inv.behind (worker - 1) ?_
      rw [Nat.sub_add_cancel positive, here]
      trivial
    · intro k differs
      simp only
      split
      · exact Function.update_of_ne differs _ _
      · rfl
    · simp only
      split
      · rename_i below
        rw [Function.update_self]
        exact ⟨fun _ => ⟨trivial, below⟩, fun _ => rfl⟩
      · rename_i above
        exact ⟨fun full => absurd full (inv.not_full busy), fun both => absurd both.2 above⟩
  | element =>
    exact ⟨inv.bound, inv.running, fun k => (inv.value k).congr rfl rfl, inv.behind, inv.full,
      inv.reads, inv.frees, inv.whole⟩

theorem ChainInv.start (call : Loop.Reduction α) (blank : Nat → α) (feb : Nat → Bool) :
    ChainInv call (Chain.begin_ blank feb) where
  bound := nofun
  running := fun _ started => absurd rfl started
  value := fun _ => trivial
  behind := fun _ past => past.elim
  full := fun _ => ⟨nofun, nofun⟩
  reads := fun _ => rfl
  frees := fun _ => rfl
  whole := rfl

theorem ChainInv.all_done (inv : ChainInv call s) (returned : s.pcs s.spawned = .done) {k : Nat}
    (inside : k ≤ s.spawned) : s.pcs k = .done := by
  obtain ⟨rest, total⟩ := Nat.exists_eq_add_of_le inside
  induction rest generalizing k with
  | zero =>
    rw [total] at returned
    exact returned
  | succ rest ih =>
    have next := ih (k := k + 1) (by omega) (by omega)
    exact ((inv.full k).mp (inv.behind k (by rw [next]; trivial))).1

theorem ChainInv.result (inv : ChainInv call s) (returned : s.pcs s.spawned = .done) :
    s.rets s.spawned = call.serial ∧ ∀ k < s.spawned, s.reads k = 1 ∧ s.frees k = 1 := by
  constructor
  · have value := inv.value s.spawned
    rw [returned] at value
    have stop : s.stop call s.spawned = call.length := if_neg (Nat.lt_irrefl _)
    have total : s.rets s.spawned = call.worker 0 (s.stop call s.spawned) := value
    rw [total, stop]
    rfl
  · intro k less
    rw [inv.reads, inv.frees, inv.all_done returned (Nat.succ_le_of_lt less)]
    exact ⟨rfl, rfl⟩

theorem ChainInv.counts (inv : ChainInv call s) (k : Nat) :
    s.frees k ≤ s.reads k ∧ s.reads k ≤ 1 := by
  rw [inv.reads, inv.frees]
  cases s.pcs (k + 1) <;> simp only [readBy, freedBy] <;> omega

def rank (call : Loop.Reduction α) : Pc → Nat
  | .start => call.length + 6
  | .fold i => call.length - i + 5
  | .await => 4
  | .add => 3
  | .free => 2
  | .fill => 1
  | .done => 0

theorem useOwn_pcs : (s.useOwn worker).pcs = s.pcs := by
  rw [Chain.useOwn]
  split <;> rfl

theorem useOwn_spawned : (s.useOwn worker).spawned = s.spawned := by
  rw [Chain.useOwn]
  split <;> rfl

theorem ChainInv.stop_le (inv : ChainInv call s) : s.stop call worker ≤ call.length := by
  rw [Chain.stop]
  split
  · rename_i below
    exact Nat.le_of_lt (inv.bound worker below)
  · exact Nat.le_refl _

theorem ChainInv.advance (inv : ChainInv call s) (running : s.Running call worker)
    (before : worker ≠ 0 → s.full (worker - 1) = true) (busy : s.pcs worker ≠ .done) :
    ∃ moves after next, Run (ChainStep call) s moves after ∧ after.spawned = s.spawned ∧
      after.pcs = Function.update s.pcs worker next ∧ rank call next < rank call (s.pcs worker) := by
  have readable (i : Nat) : Chain.Readable call { s with feb := Function.update s.feb i true } i :=
    fun _ => Function.update_self ..
  cases here : s.pcs worker with
  | start =>
    have step := @ChainStep.start α call
      { s with feb := Function.update s.feb (worker * mtLoopChunk) true } worker running here
      (readable _)
    refine ⟨_, _, .fold (worker * mtLoopChunk + 1), .cons .element (.cons step (.nil _)),
      useOwn_spawned, ?_, ?_⟩
    · exact congrArg (Function.update · worker _) useOwn_pcs
    · simp only [rank]
      omega
  | fold i =>
    by_cases inside : i < s.stop call worker
    · have step := @ChainStep.next α call { s with feb := Function.update s.feb i true } worker i
        here inside (readable _)
      have upper : s.stop call worker ≤ call.length := inv.stop_le
      refine ⟨_, _, .fold (i + 1), .cons .element (.cons step (.nil _)), useOwn_spawned, ?_, ?_⟩
      · exact congrArg (Function.update · worker _) useOwn_pcs
      · simp only [rank]
        omega
    · refine ⟨_, _, if worker = 0 then .fill else .await,
        .cons (.folded here inside) (.nil _), useOwn_spawned, ?_, ?_⟩
      · exact congrArg (Function.update · worker _) useOwn_pcs
      · split <;> simp only [rank] <;> omega
  | await =>
    have value := inv.value worker
    rw [here] at value
    refine ⟨_, _, .add, .cons (.readFF here (before (Nat.ne_of_gt value.1))) (.nil _),
      useOwn_spawned, ?_, (by decide : 3 < 4)⟩
    exact congrArg (Function.update · worker _) useOwn_pcs
  | add =>
    refine ⟨_, _, .free, .cons (.add here) (.nil _), useOwn_spawned, ?_, (by decide : 2 < 3)⟩
    exact congrArg (Function.update · worker _) useOwn_pcs
  | free =>
    refine ⟨_, _, .fill, .cons (.free here) (.nil _), useOwn_spawned, ?_, (by decide : 1 < 2)⟩
    exact congrArg (Function.update · worker _) useOwn_pcs
  | fill =>
    refine ⟨_, _, .done, .cons (.fill here) (.nil _), useOwn_spawned, ?_, (by decide : 0 < 1)⟩
    exact congrArg (Function.update · worker _) useOwn_pcs
  | done => exact absurd here busy

section

variable [Std.Associative call.op] [Std.Commutative call.op]

section

variable (inv : ChainInv call s) (positive : 0 < call.length)
include inv positive

theorem ChainInv.run {moves : List ChainMove}
    (run : Run (ChainStep call) s moves after) : ChainInv call after :=
  run.preserves (fun _ _ _ inv step => inv.step positive step) inv

theorem ChainInv.finish
    (running : s.Running call worker) (before : worker ≠ 0 → s.pcs (worker - 1) = .done) :
    ∃ moves after, Run (ChainStep call) s moves after ∧ after.spawned = s.spawned ∧
      after.pcs = Function.update s.pcs worker .done := by
  induction total : rank call (s.pcs worker) using Nat.strongRecOn generalizing s with
  | _ left ih =>
    by_cases done : s.pcs worker = .done
    · exact ⟨_, s, .nil s, rfl, by rw [← done, Function.update_eq_self]⟩
    · have full : worker ≠ 0 → s.full (worker - 1) = true := by
        intro later
        refine (inv.full _).mpr ⟨before later, ?_⟩
        obtain own | ⟨own, -⟩ := running
        · omega
        · omega
      obtain ⟨moves, after, next, run, spawned, pcs, less⟩ := inv.advance running full done
      have reached := inv.run positive run
      have runs : after.Running call worker := by
        rw [Chain.Running, spawned]
        exact running
      have front : worker ≠ 0 → after.pcs (worker - 1) = .done := by
        intro later
        rw [pcs, Function.update_of_ne (by omega)]
        exact before later
      have here : after.pcs worker = next := by rw [pcs, Function.update_self]
      obtain ⟨more, last, rest, same, done⟩ :=
        ih _ (by rw [here, ← total]; exact less) reached runs front rfl
      refine ⟨moves ++ more, last, run.append rest, same.trans spawned, ?_⟩
      rw [done, pcs, Function.update_idem]

theorem ChainInv.finish_all
    (beyond : ¬ s.spawned * mtLoopChunk + mtLoopChunk < call.length) (inside : worker ≤ s.spawned) :
    ∃ moves after, Run (ChainStep call) s moves after ∧ after.spawned = s.spawned ∧
      after.pcs worker = .done := by
  induction worker with
  | zero =>
    have running : s.Running call 0 := by
      obtain isZero | positive := Nat.eq_zero_or_pos s.spawned
      · exact .inr ⟨isZero.symm, beyond⟩
      · exact .inl positive
    obtain ⟨moves, after, run, spawned, pcs⟩ := inv.finish positive running (fun later => absurd rfl later)
    exact ⟨moves, after, run, spawned, by rw [pcs, Function.update_self]⟩
  | succ worker ih =>
    obtain ⟨moves, middle, run, spawned, done⟩ := ih (Nat.le_of_succ_le inside)
    have running : middle.Running call (worker + 1) := by
      rw [Chain.Running, spawned]
      obtain less | last := Nat.lt_or_eq_of_le inside
      · exact .inl less
      · exact .inr ⟨last, beyond⟩
    obtain ⟨more, after, rest, same, pcs⟩ := (inv.run positive run).finish positive running (fun _ => done)
    exact ⟨moves ++ more, after, run.append rest, same.trans spawned,
      by rw [pcs, Function.update_self]⟩

end

theorem exists_spawned (call : Loop.Reduction α) (s : Chain α) :
    ∃ moves after, Run (ChainStep call) s moves after ∧
      ¬ after.spawned * mtLoopChunk + mtLoopChunk < call.length := by
  induction total : call.length - s.spawned using Nat.strongRecOn generalizing s with
  | _ left ih =>
    by_cases more : s.spawned * mtLoopChunk + mtLoopChunk < call.length
    · have less : s.spawned < call.length := by
        rw [mtLoopChunk] at more
        omega
      obtain ⟨moves, after, run, beyond⟩ :=
        ih _ (by simp only; omega) { s with spawned := s.spawned + 1, full := Function.update s.full s.spawned false } rfl
      exact ⟨_, after, .cons (.spawn more) run, beyond⟩
    · exact ⟨_, s, .nil s, more⟩

theorem chains_of (positive : 0 < call.length) : Chains call := by
  intro blank feb moves s run
  have inv := (ChainInv.start call blank feb).run positive run
  refine ⟨⟨inv.whole, inv.counts⟩, fun returned => inv.result returned.2, ?_⟩
  obtain ⟨spawns, middle, front, beyond⟩ := exists_spawned call s
  obtain ⟨more, last, back, same, done⟩ := (inv.run positive front).finish_all positive beyond (Nat.le_refl _)
  refine ⟨spawns ++ more, last, front.append back, ?_, ?_⟩
  · rw [same]
    exact beyond
  · rw [same]
    exact done

end

instance (operator : Macro) : Std.Associative (operator.op : UInt64 → UInt64 → UInt64) where
  assoc a b c := by
    cases operator with
    | sum => exact UInt64.add_assoc a b c
    | mult => exact UInt64.mul_assoc a b c
    | max =>
      simp only [Macro.op, UInt64.lt_iff_toNat_lt]
      split_ifs <;> first | rfl | omega
    | min =>
      simp only [Macro.op, gt_iff_lt, UInt64.lt_iff_toNat_lt]
      split_ifs <;> first | rfl | omega

instance (operator : Macro) : Std.Commutative (operator.op : UInt64 → UInt64 → UInt64) where
  comm a b := by
    cases operator with
    | sum => exact UInt64.add_comm a b
    | mult => exact UInt64.mul_comm a b
    | max =>
      simp only [Macro.op, UInt64.lt_iff_toNat_lt]
      split_ifs <;> first | rfl | exact UInt64.toNat_inj.mp (by omega)
    | min =>
      simp only [Macro.op, gt_iff_lt, UInt64.lt_iff_toNat_lt]
      split_ifs <;> first | rfl | exact UInt64.toNat_inj.mp (by omega)

instance (operator : Macro) : Std.Associative (operator.op : Int64 → Int64 → Int64) where
  assoc a b c := by
    cases operator with
    | sum => exact Int64.add_assoc a b c
    | mult => exact Int64.mul_assoc a b c
    | max =>
      simp only [Macro.op, Int64.lt_iff_toInt_lt]
      split_ifs <;> first | rfl | omega
    | min =>
      simp only [Macro.op, gt_iff_lt, Int64.lt_iff_toInt_lt]
      split_ifs <;> first | rfl | omega

instance (operator : Macro) : Std.Commutative (operator.op : Int64 → Int64 → Int64) where
  comm a b := by
    cases operator with
    | sum => exact Int64.add_comm a b
    | mult => exact Int64.mul_comm a b
    | max =>
      simp only [Macro.op, Int64.lt_iff_toInt_lt]
      split_ifs <;> first | rfl | exact Int64.toInt_inj.mp (by omega)
    | min =>
      simp only [Macro.op, gt_iff_lt, Int64.lt_iff_toInt_lt]
      split_ifs <;> first | rfl | exact Int64.toInt_inj.mp (by omega)

/-- Each of the chained reductions over integers returns the serial result of a nonempty array,
whatever the order of its tasks. -/
theorem chained_reductions_serial (operator : Macro) (unsigned : Nat → UInt64) (signed : Nat → Int64)
    (checkfeb : Bool) {length : Nat} (nonempty : 1 ≤ length) :
    Chains (qutilUint operator unsigned length checkfeb) ∧
      Chains (qutilInt operator signed length checkfeb) := by
  have first : Std.Associative (qutilUint operator unsigned length checkfeb).op :=
    inferInstanceAs (Std.Associative (operator.op : UInt64 → UInt64 → UInt64))
  have second : Std.Commutative (qutilUint operator unsigned length checkfeb).op :=
    inferInstanceAs (Std.Commutative (operator.op : UInt64 → UInt64 → UInt64))
  have third : Std.Associative (qutilInt operator signed length checkfeb).op :=
    inferInstanceAs (Std.Associative (operator.op : Int64 → Int64 → Int64))
  have fourth : Std.Commutative (qutilInt operator signed length checkfeb).op :=
    inferInstanceAs (Std.Commutative (operator.op : Int64 → Int64 → Int64))
  exact ⟨chains_of nonempty, chains_of nonempty⟩

theorem chained_reductions_serial_chunk :
    Chains (qutilUint .sum (fun i => i.toUInt64) 10001 true) ∧
      Chains (qutilInt .max (fun i => i.toInt64) 10001 true) :=
  ⟨(chained_reductions_serial .sum (fun i => i.toUInt64) (fun i => i.toInt64) true (by decide)).1,
    (chained_reductions_serial .max (fun i => i.toUInt64) (fun i => i.toInt64) true (by decide)).2⟩

end Qthreads.Qutil
