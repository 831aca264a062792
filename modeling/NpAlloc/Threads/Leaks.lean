/-
**What `deinit` reports as not freed.**

`allocated_` goes up in the pool of the thread that allocates and down in the pool of the thread that
frees. So a pool counts, of its own blocks, those that are live and those that were freed into another
pool, less the blocks of other pools that were freed into it (`Level`), modulo `2 ^ 64`. Before `deinit`
prints the counter it walks its free list, and it prints it in base 16.

* `Right` — what the message of `deinit` should say, and that a free does not wrap the counter;
* **`leaks_reported_iff`** — after every run, a step is right exactly when the free list leads to null and
  the blocks that came into the pool from others and those that left it for others balance, up to what
  base 16 makes of the number of its blocks;
* `Domestic.right` — where every block is freed at home, a class with fewer than ten blocks left is reported
  right;
* **`leak_misreported`** — one block freed by another thread is enough.
-/

import NpAlloc.Threads.Conservation
import NpAlloc.Threads.Message

set_option linter.unusedSectionVars false

namespace NpAlloc.Pool

/-! ### What a call counts -/

variable {G : Type} {supply : Supply G} {w w' : World G} {p p' : PsPool} {ptr : Nat}

theorem PsPool.allocFromGlobal_allocated (grown : p.allocFromGlobal supply w = .ok (p', w')) :
    p'.allocated_ = p.allocated_ := by
  unfold PsPool.allocFromGlobal at grown
  cases supplied : supply w.global with
  | error fault => simp [supplied, bind, Except.bind] at grown
  | ok chunk =>
    simp only [supplied, bind, Except.bind] at grown
    split at grown <;> cases grown
    rfl

theorem PsPool.allocFromLocalPool_allocated
    (carved : p.allocFromLocalPool supply w = .ok (ptr, p', w')) : p'.allocated_ = p.allocated_ := by
  unfold PsPool.allocFromLocalPool at carved
  split at carved
  · cases grown : p.allocFromGlobal supply w with
    | error fault => simp [grown, bind, Except.bind] at carved
    | ok result =>
      simp only [grown, bind, Except.bind] at carved
      cases carved
      exact PsPool.allocFromGlobal_allocated grown
  · cases carved
    rfl

/-- **A block that is served is counted.** -/
theorem PsPool.alloc_allocated (served : p.alloc supply w = .ok (ptr, p', w')) (some_ : ptr ≠ 0) :
    p'.allocated_ = p.allocated_ + 1 := by
  unfold PsPool.alloc at served
  split at served
  · simp only [bind, Except.bind, pure, Except.pure] at served
    split at served <;> cases served
    · exact absurd ‹_› some_
    · rfl
  · cases carved : p.allocFromLocalPool supply w with
    | error fault => simp [carved, bind, Except.bind] at served
    | ok result =>
      obtain ⟨block, pool, after⟩ := result
      simp only [carved, bind, Except.bind, pure, Except.pure] at served
      split at served <;> cases served
      · exact absurd ‹_› some_
      · show pool.allocated_ + 1 = _
        rw [PsPool.allocFromLocalPool_allocated carved]

variable {pool pool' : ThreadPool} {malloc bytes : Nat} {info : Meta} {origin : Origin SizeClass}

theorem ThreadPool.set_allocated (i j : SizeClass) (new : PsPool) :
    ((pool.set i new).tlsPool j).allocated_
      = if j = i then new.allocated_ else (pool.tlsPool j).allocated_ := by
  show (Function.update pool.tlsPool i new j).allocated_ = _
  by_cases own : j = i
  · subst own
    rw [if_pos rfl, Function.update_self]
  · rw [if_neg own, Function.update_of_ne own]

/-- **A request counts in the class that serves it.** -/
theorem ThreadPool.alloc_allocated
    (served : pool.alloc supply malloc w bytes info = .ok (ptr, origin, pool', w')) (j : SizeClass) :
    (pool'.tlsPool j).allocated_
      = (pool.tlsPool j).allocated_ + if origin = .pool j then 1 else 0 := by
  rcases ThreadPool.alloc_cases served with ⟨block, new, after, found, some_, rfl, rfl⟩ | ⟨rfl, rfl⟩
  · rw [ThreadPool.set_allocated]
    by_cases own : j = classOf (widened bytes)
    · rw [own, if_pos rfl, if_pos rfl]
      exact PsPool.alloc_allocated found some_
    · rw [if_neg own, if_neg fun same => own (Origin.pool.inj same).symm]
      simp
  · simp

/-- **A block counts in the class it is freed into.** -/
theorem ThreadPool.dealloc_allocated {build : Build} {mem mem' : Memory}
    (freed : pool.dealloc build mem ptr = .ok (origin, pool', mem')) (j : SizeClass) :
    (pool'.tlsPool j).allocated_
      = (pool.tlsPool j).allocated_ - if origin = .pool j then 1 else 0 := by
  unfold ThreadPool.dealloc at freed
  simp only at freed
  split at freed
  · cases freed
  · split at freed <;> cases freed
    · rw [ThreadPool.set_allocated]
      set i := classOf (widened (load mem (ptr - headerSize - 16) 8))
      by_cases own : j = i
      · rw [own, if_pos rfl, if_pos rfl]
        rfl
      · rw [if_neg own, if_neg fun same => own (Origin.pool.inj same).symm]
        simp
    · simp

end NpAlloc.Pool

namespace NpAlloc.Threads

open Mmap Pool

variable {T : Type} [DecidableEq T]

/-! ### What the message should say -/

/-- The class whose `deinit` begins with a step. -/
def destroys (s : State T) : Act T → Option (Index T)
  | .exit t order =>
    match s.phase t with
    | .idle => if order.Perm (List.finRange 25) then order.head?.map fun i => (t, i) else none
    | _ => none
  | .unlink t =>
    match s.phase t with
    | .closing i later =>
      if ((s.pool t).tlsPool i).head_ = 0 then later.head?.map fun j => (t, j) else none
    | _ => none
  | _ => none

/-- Where the block of a free comes from, and where `dealloc` puts it. -/
def passes (build : Build) (s : State T) : Act T → Option (Origin (Index T) × Origin (Index T))
  | .free t ptr =>
    match s.phase t with
    | .idle =>
      match s.live.find? fun b => b.ptr = ptr with
      | none => none
      | some b =>
        match (s.pool t).dealloc build s.mem b.ptr with
        | .error _ => none
        | .ok (target, _, _) => some (b.origin, originOf t target)
    | _ => none
  | _ => none

/-- `allocated_` of a pool. -/
def allocated (s : State T) (k : Index T) : BitVec 64 := ((s.pool k.1).tlsPool k.2).allocated_

/-- The blocks of a pool that have not been freed. -/
def unfreed (s : State T) (k : Index T) : Nat := s.live.countP fun b => b.origin = .pool k

/-- **What the accounting promises of a step**, for what the walk of `deinit` reads. -/
structure Right (build : Build) (read : Reads) (base : Nat) (thread : String) (s : State T) (act : Act T) :
    Prop where
  /-- `deinit` reports a class exactly when a block of it has not been freed, and the units it prints are
  those blocks. -/
  reported : ∀ k, destroys s act = some k →
    ∃ rounds said, message read base thread rounds ((s.pool k.1).tlsPool k.2) = some said ∧
      (said.isSome ↔ ∃ b ∈ s.live, b.origin = .pool k) ∧
      ∀ r, said = some r → r.units = toString (unfreed s k)
  /-- No free takes `allocated_` below zero. -/
  unwrapped : ∀ k origin, passes build s act = some (origin, .pool k) → allocated s k ≠ 0

/-! ### Memory of its own -/

/-- **What the allocator stores into is its own**: the blocks of the classes that are live, and the chunks
in the hand of a call, lie in what was committed. -/
structure Contained (s : State T) : Prop where
  blocks : ∀ b ∈ s.live, ∀ k, b.origin = .pool k →
    s.ptr_ ≤ b.base ∧ b.base + blockSize b.bytes ≤ s.head_
  hands : ∀ t c, (s.phase t).hand = some c → s.ptr_ ≤ c ∧ c + kDefaultChunkSize ≤ s.head_

/-- **The step stays in the memory of the allocator**, and gives `free` only what came from `malloc`. -/
def Confined (build : Build) (s : State T) (act : Act T) : Prop :=
  (∀ s', s.step build act = some s' → Contained s') ∧
  ∀ origin target, passes build s act = some (origin, target) →
    ((∃ k, origin = .pool k) ↔ ∃ k, target = .pool k)

/-! ### What a pool counts -/

/-- A block of another pool was freed into this one. -/
def Foreign (k : Index T) : Option (Origin (Index T) × Origin (Index T)) → Bool
  | some (origin, target) => target = .pool k ∧ origin ≠ .pool k
  | none => false

/-- A block of this pool was freed into another one. -/
def Strayed (k : Index T) : Option (Origin (Index T) × Origin (Index T)) → Bool
  | some (origin, target) => origin = .pool k ∧ target ≠ .pool k
  | none => false

/-- The frees of a run. -/
def frees (build : Build) (n : Nat) (start : State T) (acts : List (Act T)) :
    List (Option (Origin (Index T) × Origin (Index T))) :=
  (machine T build n).along (fun s act _ => passes build s act) start acts

/-- How many blocks of other pools a run has freed into a pool. -/
def foreign (build : Build) (n : Nat) (start : State T) (acts : List (Act T)) (k : Index T) : Nat :=
  (frees build n start acts).countP (Foreign k)

/-- How many blocks of a pool a run has freed into others. -/
def strayed (build : Build) (n : Nat) (start : State T) (acts : List (Act T)) (k : Index T) : Nat :=
  (frees build n start acts).countP (Strayed k)

variable {s s' : State T} {n : Nat} {t u : T} {i j : SizeClass} {k : Index T} {build : Build}
  {act : Act T}

/-- **What a step counts.** -/
inductive Counts (build : Build) (s : State T) (act : Act T) (s' : State T) : Prop
  | still (none_ : passes build s act = none) (allocated : ∀ k, allocated s' k = allocated s k)
      (live : ∀ k, unfreed s' k = unfreed s k)
  | serves (origin : Origin (Index T)) (none_ : passes build s act = none)
      (allocated : ∀ k, allocated s' k = allocated s k + if origin = .pool k then 1 else 0)
      (live : ∀ k, unfreed s' k = unfreed s k + if origin = .pool k then 1 else 0)
  | passes (origin target : Origin (Index T)) (passed : passes build s act = some (origin, target))
      (allocated : ∀ k, allocated s' k = allocated s k - if target = .pool k then 1 else 0)
      (live : ∀ k, unfreed s k = unfreed s' k + if origin = .pool k then 1 else 0)

theorem originOf_eq_pool {t : T} {origin : Origin SizeClass} {k : Index T} :
    originOf t origin = .pool k ↔ k.1 = t ∧ origin = .pool k.2 := by
  obtain ⟨u, j⟩ := k
  cases origin with
  | pool i => simp [originOf, eq_comm]
  | malloc p => simp [originOf]

/-- The counters of one thread's pools. -/
theorem allocated_update {pool : ThreadPool} (pools : s'.pool = Function.update s.pool t pool)
    (k : Index T) : allocated s' k
      = if k.1 = t then (pool.tlsPool k.2).allocated_ else allocated s k := by
  unfold allocated
  rw [pools]
  by_cases own : k.1 = t
  · rw [own, if_pos rfl, Function.update_self]
  · rw [if_neg own, Function.update_of_ne own]

/-- **A request is counted where its block comes from.** -/
theorem counts_alloc {supply : Supply Unit} {chunk malloc bytes : Nat} {info : Meta}
    (none_ : passes build s act = none)
    (next : s.allocWith t supply chunk malloc bytes info = some s') : Counts build s act s' := by
  unfold State.allocWith at next
  split at next
  · cases next
  · rename_i ptr origin pool w served
    cases next
    refine .serves (originOf t origin) none_ (fun k => ?_) fun k => ?_
    · rw [allocated_update rfl, ThreadPool.alloc_allocated served]
      by_cases own : k.1 = t
      · rw [if_pos own]
        simp only [originOf_eq_pool, own, true_and]
        unfold allocated
        rw [own]
      · rw [if_neg own, if_neg fun same => own (originOf_eq_pool.mp same).1]
        simp
    · show ((⟨ptr, bytes, originOf t origin⟩ : Block (Index T)) :: s.live).countP _ = _
      rw [List.countP_cons]
      simp only [decide_eq_true_eq]
      rfl

/-- **A free is counted where its block goes.** -/
theorem counts_free {ptr : Nat} (next : s.step build (.free t ptr) = some s') :
    Counts build s (.free t ptr) s' := by
  cases moves_of_step next with
  | @free _ _ b _ here found freed =>
    unfold State.freeWith at freed
    cases given : (s.pool t).dealloc build s.mem b.ptr with
    | error fault =>
      simp only [given] at freed
      cases freed
    | ok result =>
      obtain ⟨target, pool, mem⟩ := result
      simp only [given, Option.some.injEq] at freed
      subst freed
      refine .passes b.origin (originOf t target) ?_ (fun k => ?_) fun k => ?_
      · simp only [passes, here, found, given]
      · rw [allocated_update rfl, ThreadPool.dealloc_allocated given]
        by_cases own : k.1 = t
        · rw [if_pos own]
          simp only [originOf_eq_pool, own, true_and]
          unfold allocated
          rw [own]
        · rw [if_neg own, if_neg fun same => own (originOf_eq_pool.mp same).1]
          simp
      · have perm := List.perm_cons_erase (List.mem_of_find?_eq_some found)
        unfold unfreed
        rw [perm.countP_eq, List.countP_cons]
        simp only [decide_eq_true_eq]
        rfl

/-- A step that leaves the counters and the blocks alone. -/
theorem counts_still (none_ : passes build s act = none) (pool : s'.pool = s.pool)
    (live : s'.live = s.live) : Counts build s act s' := by
  refine .still none_ (fun k => ?_) fun k => ?_
  · unfold allocated
    rw [pool]
  · unfold unfreed
    rw [live]

/-- **Every step counts.** -/
theorem counts_step (next : s.step build act = some s') : Counts build s act s' := by
  cases moves_of_step next with
  | start | starved | popped | advance | write | elsewhere | exit | close | push =>
    exact counts_still rfl rfl rfl
  | alloc here spare served => exact counts_alloc rfl served
  | finish here served => exact counts_alloc rfl served
  | free => exact counts_free next
  | @unlink t i later here some_ =>
    refine .still rfl (fun k => ?_) fun _ => rfl
    rw [allocated_update rfl, ThreadPool.set_allocated]
    by_cases own : k.1 = t
    · rw [if_pos own]
      unfold allocated
      rw [own]
      by_cases class_ : k.2 = i
      · rw [if_pos class_, class_]
      · rw [if_neg class_]
    · rw [if_neg own]

/-! ### What a run counts -/

variable {start : State T} {acts : List (Act T)}

/-- **A pool counts its own blocks that are live or strayed, less the foreign ones.** -/
def Level (build : Build) (n : Nat) (start : State T) (acts : List (Act T)) (s : State T) : Prop :=
  ∀ k, allocated s k + BitVec.ofNat 64 (foreign build n start acts k)
    = BitVec.ofNat 64 (unfreed s k + strayed build n start acts k)

theorem level_nil (initial : State.Init n start) : Level build n start [] start := by
  intro k
  unfold allocated unfreed
  rw [initial.pool, initial.live]
  rfl

/-- **Every step keeps the level.** -/
theorem Level.step {ok : State T → Act T → Prop} (level : Level build n start acts s)
    (run : (machine T build n).Exec ok start acts s) (next : s.step build act = some s') :
    Level build n start (acts ++ [act]) s' := by
  intro k
  have before := level k
  unfold foreign strayed frees at before ⊢
  rw [run.along_snoc next, List.countP_append, List.countP_append, List.countP_singleton,
    List.countP_singleton]
  cases counts_step next with
  | still none_ counts live =>
    rw [none_, counts, live]
    exact before
  | serves origin none_ counts live =>
    rw [none_, counts, live]
    by_cases own : origin = .pool k <;> simp [own, Foreign, Strayed]
    · bv_omega
    · exact before
  | passes origin target passed counts live =>
    rw [passed, counts]
    rw [live] at before
    by_cases own : origin = .pool k <;> by_cases here : target = .pool k <;>
      simp [own, here, Foreign, Strayed] at before ⊢ <;> bv_omega

theorem level_exec {ok : State T → Act T → Prop} (initial : State.Init n start)
    (run : (machine T build n).Exec ok start acts s) : Level build n start acts s :=
  run.snoc_induction (P := fun acts s => Level build n start acts s) (level_nil initial)
    fun _ _ _ _ front level _ next => level.step front next

/-! ### Where a free goes -/

variable {b : Block (Index T)} {ptr p : Nat}

/-- A block of a pool goes to the pool of its class of the thread that frees it. -/
theorem Inv.passes_pool (inv : Inv n s) (build : Build) (idle : s.phase t = .idle)
    (found : (s.live.find? fun b => b.ptr = ptr) = some b) (origin : b.origin = .pool k) :
    passes build s (.free t ptr) = some (.pool k, .pool (t, k.2)) := by
  have member := List.mem_of_find?_eq_some found
  obtain ⟨_, class_, small, _⟩ := inv.housing.in_pool member origin
  obtain ⟨start, fits⟩ := inv.housing.shape b member
  have result := ThreadPool.dealloc_pool build (s.pool t)
    (inv.housing.intact b member) fits small
  rw [← start, ← class_] at result
  simp only [passes, idle, found, result, origin, originOf]

theorem Inv.passes_malloc (inv : Inv n s) (idle : s.phase t = .idle)
    (found : (s.live.find? fun b => b.ptr = ptr) = some b) (origin : b.origin = .malloc p) :
    passes build s (.free t ptr) = some (.malloc p, .malloc b.base) := by
  have member := List.mem_of_find?_eq_some found
  obtain ⟨start, fits⟩ := inv.housing.shape b member
  have housed := inv.housing.housed b member
  unfold Housed at housed
  rw [origin] at housed
  have result := ThreadPool.dealloc_malloc build (s.pool t)
    (inv.housing.intact b member) fits housed.2.1
  rw [← start] at result
  simp only [passes, idle, found, result, origin, originOf]

/-- **A block that its own thread frees goes home.** -/
theorem Inv.passes_home (inv : Inv n s) (domestic : Domestic s act) {origin target : Origin (Index T)}
    (passed : passes build s act = some (origin, target)) :
    (∀ k, origin = .pool k ↔ target = .pool k) ∧ ∀ k, origin = .pool k → ∃ b ∈ s.live, b.origin = .pool k := by
  cases act with
  | free t ptr =>
    cases idle : s.phase t with
    | idle =>
      cases found : s.live.find? fun b => b.ptr = ptr with
      | none => simp [passes, idle, found] at passed
      | some b =>
        have member := List.mem_of_find?_eq_some found
        have start : b.ptr = ptr := by simpa using List.find?_some found
        cases from_ : b.origin with
        | pool k =>
          rw [inv.passes_pool build idle found from_] at passed
          obtain ⟨rfl, rfl⟩ := Prod.mk.inj (Option.some.inj passed)
          have own : (t, k.2) = k := Prod.ext (domestic b member start k from_).symm rfl
          rw [own]
          refine ⟨fun _ => Iff.rfl, fun l same => ⟨b, member, from_.trans same⟩⟩
        | malloc p =>
          rw [inv.passes_malloc idle found from_] at passed
          obtain ⟨rfl, rfl⟩ := Prod.mk.inj (Option.some.inj passed)
          exact ⟨fun k => by simp, fun k same => (by cases same)⟩
    | _ => simp [passes, idle] at passed
  | _ => cases passed

/-- The blocks that are not freed fit in the counter: they lie at different addresses. -/
theorem Inv.unfreed_lt (inv : Inv n s) (k : Index T) : unfreed s k < 2 ^ 64 := by
  have bases : (s.live.map Block.base).Nodup :=
    inv.housing.nodup.map_on fun b first c second same => inv.housing.base_injective first second same
  have inside : s.live.map Block.base ⊆ List.range (2 ^ 64 - 1) := fun base member => by
    obtain ⟨b, held, rfl⟩ := List.mem_map.mp member
    have fits := (inv.housing.shape b held).2
    rw [List.mem_range]
    unfold blockSize at fits
    omega
  have short := (bases.subperm inside).length_le
  have some_ : unfreed s k ≤ s.live.length := List.countP_le_length
  rw [List.length_map, List.length_range] at short
  omega

/-- A run that frees nothing. -/
theorem frees_none {ok : State T → Act T → Prop} (run : (machine T build n).Exec ok start acts s)
    (kept : ∀ act ∈ acts, ∀ t ptr, act ≠ .free t ptr) :
    foreign build n start acts k = 0 ∧ strayed build n start acts k = 0 := by
  have none_ : ∀ m ∈ frees build n start acts, m = none := fun m member => by
    obtain ⟨_, middle, act, _, _, _, _, member', rfl⟩ := run.mem_along member
    cases act with
    | free t ptr => exact absurd rfl (kept _ member' t ptr)
    | _ => rfl
  unfold foreign strayed
  rw [List.countP_eq_zero, List.countP_eq_zero]
  refine ⟨fun m member => ?_, fun m member => ?_⟩ <;> rw [none_ m member] <;> simp [Foreign, Strayed]

/-! ### The result -/

/-- **When the accounting is right**, by what has been freed where. -/
structure Balanced (build : Build) (n : Nat) (read : Reads) (start : State T) (acts : List (Act T))
    (s : State T) (act : Act T) : Prop where
  /-- The free list of a class that is destroyed leads to null. -/
  intact : ∀ k, destroys s act = some k → Leads read 0 ((s.pool k.1).tlsPool k.2).free_
  /-- As many blocks of other pools were freed into it as of its own into others, up to what the digits of
  its unfreed blocks say in base 16. -/
  level : ∀ k, destroys s act = some k →
    (unfreed s k + strayed build n start acts k) % 2 ^ 64
      = (foreign build n start acts k + reread 10 16 (unfreed s k)) % 2 ^ 64 ∧
    reread 10 16 (unfreed s k) < 2 ^ 64
  /-- A block is freed into a pool whose own blocks, live or freed into others, outnumber the foreign
  ones. -/
  covered : ∀ k origin, passes build s act = some (origin, .pool k) →
    (unfreed s k + strayed build n start acts k) % 2 ^ 64 ≠ foreign build n start acts k % 2 ^ 64

/-- **Up to nine unfreed blocks** the digits say the same, and the frees have to balance. -/
theorem level_few {u x y : Nat} (few : u < 10) :
    ((u + x) % 2 ^ 64 = (y + reread 10 16 u) % 2 ^ 64 ∧ reread 10 16 u < 2 ^ 64) ↔
      x % 2 ^ 64 = y % 2 ^ 64 := by
  rw [reread_small few]
  omega

theorem unfreed_pos (s : State T) (k : Index T) :
    0 < unfreed s k ↔ ∃ b ∈ s.live, b.origin = .pool k := by
  unfold unfreed
  rw [List.countP_pos_iff]
  simp only [decide_eq_true_eq]

/-- **The accounting is right exactly when the frees balance**: after every run of any threads that stays
in the memory of the allocator, whatever the walk of `deinit` reads, what it reports of the class whose
destruction begins is what was not freed, and a free does not take `allocated_` below zero, if and only if
the free list leads to null and the blocks freed into the pool from others and those freed from it into
others balance. -/
theorem leaks_reported_iff (build : Build) (n : Nat) (start s : State T) (acts : List (Act T))
    (initial : State.Init n start)
    (run : (machine T build n).Exec (fun s act => Supplied n s act ∧ Confined build s act) start acts s)
    (read : Reads) (base : Nat) (thread : String) (act : Act T) :
    Right build read base thread s act ↔ Balanced build n read start acts s act := by
  have level := level_exec initial run
  have equal : ∀ k, (allocated s k).toNat = reread 10 16 (unfreed s k) ↔
      (unfreed s k + strayed build n start acts k) % 2 ^ 64
        = (foreign build n start acts k + reread 10 16 (unfreed s k)) % 2 ^ 64 ∧
      reread 10 16 (unfreed s k) < 2 ^ 64 := fun k => by
    have now := level k
    generalize reread 10 16 (unfreed s k) = units
    bv_omega
  have zero : ∀ k, allocated s k = 0 ↔ (unfreed s k + strayed build n start acts k) % 2 ^ 64
      = foreign build n start acts k % 2 ^ 64 := fun k => by
    have now := level k
    bv_omega
  have printed : ∀ k, _ := fun k =>
    message_right read base thread ((s.pool k.1).tlsPool k.2) (unfreed s k)
  simp only [unfreed_pos] at printed
  constructor
  · rintro ⟨reported, unwrapped⟩
    have told : ∀ k, destroys s act = some k → _ := fun k here => (printed k).mp (reported k here)
    exact ⟨fun k here => (told k here).1, fun k here => (equal k).mp (told k here).2,
      fun k origin here => mt (zero k).mpr (unwrapped k origin here)⟩
  · rintro ⟨intact, balanced, covered⟩
    exact ⟨fun k here => (printed k).mpr ⟨intact k here, (equal k).mpr (balanced k here)⟩,
      fun k origin here => mt (zero k).mp (covered k origin here)⟩

/-! ### Settled runs -/

/-- What the invariant says of the memory in use. -/
theorem Inv.contained (inv : Inv n s) : Contained s := by
  refine ⟨fun b member k origin => ?_, fun t c hand => ?_⟩
  · obtain ⟨live, _, _, fits⟩ := inv.housing.in_pool member origin
    obtain ⟨l, base, chunk, low, high⟩ := inv.housing.family.inside
      (inv.housing.family.carved_live live)
    have here : At s base (.chain l) := chunk
    have committed := inv.chunk_committed here
    omega
  · have here : At s c (.hand t) := hand
    exact inv.chunk_committed here

/-- **A step of a settled run stays in the memory of the allocator.** -/
theorem Inv.confined (inv : Inv n s) (supplied : Supplied n s act) (ready : Orderly s act) :
    Confined build s act := by
  refine ⟨fun s' next => (inv.orderly_step supplied ready next).contained, fun origin target passed => ?_⟩
  cases act with
  | free t ptr =>
    cases idle : s.phase t with
    | idle =>
      cases found : s.live.find? fun b => b.ptr = ptr with
      | none => simp [passes, idle, found] at passed
      | some b =>
        cases from_ : b.origin with
        | pool k =>
          rw [inv.passes_pool build idle found from_] at passed
          obtain ⟨rfl, rfl⟩ := Prod.mk.inj (Option.some.inj passed)
          exact iff_of_true ⟨_, rfl⟩ ⟨_, rfl⟩
        | malloc p =>
          rw [inv.passes_malloc idle found from_] at passed
          obtain ⟨rfl, rfl⟩ := Prod.mk.inj (Option.some.inj passed)
          simp
    | _ => simp [passes, idle] at passed
  | _ => cases passed

/-- A settled run stays in the memory of the allocator. -/
theorem confined_run {start : State T} (initial : State.Init n start)
    (run : (machine T build n).Exec (fun s act => Supplied n s act ∧ Orderly s act) start acts s) :
    (machine T build n).Exec (fun s act => Supplied n s act ∧ Confined build s act) start acts s :=
  run.mono_of_inv (Inv.keeps build n)
    (fun _ _ inv admitted => ⟨admitted.1, inv.confined admitted.1 admitted.2⟩) (.init initial)

/-- The list of the class whose `deinit` begins is in use. -/
theorem open_of_destroys (destroyed : destroys s act = some k) : (s.phase k.1).Open k.2 := by
  cases act with
  | exit t order =>
    cases phase : s.phase t <;> simp only [destroys, phase, reduceCtorEq] at destroyed
    obtain ⟨_, first⟩ := Option.ite_none_right_eq_some.mp destroyed
    obtain ⟨i, _, rfl⟩ := Option.map_eq_some_iff.mp first
    rw [phase]
    trivial
  | unlink t =>
    cases phase : s.phase t <;> simp only [destroys, phase, reduceCtorEq] at destroyed
    obtain ⟨_, first⟩ := Option.ite_none_right_eq_some.mp destroyed
    obtain ⟨i, next, rfl⟩ := Option.map_eq_some_iff.mp first
    rw [phase]
    exact List.mem_of_head? next
  | _ => cases destroyed

/-- **Where every block is freed by its own thread, before it exits, the accounting is right** for the
classes with fewer than ten blocks left, whatever the others do during the walk. -/
theorem Domestic.right {s₀ : State T} {first rest : List (Act T)} {read : Reads} (base : Nat)
    (thread : String) (initial : State.Init n start)
    (front : (machine T build n).Exec (fun s act => Supplied n s act ∧ Domestic s act) start first s₀)
    (back : (machine T build n).Exec (fun s act => Supplied n s act ∧ Domestic s act) s₀ rest s)
    (domestic : Domestic s act)
    (walk : ∀ k, destroys s act = some k →
      (∀ act ∈ rest, actsFor k.1 act = false) ∧ Watches build n k.1 s₀ read)
    (few : ∀ k, destroys s act = some k → unfreed s k < 10) : Right build read base thread s act := by
  have run := front.append back
  have kept₀ := Inv.domestic ⟨start, first, initial, front⟩
  have inv := (Inv.domestic ⟨start, _, initial, run⟩).1
  have level := level_exec initial run
  -- every free of the run was a free at home
  have home : ∀ k, foreign build n start (first ++ rest) k = 0 ∧
      strayed build n start (first ++ rest) k = 0 := fun k => by
    unfold foreign strayed
    rw [List.countP_eq_zero, List.countP_eq_zero, ← forall₂_and]
    intro m member
    obtain ⟨_, middle, act, _, front, admitted, _, _, rfl⟩ := run.mem_along member
    have inv := (Inv.domestic ⟨start, _, initial, front⟩).1
    cases passed : passes build middle act with
    | none => simp [Foreign, Strayed]
    | some m =>
      obtain ⟨origin, target⟩ := m
      have same := (inv.passes_home admitted.2 passed).1 k
      simp only [Foreign, Strayed, decide_eq_true_eq]
      exact ⟨fun ⟨here, other⟩ => other (same.mpr here), fun ⟨here, other⟩ => other (same.mp here)⟩
  have equal : ∀ k, (allocated s k).toNat = unfreed s k := fun k => by
    have now := level k
    have bound := inv.unfreed_lt k
    rw [(home k).1, (home k).2] at now
    bv_omega
  refine ⟨fun k destroyed => ?_, fun k origin passed none_ => ?_⟩
  · obtain ⟨others, watches⟩ := walk k destroyed
    have ends := kept₀.1.walk_ends (orderly_of_domestic kept₀ back) others (open_of_destroys destroyed)
      watches
    have right := (message_right read base thread ((s.pool k.1).tlsPool k.2) (unfreed s k)).mpr
      ⟨ends, by rw [reread_small (few k destroyed)]; exact equal k⟩
    simp only [unfreed_pos] at right
    exact right
  · obtain ⟨same, live⟩ := inv.passes_home domestic passed
    have positive := (unfreed_pos s k).mpr (live k ((same k).mpr rfl))
    rw [← equal k, none_] at positive
    exact absurd positive (by decide)

/-- A chunk that changed hands: the second thread has one block, and its exit is about to begin. -/
theorem leaks_reported_pair : ∃ s : State Bool,
    (machine Bool .debug 1).Exec (fun s act => Supplied 1 s act ∧ Confined .debug s act) State.pair
      pairCalls s ∧
    destroys s (.exit false exitOrder) = some (false, classOf 164) ∧
    s.live.map Block.origin = [.pool (false, classOf 164)] ∧
    ∀ read base thread act, Right .debug read base thread s act ↔
      Balanced .debug 1 read State.pair pairCalls s act := by
  obtain ⟨_, _, s, b, recycles⟩ := pair_recycles .debug
  have run := confined_run State.pair_init (recycles.run.mono fun s act tidy => ⟨tidy.1, tidy.2.1⟩)
  refine ⟨s, run, ?_, by rw [recycles.live]; simp [recycles.origin], fun read base thread act =>
    leaks_reported_iff .debug 1 State.pair s pairCalls State.pair_init run read base thread act⟩
  unfold destroys
  simp only [recycles.taker, if_pos exitOrder_perm]
  rfl

/-- **A block that another thread frees is reported by its own**: a thread requests 100 bytes, another one
frees them, and the first exits. -/
theorem leak_misreported : ¬ ∀ s : State Bool,
    (machine Bool .release 1).Reachable (fun s act => Supplied 1 s act ∧ Confined .release s act) s →
    ∀ read : Reads, (∀ c f, read c f = some (load s.mem f 8)) → ∀ base thread act,
      Right .release read base thread s act := by
  intro claim
  obtain ⟨s, b, run, inv, phase, live, _, origin, _⟩ :=
    State.pair_init.request Nat.one_pos true .release (fun s act => Supplied 1 s act ∧ Orderly s act)
      fun s act member supplied => ⟨supplied, by
        simp only [firstRequest, List.mem_cons, List.not_mem_nil, or_false] at member
        rcases member with rfl | rfl | rfl | rfl <;> trivial⟩
  let i := classOf 164
  have one : allocated s (true, i) = 1 := by
    obtain ⟨none_, kept⟩ := frees_none (k := (true, i)) run (by simp [firstRequest])
    have held : unfreed s (true, i) = 1 := by
      unfold unfreed
      rw [live, List.countP_singleton, if_pos (by simp [origin, i])]
    have level := level_exec State.pair_init run (true, i)
    rw [none_, kept, held] at level
    bv_omega
  -- the second thread starts, and frees the block
  have absent : s.phase false = .absent := by
    rw [phase]
    rfl
  have starts : s.step .release (.start false) = some (s.goto false .idle) :=
    Moves.step (.start absent)
  have first : Supplied 1 s (.start false) ∧ Orderly s (.start false) := ⟨trivial, trivial⟩
  have inv₁ := inv.keeps .release 1 _ _ _ first starts
  have idle : (s.goto false .idle).phase false = .idle := by
    show Function.update s.phase false .idle false = _
    rw [Function.update_self]
  have member : b ∈ (s.goto false .idle).live := by
    show b ∈ s.live
    rw [live]
    exact List.mem_singleton_self b
  obtain ⟨last, next, _, inv₂, frees⟩ := inv₁.frees_live idle .release member
  have second : Supplied 1 (s.goto false .idle) (.free false b.ptr) ∧
      Orderly (s.goto false .idle) (.free false b.ptr) := ⟨trivial, trivial⟩
  have reached : (machine Bool .release 1).Reachable
      (fun s act => Supplied 1 s act ∧ Confined .release s act) last :=
    ⟨State.pair, _, State.pair_init,
      confined_run State.pair_init ((run.snoc first starts).snoc second next)⟩
  have kept : allocated last (true, i) = 1 := by
    have passed := inv₁.passes_pool .release idle (inv₁.housing.find member) origin
    cases counts_step next with
    | still none_ | serves _ none_ =>
      rw [passed] at none_
      cases none_
    | passes from_ target passed' counts =>
      obtain ⟨rfl, rfl⟩ := Prod.mk.inj (Option.some.inj (passed.symm.trans passed'))
      rw [counts, if_neg (by simp)]
      show allocated s (true, i) - 0 = 1
      rw [one]
      decide
  -- the first thread exits, this class first
  have here : last.phase true = .idle := by
    rw [frees.phase]
    show Function.update s.phase false .idle true = .idle
    rw [phase]
    rfl
  have exits : destroys last (.exit true exitOrder) = some (true, i) := by
    unfold destroys
    simp only [here, if_pos exitOrder_perm]
    rfl
  have empty : last.live = [] := by
    rw [frees.live]
    show s.live.erase b = []
    rw [live]
    simp
  obtain ⟨_, said, printed, reported, _⟩ := (claim last reached (fun _ f => some (load last.mem f 8))
    (fun _ _ => rfl) 10 "1" _).reported _ exits
  obtain ⟨c, _, rfl⟩ := Option.map_eq_some_iff.mp printed
  have some_ : (report 10 "1" ((last.pool true).tlsPool i) c).isSome := by
    unfold report
    rw [if_pos]
    · rfl
    · show allocated last (true, i) ≠ 0
      rw [kept]
      decide
  obtain ⟨_, none_, _⟩ := reported.mp some_
  rw [empty] at none_
  exact absurd none_ List.not_mem_nil

end NpAlloc.Threads
