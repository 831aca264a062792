/-
**What a step of the program leaves of the live blocks.**

`Inv.step` says that a step keeps the invariant; here is what it does to the bytes. A request puts a
dressed block in front of the live ones and changes no byte of them (`Inv.placed`); `np_free` takes one
away and changes no byte of the others (`Inv.released`); and no other step changes a byte of a live
block, except a client's write, which changes one byte of one (`Inv.undisturbed`).
-/

import NpAlloc.Threads.Exit

set_option linter.unusedSectionVars false

namespace NpAlloc.Threads

open Mmap Pool

variable {T : Type} [DecidableEq T] {s s' : State T} {n : Nat} {t u : T} {i j : SizeClass}
  {k l : Index T} {build : Build} {bytes malloc chunk : Nat} {info : Meta}

/-- What every step keeps, as the rule for runs asks for it. -/
theorem Inv.keeps (build : Build) (n : Nat) (s : State T) (act : Act T) (s' : State T) (inv : Inv n s)
    (admitted : Supplied n s act ∧ Orderly s act) (next : (machine T build n).step s act = some s') :
    Inv n s' :=
  inv.orderly_step admitted.1 admitted.2 next

/-! ### A request -/

/-- **What a served request leaves behind**: a dressed block, the other live blocks as they were, and
the lists of its class without it. -/
structure Placed (s s' : State T) (t : T) (chunk malloc bytes : Nat) (info : Meta)
    (b : Block (Index T)) : Prop where
  live : s'.live = b :: s.live
  phase : s'.phase = Function.update s.phase t .idle
  size : b.bytes = bytes
  dressed : ∃ mem, s'.mem = ThreadPool.dress mem b.base bytes info
  kept : ∀ c ∈ s.live, SameOn s.mem s'.mem c.base (blockSize c.bytes)
  small : widened bytes ≤ maxAllocSize getAllocSizeList →
    b.origin = .pool (t, classOf (widened bytes)) ∧
    b.base = ((s.ghost.layout (t, classOf (widened bytes))).take
      (classSize (classOf (widened bytes))) kDefaultChunkSize chunk).1 ∧
    s'.ghost.layout = s.served t chunk (.pool (classOf (widened bytes)))
  large : maxAllocSize getAllocSizeList < widened bytes →
    b.origin = .malloc malloc ∧ s'.ghost.layout = s.ghost.layout

/-- **A request is placed.** -/
theorem Inv.placed (inv : Inv n s) {supply : Supply Unit} (bound : bytes ≤ 2 ^ 64 - 65)
    (opens : (s.phase t).Open (classOf (widened bytes)))
    (granted : widened bytes ≤ maxAllocSize getAllocSizeList →
      (s.ghost.layout (t, classOf (widened bytes))).hungry (classSize (classOf (widened bytes)))
        kDefaultChunkSize = true → supply () = .ok (chunk, ()) ∧ (s.phase t).hand = some chunk)
    (fresh : maxAllocSize getAllocSizeList < widened bytes → malloc ≠ 0 →
      malloc + widened bytes < 2 ^ 64 ∧ Outlying n s.ptr_ malloc (widened bytes) ∧
        ∀ b ∈ s.live, Apart malloc (widened bytes) b.base (blockSize b.bytes))
    (next : s.allocWith t supply chunk malloc bytes info = some s') :
    ∃ b, Placed s s' t chunk malloc bytes info b := by
  have width := widened_eq bound
  by_cases small : widened bytes ≤ maxAllocSize getAllocSizeList
  · set i := classOf (widened bytes) with class_
    obtain ⟨base, pool, w', L, took, result, some_, _, others, _, _⟩ :=
      inv.housing.alloc supply chunk () (w := ⟨s.mem, ()⟩) (t, i) info (by rw [← width])
        (width ▸ small) fun hungry => by
          obtain ⟨answer, held⟩ := granted small hungry
          exact ⟨answer, (inv.chunk_space (p := .hand t) held).1,
            (inv.chunk_space (p := .hand t) held).2, inv.unused (p := .hand t) held fun k => by simp⟩
    rw [view_open opens] at result
    have answer := ThreadPool.alloc_of_serve info (ThreadPool.serve_pool malloc small result)
    rw [if_neg some_] at answer
    unfold State.allocWith at next
    simp only [answer, Option.some.injEq] at next
    subst next
    have start : (⟨base + 48, bytes, .pool (t, i)⟩ : Block (Index T)).base = base :=
      Block.base_mk ..
    refine ⟨⟨base + 48, bytes, .pool (t, i)⟩, rfl, rfl, rfl, ?_, others, fun _ => ?_, fun large => ?_⟩
    · rw [start]
      exact ⟨w'.mem, rfl⟩
    · refine ⟨rfl, ?_, rfl⟩
      rw [start]
      exact (congrArg Prod.fst took).symm
    · omega
  · have served : (s.pool t).serve supply malloc ⟨s.mem, ()⟩ bytes = _ :=
      ThreadPool.serve_malloc small
    have answer := ThreadPool.alloc_of_serve info served
    by_cases null : malloc = 0
    · rw [if_pos null] at answer
      unfold State.allocWith at next
      simp only [answer, reduceCtorEq] at next
    · rw [if_neg null] at answer
      obtain ⟨space, outlying, others⟩ := fresh (by omega) null
      rw [width] at space outlying others
      have away : Away kDefaultChunkSize s.ghost.layout malloc (blockSize bytes) :=
        fun k base chunk' => by
          have here : At s base (.chain k) := chunk'
          exact Apart.mono outlying le_rfl le_rfl (inv.chunk_inside here).1 (inv.chunk_inside here).2
      obtain ⟨_, same, _⟩ := inv.housing.malloc info (by omega) space ⟨away, others⟩
      unfold State.allocWith at next
      simp only [answer, Option.some.injEq] at next
      subst next
      have start : (⟨malloc + 48, bytes, .malloc malloc⟩ : Block (Index T)).base = malloc :=
        Block.base_mk ..
      refine ⟨⟨malloc + 48, bytes, .malloc malloc⟩, rfl, rfl, rfl, ?_, same,
        fun fits => absurd fits small, fun _ => ⟨rfl, rfl⟩⟩
      rw [start]
      exact ⟨s.mem, rfl⟩

/-- The pointer a request of a class returns. -/
theorem Placed.head_ptr {b : Block (Index T)} (placed : Placed s s' t chunk malloc bytes info b)
    (after : Inv n s') (small : widened bytes ≤ maxAllocSize getAllocSizeList) :
    s'.live.head?.map Block.ptr = some (((s.ghost.layout (t, classOf (widened bytes))).take
      (classSize (classOf (widened bytes))) kDefaultChunkSize chunk).1 + 48) := by
  obtain ⟨_, base, _⟩ := placed.small small
  have member : b ∈ s'.live := by
    rw [placed.live]
    exact List.mem_cons_self
  rw [placed.live, List.head?_cons, Option.map_some, (after.housing.shape b member).1, base]

/-- **A request that needs no chunk is placed.** -/
theorem Inv.placed_alloc (inv : Inv n s) (supplied : Supplied n s (.alloc t bytes info malloc))
    (next : s.step build (.alloc t bytes info malloc) = some s') :
    ∃ b, Placed s s' t 0 malloc bytes info b := by
  cases moves_of_step next with
  | alloc here spare served =>
    have opens : ∀ i, (s.phase t).Open i := fun i => by
      rw [here]
      trivial
    refine inv.placed supplied.1 (opens _) (fun small hungry => ?_) supplied.2 served
    exact absurd ⟨small, (inv.starved_iff (opens _)).mpr hungry⟩ spare

/-- **A request that was given a chunk is placed.** -/
theorem Inv.placed_finish (inv : Inv n s) (here : s.phase t = .granted bytes info chunk)
    (next : s.step build (.finish t) = some s') : ∃ b, Placed s s' t chunk 0 bytes info b := by
  cases moves_of_step next with
  | finish granted served =>
    obtain ⟨rfl, rfl, rfl⟩ := Phase.granted.inj (here.symm.trans granted)
    obtain ⟨bound, small, _⟩ := (inv.stands t).starving bytes (by rw [here]; rfl)
    refine inv.placed bound (by rw [here]; trivial) (fun _ _ => ⟨rfl, by rw [here]; rfl⟩)
      (fun large => ?_) served
    omega

/-! ### `np_free` -/

/-- **What `np_free` leaves behind.** -/
structure Released (s s' : State T) (t : T) (b : Block (Index T)) : Prop where
  live : s'.live = s.live.erase b
  phase : s'.phase = s.phase
  layout : s'.ghost.layout = s.returned t b.base b.origin
  kept : ∀ c ∈ s.live, c ≠ b → SameOn s.mem s'.mem c.base (blockSize c.bytes)

/-- **A block is released.** -/
theorem Inv.released (inv : Inv n s) {ptr : Nat} (next : s.step build (.free t ptr) = some s') :
    ∃ b ∈ s.live, b.ptr = ptr ∧ s.phase t = .idle ∧ Released s s' t b := by
  cases moves_of_step next with
  | @free t ptr b s' here found freed =>
    have member := List.mem_of_find?_eq_some found
    have same : b.ptr = ptr := by simpa using List.find?_some found
    refine ⟨b, member, same, here, ?_⟩
    unfold State.freeWith at freed
    have intact := inv.housing.intact b member
    obtain ⟨shape, fits⟩ := inv.housing.shape b member
    cases origin : b.origin with
    | pool k =>
      obtain ⟨_, class_, small, _⟩ := inv.housing.in_pool member origin
      have result := ThreadPool.dealloc_pool build (s.pool t) intact fits small
      have opens : (s.phase t).Open k.2 := by
        rw [here]
        trivial
      rw [← shape, ← class_, ← view_open opens] at result
      simp only [result, Option.some.injEq] at freed
      subst freed
      obtain ⟨_, kept, _⟩ := inv.housing.dealloc member origin (j := (t, k.2)) rfl
      exact ⟨rfl, rfl, rfl, fun c other different => (kept c other different).2⟩
    | malloc p =>
      have housed := inv.housing.housed b member
      unfold Housed at housed
      rw [origin] at housed
      have result := ThreadPool.dealloc_malloc build (s.pool t) intact fits housed.2.1
      rw [← shape] at result
      simp only [result, Option.some.injEq] at freed
      subst freed
      exact ⟨rfl, rfl, rfl, fun c _ _ => .refl _ _ _⟩

/-! ### What is shared -/

/-- **The chunk pool stays as it is.** -/
structure Shared (s s' : State T) : Prop where
  freeHead : s'.freeHead = s.freeHead
  head : s'.head_ = s.head_
  ptr : s'.ptr_ = s.ptr_
  stack : s'.ghost.stack = s.ghost.stack

/-- `np_alloc` leaves the chunk pool alone once it has its chunk. -/
theorem allocWith_shared {supply : Supply Unit} {chunk malloc : Nat}
    (served : s.allocWith t supply chunk malloc bytes info = some s') : Shared s s' := by
  unfold State.allocWith at served
  split at served
  · cases served
  · cases served
    exact ⟨rfl, rfl, rfl, rfl⟩

/-- `np_free` leaves the chunk pool alone. -/
theorem freeWith_shared {b : Block (Index T)} (freed : s.freeWith build t b = some s') : Shared s s' := by
  unfold State.freeWith at freed
  split at freed
  · cases freed
  · cases freed
    exact ⟨rfl, rfl, rfl, rfl⟩

/-- The frontier advances by a chunk. -/
theorem Inv.advanced_head (inv : Inv n s) {m : Nat} (head : s.head_ = chunkAt s.ptr_ m) (t : T)
    (bytes : Nat) (info : Meta) (more : s.head_ ≠ s.ptr_ + n * kDefaultChunkSize) :
    (s.advanced t bytes info).head_ = chunkAt s.ptr_ (m + 1) := by
  obtain ⟨_, space, k, inside, same⟩ := inv.reserved
  obtain rfl := chunkAt_injective _ (same.symm.trans head)
  have less : k < n := by
    refine lt_of_le_of_ne inside ?_
    rintro rfl
    exact more head
  have room : (k + 1) * kDefaultChunkSize ≤ n * kDefaultChunkSize := Nat.mul_le_mul_right _ less
  show getChunkPtr s.ptr_ (getChunkIndex s.ptr_ s.head_ + 1) = _
  rw [head]
  refine next_chunkAt ?_
  unfold chunkAt
  omega

/-! ### Everything else -/

/-- A step that serves no request and frees nothing. -/
def Aside : Act T → Prop
  | .alloc _ _ _ _ | .finish _ | .free _ _ | .write _ _ => False
  | _ => True

/-- **Whatever else happens, the live blocks stay**, with every byte. -/
theorem Inv.undisturbed (inv : Inv n s) {act : Act T} (supplied : Supplied n s act) (aside : Aside act)
    (next : s.step build act = some s') :
    s'.live = s.live ∧ ∀ b ∈ s.live, SameOn s.mem s'.mem b.base (blockSize b.bytes) := by
  have still : s'.live = s.live → s'.mem = s.mem → s'.live = s.live ∧
      ∀ b ∈ s.live, SameOn s.mem s'.mem b.base (blockSize b.bytes) := fun live mem => by
    refine ⟨live, fun b _ => ?_⟩
    rw [mem]
    exact .refl _ _ _
  cases moves_of_step next with
  | alloc | finish | free | write => exact aside.elim
  | start here | starved here | popped here | advance here | exit here | close here | unlink here =>
    exact still rfl rfl
  | @elsewhere address value =>
    have outside : Outside (· = address) s.mem (Function.update s.mem address value) :=
      fun x other => Function.update_of_ne other _ _
    refine ⟨rfl, fun b member => outside.sameOn fun x within here => ?_⟩
    rw [here] at within
    exact (supplied.2 b member).not_within ⟨le_rfl, by omega⟩ within
  | @push t i later chunk here =>
    -- the link goes into the first word of the chunk in hand
    have held : At s chunk (.hand t) := by
      rw [at_hand, here]
      rfl
    refine ⟨rfl, fun b member => (store_outside _ _ _ _).sameOn fun x within link => ?_⟩
    have apart := (inv.unused held fun k => by simp).2 b member
    refine apart.symm.not_within within ?_
    unfold Within kDefaultChunkSize at *
    omega

/-! ### A chunk that changes hands -/

/-- A thread frees its block and exits, another one is given its chunk, and what is handed over is
settled. -/
theorem pair_orderly (build : Build) : ∃ s b,
    (machine Bool build 1).Exec (fun s act => Supplied 1 s act ∧ Orderly s act) State.pair pairCalls s ∧
      Inv 1 s ∧ s.phase true = .exited ∧ s.phase false = .idle ∧ s.live = [b] ∧ b.bytes = 100 ∧
      b.origin = .pool (false, classOf 164) ∧ Sole false (classOf 164) (2 ^ 30) s := by
  obtain ⟨_, _, s, b, recycles⟩ := pair_recycles build
  exact ⟨s, b, recycles.run.mono fun s act tidy => ⟨tidy.1, tidy.2.1⟩, recycles.inv, recycles.exited,
    recycles.taker, recycles.live, recycles.bytes, recycles.origin, recycles.sole⟩

end NpAlloc.Threads
