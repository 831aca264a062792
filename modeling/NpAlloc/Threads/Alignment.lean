/-
**Where the pointers of `np_alloc` stand.**

Nothing in the code aligns a pointer. The reservation starts at a page, a chunk is a multiple of a line
from there, its header has 16 bytes, every class size is a multiple of a line, and the alloc header with
the first fence has 48 bytes. So every block stands 16 bytes behind a line, and every pointer on one.

* `Lined` — the pointers, the free lists and `pool_curr` of all threads are aligned;
* **`pointers_aligned`** — in every run in which no request wraps `alloc_size`;
* **`pointer_misaligned`** — a request that wraps is served with a block of 64 bytes, and what its client
  writes behind it moves the next pointer off its line.
-/

import NpAlloc.Threads.Exit

set_option linter.unusedSectionVars false

namespace NpAlloc.Threads

open Mmap Pool

variable {T : Type} [DecidableEq T] {s s' : State T} {n : Nat} {t u : T} {i j : SizeClass}
  {k l : Index T} {b c d : Nat} {build : Build} {act : Act T}

/-! ### Definitions -/

/-- `kL1CacheAlignSize`. -/
def line : Nat := 64

/-- A request that does not wrap `alloc_size`. -/
def Unwrapped : Act T → Prop
  | .alloc _ bytes _ _ | .pop _ bytes _ => bytes ≤ 2 ^ 64 - 65
  | _ => True

/-- **The environment**: as `Supplied`, for requests of any size; what `malloc` returns is 16-byte
aligned. -/
def Given (n : Nat) (s : State T) : Act T → Prop
  | .alloc _ bytes _ malloc => malloc % 16 = 0 ∧
      (maxAllocSize getAllocSizeList < widened bytes → malloc ≠ 0 →
        malloc + widened bytes < 2 ^ 64 ∧
          Apart malloc (widened bytes) s.ptr_ (n * kDefaultChunkSize) ∧
          ∀ b ∈ s.live, Apart malloc (widened bytes) b.base (blockSize b.bytes))
  | .pop _ _ _ => True
  | act => Supplied n s act

/-- **Everything stands where it should.** -/
structure Lined (s : State T) : Prop where
  /-- A pointer from a class is on a line, a pointer from `malloc` on 16 bytes. -/
  pointers : ∀ b ∈ s.live, (widened b.bytes ≤ maxAllocSize getAllocSizeList → b.ptr % line = 0) ∧
    (maxAllocSize getAllocSizeList < widened b.bytes → b.ptr % 16 = 0)
  /-- The blocks of a free list are 16 bytes behind a line. -/
  free : ∀ t i, (s.phase t).Open i → ∀ b, OnList s.mem ((s.pool t).tlsPool i).free_ b →
    b % line = poolHeader
  /-- So is the next block of every chunk. -/
  curr : ∀ t i, ∀ c, OnList s.mem ((s.pool t).tlsPool i).head_ c →
    load s.mem (c + 8) 8 % line = poolHeader

/-! ### What a run keeps -/

theorem supplied_of_given (given : Given n s act) (unwrapped : Unwrapped act) : Supplied n s act := by
  cases act with
  | alloc t bytes info malloc => exact ⟨unwrapped, given.2⟩
  | pop t bytes info => exact unwrapped
  | _ => exact given

/-- **The reservation starts at a page, and what `malloc` gave is aligned.** -/
structure Paged (s : State T) : Prop where
  page : s.ptr_ % 4096 = 0
  malloc : ∀ b ∈ s.live, ∀ p, b.origin = .malloc p → p % 16 = 0

/-- A step that serves nothing. -/
theorem Paged.same (paged : Paged s) (ptr : s'.ptr_ = s.ptr_) (live : ∀ b ∈ s'.live, b ∈ s.live) :
    Paged s' :=
  ⟨by rw [ptr]; exact paged.page, fun b member => paged.malloc b (live b member)⟩

theorem Paged.allocWith {supply : Supply Unit} {chunk malloc bytes : Nat} {info : Meta}
    (paged : Paged s) (aligned : malloc % 16 = 0)
    (next : s.allocWith t supply chunk malloc bytes info = some s') : Paged s' := by
  unfold State.allocWith at next
  split at next
  · cases next
  · rename_i ptr origin pool w served
    cases next
    refine ⟨paged.page, fun b member p from_ => ?_⟩
    rcases List.mem_cons.mp member with rfl | old
    · rcases ThreadPool.alloc_cases served with ⟨_, _, _, _, _, rfl, _⟩ | ⟨rfl, _⟩
      · cases from_
      · rw [← Origin.malloc.inj from_]
        exact aligned
    · exact paged.malloc b old p from_

theorem Paged.step (paged : Paged s) (given : Given n s act) (next : s.step build act = some s') :
    Paged s' := by
  cases moves_of_step next with
  | start | starved | popped | advance | write | elsewhere | exit | close | unlink | push =>
    exact paged.same rfl fun _ member => member
  | alloc here spare served => exact paged.allocWith given.1 served
  | finish here served => exact paged.allocWith rfl served
  | free here found freed =>
    unfold State.freeWith at freed
    split at freed <;> cases freed
    exact paged.same rfl fun _ member => List.mem_of_mem_erase member

/-! ### Where blocks stand -/

theorem classSize_lines : ∀ i : SizeClass, classSize i % line = 0 := by decide

/-- **A chunk of the reservation starts on a line.** -/
theorem Inv.chunk_line (inv : Inv n s) (paged : Paged s) {p : Place T} (here : At s c p) :
    c % line = 0 := by
  obtain ⟨j, rfl, _⟩ := inv.located.only c p here
  have page := paged.page
  unfold chunkAt kDefaultChunkSize line
  omega

/-- **A block stands 16 bytes behind a line.** -/
theorem blockAt_line {size base j : Nat} (sizes : size % line = 0) (start : base % line = 0) :
    blockAt size base j % line = poolHeader := by
  obtain ⟨m, rfl⟩ : line ∣ size := Nat.dvd_of_mod_eq_zero sizes
  have product : j * (line * m) = line * (j * m) := by ring
  unfold blockAt poolHeader
  rw [product]
  unfold line at *
  omega

theorem Inv.block_line (inv : Inv n s) (paged : Paged s) {size block : Nat}
    (carved : Carved (view s) s.ghost.layout size block) : block % line = poolHeader := by
  obtain ⟨k, rfl, member⟩ := carved
  obtain ⟨chunk, inside, j, _, rfl⟩ := Layout.mem_carved.mp member
  have here : At s chunk.base (.chain k) := List.mem_map_of_mem inside
  refine blockAt_line ?_ (inv.chunk_line paged here)
  rw [inv.size]
  exact classSize_lines k.2

/-- **The invariant puts everything on its line.** -/
theorem Inv.lined (inv : Inv n s) (paged : Paged s) : Lined s := by
  refine ⟨fun b member => ?_, fun t i opened b listed => ?_, fun t i c listed => ?_⟩
  · obtain ⟨ptr, fits⟩ := inv.housing.shape b member
    have width : widened b.bytes = blockSize b.bytes :=
      widened_eq (by unfold blockSize at fits; omega)
    rw [width]
    cases origin : b.origin with
    | pool k =>
      obtain ⟨live, _, small, _⟩ := inv.housing.in_pool member origin
      have stands := inv.block_line paged (inv.housing.family.carved_live live)
      refine ⟨fun _ => ?_, fun large => absurd small (by omega)⟩
      unfold line poolHeader at *
      omega
    | malloc p =>
      have housed := inv.housing.housed b member
      unfold Housed at housed
      rw [origin] at housed
      have aligned := paged.malloc b member p origin
      refine ⟨fun small => absurd housed.2.1 (by omega), fun _ => ?_⟩
      rw [ptr, housed.1]
      omega
  · have free := (inv.onFreeList_iff opened).mp listed
    exact inv.block_line paged (inv.housing.family.carved_free free)
  · obtain ⟨list, chain, member⟩ := listed
    have chain' := (inv.represents (t, i)).chain
    rw [view_head] at chain'
    rw [chain.unique chain'] at member
    obtain ⟨chunk, inside, rfl⟩ := List.mem_map.mp member
    rw [(inv.represents (t, i)).curr chunk inside, inv.size]
    have here : At s chunk.base (.chain (t, i)) := List.mem_map_of_mem inside
    exact blockAt_line (classSize_lines i) (inv.chunk_line paged here)

/-! ### The result -/

/-- **In every run in which no request wraps `alloc_size`, every pointer that `np_alloc` returns is
aligned**: to a line if a class serves it, to 16 bytes otherwise. Any threads allocate, free and exit in
any order, as long as an exit hands over only chunks that are not in use. -/
theorem pointers_aligned (build : Build) (n : Nat) (start s : State T) (acts : List (Act T))
    (initial : State.Init n start) (page : start.ptr_ % 4096 = 0)
    (run : (machine T build n).Exec (fun s act => Given n s act ∧ Orderly s act ∧ Unwrapped act)
      start acts s) : Lined s := by
  have paged : Paged start := ⟨page, fun b member => by
    rw [initial.live] at member
    exact absurd member List.not_mem_nil⟩
  have both := run.preserves (I := fun s => Inv n s ∧ Paged s)
    (fun s act s' holds admitted next =>
      ⟨holds.1.orderly_step (supplied_of_given admitted.1 admitted.2.2) admitted.2.1 next,
        holds.2.step admitted.1 next⟩) ⟨.init initial, paged⟩
  exact both.1.lined both.2

/-- A chunk that changes hands, and where its pointers stand. -/
theorem pointers_aligned_pair : ∃ s : State Bool,
    (machine Bool .debug 1).Exec (fun s act => Given 1 s act ∧ Orderly s act ∧ Unwrapped act) State.pair
      pairCalls s ∧
    s.phase true = .exited ∧ s.live.map Block.bytes = [100] ∧ Lined s := by
  obtain ⟨_, _, s, b, recycles⟩ := pair_recycles .debug
  -- every request of the run needs a chunk
  have pops : pairCalls.all fun act => match act with | .alloc _ _ _ _ => false | _ => true := rfl
  have run : (machine Bool .debug 1).Exec (fun s act => Given 1 s act ∧ Orderly s act ∧ Unwrapped act)
      State.pair pairCalls s := recycles.run.mono_of_mem fun s act member tidy => by
    have plain := List.all_eq_true.mp pops act member
    cases act with
    | alloc => cases plain
    | pop => exact ⟨trivial, tidy.2.1, tidy.1⟩
    | _ => exact ⟨tidy.1, tidy.2.1, trivial⟩
  exact ⟨s, run, recycles.exited, by rw [recycles.live]; simp [recycles.bytes],
    pointers_aligned .debug 1 State.pair s pairCalls State.pair_init (by decide) run⟩

/-! ### A class that is used for the first time -/

/-- **The first block of a class** is carved from a new chunk, which has room behind it. -/
theorem alloc_new {size chunk : Nat} (mem : Memory) (link : 8 ≤ size)
    (large : poolHeader + size ≤ kDefaultChunkSize) (some_ : 0 < chunk)
    (space : chunk + kDefaultChunkSize < 2 ^ 64) : ∃ pool mem',
      (PsPool.new size kDefaultChunkSize).alloc (fun _ => .ok (chunk, ())) ⟨mem, ()⟩
        = .ok (chunk + poolHeader, pool, ⟨mem', ()⟩) ∧
      pool.head_ = chunk ∧ pool.free_ = 0 ∧ pool.allocSize_ = size ∧
      pool.chunkSize_ = kDefaultChunkSize ∧
      load mem' (chunk + 8) 8 = chunk + poolHeader + size := by
  have took : Layout.empty.take size kDefaultChunkSize chunk
      = (blockAt size chunk 0, ⟨[⟨chunk, 1⟩], [], [blockAt size chunk 0]⟩) := rfl
  have first : blockAt size chunk 0 = chunk + poolHeader := by
    unfold blockAt
    omega
  obtain ⟨pool, w, served, holds, ⟨sizes, chunks, _⟩, _⟩ :=
    alloc_represents (G := Unit) (fun _ => .ok (chunk, ())) chunk () (w := ⟨mem, ()⟩)
      (Represents.new link large mem)
      fun _ => ⟨rfl, some_, space, fun _ member => absurd member List.not_mem_nil⟩
  have sizes : pool.allocSize_ = size := sizes
  have chunks : pool.chunkSize_ = kDefaultChunkSize := chunks
  change _ = Except.ok ((Layout.empty.take size kDefaultChunkSize chunk).1, pool, w) at served
  change Represents pool w.mem (Layout.empty.take size kDefaultChunkSize chunk).2 at holds
  rw [took] at served holds
  have curr := holds.curr ⟨chunk, 1⟩ (List.mem_singleton_self _)
  rw [sizes] at curr
  refine ⟨pool, w.mem, by rw [← first]; exact served, holds.head rfl, holds.free_null.mpr rfl, sizes,
    chunks, curr.trans ?_⟩
  show chunk + poolHeader + 1 * size = chunk + poolHeader + size
  rw [Nat.one_mul]

/-- The calls of a request that gets its chunk from the frontier. -/
def newChunk (t : T) (bytes : Nat) : List (Act T) := [.pop t bytes ⟨0, 0, 0⟩, .advance t, .finish t]

theorem allocWith_of_alloc {supply : Supply Unit} (chunk : Nat) {malloc bytes ptr : Nat} {info : Meta}
    {origin : Origin SizeClass} {pool : ThreadPool} {w : World Unit}
    (served : (s.pool t).alloc supply malloc ⟨s.mem, ()⟩ bytes info = .ok (ptr, origin, pool, w)) :
    s.allocWith t supply chunk malloc bytes info = some (s.withBlock t pool w.mem
      ⟨ptr, bytes, originOf t origin⟩ (s.served t chunk origin)) := by
  unfold State.allocWith
  rw [served]

/-- **A request of a class that is used for the first time.** -/
theorem request_new (build : Build) (n bytes m : Nat) (idle : s.phase t = .idle) (empty : s.freeHead = 0)
    (new : (s.pool t).tlsPool (classOf (widened bytes))
      = .new (classSize (classOf (widened bytes))) kDefaultChunkSize)
    (small : widened bytes ≤ maxAllocSize getAllocSizeList) (frontier : s.head_ = chunkAt s.ptr_ m)
    (room : m < n) (base : 0 < s.ptr_) (space : s.ptr_ + n * kDefaultChunkSize < 2 ^ 64) :
    ∃ s' pool mem, (machine T build n).Exec (fun s act => Given n s act ∧ Orderly s act) s
        (newChunk t bytes) s' ∧
      s'.phase t = .idle ∧ s'.freeHead = 0 ∧ s'.ptr_ = s.ptr_ ∧ s'.head_ = chunkAt s.ptr_ (m + 1) ∧
      s'.live = ⟨s.head_ + poolHeader + headerSize + 16, bytes, .pool (t, classOf (widened bytes))⟩
        :: s.live ∧
      s'.pool t = (s.pool t).set (classOf (widened bytes)) pool ∧
      s'.mem = ThreadPool.dress mem (s.head_ + poolHeader) bytes ⟨0, 0, 0⟩ ∧
      pool.head_ = s.head_ ∧ pool.free_ = 0 ∧
      pool.allocSize_ = classSize (classOf (widened bytes)) ∧
      pool.chunkSize_ = kDefaultChunkSize ∧
      load mem (s.head_ + 8) 8 = s.head_ + poolHeader + classSize (classOf (widened bytes)) := by
  set i := classOf (widened bytes) with class_
  have sizes := classSize_bounds i
  have below : chunkAt s.ptr_ (m + 1) ≤ s.ptr_ + n * kDefaultChunkSize := by
    unfold chunkAt
    exact Nat.add_le_add_left (Nat.mul_le_mul_right _ room) _
  have next := chunkAt_succ s.ptr_ m
  have here : 0 < s.head_ := by
    rw [frontier]
    unfold chunkAt
    omega
  have one : poolHeader + classSize i ≤ kDefaultChunkSize := by
    unfold poolHeader kDefaultChunkSize
    omega
  obtain ⟨pool, mem, served, head, free, size, chunk, curr⟩ :=
    alloc_new s.mem (by omega : 8 ≤ classSize i) one here (by omega)
  let s₁ := s.goto t (.starved bytes ⟨0, 0, 0⟩)
  let s₂ := s₁.advanced t bytes ⟨0, 0, 0⟩
  have here₁ : s₁.phase t = .starved bytes ⟨0, 0, 0⟩ := Function.update_self t _ s.phase
  have here₂ : s₂.phase t = .granted bytes ⟨0, 0, 0⟩ s.head_ := Function.update_self t _ s₁.phase
  have need : NeedsChunk (s.pool t) s.mem bytes := by
    refine ⟨small, ?_⟩
    rw [← class_, new]
    exact ⟨rfl, .inl rfl⟩
  have first : s.step build (.pop t bytes ⟨0, 0, 0⟩) = some s₁ := Moves.step (.starved idle need empty)
  have second : s₁.step build (.advance t) = some s₂ := Moves.step (.advance here₁)
  have answer := ThreadPool.alloc_of_serve ⟨0, 0, 0⟩ (ThreadPool.serve_pool 0 small (new ▸ served))
  rw [if_neg (by unfold poolHeader; omega)] at answer
  have third : s₂.step build (.finish t) = some (s₂.withBlock t ((s.pool t).set i pool)
      (ThreadPool.dress mem (s.head_ + poolHeader) bytes ⟨0, 0, 0⟩)
      ⟨s.head_ + poolHeader + headerSize + 16, bytes, originOf t (.pool i)⟩
      (s₂.served t s.head_ (.pool i))) :=
    Moves.step (.finish here₂ (allocWith_of_alloc (s := s₂) _ answer))
  have supplied : Given n s₁ (.advance t) := by
    have size : 0 < kDefaultChunkSize := by decide
    show s.head_ ≠ s.ptr_ + n * kDefaultChunkSize
    omega
  refine ⟨_, pool, mem, .cons ⟨trivial, trivial⟩ first (.cons ⟨supplied, trivial⟩ second
      (.cons ⟨trivial, trivial⟩ third (.nil _))),
    Function.update_self t _ s₂.phase, empty, rfl, ?_, rfl, Function.update_self t _ s₂.pool, rfl, head,
    free, size, chunk, curr⟩
  show getChunkPtr s.ptr_ (getChunkIndex s.ptr_ s.head_ + 1) = _
  rw [frontier]
  exact next_chunkAt (by omega)

/-- A request to a pool whose head chunk has room. -/
theorem alloc_room {G : Type} (supply : Supply G) {p : PsPool} {w : World G} (null : p.free_ = 0)
    (some_ : p.head_ ≠ 0) (room : p.getFreeCount w.mem ≠ 0) (block : load w.mem (p.head_ + 8) 8 ≠ 0) :
    p.alloc supply w = .ok (load w.mem (p.head_ + 8) 8, { p with allocated_ := p.allocated_ + 1 },
      (p.carve w).2) := by
  have ready : (if p.head_ = 0 ∨ p.getFreeCount w.mem = 0 then p.allocFromGlobal supply w
      else pure (p, w)) = .ok (p, w) := if_neg (by simp [some_, room])
  have carved := PsPool.allocFromLocalPool_eq ready
  have first : (p.carve w).1 = load w.mem (p.head_ + 8) 8 := rfl
  rw [first] at carved
  unfold PsPool.alloc
  simp only [null, ne_eq, not_true_eq_false, if_false, carved, bind, Except.bind, block]
  rfl

/-- **A request of a class whose head chunk has room.** -/
theorem request_room (build : Build) {bytes : Nat} {pool : PsPool} (idle : s.phase t = .idle)
    (mine : (s.pool t).tlsPool (classOf (widened bytes)) = pool)
    (small : widened bytes ≤ maxAllocSize getAllocSizeList) (null : pool.free_ = 0)
    (some_ : pool.head_ ≠ 0) (room : pool.getFreeCount s.mem ≠ 0)
    (block : load s.mem (pool.head_ + 8) 8 ≠ 0) :
    ∃ s', s.step build (.alloc t bytes ⟨0, 0, 0⟩ 0) = some s' ∧ ∃ b ∈ s'.live, b.bytes = bytes ∧
      b.ptr = load s.mem (pool.head_ + 8) 8 + headerSize + 16 := by
  subst mine
  have full : ¬ NeedsChunk (s.pool t) s.mem bytes := by
    intro ⟨_, starved⟩
    exact starved.2.elim some_ room
  let w : World Unit := ⟨s.mem, ()⟩
  have positive : ¬ load w.mem (((s.pool t).tlsPool (classOf (widened bytes))).head_ + 8) 8 = 0 := block
  have found := alloc_room (w := w) (fun _ => .error .aborted) null some_ room block
  have answer := ThreadPool.alloc_of_serve ⟨0, 0, 0⟩ (ThreadPool.serve_pool 0 small found)
  rw [if_neg positive] at answer
  have next := allocWith_of_alloc 0 answer
  exact ⟨_, Moves.step (.alloc idle full next), _, List.mem_cons_self, rfl, rfl⟩

/-- The low byte of a word. -/
theorem load_low {mem : Memory} {a w v : Nat} (value : BitVec 8) (word : load mem a (w + 1) = v) :
    load (Function.update mem a value) a (w + 1) = v - v % 256 + value.toNat := by
  have rest : load (Function.update mem a value) (a + 1) w = load mem (a + 1) w :=
    load_congr fun x low _ => Function.update_of_ne (by omega) _ _
  have byte := (mem a).isLt
  unfold load at word ⊢
  rw [Function.update_self, rest]
  omega

/-! ### A request that wraps -/

/-- The requests of a thread, and the byte it writes. -/
def wrapped : List (Act Unit) :=
  .start () :: newChunk () (2 ^ 64 - 64) ++ newChunk () 100 ++
    [.write (2 ^ 30 + 2 ^ 20 + 8) 216, .alloc () 100 ⟨0, 0, 0⟩ 0]

/-- **A pointer off its line**: one thread requests `2 ^ 64 - 64` bytes, and gets a block of 64; it requests
100 bytes, and gets a block of the next chunk; it writes a byte among the first ones, where that chunk has
its `pool_curr`; and the next pointer it gets is 8 bytes behind a line. -/
theorem pointer_misaligned : State.Init 2 State.first ∧ State.first.ptr_ % 4096 = 0 ∧
    ∃ s, (machine Unit .release 2).Exec (fun s act => Given 2 s act ∧ Orderly s act) State.first wrapped s ∧
      ∃ b ∈ s.live, b.bytes = 100 ∧ b.ptr = 2 ^ 30 + 2 ^ 20 + 264 ∧ ¬ Lined s := by
  have initial : State.Init 2 State.first := by
    refine ⟨by decide, by decide, rfl, rfl, fun _ => rfl, fun _ => rfl, rfl, fun _ => rfl, fun _ => rfl,
      rfl⟩
  refine ⟨initial, by decide, ?_⟩
  have start : State.first.step .release (.start ()) = some (State.first.goto () .idle) := rfl
  -- the request that wraps
  have here : (State.first.goto () .idle).phase () = .idle := rfl
  have frontier : (State.first.goto () .idle).head_ = chunkAt (State.first.goto () .idle).ptr_ 0 :=
    (chunkAt_zero _).symm
  obtain ⟨s₁, _, _, run₁, idle₁, empty₁, ptr₁, head₁, live₁, pools₁, _⟩ :=
    request_new .release 2 (2 ^ 64 - 64) 0 here rfl rfl (by decide +kernel) frontier (by decide)
      (by decide +kernel) (by decide +kernel)
  have reserved : s₁.ptr_ = 2 ^ 30 := ptr₁
  have second : s₁.head_ = 2 ^ 30 + 2 ^ 20 := by
    rw [head₁]
    decide +kernel
  -- the request of another class
  have width : widened 100 = 164 := by decide
  have wraps : widened (2 ^ 64 - 64) = 0 := by decide +kernel
  have other : classOf (widened 100) ≠ classOf (widened (2 ^ 64 - 64)) := by
    rw [width, wraps, classOf_eq, classOf_eq]
    decide
  have new : (s₁.pool ()).tlsPool (classOf (widened 100)) = .new (classSize (classOf (widened 100)))
      kDefaultChunkSize := by
    rw [pools₁]
    exact Function.update_of_ne other _ _
  have frontier₁ : s₁.head_ = chunkAt s₁.ptr_ 1 := by
    rw [second, reserved]
    decide +kernel
  obtain ⟨s₂, pool, mem, run₂, idle₂, _, _, _, live₂, pools₂, mem₂, head₂, free₂, size₂, chunk₂, curr₂⟩ :=
    request_new .release 2 100 1 idle₁ empty₁ new (by decide +kernel) frontier₁ (by decide)
      (by rw [reserved]; decide +kernel) (by rw [reserved]; decide +kernel)
  have size : classSize (classOf (widened 100)) = 192 := by
    rw [width, classOf_eq]
    decide
  rw [second] at head₂ curr₂ live₂ mem₂
  rw [size] at size₂ curr₂
  -- the byte, behind the block of the first request
  let s₃ : State Unit := { s₂ with mem := Function.update s₂.mem (2 ^ 30 + 2 ^ 20 + 8) 216 }
  have writes : s₂.step .release (.write (2 ^ 30 + 2 ^ 20 + 8) 216) = some s₃ := by
    refine if_pos ⟨⟨2 ^ 30 + poolHeader + headerSize + 16, 2 ^ 64 - 64,
      .pool ((), classOf (widened (2 ^ 64 - 64)))⟩, ?_, ?_, ?_⟩
    · rw [live₂, live₁]
      exact .tail _ List.mem_cons_self
    · decide +kernel
    · decide +kernel
  have before : load s₂.mem (2 ^ 30 + 2 ^ 20 + 8) 8 = 2 ^ 30 + 2 ^ 20 + 208 := by
    have outside : Outside (Within (2 ^ 30 + 2 ^ 20 + poolHeader) (blockSize 100)) mem
        (ThreadPool.dress mem (2 ^ 30 + 2 ^ 20 + poolHeader) 100 ⟨0, 0, 0⟩) :=
      dress_outside (by decide +kernel)
    rw [mem₂, load_congr (outside.sameOn fun x within inside => ?_), curr₂]
    · decide +kernel
    · unfold Within poolHeader at *
      omega
  have word : load s₃.mem (pool.head_ + 8) 8 = 2 ^ 30 + 2 ^ 20 + 216 := by
    rw [head₂]
    refine (load_low 216 before).trans ?_
    decide +kernel
  have count : pool.getFreeCount s₃.mem ≠ 0 := by
    unfold PsPool.getFreeCount PsPool.getAllocEnd
    rw [word, head₂, size₂, chunk₂]
    decide +kernel
  -- the last request gets what now is next
  have mine : (s₃.pool ()).tlsPool (classOf (widened 100)) = pool := by
    show (s₂.pool ()).tlsPool (classOf (widened 100)) = pool
    rw [pools₂]
    exact Function.update_self ..
  have small : widened 100 ≤ maxAllocSize getAllocSizeList := by
    rw [width, maxAllocSize_eq]
    decide
  obtain ⟨s₄, last, b, member, bytes, ptr⟩ := request_room (s := s₃) .release idle₂ mine small free₂
    (by rw [head₂]; decide +kernel) count (by rw [word]; decide +kernel)
  have behind : b.ptr = 2 ^ 30 + 2 ^ 20 + 264 := by
    rw [ptr, word]
    decide +kernel
  refine ⟨s₄, ?_, b, member, bytes, behind, fun lined => ?_⟩
  · refine .cons ⟨trivial, trivial⟩ start ((run₁.append run₂).append ?_)
    refine .cons ⟨trivial, trivial⟩ writes (.single ⟨⟨rfl, fun large => ?_⟩, trivial⟩ last)
    exact absurd small (Nat.not_le.mpr large)
  · have aligned := (lined.pointers b member).1 (by rw [bytes]; exact small)
    rw [behind] at aligned
    exact absurd aligned (by decide +kernel)

end NpAlloc.Threads
