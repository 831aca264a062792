/-
**The footprint of a size-class pool.**

A block is carved only when every carved block is live, and a chunk is taken only when the head has no
room. So the carved blocks are as many as were ever live at once, and the chunks are as few as hold them.

* `waiting` — the blocks a run has freed and was not served again;
* **`chunks_requested`** — the chunks requested are the high-water mark over the blocks of a chunk,
  rounded up; a block that waits is served first.
* `chunks_requested_narrow` — blocks too narrow for a link: freed neighbours corrupt each other's links,
  and the pool serves a live block again.
-/

import NpAlloc.Pool.OnePool

set_option linter.unusedSectionVars false

namespace NpAlloc.Pool.OnePool

variable {size C : Nat} {s s' : State} {L : Layout}

/-- **As few chunks as hold the blocks.** -/
theorem Holds.given_eq (holds : Holds size C s L) :
    s.world.global.given = s.high ⌈/⌉ capacity size C := by
  rw [holds.given, holds.high]
  exact holds.sound.toShape.chunks_length holds.large holds.used

/-- A chunk is taken only when nothing is free and the head has no room. -/
theorem Holds.given_step (holds : Holds size C s L) {act : Act}
    (next : OnePool.step s act = some s')
    (more : s'.world.global.given ≠ s.world.global.given) :
    s.pool.free_ = 0 ∧ (s.pool.head_ = 0 ∨
      s.pool.head_ + C < poolCurr s.world.mem s.pool.head_ + size) := by
  unfold OnePool.step at next
  cases act with
  | alloc =>
    simp only at next
    split at next
    · cases next
    · rename_i ptr pool world served
      cases next
      obtain ⟨_, _, given⟩ := holds.alloc served
      have hungry : L.hungry size C = true := by
        by_contra fed
        rw [if_neg fed] at given
        exact more given
      rw [Layout.hungry, Bool.and_eq_true, List.isEmpty_iff] at hungry
      refine ⟨holds.represents.free_null.mpr hungry.1, ?_⟩
      have full := hungry.2
      unfold Layout.full at full
      cases head : L.chunks with
      | nil => exact .inl (holds.represents.head_null.mpr head)
      | cons c rest =>
        right
        rw [head] at full
        have curr := holds.represents.curr c (by rw [head]; exact List.mem_cons_self)
        have rest := Nat.lt_div_mul_add holds.sound.size (a := C - poolHeader)
        have large := holds.large
        have count : c.count = capacity size C := of_decide_eq_true full
        rw [holds.represents.head head, poolCurr, curr, holds.allocSize, blockAt, count, capacity]
        omega
  | dealloc ptr =>
    simp only [Option.ite_none_right_eq_some, Option.some.injEq] at next
    obtain ⟨_, rfl⟩ := next
    exact absurd rfl more
  | write a byte =>
    simp only [Option.ite_none_right_eq_some, Option.some.injEq] at next
    obtain ⟨_, rfl⟩ := next
    exact absurd rfl more

/-! ### What waits -/

/-- What waits after a step. -/
def waits (stack : List Nat) (step : Act × State) : List Nat :=
  match step with
  | (.alloc, s') => stack.erase (s'.live.headD 0)
  | (.dealloc ptr, _) => ptr :: stack
  | (.write _ _, _) => stack

/-- **The blocks a run has freed and was not served again**, the last one first. -/
def waiting (size C : Nat) (start : State) (acts : List Act) : List Nat :=
  ((machine size C).along (fun _ act s' => (act, s')) start acts).foldl waits []

theorem waiting_snoc {start : State} {acts : List Act} {act : Act}
    (run : (machine size C).Exec Machine.anyStep start acts s) (next : step s act = some s') :
    waiting size C start (acts ++ [act]) = waits (waiting size C start acts) (act, s') := by
  unfold waiting
  rw [run.along_snoc next, List.foldl_append]
  rfl

/-- **What waits is the free list.** -/
theorem Holds.waits_step (holds : Holds size C s L) {act : Act} (next : OnePool.step s act = some s') :
    ∃ L', Holds size C s' L' ∧ L'.frees = waits L.frees (act, s') := by
  unfold OnePool.step at next
  cases act with
  | alloc =>
    simp only at next
    split at next
    · cases next
    · rename_i ptr pool world served
      cases next
      obtain ⟨fresh, after, _⟩ := holds.alloc served
      refine ⟨_, after, ?_⟩
      show (L.take size C fresh).2.frees = L.frees.erase ptr
      rw [Layout.take_frees]
      cases frees : L.frees with
      | nil => rfl
      | cons block rest =>
        -- the block that is live now was the first of the list
        have first : block = ptr := by
          have live := after.live
          unfold Layout.take at live
          simp only [frees] at live
          exact (List.cons.inj live).1
        rw [first, List.tail_cons, List.erase_cons_head]
  | dealloc ptr =>
    simp only [Option.ite_none_right_eq_some, Option.some.injEq] at next
    obtain ⟨live, rfl⟩ := next
    exact ⟨_, holds.dealloc live, rfl⟩
  | write a byte =>
    simp only [Option.ite_none_right_eq_some, Option.some.injEq] at next
    obtain ⟨⟨block, live, within⟩, rfl⟩ := next
    rw [holds.allocSize] at within
    exact ⟨L, holds.write byte live within, rfl⟩

theorem Holds.run (link : 8 ≤ size) (large : poolHeader + size ≤ C) {start : State} {acts : List Act}
    (initial : Start size C start) (run : (machine size C).Exec Machine.anyStep start acts s) :
    ∃ L, Holds size C s L ∧ L.frees = waiting size C start acts := by
  refine run.snoc_induction (P := fun acts s => ∃ L, Holds size C s L ∧ L.frees = waiting size C start acts)
    ⟨.empty, .start link large initial, rfl⟩ ?_
  rintro acts s act s' front ⟨L, holds, frees⟩ _ next
  obtain ⟨L', after, step⟩ := holds.waits_step next
  exact ⟨L', after, by rw [waiting_snoc front next, ← frees, step]⟩

/-- **A block that waits is served**, and no chunk is requested. -/
theorem Holds.serves_first (holds : Holds size C s L) {ptr : Nat} {rest : List Nat}
    (frees : L.frees = ptr :: rest) :
    ∃ s', OnePool.step s .alloc = some s' ∧ s'.live = ptr :: s.live ∧
      s'.world.global = s.world.global := by
  have first := holds.represents.free.head_eq
  rw [frees] at first
  have some_ : s.pool.free_ ≠ 0 := fun null => by
    rw [null] at first
    cases first
  have same : s.pool.free_ = ptr := by
    unfold toPtr at first
    rw [if_neg some_] at first
    exact Option.some.inj first
  have served : s.pool.alloc supply s.world
      = .ok (ptr, { s.pool with
          free_ := load s.world.mem s.pool.free_ 8
          allocated_ := s.pool.allocated_ + 1 }, s.world) := by
    unfold PsPool.alloc
    rw [if_pos some_]
    simp only [pure, Except.pure, bind, Except.bind, if_neg some_]
    rw [same]
  have next : OnePool.step s .alloc = some { s with
      pool := { s.pool with
        free_ := load s.world.mem s.pool.free_ 8
        allocated_ := s.pool.allocated_ + 1 }
      live := ptr :: s.live
      high := max s.high (s.live.length + 1) } := by
    unfold OnePool.step
    simp only [served]
  exact ⟨_, next, rfl, rfl⟩

/-! ### The result -/

/-- **The footprint of a size-class pool**, for all sizes of chunks and of blocks that have room for a
link, and every run: the chunks requested are `⌈H / n⌉`, for `H` the most blocks that were ever live at
once and `n` the blocks of a chunk; a block that waits is served before any is carved and any chunk
requested; and whenever a chunk is requested, nothing is free and the head chunk has no room. -/
theorem chunks_requested (link : 8 ≤ size) (large : poolHeader + size ≤ C) {start : State} {acts : List Act}
    (initial : Start size C start) (run : (machine size C).Exec Machine.anyStep start acts s) :
    s.world.global.given = s.high ⌈/⌉ ((C - poolHeader) / size) ∧
    (∀ ptr rest, waiting size C start acts = ptr :: rest → ∃ s', step s .alloc = some s' ∧
      s'.live = ptr :: s.live ∧ s'.world.global.given = s.world.global.given) ∧
    ∀ act s', step s act = some s' → s'.world.global.given ≠ s.world.global.given →
      s.pool.free_ = 0 ∧ (s.pool.head_ = 0 ∨
        s.pool.head_ + C < poolCurr s.world.mem s.pool.head_ + size) := by
  obtain ⟨L, holds, frees⟩ := Holds.run link large initial run
  refine ⟨holds.given_eq, fun ptr rest waiting => ?_, fun act s' next more => holds.given_step next more⟩
  obtain ⟨s', next, live, global⟩ := holds.serves_first (frees.trans waiting)
  exact ⟨s', next, live, by rw [global]⟩

/-- Three blocks are live at once, and two chunks hold them; the one that is freed is served next. -/
theorem chunks_requested_three : ∃ s,
    (machine 8 32).Exec Machine.anyStep twoChunks [.alloc, .alloc, .alloc, .dealloc 48] s ∧ s.high = 3 ∧
    s.world.global.given = s.high ⌈/⌉ ((32 - poolHeader) / 8) ∧
    ∃ s', step s .alloc = some s' ∧ s'.live = 48 :: s.live ∧
      s'.world.global.given = s.world.global.given := by
  have found : ((machine 8 32).runFrom Machine.anyStep twoChunks
      [.alloc, .alloc, .alloc, .dealloc 48]).map (fun s => s.high) = some 3 := by
    decide +kernel
  obtain ⟨s, run, high⟩ := Option.map_eq_some_iff.mp found
  have run := Machine.exec_of_runFrom run
  obtain ⟨given, reused, _⟩ := chunks_requested (by decide) (by decide) twoChunks_start run
  exact ⟨s, run, high, given, reused 48 [] (by decide +kernel)⟩

/-- An empty pool for blocks of four bytes, seven in a chunk, with two chunks to be had. -/
def narrowBlocks : State := ⟨.new 4 44, ⟨fun _ => 0, ⟨[2 ^ 36, 2 ^ 36 + 2 ^ 20], 0⟩⟩, [], 0⟩

/-- Seven blocks are allocated, four neighbours are freed from the last to the first, and four more are
allocated. -/
def narrowCalls : List Act :=
  List.replicate 7 .alloc ++ [.dealloc (2 ^ 36 + 36), .dealloc (2 ^ 36 + 32), .dealloc (2 ^ 36 + 28),
    .dealloc (2 ^ 36 + 24)] ++ List.replicate 4 .alloc

/-- **Blocks too narrow for a link**: each link that is stored overwrites the lower half of the next
block's with the upper half of an address. The third block that is served again is one that is still
live, and the fourth comes from a second chunk, though seven blocks were never exceeded. -/
theorem chunks_requested_narrow : ∃ s, (machine 4 44).Exec Machine.anyStep narrowBlocks narrowCalls s ∧
    Start 4 44 narrowBlocks ∧ poolHeader + 4 ≤ 44 ∧
    s.world.global.given ≠ s.high ⌈/⌉ ((44 - poolHeader) / 4) := by
  have found : ((machine 4 44).runFrom Machine.anyStep narrowBlocks narrowCalls).map
      (fun s => (s.world.global.given, s.high)) = some (2, 7) := by
    decide +kernel
  obtain ⟨s, run, view⟩ := Option.map_eq_some_iff.mp found
  obtain ⟨given, high⟩ := Prod.mk.inj view
  refine ⟨s, Machine.exec_of_runFrom run, ⟨rfl, rfl, rfl, rfl, ⟨by decide, by decide⟩⟩, by decide, ?_⟩
  rw [given, high]
  decide

end NpAlloc.Pool.OnePool
