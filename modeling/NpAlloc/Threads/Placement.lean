/-
**Where a new block lies.**

Whenever its free list is empty, a pool cuts its chunks into blocks in order, and takes a new chunk only
at the end of one. So a thread's `P`-th new block of a class is block `P % m` of its newest chunk, where
`m` is the number of blocks of a chunk: the history of the thread alone says which requests need a chunk
and where in the chunk each block lies.

* `Layout.carved_split` — the blocks of the full chunks, and those of the newest;
* **`blocks_in_order`** — which requests need a chunk, and where the others and these are served.
-/

import NpAlloc.Threads.Footprint
import NpAlloc.Threads.Reuse

set_option linter.unusedSectionVars false

namespace NpAlloc.Pool.Layout

variable {s C fresh : Nat} {L : Layout}

/-- **The newest chunk is full after a multiple of the blocks of a chunk.** -/
theorem full_iff (shape : Shape s C L) (large : poolHeader + s ≤ C) (used : ∀ c ∈ L.chunks, 0 < c.count) :
    L.full s C = true ↔ capacity s C ∣ (L.carved s).length := by
  have positive := capacity_pos shape.size large
  unfold full
  cases head : L.chunks with
  | nil =>
    unfold carved
    simp [head]
  | cons c rest =>
    have member : c ∈ L.chunks := by
      rw [head]
      exact List.mem_cons_self
    have some_ := used c member
    have bound := shape.bound c member
    rw [shape.carved_length head, Nat.dvd_add_right (Nat.dvd_mul_left _ _), decide_eq_true_iff]
    constructor
    · rintro same
      rw [same]
    · intro divides
      exact Nat.le_antisymm bound (Nat.le_of_dvd some_ divides)

/-- **A chunk with room has as many blocks as are left over.** -/
theorem count_eq (shape : Shape s C L) (room : L.full s C = false) :
    ∃ c rest, L.chunks = c :: rest ∧ c.count = (L.carved s).length % capacity s C := by
  obtain ⟨c, rest, head, less⟩ := shape.head_room room
  refine ⟨c, rest, head, ?_⟩
  rw [shape.carved_length head, Nat.add_comm, Nat.add_mul_mod_self_right, Nat.mod_eq_of_lt less]

/-- The block that is cut when nothing is free: the next of the newest chunk, or the first of a fresh
one. -/
theorem take_next (fresh : Nat) (shape : Shape s C L) (empty : L.frees = []) (room : L.full s C = false) :
    ∃ c rest, L.chunks = c :: rest ∧
      (L.take s C fresh).1 = blockAt s c.base ((L.carved s).length % capacity s C) := by
  obtain ⟨c, rest, head, count⟩ := count_eq shape room
  refine ⟨c, rest, head, ?_⟩
  unfold take carve
  simp only [empty, room, head, Bool.false_eq_true, if_false]
  rw [count]

theorem take_first (needs : L.hungry s C = true) : (L.take s C fresh).1 = blockAt s fresh 0 := by
  obtain ⟨empty, full⟩ := Bool.and_eq_true_iff.mp needs
  unfold take carve grow
  simp only [List.isEmpty_iff.mp empty, full, if_true]

end NpAlloc.Pool.Layout

namespace NpAlloc.Threads

open Mmap Pool

variable {T : Type} [DecidableEq T] {s s' : State T} {n : Nat} {t u : T} {i : SizeClass}
  {build : Build} {bytes : Nat} {info : Meta}

/-- **Where the requests of a class are served**, by a thread that was at most `P` blocks ahead and
waits for the blocks of `stack`. -/
structure InOrder (build : Build) (s : State T) (t : T) (i : SizeClass) (P : Nat) (stack : List Nat) :
    Prop where
  /-- A request needs a chunk when nothing is free and every chunk is full. -/
  needs : ∀ bytes, OfClass bytes i → (s.phase t).Open i →
    (NeedsChunk (s.pool t) s.mem bytes ↔ stack = [] ∧ blocksPerChunk i ∣ P)
  /-- If nothing is free and there is room, it gets the next block of the newest chunk. -/
  next : stack = [] → ¬ blocksPerChunk i ∣ P → s.phase t = .idle → ∀ bytes info malloc,
    bytes ≤ 2 ^ 64 - 65 → OfClass bytes i →
    ∃ s', s.step build (.alloc t bytes info malloc) = some s' ∧ s'.live.head?.map Block.ptr
      = some (blockAt (classSize i) ((s.pool t).tlsPool i).head_ (P % blocksPerChunk i) + 48)
  /-- A request that was given a chunk gets its first block. -/
  first : ∀ bytes info chunk, OfClass bytes i → s.phase t = .granted bytes info chunk →
    ∃ s', s.step build (.finish t) = some s' ∧
      s'.live.head?.map Block.ptr = some (blockAt (classSize i) chunk 0 + 48)

/-- **A class needs a chunk when nothing is free and every chunk is full.** -/
theorem Inv.hungry_iff (inv : Inv n s) {P : Int × Nat}
    (counted : Counted i (s.ghost.layout (t, i)) P) :
    (s.ghost.layout (t, i)).hungry (classSize i) kDefaultChunkSize = true ↔
      freePtrs (s.ghost.layout (t, i)) = [] ∧ blocksPerChunk i ∣ P.2 := by
  unfold Layout.hungry freePtrs
  rw [Bool.and_eq_true, List.isEmpty_iff, List.map_eq_nil_iff,
    Layout.full_iff (inv.shape t i) (class_large i) counted.used, counted.carved]
  rfl

/-- **New blocks are cut in order.** In every run of any threads, whose chunks are handed over settled,
the pool of a thread in a class that it has not given up goes by the history of that thread alone. Let
`P` be the most by which the requests of the class that were served to it exceeded the blocks of the
class it freed, and `m` the blocks of a chunk. A request needs a chunk exactly when the thread waits for
no block and `m` divides `P`; while it waits for none and `m` does not divide `P`, it is served with
block `P % m` of the newest chunk; and what was given a chunk is served with block `0` of it. -/
theorem blocks_in_order (build : Build) (n : Nat) (start s : State T) (acts : List (Act T))
    (initial : State.Init n start)
    (run : (machine T build n).Exec (fun s act => Supplied n s act ∧ Orderly s act) start acts s)
    (t : T) (i : SizeClass) (opens : (s.phase t).Open i) :
    InOrder build s t i (tallied build n t i start acts).2 (waiting build n t i start acts) := by
  obtain ⟨inv, counts⟩ := counted_run initial run
  have counted := counts t i (.inl opens)
  have hungry := inv.hungry_iff counted
  rw [(waiting_eq initial run).2 t i (.inl opens)] at hungry
  have shape := inv.shape t i
  refine ⟨fun bytes serves opens => ?_, fun empty room idle bytes info malloc bound serves => ?_,
    fun bytes info chunk serves granted => ?_⟩
  · obtain ⟨small, rfl⟩ := serves
    rw [← hungry, ← inv.starved_iff opens]
    exact ⟨And.right, fun starved => ⟨small, starved⟩⟩
  · have nothing : (s.ghost.layout (t, i)).frees = [] := by
      have none_ := (waiting_eq initial run).2 t i (.inl opens)
      rw [empty] at none_
      exact List.map_eq_nil_iff.mp none_
    have fed : (s.ghost.layout (t, i)).full (classSize i) kDefaultChunkSize = false := by
      rw [← Bool.not_eq_true, Layout.full_iff shape (class_large i) counted.used, counted.carved]
      exact room
    obtain ⟨small, rfl⟩ := serves
    have spare : ¬ NeedsChunk (s.pool t) s.mem bytes := by
      rintro ⟨_, starved⟩
      exact room (hungry.mp ((inv.starved_iff opens).mp starved)).2
    obtain ⟨s', next, given⟩ := inv.served_take idle build info malloc bound small spare
    obtain ⟨c, rest, head, took⟩ := Layout.take_next 0 shape nothing fed
    have first := (inv.represents (t, _)).head head
    rw [view_head] at first
    refine ⟨s', next, ?_⟩
    rw [given, took, counted.carved, ← first]
    rfl
  · obtain ⟨small, rfl⟩ := serves
    obtain ⟨_, _, hungry⟩ := (inv.stands t).starving bytes (by rw [granted]; rfl)
    obtain ⟨s', _, next, after, _⟩ := inv.finish granted build
    obtain ⟨b, placed⟩ := inv.placed_finish granted next
    refine ⟨s', next, ?_⟩
    rw [placed.head_ptr after small, Layout.take_first hungry]

/-- What a thread is served from a chunk that was another one's before. -/
theorem blocks_in_order_pair : ∃ s : State Bool,
    (machine Bool .debug 1).Exec (fun s act => Supplied 1 s act ∧ Orderly s act) State.pair pairCalls s ∧
    s.phase true = .exited ∧ s.live.map Block.bytes = [100] ∧
    InOrder .debug s false (classOf 164) (tallied .debug 1 false (classOf 164) State.pair pairCalls).2
      (waiting .debug 1 false (classOf 164) State.pair pairCalls) := by
  obtain ⟨s, b, run, _, exited, idle, live, bytes, _⟩ := pair_orderly .debug
  refine ⟨s, run, exited, by rw [live]; simp [bytes], ?_⟩
  refine blocks_in_order .debug 1 State.pair s pairCalls State.pair_init run false (classOf 164) ?_
  rw [idle]
  trivial

end NpAlloc.Threads
