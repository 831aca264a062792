/-
**One size-class pool and its client.**

The client allocates, frees what it holds, and overwrites its blocks; the pool takes a chunk from the
global pool whenever it needs one. `Source` is the global pool of such a run: the chunks it is going to
give, which do not meet, for as long as the run asks for more.

* `Holds` — the invariant: the pool in memory is a sound layout, `allocated_` counts the live blocks, and
  there are as many carved blocks as were ever live at once.
* **`Holds.step`** — every step keeps it.
-/

import NpAlloc.General.Machine
import NpAlloc.Pool.Represents
import Mathlib.Order.Interval.Finset.Nat

set_option linter.unusedSectionVars false

namespace NpAlloc.Pool.OnePool

/-- The chunks the global pool has left to give, and how many it has given. -/
structure Source where
  chunks : List Nat
  given : Nat

/-- `get_global_pool()->alloc_chunk()`. -/
def supply : Supply Source := fun source =>
  match source.chunks with
  | [] => .error .aborted
  | chunk :: rest => .ok (chunk, ⟨rest, source.given + 1⟩)

structure State where
  pool : PsPool
  world : World Source
  /-- What the client holds. -/
  live : List Nat
  /-- The largest number of blocks that were ever live at once. -/
  high : Nat

inductive Act
  | alloc
  | dealloc (ptr : Nat)
  /-- The client writes a byte of a block it holds. -/
  | write (a : Nat) (byte : BitVec 8)
deriving DecidableEq

/-- **One call, or one write of the client.** A run that is out of chunks ends. -/
def step (s : State) : Act → Option State
  | .alloc =>
    match s.pool.alloc supply s.world with
    | .error _ => none
    | .ok (ptr, pool, world) => some
      { pool := pool
        world := world
        live := ptr :: s.live
        high := max s.high (s.live.length + 1) }
  | .dealloc ptr =>
    if ptr ∈ s.live then some { s with
      pool := (s.pool.dealloc s.world.mem ptr).1
      world := { s.world with mem := (s.pool.dealloc s.world.mem ptr).2 }
      live := s.live.erase ptr }
    else none
  | .write a byte =>
    if ∃ block ∈ s.live, Within block s.pool.allocSize_ a then some { s with
      world := { s.world with mem := Function.update s.world.mem a byte } }
    else none

/-- Chunks that may be given: they do not meet, and none is at the end of the address space. -/
structure Chunks (C : Nat) (chunks : List Nat) : Prop where
  space : ∀ base ∈ chunks, 0 < base ∧ base + C < 2 ^ 64
  apart : chunks.Pairwise fun base other => Apart base C other C

/-- An empty pool for blocks of `size` bytes in chunks of `C` bytes. -/
structure Start (size C : Nat) (s : State) : Prop where
  pool : s.pool = .new size C
  live : s.live = []
  high : s.high = 0
  given : s.world.global.given = 0
  chunks : Chunks C s.world.global.chunks

def machine (size C : Nat) : Machine State Act where
  init := Start size C
  step := step

variable {size C : Nat} {s s' : State} {L L' : Layout}

theorem Chunks.tail {chunks rest : List Nat} {fresh : Nat} (valid : Chunks C chunks)
    (split : chunks = fresh :: rest) : Chunks C rest := by
  subst split
  exact ⟨fun base member => valid.space base (.tail _ member), (List.pairwise_cons.mp valid.apart).2⟩

/-- Only the bases of a layout say which chunks are fresh. -/
theorem fresh_of_bases {x : Nat} (some_ : 0 < x) (space : x + C < 2 ^ 64)
    (apart : ∀ base ∈ L.bases, Apart x C base C) : L.Fresh C x :=
  ⟨some_, space, fun c chunk => apart c.base (List.mem_map_of_mem chunk)⟩

/-! ### The invariant -/

/-- **The pool is a sound layout**, and its counts are right. -/
structure Holds (size C : Nat) (s : State) (L : Layout) : Prop where
  represents : Represents s.pool s.world.mem L
  allocSize : s.pool.allocSize_ = size
  chunkSize : s.pool.chunkSize_ = C
  sound : L.Sound size C
  live : L.live = s.live
  chunks : Chunks C s.world.global.chunks
  fresh : ∀ fresh ∈ s.world.global.chunks, L.Fresh C fresh
  allocated : s.pool.allocated_ = BitVec.ofNat 64 s.live.length
  given : s.world.global.given = L.chunks.length
  used : ∀ c ∈ L.chunks, 0 < c.count
  high : s.high = (L.carved size).length

theorem Holds.start (link : 8 ≤ size) (large : poolHeader + size ≤ C) (start : Start size C s) :
    Holds size C s .empty := by
  obtain ⟨pool, world, live, high⟩ := s
  obtain ⟨rfl, rfl, rfl, given, chunks⟩ := start
  refine ⟨.new link large _, rfl, rfl, Layout.empty_sound (by omega), rfl, chunks, fun fresh member => ?_,
    rfl, given, fun c member => absurd member List.not_mem_nil, rfl⟩
  exact ⟨(chunks.space fresh member).1, (chunks.space fresh member).2,
    fun c chunk => absurd chunk List.not_mem_nil⟩

namespace Holds

theorem large (holds : Holds size C s L) : poolHeader + size ≤ C := by
  have large := holds.represents.large
  rwa [holds.allocSize, holds.chunkSize] at large

/-- There are as many blocks carved as free and live. -/
theorem carved_length (holds : Holds size C s L) :
    (L.carved size).length = L.frees.length + s.live.length := by
  rw [← holds.sound.carved.length_eq, Layout.blocks, List.length_append, holds.live]

/-- A byte of a live block is read by no part of the pool. -/
theorem live_unread (holds : Holds size C s L) {block a : Nat} (live : block ∈ s.live)
    (within : Within block size a) : ¬ Footprint L a := by
  rw [← holds.live] at live
  have carved := holds.sound.mem_iff.mpr (.inr live)
  have link := holds.represents.link
  rw [holds.allocSize] at link
  rintro (⟨c, chunk, header⟩ | ⟨other, free, word⟩)
  · exact (holds.sound.header_apart carved chunk).not_within within header
  · have different : block ≠ other := fun same => by
      subst same
      exact List.disjoint_of_nodup_append holds.sound.nodup free live
    have apart := holds.sound.blocks_apart carved (holds.sound.mem_iff.mpr (.inl free)) different
    exact (apart.mono le_rfl le_rfl le_rfl (by omega)).not_within within word

/-- **A write of the client.** -/
theorem write (holds : Holds size C s L) {block a : Nat} (byte : BitVec 8) (live : block ∈ s.live)
    (within : Within block size a) : Holds size C { s with
      world := { s.world with mem := Function.update s.world.mem a byte } } L := by
  refine { holds with represents := holds.represents.frame fun x member => ?_ }
  refine Function.update_of_ne (fun same => ?_) _ _
  subst same
  exact holds.live_unread live within member

/-- **`dealloc` of a live block.** -/
theorem dealloc (holds : Holds size C s L) {ptr : Nat} (live : ptr ∈ s.live) :
    Holds size C { s with
      pool := (s.pool.dealloc s.world.mem ptr).1
      world := { s.world with mem := (s.pool.dealloc s.world.mem ptr).2 }
      live := s.live.erase ptr } (L.give ptr) := by
  have sound := holds.sound
  have mine : ptr ∈ L.live := by rwa [holds.live]
  have carved := sound.mem_iff.mpr (.inr mine)
  have returnable : Returnable s.pool (L.lose ptr) ptr := by
    rw [← holds.allocSize] at sound carved
    obtain ⟨c, chunk, low, high⟩ := sound.inside carved
    have space := sound.space c chunk
    refine ⟨by omega, fun d chunk => sound.header_apart carved chunk, fun other free => ?_⟩
    refine sound.blocks_apart carved (sound.mem_iff.mpr (.inl free)) fun same => ?_
    subst same
    exact List.disjoint_of_nodup_append sound.nodup free mine
  obtain ⟨represents, _⟩ := dealloc_represents (holds.represents.relabel (L.live.erase ptr)) returnable
  have length := List.length_erase_add_one live
  refine ⟨represents, holds.allocSize, holds.chunkSize, sound.give mine, ?_, holds.chunks,
    fun fresh member => ⟨(holds.fresh fresh member).some, (holds.fresh fresh member).space,
      (holds.fresh fresh member).apart⟩, ?_, holds.given, holds.used, holds.high⟩
  · show L.live.erase ptr = s.live.erase ptr
    rw [holds.live]
  · show s.pool.allocated_ - 1 = BitVec.ofNat 64 (s.live.erase ptr).length
    rw [holds.allocated, ← length, BitVec.ofNat_add]
    exact BitVec.add_sub_cancel _ _

/-- A pool that needs a chunk when there is none does not return. -/
theorem alloc_out {p : PsPool} {w : World Source} (starved : p.Starved w.mem)
    (out : w.global.chunks = []) : p.alloc supply w = .error .aborted := by
  have refused : supply w.global = .error .aborted := by
    unfold supply
    rw [out]
  unfold PsPool.alloc PsPool.allocFromLocalPool PsPool.allocFromGlobal
  simp only [starved.1, ne_eq, not_true_eq_false, if_false, if_pos starved.2, refused]
  rfl

/-- The chunks that are left, after one was given. -/
theorem given_chunk (holds : Holds size C s L) {ptr : Nat} {pool : PsPool} {world : World Source}
    (served : s.pool.alloc supply s.world = .ok (ptr, pool, world)) (starved : s.pool.Starved s.world.mem) :
    ∃ fresh rest, s.world.global.chunks = fresh :: rest ∧
      supply s.world.global = .ok (fresh, ⟨rest, s.world.global.given + 1⟩) ∧ L.Fresh C fresh := by
  cases chunks : s.world.global.chunks with
  | nil =>
    rw [alloc_out starved chunks] at served
    cases served
  | cons fresh rest =>
    refine ⟨fresh, rest, rfl, ?_, holds.fresh fresh (by rw [chunks]; exact List.mem_cons_self)⟩
    unfold supply
    rw [chunks]

/-- **The high-water mark is the number of carved blocks**: a block is carved only when all are live. -/
theorem take_high {fresh : Nat} (holds : Holds size C s L)
    (new : L.hungry size C = true → L.Fresh C fresh) :
    max s.high (s.live.length + 1) = ((L.take size C fresh).2.carved size).length := by
  have length := holds.carved_length
  rw [holds.high]
  rcases holds.sound.toShape.take_blocks holds.large new with
    ⟨free, _, chunks⟩ | ⟨none_, _, carved⟩
  · have some_ := List.length_pos_of_mem free
    have same : (L.take size C fresh).2.carved size = L.carved size := by
      unfold Layout.carved
      rw [chunks]
    rw [same]
    omega
  · rw [carved.length_eq, List.length_cons]
    rw [none_, List.length_nil] at length
    omega

/-- **`alloc`** serves the block that its layout takes. -/
theorem alloc (holds : Holds size C s L) {ptr : Nat} {pool : PsPool} {world : World Source}
    (served : s.pool.alloc supply s.world = .ok (ptr, pool, world)) :
    ∃ fresh, Holds size C
      { pool := pool
        world := world
        live := ptr :: s.live
        high := max s.high (s.live.length + 1) } (L.take size C fresh).2 ∧
      world.global.given = s.world.global.given + if L.hungry size C then 1 else 0 := by
  have large := holds.large
  have represents := holds.represents
  have sound := holds.sound
  obtain rfl := holds.allocSize
  obtain rfl := holds.chunkSize
  have needs := represents.starved_iff_of_fresh fun starved => by
    obtain ⟨fresh, _, _, _, new⟩ := holds.given_chunk served starved
    exact ⟨fresh, new⟩
  obtain ⟨fresh, global, granted, left⟩ : ∃ fresh global, (s.pool.Starved s.world.mem →
      supply s.world.global = .ok (fresh, global) ∧ L.Fresh s.pool.chunkSize_ fresh) ∧
      (s.pool.Starved s.world.mem → global.given = s.world.global.given + 1 ∧
        s.world.global.chunks = fresh :: global.chunks) := by
    by_cases starved : s.pool.Starved s.world.mem
    · obtain ⟨fresh, rest, chunks, answer, new⟩ := holds.given_chunk served starved
      exact ⟨fresh, _, fun _ => ⟨answer, new⟩, fun _ => ⟨rfl, chunks⟩⟩
    · exact ⟨0, s.world.global, fun bad => absurd bad starved, fun bad => absurd bad starved⟩
  have new : L.hungry s.pool.allocSize_ s.pool.chunkSize_ = true → L.Fresh s.pool.chunkSize_ fresh :=
    fun hungry => (granted (needs.mpr hungry)).2
  obtain ⟨pool', world', again, after, ⟨allocSize, chunkSize, count⟩, same, _⟩ :=
    alloc_represents supply fresh global represents granted
  rw [served] at again
  cases again
  have bases : ((L.take s.pool.allocSize_ s.pool.chunkSize_ fresh).2).bases
      = if L.hungry s.pool.allocSize_ s.pool.chunkSize_ then fresh :: L.bases else L.bases :=
    L.take_bases _ _ _
  have given : world.global.given
      = s.world.global.given + if L.hungry s.pool.allocSize_ s.pool.chunkSize_ then 1 else 0 := by
    rw [same]
    split
    · rename_i hungry
      exact (left (needs.mpr hungry)).1
    · rfl
  refine ⟨fresh, ⟨after, allocSize, chunkSize, sound.take large new, ?_, ?_, ?_, ?_, ?_,
    sound.toShape.take_used large new holds.used, holds.take_high new⟩, ?_⟩
  · rw [sound.toShape.take_live large new, holds.live]
  · rw [same]
    split
    · rename_i hungry
      exact holds.chunks.tail (left (needs.mpr hungry)).2
    · exact holds.chunks
  · rw [same]
    intro other member
    split at member
    · rename_i hungry
      rw [if_pos hungry] at bases
      have split := (left (needs.mpr hungry)).2
      have old := holds.fresh other (by rw [split]; exact .tail _ member)
      refine fresh_of_bases old.some old.space fun base there => ?_
      rw [bases] at there
      rcases List.mem_cons.mp there with rfl | before
      · have apart := holds.chunks.apart
        rw [split] at apart
        exact ((List.pairwise_cons.mp apart).1 other member).symm
      · obtain ⟨c, chunk, rfl⟩ := List.mem_map.mp before
        exact old.apart c chunk
    · rename_i fed
      rw [if_neg fed] at bases
      have old := holds.fresh other member
      refine fresh_of_bases old.some old.space fun base there => ?_
      rw [bases] at there
      obtain ⟨c, chunk, rfl⟩ := List.mem_map.mp there
      exact old.apart c chunk
  · show pool.allocated_ = BitVec.ofNat 64 (s.live.length + 1)
    rw [count, holds.allocated, BitVec.ofNat_add]
    rfl
  · show world.global.given = _
    have count : (L.take s.pool.allocSize_ s.pool.chunkSize_ fresh).2.chunks.length
        = (if L.hungry s.pool.allocSize_ s.pool.chunkSize_ then fresh :: L.bases else L.bases).length := by
      rw [← bases, Layout.bases, List.length_map]
    rw [given, holds.given, count]
    split <;> simp [Layout.bases]
  · exact given

/-- **Every step keeps the invariant.** -/
theorem step {act : Act} (holds : Holds size C s L) (next : OnePool.step s act = some s') :
    ∃ L', Holds size C s' L' := by
  unfold OnePool.step at next
  cases act with
  | alloc =>
    simp only at next
    split at next
    · cases next
    · rename_i ptr pool world served
      cases next
      obtain ⟨fresh, after, _⟩ := holds.alloc served
      exact ⟨_, after⟩
  | dealloc ptr =>
    simp only [Option.ite_none_right_eq_some, Option.some.injEq] at next
    obtain ⟨live, rfl⟩ := next
    exact ⟨_, holds.dealloc live⟩
  | write a byte =>
    simp only [Option.ite_none_right_eq_some, Option.some.injEq] at next
    obtain ⟨⟨block, live, within⟩, rfl⟩ := next
    rw [holds.allocSize] at within
    exact ⟨L, holds.write byte live within⟩

end Holds

/-- **The invariant holds in every reachable state.** -/
theorem Holds.reachable (link : 8 ≤ size) (large : poolHeader + size ≤ C)
    (reached : (machine size C).Reachable Machine.anyStep s) : ∃ L, Holds size C s L :=
  Machine.invariant (I := fun s => ∃ L, Holds size C s L)
    (fun _ start => ⟨.empty, .start link large start⟩)
    (fun _ _ _ ⟨_, holds⟩ _ next => holds.step next) reached

/-! ### The partition -/

/-- `pool_curr` of a chunk. -/
def poolCurr (mem : Memory) (base : Nat) : Nat := load mem (base + 8) 8

/-- A block carved from a chunk: it is one of the consecutive blocks behind the header, up to
`pool_curr`. -/
def Carves (size : Nat) (mem : Memory) (base block : Nat) : Prop :=
  ∃ i, block = base + poolHeader + i * size ∧ block + size ≤ poolCurr mem base

/-- **The partition of a pool's memory**, read off the memory: `chunks` is the chain from `head_` and
`frees` the one from `free_`. -/
structure Partition (s : State) (chunks frees : List Nat) : Prop where
  chain : Linked (linkOf s.world.mem) (toPtr s.pool.head_) chunks
  apart : chunks.Pairwise fun base other => Apart base s.pool.chunkSize_ other s.pool.chunkSize_
  /-- A chunk is its header, a run of blocks up to `pool_curr`, and the rest. -/
  split : ∀ base ∈ chunks, ∃ count,
    poolCurr s.world.mem base = base + poolHeader + count * s.pool.allocSize_ ∧
      poolCurr s.world.mem base ≤ base + s.pool.chunkSize_
  /-- Only the head has room for another block. -/
  spent : ∀ base ∈ chunks.tail,
    base + s.pool.chunkSize_ < poolCurr s.world.mem base + s.pool.allocSize_
  /-- `free_` ends, and meets no block twice. -/
  free : Linked (linkOf s.world.mem) (toPtr s.pool.free_) frees
  once : frees.Nodup
  liveOnce : s.live.Nodup
  /-- The carved blocks are the live and the free ones, and none is both. -/
  carved : ∀ block, (∃ base ∈ chunks, Carves s.pool.allocSize_ s.world.mem base block) ↔
    block ∈ s.live ∨ block ∈ frees
  either : ∀ block ∈ s.live, block ∉ frees
  blocks : ∀ block other, block ∈ s.live ∨ block ∈ frees → other ∈ s.live ∨ other ∈ frees →
    block ≠ other → Apart block s.pool.allocSize_ other s.pool.allocSize_
  headers : ∀ block, block ∈ s.live ∨ block ∈ frees → ∀ base ∈ chunks,
    Apart block s.pool.allocSize_ base poolHeader
  allocated : s.pool.allocated_.toNat = s.live.length

namespace Holds

/-- The carved blocks, read off the memory. -/
theorem carves_iff (holds : Holds size C s L) (block : Nat) :
    (∃ base ∈ L.bases, Carves size s.world.mem base block) ↔ block ∈ L.carved size := by
  have curr := holds.represents.curr
  rw [holds.allocSize] at curr
  have inside : ∀ c ∈ L.chunks, ∀ i, blockAt size c.base i + size ≤ poolCurr s.world.mem c.base ↔
      i < c.count := by
    intro c chunk i
    have here : poolCurr s.world.mem c.base = blockAt size c.base c.count := curr c chunk
    rw [here, blockAt, blockAt, Nat.add_assoc (c.base + poolHeader), ← Nat.add_one_mul,
      Nat.add_le_add_iff_left, Nat.mul_le_mul_right_iff holds.sound.size]
    exact Nat.succ_le_iff
  rw [Layout.mem_carved]
  constructor
  · rintro ⟨base, member, i, rfl, below⟩
    obtain ⟨c, chunk, rfl⟩ := List.mem_map.mp member
    exact ⟨c, chunk, i, (inside c chunk i).mp below, rfl⟩
  · rintro ⟨c, chunk, i, small, rfl⟩
    exact ⟨c.base, List.mem_map_of_mem chunk, i, rfl, (inside c chunk i).mpr small⟩

/-- Fewer live blocks than addresses. -/
theorem live_lt (holds : Holds size C s L) : s.live.length < 2 ^ 64 := by
  have nodup := holds.sound.nodup.of_append_right
  rw [holds.live] at nodup
  have addresses : s.live.toFinset ⊆ Finset.Ico 1 (2 ^ 64) := by
    intro block member
    rw [List.mem_toFinset, ← holds.live] at member
    obtain ⟨c, chunk, low, high⟩ := holds.sound.inside (holds.sound.mem_iff.mpr (.inr member))
    have space := holds.sound.space c chunk
    rw [Finset.mem_Ico]
    omega
  have count := Finset.card_le_card addresses
  rw [List.toFinset_card_of_nodup nodup, Nat.card_Ico] at count
  omega

/-- **The invariant is the partition.** -/
theorem partition (holds : Holds size C s L) : Partition s L.bases L.frees := by
  have sound := holds.sound
  have curr := holds.represents.curr
  have blocks : ∀ block, block ∈ s.live ∨ block ∈ L.frees ↔ block ∈ L.carved size := fun block => by
    rw [sound.mem_iff, holds.live]
    exact or_comm
  have disjoint := List.disjoint_of_nodup_append sound.nodup
  have spent : ∀ c ∈ L.chunks.tail, c.base + C < blockAt size c.base c.count + size := by
    intro c member
    have rest := Nat.lt_div_mul_add sound.size (a := C - poolHeader)
    have large := holds.large
    rw [sound.spent c member, blockAt, capacity]
    omega
  obtain rfl := holds.allocSize
  obtain rfl := holds.chunkSize
  refine ⟨holds.represents.chain, List.pairwise_map.mpr sound.apart, fun base member => ?_,
    fun base member => ?_, holds.represents.free, sound.nodup.of_append_left, ?_, fun block => ?_,
    fun block live free => ?_, fun block other first second => ?_, fun block member base chunk => ?_, ?_⟩
  · obtain ⟨c, chunk, rfl⟩ := List.mem_map.mp member
    refine ⟨c.count, curr c chunk, ?_⟩
    have product : c.count * s.pool.allocSize_ ≤ s.pool.chunkSize_ - poolHeader :=
      (Nat.mul_le_mul_right _ (sound.bound c chunk)).trans (Nat.div_mul_le_self _ _)
    have large := holds.large
    have here : poolCurr s.world.mem c.base = blockAt s.pool.allocSize_ c.base c.count := curr c chunk
    rw [here, blockAt]
    omega
  · rw [Layout.bases, ← List.map_tail] at member
    obtain ⟨c, chunk, rfl⟩ := List.mem_map.mp member
    have here : poolCurr s.world.mem c.base = blockAt s.pool.allocSize_ c.base c.count :=
      curr c (List.mem_of_mem_tail chunk)
    rw [here]
    exact spent c chunk
  · rw [← holds.live]
    exact sound.nodup.of_append_right
  · rw [holds.carves_iff, blocks]
  · rw [← holds.live] at live
    exact disjoint free live
  · rw [blocks] at first second
    exact sound.blocks_apart first second
  · rw [blocks] at member
    obtain ⟨c, found, rfl⟩ := List.mem_map.mp chunk
    exact sound.header_apart member found
  · rw [holds.allocated, BitVec.toNat_ofNat, Nat.mod_eq_of_lt holds.live_lt]

end Holds

/-- **The partition invariant**, for all sizes of blocks and chunks and every run. -/
theorem partition_invariant (link : 8 ≤ size) (large : poolHeader + size ≤ C)
    (reached : (machine size C).Reachable Machine.anyStep s) :
    s.pool.allocSize_ = size ∧ s.pool.chunkSize_ = C ∧ ∃ chunks frees, Partition s chunks frees := by
  obtain ⟨L, holds⟩ := Holds.reachable link large reached
  exact ⟨holds.allocSize, holds.chunkSize, L.bases, L.frees, holds.partition⟩

/-- An empty pool with two chunks to be had, of two blocks each. -/
def twoChunks : State := ⟨.new 8 32, ⟨fun _ => 0, ⟨[32, 96], 0⟩⟩, [], 0⟩

theorem twoChunks_start : Start 8 32 twoChunks :=
  ⟨rfl, rfl, rfl, rfl, ⟨by decide, by decide⟩⟩

/-- Three blocks are allocated, of two chunks, and the first is freed. -/
theorem partition_invariant_three : ∃ s, (machine 8 32).Reachable Machine.anyStep s ∧
    s.live = [112, 56] ∧ s.pool.allocSize_ = 8 ∧ s.pool.chunkSize_ = 32 ∧
      ∃ chunks frees, Partition s chunks frees := by
  have found : ((machine 8 32).runFrom Machine.anyStep twoChunks
      [.alloc, .alloc, .alloc, .dealloc 48]).map (fun s => s.live) = some [112, 56] := by
    decide +kernel
  obtain ⟨s, run, live⟩ := Option.map_eq_some_iff.mp found
  have reached : (machine 8 32).Reachable Machine.anyStep s :=
    ⟨twoChunks, _, twoChunks_start, Machine.exec_of_runFrom run⟩
  exact ⟨s, reached, live, partition_invariant (by decide) (by decide) reached⟩

end NpAlloc.Pool.OnePool
