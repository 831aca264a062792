/-
**What a size-class pool is for: chunks cut into blocks.**

A `Layout` is the pool without its memory: its chunks with the number of blocks carved from each, the
blocks free for reuse, and the live ones. `take` serves a block — a free one, or a new one carved from
the head chunk, which is a fresh chunk if the head has no room — and `give` takes one back.

`Layout.Shape s C L` — blocks of `s` bytes in chunks of `C` bytes: the chunks do not meet, and all but
the head are full. The carved blocks then lie in their chunk behind its header (`Shape.inside`) and do
not meet (`Shape.blocks_apart`).

`Layout.Sound s C L` — moreover the free and the live blocks are exactly those carved, as in a pool
whose blocks come back to it.
-/

import NpAlloc.Pool.PsPool
import Mathlib.Algebra.Order.Floor.Div
import Mathlib.Data.List.Nodup
import Mathlib.Data.List.Pairwise
import Mathlib.Data.List.Perm.Basic

namespace NpAlloc.Pool

/-- A chunk and the number of blocks carved from it. -/
structure Chunk where
  base : Nat
  count : Nat
deriving DecidableEq

structure Layout where
  /-- The head chunk first. -/
  chunks : List Chunk
  /-- The free blocks, next to be served first. -/
  frees : List Nat
  live : List Nat

/-- Block `i` of a chunk. -/
def blockAt (s base i : Nat) : Nat := base + poolHeader + i * s

/-- How many blocks a chunk holds. -/
def capacity (s C : Nat) : Nat := (C - poolHeader) / s

/-- The blocks carved from a chunk. -/
def Chunk.blocks (s : Nat) (c : Chunk) : List Nat := (List.range c.count).map (blockAt s c.base)

namespace Layout

def empty : Layout := ⟨[], [], []⟩

def carved (s : Nat) (L : Layout) : List Nat := L.chunks.flatMap (Chunk.blocks s)

/-- The head chunk has no room, or there is none. -/
def full (s C : Nat) (L : Layout) : Bool :=
  match L.chunks with
  | [] => true
  | c :: _ => c.count = capacity s C

/-- A block must be carved, and there is no room for it. -/
def hungry (s C : Nat) (L : Layout) : Bool := L.frees.isEmpty && L.full s C

def grow (L : Layout) (fresh : Nat) : Layout := { L with chunks := ⟨fresh, 0⟩ :: L.chunks }

/-- The next block of the head chunk. -/
def carve (s : Nat) (L : Layout) : Nat × Layout :=
  match L.chunks with
  | [] => (0, L)
  | c :: rest => (blockAt s c.base c.count,
      { L with
        chunks := ⟨c.base, c.count + 1⟩ :: rest
        live := blockAt s c.base c.count :: L.live })

/-- Serve a block; `fresh` is the chunk that is used if one is needed. -/
def take (s C fresh : Nat) (L : Layout) : Nat × Layout :=
  match L.frees with
  | block :: rest => (block, { L with frees := rest, live := block :: L.live })
  | [] => (if L.full s C then L.grow fresh else L).carve s

/-- A block of this pool is no longer live. -/
def lose (block : Nat) (L : Layout) : Layout := { L with live := L.live.erase block }

/-- A block is freed to this pool. -/
def receive (block : Nat) (L : Layout) : Layout := { L with frees := block :: L.frees }

/-- Take a block of this pool back. -/
def give (block : Nat) (L : Layout) : Layout := (L.lose block).receive block

/-- The bases of the chunks. -/
def bases (L : Layout) : List Nat := L.chunks.map Chunk.base

/-- The blocks of a pool: free in it, or served by it and live. -/
def blocks (L : Layout) : List Nat := L.frees ++ L.live

/-- **The chunks of a layout.** -/
structure Shape (s C : Nat) (L : Layout) : Prop where
  size : 0 < s
  space : ∀ c ∈ L.chunks, 0 < c.base ∧ c.base + C < 2 ^ 64
  apart : L.chunks.Pairwise fun c d => Apart c.base C d.base C
  bound : ∀ c ∈ L.chunks, c.count ≤ capacity s C
  spent : ∀ c ∈ L.chunks.tail, c.count = capacity s C

/-- **A layout whose blocks are all accounted for.** -/
structure Sound (s C : Nat) (L : Layout) : Prop extends Shape s C L where
  carved : L.blocks.Perm (L.carved s)

/-- A chunk that may be added. -/
structure Fresh (C : Nat) (L : Layout) (fresh : Nat) : Prop where
  some : 0 < fresh
  space : fresh + C < 2 ^ 64
  apart : ∀ c ∈ L.chunks, Apart fresh C c.base C

variable {s C fresh block : Nat} {L : Layout}

/-! ### Where blocks are -/

theorem mem_carved : block ∈ L.carved s ↔
    ∃ c ∈ L.chunks, ∃ i < c.count, block = blockAt s c.base i := by
  unfold carved Chunk.blocks
  simp only [List.mem_flatMap, List.mem_map, List.mem_range]
  exact exists_congr fun c => and_congr_right fun _ =>
    exists_congr fun i => and_congr_right fun _ => eq_comm

/-- The blocks of a chunk lie between its header and its end. -/
theorem blockAt_fits (base : Nat) {i : Nat} (room : i < capacity s C) :
    base + poolHeader ≤ blockAt s base i ∧ blockAt s base i + s ≤ base + C := by
  have product : (i + 1) * s ≤ C - poolHeader :=
    (Nat.mul_le_mul_right s room).trans (Nat.div_mul_le_self (C - poolHeader) s)
  have large : 0 < C - poolHeader := by
    by_contra small
    rw [capacity, Nat.eq_zero_of_not_pos small, Nat.zero_div] at room
    omega
  rw [Nat.add_one_mul] at product
  unfold blockAt
  omega

/-- Different blocks of a chunk do not meet. -/
theorem blockAt_apart {base i j : Nat} (other : i ≠ j) :
    Apart (blockAt s base i) s (blockAt s base j) s := by
  unfold Apart blockAt
  rcases Nat.lt_or_gt_of_ne other with less | less
  · have product := Nat.mul_le_mul_right s (show i + 1 ≤ j by omega)
    rw [Nat.add_one_mul] at product
    omega
  · have product := Nat.mul_le_mul_right s (show j + 1 ≤ i by omega)
    rw [Nat.add_one_mul] at product
    omega

namespace Shape

/-- Two chunks of the list are the same, or do not meet. -/
theorem chunks_apart (shape : Shape s C L) {c d : Chunk} (first : c ∈ L.chunks)
    (second : d ∈ L.chunks) : c = d ∨ Apart c.base C d.base C := by
  rcases eq_or_ne c d with same | other
  · exact .inl same
  · have : Std.Symm fun c d : Chunk => Apart c.base C d.base C := ⟨fun _ _ apart => apart.symm⟩
    exact .inr (shape.apart.forall first second other)

/-- **A carved block lies in its chunk, behind the header.** -/
theorem inside (shape : Shape s C L) (member : block ∈ L.carved s) :
    ∃ c ∈ L.chunks, c.base + poolHeader ≤ block ∧ block + s ≤ c.base + C := by
  obtain ⟨c, chunk, i, small, rfl⟩ := mem_carved.mp member
  exact ⟨c, chunk, blockAt_fits c.base (small.trans_le (shape.bound c chunk))⟩

/-- **No carved block meets a header.** -/
theorem header_apart (shape : Shape s C L) (member : block ∈ L.carved s) {d : Chunk}
    (chunk : d ∈ L.chunks) : Apart block s d.base poolHeader := by
  obtain ⟨c, found, low, high⟩ := shape.inside member
  have size := shape.size
  rcases shape.chunks_apart found chunk with rfl | apart
  · exact .inr low
  · unfold Apart poolHeader at *
    omega

/-- **Two carved blocks do not meet.** -/
theorem blocks_apart (shape : Shape s C L) {other : Nat} (first : block ∈ L.carved s)
    (second : other ∈ L.carved s) (different : block ≠ other) : Apart block s other s := by
  obtain ⟨c, found, i, small, rfl⟩ := mem_carved.mp first
  obtain ⟨d, found', j, small', rfl⟩ := mem_carved.mp second
  rcases shape.chunks_apart found found' with rfl | apart
  · exact blockAt_apart fun same => different (by rw [same])
  · have fits := blockAt_fits c.base (small.trans_le (shape.bound c found))
    have fits' := blockAt_fits d.base (small'.trans_le (shape.bound d found'))
    exact apart.mono (by omega) fits.2 (by omega) fits'.2

/-- **Every block is carved once.** -/
theorem carved_nodup (shape : Shape s C L) : (L.carved s).Nodup := by
  refine List.nodup_flatMap.mpr ⟨fun c _ => ?_, ?_⟩
  · refine List.nodup_range.map fun i j same => ?_
    unfold blockAt at same
    exact Nat.eq_of_mul_eq_mul_right shape.size (by omega)
  · refine shape.apart.imp_of_mem fun {c d} found found' apart => ?_
    intro block first second
    simp only [Chunk.blocks, List.mem_map, List.mem_range] at first second
    obtain ⟨i, small, rfl⟩ := first
    obtain ⟨j, small', same⟩ := second
    have fits := blockAt_fits c.base (small.trans_le (shape.bound c found))
    have fits' := blockAt_fits d.base (small'.trans_le (shape.bound d found'))
    have size := shape.size
    unfold Apart at apart
    omega

end Shape

namespace Sound

theorem mem_iff (sound : Sound s C L) : block ∈ L.carved s ↔ block ∈ L.frees ∨ block ∈ L.live := by
  rw [← sound.carved.mem_iff, blocks, List.mem_append]

/-- **No block is free and live, and none is listed twice.** -/
theorem nodup (sound : Sound s C L) : L.blocks.Nodup :=
  sound.carved.nodup_iff.mpr sound.carved_nodup

end Sound

/-! ### The operations -/

theorem empty_sound (size : 0 < s) : Sound s C empty :=
  ⟨⟨size, by simp [empty], by simp [empty], by simp [empty], by simp [empty]⟩, .refl _⟩

/-- **A fresh chunk behind a full head.** -/
theorem Shape.grow (shape : Shape s C L) (full : L.full s C = true) (new : Fresh C L fresh) :
    Shape s C (L.grow fresh) := by
  refine ⟨shape.size, ?_, ?_, ?_, ?_⟩
  · intro c member
    rcases List.mem_cons.mp member with rfl | old
    · exact ⟨new.some, new.space⟩
    · exact shape.space c old
  · exact List.pairwise_cons.mpr ⟨new.apart, shape.apart⟩
  · intro c member
    rcases List.mem_cons.mp member with rfl | old
    · exact Nat.zero_le _
    · exact shape.bound c old
  · -- the old head is full, the others were already
    intro c member
    change c ∈ L.chunks at member
    have spent := shape.spent
    unfold Layout.full at full
    cases chunks : L.chunks with
    | nil =>
      rw [chunks] at member
      cases member
    | cons head rest =>
      rw [chunks] at member full spent
      rcases List.mem_cons.mp member with rfl | old
      · exact of_decide_eq_true full
      · exact spent c old

/-- **One more block of the head chunk.** -/
theorem Shape.carve (shape : Shape s C L) {c : Chunk} {rest : List Chunk}
    (head : L.chunks = c :: rest) (room : c.count < capacity s C) : Shape s C (L.carve s).2 := by
  obtain ⟨size, space, apart, bound, spent⟩ := shape
  rw [head] at space apart bound spent
  unfold Layout.carve
  simp only [head]
  refine ⟨size, ?_, ?_, ?_, spent⟩
  · intro d member
    rcases List.mem_cons.mp member with rfl | old
    · exact space c List.mem_cons_self
    · exact space d (.tail _ old)
  · exact List.pairwise_cons.mpr ⟨(List.pairwise_cons.mp apart).1, (List.pairwise_cons.mp apart).2⟩
  · intro d member
    rcases List.mem_cons.mp member with rfl | old
    · exact room
    · exact bound d (.tail _ old)

/-- The blocks carved after one more. -/
theorem carved_carve {c : Chunk} {rest : List Chunk} (head : L.chunks = c :: rest) :
    ((L.carve s).2.carved s).Perm (blockAt s c.base c.count :: L.carved s) := by
  unfold Layout.carve Layout.carved
  have more : (Chunk.blocks s ⟨c.base, c.count + 1⟩)
      = Chunk.blocks s c ++ [blockAt s c.base c.count] := by
    unfold Chunk.blocks
    rw [List.range_succ, List.map_append]
    rfl
  simp only [head, List.flatMap_cons, more, List.append_assoc]
  exact List.perm_middle

/-- A head chunk that is not full has room. -/
theorem Shape.head_room (shape : Shape s C L) (room : L.full s C = false) :
    ∃ c rest, L.chunks = c :: rest ∧ c.count < capacity s C := by
  unfold Layout.full at room
  cases chunks : L.chunks with
  | nil =>
    rw [chunks] at room
    cases room
  | cons c rest =>
    rw [chunks] at room
    have bound := shape.bound c (by rw [chunks]; exact List.mem_cons_self)
    have other : c.count ≠ capacity s C := of_decide_eq_false room
    exact ⟨c, rest, rfl, by omega⟩

theorem grow_room (L : Layout) (fresh : Nat) (positive : 0 < capacity s C) :
    (L.grow fresh).full s C = false :=
  decide_eq_false (Nat.ne_of_lt positive)

theorem capacity_pos (size : 0 < s) (large : poolHeader + s ≤ C) : 0 < capacity s C :=
  Nat.div_pos (by omega) size

/-- The layout a block is carved from: with a fresh chunk if the head has no room. -/
def ready (s C fresh : Nat) (L : Layout) : Layout := if L.full s C then L.grow fresh else L

@[simp] theorem ready_frees (L : Layout) : (L.ready s C fresh).frees = L.frees := by
  unfold ready
  split <;> rfl

@[simp] theorem ready_live (L : Layout) : (L.ready s C fresh).live = L.live := by
  unfold ready
  split <;> rfl

/-- A fresh chunk has no blocks yet. -/
@[simp] theorem ready_carved (L : Layout) : (L.ready s C fresh).carved s = L.carved s := by
  unfold ready
  split <;> rfl

theorem Shape.ready (shape : Shape s C L) (large : poolHeader + s ≤ C)
    (new : L.full s C = true → Fresh C L fresh) :
    Shape s C (L.ready s C fresh) ∧ (L.ready s C fresh).full s C = false := by
  unfold Layout.ready
  cases full : L.full s C with
  | true => exact ⟨shape.grow full (new full), L.grow_room fresh (capacity_pos shape.size large)⟩
  | false => exact ⟨shape, full⟩

theorem carve_bases (L : Layout) : (L.carve s).2.bases = L.bases := by
  unfold Layout.carve bases
  split
  · rfl
  · rename_i c rest head
    rw [head]
    rfl

/-- **A chunk is added exactly when a block must be carved and there is no room.** -/
theorem take_bases (L : Layout) (s C fresh : Nat) : (L.take s C fresh).2.bases
    = if L.hungry s C then fresh :: L.bases else L.bases := by
  unfold Layout.take Layout.hungry
  cases frees : L.frees with
  | cons block rest => rfl
  | nil =>
    simp only [carve_bases, List.isEmpty_nil, Bool.true_and]
    split <;> rfl

/-- Only the first free block is taken. -/
theorem take_frees (L : Layout) (s C fresh : Nat) : (L.take s C fresh).2.frees = L.frees.tail := by
  unfold Layout.take
  cases frees : L.frees with
  | cons block rest => rfl
  | nil =>
    show ((L.ready s C fresh).carve s).2.frees = []
    unfold Layout.carve
    split <;> rw [ready_frees, frees]

/-- **What `take` does**: it serves a free block, or carves one from a head chunk with room. -/
theorem Shape.take_cases (shape : Shape s C L) (large : poolHeader + s ≤ C)
    (new : L.hungry s C = true → Fresh C L fresh) :
    (∃ block rest, L.frees = block :: rest ∧
      L.take s C fresh = (block, { L with frees := rest, live := block :: L.live })) ∨
    L.frees = [] ∧ Shape s C (L.ready s C fresh) ∧ ∃ c rest,
      (L.ready s C fresh).chunks = c :: rest ∧ c.count < capacity s C ∧
      L.take s C fresh = (blockAt s c.base c.count, ((L.ready s C fresh).carve s).2) := by
  unfold Layout.take
  cases frees : L.frees with
  | cons block rest => exact .inl ⟨block, rest, rfl, rfl⟩
  | nil =>
    have hungry : L.full s C = true → Fresh C L fresh := fun full =>
      new (by rw [Layout.hungry, frees, full]; rfl)
    obtain ⟨ready, room⟩ := shape.ready large hungry
    obtain ⟨c, rest, head, less⟩ := ready.head_room room
    refine .inr ⟨rfl, ready, c, rest, head, less, ?_⟩
    show (L.ready s C fresh).carve s = _
    rw [Layout.carve, head]

/-- `take` makes its block live. -/
theorem Shape.take_live (shape : Shape s C L) (large : poolHeader + s ≤ C)
    (new : L.hungry s C = true → Fresh C L fresh) :
    (L.take s C fresh).2.live = (L.take s C fresh).1 :: L.live := by
  rcases shape.take_cases large new with ⟨block, rest, _, took⟩ | ⟨_, _, c, rest, head, _, took⟩
  · rw [took]
  · rw [took, Layout.carve]
    simp only [head, ready_live]

/-- **`take` keeps the shape.** -/
theorem Shape.take (shape : Shape s C L) (large : poolHeader + s ≤ C)
    (new : L.hungry s C = true → Fresh C L fresh) : Shape s C (L.take s C fresh).2 := by
  rcases shape.take_cases large new with ⟨block, rest, _, took⟩ | ⟨_, ready, c, rest, head, less, took⟩
  · rw [took]
    exact { shape with }
  · rw [took]
    exact ready.carve head less

/-- **The blocks after `take`**: the same, or one more, which is carved. -/
theorem Shape.take_blocks (shape : Shape s C L) (large : poolHeader + s ≤ C)
    (new : L.hungry s C = true → Fresh C L fresh) :
    (L.take s C fresh).1 ∈ L.frees ∧ (L.take s C fresh).2.blocks.Perm L.blocks ∧
        (L.take s C fresh).2.chunks = L.chunks ∨
      L.frees = [] ∧ (L.take s C fresh).2.blocks.Perm ((L.take s C fresh).1 :: L.blocks) ∧
        ((L.take s C fresh).2.carved s).Perm ((L.take s C fresh).1 :: L.carved s) := by
  rcases shape.take_cases large new with
    ⟨block, rest, frees, took⟩ | ⟨frees, _, c, rest, head, _, took⟩
  · rw [took]
    refine .inl ⟨by rw [frees]; exact List.mem_cons_self, ?_, rfl⟩
    unfold blocks
    rw [frees]
    exact List.perm_middle
  · rw [took]
    refine .inr ⟨frees, ?_, ?_⟩
    · have parts : ((L.ready s C fresh).carve s).2.blocks
          = L.frees ++ blockAt s c.base c.count :: L.live := by
        unfold blocks Layout.carve
        simp only [head, ready_frees, ready_live]
      rw [parts]
      exact List.perm_middle
    · have carved := carved_carve (s := s) head
      rwa [ready_carved] at carved

/-- **`take` keeps a layout sound.** -/
theorem Sound.take (sound : Sound s C L) (large : poolHeader + s ≤ C)
    (new : L.hungry s C = true → Fresh C L fresh) : Sound s C (L.take s C fresh).2 := by
  refine ⟨sound.toShape.take large new, ?_⟩
  rcases sound.toShape.take_blocks large new with ⟨_, blocks, chunks⟩ | ⟨_, blocks, carved⟩
  · refine (blocks.trans sound.carved).trans ?_
    unfold Layout.carved
    rw [chunks]
  · exact (blocks.trans (sound.carved.cons _)).trans carved.symm

/-- **`give` keeps a layout sound.** -/
theorem Sound.give (sound : Sound s C L) (live : block ∈ L.live) : Sound s C (L.give block) := by
  refine { sound with carved := ?_ }
  have back : (block :: L.live.erase block).Perm L.live := (List.perm_cons_erase live).symm
  show (block :: L.frees ++ L.live.erase block).Perm (L.carved s)
  exact (List.perm_middle.symm.trans (back.append_left L.frees)).trans sound.carved

/-! ### How many chunks -/

/-- The blocks of chunks that are full. -/
theorem full_blocks {chunks : List Chunk} (full : ∀ c ∈ chunks, c.count = capacity s C) :
    (chunks.flatMap (Chunk.blocks s)).length = chunks.length * capacity s C := by
  induction chunks with
  | nil => simp
  | cons c chunks ih =>
    rw [List.flatMap_cons, List.length_append, ih fun d member => full d (.tail _ member),
      Chunk.blocks, List.length_map, List.length_range, full c List.mem_cons_self, List.length_cons,
      Nat.add_one_mul, Nat.add_comm]

/-- **The blocks carved so far**: all of the older chunks, and the first ones of the newest. -/
theorem Shape.carved_length (shape : Shape s C L) {c : Chunk} {rest : List Chunk}
    (head : L.chunks = c :: rest) : (L.carved s).length = rest.length * capacity s C + c.count := by
  have full : ∀ d ∈ rest, d.count = capacity s C := by
    have spent := shape.spent
    rw [head] at spent
    exact spent
  unfold carved
  rw [head, List.flatMap_cons, List.length_append, full_blocks full, Chunk.blocks, List.length_map,
    List.length_range, Nat.add_comm]

/-- **As few chunks as hold the blocks**, if one was carved from each. -/
theorem Shape.chunks_length (shape : Shape s C L) (large : poolHeader + s ≤ C)
    (used : ∀ c ∈ L.chunks, 0 < c.count) : L.chunks.length = (L.carved s).length ⌈/⌉ capacity s C := by
  have positive := capacity_pos shape.size large
  rw [Nat.ceilDiv_eq_add_pred_div]
  cases head : L.chunks with
  | nil =>
    unfold carved
    rw [head, List.flatMap_nil, List.length_nil, List.length_nil, Nat.zero_add]
    exact (Nat.div_eq_of_lt (Nat.sub_lt positive Nat.one_pos)).symm
  | cons c rest =>
    have member : c ∈ L.chunks := by
      rw [head]
      exact List.mem_cons_self
    have some_ := used c member
    have bound := shape.bound c member
    rw [shape.carved_length head, List.length_cons]
    refine (Nat.div_eq_of_lt_le ?_ ?_).symm
    · rw [Nat.add_one_mul]
      omega
    · rw [Nat.add_one_mul, Nat.add_one_mul]
      omega

/-- A block is carved from every chunk that `take` leaves. -/
theorem Shape.take_used (shape : Shape s C L) (large : poolHeader + s ≤ C)
    (new : L.hungry s C = true → Fresh C L fresh) (used : ∀ c ∈ L.chunks, 0 < c.count) :
    ∀ c ∈ (L.take s C fresh).2.chunks, 0 < c.count := by
  rcases shape.take_cases large new with ⟨block, rest, _, took⟩ | ⟨_, _, c, rest, head, _, took⟩
  · rw [took]
    exact used
  · rw [took, Layout.carve]
    simp only [head]
    intro d member
    rcases List.mem_cons.mp member with rfl | old
    · exact Nat.succ_pos _
    · refine used d ?_
      unfold Layout.ready at head
      split at head
      · cases head
        exact old
      · rw [head]
        exact .tail _ old

end Layout

end NpAlloc.Pool
