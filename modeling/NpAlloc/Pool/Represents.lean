/-
**`tls_ps_pool` in memory does what its layout does.**

`Represents p mem L`: in `mem`, the chain from `head_` is the chunks of `L` with their `pool_curr`
after the blocks carved, and the chain from `free_` is the free blocks. It depends on the headers of
the chunks and on the links of the free blocks only (`Represents.frame`).

* **`alloc_represents`** — with a supply that gives a fresh chunk when one is needed, `alloc` returns
  the block `take` serves, and writes to headers of its own chunks only.
* **`dealloc_represents`** — `dealloc` of a block that meets nothing of the pool is `receive`, and
  writes to the link of the block only.
-/

import NpAlloc.General.Chain
import NpAlloc.Pool.Layout

set_option linter.unusedSectionVars false

namespace NpAlloc.Pool

/-- The pointer a word holds. -/
def toPtr (word : Nat) : Option Nat := if word = 0 then none else some word

/-- The link in the first word of a chunk or of a free block. -/
def linkOf (mem : Memory) (a : Nat) : Option Nat := toPtr (load mem a 8)

/-- **A pool in memory and its layout.** The free blocks need not be carved from its own chunks, but
they do not meet the headers of these. -/
structure Represents (p : PsPool) (mem : Memory) (L : Layout) : Prop where
  shape : L.Shape p.allocSize_ p.chunkSize_
  link : 8 ≤ p.allocSize_
  large : poolHeader + p.allocSize_ ≤ p.chunkSize_
  chain : Linked (linkOf mem) (toPtr p.head_) L.bases
  curr : ∀ c ∈ L.chunks, load mem (c.base + 8) 8 = blockAt p.allocSize_ c.base c.count
  free : Linked (linkOf mem) (toPtr p.free_) L.frees
  space : ∀ block ∈ L.frees, 0 < block ∧ block + p.allocSize_ < 2 ^ 64
  header : ∀ block ∈ L.frees, ∀ c ∈ L.chunks, Apart block p.allocSize_ c.base poolHeader
  links : L.frees.Pairwise fun block other => Apart block p.allocSize_ other p.allocSize_

/-- The bytes of a pool's memory that `Represents` reads. -/
def Footprint (L : Layout) (x : Nat) : Prop :=
  (∃ c ∈ L.chunks, Within c.base poolHeader x) ∨ ∃ block ∈ L.frees, Within block 8 x

variable {p : PsPool} {mem mem' : Memory} {L : Layout} {G : Type}

namespace Represents

/-- A new pool has nothing. -/
theorem new {s C : Nat} (link : 8 ≤ s) (large : poolHeader + s ≤ C) (mem : Memory) :
    Represents (.new s C) mem .empty := by
  refine ⟨(Layout.empty_sound (Nat.lt_of_lt_of_le (by decide) link)).toShape, link, large, rfl, ?_, rfl,
    ?_, ?_, .nil⟩
  all_goals exact fun _ member => absurd member List.not_mem_nil

/-- **A pool does not see what happens elsewhere.** -/
theorem frame (holds : Represents p mem L) (same : ∀ x, Footprint L x → mem' x = mem x) :
    Represents p mem' L := by
  have header : ∀ c ∈ L.chunks, SameOn mem mem' c.base poolHeader := fun c chunk x low high =>
    same x (.inl ⟨c, chunk, low, high⟩)
  refine { holds with chain := ?_, curr := ?_, free := ?_ }
  · refine holds.chain.congr fun base member => ?_
    obtain ⟨c, chunk, rfl⟩ := List.mem_map.mp member
    unfold linkOf
    rw [load_congr ((header c chunk).mono le_rfl (by unfold poolHeader; omega))]
  · intro c chunk
    rw [load_congr ((header c chunk).mono (by omega) (by unfold poolHeader; omega))]
    exact holds.curr c chunk
  · refine holds.free.congr fun block member => ?_
    unfold linkOf
    rw [load_congr fun x low high => same x (.inr ⟨block, member, low, high⟩)]

/-- The head pointer is the head chunk. -/
theorem head (holds : Represents p mem L) {c : Chunk} {rest : List Chunk}
    (head : L.chunks = c :: rest) : p.head_ = c.base := by
  have first := holds.chain.head_eq
  rw [Layout.bases, head] at first
  unfold toPtr at first
  split at first
  · cases first
  · exact Option.some.inj first

theorem head_null (holds : Represents p mem L) : p.head_ = 0 ↔ L.chunks = [] := by
  have first := holds.chain.head_eq
  unfold toPtr Layout.bases at first
  constructor
  · intro null
    rw [if_pos null] at first
    cases chunks : L.chunks with
    | nil => rfl
    | cons c rest =>
      rw [chunks] at first
      cases first
  · intro none_
    rw [none_] at first
    by_contra some_
    rw [if_neg some_] at first
    cases first

/-- The free pointer is the next free block. -/
theorem free_null (holds : Represents p mem L) : p.free_ = 0 ↔ L.frees = [] := by
  have first := holds.free.head_eq
  unfold toPtr at first
  constructor
  · intro null
    rw [if_pos null] at first
    cases frees : L.frees with
    | nil => rfl
    | cons block rest =>
      rw [frees] at first
      cases first
  · intro none_
    rw [none_] at first
    by_contra some_
    rw [if_neg some_] at first
    cases first

/-- The bytes `get_free_count()` finds between `pool_curr` and the end of the head chunk. -/
theorem freeSize_eq (holds : Represents p mem L) {c : Chunk} {rest : List Chunk}
    (head : L.chunks = c :: rest) :
    BitVec.ofNat 64 (p.getAllocEnd p.head_) - BitVec.ofNat 64 (load mem (p.head_ + 8) 8)
        = BitVec.ofNat 64 (p.chunkSize_ - 16 - c.count * p.allocSize_) ∧
      p.chunkSize_ - 16 - c.count * p.allocSize_ < 2 ^ 64 := by
  have member : c ∈ L.chunks := by rw [head]; exact List.mem_cons_self
  have space := holds.shape.space c member
  have bound := holds.shape.bound c member
  have used : c.count * p.allocSize_ ≤ p.chunkSize_ - poolHeader :=
    (Nat.mul_le_mul_right _ bound).trans (Nat.div_mul_le_self _ _)
  have large := holds.large
  unfold poolHeader at used large
  have end_ : p.getAllocEnd p.head_ = c.base + p.chunkSize_ := by
    rw [holds.head head, PsPool.getAllocEnd, Nat.mod_eq_of_lt space.2]
  refine ⟨?_, by omega⟩
  rw [end_, holds.head head, holds.curr c member]
  unfold blockAt poolHeader
  apply BitVec.eq_of_toNat_eq
  simp only [BitVec.toNat_sub, BitVec.toNat_ofNat]
  omega

/-- **`get_free_count()` counts the blocks left in the head chunk.** -/
theorem getFreeCount_eq (holds : Represents p mem L) (small : p.chunkSize_ < 2 ^ 63) {c : Chunk}
    {rest : List Chunk} (head : L.chunks = c :: rest) :
    p.getFreeCount mem = capacity p.allocSize_ p.chunkSize_ - c.count := by
  obtain ⟨word, _⟩ := holds.freeSize_eq head
  have left : (BitVec.ofNat 64 (p.chunkSize_ - 16 - c.count * p.allocSize_)).toInt
      = (p.chunkSize_ - 16 - c.count * p.allocSize_ : Nat) := by
    rw [BitVec.toInt_eq_toNat_of_lt, BitVec.toNat_ofNat, Nat.mod_eq_of_lt (by omega)]
    rw [BitVec.toNat_ofNat, Nat.mod_eq_of_lt (by omega)]
    omega
  have quotient : (p.chunkSize_ - 16 - c.count * p.allocSize_) / p.allocSize_
      = capacity p.allocSize_ p.chunkSize_ - c.count := by
    unfold capacity poolHeader
    rw [Nat.mul_comm c.count, Nat.sub_mul_div]
  unfold PsPool.getFreeCount
  simp only [word, left, Int.toNat_natCast, quotient]
  split
  · rename_i none_
    have zero : p.chunkSize_ - 16 - c.count * p.allocSize_ = 0 := by omega
    rw [zero, Nat.zero_div] at quotient
    exact quotient
  · rfl

/-- **A full head has no free blocks**, whatever the size of a chunk. -/
theorem getFreeCount_full (holds : Represents p mem L) {c : Chunk} {rest : List Chunk}
    (head : L.chunks = c :: rest) (full : c.count = capacity p.allocSize_ p.chunkSize_) :
    p.getFreeCount mem = 0 := by
  obtain ⟨word, fits⟩ := holds.freeSize_eq head
  have size := holds.shape.size
  have less : p.chunkSize_ - 16 - c.count * p.allocSize_ < p.allocSize_ := by
    have rest := Nat.mod_lt (p.chunkSize_ - 16) size
    have parts := Nat.div_add_mod (p.chunkSize_ - 16) p.allocSize_
    rw [full, capacity, poolHeader, Nat.mul_comm]
    omega
  have small : (BitVec.ofNat 64 (p.chunkSize_ - 16 - c.count * p.allocSize_)).toInt.toNat
      ≤ p.chunkSize_ - 16 - c.count * p.allocSize_ := by
    rw [BitVec.toInt_eq_toNat_cond, BitVec.toNat_ofNat, Nat.mod_eq_of_lt fits]
    split <;> omega
  unfold PsPool.getFreeCount
  simp only [word]
  split
  · rfl
  · exact Nat.div_eq_of_lt (Nat.lt_of_le_of_lt small less)

/-- **The test of `alloc_from_local_pool`.** -/
theorem full_iff (holds : Represents p mem L) (small : p.chunkSize_ < 2 ^ 63) :
    (p.head_ = 0 ∨ p.getFreeCount mem = 0) ↔ L.full p.allocSize_ p.chunkSize_ = true := by
  unfold Layout.full
  cases chunks : L.chunks with
  | nil => simp [holds.head_null.mpr chunks]
  | cons c rest =>
    have bound := holds.shape.bound c (by rw [chunks]; exact List.mem_cons_self)
    have some_ : p.head_ ≠ 0 := fun null => by
      rw [holds.head_null.mp null] at chunks
      cases chunks
    rw [holds.getFreeCount_eq small chunks]
    simp only [some_, false_or, decide_eq_true_eq]
    omega

/-- A full head fails the test. -/
theorem test_of_full (holds : Represents p mem L) (full : L.full p.allocSize_ p.chunkSize_ = true) :
    p.head_ = 0 ∨ p.getFreeCount mem = 0 := by
  unfold Layout.full at full
  cases chunks : L.chunks with
  | nil => exact .inl (holds.head_null.mpr chunks)
  | cons c rest =>
    rw [chunks] at full
    exact .inr (holds.getFreeCount_full chunks (of_decide_eq_true full))

/-- **The test where a fresh chunk is at hand**, whatever the size of a chunk: two chunks of `2 ^ 63`
bytes do not fit into the address space. -/
theorem test_iff (holds : Represents p mem L)
    (new : (p.head_ = 0 ∨ p.getFreeCount mem = 0) → ∃ fresh, L.Fresh p.chunkSize_ fresh) :
    (p.head_ = 0 ∨ p.getFreeCount mem = 0) ↔ L.full p.allocSize_ p.chunkSize_ = true := by
  constructor
  · intro test
    cases chunks : L.chunks with
    | nil =>
      unfold Layout.full
      rw [chunks]
    | cons c rest =>
      have member : c ∈ L.chunks := by rw [chunks]; exact List.mem_cons_self
      obtain ⟨fresh, some_, space, apart⟩ := new test
      have space' := holds.shape.space c member
      have away := apart c member
      have small : p.chunkSize_ < 2 ^ 63 := by
        unfold Apart at away
        omega
      exact (holds.full_iff small).mp test
  · exact holds.test_of_full

theorem starved_of_hungry (holds : Represents p mem L)
    (hungry : L.hungry p.allocSize_ p.chunkSize_ = true) : p.Starved mem := by
  unfold Layout.hungry at hungry
  rw [Bool.and_eq_true, List.isEmpty_iff] at hungry
  exact ⟨holds.free_null.mpr hungry.1, holds.test_of_full hungry.2⟩

/-- **A pool needs a chunk exactly when its layout does**, where a fresh chunk is at hand. -/
theorem starved_iff_of_fresh (holds : Represents p mem L)
    (new : p.Starved mem → ∃ fresh, L.Fresh p.chunkSize_ fresh) :
    p.Starved mem ↔ L.hungry p.allocSize_ p.chunkSize_ = true := by
  refine ⟨fun starved => ?_, holds.starved_of_hungry⟩
  have full := (holds.test_iff fun _ => new starved).mp starved.2
  rw [Layout.hungry, Bool.and_eq_true, List.isEmpty_iff]
  exact ⟨holds.free_null.mp starved.1, full⟩

/-- **A pool needs a chunk exactly when its layout does.** -/
theorem starved_iff (holds : Represents p mem L) (small : p.chunkSize_ < 2 ^ 63) :
    p.Starved mem ↔ L.hungry p.allocSize_ p.chunkSize_ = true := by
  unfold PsPool.Starved Layout.hungry
  rw [holds.free_null, holds.full_iff small, Bool.and_eq_true, List.isEmpty_iff]

end Represents

/-! ### The steps of `alloc` -/

/-- The headers of the chunks. -/
def Headers (L : Layout) (x : Nat) : Prop := ∃ base ∈ L.bases, Within base poolHeader x

/-- A fresh chunk meets nothing the pool reads, if it has no free blocks. -/
theorem Represents.fresh_unread (holds : Represents p mem L) (none_ : L.frees = []) {fresh x : Nat}
    (new : Layout.Fresh p.chunkSize_ L fresh) (inside : Within fresh poolHeader x) :
    ¬ Footprint L x := by
  have large := holds.large
  rintro (⟨c, chunk, within⟩ | ⟨block, free, _⟩)
  · have apart := new.apart c chunk
    unfold poolHeader at large
    unfold Apart at apart
    unfold Within poolHeader at inside within
    omega
  · rw [none_] at free
    cases free

/-- **A fresh chunk is linked in front.** -/
theorem Represents.grow (holds : Represents p mem L) (none_ : L.frees = []) {fresh : Nat}
    (full : L.full p.allocSize_ p.chunkSize_ = true) (new : Layout.Fresh p.chunkSize_ L fresh) :
    Represents { p with head_ := fresh }
      (store (store mem (fresh + 8) 8 (fresh + poolHeader)) fresh 8 p.head_) (L.grow fresh) ∧
    Outside (Within fresh poolHeader) mem
      (store (store mem (fresh + 8) 8 (fresh + poolHeader)) fresh 8 p.head_) := by
  have space := new.space
  have head : p.head_ < 256 ^ 8 := by
    cases chunks : L.chunks with
    | nil =>
      rw [holds.head_null.mpr chunks]
      decide
    | cons c rest =>
      have space := holds.shape.space c (by rw [chunks]; exact List.mem_cons_self)
      rw [holds.head chunks]
      omega
  have large := holds.large
  have written : Outside (Within fresh poolHeader) mem
      (store (store mem (fresh + 8) 8 (fresh + poolHeader)) fresh 8 p.head_) := by
    unfold poolHeader
    refine .trans ((store_outside mem (fresh + 8) 8 _).mono fun x member => ?_)
      ((store_outside _ fresh 8 _).mono fun x member => ?_) <;>
    · unfold Within at member ⊢
      omega
  have old : Represents p (store (store mem (fresh + 8) 8 (fresh + poolHeader)) fresh 8 p.head_) L :=
    holds.frame fun x member => written x fun inside => holds.fresh_unread none_ new inside member
  have first : linkOf (store (store mem (fresh + 8) 8 (fresh + poolHeader)) fresh 8 p.head_) fresh
      = toPtr p.head_ := by
    unfold linkOf
    rw [load_store head]
  refine ⟨{ old with
    shape := holds.shape.grow full new
    chain := ⟨?_, ?_⟩
    curr := ?_
    header := fun block free => ?_ }, written⟩
  · exact if_neg (Nat.ne_of_gt new.some)
  · rw [first]
    exact old.chain
  · intro c member
    rcases List.mem_cons.mp member with rfl | before
    · show load _ (fresh + 8) 8 = blockAt p.allocSize_ fresh 0
      rw [load_store_apart (.inl le_rfl), load_store (by unfold poolHeader at large ⊢; omega)]
      simp [blockAt]
    · exact old.curr c before
  · change block ∈ L.frees at free
    rw [none_] at free
    cases free

/-- **A block is carved from the head chunk.** -/
theorem Represents.carve {w : World G} (holds : Represents p w.mem L) (none_ : L.frees = [])
    {c : Chunk} {rest : List Chunk} (head : L.chunks = c :: rest)
    (room : c.count < capacity p.allocSize_ p.chunkSize_) :
    (p.carve w).1 = blockAt p.allocSize_ c.base c.count ∧
      Represents p (p.carve w).2.mem (L.carve p.allocSize_).2 ∧
      Outside (Headers L) w.mem (p.carve w).2.mem := by
  have shape := holds.shape
  have member : c ∈ L.chunks := by rw [head]; exact List.mem_cons_self
  have ptr : load w.mem (p.head_ + 8) 8 = blockAt p.allocSize_ c.base c.count := by
    rw [holds.head head]
    exact holds.curr c member
  have space := (shape.space c member).2
  have fits := Layout.blockAt_fits c.base room
  have next : (blockAt p.allocSize_ c.base c.count + p.allocSize_) % 2 ^ 64
      = blockAt p.allocSize_ c.base (c.count + 1) := by
    rw [Nat.mod_eq_of_lt (by omega), blockAt, blockAt, Nat.add_one_mul]
    omega
  have written : (p.carve w).2.mem
      = store w.mem (c.base + 8) 8 (blockAt p.allocSize_ c.base (c.count + 1)) := by
    unfold PsPool.carve
    simp only [ptr, next]
    rw [holds.head head]
  have outside := store_outside w.mem (c.base + 8) 8 (blockAt p.allocSize_ c.base (c.count + 1))
  have frees : (L.carve p.allocSize_).2.frees = [] := by
    simp only [Layout.carve, head, none_]
  refine ⟨ptr, ?_, ?_⟩
  · rw [written]
    refine ⟨shape.carve head room, holds.link, holds.large, ?_, ?_, ?_, ?_, ?_, ?_⟩
    · rw [Layout.carve_bases]
      refine holds.chain.congr fun base chunk => ?_
      obtain ⟨d, found, rfl⟩ := List.mem_map.mp chunk
      unfold linkOf
      rw [load_store_apart]
      rcases shape.chunks_apart member found with rfl | apart
      · exact .inr le_rfl
      · have large := holds.large
        unfold Apart poolHeader at *
        omega
    · intro d found
      simp only [Layout.carve, head, List.mem_cons] at found
      rcases found with rfl | old
      · exact load_store (by
          rw [← next]
          exact Nat.mod_lt _ (by decide))
      · have chunk : d ∈ L.chunks := by rw [head]; exact .tail _ old
        have apart := shape.apart
        rw [head] at apart
        have apart := (List.pairwise_cons.mp apart).1 d old
        rw [load_store_apart, holds.curr d chunk]
        have large := holds.large
        unfold Apart poolHeader at *
        omega
    · have free := holds.free
      rw [none_] at free
      rw [frees]
      exact Linked.nil_iff.mpr (Linked.nil_iff.mp free)
    all_goals rw [frees]
    · exact fun block free => absurd free List.not_mem_nil
    · exact fun block free => absurd free List.not_mem_nil
    · exact .nil
  · rw [written]
    refine outside.mono fun x inside => ⟨c.base, List.mem_map_of_mem member, ?_⟩
    unfold Within poolHeader at *
    omega

/-- **A free block is served.** -/
theorem Represents.reuse (holds : Represents p mem L) {block : Nat} {rest : List Nat}
    (live : List Nat) (free : L.frees = block :: rest) :
    p.free_ = block ∧ Represents { p with free_ := load mem block 8 } mem
      { L with frees := rest, live := live } := by
  obtain ⟨shape, link, large, chain, curr, linked, space, header, links⟩ := holds
  rw [free] at linked space header links
  obtain ⟨first, tail⟩ := linked
  refine ⟨?_, { shape with }, link, large, chain, curr, tail, ?_, ?_, ?_⟩
  · unfold toPtr at first
    split at first
    · cases first
    · exact Option.some.inj first
  · exact fun other member => space other (.tail _ member)
  · exact fun other member => header other (.tail _ member)
  · exact (List.pairwise_cons.mp links).2

/-! ### `alloc` and `dealloc` -/

theorem headers_carve (s : Nat) : Headers (L.carve s).2 = Headers L := by
  unfold Headers
  rw [Layout.carve_bases]

/-- **`alloc_from_local_pool` makes the layout ready to carve.** -/
theorem ready_represents {w : World G} {supply : Supply G} {fresh : Nat} {global : G}
    (holds : Represents p w.mem L) (none_ : L.frees = [])
    (granted : (p.head_ = 0 ∨ p.getFreeCount w.mem = 0) →
      supply w.global = .ok (fresh, global) ∧ Layout.Fresh p.chunkSize_ L fresh) :
    ∃ head w', (if p.head_ = 0 ∨ p.getFreeCount w.mem = 0 then p.allocFromGlobal supply w
        else pure (p, w)) = .ok ({ p with head_ := head }, w') ∧
      Represents { p with head_ := head } w'.mem (L.ready p.allocSize_ p.chunkSize_ fresh) ∧
      w'.global = (if L.full p.allocSize_ p.chunkSize_ then global else w.global) ∧
      Outside (Headers (L.ready p.allocSize_ p.chunkSize_ fresh)) w.mem w'.mem := by
  have test := holds.test_iff fun test => ⟨fresh, (granted test).2⟩
  rw [test] at granted
  simp only [test]
  unfold Layout.ready
  cases full : L.full p.allocSize_ p.chunkSize_ with
  | true =>
    obtain ⟨answer, new⟩ := granted full
    obtain ⟨grown, outside⟩ := holds.grow none_ full new
    have some_ : fresh ≠ 0 := Nat.ne_of_gt new.some
    refine ⟨fresh, ⟨_, global⟩, ?_, grown, rfl, ?_⟩
    · unfold PsPool.allocFromGlobal
      rw [if_pos rfl, answer]
      simp only [bind, Except.bind, if_neg some_]
      rfl
    · exact outside.mono fun x inside => ⟨fresh, List.mem_cons_self, inside⟩
  | false =>
    exact ⟨p.head_, w, if_neg Bool.false_ne_true, holds, rfl, .refl _ _⟩

/-- `alloc_from_local_pool` carves from the pool it has made ready. -/
theorem PsPool.allocFromLocalPool_eq {supply : Supply G} {p' : PsPool} {w w' : World G}
    (prepared : (if p.head_ = 0 ∨ p.getFreeCount w.mem = 0 then p.allocFromGlobal supply w
      else pure (p, w)) = .ok (p', w')) :
    p.allocFromLocalPool supply w = .ok ((p'.carve w').1, p', (p'.carve w').2) := by
  unfold PsPool.allocFromLocalPool
  dsimp only
  split at prepared
  · rename_i full
    rw [if_pos full, prepared]
    rfl
  · rename_i room
    rw [if_neg room, prepared]
    rfl

/-- **`alloc` serves the block its layout takes.** -/
theorem alloc_represents (supply : Supply G) (fresh : Nat) (global : G) {w : World G}
    (holds : Represents p w.mem L)
    (granted : p.Starved w.mem →
      supply w.global = .ok (fresh, global) ∧ Layout.Fresh p.chunkSize_ L fresh) :
    ∃ p' w', p.alloc supply w = .ok ((L.take p.allocSize_ p.chunkSize_ fresh).1, p', w') ∧
      Represents p' w'.mem (L.take p.allocSize_ p.chunkSize_ fresh).2 ∧
      (p'.allocSize_ = p.allocSize_ ∧ p'.chunkSize_ = p.chunkSize_ ∧
        p'.allocated_ = p.allocated_ + 1) ∧
      w'.global = (if L.hungry p.allocSize_ p.chunkSize_ then global else w.global) ∧
      Outside (Headers (L.take p.allocSize_ p.chunkSize_ fresh).2) w.mem w'.mem := by
  have new : L.hungry p.allocSize_ p.chunkSize_ = true → Layout.Fresh p.chunkSize_ L fresh :=
    fun hungry => (granted (holds.starved_of_hungry hungry)).2
  unfold PsPool.alloc
  rcases holds.shape.take_cases holds.large new with
    ⟨block, rest, frees, took⟩ | ⟨frees, _, c, rest, head, less, took⟩
  · obtain ⟨next, after⟩ := holds.reuse (block :: L.live) frees
    have some_ : block ≠ 0 := by
      have space := holds.space block (by rw [frees]; exact List.mem_cons_self)
      omega
    have fed : L.hungry p.allocSize_ p.chunkSize_ = false := by
      rw [Layout.hungry, frees]
      rfl
    rw [took, fed]
    refine ⟨{ p with free_ := load w.mem block 8, allocated_ := p.allocated_ + 1 }, w, ?_,
      { after with }, ⟨rfl, rfl, rfl⟩, rfl, .refl _ _⟩
    simp only [next, some_, ne_eq, not_false_eq_true, if_true, pure_bind, if_false]
    rfl
  · have same : L.hungry p.allocSize_ p.chunkSize_ = L.full p.allocSize_ p.chunkSize_ := by
      rw [Layout.hungry, frees]
      rfl
    rw [same]
    have null := holds.free_null.mpr frees
    obtain ⟨head_, w', prepared, ready, kept, first⟩ :=
      ready_represents holds frees fun test => granted ⟨null, test⟩
    have frees' : (L.ready p.allocSize_ p.chunkSize_ fresh).frees = [] := by
      rw [Layout.ready_frees, frees]
    obtain ⟨block, after, second⟩ := ready.carve frees' head less
    have some_ : blockAt p.allocSize_ c.base c.count ≠ 0 := by
      have space := ready.shape.space c (by rw [head]; exact List.mem_cons_self)
      unfold blockAt
      omega
    rw [took]
    refine ⟨{ p with head_ := head_, allocated_ := p.allocated_ + 1 },
      (PsPool.carve { p with head_ := head_ } w').2, ?_, { after with }, ⟨rfl, rfl, rfl⟩, kept, ?_⟩
    · have local_ := PsPool.allocFromLocalPool_eq prepared
      rw [block] at local_
      simp only [null, ne_eq, not_true_eq_false, if_false, local_, bind, Except.bind, some_]
      rfl
    · rw [headers_carve]
      exact first.trans second

/-- A block that may be freed to the pool. -/
structure Returnable (p : PsPool) (L : Layout) (block : Nat) : Prop where
  space : 0 < block ∧ block + p.allocSize_ < 2 ^ 64
  header : ∀ c ∈ L.chunks, Apart block p.allocSize_ c.base poolHeader
  links : ∀ other ∈ L.frees, Apart block p.allocSize_ other p.allocSize_

/-- **`dealloc` receives the block.** -/
theorem dealloc_represents (holds : Represents p mem L) {block : Nat}
    (returnable : Returnable p L block) :
    Represents (p.dealloc mem block).1 (p.dealloc mem block).2 (L.receive block) ∧
      Outside (Within block 8) mem (p.dealloc mem block).2 := by
  have outside : Outside (Within block 8) mem (p.dealloc mem block).2 :=
    store_outside mem block 8 p.free_
  have link := holds.link
  have old : Represents p (p.dealloc mem block).2 L := by
    refine holds.frame fun x member => outside x fun inside => ?_
    rcases member with ⟨c, chunk, within⟩ | ⟨other, free, within⟩
    · have apart := returnable.header c chunk
      unfold Apart at apart
      unfold Within at inside within
      omega
    · have apart := returnable.links other free
      unfold Apart at apart
      unfold Within at inside within
      omega
  have free : p.free_ < 256 ^ 8 := by
    cases frees : L.frees with
    | nil =>
      rw [holds.free_null.mpr frees]
      decide
    | cons first rest =>
      obtain ⟨same, _⟩ := holds.reuse [] frees
      have space := holds.space first (by rw [frees]; exact List.mem_cons_self)
      omega
  have shape := old.shape
  refine ⟨{ old with
    shape := { shape with }
    free := ⟨?_, ?_⟩
    space := ?_
    header := ?_
    links := List.pairwise_cons.mpr ⟨returnable.links, old.links⟩ }, outside⟩
  · exact if_neg (Nat.ne_of_gt returnable.space.1)
  · unfold linkOf PsPool.dealloc
    rw [load_store free]
    exact old.free
  · intro other member
    rcases List.mem_cons.mp member with rfl | before
    · exact returnable.space
    · exact old.space other before
  · intro other member
    rcases List.mem_cons.mp member with rfl | before
    · exact returnable.header
    · exact old.header other before

/-- The live blocks of a layout do not matter to the memory. -/
theorem Represents.relabel (holds : Represents p mem L) (live : List Nat) :
    Represents p mem { L with live := live } :=
  { holds with shape := { holds.shape with } }

end NpAlloc.Pool
