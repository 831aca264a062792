/-
**Live blocks in the memory of the pools.**

A block is dressed by `alloc`: header, fence, user bytes, fence. `Housing` joins a family of pools to
the list of live blocks: each lies in a block of its class, or in a `malloc`ed region of its own; no two
meet; each still has its size and its fences, by which `dealloc` finds its way.

The pools may be those of one thread or of all of them: `cls` gives the class of a pool, and a block
records the pool that served it.

* **`Housing.alloc`**, **`Housing.malloc`**, **`Housing.dealloc`**, **`Housing.free`** — the operations
  keep it and change no byte of any other live block.
* **`ThreadPool.dealloc_pool`**, **`ThreadPool.dealloc_malloc`** — a block that is intact passes the
  checks of `dealloc` and goes back to its class, or to `free`.
-/

import NpAlloc.Pool.Family
import NpAlloc.Pool.ThreadPool

set_option linter.unusedSectionVars false

namespace NpAlloc.Pool

open Mmap (kDefaultChunkSize)

/-! ### Dressing a block -/

theorem runWrites_outside {P : Nat → Prop} {writes : List Write} {mem : Memory}
    (inside : ∀ write ∈ writes, ∀ x, Within write.address write.width x → P x) :
    Outside P mem (runWrites mem writes) := by
  induction writes generalizing mem with
  | nil => exact .refl P mem
  | cons write rest ih =>
    refine .trans ((store_outside mem _ _ write.value).mono (inside write List.mem_cons_self)) ?_
    exact ih fun other member => inside other (.tail _ member)

/-- The bytes of a block: header, fence, user bytes, fence. -/
def blockSize (bytes : Nat) : Nat := bytes + 64

/-- **A block that has its size and its fences.** -/
structure Intact (mem : Memory) (h bytes : Nat) : Prop where
  size : load mem h 8 = bytes
  fences : fencesHold mem (h + headerSize) bytes = true

/-- Where the second fence is, when the block fits into the address space. -/
theorem postPad_eq {h bytes : Nat} (fits : h + blockSize bytes < 2 ^ 64) :
    postPad (h + headerSize) bytes = h + 48 + bytes := by
  unfold blockSize at fits
  show (h + 32 + 16 + bytes) % 2 ^ 64 = _
  omega

theorem fencePadding_lt : ∀ i, fencePadding i < 256 ^ 8 := by decide

section Dress

variable {mem mem' : Memory} {h bytes : Nat} {info : Meta}

/-- The header is written before the fences are placed. -/
theorem dress_size (mem : Memory) (info : Meta) (fits : h + blockSize bytes < 2 ^ 64) :
    load (runWrites mem (headerWrites h bytes info)) h 8 = bytes := by
  unfold blockSize at fits
  unfold headerWrites runWrites
  simp only [List.foldl]
  rw [load_store_apart (.inr (by omega)), load_store_apart (.inr (by omega)),
    load_store_apart (.inr (by omega)), load_store (by omega)]

/-- **`alloc` writes inside the block.** -/
theorem dress_outside (fits : h + blockSize bytes < 2 ^ 64) :
    Outside (Within h (blockSize bytes)) mem (ThreadPool.dress mem h bytes info) := by
  have size := dress_size mem info fits
  have post := postPad_eq fits
  unfold ThreadPool.dress
  simp only [size]
  refine .trans (runWrites_outside fun write member x within => ?_)
    (runWrites_outside fun write member x within => ?_)
  · simp only [headerWrites, List.mem_cons, List.not_mem_nil, or_false] at member
    unfold Within blockSize at *
    rcases member with rfl | rfl | rfl | rfl <;> simp only at within <;> omega
  · simp only [fenceWrites, post, List.mem_cons, List.not_mem_nil, or_false] at member
    have header : headerSize = 32 := by decide
    rw [header] at member
    unfold Within blockSize at *
    rcases member with rfl | rfl | rfl | rfl <;> simp only at within <;> omega

/-- **A dressed block has its size and its fences.** -/
theorem dress_intact (fits : h + blockSize bytes < 2 ^ 64) :
    Intact (ThreadPool.dress mem h bytes info) h bytes := by
  have size := dress_size mem info fits
  have post := postPad_eq fits
  have header : headerSize = 32 := by decide
  rw [header] at post
  unfold ThreadPool.dress
  simp only [size, header]
  have padding := fencePadding_lt
  refine ⟨?_, decide_eq_true ⟨?_, ?_, ?_, ?_⟩⟩ <;>
    simp only [header, post, fenceWrites, runWrites, List.foldl]
  · rw [load_store_apart (.inr (by omega)), load_store_apart (.inr (by omega)),
      load_store_apart (.inr (by omega)), load_store_apart (.inr (by omega))]
    exact size
  · rw [load_store_apart (.inr (by omega)), load_store_apart (.inr (by omega)),
      load_store_apart (.inr (by omega)), load_store (padding 0)]
  · rw [load_store_apart (.inr (by omega)), load_store_apart (.inr (by omega)),
      load_store (padding 1)]
  · rw [load_store_apart (.inr (by omega)), load_store (padding 2)]
  · rw [load_store (padding 3)]

/-- **A block stays intact as long as its bytes outside the user's part do.** -/
theorem Intact.congr (intact : Intact mem h bytes) (fits : h + blockSize bytes < 2 ^ 64)
    (same : ∀ x, Within h (blockSize bytes) x → ¬ Within (h + 48) bytes x → mem' x = mem x) :
    Intact mem' h bytes := by
  obtain ⟨size, fences⟩ := intact
  have post := postPad_eq fits
  have header : headerSize = 32 := by decide
  unfold fencesHold at fences
  rw [header] at fences post
  rw [post] at fences
  obtain ⟨first, second, third, fourth⟩ := of_decide_eq_true fences
  have word : ∀ a, h ≤ a → a + 8 ≤ h + 48 ∨ h + 48 + bytes ≤ a → a + 8 ≤ h + blockSize bytes →
      load mem' a 8 = load mem a 8 := by
    intro a low apart high
    refine load_congr fun x here there => same x ⟨by omega, by omega⟩ fun user => ?_
    unfold Within at user
    omega
  unfold blockSize at word
  refine ⟨?_, ?_⟩
  · rw [word h le_rfl (.inl (by omega)) (by omega), size]
  · unfold fencesHold
    rw [header, post, word (h + 32) (by omega) (.inl (by omega)) (by omega),
      word (h + 32 + 8) (by omega) (.inl (by omega)) (by omega),
      word (h + 48 + bytes) (by omega) (.inr (by omega)) (by omega),
      word (h + 48 + bytes + 8) (by omega) (.inr (by omega)) (by omega)]
    exact decide_eq_true ⟨first, second, third, fourth⟩

end Dress

/-- A request within bounds does not wrap. -/
theorem widened_eq {bytes : Nat} (bound : bytes ≤ 2 ^ 64 - 65) : widened bytes = blockSize bytes := by
  unfold widened blockSize
  have header : headerSize = 32 := by decide
  rw [header]
  omega

/-! ### `dealloc` of an intact block -/

namespace ThreadPool

variable {mem : Memory} {base bytes : Nat} {build : Build} {t : ThreadPool}

theorem dealloc_pool (build : Build) (t : ThreadPool) (intact : Intact mem base bytes)
    (fits : base + blockSize bytes < 2 ^ 64) (small : blockSize bytes ≤ maxAllocSize getAllocSizeList) :
    t.dealloc build mem (base + 48) = .ok (.pool (classOf (blockSize bytes)),
      t.set (classOf (blockSize bytes)) ((t.tlsPool (classOf (blockSize bytes))).dealloc mem base).1,
      ((t.tlsPool (classOf (blockSize bytes))).dealloc mem base).2) := by
  obtain ⟨size, fences⟩ := intact
  have width : widened bytes = blockSize bytes := widened_eq (by unfold blockSize at fits; omega)
  have start : base + 48 - headerSize - 16 = base := by
    have header : headerSize = 32 := by decide
    omega
  unfold dealloc
  simp only [start, size, fences, width, Bool.true_eq_false, and_false, if_false, if_pos small]

theorem dealloc_malloc (build : Build) (t : ThreadPool) (intact : Intact mem base bytes)
    (fits : base + blockSize bytes < 2 ^ 64) (large : maxAllocSize getAllocSizeList < blockSize bytes) :
    t.dealloc build mem (base + 48) = .ok (.malloc base, t, mem) := by
  obtain ⟨size, fences⟩ := intact
  have width : widened bytes = blockSize bytes := widened_eq (by unfold blockSize at fits; omega)
  have start : base + 48 - headerSize - 16 = base := by
    have header : headerSize = 32 := by decide
    omega
  unfold dealloc
  simp only [start, size, fences, width, Bool.true_eq_false, and_false, if_false,
    if_neg (Nat.not_le.mpr large)]

end ThreadPool

/-! ### Live blocks -/

/-- A live block. -/
structure Block (ι : Type) where
  ptr : Nat
  bytes : Nat
  origin : Origin ι
deriving DecidableEq

variable {ι : Type} [DecidableEq ι]

/-- Where the block of a user pointer starts. -/
def Block.base (b : Block ι) : Nat := b.ptr - headerSize - 16

theorem Block.base_mk (base bytes : Nat) (origin : Origin ι) :
    (⟨base + 48, bytes, origin⟩ : Block ι).base = base := by
  show base + 48 - 32 - 16 = base
  omega

/-- **Where a live block lies**: in a block of its class, or in a region of its own. -/
def Housed (cls : ι → SizeClass) (layout : ι → Layout) (b : Block ι) : Prop :=
  match b.origin with
  | .pool i => b.base ∈ (layout i).live ∧ cls i = classOf (blockSize b.bytes) ∧
      blockSize b.bytes ≤ maxAllocSize getAllocSizeList
  | .malloc p => b.base = p ∧ maxAllocSize getAllocSizeList < blockSize b.bytes ∧
      Away kDefaultChunkSize layout b.base (blockSize b.bytes)

/-- **The live blocks of a family.** -/
structure Housing (cls : ι → SizeClass) (pools : ι → PsPool) (layout : ι → Layout) (mem : Memory)
    (live : List (Block ι)) : Prop where
  family : Family kDefaultChunkSize pools layout mem
  size : ∀ i, (pools i).allocSize_ = classSize (cls i)
  shape : ∀ b ∈ live, b.ptr = b.base + 48 ∧ b.base + blockSize b.bytes < 2 ^ 64
  housed : ∀ b ∈ live, Housed cls layout b
  listed : ∀ i, ∀ base ∈ (layout i).live, ∃ b ∈ live, b.base = base ∧ b.origin = .pool i
  apart : live.Pairwise fun b c => Apart b.base (blockSize b.bytes) c.base (blockSize c.bytes)
  intact : ∀ b ∈ live, Intact mem b.base b.bytes

/-- An interval that meets nothing in use. -/
def Unused (layout : ι → Layout) (live : List (Block ι)) (a n : Nat) : Prop :=
  Away kDefaultChunkSize layout a n ∧ ∀ b ∈ live, Apart a n b.base (blockSize b.bytes)

variable {cls : ι → SizeClass} {pools : ι → PsPool} {layout : ι → Layout} {mem mem' : Memory}
  {live : List (Block ι)} {b c : Block ι} {i j : ι}

namespace Housing

/-- A block of a pool lies in a class block. -/
theorem in_pool (housing : Housing cls pools layout mem live) (member : b ∈ live)
    (origin : b.origin = .pool i) : b.base ∈ (layout i).live ∧
      cls i = classOf (blockSize b.bytes) ∧ blockSize b.bytes ≤ maxAllocSize getAllocSizeList ∧
      blockSize b.bytes ≤ (pools i).allocSize_ := by
  have housed := housing.housed b member
  unfold Housed at housed
  rw [origin] at housed
  obtain ⟨live, class_, small⟩ := housed
  have fits := classOf_fits small
  rw [← class_, ← housing.size] at fits
  exact ⟨live, class_, small, fits⟩

/-- **A live block is no part of what the pools read.** -/
theorem unread (housing : Housing cls pools layout mem live) (member : b ∈ live) {x : Nat}
    (within : Within b.base (blockSize b.bytes) x) (j : ι) : ¬ Footprint (layout j) x := by
  cases origin : b.origin with
  | pool i =>
    obtain ⟨here, _, _, fits⟩ := housing.in_pool member origin
    refine housing.family.live_unread here ?_ j
    unfold Within at within ⊢
    omega
  | malloc p =>
    have housed := housing.housed b member
    unfold Housed at housed
    rw [origin] at housed
    exact fun read => housed.2.2.not_territory within (housing.family.footprint_territory read)

/-- Different live blocks do not meet. -/
theorem blocks_apart (housing : Housing cls pools layout mem live) (first : b ∈ live)
    (second : c ∈ live) (different : b ≠ c) :
    Apart b.base (blockSize b.bytes) c.base (blockSize c.bytes) := by
  have : Std.Symm fun b c : Block ι =>
      Apart b.base (blockSize b.bytes) c.base (blockSize c.bytes) := ⟨fun _ _ apart => apart.symm⟩
  exact housing.apart.forall first second different

theorem nodup (housing : Housing cls pools layout mem live) : live.Nodup := by
  refine housing.apart.imp fun apart same => ?_
  rw [same] at apart
  unfold Apart blockSize at apart
  omega

theorem base_injective (housing : Housing cls pools layout mem live) (first : b ∈ live)
    (second : c ∈ live) (same : b.base = c.base) : b = c := by
  by_contra different
  have apart := housing.blocks_apart first second different
  rw [same] at apart
  unfold Apart blockSize at apart
  omega

/-- **A user pointer belongs to one live block.** -/
theorem find (housing : Housing cls pools layout mem live) (member : b ∈ live) :
    live.find? (fun c => c.ptr = b.ptr) = some b := by
  cases answer : live.find? (fun c => c.ptr = b.ptr) with
  | none =>
    have other := List.find?_eq_none.mp answer b member
    exact absurd (decide_eq_true rfl) other
  | some c =>
    have same : c.ptr = b.ptr := by simpa using List.find?_some answer
    rw [housing.base_injective (List.mem_of_find?_eq_some answer) member (by
      unfold Block.base
      rw [same])]

/-- **The frame rule**: what is no part of the pools and of the live blocks may change. -/
theorem frame (housing : Housing cls pools layout mem live) {P : Nat → Prop}
    (outside : Outside P mem mem') (unread : ∀ i x, Footprint (layout i) x → ¬ P x)
    (others : ∀ b ∈ live, ∀ x, Within b.base (blockSize b.bytes) x → ¬ P x) :
    Housing cls pools layout mem' live := by
  refine { housing with family := housing.family.frame outside unread, intact := fun b member => ?_ }
  exact (housing.intact b member).congr (housing.shape b member).2 fun x within _ =>
    outside x (others b member x within)

/-- The same blocks over another family with the same live ones. -/
theorem refamily (housing : Housing cls pools layout mem live) {pools' : ι → PsPool}
    {layout' : ι → Layout} (family : Family kDefaultChunkSize pools' layout' mem)
    (size : ∀ i, (pools' i).allocSize_ = (pools i).allocSize_)
    (same : ∀ i, (layout' i).live = (layout i).live)
    (bases : ∀ i, ∀ base ∈ (layout' i).bases, base ∈ (layout i).bases) :
    Housing cls pools' layout' mem live := by
  refine { housing with
    family := family
    size := fun i => (size i).trans (housing.size i)
    housed := fun b member => ?_
    listed := fun i base member => housing.listed i base (by rwa [same] at member) }
  have housed := housing.housed b member
  unfold Housed at housed ⊢
  split at housed
  · rw [same]
    exact housed
  · exact ⟨housed.1, housed.2.1, fun i base chunk => housed.2.2 i base (bases i base chunk)⟩

/-- New pools, without a block. -/
theorem init (cls : ι → SizeClass) (mem : Memory) :
    Housing cls (fun i => .new (classSize (cls i)) kDefaultChunkSize) (fun _ => .empty) mem [] := by
  have bounds := classSize_bounds
  refine ⟨⟨fun i => ?_, fun _ => rfl, by decide, ?_, ?_, fun _ => .nil, ?_⟩, fun _ => rfl, ?_, ?_, ?_,
    .nil, ?_⟩
  · have size := bounds (cls i)
    refine .new ?_ ?_ mem
    · omega
    · show 16 + classSize (cls i) ≤ 1048576
      omega
  · exact fun i j _ c member => absurd member List.not_mem_nil
  · exact fun i block member => absurd member List.not_mem_nil
  · exact fun i j _ block member => absurd member List.not_mem_nil
  · exact fun b member => absurd member List.not_mem_nil
  · exact fun b member => absurd member List.not_mem_nil
  · exact fun i block member => absurd member List.not_mem_nil
  · exact fun b member => absurd member List.not_mem_nil

/-! ### The operations -/

/-- A dressed block in front of the others. -/
theorem cons (housing : Housing cls pools layout mem live) {pools' : ι → PsPool}
    {layout' : ι → Layout} {base bytes : Nat} {origin : Origin ι} (info : Meta)
    (fits : base + blockSize bytes < 2 ^ 64)
    (family : Family kDefaultChunkSize pools' layout' mem')
    (size : ∀ i, (pools' i).allocSize_ = classSize (cls i))
    (housed : Housed cls layout' ⟨base + 48, bytes, origin⟩)
    (others : ∀ b ∈ live, Housed cls layout' b)
    (listed : ∀ i, ∀ block ∈ (layout' i).live, block ∈ (layout i).live ∨ block = base ∧ origin = .pool i)
    (apart : ∀ b ∈ live, Apart base (blockSize bytes) b.base (blockSize b.bytes))
    (unread : ∀ x, Within base (blockSize bytes) x → ∀ i, ¬ Footprint (layout' i) x)
    (same : ∀ b ∈ live, SameOn mem mem' b.base (blockSize b.bytes)) :
    Housing cls pools' layout' (ThreadPool.dress mem' base bytes info)
        (⟨base + 48, bytes, origin⟩ :: live) ∧
      ∀ b ∈ live, SameOn mem (ThreadPool.dress mem' base bytes info) b.base (blockSize b.bytes) := by
  have dressed : Outside (Within base (blockSize bytes)) mem' (ThreadPool.dress mem' base bytes info) :=
    dress_outside fits
  have start := Block.base_mk base bytes origin
  have kept : ∀ b ∈ live,
      SameOn mem (ThreadPool.dress mem' base bytes info) b.base (blockSize b.bytes) := fun b old =>
    (same b old).trans (dressed.sameOn fun x within => (apart b old).symm.not_within within)
  refine ⟨⟨?_, size, ?_, ?_, ?_, ?_, ?_⟩, kept⟩
  · exact family.frame dressed fun i x member within => unread x within i member
  · intro b member
    rcases List.mem_cons.mp member with rfl | old
    · rw [start]
      exact ⟨rfl, fits⟩
    · exact housing.shape b old
  · intro b member
    rcases List.mem_cons.mp member with rfl | old
    · exact housed
    · exact others b old
  · intro i block member
    rcases listed i block member with old | ⟨rfl, rfl⟩
    · obtain ⟨b, found, here⟩ := housing.listed i block old
      exact ⟨b, .tail _ found, here⟩
    · exact ⟨_, List.mem_cons_self, start, rfl⟩
  · refine List.pairwise_cons.mpr ⟨fun b old => ?_, housing.apart⟩
    rw [start]
    exact apart b old
  · intro b member
    rcases List.mem_cons.mp member with rfl | old
    · rw [start]
      exact dress_intact fits
    · exact (housing.intact b old).congr (housing.shape b old).2 fun x within _ =>
        kept b old x within.1 within.2

/-- **`alloc` from a pool.** -/
theorem alloc {G : Type} (supply : Supply G) (fresh : Nat) (global : G) {w : World G}
    (housing : Housing cls pools layout w.mem live) (i : ι) {bytes : Nat} (info : Meta)
    (class_ : cls i = classOf (blockSize bytes))
    (small : blockSize bytes ≤ maxAllocSize getAllocSizeList)
    (granted : (layout i).hungry (classSize (cls i)) kDefaultChunkSize = true →
      supply w.global = .ok (fresh, global) ∧ 0 < fresh ∧ fresh + kDefaultChunkSize < 2 ^ 64 ∧
        Unused layout live fresh kDefaultChunkSize) :
    ∃ base pool w' L, (layout i).take (classSize (cls i)) kDefaultChunkSize fresh = (base, L) ∧
      (pools i).alloc supply w = .ok (base, pool, w') ∧ base ≠ 0 ∧
      Housing cls (Function.update pools i pool) (Function.update layout i L)
        (ThreadPool.dress w'.mem base bytes info) (⟨base + 48, bytes, .pool i⟩ :: live) ∧
      (∀ b ∈ live, SameOn w.mem (ThreadPool.dress w'.mem base bytes info) b.base
        (blockSize b.bytes)) ∧
      w'.global = (if (layout i).hungry (classSize (cls i)) kDefaultChunkSize then global
        else w.global) ∧
      Outside (Territory kDefaultChunkSize (Function.update layout i L)) w.mem
        (ThreadPool.dress w'.mem base bytes info) := by
  have shape := housing.family.shape i
  have large := housing.family.large i
  rw [← housing.size i] at granted ⊢
  obtain ⟨pool, w', served, kept, family, global_, outside⟩ := housing.family.alloc supply fresh global i
    fun hungry => by
      obtain ⟨answer, some_, space, unused⟩ := granted hungry
      exact ⟨answer, some_, space, unused.1⟩
  have new : (layout i).hungry (pools i).allocSize_ kDefaultChunkSize = true →
      Layout.Fresh kDefaultChunkSize (layout i) fresh := fun hungry => by
    obtain ⟨_, some_, space, unused⟩ := granted hungry
    exact ⟨some_, space, fun c member => unused.1 i c.base (List.mem_map_of_mem member)⟩
  have bases := (layout i).take_bases (pools i).allocSize_ kDefaultChunkSize fresh
  have liveAfter := shape.take_live large new
  generalize (layout i).take (pools i).allocSize_ kDefaultChunkSize fresh = took at *
  obtain ⟨base, L⟩ := took
  have size : ∀ k, (Function.update pools i pool k).allocSize_ = classSize (cls k) := by
    intro k
    by_cases own : k = i
    · subst own
      rw [Function.update_self, kept, housing.size]
    · rw [Function.update_of_ne own, housing.size]
  have own : Function.update layout i L i = L := Function.update_self ..
  have other : ∀ k, k ≠ i → Function.update layout i L k = layout k := fun k different =>
    Function.update_of_ne different _ _
  have mine : base ∈ (Function.update layout i L i).live := by
    rw [own, liveAfter]
    exact List.mem_cons_self
  have fits : blockSize bytes ≤ (Function.update pools i pool i).allocSize_ := by
    rw [size, class_]
    exact classOf_fits small
  have space := family.carved_space (family.carved_live mine)
  -- what was housed before still is
  have others : ∀ b ∈ live, Housed cls (Function.update layout i L) b := by
    intro b old
    have housed := housing.housed b old
    unfold Housed at housed ⊢
    cases origin : b.origin with
    | pool j =>
      rw [origin] at housed
      refine ⟨?_, housed.2⟩
      by_cases same : j = i
      · subst same
        rw [own, liveAfter]
        exact .tail _ housed.1
      · rw [other j same]
        exact housed.1
    | malloc p =>
      rw [origin] at housed
      refine ⟨housed.1, housed.2.1, fun k c chunk => ?_⟩
      by_cases same : k = i
      · subst same
        rw [own, bases] at chunk
        split at chunk
        · rename_i hungry
          rcases List.mem_cons.mp chunk with rfl | older
          · exact ((granted hungry).2.2.2.2 b old).symm
          · exact housed.2.2 k c older
        · exact housed.2.2 k c chunk
      · rw [other k same] at chunk
        exact housed.2.2 k c chunk
  have apart : ∀ b ∈ live, Apart base (blockSize bytes) b.base (blockSize b.bytes) := by
    intro b old
    have housed := others b old
    unfold Housed at housed
    cases origin : b.origin with
    | pool j =>
      rw [origin] at housed
      have fits' := classOf_fits housed.2.2
      rw [← housed.2.1, ← size] at fits'
      refine (family.block_apart (List.mem_append_right _ mine) (List.mem_append_right _ housed.1)
        fun same => ?_).mono le_rfl (by omega) le_rfl (by omega)
      -- the block was not live before, since no block is live twice
      subst same
      rintro rfl
      have nodup := (family.once i).of_append_right
      rw [own, liveAfter] at nodup
      exact (List.nodup_cons.mp nodup).1 (housing.in_pool old origin).1
    | malloc p =>
      rw [origin] at housed
      obtain ⟨k, c, chunk, low, high⟩ := family.inside (family.carved_live mine)
      exact ((housed.2.2 k c chunk).mono le_rfl le_rfl (by omega) (by omega)).symm
  have unread : ∀ x, Within base (blockSize bytes) x → ∀ k,
      ¬ Footprint (Function.update layout i L k) x := by
    intro x within k
    refine family.live_unread mine ?_ k
    unfold Within at within ⊢
    omega
  have same : ∀ b ∈ live, SameOn w.mem w'.mem b.base (blockSize b.bytes) := by
    intro b old
    refine outside.sameOn fun x within headers => ?_
    have housed := others b old
    unfold Housed at housed
    cases origin : b.origin with
    | pool j =>
      rw [origin] at housed
      have fits' := classOf_fits housed.2.2
      rw [← housed.2.1, ← size] at fits'
      refine family.live_unread housed.1 ?_ i (by rw [own]; exact headers.footprint)
      unfold Within at within ⊢
      omega
    | malloc p =>
      rw [origin] at housed
      refine housed.2.2.not_territory within (family.footprint_territory (i := i) ?_)
      rw [own]
      exact headers.footprint
  have housed : Housed cls (Function.update layout i L) ⟨base + 48, bytes, .pool i⟩ := by
    refine ⟨?_, class_, small⟩
    rw [Block.base_mk]
    exact mine
  have listed : ∀ k, ∀ block ∈ (Function.update layout i L k).live,
      block ∈ (layout k).live ∨ block = base ∧ Origin.pool i = Origin.pool k := by
    intro k block member
    by_cases same : k = i
    · subst same
      rw [own, liveAfter] at member
      rcases List.mem_cons.mp member with rfl | old
      · exact .inr ⟨rfl, rfl⟩
      · exact .inl old
    · rw [other k same] at member
      exact .inl member
  obtain ⟨after, kept'⟩ := housing.cons info (by omega) family size housed others listed apart
    unread same
  refine ⟨base, pool, w', L, rfl, served, by omega, after, kept', global_, ?_⟩
  refine .trans (outside.mono fun x headers => ?_)
    ((dress_outside (by omega)).mono fun x within => ?_)
  · refine family.footprint_territory (i := i) ?_
    rw [own]
    exact headers.footprint
  · obtain ⟨k, c, chunk, low, high⟩ := family.inside (family.carved_live mine)
    refine ⟨k, c, chunk, ?_⟩
    unfold Within at within ⊢
    omega

/-- **`alloc` from `malloc`.** -/
theorem malloc (housing : Housing cls pools layout mem live) {ptr bytes : Nat} (info : Meta)
    (large : maxAllocSize getAllocSizeList < blockSize bytes)
    (fits : ptr + blockSize bytes < 2 ^ 64) (unused : Unused layout live ptr (blockSize bytes)) :
    Housing cls pools layout (ThreadPool.dress mem ptr bytes info)
        (⟨ptr + 48, bytes, .malloc ptr⟩ :: live) ∧
      (∀ b ∈ live, SameOn mem (ThreadPool.dress mem ptr bytes info) b.base (blockSize b.bytes)) ∧
      Outside (Within ptr (blockSize bytes)) mem (ThreadPool.dress mem ptr bytes info) := by
  have start := Block.base_mk ptr bytes (.malloc ptr : Origin ι)
  have housed : Housed cls layout ⟨ptr + 48, bytes, .malloc ptr⟩ :=
    ⟨start, large, by rw [start]; exact unused.1⟩
  obtain ⟨after, same⟩ := housing.cons info fits housing.family housing.size housed housing.housed
    (fun i block member => .inl member) unused.2
    (fun x within i read => unused.1.not_territory within (housing.family.footprint_territory read))
    (fun b _ => .refl _ _ _)
  exact ⟨after, same, dress_outside fits⟩

/-- The live blocks without one of them. -/
theorem erase (housing : Housing cls pools layout mem live) (member : b ∈ live)
    {pools' : ι → PsPool} {layout' : ι → Layout}
    (family : Family kDefaultChunkSize pools' layout' mem')
    (size : ∀ i, (pools' i).allocSize_ = classSize (cls i))
    (outside : Outside (Within b.base (blockSize b.bytes)) mem mem')
    (bases : ∀ i, (layout' i).bases = (layout i).bases)
    (lives : ∀ i, ∀ base, base ∈ (layout' i).live ↔
      base ∈ (layout i).live ∧ ¬ (base = b.base ∧ b.origin = .pool i)) :
    Housing cls pools' layout' mem' (live.erase b) ∧
      ∀ c ∈ live, c ≠ b → c ∈ live.erase b ∧ SameOn mem mem' c.base (blockSize c.bytes) := by
  have rest : ∀ c, c ∈ live.erase b ↔ c ≠ b ∧ c ∈ live := fun c => housing.nodup.mem_erase_iff
  have same : ∀ c ∈ live, c ≠ b → SameOn mem mem' c.base (blockSize c.bytes) :=
    fun c other different => outside.sameOn fun x within =>
      (housing.blocks_apart other member different).not_within within
  refine ⟨⟨family, size, ?_, ?_, ?_, housing.apart.sublist List.erase_sublist, ?_⟩,
    fun c other different => ⟨(rest c).mpr ⟨different, other⟩, same c other different⟩⟩
  · exact fun c found => housing.shape c ((rest c).mp found).2
  · intro c found
    obtain ⟨different, other⟩ := (rest c).mp found
    have housed := housing.housed c other
    unfold Housed at housed ⊢
    split at housed
    · refine ⟨(lives _ _).mpr ⟨housed.1, fun ⟨base, _⟩ => ?_⟩, housed.2⟩
      exact different (housing.base_injective other member base)
    · refine ⟨housed.1, housed.2.1, fun i base chunk => housed.2.2 i base ?_⟩
      rwa [bases] at chunk
  · intro i base found
    obtain ⟨before, other⟩ := (lives i base).mp found
    obtain ⟨c, here, start, origin⟩ := housing.listed i base before
    refine ⟨c, (rest c).mpr ⟨?_, here⟩, start, origin⟩
    rintro rfl
    exact other ⟨start.symm, origin⟩
  · intro c found
    obtain ⟨different, other⟩ := (rest c).mp found
    exact (housing.intact c other).congr (housing.shape c other).2 fun x within _ =>
      same c other different x within.1 within.2

/-- **`dealloc` of a block of pool `i` by pool `j` of the same class.** -/
theorem dealloc (housing : Housing cls pools layout mem live) (member : b ∈ live)
    (origin : b.origin = .pool i) (sameClass : cls j = cls i) :
    Housing cls (Function.update pools j ((pools j).dealloc mem b.base).1)
        (Family.moved layout i j b.base) ((pools j).dealloc mem b.base).2 (live.erase b) ∧
      (∀ c ∈ live, c ≠ b → c ∈ live.erase b ∧
        SameOn mem ((pools j).dealloc mem b.base).2 c.base (blockSize c.bytes)) ∧
      Outside (Within b.base 8) mem ((pools j).dealloc mem b.base).2 := by
  obtain ⟨here, _, _, _⟩ := housing.in_pool member origin
  obtain ⟨family, outside⟩ := housing.family.dealloc (j := j) here (by
    rw [housing.size, housing.size, sameClass])
  have size : ∀ k, (Function.update pools j ((pools j).dealloc mem b.base).1 k).allocSize_
      = classSize (cls k) := by
    intro k
    by_cases own : k = j
    · subst own
      rw [Function.update_self]
      exact housing.size k
    · rw [Function.update_of_ne own, housing.size]
  have bases : ∀ k, (Family.moved layout i j b.base k).bases = (layout k).bases := by
    intro k
    unfold Layout.bases
    rw [Family.moved_chunks]
  have lives : ∀ k, ∀ base, base ∈ (Family.moved layout i j b.base k).live ↔
      base ∈ (layout k).live ∧ ¬ (base = b.base ∧ b.origin = .pool k) := by
    intro k base
    rw [Family.mem_moved_live (housing.family.once i).of_append_right, origin, Origin.pool.injEq,
      eq_comm (a := k)]
  obtain ⟨after, same⟩ := housing.erase member family size (outside.mono fun x within => by
    unfold Within blockSize at *
    omega) bases lives
  exact ⟨after, same, outside⟩

/-- **`free` of a block of `malloc`.** -/
theorem free {p : Nat} (housing : Housing cls pools layout mem live) (member : b ∈ live)
    (origin : b.origin = .malloc p) :
    Housing cls pools layout mem (live.erase b) ∧
      ∀ c ∈ live, c ≠ b → c ∈ live.erase b ∧ SameOn mem mem c.base (blockSize c.bytes) := by
  refine housing.erase member housing.family housing.size (.refl _ _) (fun _ => rfl) fun i base => ?_
  rw [origin]
  simp

/-- **A client's write to a block it holds.** -/
theorem write (housing : Housing cls pools layout mem live) (member : b ∈ live) {address : Nat}
    (value : BitVec 8) (within : Within b.ptr b.bytes address) :
    Housing cls pools layout (Function.update mem address value) live := by
  obtain ⟨ptr, fits⟩ := housing.shape b member
  have inside : Within b.base (blockSize b.bytes) address := by
    unfold Within blockSize at *
    omega
  have outside : Outside (· = address) mem (Function.update mem address value) :=
    fun x other => Function.update_of_ne other _ _
  refine { housing with family := ?_, intact := fun c found => ?_ }
  · refine housing.family.frame outside fun i x read here => ?_
    rw [here] at read
    exact housing.unread member inside i read
  · refine (housing.intact c found).congr (housing.shape c found).2 fun x there user => outside x ?_
    rintro rfl
    by_cases same : c = b
    · subst same
      rw [ptr] at within
      exact user within
    · exact (housing.blocks_apart found member same).not_within there inside

/-- **A write to what is not in use.** -/
theorem elsewhere (housing : Housing cls pools layout mem live) {address : Nat} (value : BitVec 8)
    (unused : Unused layout live address 1) :
    Housing cls pools layout (Function.update mem address value) live ∧
      ∀ b ∈ live, SameOn mem (Function.update mem address value) b.base (blockSize b.bytes) := by
  have here : Within address 1 address := ⟨le_rfl, by omega⟩
  have outside : Outside (· = address) mem (Function.update mem address value) :=
    fun x other => Function.update_of_ne other _ _
  have others : ∀ b ∈ live, ∀ x, Within b.base (blockSize b.bytes) x → ¬ x = address := by
    rintro b member x within rfl
    exact (unused.2 b member).not_within here within
  refine ⟨housing.frame outside (fun i x read at_ => ?_) others, fun b member =>
    outside.sameOn (others b member)⟩
  rw [at_] at read
  exact unused.1.not_territory here (housing.family.footprint_territory read)

end Housing

end NpAlloc.Pool
