/-
**Many size-class pools in one memory.**

The classes of a thread, and the classes of all threads, are families of pools that share a memory. No
chunk of one pool meets a chunk of another, but blocks move: a block may be freed to any pool of its
size, and be served by that pool next. So what holds of blocks holds across the family: each free or
live block is carved from a chunk of some pool of its size, and it is in one place.

* `Family.block_apart`, `Family.live_unread` — blocks do not meet, and no pool reads a live one.
* **`Family.alloc`**, **`Family.dealloc`** — the operations of one pool leave the others as they are.
* **`Family.forget`**, **`Family.handOver`** — a pool gives up its free list, and a chunk none of whose
  blocks is in use.
-/

import NpAlloc.Pool.Represents
import Mathlib.Data.List.Perm.Lattice

set_option linter.unusedSectionVars false

namespace NpAlloc.Pool

variable {ι : Type} [DecidableEq ι] {C : Nat} {pools : ι → PsPool} {layout : ι → Layout}
  {mem mem' : Memory} {G : Type} {i j k : ι} {s s' block other x : Nat}

/-- A block carved from a chunk of a pool of its size. -/
def Carved (pools : ι → PsPool) (layout : ι → Layout) (s block : Nat) : Prop :=
  ∃ i, (pools i).allocSize_ = s ∧ block ∈ (layout i).carved s

/-- **A family of pools.** -/
structure Family (C : Nat) (pools : ι → PsPool) (layout : ι → Layout) (mem : Memory) : Prop where
  each : ∀ i, Represents (pools i) mem (layout i)
  chunk : ∀ i, (pools i).chunkSize_ = C
  small : C < 2 ^ 63
  apart : ∀ i j, i ≠ j → ∀ c ∈ (layout i).bases, ∀ d ∈ (layout j).bases, Apart c C d C
  carved : ∀ i, ∀ block ∈ (layout i).blocks, Carved pools layout (pools i).allocSize_ block
  once : ∀ i, (layout i).blocks.Nodup
  only : ∀ i j, i ≠ j → (layout i).blocks.Disjoint (layout j).blocks

/-- The bytes of the chunks of a family. -/
def Territory (C : Nat) (layout : ι → Layout) (x : Nat) : Prop :=
  ∃ i, ∃ base ∈ (layout i).bases, Within base C x

/-- An interval no chunk of the family meets. -/
def Away (C : Nat) (layout : ι → Layout) (a n : Nat) : Prop :=
  ∀ i, ∀ base ∈ (layout i).bases, Apart a n base C

/-- A chunk that may be added to the family. -/
structure FreshChunk (C : Nat) (layout : ι → Layout) (fresh : Nat) : Prop where
  some : 0 < fresh
  space : fresh + C < 2 ^ 64
  away : Away C layout fresh C

theorem FreshChunk.fresh (new : FreshChunk C layout x) (i : ι) : Layout.Fresh C (layout i) x :=
  ⟨new.some, new.space, fun c member => new.away i c.base (List.mem_map_of_mem member)⟩

theorem Away.not_territory {a n : Nat} (away : Away C layout a n) (within : Within a n x) :
    ¬ Territory C layout x := fun ⟨i, base, chunk, inside⟩ =>
  (away i base chunk).not_within within inside

/-- A pool reads its headers. -/
theorem Headers.footprint {L : Layout} (member : Headers L x) : Footprint L x := by
  obtain ⟨base, chunk, inside⟩ := member
  obtain ⟨c, found, rfl⟩ := List.mem_map.mp chunk
  exact .inl ⟨c, found, inside⟩

namespace Family

/-! ### Blocks -/

/-- Chunks lie in the address space. -/
theorem space (family : Family C pools layout mem) {base : Nat} (chunk : base ∈ (layout i).bases) :
    0 < base ∧ base + C < 2 ^ 64 := by
  obtain ⟨c, found, rfl⟩ := List.mem_map.mp chunk
  have space := (family.each i).shape.space c found
  rwa [family.chunk] at space

theorem shape (family : Family C pools layout mem) (i : ι) :
    (layout i).Shape (pools i).allocSize_ C := by
  have shape := (family.each i).shape
  rwa [family.chunk] at shape

theorem large (family : Family C pools layout mem) (i : ι) :
    poolHeader + (pools i).allocSize_ ≤ C := by
  have large := (family.each i).large
  rwa [family.chunk] at large

/-- **A carved block lies in a chunk, behind the header.** -/
theorem inside (family : Family C pools layout mem) (carved : Carved pools layout s block) :
    ∃ i, ∃ base ∈ (layout i).bases, base + poolHeader ≤ block ∧ block + s ≤ base + C := by
  obtain ⟨i, rfl, member⟩ := carved
  obtain ⟨c, chunk, low, high⟩ := (family.shape i).inside member
  exact ⟨i, c.base, List.mem_map_of_mem chunk, low, high⟩

theorem carved_space (family : Family C pools layout mem) (carved : Carved pools layout s block) :
    0 < block ∧ block + s < 2 ^ 64 := by
  obtain ⟨i, base, chunk, low, high⟩ := family.inside carved
  have space := family.space chunk
  omega

/-- **Carved blocks do not meet**, whichever pools carved them. -/
theorem carved_apart (family : Family C pools layout mem) (first : Carved pools layout s block)
    (second : Carved pools layout s' other) (different : s = s' → block ≠ other) :
    Apart block s other s' := by
  obtain ⟨i, rfl, member⟩ := first
  obtain ⟨j, rfl, member'⟩ := second
  by_cases same : i = j
  · subst same
    exact (family.shape i).blocks_apart member member' (different rfl)
  · obtain ⟨c, chunk, low, high⟩ := (family.shape i).inside member
    obtain ⟨d, chunk', low', high'⟩ := (family.shape j).inside member'
    refine (family.apart i j same c.base (List.mem_map_of_mem chunk) d.base
      (List.mem_map_of_mem chunk')).mono (by omega) high (by omega) high'

/-- **A block is carved from a chunk of one pool.** -/
theorem carved_owner (family : Family C pools layout mem)
    (first : block ∈ (layout i).carved (pools i).allocSize_)
    (second : block ∈ (layout j).carved (pools j).allocSize_) : i = j := by
  by_contra other
  obtain ⟨c, chunk, low, high⟩ := (family.shape i).inside first
  obtain ⟨d, chunk', low', high'⟩ := (family.shape j).inside second
  have apart := family.apart i j other c.base (List.mem_map_of_mem chunk) d.base
    (List.mem_map_of_mem chunk')
  have size := (family.shape i).size
  have size' := (family.shape j).size
  unfold Apart at apart
  omega

/-- No carved block starts where an interval away from the chunks does. -/
theorem ne_carved (family : Family C pools layout mem) {a n : Nat} (away : Away C layout a n)
    (carved : Carved pools layout s block) (size : 0 < s) (positive : 0 < n) : block ≠ a := by
  rintro rfl
  obtain ⟨i, base, chunk, low, high⟩ := family.inside carved
  have apart := away i base chunk
  unfold Apart at apart
  unfold poolHeader at low
  omega

/-- **No carved block meets a header.** -/
theorem header_apart (family : Family C pools layout mem) (carved : Carved pools layout s block)
    {base : Nat} (chunk : base ∈ (layout j).bases) : Apart block s base poolHeader := by
  obtain ⟨d, found, rfl⟩ := List.mem_map.mp chunk
  obtain ⟨i, rfl, member⟩ := carved
  by_cases same : i = j
  · subst same
    exact (family.shape i).header_apart member found
  · obtain ⟨c, theirs, low, high⟩ := (family.shape i).inside member
    have large := family.large i
    refine (family.apart i j same c.base (List.mem_map_of_mem theirs) d.base chunk).mono (by omega)
      high le_rfl (by omega)

/-- A free or live block is carved. -/
theorem carved_live (family : Family C pools layout mem) (live : block ∈ (layout i).live) :
    Carved pools layout (pools i).allocSize_ block :=
  family.carved i block (List.mem_append_right _ live)

theorem carved_free (family : Family C pools layout mem) (free : block ∈ (layout i).frees) :
    Carved pools layout (pools i).allocSize_ block :=
  family.carved i block (List.mem_append_left _ free)

/-- **Free and live blocks do not meet.** -/
theorem block_apart (family : Family C pools layout mem) (first : block ∈ (layout i).blocks)
    (second : other ∈ (layout j).blocks) (different : i = j → block ≠ other) :
    Apart block (pools i).allocSize_ other (pools j).allocSize_ := by
  refine family.carved_apart (family.carved i block first) (family.carved j other second) fun _ => ?_
  by_cases same : i = j
  · exact different same
  · rintro rfl
    exact family.only i j same first second

/-- No block is free and live. -/
theorem live_ne_free (family : Family C pools layout mem) (live : block ∈ (layout i).live)
    (free : other ∈ (layout j).frees) : block ≠ other := by
  rintro rfl
  by_cases same : i = j
  · subst same
    exact List.disjoint_of_nodup_append (family.once i) free live
  · exact family.only i j same (List.mem_append_right _ live) (List.mem_append_left _ free)

/-! ### What the pools read -/

/-- What a pool reads lies in the chunks. -/
theorem footprint_territory (family : Family C pools layout mem) (member : Footprint (layout i) x) :
    Territory C layout x := by
  have large := family.large i
  have link := (family.each i).link
  rcases member with ⟨c, chunk, within⟩ | ⟨block, free, within⟩
  · refine ⟨i, c.base, List.mem_map_of_mem chunk, ?_⟩
    unfold Within poolHeader at *
    omega
  · obtain ⟨j, base, chunk, low, high⟩ := family.inside (family.carved_free free)
    refine ⟨j, base, chunk, ?_⟩
    unfold Within poolHeader at *
    omega

/-- **No pool reads a live block.** -/
theorem live_unread (family : Family C pools layout mem) (live : block ∈ (layout i).live)
    (within : Within block (pools i).allocSize_ x) (j : ι) : ¬ Footprint (layout j) x := by
  have carved := family.carved_live live
  have link := (family.each j).link
  rintro (⟨c, chunk, inside⟩ | ⟨other, free, inside⟩)
  · exact (family.header_apart carved (List.mem_map_of_mem chunk)).not_within within inside
  · have apart := family.carved_apart carved (family.carved_free free) fun _ =>
      family.live_ne_free live free
    refine apart.not_within within ?_
    unfold Within at inside ⊢
    omega

/-- **A family does not see what happens elsewhere.** -/
theorem frame (family : Family C pools layout mem) {P : Nat → Prop} (outside : Outside P mem mem')
    (unread : ∀ i x, Footprint (layout i) x → ¬ P x) : Family C pools layout mem' :=
  { family with each := fun i => (family.each i).frame fun x member => outside x (unread i x member) }

/-! ### Changing one pool -/

/-- **One pool takes a new layout.** Its chunks are its own or fresh, its blocks are carved, and no
other pool has them. -/
theorem update (family : Family C pools layout mem) {pool : PsPool} {L : Layout}
    (represents : Represents pool mem' L) (chunkSize : pool.chunkSize_ = C)
    (size : pool.allocSize_ = (pools i).allocSize_)
    (others : ∀ k, k ≠ i → Represents (pools k) mem' (layout k))
    (bases : ∀ base ∈ L.bases, ∀ k, k ≠ i → ∀ d ∈ (layout k).bases, Apart base C d C)
    (keeps : ∀ k, ∀ block ∈ (layout k).blocks, (pools k).allocSize_ = (pools i).allocSize_ →
      block ∈ (layout i).carved (pools i).allocSize_ → block ∈ L.carved (pools i).allocSize_)
    (carved : ∀ block ∈ L.blocks,
      Carved (Function.update pools i pool) (Function.update layout i L) (pools i).allocSize_ block)
    (once : L.blocks.Nodup) (only : ∀ k, k ≠ i → L.blocks.Disjoint (layout k).blocks) :
    Family C (Function.update pools i pool) (Function.update layout i L) mem' := by
  have sizes : ∀ k, (Function.update pools i pool k).allocSize_ = (pools k).allocSize_ := by
    intro k
    by_cases own : k = i
    · subst own
      rw [Function.update_self, size]
    · rw [Function.update_of_ne own]
  refine ⟨fun k => ?_, fun k => ?_, family.small, fun k l different => ?_, fun k => ?_, fun k => ?_,
    fun k l different => ?_⟩
  · by_cases own : k = i
    · subst own
      rw [Function.update_self, Function.update_self]
      exact represents
    · rw [Function.update_of_ne own, Function.update_of_ne own]
      exact others k own
  · by_cases own : k = i
    · subst own
      rw [Function.update_self, chunkSize]
    · rw [Function.update_of_ne own, family.chunk]
  · by_cases own : k = i
    · subst own
      rw [Function.update_self, Function.update_of_ne different.symm]
      exact fun base member => bases base member l different.symm
    · rw [Function.update_of_ne own]
      by_cases own' : l = i
      · subst own'
        rw [Function.update_self]
        exact fun base member d theirs => (bases d theirs k own base member).symm
      · rw [Function.update_of_ne own']
        exact family.apart k l different
  · rw [sizes]
    by_cases own : k = i
    · subst own
      rw [Function.update_self]
      exact carved
    · rw [Function.update_of_ne own]
      intro block member
      obtain ⟨j, same, found⟩ := family.carved k block member
      refine ⟨j, (sizes j).trans same, ?_⟩
      by_cases owner : j = i
      · subst owner
        rw [Function.update_self, ← same]
        rw [← same] at found
        exact keeps k block member same.symm found
      · rwa [Function.update_of_ne owner]
  · by_cases own : k = i
    · subst own
      rw [Function.update_self]
      exact once
    · rw [Function.update_of_ne own]
      exact family.once k
  · by_cases own : k = i
    · subst own
      rw [Function.update_self, Function.update_of_ne different.symm]
      exact only l different.symm
    · rw [Function.update_of_ne own]
      by_cases own' : l = i
      · subst own'
        rw [Function.update_self]
        exact (only k own).symm
      · rw [Function.update_of_ne own']
        exact family.only k l different

/-- A change of the blocks of one pool to some of them. -/
theorem restrict (family : Family C pools layout mem) {pool : PsPool} {L : Layout}
    (represents : Represents pool mem L) (chunkSize : pool.chunkSize_ = C)
    (size : pool.allocSize_ = (pools i).allocSize_) (chunks : L.chunks = (layout i).chunks)
    (fewer : L.blocks.Sublist (layout i).blocks) :
    Family C (Function.update pools i pool) (Function.update layout i L) mem := by
  have same : L.carved (pools i).allocSize_ = (layout i).carved (pools i).allocSize_ := by
    unfold Layout.carved
    rw [chunks]
  have bases : L.bases = (layout i).bases := by
    unfold Layout.bases
    rw [chunks]
  refine family.update represents chunkSize size (fun k _ => family.each k) ?_ ?_ ?_
    ((family.once i).sublist fewer) ?_
  · intro base member k different
    rw [bases] at member
    exact family.apart i k different.symm base member
  · intro k block _ _ found
    rwa [same]
  · intro block member
    obtain ⟨j, sizes, found⟩ := family.carved i block (fewer.subset member)
    by_cases owner : j = i
    · subst owner
      refine ⟨j, by rw [Function.update_self, size], ?_⟩
      rw [Function.update_self, same]
      exact found
    · refine ⟨j, by rw [Function.update_of_ne owner, sizes], ?_⟩
      rwa [Function.update_of_ne owner]
  · intro k different block member theirs
    exact family.only i k different.symm (fewer.subset member) theirs

/-! ### The operations -/

/-- **`alloc` of one pool.** -/
theorem alloc (supply : Supply G) (fresh : Nat) (global : G) {w : World G}
    (family : Family C pools layout w.mem) (i : ι)
    (granted : (layout i).hungry (pools i).allocSize_ C = true →
      supply w.global = .ok (fresh, global) ∧ FreshChunk C layout fresh) :
    ∃ pool w', (pools i).alloc supply w
        = .ok (((layout i).take (pools i).allocSize_ C fresh).1, pool, w') ∧
      pool.allocSize_ = (pools i).allocSize_ ∧
      Family C (Function.update pools i pool)
        (Function.update layout i ((layout i).take (pools i).allocSize_ C fresh).2) w'.mem ∧
      w'.global = (if (layout i).hungry (pools i).allocSize_ C then global else w.global) ∧
      Outside (Headers ((layout i).take (pools i).allocSize_ C fresh).2) w.mem w'.mem := by
  have chunk := family.chunk i
  have shape := family.shape i
  have large := family.large i
  obtain ⟨pool, w', served, after, ⟨size, chunk', _⟩, same, outside⟩ :=
    alloc_represents supply fresh global (family.each i) (by
      rw [(family.each i).starved_iff (by rw [chunk]; exact family.small), chunk]
      intro hungry
      obtain ⟨answer, new⟩ := granted hungry
      exact ⟨answer, new.fresh i⟩)
  rw [chunk] at served after same outside
  have new : (layout i).hungry (pools i).allocSize_ C = true → Layout.Fresh C (layout i) fresh :=
    fun hungry => (granted hungry).2.fresh i
  -- a chunk of the new layout is an old one of the pool, or the fresh one
  have bases : ∀ base ∈ ((layout i).take (pools i).allocSize_ C fresh).2.bases,
      ∀ k, k ≠ i → ∀ other ∈ (layout k).bases, Apart base C other C := by
    intro base member k different other theirs
    rw [Layout.take_bases] at member
    split at member
    · rename_i hungry
      rcases List.mem_cons.mp member with rfl | old
      · exact (granted hungry).2.away k other theirs
      · exact family.apart i k different.symm base old other theirs
    · exact family.apart i k different.symm base member other theirs
  -- what the other pools read is no header of this one
  have others : ∀ k, k ≠ i → Represents (pools k) w'.mem (layout k) := by
    intro k different
    refine (family.each k).frame fun x member => outside x ?_
    rintro ⟨base, chunk, inside⟩
    rcases member with ⟨c, theirs, within⟩ | ⟨block, free, within⟩
    · have apart := bases base chunk k different c.base (List.mem_map_of_mem theirs)
      unfold poolHeader at large
      unfold Apart at apart
      unfold Within poolHeader at *
      omega
    · have carved := family.carved_free free
      have link := (family.each k).link
      have large' := family.large k
      refine Apart.not_within (a := block) (n := 8) ?_ within inside
      rw [Layout.take_bases] at chunk
      split at chunk
      · rename_i hungry
        rcases List.mem_cons.mp chunk with rfl | old
        · obtain ⟨j, other, theirs, low, high⟩ := family.inside carved
          have apart := (granted hungry).2.away j other theirs
          exact apart.symm.mono (by omega) (by omega) le_rfl (by omega)
        · exact (family.header_apart carved old).mono le_rfl (by omega) le_rfl le_rfl
      · exact (family.header_apart carved chunk).mono le_rfl (by omega) le_rfl le_rfl
  refine ⟨pool, w', served, size, ?_, same, outside⟩
  rcases shape.take_blocks large new with ⟨_, blocks, chunks⟩ | ⟨_, blocks, carved⟩
  · -- a free block is served: the same blocks, of the same chunks
    have sameCarved : ((layout i).take (pools i).allocSize_ C fresh).2.carved (pools i).allocSize_
        = (layout i).carved (pools i).allocSize_ := by
      unfold Layout.carved
      rw [chunks]
    refine family.update after (chunk'.trans chunk) size others bases ?_ ?_ ?_ ?_
    · intro k block _ _ found
      rwa [sameCarved]
    · intro block member
      obtain ⟨j, sizes, found⟩ := family.carved i block (blocks.mem_iff.mp member)
      by_cases owner : j = i
      · subst owner
        refine ⟨j, by rw [Function.update_self, size], ?_⟩
        rw [Function.update_self, sameCarved]
        exact found
      · refine ⟨j, by rw [Function.update_of_ne owner, sizes], ?_⟩
        rwa [Function.update_of_ne owner]
    · exact blocks.nodup_iff.mpr (family.once i)
    · intro k different block member theirs
      exact family.only i k different.symm (blocks.mem_iff.mp member) theirs
  · -- a new block is carved, so no pool had it
    have shape' := shape.take large new
    have mine : ((layout i).take (pools i).allocSize_ C fresh).1
        ∈ ((layout i).take (pools i).allocSize_ C fresh).2.carved (pools i).allocSize_ :=
      carved.mem_iff.mpr List.mem_cons_self
    have unknown : ∀ k, ((layout i).take (pools i).allocSize_ C fresh).1 ∉ (layout k).blocks := by
      intro k member
      obtain ⟨j, sizes, found⟩ := family.carved k _ member
      by_cases owner : j = i
      · subst owner
        rw [← sizes] at found
        exact (List.nodup_cons.mp (carved.nodup_iff.mp shape'.carved_nodup)).1 found
      · obtain ⟨c, chunk, low, high⟩ := shape'.inside mine
        rw [← sizes] at found
        obtain ⟨d, chunk', low', high'⟩ := (family.shape j).inside found
        have apart := bases c.base (List.mem_map_of_mem chunk) j owner d.base
          (List.mem_map_of_mem chunk')
        have positive := shape.size
        have positive' := (family.shape j).size
        unfold Apart at apart
        omega
    refine family.update after (chunk'.trans chunk) size others bases ?_ ?_ ?_ ?_
    · intro k block _ _ found
      exact carved.mem_iff.mpr (List.mem_cons_of_mem _ found)
    · intro block member
      rcases List.mem_cons.mp (blocks.mem_iff.mp member) with rfl | old
      · refine ⟨i, by rw [Function.update_self, size], ?_⟩
        rw [Function.update_self]
        exact mine
      · obtain ⟨j, sizes, found⟩ := family.carved i block old
        by_cases owner : j = i
        · subst owner
          refine ⟨j, by rw [Function.update_self, size], ?_⟩
          rw [Function.update_self]
          exact carved.mem_iff.mpr (List.mem_cons_of_mem _ found)
        · refine ⟨j, by rw [Function.update_of_ne owner, sizes], ?_⟩
          rwa [Function.update_of_ne owner]
    · exact blocks.nodup_iff.mpr (List.nodup_cons.mpr ⟨unknown i, family.once i⟩)
    · intro k different block member theirs
      rcases List.mem_cons.mp (blocks.mem_iff.mp member) with rfl | old
      · exact unknown k theirs
      · exact family.only i k different.symm old theirs

/-- **A live block leaves the pool that served it.** -/
theorem lose (family : Family C pools layout mem) (live : block ∈ (layout i).live) :
    Family C pools (Function.update layout i ((layout i).lose block)) mem ∧
      ∀ k, block ∉ (Function.update layout i ((layout i).lose block) k).blocks := by
  have after : Family C (Function.update pools i (pools i))
      (Function.update layout i ((layout i).lose block)) mem :=
    family.restrict ((family.each i).relabel _) (family.chunk i) rfl rfl
      (List.Sublist.append_left List.erase_sublist _)
  rw [Function.update_eq_self] at after
  refine ⟨after, fun k member => ?_⟩
  by_cases own : k = i
  · subst own
    rw [Function.update_self] at member
    have once := family.once k
    rcases List.mem_append.mp member with free | other
    · exact List.disjoint_of_nodup_append once free live
    · exact (List.Nodup.mem_erase_iff once.of_append_right).mp other |>.1 rfl
  · rw [Function.update_of_ne own] at member
    exact family.only i k (Ne.symm own) (List.mem_append_right _ live) member

/-- **A block that is nowhere else is freed to a pool.** -/
theorem receive (family : Family C pools layout mem)
    (carved : Carved pools layout (pools i).allocSize_ block)
    (nowhere : ∀ k, block ∉ (layout k).blocks) :
    Family C (Function.update pools i ((pools i).dealloc mem block).1)
        (Function.update layout i ((layout i).receive block)) ((pools i).dealloc mem block).2 ∧
      Outside (Within block 8) mem ((pools i).dealloc mem block).2 := by
  have link := (family.each i).link
  obtain ⟨after, outside⟩ := dealloc_represents (family.each i)
    ⟨family.carved_space carved, fun c chunk => family.header_apart carved (List.mem_map_of_mem chunk),
      fun other free => family.carved_apart carved (family.carved_free free) fun _ same =>
        nowhere i (List.mem_append_left _ (same ▸ free))⟩
  refine ⟨family.update after (family.chunk i) rfl (fun k _ => ?_) ?_ ?_ ?_ ?_ ?_, outside⟩
  · refine (family.each k).frame fun x member => outside x fun inside => ?_
    rcases member with ⟨c, chunk, within⟩ | ⟨other, free, within⟩
    · refine (family.header_apart carved (List.mem_map_of_mem chunk)).not_within ?_ within
      unfold Within at inside ⊢
      omega
    · have apart := family.carved_apart carved (family.carved_free free) fun _ same =>
        nowhere k (List.mem_append_left _ (same ▸ free))
      have link' := (family.each k).link
      unfold Apart at apart
      unfold Within at inside within
      omega
  · exact fun base member k different => family.apart i k different.symm base member
  · exact fun k block _ _ found => found
  · have still : ∀ b, Carved pools layout (pools i).allocSize_ b →
        Carved (Function.update pools i ((pools i).dealloc mem block).1)
          (Function.update layout i ((layout i).receive block)) (pools i).allocSize_ b := by
      rintro b ⟨j, sizes, found⟩
      by_cases owner : j = i
      · subst owner
        refine ⟨j, by rw [Function.update_self]; rfl, ?_⟩
        rw [Function.update_self]
        exact found
      · refine ⟨j, by rw [Function.update_of_ne owner, sizes], ?_⟩
        rwa [Function.update_of_ne owner]
    intro b member
    rcases List.mem_cons.mp member with rfl | old
    · exact still b carved
    · exact still b (family.carved i b old)
  · exact List.nodup_cons.mpr ⟨nowhere i, family.once i⟩
  · intro k different b member theirs
    rcases List.mem_cons.mp member with rfl | old
    · exact nowhere k theirs
    · exact family.only i k different.symm old theirs

/-- The layouts after a live block of pool `i` is freed to pool `j`. -/
def moved (layout : ι → Layout) (i j : ι) (block : Nat) : ι → Layout :=
  Function.update (Function.update layout i ((layout i).lose block)) j
    ((Function.update layout i ((layout i).lose block) j).receive block)

/-- The chunks stay where they are. -/
theorem moved_chunks (layout : ι → Layout) (i j : ι) (block : Nat) (k : ι) :
    (moved layout i j block k).chunks = (layout k).chunks := by
  unfold moved
  by_cases first : k = j
  · subst first
    rw [Function.update_self]
    by_cases second : k = i
    · subst second
      rw [Function.update_self]
      rfl
    · rw [Function.update_of_ne second]
      rfl
  · rw [Function.update_of_ne first]
    by_cases second : k = i
    · subst second
      rw [Function.update_self]
      rfl
    · rw [Function.update_of_ne second]

theorem mem_moved_live (once : (layout i).live.Nodup) (k : ι) :
    other ∈ (moved layout i j block k).live ↔
      other ∈ (layout k).live ∧ ¬ (other = block ∧ k = i) := by
  have same : (moved layout i j block k).live
      = (Function.update layout i ((layout i).lose block) k).live := by
    unfold moved
    by_cases first : k = j
    · subst first
      rw [Function.update_self]
      rfl
    · rw [Function.update_of_ne first]
  rw [same]
  by_cases second : k = i
  · subst second
    rw [Function.update_self]
    show other ∈ (layout k).live.erase block ↔ _
    rw [once.mem_erase_iff]
    simp [and_comm]
  · rw [Function.update_of_ne second]
    simp [second]

theorem moved_frees (layout : ι → Layout) (i j : ι) (block : Nat) (k : ι) :
    (moved layout i j block k).frees
      = if k = j then block :: (layout k).frees else (layout k).frees := by
  have same : ∀ k, (Function.update layout i ((layout i).lose block) k).frees = (layout k).frees := by
    intro k
    by_cases second : k = i
    · subst second
      rw [Function.update_self]
      rfl
    · rw [Function.update_of_ne second]
  unfold moved
  by_cases first : k = j
  · subst first
    rw [Function.update_self, if_pos rfl, ← same]
    rfl
  · rw [Function.update_of_ne first, same, if_neg first]

theorem moved_self (layout : ι → Layout) (i : ι) (block : Nat) :
    moved layout i i block = Function.update layout i ((layout i).give block) := by
  unfold moved
  rw [Function.update_self, Function.update_idem]
  rfl

/-- **`dealloc` of a live block, by any pool of its size.** -/
theorem dealloc (family : Family C pools layout mem) (live : block ∈ (layout i).live)
    (size : (pools j).allocSize_ = (pools i).allocSize_) :
    Family C (Function.update pools j ((pools j).dealloc mem block).1) (moved layout i j block)
        ((pools j).dealloc mem block).2 ∧
      Outside (Within block 8) mem ((pools j).dealloc mem block).2 := by
  obtain ⟨left, nowhere⟩ := family.lose live
  refine left.receive ?_ nowhere
  obtain ⟨k, sizes, found⟩ := family.carved_live live
  refine ⟨k, sizes.trans size.symm, ?_⟩
  rw [size]
  by_cases owner : k = i
  · subst owner
    rwa [Function.update_self]
  · rwa [Function.update_of_ne owner]

/-- **A pool gives up its free list.** -/
theorem forget (family : Family C pools layout mem) (i : ι) :
    Family C (Function.update pools i { pools i with free_ := 0 })
      (Function.update layout i { layout i with frees := [] }) mem := by
  have holds := family.each i
  refine family.restrict ?_ (family.chunk i) rfl rfl (List.sublist_append_right _ _)
  refine { holds with
    shape := { holds.shape with }
    free := rfl
    space := fun other member => absurd member List.not_mem_nil
    header := fun other member => absurd member List.not_mem_nil
    links := .nil }

/-- **A pool gives up its head chunk**, of which no block is in use. -/
theorem handOver (family : Family C pools layout mem) {c : Chunk} {rest : List Chunk}
    (head : (layout i).chunks = c :: rest)
    (unused : ∀ k, ∀ block ∈ (layout k).blocks, (pools k).allocSize_ = (pools i).allocSize_ →
      block ∉ c.blocks (pools i).allocSize_) :
    Family C (Function.update pools i { pools i with head_ := load mem c.base 8 })
      (Function.update layout i { layout i with chunks := rest }) mem := by
  have holds := family.each i
  obtain ⟨shape, link, large, chain, curr, free, space, header, links⟩ := holds
  obtain ⟨size, room, apart, bound, spent⟩ := shape
  unfold Layout.bases at chain
  rw [head] at chain room apart bound spent curr header
  have rests : ∀ b, b ∈ (layout i).carved (pools i).allocSize_ →
      b ∉ c.blocks (pools i).allocSize_ →
      b ∈ ({ layout i with chunks := rest } : Layout).carved (pools i).allocSize_ := by
    intro b member other
    unfold Layout.carved at member ⊢
    rw [head, List.flatMap_cons] at member
    exact (List.mem_append.mp member).resolve_left other
  refine family.update ?_ (family.chunk i) rfl (fun k _ => family.each k) ?_ ?_ ?_
    (family.once i) (fun k different => family.only i k different.symm)
  · refine ⟨⟨size, fun d member => room d (.tail _ member), (List.pairwise_cons.mp apart).2,
      fun d member => bound d (.tail _ member), fun d member => spent d (List.mem_of_mem_tail member)⟩,
      link, large, chain.2, fun d member => curr d (.tail _ member), free, space,
      fun b member d chunk => header b member d (.tail _ chunk), links⟩
  · intro base member k different
    refine family.apart i k different.symm base ?_
    unfold Layout.bases at member ⊢
    rw [head]
    exact .tail _ member
  · exact fun k b member sizes found => rests b found (unused k b member sizes)
  · intro b member
    obtain ⟨j, sizes, found⟩ := family.carved i b member
    by_cases owner : j = i
    · subst owner
      refine ⟨j, by rw [Function.update_self], ?_⟩
      rw [Function.update_self]
      exact rests b found (unused j b member rfl)
    · refine ⟨j, by rw [Function.update_of_ne owner, sizes], ?_⟩
      rwa [Function.update_of_ne owner]

end Family

end NpAlloc.Pool
