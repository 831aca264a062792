/-
**What `np_alloc` of a thread reads.**

The result of `alloc` depends on two words of the memory: the link of the first free block, and
`pool_curr` of the first chunk. Whatever the rest of the memory holds, it serves the same block, moves on
to the same pool and writes the same bytes.

* `Reads` — the two words of a pool are the same in two memories;
* **`ThreadPool.alloc_local`** — then `alloc` does the same in both;
* `Represents.reads`, `Family.footprints_apart` — a pool finds its words wherever the bytes it owns are
  the same, and two pools own different bytes.
-/

import NpAlloc.General.Writes
import NpAlloc.Pool.Blocks

set_option linter.unusedSectionVars false

namespace NpAlloc.Pool

variable {G : Type} {supply : Supply G} {g g' : G} {m m' a : Memory} {p p' : PsPool} {ptr : Nat}

/-- **The words that `alloc` reads are the same.** -/
structure Reads (p : PsPool) (m m' : Memory) : Prop where
  free : p.free_ ≠ 0 → load m' p.free_ 8 = load m p.free_ 8
  head : p.head_ ≠ 0 → load m' (p.head_ + 8) 8 = load m (p.head_ + 8) 8

/-- A chunk is asked for in both or in none. -/
theorem Reads.test (reads : Reads p m m') :
    (p.head_ = 0 ∨ p.getFreeCount m' = 0) ↔ (p.head_ = 0 ∨ p.getFreeCount m = 0) := by
  by_cases null : p.head_ = 0
  · simp only [null, true_or]
  · unfold PsPool.getFreeCount
    rw [reads.head null]

/-! ### One pool -/

/-- A block is carved where `pool_curr` says. -/
theorem PsPool.carve_local (g g' : G) (same : load m' (p.head_ + 8) 8 = load m (p.head_ + 8) 8) :
    (p.carve ⟨m', g⟩).1 = (p.carve ⟨m, g'⟩).1 ∧
      Writes (Within (p.head_ + 8) 8) m (p.carve ⟨m, g'⟩).2.mem m' (p.carve ⟨m', g⟩).2.mem := by
  unfold PsPool.carve
  rw [same]
  exact ⟨rfl, .store m m' _ 8 _⟩

/-- The header of a chunk does not depend on what was there. -/
theorem PsPool.allocFromGlobal_local (m' : Memory)
    (grown : p.allocFromGlobal supply ⟨m, g⟩ = .ok (p', ⟨a, g'⟩)) :
    ∃ a', p.allocFromGlobal supply ⟨m', g⟩ = .ok (p', ⟨a', g'⟩) ∧ p'.head_ ≠ 0 ∧
      Writes (Within p'.head_ poolHeader) m a m' a' := by
  unfold PsPool.allocFromGlobal at grown ⊢
  cases answer : supply g with
  | error fault => simp [answer, bind, Except.bind] at grown
  | ok found =>
    obtain ⟨newPool, global⟩ := found
    simp only [answer, bind, Except.bind] at grown ⊢
    split at grown
    · cases grown
    · rename_i some_
      cases grown
      refine ⟨_, if_neg some_, some_, ?_⟩
      refine ((Writes.store m m' (newPool + 8) 8 _).trans (.store _ _ newPool 8 p.head_)).congr fun x => ?_
      unfold Within poolHeader
      simp only
      omega

/-- `alloc_from_local_pool` reads `pool_curr` of the first chunk. -/
theorem PsPool.allocFromLocalPool_local (reads : Reads p m m')
    (served : p.allocFromLocalPool supply ⟨m, g⟩ = .ok (ptr, p', ⟨a, g'⟩)) :
    ∃ P a', p.allocFromLocalPool supply ⟨m', g⟩ = .ok (ptr, p', ⟨a', g'⟩) ∧ Writes P m a m' a' ∧
      ∀ x, P x → p'.head_ ≠ 0 ∧ Within p'.head_ poolHeader x := by
  have header {q : PsPool} {x : Nat} (within : Within (q.head_ + 8) 8 x) : Within q.head_ poolHeader x := by
    unfold Within poolHeader at *
    omega
  have test := reads.test
  by_cases full : p.head_ = 0 ∨ p.getFreeCount m = 0
  · cases grown : p.allocFromGlobal supply ⟨m, g⟩ with
    | error fault =>
      unfold PsPool.allocFromLocalPool at served
      simp [if_pos full, grown, bind, Except.bind] at served
    | ok found =>
      obtain ⟨q, b, global⟩ := found
      have here := PsPool.allocFromLocalPool_eq (w := ⟨m, g⟩) ((if_pos full).trans grown)
      rw [here] at served
      obtain ⟨b', grown', some_, writes⟩ := PsPool.allocFromGlobal_local m' grown
      have there := PsPool.allocFromLocalPool_eq (w := ⟨m', g⟩) ((if_pos (test.mpr full)).trans grown')
      obtain ⟨block, carved⟩ := PsPool.carve_local global global (writes.load_eq fun _ => header)
      cases served
      refine ⟨_, _, ?_, writes.trans carved, fun x member => ⟨some_, member.elim id header⟩⟩
      rw [there, block]
      rfl
  · have here : p.allocFromLocalPool supply ⟨m, g⟩ = _ :=
      PsPool.allocFromLocalPool_eq (w := ⟨m, g⟩) (if_neg full)
    have there : p.allocFromLocalPool supply ⟨m', g⟩ = _ :=
      PsPool.allocFromLocalPool_eq (w := ⟨m', g⟩) (if_neg (mt test.mp full))
    rw [here] at served
    obtain ⟨block, carved⟩ := PsPool.carve_local g g (reads.head fun null => full (.inl null))
    cases served
    refine ⟨_, _, ?_, carved, fun x member => ⟨fun null => full (.inl null), header member⟩⟩
    rw [there, block]
    rfl

/-- **`alloc` of a pool reads two words.** -/
theorem PsPool.alloc_local (reads : Reads p m m')
    (served : p.alloc supply ⟨m, g⟩ = .ok (ptr, p', ⟨a, g'⟩)) :
    ∃ P a', p.alloc supply ⟨m', g⟩ = .ok (ptr, p', ⟨a', g'⟩) ∧ Writes P m a m' a' ∧
      ∀ x, P x → p'.head_ ≠ 0 ∧ Within p'.head_ poolHeader x := by
  unfold PsPool.alloc at served ⊢
  by_cases free : p.free_ ≠ 0
  · simp only [if_pos free, pure_bind, if_neg free] at served ⊢
    rw [reads.free free]
    cases served
    exact ⟨_, m', rfl, .nothing m m', fun x none_ => none_.elim⟩
  · simp only [if_neg free] at served ⊢
    cases found : p.allocFromLocalPool supply ⟨m, g⟩ with
    | error fault => simp [found, bind, Except.bind] at served
    | ok result =>
      obtain ⟨block, q, b, global⟩ := result
      obtain ⟨P, b', found', writes⟩ := PsPool.allocFromLocalPool_local reads found
      simp only [found, found', bind, Except.bind] at served ⊢
      by_cases null : block = 0
      · rw [if_pos null] at served ⊢
        cases served
        exact ⟨P, b', rfl, writes⟩
      · rw [if_neg null] at served ⊢
        cases served
        exact ⟨P, b', rfl, writes⟩

/-! ### A thread's pools -/

/-- The header and the fences of a block do not depend on what was there. -/
theorem dress_writes (m m' : Memory) {h bytes : Nat} (info : Meta) (fits : h + blockSize bytes < 2 ^ 64) :
    ∃ P, Writes P m (ThreadPool.dress m h bytes info) m' (ThreadPool.dress m' h bytes info) ∧
      ∀ x, P x → Within h (blockSize bytes) x := by
  have same (writes : List Write) : ∀ m m', ∃ P, Writes P m (runWrites m writes) m' (runWrites m' writes) := by
    induction writes with
    | nil => exact fun m m' => ⟨_, .nothing m m'⟩
    | cons write rest ih =>
      intro m m'
      obtain ⟨P, later⟩ := ih (store m write.address write.width write.value)
        (store m' write.address write.width write.value)
      exact ⟨_, (Writes.store m m' ..).trans later⟩
  have first : Outside _ m (ThreadPool.dress m h bytes info) := dress_outside fits
  have second : Outside _ m' (ThreadPool.dress m' h bytes info) := dress_outside fits
  obtain ⟨P, header⟩ := same (headerWrites h bytes info) m m'
  unfold ThreadPool.dress at *
  simp only [dress_size _ info fits] at *
  obtain ⟨Q, fences⟩ := same (fenceWrites (h + headerSize) bytes) _ _
  exact ⟨_, (header.trans fences).restrict first second, fun x member => member.2⟩

/-- **`alloc` of a thread's pools reads two words of the pool of the class.** It writes to the header of a
chunk and to the block it serves. -/
theorem ThreadPool.alloc_local {t t' : ThreadPool} {malloc bytes : Nat} {info : Meta}
    {origin : Origin SizeClass} (reads : ∀ i, Reads (t.tlsPool i) m m')
    (served : t.alloc supply malloc ⟨m, g⟩ bytes info = .ok (ptr, origin, t', ⟨a, g'⟩))
    (fits : ptr - headerSize - 16 + blockSize bytes < 2 ^ 64) :
    ∃ P a', t.alloc supply malloc ⟨m', g⟩ bytes info = .ok (ptr, origin, t', ⟨a', g'⟩) ∧
      Writes P m a m' a' ∧
      ∀ x, P x → (∃ i, (t'.tlsPool i).head_ ≠ 0 ∧ Within (t'.tlsPool i).head_ poolHeader x) ∨
        Within (ptr - headerSize - 16) (blockSize bytes) x := by
  by_cases small : widened bytes ≤ maxAllocSize getAllocSizeList
  · cases found : (t.tlsPool (classOf (widened bytes))).alloc supply ⟨m, g⟩ with
    | error fault =>
      rw [alloc_fault (serve_fault small found)] at served
      cases served
    | ok result =>
      obtain ⟨block, pool, b, global⟩ := result
      obtain ⟨P, b', found', writes, header⟩ := PsPool.alloc_local (reads _) found
      rw [alloc_of_serve info (serve_pool malloc small found)] at served
      rw [alloc_of_serve info (serve_pool malloc small found')]
      split at served
      · cases served
      · rename_i some_
        cases served
        have start : block + headerSize + 16 - headerSize - 16 = block := by omega
        rw [start] at fits ⊢
        obtain ⟨Q, dressed, inside⟩ := dress_writes b b' info fits
        refine ⟨_, _, if_neg some_, writes.trans dressed, fun x member => ?_⟩
        rcases member with grown | mine
        · have own : (t.set (classOf (widened bytes)) pool).tlsPool (classOf (widened bytes)) = pool :=
            Function.update_self ..
          refine .inl ⟨classOf (widened bytes), ?_⟩
          rw [own]
          exact header x grown
        · exact .inr (inside x mine)
  · rw [alloc_of_serve info (serve_malloc small)] at served ⊢
    split at served
    · cases served
    · rename_i some_
      cases served
      have start : malloc + headerSize + 16 - headerSize - 16 = malloc := by omega
      rw [start] at fits ⊢
      obtain ⟨Q, dressed, inside⟩ := dress_writes m m' info fits
      exact ⟨_, _, if_neg some_, dressed, fun x mine => .inr (inside x mine)⟩

/-! ### What a pool owns -/

/-- **A pool finds its words wherever its bytes are the same.** -/
theorem Represents.reads {L : Layout} (holds : Represents p m L)
    (same : ∀ x, Footprint L x → m' x = m x) : Reads p m m' := by
  refine ⟨fun some_ => ?_, fun some_ => ?_⟩
  · cases frees : L.frees with
    | nil => exact absurd (holds.free_null.mpr frees) some_
    | cons block rest =>
      obtain ⟨first, _⟩ := holds.reuse [] frees
      rw [first]
      refine load_congr fun x low high => same x (.inr ⟨block, ?_, low, high⟩)
      rw [frees]
      exact List.mem_cons_self
  · cases chunks : L.chunks with
    | nil => exact absurd (holds.head_null.mpr chunks) some_
    | cons c rest =>
      rw [holds.head chunks]
      refine load_congr fun x low high => same x (.inl ⟨c, ?_, ?_⟩)
      · rw [chunks]
        exact List.mem_cons_self
      · unfold Within poolHeader
        omega

/-- **Two pools of a family own different bytes.** -/
theorem Family.footprints_apart {ι : Type} [DecidableEq ι] {C : Nat} {pools : ι → PsPool}
    {layout : ι → Layout} {i j : ι} {x : Nat} (family : Family C pools layout m) (different : i ≠ j)
    (first : Footprint (layout i) x) : ¬ Footprint (layout j) x := by
  have link := (family.each i).link
  have link' := (family.each j).link
  have large := family.large i
  have large' := family.large j
  rcases first with ⟨c, chunk, inside⟩ | ⟨block, free, inside⟩ <;>
    rintro (⟨d, chunk', inside'⟩ | ⟨other, free', inside'⟩)
  · have apart := family.apart i j different c.base (List.mem_map_of_mem chunk) d.base
      (List.mem_map_of_mem chunk')
    unfold Apart at apart
    unfold Within poolHeader at *
    omega
  · have apart := family.header_apart (family.carved_free free') (List.mem_map_of_mem chunk)
    unfold Apart at apart
    unfold Within at inside inside'
    omega
  · have apart := family.header_apart (family.carved_free free) (List.mem_map_of_mem chunk')
    unfold Apart at apart
    unfold Within at inside inside'
    omega
  · have apart := family.block_apart (List.mem_append_left _ free) (List.mem_append_left _ free')
      fun same => absurd same different
    unfold Apart at apart
    unfold Within at inside inside'
    omega

end NpAlloc.Pool
