/-
**What the addresses say: `validate_ptr`, `get_chunk_index`, `get_chunk_ptr`.**

The three functions know the base and the size of the reservation and nothing else. In every state of the
program this is enough to tell the chunks from the blocks inside them, and both from the blocks that come
from `malloc`.

* `getChunkIndex_inside` — an address inside a chunk, past its first byte, has no index;
* **`addresses_classified`** — chunks round trip through their indices, the pointers of the classes are
  valid and have no index, the pointers of `malloc` are not valid.
-/

import NpAlloc.Threads.Conservation
import NpAlloc.Threads.Frames

set_option linter.unusedSectionVars false

namespace NpAlloc.Mmap

/-- `validate_ptr(ptr)` of a reservation of `size_` bytes at `ptr_`. -/
def validatePtr (ptr_ size_ ptr : Nat) : Bool :=
  if ptr < ptr_ then false
  else if (ptr_ + size_) % 2 ^ 64 ≤ ptr then false
  else true

/-- **The valid addresses** are those of the reservation. -/
theorem validatePtr_iff {ptr_ size_ ptr : Nat} (space : ptr_ + size_ < 2 ^ 64) :
    validatePtr ptr_ size_ ptr = true ↔ NpAlloc.Within ptr_ size_ ptr := by
  unfold validatePtr NpAlloc.Within
  rw [Nat.mod_eq_of_lt space]
  split
  · simp
    omega
  · split
    · simp
      omega
    · simp
      omega

/-- **Inside a chunk there is no chunk.** -/
theorem getChunkIndex_inside {base j ptr : Nat} (fits : ptr < 2 ^ 64) (past : chunkAt base j < ptr)
    (inside : ptr < chunkAt base j + kDefaultChunkSize) : getChunkIndex base ptr = 2 ^ 64 - 1 := by
  unfold chunkAt at past inside
  have offset : (ptr + (2 ^ 64 - base)) % 2 ^ 64 = ptr - base := by omega
  have odd : (ptr - base) % kDefaultChunkSize ≠ 0 := by
    unfold kDefaultChunkSize at past inside ⊢
    omega
  unfold getChunkIndex
  simp only [offset, if_pos odd]

/-- The chunk an address lies in. -/
theorem chunk_of_offset {base j ptr : Nat} (low : chunkAt base j ≤ ptr)
    (high : ptr < chunkAt base j + kDefaultChunkSize) : (ptr - base) / kDefaultChunkSize = j := by
  unfold chunkAt kDefaultChunkSize at low high
  unfold kDefaultChunkSize
  omega

end NpAlloc.Mmap

namespace NpAlloc.Threads

open Mmap Pool

variable {T : Type} [DecidableEq T] {s : State T} {n : Nat}

/-- **What the addresses of a state say.** -/
structure Classified (n : Nat) (s : State T) : Prop where
  /-- A chunk is valid, and its index leads back to it. -/
  chunk : ∀ c p, Found s c p → validatePtr s.ptr_ (n * kDefaultChunkSize) c = true ∧
    getChunkIndex s.ptr_ c < n ∧ getChunkPtr s.ptr_ (getChunkIndex s.ptr_ c) = c
  /-- The bytes of a live block are valid exactly if it comes from a class. -/
  valid : ∀ b ∈ s.live, ∀ x, Within b.base (blockSize b.bytes) x →
    (validatePtr s.ptr_ (n * kDefaultChunkSize) x = true ↔ ∃ k, b.origin = .pool k)
  /-- What the program was given is never taken for a chunk. -/
  inner : ∀ b ∈ s.live, ∀ k, b.origin = .pool k → getChunkIndex s.ptr_ b.ptr = 2 ^ 64 - 1
  /-- The chunk around it is in the chain of a pool. -/
  around : ∀ b ∈ s.live, ∀ k, b.origin = .pool k →
    ∃ l, Found s (getChunkPtr s.ptr_ ((b.ptr - s.ptr_) / kDefaultChunkSize)) (.chain l)

/-- **Addresses tell chunks, blocks and `malloc` apart**, in every state that any threads reach when their
chunks are handed over settled. -/
theorem addresses_classified (build : Build) (n : Nat) (s : State T)
    (reached : (machine T build n).Reachable (fun s act => Supplied n s act ∧ Orderly s act) s) :
    Classified n s := by
  have inv : Inv n s := Machine.invariant (fun _ => .init)
    (fun _ _ _ before admitted next => before.orderly_step admitted.1 admitted.2 next) reached
  have space := inv.reserved.space
  obtain ⟨m, bound, head⟩ := inv.reserved.frontier
  have index : ∀ {c p}, At s c p → ∃ j < n, c = chunkAt s.ptr_ j := by
    intro c p here
    obtain ⟨j, below, rfl⟩ := (issued_iff head c).mp (inv.located.only c p here)
    exact ⟨j, by omega, rfl⟩
  -- the block of a class, in its chunk
  have housed : ∀ b ∈ s.live, ∀ k, b.origin = .pool k → ∃ j l, At s (chunkAt s.ptr_ j) (.chain l) ∧
      chunkAt s.ptr_ j + poolHeader ≤ b.base ∧
      b.base + blockSize b.bytes ≤ chunkAt s.ptr_ j + kDefaultChunkSize := by
    intro b member k origin
    obtain ⟨live, _, _, fits⟩ := inv.housing.in_pool member origin
    obtain ⟨l, base, chunk, low, high⟩ := inv.housing.family.inside
      (inv.housing.family.carved_live live)
    have here : At s base (.chain l) := chunk
    obtain ⟨j, _, rfl⟩ := index here
    exact ⟨j, l, here, low, by omega⟩
  have pointer : ∀ b ∈ s.live, b.ptr = b.base + 48 := fun b member =>
    (inv.housing.shape b member).1
  refine ⟨fun c p found => ?_, fun b member x within => ?_, fun b member k origin => ?_,
    fun b member k origin => ?_⟩
  · have here := (inv.found_iff c p).mp found
    have inside := inv.chunk_inside here
    obtain ⟨j, less, rfl⟩ := index here
    have fits : chunkAt s.ptr_ j < 2 ^ 64 := by
      unfold kDefaultChunkSize at inside space
      omega
    rw [validatePtr_iff space, getChunkIndex_chunkAt fits, getChunkPtr_eq fits]
    refine ⟨⟨inside.1, ?_⟩, less, rfl⟩
    unfold kDefaultChunkSize at inside ⊢
    omega
  · rw [validatePtr_iff space]
    cases origin : b.origin with
    | pool k =>
      obtain ⟨j, l, here, low, high⟩ := housed b member k origin
      have inside := inv.chunk_inside here
      unfold Within at within ⊢
      exact iff_of_true ⟨by omega, by omega⟩ ⟨k, rfl⟩
    | malloc p =>
      have outside := inv.heap b member p origin
      refine iff_of_false (Apart.not_within outside within) ?_
      rintro ⟨k, pool⟩
      cases pool
  · obtain ⟨j, l, here, low, high⟩ := housed b member k origin
    have inside := inv.chunk_inside here
    have ptr := pointer b member
    unfold blockSize at high
    exact getChunkIndex_inside (j := j) (by omega) (by omega) (by omega)
  · obtain ⟨j, l, here, low, high⟩ := housed b member k origin
    have inside := inv.chunk_inside here
    have ptr := pointer b member
    unfold blockSize at high
    rw [chunk_of_offset (j := j) (by omega) (by omega),
      getChunkPtr_eq (by unfold kDefaultChunkSize at inside space; omega)]
    exact ⟨l, (inv.found_iff _ _).mpr here⟩

/-- A block in a chunk that changed hands. -/
theorem addresses_classified_pair : ∃ s : State Bool,
    (machine Bool .debug 1).Exec (fun s act => Supplied 1 s act ∧ Orderly s act) State.pair pairCalls s ∧
    s.phase true = .exited ∧ s.live.map Block.bytes = [100] ∧ Classified 1 s := by
  obtain ⟨s, b, run, _, exited, _, live, bytes, _⟩ := pair_orderly .debug
  exact ⟨s, run, exited, by rw [live]; simp [bytes],
    addresses_classified .debug 1 s ⟨State.pair, pairCalls, State.pair_init, run⟩⟩

end NpAlloc.Threads
