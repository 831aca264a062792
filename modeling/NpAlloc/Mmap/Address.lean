/-
**Chunk arithmetic of `np::mmap`.**

The constants of `np_mmap.h` and its two address functions, in 64-bit arithmetic. `chunkAt base i` is
chunk `i` of a reservation at `base`; inside the address space `getChunkIndex` and `getChunkPtr` are
inverse to each other on these.
-/

import Mathlib.Data.Nat.Basic
import Mathlib.Tactic.Linarith

namespace NpAlloc.Mmap

def kDefaultChunkSize : Nat := 1024 * 1024

def kDefaultChunkCount : Nat := 64 * 64

def kDefaultWholeChunkSize : Nat := kDefaultChunkSize * kDefaultChunkCount

/-- `get_chunk_index(ptr)` of a reservation at `ptr_`; `-1` for an address between two chunks. -/
def getChunkIndex (ptr_ ptr : Nat) : Nat :=
  let pos := (ptr + (2 ^ 64 - ptr_)) % 2 ^ 64
  if pos % kDefaultChunkSize ≠ 0 then 2 ^ 64 - 1 else pos / kDefaultChunkSize

/-- `get_chunk_ptr(chunk_index)`. -/
def getChunkPtr (ptr_ chunkIndex : Nat) : Nat :=
  (ptr_ + chunkIndex * kDefaultChunkSize) % 2 ^ 64

/-- The address of chunk `i`. -/
def chunkAt (base i : Nat) : Nat := base + i * kDefaultChunkSize

theorem chunkAt_zero (base : Nat) : chunkAt base 0 = base := by
  simp [chunkAt]

theorem chunkAt_succ (base i : Nat) : chunkAt base (i + 1) = chunkAt base i + kDefaultChunkSize := by
  unfold chunkAt
  rw [Nat.add_one_mul]
  omega

/-- Different indices are different chunks. -/
theorem chunkAt_injective (base : Nat) : Function.Injective (chunkAt base) := by
  intro i j same
  unfold chunkAt kDefaultChunkSize at same
  omega

/-- Chunks are in the order of their indices. -/
theorem chunkAt_lt_iff (base i j : Nat) : chunkAt base i < chunkAt base j ↔ i < j := by
  unfold chunkAt
  rw [Nat.add_lt_add_iff_left]
  exact Nat.mul_lt_mul_right (by decide)

theorem getChunkIndex_chunkAt {base i : Nat} (fits : chunkAt base i < 2 ^ 64) :
    getChunkIndex base (chunkAt base i) = i := by
  have offset : (chunkAt base i + (2 ^ 64 - base)) % 2 ^ 64 = i * kDefaultChunkSize := by
    unfold chunkAt at fits ⊢
    omega
  unfold getChunkIndex
  simp only [offset]
  rw [if_neg (by simp), Nat.mul_div_cancel _ (by decide)]

theorem getChunkPtr_eq {base i : Nat} (fits : chunkAt base i < 2 ^ 64) :
    getChunkPtr base i = chunkAt base i :=
  Nat.mod_eq_of_lt fits

/-- The address after a chunk, as `alloc_chunk_from_new` computes it. -/
theorem next_chunkAt {base i : Nat} (fits : chunkAt base (i + 1) < 2 ^ 64) :
    getChunkPtr base (getChunkIndex base (chunkAt base i) + 1) = chunkAt base (i + 1) := by
  have before : chunkAt base i < 2 ^ 64 := by
    rw [chunkAt_succ] at fits
    omega
  rw [getChunkIndex_chunkAt before, getChunkPtr_eq fits]

end NpAlloc.Mmap
