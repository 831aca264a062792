/-
**`get_alloc_header`: what is known of a block from its pointer.**

`alloc` records the size, the line, the file and the thread of a request in front of the block;
`get_alloc_header` finds the record again from the user pointer. The line and the hash of the thread are
cut to 16 bits.

* **`dress_header`** — what `alloc` wrote is what `get_alloc_header` reads;
* `getAllocHeader_congr` — the record depends on its own 24 bytes only.
-/

import NpAlloc.Pool.Blocks

namespace NpAlloc.Pool

/-- `alloc_header_t`, without its padding. -/
structure AllocHeader where
  size : Nat
  line : Nat
  thread_id : Nat
  /-- The address of the file name. -/
  file : Nat
deriving DecidableEq

/-- The fields behind `get_alloc_header(ptr)`. -/
def getAllocHeader (mem : Memory) (ptr : Nat) : AllocHeader :=
  let h := ptr - headerSize - 16
  ⟨load mem h 8, load mem (h + 8) 2, load mem (h + 10) 2, load mem (h + 16) 8⟩

/-- What `alloc` records of a request. -/
def recorded (bytes : Nat) (info : Meta) : AllocHeader :=
  ⟨bytes, info.line % 2 ^ 16, info.tid % 2 ^ 16, info.file % 2 ^ 64⟩

variable {mem mem' : Memory} {a w v h bytes : Nat} {info : Meta}

/-- A word that does not fit is cut. -/
theorem load_store_mod (mem : Memory) (a w v : Nat) : load (store mem a w v) a w = v % 256 ^ w := by
  rw [load_store_aux mem a a w w v le_rfl le_rfl, Nat.sub_self, Nat.pow_zero, Nat.div_one]

/-- **The record depends on its own bytes only.** -/
theorem getAllocHeader_congr {ptr : Nat} (same : SameOn mem mem' (ptr - headerSize - 16) 24) :
    getAllocHeader mem' ptr = getAllocHeader mem ptr := by
  unfold getAllocHeader
  simp only [AllocHeader.mk.injEq]
  refine ⟨?_, ?_, ?_, ?_⟩ <;> exact load_congr (same.mono (by omega) (by omega))

/-- **`get_alloc_header` reads back what `alloc` wrote.** -/
theorem dress_header (mem : Memory) (info : Meta) (fits : h + blockSize bytes < 2 ^ 64) :
    getAllocHeader (ThreadPool.dress mem h bytes info) (h + 48) = recorded bytes info := by
  have size := dress_size mem info fits
  have post := postPad_eq fits
  have header : headerSize = 32 := by decide
  have start : h + 48 - headerSize - 16 = h := by omega
  rw [header] at post
  -- the fences lie behind the header
  have fences : SameOn (runWrites mem (headerWrites h bytes info))
      (ThreadPool.dress mem h bytes info) h 24 := by
    unfold ThreadPool.dress
    simp only [size, header]
    have written : Outside (fun x => h + 32 ≤ x) (runWrites mem (headerWrites h bytes info))
        (runWrites (runWrites mem (headerWrites h bytes info)) (fenceWrites (h + 32) bytes)) := by
      refine runWrites_outside fun write member x within => ?_
      simp only [fenceWrites, post, List.mem_cons, List.not_mem_nil, or_false] at member
      unfold Within at within
      rcases member with rfl | rfl | rfl | rfl <;> simp only at within <;> omega
    refine written.sameOn fun x within => ?_
    unfold Within at within
    omega
  rw [getAllocHeader_congr (by rw [start]; exact fences)]
  unfold getAllocHeader recorded
  simp only [start, AllocHeader.mk.injEq]
  unfold blockSize at fits
  have width : 256 ^ 8 = 2 ^ 64 := by decide
  refine ⟨size, ?_, ?_, ?_⟩ <;> unfold headerWrites runWrites <;> simp only [List.foldl]
  · rw [load_store_apart (.inr (by omega)), load_store_apart (.inr (by omega)), load_store_mod]
    omega
  · rw [load_store_mod]
    omega
  · rw [load_store_apart (.inl (by omega)), load_store_mod, width]

end NpAlloc.Pool
