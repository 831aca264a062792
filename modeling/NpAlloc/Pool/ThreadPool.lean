/-
**`thread_local_pool`: `alloc` and `dealloc` with header and fences.**

A request is widened by the 32 bytes of `alloc_header_t` and two 16-byte fences, in 64-bit
arithmetic, and served by the class of the widened size or by `malloc`. `alloc` then writes the
header and the fences, finding the place of the second fence through `h->size`; `dealloc` reads
`h->size` back to find it again, checks the fences in a Debug build, and returns the block where its
size says it came from.

`malloc` stands for the pointer `malloc` returns if it is called; 0 is null.
-/

import NpAlloc.Build
import NpAlloc.Mmap.Address
import NpAlloc.Pool.PsPool
import NpAlloc.Pool.SizeClasses

namespace NpAlloc.Pool

/-- `sizeof(alloc_header_t)`. -/
def sizeofAllocHeader : Nat := 24

def calcAlignedSize (actualSize alignedSize : Nat) : Nat :=
  (actualSize + alignedSize - 1) / alignedSize * alignedSize

def headerSize : Nat := calcAlignedSize sizeofAllocHeader kDefaultAlignSize

/-- `kMemoryFencePadding`. -/
def fencePadding : Fin 4 → Nat
  | 0 => 0xbeefbabe19771218
  | 1 => 0x5ca1ab1e20180721
  | 2 => 0xbeefbabe19771218
  | 3 => 0x5ca1ab1e20180721

/-- What a request records in its header besides its size. -/
structure Meta where
  line : Nat
  /-- The address of the file name. -/
  file : Nat
  /-- The hash of the thread id. -/
  tid : Nat

/-- One store. -/
structure Write where
  address : Nat
  width : Nat
  value : Nat

/-- Stores in order. -/
def runWrites (mem : Memory) (writes : List Write) : Memory :=
  writes.foldl (fun mem write => store mem write.address write.width write.value) mem

/-- The stores to `h->size`, `h->line`, `h->file` and `h->thread_id`. -/
def headerWrites (h bytes : Nat) (info : Meta) : List Write :=
  [⟨h, 8, bytes⟩, ⟨h + 8, 2, info.line % 2 ^ 16⟩, ⟨h + 16, 8, info.file⟩,
    ⟨h + 10, 2, info.tid % 2 ^ 16⟩]

/-- `pre_pad` and `post_pad` for the address after the header. -/
def postPad (p size : Nat) : Nat := (p + 16 + size) % 2 ^ 64

/-- The stores to the two fences. -/
def fenceWrites (p size : Nat) : List Write :=
  [⟨p, 8, fencePadding 0⟩, ⟨p + 8, 8, fencePadding 1⟩, ⟨postPad p size, 8, fencePadding 2⟩,
    ⟨postPad p size + 8, 8, fencePadding 3⟩]

/-- The four words `dealloc` compares. -/
def fencesHold (mem : Memory) (p size : Nat) : Bool :=
  load mem p 8 = fencePadding 0 ∧ load mem (p + 8) 8 = fencePadding 1 ∧
    load mem (postPad p size) 8 = fencePadding 2 ∧ load mem (postPad p size + 8) 8 = fencePadding 3

/-- `alloc_size` of a request. -/
def widened (bytes : Nat) : Nat := ((bytes + headerSize) % 2 ^ 64 + 16 * 2) % 2 ^ 64

/-- The pools of one thread, by class. -/
structure ThreadPool where
  tlsPool : SizeClass → PsPool

/-- Where a block comes from and goes back to: one of the pools, or `malloc`. -/
inductive Origin (ι : Type)
  | pool (i : ι)
  | malloc (ptr : Nat)
deriving DecidableEq

variable {G : Type}

namespace ThreadPool

/-- `init()`. -/
def init : ThreadPool := ⟨fun i => .new (classSize i) Mmap.kDefaultChunkSize⟩

def set (t : ThreadPool) (i : SizeClass) (pool : PsPool) : ThreadPool :=
  ⟨Function.update t.tlsPool i pool⟩

/-- The block a request is served with and where it comes from: its class, or `malloc`. -/
def serve (supply : Supply G) (malloc : Nat) (t : ThreadPool) (w : World G) (bytes : Nat) :
    Except Fault (Nat × Origin SizeClass × ThreadPool × World G) := do
  if widened bytes ≤ maxAllocSize getAllocSizeList then
    let i := classOf (widened bytes)
    let (p, pool, w) ← (t.tlsPool i).alloc supply w
    pure (p, .pool i, t.set i pool, w)
  else
    pure (malloc, .malloc malloc, t, w)

/-- The memory after the stores to the block at `h`. -/
def dress (mem : Memory) (h bytes : Nat) (info : Meta) : Memory :=
  let mem := runWrites mem (headerWrites h bytes info)
  runWrites mem (fenceWrites (h + headerSize) (load mem h 8))

/-- `alloc`, and where it took the block from. -/
def alloc (supply : Supply G) (malloc : Nat) (t : ThreadPool) (w : World G) (bytes : Nat)
    (info : Meta) : Except Fault (Nat × Origin SizeClass × ThreadPool × World G) := do
  let (p, origin, t, w) ← t.serve supply malloc w bytes
  if p = 0 then
    throw .nullWrite
  else
    pure (p + headerSize + 16, origin, t, { w with mem := dress w.mem p bytes info })

/-- `dealloc`, and where it returns the block. -/
def dealloc (build : Build) (t : ThreadPool) (mem : Memory) (ptr : Nat) :
    Except Fault (Origin SizeClass × ThreadPool × Memory) :=
  let h := ptr - headerSize - 16
  let size := load mem h 8
  if build = .debug ∧ fencesHold mem (h + headerSize) size = false then
    .error .aborted
  else if widened size ≤ maxAllocSize getAllocSizeList then
    let i := classOf (widened size)
    let (pool, mem) := (t.tlsPool i).dealloc mem h
    .ok (.pool i, t.set i pool, mem)
  else
    .ok (.malloc h, t, mem)

section Calls

variable {supply : Supply G} {malloc bytes : Nat} {t t' : ThreadPool} {w w' : World G} {h : Nat}
  {origin : Origin SizeClass} {info : Meta}

/-- A request of a class. -/
theorem serve_pool (malloc : Nat) {pool : PsPool} (small : widened bytes ≤ maxAllocSize getAllocSizeList)
    (found : (t.tlsPool (classOf (widened bytes))).alloc supply w = .ok (h, pool, w')) :
    t.serve supply malloc w bytes
      = .ok (h, .pool (classOf (widened bytes)), t.set (classOf (widened bytes)) pool, w') := by
  unfold serve
  rw [if_pos small]
  simp only [found, bind, Except.bind]
  rfl

/-- A request that no class serves. -/
theorem serve_malloc (large : ¬ widened bytes ≤ maxAllocSize getAllocSizeList) :
    t.serve supply malloc w bytes = .ok (malloc, .malloc malloc, t, w) :=
  if_neg large

/-- A class that fails. -/
theorem serve_fault {fault : Fault} (small : widened bytes ≤ maxAllocSize getAllocSizeList)
    (fails : (t.tlsPool (classOf (widened bytes))).alloc supply w = .error fault) :
    t.serve supply malloc w bytes = .error fault := by
  unfold serve
  rw [if_pos small]
  simp only [fails, bind, Except.bind]

/-- A request that is not served. -/
theorem alloc_fault {fault : Fault} (fails : t.serve supply malloc w bytes = .error fault) :
    t.alloc supply malloc w bytes info = .error fault := by
  unfold alloc
  simp only [fails, bind, Except.bind]

/-- **What `alloc` does with what it is served.** -/
theorem alloc_of_serve (info : Meta) (served : t.serve supply malloc w bytes = .ok (h, origin, t', w')) :
    t.alloc supply malloc w bytes info = if h = 0 then .error .nullWrite
      else .ok (h + headerSize + 16, origin, t', { w' with mem := dress w'.mem h bytes info }) := by
  unfold alloc
  simp only [served, bind, Except.bind]
  rfl

/-- **A request was served** with a block of its class, or with what `malloc` returned. -/
theorem alloc_cases {ptr : Nat}
    (served : t.alloc supply malloc w bytes info = .ok (ptr, origin, t', w')) :
    (∃ block pool after, (t.tlsPool (classOf (widened bytes))).alloc supply w = .ok (block, pool, after) ∧
      block ≠ 0 ∧ origin = .pool (classOf (widened bytes)) ∧ t' = t.set (classOf (widened bytes)) pool) ∨
    origin = .malloc malloc ∧ t' = t := by
  by_cases small : widened bytes ≤ maxAllocSize getAllocSizeList
  · cases found : (t.tlsPool (classOf (widened bytes))).alloc supply w with
    | error fault =>
      rw [alloc_fault (serve_fault small found)] at served
      cases served
    | ok result =>
      obtain ⟨block, pool, after⟩ := result
      rw [alloc_of_serve info (serve_pool malloc small found)] at served
      split at served <;> cases served
      exact .inl ⟨block, pool, after, rfl, ‹_›, rfl, rfl⟩
  · rw [alloc_of_serve info (serve_malloc small)] at served
    split at served <;> cases served
    exact .inr ⟨rfl, rfl⟩

end Calls

end ThreadPool

end NpAlloc.Pool
