/-
**`tls_ps_pool` over a byte memory.**

A pool serves blocks of one size. It keeps a chain of chunks through `head_`, each with a header
`pool{next, pool_curr}` in its first 16 bytes, and a chain of freed blocks through `free_`, each with
the link `free_header{next}` in its first 8 bytes. The links are words of the memory.

`Supply` stands for `get_global_pool()->alloc_chunk()`: it takes the state of the global pool, ends
with a failed assertion, or gives a chunk or null. A write through a null pointer ends the call.
-/

import NpAlloc.General.Bytes

namespace NpAlloc.Pool

/-- How a call ends that does not return. -/
inductive Fault
  /-- A write through a null pointer. -/
  | nullWrite
  /-- A failed assertion ends the process. -/
  | aborted
deriving DecidableEq

/-- `get_global_pool()->alloc_chunk()`; null is 0. -/
abbrev Supply (G : Type) := G → Except Fault (Nat × G)

/-- What a pool shares with the rest of the program. -/
structure World (G : Type) where
  mem : Memory
  global : G

/-- The fields of `tls_ps_pool`. -/
structure PsPool where
  head_ : Nat
  free_ : Nat
  allocSize_ : Nat
  chunkSize_ : Nat
  allocated_ : BitVec 64

/-- `sizeof(pool)`. -/
def poolHeader : Nat := 16

variable {G : Type}

namespace PsPool

def new (allocSize chunkSize : Nat) : PsPool := ⟨0, 0, allocSize, chunkSize, 0⟩

def getAllocEnd (p : PsPool) (ptr : Nat) : Nat := (ptr + p.chunkSize_) % 2 ^ 64

/-- `get_free_count()`: blocks left between `head_->pool_curr` and the end of the chunk. -/
def getFreeCount (p : PsPool) (mem : Memory) : Nat :=
  let end_ := p.getAllocEnd p.head_
  let freeSize := (BitVec.ofNat 64 end_ - BitVec.ofNat 64 (load mem (p.head_ + 8) 8)).toInt
  if freeSize ≤ 0 then 0 else freeSize.toNat / p.allocSize_

/-- The tests of `alloc` and `alloc_from_local_pool`: a chunk is needed to serve a block. -/
def Starved (p : PsPool) (mem : Memory) : Prop :=
  p.free_ = 0 ∧ (p.head_ = 0 ∨ p.getFreeCount mem = 0)

instance (p : PsPool) (mem : Memory) : Decidable (p.Starved mem) := by
  unfold Starved
  infer_instance

def allocFromGlobal (supply : Supply G) (p : PsPool) (w : World G) :
    Except Fault (PsPool × World G) := do
  let (newPool, global) ← supply w.global
  if newPool = 0 then
    throw .nullWrite
  else
    let mem := store w.mem (newPool + 8) 8 (newPool + poolHeader)
    let mem := store mem newPool 8 p.head_
    pure ({ p with head_ := newPool }, ⟨mem, global⟩)

/-- The block at `pool_curr`, which moves on. -/
def carve (p : PsPool) (w : World G) : Nat × World G :=
  let ptr := load w.mem (p.head_ + 8) 8
  (ptr, { w with mem := store w.mem (p.head_ + 8) 8 ((ptr + p.allocSize_) % 2 ^ 64) })

def allocFromLocalPool (supply : Supply G) (p : PsPool) (w : World G) :
    Except Fault (Nat × PsPool × World G) := do
  let (p, w) ← if p.head_ = 0 ∨ p.getFreeCount w.mem = 0 then p.allocFromGlobal supply w
    else pure (p, w)
  pure ((p.carve w).1, p, (p.carve w).2)

def alloc (supply : Supply G) (p : PsPool) (w : World G) :
    Except Fault (Nat × PsPool × World G) := do
  let (ptr, p, w) ←
    if p.free_ ≠ 0 then pure (p.free_, { p with free_ := load w.mem p.free_ 8 }, w)
    else p.allocFromLocalPool supply w
  if ptr = 0 then pure (ptr, p, w)
  else pure (ptr, { p with allocated_ := p.allocated_ + 1 }, w)

def dealloc (p : PsPool) (mem : Memory) (ptr : Nat) : PsPool × Memory :=
  ({ p with allocated_ := p.allocated_ - 1, free_ := ptr }, store mem ptr 8 p.free_)

end PsPool

end NpAlloc.Pool
