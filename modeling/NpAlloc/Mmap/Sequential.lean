/-
**`np::mmap` one call at a time: `reserve`, the constructor of `global_pool`, `alloc_chunk` and
`free_chunk`, with their assertions.**

The operating system answers through parameters: `virtualReserve` for the address-space reservations,
and one `Env` for each `alloc_chunk` with the answers to its commit and the number of times its weak
compare-exchange fails spuriously. Every request made to it is in `log`. An assertion that fails in a
Debug build ends the call with that assertion; a Release build has none.

The free stack is the LIFO list that `lf_stack` refines.
-/

import NpAlloc.Build
import NpAlloc.General.Machine
import NpAlloc.Mmap.Address
import Mathlib.Data.BitVec

namespace NpAlloc.Mmap.Sequential

/-- The assertions the two functions can reach. -/
inductive Assertion
  /-- `assert(ptr)` of `get_chunk_index`. -/
  | chunkIndexPtr
  /-- `assert(chunk_index <= get_chunk_count())` of `get_chunk_index`. -/
  | chunkIndexBound
  /-- `assert(chunk_index <= get_chunk_count())` of `get_chunk_ptr`. -/
  | chunkPtrBound
  /-- `assert(base_ptr)` of `get_chunk_ptr`. -/
  | chunkPtrBase
  /-- `assert(index != (uint64)-1)` of `alloc_chunk_from_new`. -/
  | headAligned
  /-- `assert(head)` of `alloc_chunk_from_new`. -/
  | committed
deriving DecidableEq

/-- An assertion of `get_chunk_index` or `get_chunk_ptr`. -/
def Assertion.arithmetic : Assertion → Bool
  | .chunkIndexPtr | .chunkIndexBound | .chunkPtrBound | .chunkPtrBase => true
  | .headAligned | .committed => false

/-- `assert(condition)`. -/
def assert (build : Build) (condition : Bool) (name : Assertion) : Except Assertion Unit :=
  if build = .debug ∧ condition = false then .error name else .ok ()

/-- What the operating system and the processor decide during one `alloc_chunk`. -/
structure Env where
  /-- Spurious failures of `compare_exchange_weak` on `head_`. -/
  spurious : Nat
  /-- `VirtualAlloc`, or `mprotect`, succeeds. -/
  commit : Bool
  /-- The `mmap` with `MAP_FIXED` succeeds. -/
  remap : Bool

/-- A request to the operating system for the memory of a chunk. -/
inductive Request
  | commit (address : Nat)
  | remap (address : Nat)
deriving DecidableEq

/-- The fields of `mmap`; a null pointer is 0. -/
structure Pool where
  ptr_ : Nat
  size_ : Nat
  head_ : Nat
  freeHead : List Nat
  perfAlloc : BitVec 64
  perfDealloc : BitVec 64
  perfAllocFromFree : BitVec 64
  log : List Request

def getChunkCount : Nat := kDefaultChunkCount

/-! ### `reserve` and the constructor of `global_pool` -/

/-- A `mmap` before `reserve`. -/
def Pool.new : Pool := ⟨0, 0, 0, [], 0, 0, 0, []⟩

/-- The attempts of `reserve` from the given one on; the last lets the system choose the address. -/
def reserveFrom (virtualReserve : Nat → Nat → Option Nat) (m : Pool) (size : Nat) :
    List Nat → Pool × Nat
  | [] => (m, 0)
  | i :: rest =>
    let address := if i < 0xf then 0x10000000000 * (i + 1) else 0
    match virtualReserve address size with
    | none => reserveFrom virtualReserve m size rest
    | some v =>
      if m.ptr_ = 0 then ({ m with ptr_ := v, size_ := size, head_ := v }, size)
      else reserveFrom virtualReserve m size rest

/-- `reserve(size)`; 0 when nothing could be reserved. -/
def reserve (virtualReserve : Nat → Nat → Option Nat) (m : Pool) (size : Nat) : Pool × Nat :=
  reserveFrom virtualReserve m size (List.range 16)

/-- The fallback loop: halves down to 64 MB. -/
def fallback (virtualReserve : Nat → Nat → Option Nat) (m : Pool) (size : Nat) : Pool :=
  if 64 * 1024 * 1024 ≤ size then
    let (m', reserved) := reserve virtualReserve m size
    if reserved ≠ 0 then m' else fallback virtualReserve m' (size / 2)
  else m
termination_by size
decreasing_by omega

/-- The constructor of `global_pool`. -/
def globalPool (virtualReserve : Nat → Nat → Option Nat) : Pool :=
  let (m, reserved) := reserve virtualReserve .new kDefaultWholeChunkSize
  if reserved ≠ 0 then m else fallback virtualReserve m (kDefaultWholeChunkSize / 2)

/-! ### `alloc_chunk` and `free_chunk` -/

namespace Pool

/-- `get_chunk_index(ptr)` with its assertions. -/
def chunkIndex (m : Pool) (build : Build) (ptr : Nat) : Except Assertion Nat := do
  assert build (ptr ≠ 0) .chunkIndexPtr
  let pos := (ptr + (2 ^ 64 - m.ptr_)) % 2 ^ 64
  if pos % kDefaultChunkSize ≠ 0 then
    pure (2 ^ 64 - 1)
  else
    assert build (pos / kDefaultChunkSize ≤ getChunkCount) .chunkIndexBound
    pure (pos / kDefaultChunkSize)

/-- `get_chunk_ptr(chunk_index)` with its assertions. -/
def chunkPtr (m : Pool) (build : Build) (chunkIndex : Nat) : Except Assertion Nat := do
  assert build (chunkIndex ≤ getChunkCount) .chunkPtrBound
  assert build (m.ptr_ ≠ 0) .chunkPtrBase
  pure (getChunkPtr m.ptr_ chunkIndex)

/-- The body of the loop of `alloc_chunk_from_new`: the address after `head_`. -/
def nextPtr (m : Pool) (build : Build) : Except Assertion Nat := do
  let index ← m.chunkIndex build m.head_
  assert build (index ≠ 2 ^ 64 - 1) .headAligned
  m.chunkPtr build ((index + 1) % 2 ^ 64)

/-- The loop of `alloc_chunk_from_new`: the old `head_`, or null. A spurious failure of the
compare-exchange reloads the same `head_`. -/
def advance (m : Pool) (build : Build) : Nat → Except Assertion (Nat × Pool)
  | 0 =>
    if m.head_ = 0 then pure (0, m)
    else do
      let next ← m.nextPtr build
      pure (m.head_, { m with head_ := next })
  | spurious + 1 =>
    if m.head_ = 0 then pure (0, m)
    else do
      let _ ← m.nextPtr build
      advance m build spurious

/-- `virtual_alloc(address, chunk_size_)`: the address, or 0. -/
def virtualAlloc (m : Pool) (platform : Platform) (env : Env) (address : Nat) : Nat × Pool :=
  let asked := { m with log := m.log ++ [.commit address] }
  if env.commit then (address, asked)
  else match platform with
    | .windows => (0, asked)
    | .posix =>
      let again := { asked with log := asked.log ++ [.remap address] }
      if env.remap then (address, again) else (0, again)

/-- The rest of `alloc_chunk_from_new`, with `head` advanced over: the commit and its count. -/
def commitChunk (m : Pool) (build : Build) (platform : Platform) (env : Env) (head : Nat) :
    Except Assertion (Nat × Pool) := do
  let (head, m) := m.virtualAlloc platform env head
  assert build (head ≠ 0) .committed
  let _ ← m.chunkIndex build head
  pure (head, { m with perfAlloc := m.perfAlloc + 1 })

def allocChunkFromNew (m : Pool) (build : Build) (platform : Platform) (env : Env) :
    Except Assertion (Nat × Pool) := do
  let (head, m) ← m.advance build env.spurious
  if head = 0 then pure (0, m) else m.commitChunk build platform env head

def allocChunk (m : Pool) (build : Build) (platform : Platform) (env : Env) :
    Except Assertion (Nat × Pool) :=
  match m.freeHead with
  | ptr :: rest => do
    let m := { m with freeHead := rest }
    let _ ← m.chunkIndex build ptr
    pure (ptr, { m with perfAllocFromFree := m.perfAllocFromFree + 1 })
  | [] => m.allocChunkFromNew build platform env

def freeChunk (m : Pool) (ptr : Nat) : Pool :=
  { m with freeHead := ptr :: m.freeHead, perfDealloc := m.perfDealloc + 1 }

end Pool

/-! ### Sequences of calls -/

/-- A `global_pool` and the chunks its client holds. -/
structure Session where
  pool : Pool
  held : List Nat

inductive Call
  | allocChunk (env : Env)
  | freeChunk (ptr : Nat)

/-- One call; nothing follows an assertion that fails. A client frees what it holds. -/
def Session.step (build : Build) (platform : Platform) (s : Session) : Call → Option Session
  | .allocChunk env =>
    match s.pool.allocChunk build platform env with
    | .ok (ptr, pool) => some ⟨pool, if ptr = 0 then s.held else ptr :: s.held⟩
    | .error _ => none
  | .freeChunk ptr =>
    if ptr ∈ s.held then some ⟨s.pool.freeChunk ptr, s.held.erase ptr⟩ else none

/-- The calls on a newly constructed `global_pool`. -/
def machine (build : Build) (platform : Platform) (virtualReserve : Nat → Nat → Option Nat) :
    Machine Session Call where
  init s := s = ⟨globalPool virtualReserve, []⟩
  step := Session.step build platform

end NpAlloc.Mmap.Sequential
