/-
**All threads over one memory: `np_alloc`, `np_free` and thread exit.**

Every thread has its `thread_local_pool`; all share the memory, the frontier `head_` of the
reservation and the free stack of chunks, whose links are words of the chunks themselves. A call is
cut where it touches what is shared: the pop of the free stack, the advance of the frontier, and,
between them and after them, the work on the thread's own pool. `deinit` takes each chunk off its
chain, and then pushes it: between the two steps, and after the push, other threads run.

The free stack and the frontier are moved by single steps, commits succeed, and the global pool is
alive.
-/

import NpAlloc.General.Machine
import NpAlloc.Mmap.Address
import NpAlloc.Pool.Blocks

set_option linter.unusedSectionVars false

namespace NpAlloc.Threads

open Mmap Pool

/-- A pool of the program: a thread and a class. -/
abbrev Index (T : Type) := T × SizeClass

/-- Where a thread stands. -/
inductive Phase
  /-- It has not called `thread_local_pool::get()` yet. -/
  | absent
  /-- Between two calls. -/
  | idle
  /-- In `alloc_chunk`, which found the free stack empty. -/
  | starved (bytes : Nat) (info : Meta)
  /-- In `alloc_chunk`, which returns a chunk. -/
  | granted (bytes : Nat) (info : Meta) (chunk : Nat)
  /-- In `deinit` of a class, at `while (head_)`; the other classes are to be destroyed later. -/
  | closing (i : SizeClass) (later : List SizeClass)
  /-- In `deinit` of a class, at `free_chunk(p)`. -/
  | handing (i : SizeClass) (later : List SizeClass) (chunk : Nat)
  | exited

/-- The free list of a class may still be used: `deinit` has not read it to its end. -/
def Phase.Open : Phase → SizeClass → Prop
  | .absent, _ | .exited, _ => False
  | .idle, _ | .starved _ _, _ | .granted _ _ _, _ => True
  | .closing _ later, i | .handing _ later _, i => i ∈ later

instance (phase : Phase) (i : SizeClass) : Decidable (phase.Open i) := by
  cases phase <;> unfold Phase.Open <;> infer_instance

/-- The auxiliary variables of the proof. -/
structure Ghost (T : Type) where
  layout : Index T → Layout
  /-- The chunks of the free stack, the next to be popped first. -/
  stack : List Nat

structure State (T : Type) where
  phase : T → Phase
  pool : T → ThreadPool
  mem : Memory
  ptr_ : Nat
  head_ : Nat
  /-- `free_head_.ptr`. -/
  freeHead : Nat
  /-- The live blocks, each with the pool that served it. -/
  live : List (Block (Index T))
  /-- The thread that freed the block at an address last, if it is not live again. -/
  freedBy : Nat → Option T
  ghost : Ghost T

inductive Act (T : Type)
  /-- The first `thread_local_pool::get()` of a thread. -/
  | start (t : T)
  /-- `np_alloc` of a request that needs no chunk, with what `malloc` returns if it is called. -/
  | alloc (t : T) (bytes : Nat) (info : Meta) (malloc : Nat)
  /-- `np_alloc` of a request that needs a chunk, up to the pop of the free stack. -/
  | pop (t : T) (bytes : Nat) (info : Meta)
  /-- The advance of `head_`. -/
  | advance (t : T)
  /-- The rest of `np_alloc`, with the chunk. -/
  | finish (t : T)
  /-- `np_free` by a thread. -/
  | free (t : T) (ptr : Nat)
  /-- A client writes a byte. -/
  | write (address : Nat) (value : BitVec 8)
  /-- The rest of the program writes a byte. -/
  | elsewhere (address : Nat) (value : BitVec 8)
  /-- A thread exits; its classes are destroyed in the given order. -/
  | exit (t : T) (order : List SizeClass)
  /-- One round of `while (head_)` of `deinit`, up to `free_chunk(p)`. -/
  | unlink (t : T)
  /-- The push of `free_chunk(p)`. -/
  | push (t : T)

variable {T : Type} [DecidableEq T]

/-- The pool a block of a thread comes from. -/
def originOf (t : T) : Origin SizeClass → Origin (Index T)
  | .pool i => .pool (t, i)
  | .malloc p => .malloc p

/-- A request that needs a chunk. -/
def NeedsChunk (pool : ThreadPool) (mem : Memory) (bytes : Nat) : Prop :=
  widened bytes ≤ maxAllocSize getAllocSizeList ∧
    (pool.tlsPool (classOf (widened bytes))).Starved mem

instance (pool : ThreadPool) (mem : Memory) (bytes : Nat) : Decidable (NeedsChunk pool mem bytes) := by
  unfold NeedsChunk
  infer_instance

/-- `deinit` of the next class: it has read its free list, and stands at `while (head_)`. -/
def nextClass : List SizeClass → Phase
  | [] => .exited
  | i :: later => .closing i later

namespace State

def goto (s : State T) (t : T) (phase : Phase) : State T :=
  { s with phase := Function.update s.phase t phase }

/-- The layouts after a block was served. -/
def served (s : State T) (t : T) (chunk : Nat) : Origin SizeClass → Index T → Layout
  | .pool i => Function.update s.ghost.layout (t, i)
      ((s.ghost.layout (t, i)).take (classSize i) kDefaultChunkSize chunk).2
  | .malloc _ => s.ghost.layout

/-- The layouts after a block was freed by a thread. -/
def returned (s : State T) (t : T) (base : Nat) : Origin (Index T) → Index T → Layout
  | .pool k => Family.moved s.ghost.layout k (t, k.2) base
  | .malloc _ => s.ghost.layout

/-- The state after a block was served. -/
def withBlock (s : State T) (t : T) (pool : ThreadPool) (mem : Memory) (b : Block (Index T))
    (layout : Index T → Layout) : State T :=
  { s with
    mem := mem
    pool := Function.update s.pool t pool
    phase := Function.update s.phase t .idle
    live := b :: s.live
    freedBy := Function.update s.freedBy b.base none
    ghost := { s.ghost with layout := layout } }

/-- The state after a block was freed. -/
def withoutBlock (s : State T) (t : T) (pool : ThreadPool) (mem : Memory) (b : Block (Index T)) :
    State T :=
  { s with
    mem := mem
    pool := Function.update s.pool t pool
    live := s.live.erase b
    freedBy := Function.update s.freedBy b.base (some t)
    ghost := { s.ghost with layout := s.returned t b.base b.origin } }

/-- `np_alloc` on the thread's pool, with what `alloc_chunk` does if it is called. -/
def allocWith (s : State T) (t : T) (supply : Supply Unit) (chunk malloc bytes : Nat) (info : Meta) :
    Option (State T) :=
  match (s.pool t).alloc supply malloc ⟨s.mem, ()⟩ bytes info with
  | .error _ => none
  | .ok (ptr, origin, pool, w) =>
    some (s.withBlock t pool w.mem ⟨ptr, bytes, originOf t origin⟩ (s.served t chunk origin))

/-- `np_free` on the thread's pool. -/
def freeWith (build : Build) (s : State T) (t : T) (b : Block (Index T)) : Option (State T) :=
  match (s.pool t).dealloc build s.mem b.ptr with
  | .error _ => none
  | .ok (_, pool, mem) => some (s.withoutBlock t pool mem b)

/-- `deinit` of the next class begins: the walk of its free list has ended, and the list is used no more.
What the walk reads, and where it faults, is `walkFree`. -/
def close (s : State T) (t : T) (order : List SizeClass) : State T :=
  { s with
    phase := Function.update s.phase t (nextClass order)
    ghost := { s.ghost with
      layout := match order with
        | [] => s.ghost.layout
        | i :: _ => Function.update s.ghost.layout (t, i)
            { s.ghost.layout (t, i) with frees := [] } } }

/-- A chunk leaves the chain of a class: `p = head_; head_ = head_->next`. -/
def unlinkHead (s : State T) (t : T) (i : SizeClass) (later : List SizeClass) : State T :=
  let p := (s.pool t).tlsPool i
  { s with
    pool := Function.update s.pool t ((s.pool t).set i { p with head_ := load s.mem p.head_ 8 })
    phase := Function.update s.phase t (.handing i later p.head_)
    ghost := { s.ghost with
      layout := Function.update s.ghost.layout (t, i)
        { s.ghost.layout (t, i) with chunks := (s.ghost.layout (t, i)).chunks.tail } } }

/-- The pop of the free stack. -/
def popped (s : State T) (t : T) (bytes : Nat) (info : Meta) : State T :=
  { s with
    freeHead := load s.mem s.freeHead 8
    phase := Function.update s.phase t (.granted bytes info s.freeHead)
    ghost := { s.ghost with stack := s.ghost.stack.tail } }

/-- The advance of the frontier by one chunk. -/
def advanced (s : State T) (t : T) (bytes : Nat) (info : Meta) : State T :=
  { s with
    head_ := getChunkPtr s.ptr_ (getChunkIndex s.ptr_ s.head_ + 1)
    phase := Function.update s.phase t (.granted bytes info s.head_) }

/-- The push of a chunk. -/
def pushed (s : State T) (t : T) (i : SizeClass) (later : List SizeClass) (chunk : Nat) : State T :=
  { s with
    mem := store s.mem chunk 8 s.freeHead
    freeHead := chunk
    phase := Function.update s.phase t (.closing i later)
    ghost := { s.ghost with stack := chunk :: s.ghost.stack } }

/-- **One step of the program.** -/
def step (build : Build) (s : State T) : Act T → Option (State T)
  | .start t =>
    match s.phase t with
    | .absent => some (s.goto t .idle)
    | _ => none
  | .alloc t bytes info malloc =>
    match s.phase t with
    | .idle =>
      if NeedsChunk (s.pool t) s.mem bytes then none
      else s.allocWith t (fun _ => .error .aborted) 0 malloc bytes info
    | _ => none
  | .pop t bytes info =>
    match s.phase t with
    | .idle =>
      if NeedsChunk (s.pool t) s.mem bytes then
        if s.freeHead = 0 then some (s.goto t (.starved bytes info))
        else some (s.popped t bytes info)
      else none
    | _ => none
  | .advance t =>
    match s.phase t with
    | .starved bytes info => some (s.advanced t bytes info)
    | _ => none
  | .finish t =>
    match s.phase t with
    | .granted bytes info chunk =>
      s.allocWith t (fun _ => .ok (chunk, ())) chunk 0 bytes info
    | _ => none
  | .free t ptr =>
    match s.phase t with
    | .idle =>
      match s.live.find? fun b => b.ptr = ptr with
      | none => none
      | some b => s.freeWith build t b
    | _ => none
  | .write address value =>
    if ∃ b ∈ s.live, Within b.ptr b.bytes address then
      some { s with mem := Function.update s.mem address value }
    else none
  | .elsewhere address value => some { s with mem := Function.update s.mem address value }
  | .exit t order =>
    match s.phase t with
    | .idle => if order.Perm (List.finRange 25) then some (s.close t order) else none
    | _ => none
  | .unlink t =>
    match s.phase t with
    | .closing i later =>
      if ((s.pool t).tlsPool i).head_ = 0 then some (s.close t later)
      else some (s.unlinkHead t i later)
    | _ => none
  | .push t =>
    match s.phase t with
    | .handing i later chunk => some (s.pushed t i later chunk)
    | _ => none

/-- A process whose reservation of `n` chunks is untouched; its memory is arbitrary. -/
structure Init (n : Nat) (s : State T) : Prop where
  base : 0 < s.ptr_
  space : s.ptr_ + n * kDefaultChunkSize < 2 ^ 64
  head : s.head_ = s.ptr_
  freeHead : s.freeHead = 0
  pool : ∀ t, s.pool t = .init
  phase : ∀ t, s.phase t = .absent
  live : s.live = []
  freedBy : ∀ base, s.freedBy base = none
  layout : ∀ k, s.ghost.layout k = .empty
  stack : s.ghost.stack = []

end State

/-- The machine of all threads, on a reservation of `n` chunks. -/
def machine (T : Type) [DecidableEq T] (build : Build) (n : Nat) : Machine (State T) (Act T) where
  init := State.Init n
  step := State.step build

/-- **The environment**: requests do not wrap, what `malloc` returns is null or fresh and outside the
reservation, the reservation is not exhausted, and the rest of the program writes to nothing in use. -/
def Supplied (n : Nat) (s : State T) : Act T → Prop
  | .alloc _ bytes _ malloc => bytes ≤ 2 ^ 64 - 65 ∧
      (maxAllocSize getAllocSizeList < widened bytes → malloc ≠ 0 →
        malloc + widened bytes < 2 ^ 64 ∧
          Apart malloc (widened bytes) s.ptr_ (n * kDefaultChunkSize) ∧
          ∀ b ∈ s.live, Apart malloc (widened bytes) b.base (blockSize b.bytes))
  | .pop _ bytes _ => bytes ≤ 2 ^ 64 - 65
  | .advance _ => s.head_ ≠ s.ptr_ + n * kDefaultChunkSize
  | .elsewhere address _ => Apart address 1 s.ptr_ (n * kDefaultChunkSize) ∧
      ∀ b ∈ s.live, Apart address 1 b.base (blockSize b.bytes)
  | _ => True

/-! ### What a step can do -/

/-- **The steps**, by what they require and what they do. -/
inductive Moves (build : Build) (s : State T) : Act T → State T → Prop
  | start {t : T} (here : s.phase t = .absent) : Moves build s (.start t) (s.goto t .idle)
  | alloc {t : T} {bytes malloc : Nat} {info : Meta} {s' : State T} (here : s.phase t = .idle)
      (spare : ¬ NeedsChunk (s.pool t) s.mem bytes)
      (served : s.allocWith t (fun _ => .error .aborted) 0 malloc bytes info = some s') :
      Moves build s (.alloc t bytes info malloc) s'
  | starved {t : T} {bytes : Nat} {info : Meta} (here : s.phase t = .idle)
      (need : NeedsChunk (s.pool t) s.mem bytes) (empty : s.freeHead = 0) :
      Moves build s (.pop t bytes info) (s.goto t (.starved bytes info))
  | popped {t : T} {bytes : Nat} {info : Meta} (here : s.phase t = .idle)
      (need : NeedsChunk (s.pool t) s.mem bytes) (some_ : s.freeHead ≠ 0) :
      Moves build s (.pop t bytes info) (s.popped t bytes info)
  | advance {t : T} {bytes : Nat} {info : Meta} (here : s.phase t = .starved bytes info) :
      Moves build s (.advance t) (s.advanced t bytes info)
  | finish {t : T} {bytes chunk : Nat} {info : Meta} {s' : State T}
      (here : s.phase t = .granted bytes info chunk)
      (served : s.allocWith t (fun _ => .ok (chunk, ())) chunk 0 bytes info = some s') :
      Moves build s (.finish t) s'
  | free {t : T} {ptr : Nat} {b : Block (Index T)} {s' : State T} (here : s.phase t = .idle)
      (found : s.live.find? (fun b => b.ptr = ptr) = some b) (freed : s.freeWith build t b = some s') :
      Moves build s (.free t ptr) s'
  | write {address : Nat} {value : BitVec 8} {b : Block (Index T)} (member : b ∈ s.live)
      (within : Within b.ptr b.bytes address) :
      Moves build s (.write address value) { s with mem := Function.update s.mem address value }
  | elsewhere {address : Nat} {value : BitVec 8} :
      Moves build s (.elsewhere address value) { s with mem := Function.update s.mem address value }
  | exit {t : T} {order : List SizeClass} (here : s.phase t = .idle)
      (perm : order.Perm (List.finRange 25)) : Moves build s (.exit t order) (s.close t order)
  | close {t : T} {i : SizeClass} {later : List SizeClass} (here : s.phase t = .closing i later)
      (null : ((s.pool t).tlsPool i).head_ = 0) : Moves build s (.unlink t) (s.close t later)
  | unlink {t : T} {i : SizeClass} {later : List SizeClass} (here : s.phase t = .closing i later)
      (some_ : ((s.pool t).tlsPool i).head_ ≠ 0) : Moves build s (.unlink t) (s.unlinkHead t i later)
  | push {t : T} {i : SizeClass} {later : List SizeClass} {chunk : Nat}
      (here : s.phase t = .handing i later chunk) : Moves build s (.push t) (s.pushed t i later chunk)

/-- **Every step is one of them.** -/
theorem moves_of_step {build : Build} {s s' : State T} {act : Act T} (next : s.step build act = some s') :
    Moves build s act s' := by
  cases act with
  | start t =>
    cases here : s.phase t <;> simp only [State.step, here, Option.some.injEq, reduceCtorEq] at next
    exact next ▸ .start here
  | alloc t bytes info malloc =>
    cases here : s.phase t <;> simp only [State.step, here, reduceCtorEq] at next
    split at next
    · cases next
    · rename_i spare
      exact .alloc here spare next
  | pop t bytes info =>
    cases here : s.phase t <;> simp only [State.step, here, reduceCtorEq] at next
    split at next
    · rename_i need
      split at next
      · rename_i empty
        cases next
        exact .starved here need empty
      · rename_i some_
        cases next
        exact .popped here need some_
    · cases next
  | advance t =>
    cases here : s.phase t <;> simp only [State.step, here, Option.some.injEq, reduceCtorEq] at next
    exact next ▸ .advance here
  | finish t =>
    cases here : s.phase t <;> simp only [State.step, here, reduceCtorEq] at next
    exact .finish here next
  | free t ptr =>
    cases here : s.phase t <;> simp only [State.step, here, reduceCtorEq] at next
    split at next
    · cases next
    · rename_i b found
      exact .free here found next
  | write address value =>
    simp only [State.step, Option.ite_none_right_eq_some, Option.some.injEq] at next
    obtain ⟨⟨b, member, within⟩, rfl⟩ := next
    exact .write member within
  | elsewhere address value =>
    cases next
    exact .elsewhere
  | exit t order =>
    cases here : s.phase t <;>
      simp only [State.step, here, Option.ite_none_right_eq_some, Option.some.injEq, reduceCtorEq] at next
    obtain ⟨perm, rfl⟩ := next
    exact .exit here perm
  | unlink t =>
    cases here : s.phase t <;> simp only [State.step, here, reduceCtorEq] at next
    split at next
    · rename_i null
      cases next
      exact .close here null
    · rename_i some_
      cases next
      exact .unlink here some_
  | push t =>
    cases here : s.phase t <;> simp only [State.step, here, Option.some.injEq, reduceCtorEq] at next
    exact next ▸ .push here

/-- And each of them is a step. -/
theorem Moves.step {build : Build} {s s' : State T} {act : Act T} (moves : Moves build s act s') :
    s.step build act = some s' := by
  unfold State.step
  cases moves with
  | start here | advance here | push here => simp only [here]
  | alloc here spare served => simp only [here, if_neg spare, served]
  | starved here need empty => simp only [here, if_pos need, if_pos empty]
  | popped here need some_ => simp only [here, if_pos need, if_neg some_]
  | finish here served => simp only [here, served]
  | free here found freed => simp only [here, found, freed]
  | write member within => exact if_pos ⟨_, member, within⟩
  | elsewhere => rfl
  | exit here perm => simp only [here, if_pos perm]
  | close here null => simp only [here, if_pos null]
  | unlink here some_ => simp only [here, if_neg some_]

end NpAlloc.Threads
