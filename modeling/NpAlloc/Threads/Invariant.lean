/-
**The invariant over all threads.**

`Inv n s` says where every chunk and every block of the program is. Each chunk issued so far is in
exactly one place (`At`): the free stack, the chain of one pool, or the hand of one call. The pools of
all threads are one family, and the live blocks are housed in it. The history `freedBy` agrees with the
free lists: a block is on the list of the thread that freed it last, until that list is given up.

What a step has to show of the memory comes from three facts: chunks in different places do not meet
(`Inv.chunks_apart`), a chunk outside the chains meets no live block (`Inv.unused`), and the free stack
survives what is written outside its chunks (`Inv.stack_frame`).
-/

import NpAlloc.General.Custody
import NpAlloc.Threads.Model

set_option linter.unusedSectionVars false

namespace NpAlloc.Threads

open Mmap Pool

variable {T : Type} [DecidableEq T] {s s' : State T} {n : Nat} {t u : T} {i j : SizeClass}
  {k l : Index T} {c d : Nat} {mem' : Memory}

/-! ### Definitions -/

/-- The chunk a call has in hand. -/
def Phase.hand : Phase → Option Nat
  | .granted _ _ chunk | .handing _ _ chunk => some chunk
  | _ => none

/-- The request a call needs a chunk for. -/
def Phase.request : Phase → Option Nat
  | .starved bytes _ | .granted bytes _ _ => some bytes
  | _ => none

/-- `deinit` of the class is over, or it never had a chunk. -/
def Phase.Done : Phase → SizeClass → Prop
  | .absent, _ | .exited, _ => True
  | .idle, _ | .starved _ _, _ | .granted _ _ _, _ => False
  | .closing i later, j | .handing i later _, j => j ≠ i ∧ j ∉ later

/-- The thread destroys its pools, or has destroyed them. -/
def Phase.Leaving : Phase → Prop
  | .closing _ _ | .handing _ _ _ | .exited => True
  | _ => False

/-- Every class is destroyed once. -/
def Phase.Ordered : Phase → Prop
  | .closing i later | .handing i later _ => (i :: later).Nodup
  | _ => True

/-- A pool as it is used: once `deinit` has read the free list, there is none. -/
def view (s : State T) (k : Index T) : PsPool :=
  if (s.phase k.1).Open k.2 then (s.pool k.1).tlsPool k.2
  else { (s.pool k.1).tlsPool k.2 with free_ := 0 }

/-- Where a chunk can be. -/
inductive Place (T : Type)
  | stack
  | chain (k : Index T)
  | hand (t : T)

/-- **A chunk is in a place.** -/
def At (s : State T) (c : Nat) : Place T → Prop
  | .stack => c ∈ s.ghost.stack
  | .chain k => c ∈ (s.ghost.layout k).bases
  | .hand t => (s.phase t).hand = some c

@[simp] theorem at_stack : At s c .stack ↔ c ∈ s.ghost.stack := Iff.rfl

@[simp] theorem at_chain : At s c (.chain k) ↔ c ∈ (s.ghost.layout k).bases := Iff.rfl

@[simp] theorem at_hand : At s c (.hand t) ↔ (s.phase t).hand = some c := Iff.rfl

/-- **The chunks issued so far.** -/
def Issued (s : State T) (c : Nat) : Prop := ∃ j, c = chunkAt s.ptr_ j ∧ c < s.head_

/-- The chunks issued when the frontier stands after `m` of them. -/
theorem issued_iff {m : Nat} (head : s.head_ = chunkAt s.ptr_ m) (c : Nat) :
    Issued s c ↔ ∃ j, j < m ∧ c = chunkAt s.ptr_ j := by
  unfold Issued
  rw [head]
  constructor
  · rintro ⟨j, rfl, below⟩
    exact ⟨j, (chunkAt_lt_iff _ _ _).mp below, rfl⟩
  · rintro ⟨j, below, rfl⟩
    exact ⟨j, rfl, (chunkAt_lt_iff _ _ _).mpr below⟩

/-- **A phase and the pools of the thread.** -/
structure Stands (pool : ThreadPool) (layout : SizeClass → Layout) (phase : Phase) : Prop where
  ordered : phase.Ordered
  done : ∀ i, phase.Done i → (pool.tlsPool i).head_ = 0
  absent : phase = .absent → pool = .init
  starving : ∀ bytes, phase.request = some bytes → bytes ≤ 2 ^ 64 - 65 ∧
    widened bytes ≤ maxAllocSize getAllocSizeList ∧
    (layout (classOf (widened bytes))).hungry (classSize (classOf (widened bytes)))
      kDefaultChunkSize = true

/-- **The history agrees with the lists.** -/
structure History (s : State T) : Prop where
  carved : ∀ k, ∀ block ∈ (s.ghost.layout k).carved (classSize k.2),
    (∃ l, block ∈ (s.ghost.layout l).blocks) ∨
      ∃ u, s.freedBy block = some u ∧ ¬ (s.phase u).Open k.2
  frees : ∀ k, ∀ block ∈ (s.ghost.layout k).frees, s.freedBy block = some k.1
  live : ∀ k, ∀ block ∈ (s.ghost.layout k).live, s.freedBy block = none
  known : ∀ block u, s.freedBy block = some u → s.phase u ≠ .absent

/-- **A reservation of `n` chunks** and its frontier. -/
structure Reserved (n ptr_ head_ : Nat) : Prop where
  base : 0 < ptr_
  space : ptr_ + n * kDefaultChunkSize < 2 ^ 64
  frontier : ∃ k, k ≤ n ∧ head_ = chunkAt ptr_ k

/-- A region outside the reservation. -/
def Outlying (n ptr_ a size : Nat) : Prop := Apart a size ptr_ (n * kDefaultChunkSize)

/-- **The invariant.** -/
structure Inv (n : Nat) (s : State T) : Prop where
  reserved : Reserved n s.ptr_ s.head_
  located : Located (Issued s) (At s)
  nodup : ∀ k, (s.ghost.layout k).bases.Nodup
  stack : Linked (linkOf s.mem) (toPtr s.freeHead) s.ghost.stack
  housing : Housing Prod.snd (view s) s.ghost.layout s.mem s.live
  heap : ∀ b ∈ s.live, ∀ p, b.origin = .malloc p → Outlying n s.ptr_ b.base (blockSize b.bytes)
  stands : ∀ t, Stands (s.pool t) (fun i => s.ghost.layout (t, i)) (s.phase t)
  history : History s

/-! ### Pools and phases -/

/-- Only what a class still needs depends on the layouts. -/
theorem Stands.congr {pool : ThreadPool} {layout layout' : SizeClass → Layout} {phase : Phase}
    (stands : Stands pool layout phase)
    (same : ∀ i size C, (layout' i).hungry size C = (layout i).hungry size C) :
    Stands pool layout' phase := by
  refine { stands with starving := fun bytes request => ?_ }
  rw [same]
  exact stands.starving bytes request

theorem view_open (here : (s.phase t).Open i) : view s (t, i) = (s.pool t).tlsPool i :=
  if_pos here

theorem view_closed (here : ¬ (s.phase t).Open i) :
    view s (t, i) = { (s.pool t).tlsPool i with free_ := 0 } := if_neg here

theorem view_head (s : State T) (k : Index T) : (view s k).head_ = ((s.pool k.1).tlsPool k.2).head_ := by
  unfold view
  split <;> rfl

/-- The view of one pool depends on that thread only. -/
theorem view_congr (pool : s'.pool k.1 = s.pool k.1)
    (phase : (s'.phase k.1).Open k.2 ↔ (s.phase k.1).Open k.2) : view s' k = view s k := by
  unfold view
  rw [pool]
  by_cases here : (s.phase k.1).Open k.2
  · rw [if_pos here, if_pos (phase.mpr here)]
  · rw [if_neg here, if_neg (mt phase.mp here)]

namespace Inv

/-- A pool in memory. -/
theorem represents (inv : Inv n s) (k : Index T) :
    Represents (view s k) s.mem (s.ghost.layout k) := inv.housing.family.each k

/-- A free list that was given up is empty. -/
theorem frees_nil (inv : Inv n s) (closed : ¬ (s.phase t).Open i) :
    (s.ghost.layout (t, i)).frees = [] := by
  refine (inv.represents (t, i)).free_null.mp ?_
  rw [view_closed closed]

/-- A class that is done has no chunks. -/
theorem bases_nil (inv : Inv n s) (ended : (s.phase t).Done i) :
    (s.ghost.layout (t, i)).bases = [] := by
  have null : (view s (t, i)).head_ = 0 := by
    rw [view_head]
    exact (inv.stands t).done i ended
  unfold Layout.bases
  rw [(inv.represents (t, i)).head_null.mp null]
  rfl

/-- The blocks of a pool are those of its class. -/
theorem size (inv : Inv n s) (k : Index T) : (view s k).allocSize_ = classSize k.2 :=
  inv.housing.size k

/-- **A block carved for one class is used by that class.** -/
theorem class_eq (inv : Inv n s) {block : Nat}
    (carved : block ∈ (s.ghost.layout k).carved (classSize k.2))
    (used : block ∈ (s.ghost.layout l).blocks) : k.2 = l.2 := by
  have family := inv.housing.family
  refine classSize_injective (not_not.mp fun different => ?_)
  have apart := family.carved_apart ⟨k, inv.size k, carved⟩ (family.carved l block used) fun same =>
    absurd (same.trans (inv.size l)) different
  have first := (classSize_bounds k.2).1
  have second := (classSize_bounds l.2).1
  rw [inv.size] at apart
  unfold Apart at apart
  omega

/-! ### Chunks -/

/-- **A chunk lies inside the reservation.** -/
theorem chunk_inside (inv : Inv n s) {p : Place T} (here : At s c p) :
    s.ptr_ ≤ c ∧ c + kDefaultChunkSize ≤ s.ptr_ + n * kDefaultChunkSize := by
  obtain ⟨m, bound, head⟩ := inv.reserved.frontier
  obtain ⟨j, below, rfl⟩ := (issued_iff head c).mp (inv.located.only c p here)
  unfold chunkAt kDefaultChunkSize
  omega

theorem chunk_space (inv : Inv n s) {p : Place T} (here : At s c p) :
    0 < c ∧ c + kDefaultChunkSize < 2 ^ 64 := by
  have inside := inv.chunk_inside here
  have base := inv.reserved.base
  have space := inv.reserved.space
  omega

/-- **Different chunks do not meet.** -/
theorem chunks_apart (inv : Inv n s) {p q : Place T} (here : At s c p) (there : At s d q)
    (different : c ≠ d) : Apart c kDefaultChunkSize d kDefaultChunkSize := by
  obtain ⟨j, rfl, _⟩ := inv.located.only c p here
  obtain ⟨k, rfl, _⟩ := inv.located.only d q there
  have indices : j ≠ k := fun same => different (by rw [same])
  unfold Apart chunkAt kDefaultChunkSize
  omega

/-- A chunk outside the chains meets no chunk of a chain. -/
theorem away (inv : Inv n s) {p : Place T} (here : At s c p) (outside : ∀ k, p ≠ .chain k) :
    Away kDefaultChunkSize s.ghost.layout c kDefaultChunkSize := by
  intro k base chunk
  have there : At s base (.chain k) := chunk
  exact inv.chunks_apart here there (inv.located.ne here there (outside k))

/-- **A live block lies in a chunk of a chain, or outside the reservation.** -/
theorem block_place (inv : Inv n s) {b : Block (Index T)} (member : b ∈ s.live) :
    (∃ k base, At s base (.chain k) ∧ base ≤ b.base ∧
        b.base + blockSize b.bytes ≤ base + kDefaultChunkSize) ∨
      Outlying n s.ptr_ b.base (blockSize b.bytes) := by
  cases origin : b.origin with
  | pool k =>
    obtain ⟨here, _, _, fits⟩ := inv.housing.in_pool member origin
    obtain ⟨l, base, chunk, low, high⟩ := inv.housing.family.inside
      (inv.housing.family.carved_live here)
    exact .inl ⟨l, base, chunk, by omega, by omega⟩
  | malloc p => exact .inr (inv.heap b member p origin)

/-- **A chunk outside the chains is not in use.** -/
theorem unused (inv : Inv n s) {p : Place T} (here : At s c p) (outside : ∀ k, p ≠ .chain k) :
    Unused s.ghost.layout s.live c kDefaultChunkSize := by
  refine ⟨inv.away here outside, fun b member => ?_⟩
  rcases inv.block_place member with ⟨k, base, there, low, high⟩ | apart
  · exact (inv.chunks_apart here there (inv.located.ne here there (outside k))).mono le_rfl le_rfl
      low high
  · have inside := inv.chunk_inside here
    exact (Apart.mono apart le_rfl le_rfl inside.1 inside.2).symm

/-- **The free stack survives what is written outside its chunks.** -/
theorem stack_frame (inv : Inv n s) {P : Nat → Prop} (outside : Outside P s.mem mem')
    (elsewhere : ∀ c ∈ s.ghost.stack, ∀ x, Within c kDefaultChunkSize x → ¬ P x) :
    Linked (linkOf mem') (toPtr s.freeHead) s.ghost.stack := by
  refine inv.stack.congr fun c member => ?_
  unfold linkOf
  rw [load_congr (outside.sameOn fun x within => elsewhere c member x ?_)]
  unfold Within kDefaultChunkSize at *
  omega

/-- A chunk of the free stack meets no chain and no live block. -/
theorem stack_unused (inv : Inv n s) (member : c ∈ s.ghost.stack) :
    Unused s.ghost.layout s.live c kDefaultChunkSize :=
  inv.unused (p := .stack) member fun k => by simp

end Inv

end NpAlloc.Threads
