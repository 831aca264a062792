/-
**Which requests a block contains.**

`alloc` widens the request in 64-bit arithmetic, chooses a class or `malloc` by the widened size, and
stores the header and the fences without looking at the pointer it was served with.

`Contains` says what a call owes its caller: null, or a pointer whose block holds the header, the
fences and the user bytes, counted without wrapping, and all of the call's own stores.

* **`contains_iff`** — a call meets it exactly if the request is at most `2 ^ 64 - 65` bytes, so that
  the widened size does not wrap, and `malloc` does not refuse it.
-/

import NpAlloc.Pool.Contents

set_option linter.unusedSectionVars false

namespace NpAlloc.Pool

open Mmap (kDefaultChunkSize)

/-- The stores of `alloc` to the block at `h`, in order. -/
def allocWrites (mem : Memory) (h bytes : Nat) (info : Meta) : List Write :=
  headerWrites h bytes info ++
    fenceWrites (h + headerSize) (load (runWrites mem (headerWrites h bytes info)) h 8)

/-- They are what `alloc` does to the memory. -/
theorem dress_eq_runWrites (mem : Memory) (h bytes : Nat) (info : Meta) :
    ThreadPool.dress mem h bytes info = runWrites mem (allocWrites mem h bytes info) := by
  unfold ThreadPool.dress allocWrites runWrites
  rw [List.foldl_append]

/-- The bytes of the block: those of its class, or those `malloc` was asked for. -/
def Origin.room (bytes : Nat) : Origin SizeClass → Nat
  | .pool i => classSize i
  | .malloc _ => widened bytes

/-- **The block at `h` contains the request**: header, fence, user bytes and fence one after the
other, and every store of the call. -/
structure Holds (mem : Memory) (h bytes room : Nat) (info : Meta) : Prop where
  fits : headerSize + 16 + bytes + 16 ≤ room
  writes : ∀ write ∈ allocWrites mem h bytes info,
    h ≤ write.address ∧ write.address + write.width ≤ h + room

/-- **What a call owes**: null, or a pointer behind the header and the fence of a block that contains
the request. -/
def Contains (s : Session) (bytes : Nat) (info : Meta) (chunk malloc : Nat) : Prop :=
  ∃ ptr origin pool w, s.pool.alloc (fun _ => .ok (chunk, ())) malloc ⟨s.mem, ()⟩ bytes info
      = .ok (ptr, origin, pool, w) ∧
    (ptr = 0 ∨ ∃ h w', s.pool.serve (fun _ => .ok (chunk, ())) malloc ⟨s.mem, ()⟩ bytes
        = .ok (h, origin, pool, w') ∧
      ptr = h + headerSize + 16 ∧ Holds w'.mem h bytes (origin.room bytes) info)

/-- **The environment of one call**: a chunk is fresh if it is needed, and `malloc` gives a fresh
region or refuses. -/
structure Answered (s : Session) (bytes chunk malloc : Nat) : Prop where
  chunk : widened bytes ≤ maxAllocSize getAllocSizeList →
    (s.layout (classOf (widened bytes))).hungry (classSize (classOf (widened bytes)))
      kDefaultChunkSize = true →
    0 < chunk ∧ chunk + kDefaultChunkSize < 2 ^ 64 ∧ Unused s.layout s.live chunk kDefaultChunkSize
  malloc : maxAllocSize getAllocSizeList < widened bytes → malloc ≠ 0 →
    malloc + widened bytes < 2 ^ 64 ∧ Unused s.layout s.live malloc (widened bytes)

/-- The condition of `contains_iff`. -/
def Served (bytes malloc : Nat) : Prop :=
  bytes ≤ 2 ^ 64 - 65 ∧ (blockSize bytes ≤ maxAllocSize getAllocSizeList ∨ malloc ≠ 0)

variable {build : Build} {s : Session} {bytes chunk malloc : Nat} {info : Meta}

/-- A request that wraps is widened to less than a header and two fences. -/
theorem widened_wraps (wraps : 2 ^ 64 - 65 < bytes) (word : bytes < 2 ^ 64) :
    widened bytes < 64 := by
  unfold widened
  have header : headerSize = 32 := by decide
  rw [header]
  omega

/-- **A dressed block contains its request.** -/
theorem Inv.holds {b : Block SizeClass} (inv : Inv s) (member : b ∈ s.live) (mem : Memory)
    (info : Meta) : Holds mem b.base b.bytes (b.origin.room b.bytes) info := by
  have header : headerSize = 32 := by decide
  obtain ⟨_, fits⟩ := inv.shape b member
  have room : blockSize b.bytes ≤ b.origin.room b.bytes := by
    cases origin : b.origin with
    | pool i =>
      obtain ⟨_, _, _, fits⟩ := inv.in_pool member origin
      rwa [inv.size] at fits
    | malloc p =>
      show blockSize b.bytes ≤ widened b.bytes
      rw [widened_eq (by unfold blockSize at fits; omega)]
  have size := dress_size mem info fits
  have post := postPad_eq fits
  rw [header] at post
  unfold blockSize at room fits
  refine ⟨by omega, fun write member => ?_⟩
  unfold allocWrites at member
  rw [size, header] at member
  rcases List.mem_append.mp member with first | second
  · simp only [headerWrites, List.mem_cons, List.not_mem_nil, or_false] at first
    rcases first with rfl | rfl | rfl | rfl <;> simp only <;> omega
  · simp only [fenceWrites, post, List.mem_cons, List.not_mem_nil, or_false] at second
    rcases second with rfl | rfl | rfl | rfl <;> simp only <;> omega

/-- **A request that wraps is served by a class**, whose blocks are too small for it. -/
theorem Inv.wraps_not_contained (inv : Inv s) (answered : Answered s bytes chunk malloc)
    (wraps : 2 ^ 64 - 65 < bytes) (word : bytes < 2 ^ 64) : ¬ Contains s bytes info chunk malloc := by
  rintro ⟨ptr, origin, pool, w, result, outcome⟩
  have small : widened bytes ≤ maxAllocSize getAllocSizeList := by
    have narrow := widened_wraps wraps word
    rw [maxAllocSize_eq]
    omega
  have size := inv.size (classOf (widened bytes))
  obtain ⟨local_, w', found, _⟩ := inv.family.alloc (fun _ => .ok (chunk, ())) chunk ()
    (w := ⟨s.mem, ()⟩) (classOf (widened bytes)) (by
      rw [size]
      intro hungry
      obtain ⟨some_, space, unused⟩ := answered.chunk small hungry
      exact ⟨rfl, some_, space, unused.1⟩)
  rw [ThreadPool.alloc_of_serve _ (ThreadPool.serve_pool _ small found)] at result
  split at result
  · cases result
  · cases result
    rcases outcome with null | ⟨h, _, again, _, holds⟩
    · omega
    · have room := (classSize_bounds (classOf (widened bytes))).2
      have fits : headerSize + 16 + bytes + 16 ≤ classSize (classOf (widened bytes)) := holds.fits
      omega

/-- **Exactly the requests that do not wrap and are not refused are contained**, in every state a
sequence of such requests, of `dealloc`s of live pointers and of writes to live blocks reaches. -/
theorem contains_iff (build : Build) (s : Session) (bytes chunk malloc : Nat) (info : Meta)
    (reached : (sessions build).Reachable Supplied s) (word : bytes < 2 ^ 64)
    (answered : Answered s bytes chunk malloc) :
    Contains s bytes info chunk malloc ↔ Served bytes malloc := by
  have inv := Inv.reachable reached
  refine ⟨fun contained => ?_, fun ⟨bound, accepted⟩ => ?_⟩
  · have bound : bytes ≤ 2 ^ 64 - 65 := by
      by_contra wraps
      exact inv.wraps_not_contained answered (by omega) word contained
    refine ⟨bound, ?_⟩
    by_contra refused
    obtain ⟨large, null⟩ := not_or.mp refused
    obtain ⟨ptr, origin, pool, w, result, _⟩ := contained
    rw [← widened_eq bound] at large
    rw [ThreadPool.alloc_of_serve _ (ThreadPool.serve_malloc large), if_pos (not_not.mp null)] at result
    cases result
  · have width := widened_eq bound
    have supplied : Supplied s (.alloc bytes info chunk malloc) := by
      refine ⟨bound, answered.chunk, fun large => ?_⟩
      have some_ : malloc ≠ 0 := accepted.resolve_left (by omega)
      exact ⟨Nat.pos_of_ne_zero some_, answered.malloc large some_⟩
    obtain ⟨base, origin, pool, mem, result, some_, _, after, _⟩ := inv.serve supplied
    refine ⟨_, _, _, _, (ThreadPool.alloc_of_serve _ result).trans (if_neg some_), .inr ?_⟩
    have holds := after.holds List.mem_cons_self mem info
    rw [Block.base_mk] at holds
    exact ⟨base, _, result, rfl, holds⟩

/-- A new pool may be given a chunk at `2 ^ 40`, and `malloc` may refuse. -/
theorem answered_first (bytes : Nat) : Answered Session.first bytes (2 ^ 40) 0 := by
  refine ⟨fun _ _ => ⟨by decide, by decide, fun _ base member => ?_, fun b member => ?_⟩,
    fun _ some_ => absurd rfl some_⟩
  · exact absurd member List.not_mem_nil
  · exact absurd member List.not_mem_nil

/-- A request of 100 bytes from a new pool. -/
theorem contains_iff_hundred :
    Contains Session.first 100 ⟨1, 0, 0⟩ (2 ^ 40) 0 ↔ Served 100 0 :=
  contains_iff .debug _ 100 (2 ^ 40) 0 ⟨1, 0, 0⟩ (.init ⟨rfl, rfl, fun _ => rfl⟩) (by decide)
    (answered_first 100)

/-- **A request of `2 ^ 64 - 1` bytes is served with a 64-byte block**: not every call in a reachable
state with fresh chunks meets what it owes. -/
theorem largest_request_not_contained :
    ¬ ∀ (build : Build) (s : Session) (bytes chunk malloc : Nat) (info : Meta),
      (sessions build).Reachable Supplied s → bytes < 2 ^ 64 → Answered s bytes chunk malloc →
        Contains s bytes info chunk malloc := by
  intro every
  have start : (sessions .debug).init Session.first := ⟨rfl, rfl, fun _ => rfl⟩
  have answered := answered_first (2 ^ 64 - 1)
  have contained := every .debug Session.first (2 ^ 64 - 1) (2 ^ 40) 0 ⟨1, 0, 0⟩ (.init start)
    (by decide) answered
  exact (Inv.init start).wraps_not_contained answered (by decide) (by decide) contained

end NpAlloc.Pool
