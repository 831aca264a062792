/-
**Large blocks: every `malloc` has its `free`.**

A request that no class serves is passed to `malloc`, and nothing remembers it: `np_free` reads the size
in the header again, which any thread may have reached through any pointer it was handed, and decides by
it alone between the pools and `free`. The C heap must see every region given back once, by the pointer
it returned, and no block of a pool.

* `CHeap.step` — the regions the C heap has given out;
* `libcCall` — the call to `malloc` or `free` in a step;
* **`malloc_balanced`** — the C heap accepts every run, and what it has given out are the large live
  blocks.
-/

import NpAlloc.Threads.Heap
import NpAlloc.Threads.Leaks

set_option linter.unusedSectionVars false

namespace NpAlloc.Threads

open Mmap Pool

variable {T : Type} [DecidableEq T] {s s' : State T} {n : Nat} {t u : T} {i j : SizeClass}
  {build : Build} {bytes malloc chunk : Nat} {info : Meta} {b : Block (Index T)}

/-! ### The C heap -/

namespace CHeap

inductive Event
  | malloc (ptr size : Nat)
  | free (ptr : Nat)

/-- A region is given out apart from the others; only its pointer gives it back. -/
def step (regions : List (Nat × Nat)) : Event → Option (List (Nat × Nat))
  | .malloc ptr size =>
    if ∀ region ∈ regions, Apart ptr size region.1 region.2 then some ((ptr, size) :: regions) else none
  | .free ptr =>
    if ∃ region ∈ regions, region.1 = ptr then some (regions.eraseP fun region => region.1 = ptr)
    else none

end CHeap

/-- The call to the C heap in a step. -/
def libcCall (build : Build) (s : State T) (act : Act T) (_ : State T) : Option CHeap.Event :=
  match act with
  | .alloc _ bytes _ malloc =>
    if widened bytes ≤ maxAllocSize getAllocSizeList then none else some (.malloc malloc (widened bytes))
  | .free t ptr =>
    match (s.pool t).dealloc build s.mem ptr with
    | .ok (.malloc h, _, _) => some (.free h)
    | _ => none
  | _ => none

/-- The region of a block, if `malloc` served it. -/
def regionOf (b : Block (Index T)) : Option (Nat × Nat) :=
  match b.origin with
  | .malloc p => some (p, widened b.bytes)
  | .pool _ => none

/-- **The regions of the large live blocks.** -/
def regions (s : State T) : List (Nat × Nat) := s.live.filterMap regionOf

/-! ### One region -/

/-- The region of a live block. -/
theorem Inv.region (inv : Inv n s) (member : b ∈ s.live) {region : Nat × Nat}
    (large : regionOf b = some region) : region = (b.base, blockSize b.bytes) := by
  have housed := inv.housing.housed b member
  obtain ⟨_, fits⟩ := inv.housing.shape b member
  unfold regionOf at large
  unfold Housed at housed
  cases origin : b.origin with
  | pool k =>
    rw [origin] at large
    cases large
  | malloc p =>
    rw [origin] at large housed
    cases large
    rw [housed.1, widened_eq (by unfold blockSize at fits; omega)]

/-- Removing a block without a region removes none. -/
theorem filterMap_erase_none {α β : Type} [DecidableEq α] {f : α → Option β} {a : α} {list : List α}
    (none_ : f a = none) : (list.erase a).filterMap f = list.filterMap f := by
  induction list with
  | nil => rfl
  | cons x rest ih =>
    by_cases same : x = a
    · subst same
      rw [List.erase_cons_head, List.filterMap_cons_none none_]
    · rw [List.erase_cons_tail (by simpa using same), List.filterMap_cons, List.filterMap_cons, ih]

/-! ### Every step -/

/-- **A request that was placed is a call to `malloc`, or none.** -/
theorem Placed.regions (placed : Placed s s' t chunk malloc bytes info b) :
    (widened bytes ≤ maxAllocSize getAllocSizeList → regions s' = regions s) ∧
      (maxAllocSize getAllocSizeList < widened bytes →
        regions s' = (malloc, widened bytes) :: regions s) := by
  unfold Threads.regions
  rw [placed.live]
  refine ⟨fun small => ?_, fun large => ?_⟩
  · refine List.filterMap_cons_none ?_
    unfold regionOf
    rw [(placed.small small).1]
  · refine List.filterMap_cons_some ?_
    unfold regionOf
    rw [(placed.large large).1, placed.size]

/-- **A large request gets a region apart from the others.** -/
theorem Inv.malloc_event (inv : Inv n s) (supplied : Supplied n s (.alloc t bytes info malloc))
    (large : maxAllocSize getAllocSizeList < widened bytes) (some_ : malloc ≠ 0) :
    CHeap.step (regions s) (.malloc malloc (widened bytes))
      = some ((malloc, widened bytes) :: regions s) := by
  obtain ⟨_, _, apart⟩ := supplied.2 large some_
  refine if_pos fun region member => ?_
  obtain ⟨c, live, from_⟩ := List.mem_filterMap.mp member
  rw [inv.region live from_]
  exact apart c live

/-- **`free` is passed the region of the block**, and only for a large one. -/
theorem Inv.free_event (inv : Inv n s) (build : Build) (member : b ∈ s.live)
    (released : Released s s' t b) :
    Machine.Follows CHeap.step (regions s) (libcCall build s (.free t b.ptr) s') (regions s') := by
  obtain ⟨shape, fits⟩ := inv.housing.shape b member
  have intact := inv.housing.intact b member
  unfold libcCall regions
  rw [released.live, shape]
  cases origin : b.origin with
  | pool k =>
    obtain ⟨_, _, small, _⟩ := inv.housing.in_pool member origin
    have result := ThreadPool.dealloc_pool build (s.pool t) intact fits small
    refine .inl ⟨by simp only [result], filterMap_erase_none ?_⟩
    unfold regionOf
    rw [origin]
  | malloc p =>
    have housed := inv.housing.housed b member
    unfold Housed at housed
    rw [origin] at housed
    have result := ThreadPool.dealloc_malloc build (s.pool t) intact fits housed.2.1
    have mine : regionOf b = some (p, widened b.bytes) := by
      unfold regionOf
      rw [origin]
    refine .inr ⟨.free b.base, by simp only [result], ?_⟩
    have present : ∃ region ∈ s.live.filterMap regionOf, region.1 = b.base :=
      ⟨_, List.mem_filterMap.mpr ⟨b, member, mine⟩, housed.1.symm⟩
    refine (if_pos present).trans (congrArg some ?_)
    rw [List.eraseP_filterMap, eraseP_eq_erase]
    -- no other block has a region there
    intro c live
    cases from_ : regionOf c with
    | none =>
      refine iff_of_false (by simp) ?_
      rintro rfl
      rw [mine] at from_
      cases from_
    | some region =>
      have there := inv.region live from_
      subst there
      refine decide_eq_true_iff.trans ⟨inv.housing.base_injective live member, ?_⟩
      rintro rfl
      rfl

/-- **The C heap follows every step.** -/
theorem Inv.libc_step {act : Act T} (inv : Inv n s) (supplied : Supplied n s act)
    (next : s.step build act = some s') :
    Machine.Follows CHeap.step (regions s) (libcCall build s act s') (regions s') := by
  cases moves_of_step next with
  | @alloc t bytes malloc info s' here spare served =>
    obtain ⟨b, placed⟩ := inv.placed_alloc supplied next
    unfold libcCall
    by_cases small : widened bytes ≤ maxAllocSize getAllocSizeList
    · simp only [if_pos small]
      exact .inl ⟨rfl, placed.regions.1 small⟩
    · have some_ : malloc ≠ 0 := by
        rintro rfl
        have refused : (s.pool t).serve (fun _ => .error .aborted) 0 ⟨s.mem, ()⟩ bytes = _ :=
          ThreadPool.serve_malloc small
        have answer := ThreadPool.alloc_of_serve info refused
        rw [if_pos rfl] at answer
        unfold State.allocWith at served
        simp only [answer, reduceCtorEq] at served
      simp only [if_neg small]
      rw [placed.regions.2 (by omega)]
      exact .taken (inv.malloc_event supplied (by omega) some_)
  | @finish t bytes chunk info s' here served =>
    obtain ⟨b, placed⟩ := inv.placed_finish here next
    obtain ⟨_, small, _⟩ := (inv.stands t).starving bytes (by rw [here]; rfl)
    exact .inl ⟨rfl, placed.regions.1 small⟩
  | @free t ptr b s' here found freed =>
    obtain ⟨c, member, rfl, _, released⟩ := inv.released next
    exact inv.free_event build member released
  | write | start | starved | popped | advance | elsewhere | exit | close | unlink | push =>
    exact .inl ⟨rfl, rfl⟩

/-! ### Runs -/

/-- **Every `malloc` has its `free`.** In every run of any threads, whose chunks are handed over settled,
`free` is only ever called with a pointer that `malloc` returned and that was not given back since, by
whichever thread. What `malloc` has given out at the end are the regions of the large live blocks, of the
size it was asked for. -/
theorem malloc_balanced (build : Build) (n : Nat) (start s : State T) (acts : List (Act T))
    (initial : State.Init n start)
    (run : (machine T build n).Exec (fun s act => Supplied n s act ∧ Orderly s act) start acts s) :
    replay CHeap.step [] ((machine T build n).history (libcCall build) start acts) = some (regions s) := by
  have none_ : regions start = [] := by
    unfold regions
    rw [initial.live]
    rfl
  have accepted := (Machine.Exec.replays_abs CHeap.step (libcCall build) regions (Inv.keeps build n)
    (fun s act s' inv admitted next => inv.libc_step admitted.1 next) run (.init initial)).1
  rwa [none_] at accepted

/-- One thread asks for 100000 bytes, and another one frees them. -/
theorem malloc_balanced_pair : ∃ (s : State Bool) (ptr : Nat),
    (machine Bool .debug 1).Exec (fun s act => Supplied 1 s act ∧ Orderly s act) State.pair
      [.start true, .alloc true 100000 ⟨1, 0, 0⟩ (2 ^ 40), .start false, .free false ptr] s ∧
    regions s = [] ∧ replay CHeap.step [] ((machine Bool .debug 1).history (libcCall .debug) State.pair
      [.start true, .alloc true 100000 ⟨1, 0, 0⟩ (2 ^ 40), .start false, .free false ptr])
        = some (regions s) := by
  let s₁ := State.pair.goto true .idle
  have first : State.pair.step .debug (.start true) = some s₁ := rfl
  have starts : ∀ (s : State Bool) t, Supplied 1 s (.start t) ∧ Orderly s (.start t) :=
    fun _ _ => ⟨trivial, trivial⟩
  have inv : Inv 1 s₁ := (Inv.init State.pair_init).keeps .debug 1 _ _ _ (starts _ _) first
  have large : maxAllocSize getAllocSizeList < widened 100000 := by decide
  have outlying : Outlying 1 s₁.ptr_ (2 ^ 40) (widened 100000) := by
    unfold Outlying Apart
    decide
  have fresh : 2 ^ 40 + widened 100000 < 2 ^ 64 ∧ Outlying 1 s₁.ptr_ (2 ^ 40) (widened 100000) ∧
      ∀ b ∈ s₁.live, Apart (2 ^ 40) (widened 100000) b.base (blockSize b.bytes) :=
    ⟨by decide, outlying, fun b member => absurd member List.not_mem_nil⟩
  obtain ⟨s₂, b, served, inv₂, serves, _⟩ := inv.allocMalloc (t := true) (fun _ => trivial) rfl
    (fun _ => .error .aborted) 0 ⟨1, 0, 0⟩ (by decide) large (by decide) fresh
  have spare : ¬ NeedsChunk (s₁.pool true) s₁.mem 100000 := fun need => by
    have small := need.1
    omega
  have second : s₁.step .debug (.alloc true 100000 ⟨1, 0, 0⟩ (2 ^ 40)) = some s₂ :=
    Moves.step (.alloc rfl spare served)
  -- the other thread starts, and frees the block
  let s₃ := s₂.goto false .idle
  have absent : s₂.phase false = .absent := by
    rw [serves.phase]
    rfl
  have third : s₂.step .debug (.start false) = some s₃ := Moves.step (.start absent)
  have inv₃ : Inv 1 s₃ := inv₂.keeps .debug 1 _ _ _ (starts _ _) third
  have idle : s₃.phase false = .idle := by
    show Function.update s₂.phase false .idle false = .idle
    rw [Function.update_self]
  have live : s₃.live = [b] := serves.live
  have member : b ∈ s₃.live := by
    rw [live]
    exact List.mem_singleton_self b
  obtain ⟨s, fourth, _, _, frees⟩ := inv₃.frees_live idle .debug member
  have empty : s.live = [] := by
    rw [frees.live, live]
    simp
  have run : (machine Bool .debug 1).Exec (fun s act => Supplied 1 s act ∧ Orderly s act) State.pair
      [.start true, .alloc true 100000 ⟨1, 0, 0⟩ (2 ^ 40), .start false, .free false b.ptr] s :=
    .cons (starts _ _) first (.cons ⟨⟨by decide, fun _ _ => fresh⟩, trivial⟩ second
      (.cons (starts _ _) third (.single ⟨trivial, trivial⟩ fourth)))
  refine ⟨s, b.ptr, run, ?_, malloc_balanced .debug 1 State.pair s _ State.pair_init run⟩
  unfold regions
  rw [empty]
  rfl

end NpAlloc.Threads
