/-
**What is freed last is allocated first.**

Every thread has one free list for each class, kept in the blocks themselves. Which blocks are on it
follows from what the thread has done: `waiting` is the stack of the pointers it freed and has not been
given again, whichever thread had allocated them. The other threads do not matter, nor do the other
classes, nor what clients write into the blocks they hold.

* `Moved.frees` — what one step does to the free list of a class;
* **`reuse_lifo`** — the list in memory is this stack; while it is not empty, a request of the class gets
  its top, and asks for no chunk.
-/

import NpAlloc.General.Progress
import NpAlloc.Threads.Lists

set_option linter.unusedSectionVars false

namespace NpAlloc.Threads

open Mmap Pool

variable {T : Type} [DecidableEq T] {s s' : State T} {n : Nat} {t u : T} {i j : SizeClass}
  {build : Build} {bytes malloc chunk : Nat} {info : Meta} {b : Block (Index T)}

/-! ### The stack of a thread and a class -/

/-- What a step does to the pointers a thread has freed to a class. -/
def reuse (t : T) (i : SizeClass) (stack : List Nat) (step : State T × Act T) : List Nat :=
  match gives t i step with
  | some ptr => ptr :: stack
  | none => if takes t i step then stack.tail else stack

/-- **The pointers a thread has freed to a class and was not given again**, the last one first. -/
def waiting (build : Build) (n : Nat) (t : T) (i : SizeClass) (start : State T) (acts : List (Act T)) :
    List Nat :=
  ((machine T build n).trail start acts).foldl (reuse t i) []

/-- The free list of a layout, as user pointers. -/
def freePtrs (L : Layout) : List Nat := L.frees.map (· + 48)

theorem waiting_snoc {ok : State T → Act T → Prop} {start : State T} {acts : List (Act T)} {act : Act T}
    (run : (machine T build n).Exec ok start acts s) (next : s.step build act = some s') :
    waiting build n t i start (acts ++ [act]) = reuse t i (waiting build n t i start acts) (s, act) := by
  unfold waiting Machine.trail
  rw [run.along_snoc next, List.foldl_append]
  rfl

/-- **What a step does to a free list.** -/
theorem Moved.frees {step : State T × Act T} {L L' : Layout} (moved : Moved t i step L L') :
    freePtrs L' = reuse t i (freePtrs L) step := by
  unfold reuse freePtrs
  cases moved with
  | taken chunk take give fresh took =>
    rw [give, take, took, Layout.take_frees, List.map_tail]
    rfl
  | given base take give frees chunks =>
    rw [give, frees]
    rfl
  | still take give frees chunks =>
    rw [give, take, frees]
    rfl

/-! ### Runs -/

/-- **The free lists in use are the stacks of what was freed.** -/
theorem waiting_eq {start : State T} {acts : List (Act T)} (initial : State.Init n start)
    (run : (machine T build n).Exec (fun s act => Supplied n s act ∧ Orderly s act) start acts s) :
    Inv n s ∧ ∀ t i, Usable s t i → freePtrs (s.ghost.layout (t, i)) = waiting build n t i start acts := by
  refine run.snoc_induction (P := fun acts s => Inv n s ∧
    ∀ t i, Usable s t i → freePtrs (s.ghost.layout (t, i)) = waiting build n t i start acts) ?_ ?_
  · refine ⟨.init initial, fun t i _ => ?_⟩
    unfold freePtrs
    rw [initial.layout]
    rfl
  · intro acts s act s' front before admitted next
    have after := before.1.orderly_step admitted.1 admitted.2 next
    refine ⟨after, fun t i usable => ?_⟩
    obtain ⟨usable', moved⟩ := moved_step before.1 admitted.1 after next usable
    rw [moved.frees, before.2 t i usable', waiting_snoc front next]

/-- **A request that needs no chunk gets the block its class takes.** -/
theorem Inv.served_take (inv : Inv n s) (idle : s.phase t = .idle) (build : Build) (info : Meta)
    (malloc : Nat) (bound : bytes ≤ 2 ^ 64 - 65) (small : widened bytes ≤ maxAllocSize getAllocSizeList)
    (spare : ¬ NeedsChunk (s.pool t) s.mem bytes) :
    ∃ s', s.step build (.alloc t bytes info malloc) = some s' ∧ s'.live.head?.map Block.ptr
      = some (((s.ghost.layout (t, classOf (widened bytes))).take
          (classSize (classOf (widened bytes))) kDefaultChunkSize 0).1 + 48) := by
  have opens : ∀ j, (s.phase t).Open j := fun j => by
    rw [idle]
    trivial
  have fed : ¬ (s.ghost.layout (t, classOf (widened bytes))).hungry
      (classSize (classOf (widened bytes))) kDefaultChunkSize = true := fun hungry =>
    spare ⟨small, (inv.starved_iff (opens _)).mpr hungry⟩
  obtain ⟨s', _, served, after, _⟩ := inv.allocPool opens (fun _ => .error .aborted) 0 malloc info
    bound small (fun hungry => absurd hungry fed) fun _ => by rw [idle]; rfl
  have next : s.step build (.alloc t bytes info malloc) = some s' :=
    Moves.step (.alloc idle spare served)
  have supplied : Supplied n s (.alloc t bytes info malloc) := ⟨bound, fun large => by omega⟩
  obtain ⟨b, placed⟩ := inv.placed_alloc supplied next
  exact ⟨s', next, placed.head_ptr after small⟩

/-- **What a thread is given next**, in a state that the run reaches. -/
structure Reuses (build : Build) (s : State T) (t : T) (i : SizeClass) (stack : List Nat) : Prop where
  /-- The list that starts at `free_`, in memory. -/
  listed : Linked (linkOf s.mem) (toPtr ((s.pool t).tlsPool i).free_) (stack.map (· - 48))
  /-- A request takes the pointer that was freed last, and asks for no chunk. -/
  served : ∀ ptr rest, stack = ptr :: rest → s.phase t = .idle → ∀ bytes info malloc,
    bytes ≤ 2 ^ 64 - 65 → OfClass bytes i → ¬ NeedsChunk (s.pool t) s.mem bytes ∧
    ∃ s', s.step build (.alloc t bytes info malloc) = some s' ∧ s'.live.head?.map Block.ptr = some ptr

/-- **The free lists are stacks.** In every run of any threads, whose chunks are handed over settled, a
thread that has not given up its list of a class finds on it the pointers it freed and was not given
again, the last one first; while there is one, a request of the class is served with it. -/
theorem reuse_lifo (build : Build) (n : Nat) (start s : State T) (acts : List (Act T))
    (initial : State.Init n start)
    (run : (machine T build n).Exec (fun s act => Supplied n s act ∧ Orderly s act) start acts s)
    (t : T) (i : SizeClass) (opens : (s.phase t).Open i) :
    Reuses build s t i (waiting build n t i start acts) := by
  obtain ⟨inv, lists⟩ := waiting_eq initial run
  rw [← lists t i (.inl opens)]
  have chain := (inv.represents (t, i)).free
  rw [view_open opens] at chain
  refine ⟨?_, fun ptr rest top idle bytes info malloc bound serves => ?_⟩
  · have same : (freePtrs (s.ghost.layout (t, i))).map (· - 48) = (s.ghost.layout (t, i)).frees := by
      unfold freePtrs
      rw [List.map_map]
      exact List.map_id'' (fun block => Nat.add_sub_cancel ..) _
    rwa [same]
  · obtain ⟨small, class_⟩ := serves
    subst class_
    obtain ⟨block, others, frees, rfl⟩ : ∃ block others,
        (s.ghost.layout (t, classOf (widened bytes))).frees = block :: others ∧ block + 48 = ptr := by
      unfold freePtrs at top
      cases frees : (s.ghost.layout (t, classOf (widened bytes))).frees with
      | nil =>
        rw [frees] at top
        cases top
      | cons block others =>
        rw [frees] at top
        exact ⟨block, others, rfl, (List.cons.inj top).1⟩
    have opens' : ∀ j, (s.phase t).Open j := fun j => by
      rw [idle]
      trivial
    have spare : ¬ NeedsChunk (s.pool t) s.mem bytes := by
      rintro ⟨_, starved⟩
      rw [inv.starved_iff opens] at starved
      unfold Layout.hungry at starved
      rw [frees] at starved
      cases starved
    obtain ⟨s', next, given⟩ := inv.served_take idle build info malloc bound small spare
    refine ⟨spare, s', next, ?_⟩
    rw [given]
    unfold Layout.take
    rw [frees]

/-- A thread frees a block of a chunk that was another one's before, and is given it next. -/
theorem reuse_lifo_pair : ∃ (s : State Bool) (ptr : Nat) (rest : List Nat),
    (machine Bool .debug 1).Exec (fun s act => Supplied 1 s act ∧ Orderly s act) State.pair
      (pairCalls ++ [.free false ptr]) s ∧
    waiting .debug 1 false (classOf 164) State.pair (pairCalls ++ [.free false ptr]) = ptr :: rest ∧
    Reuses .debug s false (classOf 164) (ptr :: rest) := by
  obtain ⟨s, b, run, inv, _, idle, live, bytes, _⟩ := pair_orderly .debug
  have member : b ∈ s.live := by
    rw [live]
    exact List.mem_cons_self
  obtain ⟨s', next, _, _, frees⟩ := inv.frees_live idle .debug member
  have serves : OfClass b.bytes (classOf 164) := by
    rw [bytes]
    exact ⟨by decide, rfl⟩
  have top : waiting .debug 1 false (classOf 164) State.pair (pairCalls ++ [.free false b.ptr])
      = b.ptr :: waiting .debug 1 false (classOf 164) State.pair pairCalls := by
    rw [waiting_snoc run next]
    have given : gives false (classOf 164) (s, .free false b.ptr) = some b.ptr :=
      if_pos ⟨rfl, b, member, rfl, serves⟩
    unfold reuse
    rw [given]
  have admitted : Supplied 1 s (.free false b.ptr) ∧ Orderly s (.free false b.ptr) := ⟨trivial, trivial⟩
  refine ⟨s', _, _, run.snoc admitted next, top, ?_⟩
  rw [← top]
  refine reuse_lifo .debug 1 State.pair s' _ State.pair_init (run.snoc admitted next) false
    (classOf 164) ?_
  rw [frees.phase, idle]
  trivial

end NpAlloc.Threads
