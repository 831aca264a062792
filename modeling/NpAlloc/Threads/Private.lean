/-
**Every thread has an allocator of its own.**

What `np_alloc` returns for a request of a class does not depend on the other threads, nor on what the
memory holds. It follows from what this thread has requested and freed, and from the chunks it was given:
`Shelves` computes it, on lists, without a memory.

* `Shelves.step` — what was freed last is served first, then the blocks of the newest chunk in order, and
  only then another chunk is needed;
* **`shelves_refined`** — in every run of all threads, the shelves of a thread accept what it requests and
  frees with the pointers it is served, and are what the memory holds for it in the end;
* **`threads_isolated`** — so in two runs, of whatever other threads, a thread that makes the same requests
  and is given the same chunks is served the same pointers.
-/

import NpAlloc.General.Answers
import NpAlloc.Threads.Placement

set_option linter.unusedSectionVars false

namespace NpAlloc.Threads

open Mmap Pool

/-! ### Shelves -/

/-- **What a thread keeps of a class**: its chunks, the newest first, with the number of blocks cut from
each, and the pointers it freed and was not served again, the last one first. -/
structure Shelf where
  chunks : List Chunk
  frees : List Nat

namespace Shelf

def empty : Shelf := ⟨[], []⟩

/-- What is served without another chunk. -/
def serve (i : SizeClass) (shelf : Shelf) : Option (Nat × Shelf) :=
  match shelf.frees with
  | ptr :: rest => some (ptr, ⟨shelf.chunks, rest⟩)
  | [] =>
    match shelf.chunks with
    | c :: rest =>
      if c.count < blocksPerChunk i then
        some (blockAt (classSize i) c.base c.count + 48, ⟨⟨c.base, c.count + 1⟩ :: rest, []⟩)
      else none
    | [] => none

/-- A chunk is added, and its first block is served. -/
def grow (chunk : Nat) (shelf : Shelf) : Shelf := ⟨⟨chunk, 1⟩ :: shelf.chunks, shelf.frees⟩

def free (ptr : Nat) (shelf : Shelf) : Shelf := ⟨shelf.chunks, ptr :: shelf.frees⟩

end Shelf

/-- What a thread does with its pools. -/
inductive Own
  /-- A request is served without another chunk. -/
  | served (i : SizeClass) (ptr : Nat)
  /-- A request is served from another chunk. -/
  | grown (i : SizeClass) (chunk ptr : Nat)
  | freed (i : SizeClass) (ptr : Nat)
deriving DecidableEq

/-- What is asked of the pools of a thread. -/
inductive Ask
  | request (i : SizeClass)
  | free (i : SizeClass) (ptr : Nat)
deriving DecidableEq

namespace Own

def asked : Own → Ask
  | .served i _ | .grown i _ _ => .request i
  | .freed i ptr => .free i ptr

def chunk : Own → Option Nat
  | .grown _ chunk _ => some chunk
  | _ => none

end Own

/-- One shelf for each class. -/
abbrev Shelves := SizeClass → Shelf

namespace Shelves

def empty : Shelves := fun _ => .empty

/-- **What a thread is served**, and when it needs another chunk for it. -/
def step (shelves : Shelves) : Own → Option Shelves
  | .served i ptr =>
    match (shelves i).serve i with
    | some (answer, shelf) => if ptr = answer then some (Function.update shelves i shelf) else none
    | none => none
  | .grown i chunk ptr =>
    match (shelves i).serve i with
    | some _ => none
    | none =>
      if ptr = blockAt (classSize i) chunk 0 + 48 then
        some (Function.update shelves i ((shelves i).grow chunk))
      else none
  | .freed i ptr => some (Function.update shelves i ((shelves i).free ptr))

variable {shelves shelves' : Shelves} {i : SizeClass} {chunk ptr : Nat}

theorem step_served : shelves.step (.served i ptr) = some shelves' ↔
    ∃ shelf, (shelves i).serve i = some (ptr, shelf) ∧ Function.update shelves i shelf = shelves' := by
  unfold step
  cases answer : (shelves i).serve i with
  | none => simp [answer]
  | some found =>
    obtain ⟨ptr', shelf⟩ := found
    simp only [answer, Option.ite_none_right_eq_some, Option.some.injEq, Prod.mk.injEq]
    constructor
    · rintro ⟨rfl, same⟩
      exact ⟨shelf, ⟨rfl, rfl⟩, same⟩
    · rintro ⟨shelf', ⟨rfl, rfl⟩, same⟩
      exact ⟨rfl, same⟩

theorem step_grown : shelves.step (.grown i chunk ptr) = some shelves' ↔
    (shelves i).serve i = none ∧ ptr = blockAt (classSize i) chunk 0 + 48 ∧
      Function.update shelves i ((shelves i).grow chunk) = shelves' := by
  unfold step
  cases answer : (shelves i).serve i with
  | none => simp only [answer, Option.ite_none_right_eq_some, Option.some.injEq, true_and]
  | some found => simp [answer]

/-- **The shelves answer by themselves.** -/
theorem forced : Forced step Own.asked Own.chunk := by
  constructor
  · intro shelves first second e e' taken taken' same
    cases e with
    | served i ptr =>
      cases e' with
      | served => rfl
      | grown =>
        cases same
        obtain ⟨shelf, some_, _⟩ := step_served.mp taken
        rw [(step_grown.mp taken').1] at some_
        cases some_
      | freed => cases same
    | grown i chunk ptr =>
      cases e' with
      | served =>
        cases same
        obtain ⟨shelf, some_, _⟩ := step_served.mp taken'
        rw [(step_grown.mp taken).1] at some_
        cases some_
      | grown => rfl
      | freed => cases same
    | freed i ptr =>
      cases e' <;> cases same
      rfl
  · intro shelves first second e e' taken taken' same supplied
    cases e <;> cases e' <;> cases same <;> cases supplied
    · obtain ⟨shelf, answer, _⟩ := step_served.mp taken
      obtain ⟨shelf', answer', _⟩ := step_served.mp taken'
      rw [(Prod.mk.inj (Option.some.inj (answer.symm.trans answer'))).1]
    · rw [(step_grown.mp taken).2.1, (step_grown.mp taken').2.1]
    · rfl

end Shelves

/-! ### The pools of a thread as shelves -/

section Pools

variable {T : Type} [DecidableEq T] {s s' : State T} {n : Nat} {t u : T} {i j : SizeClass} {build : Build}
  {bytes malloc chunk fresh : Nat} {info : Meta} {b : Block (Index T)} {L L' : Layout} {shelves : Shelves}

/-- A layout without its live blocks. -/
def shelfOf (L : Layout) : Shelf := ⟨L.chunks, freePtrs L⟩

/-- **A pool that needs no chunk** serves what its shelf serves. -/
theorem serve_fed (shape : L.Shape (classSize i) kDefaultChunkSize) (fresh : Nat)
    (fed : ¬ L.hungry (classSize i) kDefaultChunkSize = true) :
    (shelfOf L).serve i = some ((L.take (classSize i) kDefaultChunkSize fresh).1 + 48,
      shelfOf (L.take (classSize i) kDefaultChunkSize fresh).2) := by
  unfold Shelf.serve shelfOf freePtrs Layout.take
  cases frees : L.frees with
  | cons block rest => rfl
  | nil =>
    have room : L.full (classSize i) kDefaultChunkSize = false := by
      unfold Layout.hungry at fed
      rw [frees] at fed
      simpa using fed
    obtain ⟨c, rest, head, less⟩ := shape.head_room room
    have inside : c.count < blocksPerChunk i := less
    unfold Layout.carve
    simp only [List.map_nil, room, head, inside, Bool.false_eq_true, if_false, if_true, frees]

/-- **A pool that needs a chunk** serves its first block. -/
theorem serve_hungry (fresh : Nat) (hungry : L.hungry (classSize i) kDefaultChunkSize = true) :
    (shelfOf L).serve i = none ∧
      shelfOf (L.take (classSize i) kDefaultChunkSize fresh).2 = (shelfOf L).grow fresh := by
  obtain ⟨empty, full⟩ := Bool.and_eq_true_iff.mp hungry
  have frees := List.isEmpty_iff.mp empty
  refine ⟨?_, ?_⟩
  · unfold Shelf.serve shelfOf freePtrs
    unfold Layout.full at full
    cases chunks : L.chunks with
    | nil => simp only [frees, List.map_nil]
    | cons c rest =>
      rw [chunks] at full
      have same : c.count = blocksPerChunk i := of_decide_eq_true full
      simp only [frees, List.map_nil, same, Nat.lt_irrefl, if_false]
  · unfold shelfOf Shelf.grow freePtrs Layout.take Layout.carve Layout.grow
    simp only [frees, full, if_true]

/-- **A step that takes nothing from a pool** gives to its shelf, or leaves it. -/
theorem Moved.shelf {step : State T × Act T} (moved : Moved t i step L L') (take : takes t i step = false) :
    shelfOf L' = match gives t i step with
      | some ptr => (shelfOf L).free ptr
      | none => shelfOf L := by
  have frees := moved.frees
  unfold reuse at frees
  cases moved with
  | taken chunk took =>
    rw [take] at took
    cases took
  | given base _ give _ chunks =>
    rw [give] at frees ⊢
    unfold shelfOf Shelf.free
    rw [chunks, frees]
  | still _ give _ chunks =>
    rw [give, take] at frees
    rw [give]
    unfold shelfOf
    rw [chunks, frees]
    rfl

/-! ### What a thread does -/

/-- The pointer of the block that was served last. -/
def newest (s : State T) : Nat := (s.live.head?.map Block.ptr).getD 0

/-- **What a step is for the pools of a thread.** -/
def own (t : T) (s : State T) (act : Act T) (s' : State T) : Option Own :=
  match act with
  | .alloc u bytes _ _ =>
    if u = t ∧ widened bytes ≤ maxAllocSize getAllocSizeList then
      some (.served (classOf (widened bytes)) (newest s'))
    else none
  | .finish u =>
    match s.phase u with
    | .granted bytes _ chunk =>
      if u = t then some (.grown (classOf (widened bytes)) chunk (newest s')) else none
    | _ => none
  | .free u ptr =>
    match s.live.find? fun b => b.ptr = ptr with
    | none => none
    | some b =>
      if u = t ∧ widened b.bytes ≤ maxAllocSize getAllocSizeList then
        some (.freed (classOf (widened b.bytes)) ptr)
      else none
  | _ => none

/-- **The shelves are what the thread has.** -/
def Shelved (s : State T) (t : T) (shelves : Shelves) : Prop :=
  ∀ i, Usable s t i → shelves i = shelfOf (s.ghost.layout (t, i))

/-- A shelf is changed with the pool of its class. -/
theorem Shelved.update {shelf : Shelf} (shelved : Shelved s t shelves) (opens : ∀ i, (s.phase t).Open i)
    (mine : shelf = shelfOf (s'.ghost.layout (t, j)))
    (others : ∀ i, i ≠ j → s'.ghost.layout (t, i) = s.ghost.layout (t, i)) :
    Shelved s' t (Function.update shelves j shelf) := by
  intro i _
  by_cases same : i = j
  · subst same
    rw [Function.update_self, mine]
  · rw [Function.update_of_ne same, shelved i (.inl (opens i)), others i same]

/-- The pool of the class of a request is moved, and no other. -/
theorem Placed.layout (placed : Placed s s' t chunk malloc bytes info b)
    (small : widened bytes ≤ maxAllocSize getAllocSizeList) :
    s'.ghost.layout (t, classOf (widened bytes)) = ((s.ghost.layout (t, classOf (widened bytes))).take
        (classSize (classOf (widened bytes))) kDefaultChunkSize chunk).2 ∧
      ∀ i, i ≠ classOf (widened bytes) → s'.ghost.layout (t, i) = s.ghost.layout (t, i) := by
  obtain ⟨_, _, layout⟩ := placed.small small
  rw [layout]
  exact ⟨Function.update_self .., fun i other => Function.update_of_ne (by simpa using other) _ _⟩

/-- The pointer a request of a class returns. -/
theorem Placed.newest_eq (placed : Placed s s' t chunk malloc bytes info b) (after : Inv n s')
    (small : widened bytes ≤ maxAllocSize getAllocSizeList) :
    newest s' = ((s.ghost.layout (t, classOf (widened bytes))).take
      (classSize (classOf (widened bytes))) kDefaultChunkSize chunk).1 + 48 := by
  unfold newest
  rw [placed.head_ptr after small]
  rfl

/-! ### One step -/

/-- What the thread has no part in leaves its shelves. -/
theorem Inv.own_silent {act : Act T} (inv : Inv n s) (supplied : Supplied n s act) (after : Inv n s')
    (next : s.step build act = some s') (shelved : Shelved s t shelves)
    (take : ∀ i, takes t i (s, act) = false) (give : ∀ i, gives t i (s, act) = none) :
    Shelved s' t shelves := by
  intro i usable
  obtain ⟨usable', moved⟩ := moved_step inv supplied after next usable
  have same := moved.shelf (take i)
  rw [give i] at same
  rw [shelved i usable', same]

/-- **A request without a chunk**, of any thread. -/
theorem Inv.own_alloc (inv : Inv n s) (supplied : Supplied n s (.alloc u bytes info malloc))
    (after : Inv n s') (next : s.step build (.alloc u bytes info malloc) = some s')
    (shelved : Shelved s t shelves) : ∃ shelves',
      Machine.Follows Shelves.step shelves (own t s (.alloc u bytes info malloc) s') shelves' ∧
        Shelved s' t shelves' := by
  by_cases mine : u = t ∧ widened bytes ≤ maxAllocSize getAllocSizeList
  · obtain ⟨rfl, small⟩ := mine
    obtain ⟨b, placed⟩ := inv.placed_alloc supplied next
    obtain ⟨layout, others⟩ := placed.layout small
    cases moves_of_step next with
    | alloc here spare _ =>
      have opens : ∀ i, (s.phase u).Open i := fun i => by
        rw [here]
        trivial
      have fed := fun hungry => spare ⟨small, (inv.starved_iff (opens _)).mpr hungry⟩
      have answer := serve_fed (inv.shape u (classOf (widened bytes))) 0 fed
      rw [← placed.newest_eq after small, ← shelved _ (.inl (opens _))] at answer
      refine ⟨_, ?_, shelved.update opens (congrArg shelfOf layout.symm) others⟩
      have event : own u s (.alloc u bytes info malloc) s'
          = some (.served (classOf (widened bytes)) (newest s')) := if_pos ⟨rfl, small⟩
      rw [event]
      exact .taken (Shelves.step_served.mpr ⟨_, answer, rfl⟩)
  · refine ⟨shelves, .inl ⟨if_neg mine, rfl⟩,
      inv.own_silent supplied after next shelved (fun i => ?_) fun _ => rfl⟩
    exact decide_eq_false fun ofClass => mine ⟨ofClass.1, ofClass.2.1⟩

/-- **A request that was given a chunk**, of any thread. -/
theorem Inv.own_finish (inv : Inv n s) (after : Inv n s') (next : s.step build (.finish u) = some s')
    (shelved : Shelved s t shelves) : ∃ shelves',
      Machine.Follows Shelves.step shelves (own t s (.finish u) s') shelves' ∧ Shelved s' t shelves' := by
  cases moves_of_step next with
  | @finish _ bytes chunk info _ here _ =>
    by_cases mine : u = t
    · subst mine
      obtain ⟨b, placed⟩ := inv.placed_finish here next
      obtain ⟨_, small, hungry⟩ := (inv.stands u).starving bytes (by rw [here]; rfl)
      obtain ⟨layout, others⟩ := placed.layout small
      have opens : ∀ i, (s.phase u).Open i := fun i => by
        rw [here]
        trivial
      obtain ⟨none_, grown⟩ := serve_hungry chunk hungry
      have first := placed.newest_eq after small
      rw [Layout.take_first hungry] at first
      rw [← shelved _ (.inl (opens _))] at none_ grown
      refine ⟨_, ?_, shelved.update opens (grown.symm.trans (congrArg shelfOf layout.symm)) others⟩
      have event : own u s (.finish u) s' = some (.grown (classOf (widened bytes)) chunk (newest s')) := by
        unfold own
        simp only [here, if_true]
      rw [event]
      exact .taken (Shelves.step_grown.mpr ⟨none_, first, rfl⟩)
    · have supplied : Supplied n s (.finish u) := trivial
      refine ⟨shelves, .inl ⟨?_, rfl⟩,
        inv.own_silent supplied after next shelved (fun i => ?_) fun _ => rfl⟩
      · unfold own
        simp only [here, if_neg mine]
      · unfold takes
        simp only [here, mine, false_and, decide_false]

/-- **An `np_free`**, of any thread. -/
theorem Inv.own_free (inv : Inv n s) (after : Inv n s') {ptr : Nat}
    (next : s.step build (.free u ptr) = some s') (shelved : Shelved s t shelves) : ∃ shelves',
      Machine.Follows Shelves.step shelves (own t s (.free u ptr) s') shelves' ∧ Shelved s' t shelves' := by
  have supplied : Supplied n s (.free u ptr) := trivial
  obtain ⟨b, member, rfl, idle, _⟩ := inv.released next
  have found := inv.housing.find member
  by_cases mine : u = t ∧ widened b.bytes ≤ maxAllocSize getAllocSizeList
  · obtain ⟨rfl, small⟩ := mine
    have event : own u s (.free u b.ptr) s' = some (.freed (classOf (widened b.bytes)) b.ptr) := by
      unfold own
      simp only [found, true_and, if_pos small]
    rw [event]
    refine ⟨_, .taken rfl, fun i usable => ?_⟩
    obtain ⟨usable', moved⟩ := moved_step inv supplied after next usable
    rw [moved.shelf rfl, inv.gives_free member]
    by_cases same : i = classOf (widened b.bytes)
    · subst same
      rw [Function.update_self, if_pos ⟨rfl, small, rfl⟩, shelved _ usable']
    · rw [Function.update_of_ne same, if_neg fun given => same given.2.2.symm, shelved i usable']
  · refine ⟨shelves, .inl ⟨?_, rfl⟩,
      inv.own_silent supplied after next shelved (fun _ => rfl) fun i => ?_⟩
    · unfold own
      simp only [found, if_neg mine]
    · rw [inv.gives_free member]
      exact if_neg fun given => mine ⟨given.1, given.2.1⟩

/-- **The shelves of a thread follow every step of the program.** -/
theorem Inv.own_step {act : Act T} (inv : Inv n s) (supplied : Supplied n s act) (after : Inv n s')
    (next : s.step build act = some s') (shelved : Shelved s t shelves) : ∃ shelves',
      Machine.Follows Shelves.step shelves (own t s act s') shelves' ∧ Shelved s' t shelves' := by
  cases act with
  | alloc => exact inv.own_alloc supplied after next shelved
  | finish => exact inv.own_finish after next shelved
  | free => exact inv.own_free after next shelved
  | _ => exact ⟨shelves, .inl ⟨rfl, rfl⟩,
      inv.own_silent supplied after next shelved (fun _ => rfl) fun _ => rfl⟩

/-! ### Runs -/

/-- **A shelf as it lies in memory.** -/
structure Stored (s : State T) (t : T) (i : SizeClass) (shelf : Shelf) : Prop where
  /-- The chain from `head_`. -/
  chain : Linked (linkOf s.mem) (toPtr ((s.pool t).tlsPool i).head_) (shelf.chunks.map Chunk.base)
  /-- Each `pool_curr`. -/
  curr : ∀ c ∈ shelf.chunks, load s.mem (c.base + 8) 8 = blockAt (classSize i) c.base c.count
  /-- The chain from `free_`. -/
  free : Linked (linkOf s.mem) (toPtr ((s.pool t).tlsPool i).free_) (shelf.frees.map (· - 48))

/-- A pool in use stores its shelf. -/
theorem Inv.stored (inv : Inv n s) (opens : (s.phase t).Open i) :
    Stored s t i (shelfOf (s.ghost.layout (t, i))) := by
  have holds := inv.represents (t, i)
  have size := inv.size (t, i)
  rw [view_open opens] at holds size
  refine ⟨holds.chain, fun c member => ?_, ?_⟩
  · rw [holds.curr c member, size]
  · have same : (shelfOf (s.ghost.layout (t, i))).frees.map (· - 48) = (s.ghost.layout (t, i)).frees := by
      unfold shelfOf freePtrs
      rw [List.map_map]
      exact List.map_id'' (fun block => Nat.add_sub_cancel ..) _
    rw [same]
    exact holds.free

/-- The shelves of a thread accept what it does, and go with its pools. -/
theorem shelves_replay {start : State T} {acts : List (Act T)} (initial : State.Init n start)
    (run : (machine T build n).Exec (fun s act => Supplied n s act ∧ Orderly s act) start acts s) (t : T) :
    ∃ shelves, replay Shelves.step .empty ((machine T build n).history (own t) start acts) = some shelves ∧
      Inv n s ∧ Shelved s t shelves := by
  refine run.replays Shelves.step (own t) (fun s shelves => Inv n s ∧ Shelved s t shelves) ?_
    ⟨.init initial, fun i _ => ?_⟩
  · rintro s act s' shelves ⟨inv, shelved⟩ admitted next
    have after := inv.keeps build n s act s' admitted next
    obtain ⟨shelves', followed, shelved'⟩ := inv.own_step admitted.1 after next shelved
    exact ⟨shelves', followed, after, shelved'⟩
  · rw [initial.layout]
    rfl

/-- **Every thread has an allocator of its own.** In every run of any threads, whose chunks are handed over
settled, the shelves of a thread accept what it did: every pointer it was served is the one they serve, and
it was given a chunk exactly when they have nothing to serve. For the classes it has not given up they are
what the memory holds: the chain of chunks, each `pool_curr`, and the list of free blocks. -/
theorem shelves_refined (build : Build) (n : Nat) (start s : State T) (acts : List (Act T))
    (initial : State.Init n start)
    (run : (machine T build n).Exec (fun s act => Supplied n s act ∧ Orderly s act) start acts s) (t : T) :
    ∃ shelves, replay Shelves.step .empty ((machine T build n).history (own t) start acts) = some shelves ∧
      ∀ i, (s.phase t).Open i → Stored s t i (shelves i) := by
  obtain ⟨shelves, accepted, inv, shelved⟩ := shelves_replay initial run t
  refine ⟨shelves, accepted, fun i opens => ?_⟩
  rw [shelved i (.inl opens)]
  exact inv.stored opens

end Pools

/-- **Threads are isolated from each other.** Take any two runs, of programs with whatever threads, on
whatever reservations and memories, in either build, in which hand-overs are settled. If a thread of the one
makes the same requests and frees of classes as a thread of the other, and they are given the same chunks in
the same order, then they are served the same pointers, and need their chunks for the same requests. -/
theorem threads_isolated {T T' : Type} [DecidableEq T] [DecidableEq T'] (build build' : Build) (n n' : Nat)
    (start s : State T) (start' s' : State T') (acts : List (Act T)) (acts' : List (Act T'))
    (initial : State.Init n start) (initial' : State.Init n' start')
    (run : (machine T build n).Exec (fun s act => Supplied n s act ∧ Orderly s act) start acts s)
    (run' : (machine T' build' n').Exec (fun s act => Supplied n' s act ∧ Orderly s act) start' acts' s')
    (t : T) (t' : T')
    (asked : ((machine T build n).history (own t) start acts).map Own.asked
      = ((machine T' build' n').history (own t') start' acts').map Own.asked)
    (given : ((machine T build n).history (own t) start acts).filterMap Own.chunk
      = ((machine T' build' n').history (own t') start' acts').filterMap Own.chunk) :
    (machine T build n).history (own t) start acts
      = (machine T' build' n').history (own t') start' acts' := by
  obtain ⟨_, accepted, _⟩ := shelves_replay initial run t
  obtain ⟨_, accepted', _⟩ := shelves_replay initial' run' t'
  exact Shelves.forced.replay_eq accepted accepted' asked given

/-! ### A chunk that changes hands -/

/-- The actions of other threads are none of a thread's own. -/
theorem history_others {T : Type} [DecidableEq T] {build : Build} {n : Nat} {t : T} {s s' : State T}
    {ok : State T → Act T → Prop} {acts : List (Act T)} (run : (machine T build n).Exec ok s acts s')
    (others : ∀ s, ∀ act ∈ acts, ∀ s', own t s act s' = none) :
    (machine T build n).history (own t) s acts = [] := by
  induction run with
  | nil => rfl
  | @cons s middle _ act _ _ next _ ih =>
    rw [Machine.history_cons next, others s act List.mem_cons_self middle,
      ih fun s act member => others s act (.tail _ member)]
    rfl

/-- **What a thread does that is given the chunk of the free stack.** -/
theorem own_taking {T : Type} [DecidableEq T] {build : Build} {n : Nat} {u : T} {s s' : State T}
    {ok : State T → Act T → Prop} (some_ : s.freeHead ≠ 0)
    (run : (machine T build n).Exec ok s (taking u) s') :
    (machine T build n).history (own u) s (taking u)
      = [.grown (classOf (widened 100)) s.freeHead (newest s')] := by
  unfold taking at run ⊢
  cases run with
  | @cons _ s₁ _ _ _ _ starts run =>
    cases run with
    | @cons _ s₂ _ _ _ _ pops run =>
      cases run with
      | cons _ finishes run =>
        cases run with
        | nil =>
          rw [Machine.history_cons starts, Machine.history_cons pops, Machine.history_cons finishes]
          have first : s.step build (.start u) = some s₁ := starts
          have second : s₁.step build (.pop u 100 ⟨1, 0, 0⟩) = some s₂ := pops
          have granted : s₂.phase u = .granted 100 ⟨1, 0, 0⟩ s.freeHead := by
            cases moves_of_step first with
            | start =>
              cases moves_of_step second with
              | starved _ _ empty => exact absurd empty some_
              | popped => exact Function.update_self ..
          have last : own u s₂ (.finish u) s'
              = some (.grown (classOf (widened 100)) s.freeHead (newest s')) := by
            unfold own
            simp only [granted, if_true]
          rw [last]
          rfl

/-- **What the second thread does**: another one had its chunk before. -/
theorem pair_own {build : Build} {freed gone s : State Bool} {b : Block (Index Bool)}
    (recycles : Recycles build 1 true false State.pair freed gone s b) :
    (machine Bool build 1).history (own false) State.pair pairCalls
      = [.grown (classOf (widened 100)) (2 ^ 30) (newest s)] := by
  have front := recycles.borrows.append (.cons recycles.tidy recycles.exits recycles.retires)
  have split : pairCalls = (borrowing true State.pair.ptr_ ++ .exit true exitOrder :: retiring true)
      ++ taking false := by
    unfold pairCalls recycling
    rw [List.append_assoc]
    rfl
  have quiet : ∀ (s : State Bool) act,
      act ∈ borrowing true State.pair.ptr_ ++ .exit true exitOrder :: retiring true →
      ∀ s', own false s act s' = none := fun s act member s' => by
    simp only [borrowing, firstRequest, retiring, List.mem_append, List.mem_cons, List.not_mem_nil,
      or_false, List.mem_replicate] at member
    rcases member with ((rfl | rfl | rfl | rfl) | rfl) | rfl | (rfl | rfl) | ⟨_, rfl⟩
    all_goals
      unfold own
      simp only
    all_goals
      split <;> simp
  have positive : gone.freeHead ≠ 0 := by
    rw [recycles.freeHead]
    decide
  rw [split, front.history_append, history_others front quiet,
    own_taking positive recycles.takes, recycles.freeHead]
  rfl

/-- A chunk that was not there before is at the frontier. -/
theorem first_steps {build : Build} {s₁ s₂ s₃ : State Unit} (s : State Unit) {chunk : Nat}
    (start : s₁.freeHead = 0) (head : s₁.head_ = chunk)
    (pops : (machine Unit build 1).step s₁ (.pop () 100 ⟨1, 0, 0⟩) = some s₂)
    (advances : (machine Unit build 1).step s₂ (.advance ()) = some s₃) :
    own () s₃ (.finish ()) s = some (.grown (classOf (widened 100)) chunk (newest s)) := by
  have pops : s₁.step build (.pop () 100 ⟨1, 0, 0⟩) = some s₂ := pops
  have advances : s₂.step build (.advance ()) = some s₃ := advances
  cases moves_of_step pops with
  | popped _ _ some_ => exact absurd start some_
  | starved _ need empty =>
    cases moves_of_step advances with
    | advance here =>
      obtain ⟨rfl, rfl⟩ := Phase.starved.inj here
      unfold own
      have granted : ((s₁.goto () (.starved 100 ⟨1, 0, 0⟩)).advanced () 100 ⟨1, 0, 0⟩).phase ()
          = .granted 100 ⟨1, 0, 0⟩ s₁.head_ := rfl
      simp only [granted, head, if_true]

/-- What a thread does that is alone. -/
theorem first_own {build : Build} {ok : State Unit → Act Unit → Prop} {s : State Unit}
    (run : (machine Unit build 1).Exec ok State.first firstCalls s) :
    (machine Unit build 1).history (own ()) State.first firstCalls
      = [.grown (classOf (widened 100)) (2 ^ 30) (newest s)] := by
  unfold firstCalls at *
  cases run with
  | cons _ starts run =>
    cases run with
    | cons _ pops run =>
      cases run with
      | cons _ advances run =>
        cases run with
        | cons _ finishes run =>
          cases run with
          | nil =>
            rw [Machine.history_cons starts, Machine.history_cons pops, Machine.history_cons advances,
              Machine.history_cons finishes]
            obtain rfl := Option.some.inj starts
            rw [first_steps s rfl rfl pops advances]
            rfl

/-- The shelves of a thread whose chunk was another one's before. -/
theorem shelves_refined_pair : ∃ (s : State Bool) (shelves : Shelves),
    (machine Bool .debug 1).Exec (fun s act => Supplied 1 s act ∧ Orderly s act) State.pair pairCalls s ∧
    s.phase true = .exited ∧ s.live.map Block.bytes = [100] ∧
    replay Shelves.step .empty ((machine Bool .debug 1).history (own false) State.pair pairCalls)
      = some shelves ∧
    Shelves.empty.step (.grown (classOf (widened 100)) (2 ^ 30) (newest s)) = some shelves ∧
    Stored s false (classOf 164) (shelves (classOf 164)) := by
  obtain ⟨_, _, s, b, recycles⟩ := pair_recycles .debug
  have run : (machine Bool .debug 1).Exec (fun s act => Supplied 1 s act ∧ Orderly s act) State.pair
      pairCalls s := recycles.run.mono fun s act tidy => ⟨tidy.1, tidy.2.1⟩
  obtain ⟨shelves, accepted, stored⟩ :=
    shelves_refined .debug 1 State.pair s pairCalls State.pair_init run false
  have taken := accepted
  rw [pair_own recycles] at taken
  obtain ⟨_, taken, ⟨⟩⟩ := Option.bind_eq_some_iff.mp taken
  exact ⟨s, shelves, run, recycles.exited, by rw [recycles.live]; simp [recycles.bytes], accepted, taken,
    stored _ (by rw [recycles.taker]; trivial)⟩

/-- A thread that is alone, and one that comes after another, in the other build. -/
theorem threads_isolated_pair : ∃ (s : State Unit) (s' : State Bool),
    (machine Unit .debug 1).Exec (fun s act => Supplied 1 s act ∧ Orderly s act) State.first firstCalls s ∧
    (machine Bool .release 1).Exec (fun s act => Supplied 1 s act ∧ Orderly s act) State.pair pairCalls s' ∧
    s.live.map Block.bytes = [100] ∧ s'.live.map Block.bytes = [100] ∧
    (machine Unit .debug 1).history (own ()) State.first firstCalls
      = (machine Bool .release 1).history (own false) State.pair pairCalls := by
  obtain ⟨s, b, run, _, _, live, bytes, _⟩ :=
    first_request .debug (fun s act => Supplied 1 s act ∧ Orderly s act) fun s act member supplied =>
      ⟨supplied, by
        simp only [firstCalls, List.mem_cons, List.not_mem_nil, or_false] at member
        rcases member with rfl | rfl | rfl | rfl <;> trivial⟩
  obtain ⟨_, _, s', b', recycles⟩ := pair_recycles .release
  have run' : (machine Bool .release 1).Exec (fun s act => Supplied 1 s act ∧ Orderly s act) State.pair
      pairCalls s' := recycles.run.mono fun s act tidy => ⟨tidy.1, tidy.2.1⟩
  refine ⟨s, s', run, run', by rw [live]; simp [bytes], by rw [recycles.live]; simp [recycles.bytes], ?_⟩
  refine threads_isolated .debug .release 1 1 State.first s State.pair s' firstCalls pairCalls
    State.first_init State.pair_init run run' () false ?_ ?_
  · rw [first_own run, pair_own recycles]
    rfl
  · rw [first_own run, pair_own recycles]
    rfl

end NpAlloc.Threads
