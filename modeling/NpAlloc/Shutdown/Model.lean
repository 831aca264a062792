/-
**Process shutdown: `deinit` of the exiting threads against `del_global_pool`.**

`g_pool` is the one pointer to the global pool. `del_global_pool` exchanges it for null, and then
destroys the pool and unmaps its memory. `deinit` tests it once (`is_pool_alive`), walks its free list,
and for each chunk of `head_` calls `get_global_pool`, which constructs a pool if the pointer is null,
and `free_chunk` of what it returns.

Every access to a shared word is one step: the loads and the compare-exchange of `g_pool`, each read of
a link, and the load, the write and the compare-exchange of a push. The memory that matters is the first
words of free blocks and chunks; all of it belongs to the pool `home`, which was there at the start.
Statistics and printing are left out.
-/

import NpAlloc.General.Machine
import NpAlloc.LfStack.Model

set_option linter.unusedSectionVars false

namespace NpAlloc.Shutdown

open LfStack (Head)

/-- Where a `deinit` stands, with the locals it holds there. -/
inductive Phase (N : Type)
  /-- At `is_pool_alive()`. -/
  | ready
  /-- At `while (f)` of the free list. -/
  | walking (f : Option N)
  /-- At `while (head_)`. -/
  | looping
  /-- At the load of `g_pool` in `get_global_pool()`. -/
  | unlinked (p : N)
  /-- The pointer was null: at `t_new<global_pool>()`. -/
  | constructing (p : N)
  /-- At the compare-exchange of `g_pool`. -/
  | installing (p : N) (newPool : Nat)
  /-- In `free_chunk(p)` of a pool, at the load of its `free_head_`. -/
  | pushing (p : N) (pool : Nat)
  /-- At `ptr->next = curr.ptr`. -/
  | linking (p : N) (pool : Nat) (curr : Head N)
  /-- At the compare-exchange of `free_head_`. -/
  | swapping (p : N) (pool : Nat) (curr : Head N)
  | done

/-- One class of one exiting thread, and its `deinit`. -/
structure Deinit (N : Type) where
  head_ : Option N
  free_ : Option N
  phase : Phase N
  /-- Whether it has read or written chunk memory. -/
  touched : Bool
  /-- The chunks it returned, each with the pool that has it, if that pool was there to take it. -/
  given : List (N × Option Nat)

/-- Where `del_global_pool` stands. -/
inductive Deletion
  | waiting
  | exchanged (ptr : Option Nat)
  | ended

structure State (T N : Type) where
  /-- `g_pool`. -/
  gPool : Option Nat
  /-- How many pools were constructed. -/
  built : Nat
  /-- `free_head_` of each pool. -/
  freeHead : Nat → Head N
  destroyed : Nat → Bool
  /-- The first word of each free block and chunk. -/
  next : N → Option N
  deinit : T → Deinit N
  deletion : Deletion
  /-- Whether chunk memory was read or written after its pool had been destroyed. -/
  late : Bool

inductive Act (T : Type)
  /-- The next step of a `deinit`. -/
  | run (t : T)
  /-- A compare-exchange of `free_head_` fails although the words are equal. -/
  | spurious (t : T)
  /-- `g_pool.exchange(nullptr)`. -/
  | exchange
  /-- The destruction of what the exchange returned. -/
  | destroy

/-- The pool the chunks come from. -/
def home : Nat := 0

variable {T N : Type} [DecidableEq T] [DecidableEq N]

namespace State

/-- A step of one `deinit` that touches no chunk memory. -/
def put (s : State T N) (t : T) (d : Deinit N) : State T N :=
  { s with deinit := Function.update s.deinit t d }

def goto (s : State T N) (t : T) (phase : Phase N) : State T N :=
  s.put t { s.deinit t with phase := phase }

/-- A step of one `deinit` that reads or writes chunk memory. -/
def touch (s : State T N) (t : T) (d : Deinit N) : State T N :=
  { s.put t { d with touched := true } with late := s.late || s.destroyed home }

/-- **One step of a `deinit`.** -/
def run (s : State T N) (t : T) : Option (State T N) :=
  let d := s.deinit t
  match d.phase with
  | .ready =>
    match s.gPool with
    | none => some (s.goto t .done)
    | some _ => some (s.goto t (.walking d.free_))
  | .walking none => some (s.goto t .looping)
  | .walking (some f) => some (s.touch t { d with phase := .walking (s.next f) })
  | .looping =>
    match d.head_ with
    | none => some (s.goto t .done)
    | some p => some (s.touch t { d with head_ := s.next p, phase := .unlinked p })
  | .unlinked p =>
    match s.gPool with
    | none => some (s.goto t (.constructing p))
    | some pool => some (s.goto t (.pushing p pool))
  | .constructing p => some { s.goto t (.installing p s.built) with built := s.built + 1 }
  | .installing p newPool =>
    match s.gPool with
    | none => some { s.goto t (.pushing p newPool) with gPool := some newPool }
    | some pool => some { s.goto t (.pushing p pool) with
        destroyed := Function.update s.destroyed newPool true }
  | .pushing p pool => some (s.goto t (.linking p pool (s.freeHead pool)))
  | .linking p pool curr =>
    some { s.touch t { d with phase := .swapping p pool curr } with
      next := Function.update s.next p curr.ptr }
  | .swapping p pool curr =>
    if s.freeHead pool = curr then
      some { s.put t { d with
          phase := .looping
          given := d.given ++ [(p, if s.destroyed pool then none else some pool)] } with
        freeHead := Function.update s.freeHead pool ⟨curr.aba + 1, some p⟩ }
    else some (s.goto t (.linking p pool (s.freeHead pool)))
  | .done => none

/-- **One step.** -/
def step (s : State T N) : Act T → Option (State T N)
  | .run t => s.run t
  | .spurious t =>
    match (s.deinit t).phase with
    | .swapping p pool _ => some (s.goto t (.linking p pool (s.freeHead pool)))
    | _ => none
  | .exchange =>
    match s.deletion with
    | .waiting => some { s with gPool := none, deletion := .exchanged s.gPool }
    | _ => none
  | .destroy =>
    match s.deletion with
    | .exchanged (some pool) =>
      some { s with destroyed := Function.update s.destroyed pool true, deletion := .ended }
    | .exchanged none => some { s with deletion := .ended }
    | _ => none

section Fields

/-! What a step of one `deinit` leaves alone. -/

variable (s : State T N) (t u : T) (d : Deinit N) (phase : Phase N)

@[simp, grind =] theorem goto_eq : s.goto t phase = s.put t { s.deinit t with phase := phase } := rfl

@[simp, grind =] theorem put_deinit : (s.put t d).deinit u = if u = t then d else s.deinit u :=
  Function.update_apply ..

@[simp, grind =] theorem put_late : (s.put t d).late = s.late := rfl

@[simp, grind =] theorem touch_deinit :
    (s.touch t d).deinit u = if u = t then { d with touched := true } else s.deinit u :=
  Function.update_apply ..

@[simp, grind =] theorem touch_late : (s.touch t d).late = (s.late || s.destroyed home) := rfl

@[simp, grind =] theorem put_gPool : (s.put t d).gPool = s.gPool := rfl

@[simp, grind =] theorem put_built : (s.put t d).built = s.built := rfl

@[simp, grind =] theorem put_freeHead : (s.put t d).freeHead = s.freeHead := rfl

@[simp, grind =] theorem put_destroyed : (s.put t d).destroyed = s.destroyed := rfl

@[simp, grind =] theorem put_next : (s.put t d).next = s.next := rfl

@[simp, grind =] theorem put_deletion : (s.put t d).deletion = s.deletion := rfl

@[simp, grind =] theorem touch_gPool : (s.touch t d).gPool = s.gPool := rfl

@[simp, grind =] theorem touch_built : (s.touch t d).built = s.built := rfl

@[simp, grind =] theorem touch_freeHead : (s.touch t d).freeHead = s.freeHead := rfl

@[simp, grind =] theorem touch_destroyed : (s.touch t d).destroyed = s.destroyed := rfl

@[simp, grind =] theorem touch_next : (s.touch t d).next = s.next := rfl

@[simp, grind =] theorem touch_deletion : (s.touch t d).deletion = s.deletion := rfl

end Fields

/-- **A process at its exit**: the pool is there; each `deinit` has its chunks and its free list, and no
chunk is on two chains, on the free stack, or a block of a free list. -/
structure Init (owned blocks : T → List N) (stack : List N) (s : State T N) : Prop where
  gPool : s.gPool = some home
  built : s.built = 1
  destroyed : ∀ pool, s.destroyed pool = false
  deletion : s.deletion = .waiting
  late : s.late = false
  freeStack : Linked s.next (s.freeHead home).ptr stack
  chain : ∀ t, Linked s.next (s.deinit t).head_ (owned t)
  free : ∀ t, Linked s.next (s.deinit t).free_ (blocks t)
  phase : ∀ t, (s.deinit t).phase = .ready
  touched : ∀ t, (s.deinit t).touched = false
  given : ∀ t, (s.deinit t).given = []
  owned_owned : ∀ t u, t ≠ u → (owned t).Disjoint (owned u)
  owned_stack : ∀ t, (owned t).Disjoint stack
  owned_blocks : ∀ t u, (owned t).Disjoint (blocks u)

end State

/-- The machine of one shutdown. -/
def machine (owned blocks : T → List N) (stack : List N) : Machine (State T N) (Act T) where
  init := State.Init owned blocks stack
  step := State.step

end NpAlloc.Shutdown
