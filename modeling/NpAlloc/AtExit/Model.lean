/-
**One thread and its `thread_atexit_caller`.**

A thread registers callbacks and uses the allocator; at its exit the caller is destroyed, and `invoke`
runs the callbacks off the front of `call_list_`. A callback may do what the thread may: register more
callbacks, allocate, and free. `thread_local_pool::get` constructs the thread's pool at the first use,
registers a callback that deletes it, and caches the pointer in `s_pool`.

The program of a thread is a finite tree of calls: whatever decides what a callback does, what it did is
such a tree. The nodes of the list live in a memory of their own, with the link in each; nodes and pools
are numbered in the order of their construction.
-/

import NpAlloc.General.Machine
import NpAlloc.General.Chain

set_option linter.unusedSectionVars false

namespace NpAlloc.AtExit

/-- What a thread, or one of its callbacks, calls. -/
inductive Op
  /-- `np_alloc`. -/
  | alloc
  /-- `np_free`, of the null pointer or of a block. -/
  | free (null : Bool)
  /-- `thread_atexit`, of an empty function or of one that makes these calls. -/
  | atexit (f : Option (List Op))

/-- What a `call_node` calls back. -/
inductive Callback
  | user (ops : List Op)
  /-- `t_delete(pool)`, which `thread_local_pool::get` registers. -/
  | deletePool (pool : Nat)

structure CallNode where
  /-- An empty function is `none`. -/
  callback : Option Callback
  next : Option Nat

/-- Where the thread stands. -/
inductive Control
  /-- Before its exit, with these calls to go. -/
  | life (ops : List Op)
  /-- At `while (call_list_)`. -/
  | testing
  /-- At `if (cb->callback)`. -/
  | calling (cb : Nat)
  /-- In the callback of a node, with these calls to go. -/
  | running (cb : Nat) (ops : List Op)
  /-- At `t_delete(cb)`. -/
  | deleting (cb : Nat)
  | ended

/-- What happened, in the order it happened. -/
inductive Event
  | registered (node : Nat) (f : Callback)
  /-- An empty function was registered. -/
  | skipped
  | invoked (node : Nat) (f : Callback)
  | returned (node : Nat)
  | freed (node : Nat)
  /-- The allocator was used on a pool, which had been deleted or not. -/
  | used (pool : Nat) (deleted : Bool)

structure State where
  control : Control
  /-- `call_list_`. -/
  callList : Option Nat
  /-- The call nodes. -/
  node : Nat → CallNode
  /-- How many nodes were constructed. -/
  nodes : Nat
  /-- `s_pool`. -/
  sPool : Option Nat
  /-- How many pools were constructed. -/
  pools : Nat
  deleted : Nat → Bool
  /-- What happened, the last first. -/
  log : List Event

namespace State

/-- `thread_atexit_caller::add`. -/
def add (s : State) : Option Callback → State
  | none => { s with log := .skipped :: s.log }
  | some f => { s with
      node := Function.update s.node s.nodes ⟨some f, s.callList⟩
      callList := some s.nodes
      nodes := s.nodes + 1
      log := .registered s.nodes f :: s.log }

/-- The first `thread_local_pool::get()`: construct, register, cache. -/
def construct (s : State) : State :=
  { ({ s with pools := s.pools + 1 }.add (some (.deletePool s.pools))) with sPool := some s.pools }

/-- A call on the pool `thread_local_pool::get()` returns. -/
def use (s : State) : State :=
  let s := match s.sPool with
    | none => s.construct
    | some _ => s
  match s.sPool with
  | none => s
  | some pool => { s with log := .used pool (s.deleted pool) :: s.log }

/-- The cached pool is used, whether it is still there or not. -/
theorem use_cached {s : State} {pool : Nat} (cached : s.sPool = some pool) :
    s.use = { s with log := .used pool (s.deleted pool) :: s.log } := by
  obtain ⟨control, callList, node, nodes, sPool, pools, deleted, log⟩ := s
  cases cached
  rfl

/-- The first use constructs the pool. -/
theorem use_first {s : State} (first : s.sPool = none) :
    s.use = { s.construct with log := .used s.pools (s.deleted s.pools) :: s.construct.log } := by
  obtain ⟨control, callList, node, nodes, sPool, pools, deleted, log⟩ := s
  cases first
  rfl

/-- **One call.** -/
def exec (s : State) : Op → State
  | .alloc => s.use
  | .free true => s
  | .free false => s.use
  | .atexit f => s.add (f.map .user)

/-- **One step of the thread.** -/
def step (s : State) : Option State :=
  match s.control with
  | .life (op :: ops) => some { s.exec op with control := .life ops }
  | .life [] => some { s with control := .testing }
  | .testing =>
    match s.callList with
    | none => some { s with control := .ended }
    | some cb => some { s with callList := (s.node cb).next, control := .calling cb }
  | .calling cb =>
    match (s.node cb).callback with
    | none => some { s with control := .deleting cb }
    | some (.user ops) =>
      some { s with control := .running cb ops, log := .invoked cb (.user ops) :: s.log }
    | some (.deletePool pool) =>
      some { s with
        control := .running cb []
        deleted := Function.update s.deleted pool true
        log := .invoked cb (.deletePool pool) :: s.log }
  | .running cb (op :: ops) => some { s.exec op with control := .running cb ops }
  | .running cb [] => some { s with control := .deleting cb, log := .returned cb :: s.log }
  | .deleting cb => some { s with control := .testing, log := .freed cb :: s.log }
  | .ended => none

/-- A thread that is about to make these calls. -/
def start (ops : List Op) : State :=
  ⟨.life ops, none, fun _ => ⟨none, none⟩, 0, none, 0, fun _ => false, []⟩

end State

/-- The machine of a thread. -/
def machine (ops : List Op) : Machine State Unit where
  init := fun s => s = .start ops
  step := fun s _ => s.step

end NpAlloc.AtExit
