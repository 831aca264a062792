/-
**`g_pool`: `get_global_pool` and `del_global_pool`.**

Any number of threads call `get_global_pool` in any interleaving. A step is the load of `g_pool`, the
construction of a pool, `compare_exchange_strong` (which on a mismatch reloads `ptr`, and does not fail
spuriously), the call of `std::atexit`, the destruction of the candidate that lost, or the return.
`del_global_pool`, which `exit` runs once for each registration, is the exchange and the destruction of
what it returned.

Pools are numbered in the order of their construction. A client may use, and hand to other threads, a
pool that some call has returned. Printing is left out.
-/

import NpAlloc.General.Machine

set_option linter.unusedSectionVars false

namespace NpAlloc.GlobalPool

/-- Where a thread stands in `get_global_pool`, with the locals it holds there. -/
inductive Pc
  | idle
  /-- At the load of `g_pool`. -/
  | loading
  /-- At `t_new<np::global_pool>()`: the load was null. -/
  | constructing
  /-- At the compare-exchange of null for `new_pool`. -/
  | installing (newPool : Nat)
  /-- At `std::atexit(del_global_pool)`. -/
  | registering (newPool : Nat)
  /-- At `t_delete(new_pool)`; `ptr` is what the compare-exchange loaded. -/
  | disposing (ptr : Option Nat) (newPool : Nat)
  /-- At `return ptr`. -/
  | returning (ptr : Option Nat)
deriving DecidableEq

/-- What happened. -/
inductive Event (T : Type)
  | constructed (pool : Nat)
  /-- `g_pool` was set to it. -/
  | published (pool : Nat)
  /-- `del_global_pool` was registered with `atexit`. -/
  | registered
  | destroyed (pool : Nat)
  | returned (t : T) (ptr : Option Nat)
  | used (pool : Nat)
deriving DecidableEq

structure State (T : Type) where
  /-- `g_pool`. -/
  gPool : Option Nat
  /-- How many pools were constructed. -/
  built : Nat
  pc : T → Pc
  /-- How many times `del_global_pool` is registered and not yet run. -/
  handlers : Nat
  /-- What the exchange of `del_global_pool` returned, before its destruction. -/
  exchanged : Option Nat
  /-- What happened, the last first. -/
  log : List (Event T)

inductive Act (T : Type)
  | call (t : T)
  /-- The next step of a call. -/
  | run (t : T)
  /-- A client uses a pool that a call has returned. -/
  | use (pool : Nat)
  /-- `exit` runs a registered `del_global_pool`, up to its exchange. -/
  | exchange
  /-- The destruction of what the exchange returned. -/
  | destroy
deriving DecidableEq

variable {T : Type} [DecidableEq T]

/-- The pool a call returned. -/
def Event.handedOut : Event T → Option Nat
  | .returned _ ptr => ptr
  | _ => none

namespace State

/-- A step inside one thread. -/
def goto (s : State T) (t : T) (pc : Pc) : State T :=
  { s with pc := Function.update s.pc t pc }

/-- Something happens. -/
def record (s : State T) (e : Event T) : State T := { s with log := e :: s.log }

/-- **One step of `get_global_pool`.** -/
def run (s : State T) (t : T) : Option (State T) :=
  match s.pc t with
  | .idle => none
  | .loading =>
    match s.gPool with
    | none => some (s.goto t .constructing)
    | some ptr => some (s.goto t (.returning (some ptr)))
  | .constructing =>
    some { (s.goto t (.installing s.built)).record (.constructed s.built) with built := s.built + 1 }
  | .installing newPool =>
    match s.gPool with
    | none =>
      some { (s.goto t (.registering newPool)).record (.published newPool) with gPool := some newPool }
    | some ptr => some (s.goto t (.disposing (some ptr) newPool))
  | .registering newPool =>
    some { (s.goto t (.returning (some newPool))).record .registered with handlers := s.handlers + 1 }
  | .disposing ptr newPool => some ((s.goto t (.returning ptr)).record (.destroyed newPool))
  | .returning ptr => some ((s.goto t .idle).record (.returned t ptr))

/-- **One step.** -/
def step (s : State T) : Act T → Option (State T)
  | .call t => if s.pc t = .idle then some (s.goto t .loading) else none
  | .run t => s.run t
  | .use pool =>
    if pool ∈ s.log.filterMap Event.handedOut then some (s.record (.used pool)) else none
  | .exchange =>
    if 0 < s.handlers then
      some { s with handlers := s.handlers - 1, exchanged := s.gPool, gPool := none }
    else none
  | .destroy => s.exchanged.map fun ptr => { s.record (.destroyed ptr) with exchanged := none }

/-- The process at its start. -/
def start (T : Type) : State T := ⟨none, 0, fun _ => .idle, 0, none, []⟩

end State

/-- The machine of all threads. -/
def machine (T : Type) [DecidableEq T] : Machine (State T) (Act T) where
  init s := s = .start T
  step := State.step

/-- The step is not one of `del_global_pool`. -/
def BeforeDeletion (_ : State T) (act : Act T) : Prop := act ≠ .exchange ∧ act ≠ .destroy

instance (s : State T) (act : Act T) : Decidable (BeforeDeletion s act) := by
  unfold BeforeDeletion
  infer_instance

end NpAlloc.GlobalPool
