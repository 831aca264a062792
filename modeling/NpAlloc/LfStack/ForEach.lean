/-
**`for_each`, over the atomic steps of `lf_stack`.**

`for_each` detaches the whole stack, and walks the chain it has got: `fun(ptr)`, the read of `ptr->next`,
and `push(ptr)`. Any number of threads call it, `pop` and `push` in any interleaving; between calls a
thread does with the nodes it owns what it likes, as in `LfStack/Model`. `count_free_list` is `for_each`
with a function that counts.

`applied` and `given` are not in the code: the nodes to which the call has applied `fun`, and those it
has pushed back, each at the successful compare-exchange of its push.
-/

import NpAlloc.LfStack.Model

set_option linter.unusedSectionVars false

namespace NpAlloc.LfStack.ForEach

/-- Where a thread stands in `for_each`, with the locals it holds there. -/
inductive Walk (N : Type)
  /-- Not in `for_each`. -/
  | out
  /-- In the detaching loop. -/
  | detaching
  /-- At `while (ptr)`. -/
  | testing (ptr : Option N)
  /-- At `T* next = ptr->next`, after `fun(ptr)`. -/
  | reading (ptr : N)
  /-- In `push(ptr)`. -/
  | pushing (ptr : N) (next : Option N)
  /-- At the return. -/
  | done
deriving DecidableEq

structure State (T N : Type) where
  lf : LfStack.State T N
  walk : T → Walk N
  applied : T → List N
  given : T → List N

inductive Act (T N : Type)
  /-- What a thread does that is not in `for_each`. -/
  | client (act : LfStack.Act T N)
  | callForEach
  /-- The next atomic step of `for_each`. -/
  | run
  /-- A compare-exchange of `for_each` fails although the words are equal. -/
  | spurious
  | ret
deriving DecidableEq

variable {T N : Type} [DecidableEq T] [DecidableEq N]

namespace State

/-- A step inside the detaching loop or inside `push`. -/
def inner (s : State T N) (lf : LfStack.State T N) : State T N := { s with lf := lf }

def goto (s : State T N) (t : T) (walk : Walk N) : State T N :=
  { s with walk := Function.update s.walk t walk }

/-- `fun(ptr)`. -/
def apply (s : State T N) (t : T) (ptr : N) : State T N :=
  { s with applied := Function.update s.applied t (s.applied t ++ [ptr]) }

/-- The node is back on the stack. -/
def give (s : State T N) (t : T) (ptr : N) : State T N :=
  { s with given := Function.update s.given t (s.given t ++ [ptr]) }

end State

/-- The next atomic step of `for_each`. -/
def runStep (s : State T N) (t : T) : Option (State T N) :=
  match s.walk t with
  | .out | .done => none
  | .detaching =>
    match (s.lf.pc t).result with
    | none => (LfStack.step s.lf (t, .run)).map s.inner
    | some result => (LfStack.step s.lf (t, .ret result)).map fun lf => (s.inner lf).goto t (.testing result)
  | .testing none => some (s.goto t .done)
  | .testing (some ptr) => some ((s.apply t ptr).goto t (.reading ptr))
  | .reading ptr => (LfStack.step s.lf (t, .call (.push ptr))).map fun lf =>
      (s.inner lf).goto t (.pushing ptr (s.lf.next ptr))
  | .pushing ptr next =>
    match (s.lf.pc t).result with
    | none => (LfStack.step s.lf (t, .run)).map fun lf =>
        if lf.pc t = .pushRet then (s.inner lf).give t ptr else s.inner lf
    | some result => (LfStack.step s.lf (t, .ret result)).map fun lf => (s.inner lf).goto t (.testing next)

/-- **One step of one thread.** -/
def step (s : State T N) : T × Act T N → Option (State T N)
  | (t, .client act) =>
    -- a client detaches the stack only in `for_each`
    if s.walk t = .out ∧ act ≠ .call .detach then (LfStack.step s.lf (t, act)).map s.inner else none
  | (t, .callForEach) =>
    if s.walk t = .out then
      (LfStack.step s.lf (t, .call .detach)).map fun lf => { (s.inner lf).goto t .detaching with
        applied := Function.update s.applied t []
        given := Function.update s.given t [] }
    else none
  | (t, .run) => runStep s t
  | (t, .spurious) =>
    match s.walk t with
    | .detaching | .pushing _ _ => (LfStack.step s.lf (t, .spurious)).map s.inner
    | _ => none
  | (t, .ret) => if s.walk t = .done then some (s.goto t .out) else none

/-- The machine of all threads, over a new `lf_stack`. -/
def machine (T N : Type) [DecidableEq T] [DecidableEq N] : Machine (State T N) (T × Act T N) where
  init s := (LfStack.machine T N).init s.lf ∧ ∀ t, s.walk t = .out
  step := step

/-- **The tag assumption** of the stack. -/
def Fresh (s : State T N) : T × Act T N → Prop
  | (t, .client act) => TagFresh s.lf (t, act)
  | (t, .run) => TagFresh s.lf (t, .run)
  | _ => True

instance (s : State T N) (act : T × Act T N) : Decidable (Fresh s act) := by
  obtain ⟨t, act⟩ := act
  cases act <;> unfold Fresh <;> infer_instance

/-- What `count_free_list` has counted. -/
def State.count (s : State T N) (t : T) : Nat := (s.applied t).foldl (fun c _ => c + 1) 0

end NpAlloc.LfStack.ForEach
