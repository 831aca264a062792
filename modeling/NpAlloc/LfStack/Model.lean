/-
**`lf_stack`, one atomic step at a time.**

`np_lf_stack.h` keeps one shared word pair, `head_ = {aba, ptr}`, and an intrusive `next` in every
node. `pop`, `push` and the detaching loop of `for_each` are compare-exchange loops over it. Here
each thread has a program counter `Pc` inside one of these functions, with the locals `curr` and
`next` it holds there, and `step` takes one thread through one atomic action:

* `load` of `head_`;
* the read of `curr.ptr->next` (in `pop`) or the write of `ptr->next` (in `push`);
* `compare_exchange_weak`, which on a mismatch, and on a spurious failure, reloads `curr`.

Between calls a thread is a client. It may overwrite the `next` of a node it owns with anything, hand
the node to another thread, delete it, and create new ones; it may push only what it owns.

`Ghost` is not in the code: the abstract stack, the owner of every node, and the count of successful
compare-exchanges with its value at each thread's last load. `TagFresh` is the assumption on the
64-bit tag stated on that count.
-/

import NpAlloc.General.Machine
import NpAlloc.General.Chain
import Mathlib.Data.BitVec

namespace NpAlloc.LfStack

/-- `head_t`: the tag and the top pointer, exchanged as one 128-bit word. -/
structure Head (N : Type) where
  aba : BitVec 64
  ptr : Option N
deriving DecidableEq

/-- Where a thread stands, with the locals it holds there. -/
inductive Pc (N : Type)
  | idle
  | popLoad
  | popRead (curr : Head N)
  | popCas (curr next : Head N)
  | popRet (result : Option N)
  | pushLoad (ptr : N)
  | pushWrite (ptr : N) (curr : Head N)
  | pushCas (ptr : N) (curr next : Head N)
  | pushRet
  | detachLoad
  | detachTest (curr : Head N)
  | detachCas (curr next : Head N)
  | detachRet (result : Option N)
deriving DecidableEq

/-- Who may touch a node: the stack, one client thread, or nobody (it is not allocated). -/
inductive Owner (T : Type)
  | stack
  | client (thread : T)
  | nobody
deriving DecidableEq

/-- The auxiliary variables of the proof. -/
structure Ghost (T N : Type) where
  /-- The abstract stack, top first. -/
  stack : List N
  owner : N → Owner T
  /-- Successful compare-exchanges so far. -/
  casCount : Nat
  /-- `casCount` when the thread last loaded `head_`. -/
  stamp : T → Nat
  /-- What the thread's last detaching compare-exchange took. -/
  taken : T → List N

/-- The shared words, the nodes' links, and every thread's program counter. -/
structure State (T N : Type) where
  head : Head N
  next : N → Option N
  pc : T → Pc N
  ghost : Ghost T N

/-- The three functions a client calls. -/
inductive Op (N : Type)
  | pop
  | push (ptr : N)
  | detach
deriving DecidableEq

/-- What a thread does next. -/
inductive Act (T N : Type)
  | call (op : Op N)
  /-- The next atomic step; a compare-exchange compares. -/
  | run
  /-- A compare-exchange that fails although the words are equal. -/
  | spurious
  | ret (result : Option N)
  | write (node : N) (link : Option N)
  | give (node : N) (other : T)
  | create (node : N)
  | delete (node : N)
deriving DecidableEq

variable {T N : Type} [DecidableEq T] [DecidableEq N]

namespace State

/-- A step inside one thread. -/
def goto (s : State T N) (t : T) (pc : Pc N) : State T N :=
  { s with pc := Function.update s.pc t pc }

/-- A load of `head_`, remembered in the ghost stamp. -/
def load (s : State T N) (t : T) (pc : Pc N) : State T N :=
  { s with
    pc := Function.update s.pc t pc
    ghost := { s.ghost with stamp := Function.update s.ghost.stamp t s.ghost.casCount } }

/-- A successful compare-exchange installs `next`, with its effect on the abstract stack and on the
ownership of nodes. -/
def install (s : State T N) (t : T) (next : Head N) (pc : Pc N) (stack : List N)
    (owner : N → Owner T) (taken : List N) : State T N :=
  { s with
    head := next
    pc := Function.update s.pc t pc
    ghost := { s.ghost with
      stack := stack
      owner := owner
      casCount := s.ghost.casCount + 1
      taken := Function.update s.ghost.taken t taken } }

/-- A change of ownership between calls. -/
def own (s : State T N) (node : N) (owner : Owner T) : State T N :=
  { s with ghost := { s.ghost with owner := Function.update s.ghost.owner node owner } }

/-- A write of `node->next`. -/
def link (s : State T N) (node : N) (next : Option N) : State T N :=
  { s with next := Function.update s.next node next }

end State

/-- The program counter a call starts at. -/
def Op.entry : Op N → Pc N
  | .pop => .popLoad
  | .push ptr => .pushLoad ptr
  | .detach => .detachLoad

/-- A client pushes only a node it owns. -/
def Op.Allowed (s : State T N) (t : T) : Op N → Prop
  | .push ptr => s.ghost.owner ptr = .client t
  | _ => True

instance (s : State T N) (t : T) (op : Op N) : Decidable (op.Allowed s t) := by
  cases op <;> unfold Op.Allowed <;> infer_instance

/-- The owners after a thread has taken the listed nodes. -/
def takeAll (owner : N → Owner T) (t : T) (nodes : List N) : N → Owner T := fun node =>
  if node ∈ nodes then .client t else owner node

/-- The next atomic step of a call in progress. -/
def runStep (s : State T N) (t : T) : Option (State T N) :=
  match s.pc t with
  | .popLoad => some (s.load t (.popRead s.head))
  | .popRead curr =>
    match curr.ptr with
    | none => some (s.goto t (.popRet none))
    | some node => some (s.goto t (.popCas curr ⟨curr.aba + 1, s.next node⟩))
  | .popCas curr next =>
    if s.head = curr then
      some (s.install t next (.popRet curr.ptr) s.ghost.stack.tail
        (takeAll s.ghost.owner t curr.ptr.toList) (s.ghost.taken t))
    else some (s.load t (.popRead s.head))
  | .pushLoad ptr => some (s.load t (.pushWrite ptr s.head))
  | .pushWrite ptr curr =>
    some ((s.link ptr curr.ptr).goto t (.pushCas ptr curr ⟨curr.aba + 1, some ptr⟩))
  | .pushCas ptr curr next =>
    if s.head = curr then
      some (s.install t next .pushRet (ptr :: s.ghost.stack)
        (Function.update s.ghost.owner ptr .stack) (s.ghost.taken t))
    else some (s.load t (.pushWrite ptr s.head))
  | .detachLoad => some (s.load t (.detachTest s.head))
  | .detachTest curr =>
    match curr.ptr with
    | none => some ({ s with
        ghost := { s.ghost with taken := Function.update s.ghost.taken t [] } }.goto t
          (.detachRet none))
    | some _ => some (s.goto t (.detachCas curr ⟨curr.aba + 1, none⟩))
  | .detachCas curr next =>
    if s.head = curr then
      some (s.install t next (.detachRet curr.ptr) [] (takeAll s.ghost.owner t s.ghost.stack)
        s.ghost.stack)
    else some (s.load t (.detachTest s.head))
  | .idle | .popRet _ | .pushRet | .detachRet _ => none

/-- A weak compare-exchange that fails spuriously still reloads `curr`. -/
def spuriousStep (s : State T N) (t : T) : Option (State T N) :=
  match s.pc t with
  | .popCas _ _ => some (s.load t (.popRead s.head))
  | .pushCas ptr _ _ => some (s.load t (.pushWrite ptr s.head))
  | .detachCas _ _ => some (s.load t (.detachTest s.head))
  | _ => none

/-- What a finished call returns; `push` returns nothing. -/
def Pc.result : Pc N → Option (Option N)
  | .popRet result => some result
  | .pushRet => some none
  | .detachRet result => some result
  | _ => none

/-- **One atomic step of one thread.** -/
def step (s : State T N) : T × Act T N → Option (State T N)
  | (t, .call op) =>
    if s.pc t = .idle ∧ op.Allowed s t then some (s.goto t op.entry) else none
  | (t, .run) => runStep s t
  | (t, .spurious) => spuriousStep s t
  | (t, .ret result) => if (s.pc t).result = some result then some (s.goto t .idle) else none
  | (t, .write node next) =>
    if s.pc t = .idle ∧ s.ghost.owner node = .client t then some (s.link node next) else none
  | (t, .give node other) =>
    if s.pc t = .idle ∧ s.ghost.owner node = .client t then some (s.own node (.client other))
    else none
  | (t, .create node) =>
    if s.pc t = .idle ∧ s.ghost.owner node = .nobody then some (s.own node (.client t)) else none
  | (t, .delete node) =>
    if s.pc t = .idle ∧ s.ghost.owner node = .client t then some (s.own node .nobody) else none

/-- A new `lf_stack`: `head_ = {0, nullptr}` and no call in progress. The nodes' memory and their
owners are arbitrary. -/
structure Init (s : State T N) : Prop where
  head : s.head = ⟨0, none⟩
  pc : ∀ t, s.pc t = .idle
  stack : s.ghost.stack = []
  owner : ∀ node, s.ghost.owner node ≠ .stack
  casCount : s.ghost.casCount = 0

/-- The machine of all threads. -/
def machine (T N : Type) [DecidableEq T] [DecidableEq N] : Machine (State T N) (T × Act T N) where
  init s := Init s ∧ s.ghost.stamp = fun _ => 0
  step := step

/-- The thread is at a compare-exchange. -/
def Pc.AtCas : Pc N → Prop
  | .popCas _ _ | .pushCas _ _ _ | .detachCas _ _ => True
  | _ => False

instance (pc : Pc N) : Decidable pc.AtCas := by
  cases pc <;> unfold Pc.AtCas <;> infer_instance

/-- **The tag assumption**: when a thread runs its compare-exchange, fewer than `2 ^ 64` others have
succeeded since its load of `head_`. -/
def TagFresh (s : State T N) (act : T × Act T N) : Prop :=
  act.2 = .run → (s.pc act.1).AtCas → s.ghost.casCount < s.ghost.stamp act.1 + 2 ^ 64

instance (s : State T N) (act : T × Act T N) : Decidable (TagFresh s act) := by
  unfold TagFresh
  infer_instance

/-! ### What a step inside a call can do -/

/-- **The internal steps of a call**, spurious failures among the reloads. Every property of a step
is proved by cases on this. -/
inductive Internal (s : State T N) (t : T) : State T N → Prop
  | popLoad (entered : s.pc t = .popLoad ∨ ∃ curr next, s.pc t = .popCas curr next) :
      Internal s t (s.load t (.popRead s.head))
  | popNull (curr : Head N) (here : s.pc t = .popRead curr) (null : curr.ptr = none) :
      Internal s t (s.goto t (.popRet none))
  | popNext (curr : Head N) (node : N) (here : s.pc t = .popRead curr) (top : curr.ptr = some node) :
      Internal s t (s.goto t (.popCas curr ⟨curr.aba + 1, s.next node⟩))
  | popCas (curr next : Head N) (here : s.pc t = .popCas curr next) (equal : s.head = curr)
      (bound : s.ghost.casCount < s.ghost.stamp t + 2 ^ 64) :
      Internal s t (s.install t next (.popRet curr.ptr) s.ghost.stack.tail
        (takeAll s.ghost.owner t curr.ptr.toList) (s.ghost.taken t))
  | pushLoad (ptr : N)
      (entered : s.pc t = .pushLoad ptr ∨ ∃ curr next, s.pc t = .pushCas ptr curr next) :
      Internal s t (s.load t (.pushWrite ptr s.head))
  | pushWrite (ptr : N) (curr : Head N) (here : s.pc t = .pushWrite ptr curr) :
      Internal s t ((s.link ptr curr.ptr).goto t (.pushCas ptr curr ⟨curr.aba + 1, some ptr⟩))
  | pushCas (ptr : N) (curr next : Head N) (here : s.pc t = .pushCas ptr curr next)
      (equal : s.head = curr) (bound : s.ghost.casCount < s.ghost.stamp t + 2 ^ 64) :
      Internal s t (s.install t next .pushRet (ptr :: s.ghost.stack)
        (Function.update s.ghost.owner ptr .stack) (s.ghost.taken t))
  | detachLoad (entered : s.pc t = .detachLoad ∨ ∃ curr next, s.pc t = .detachCas curr next) :
      Internal s t (s.load t (.detachTest s.head))
  | detachNull (curr : Head N) (here : s.pc t = .detachTest curr) (null : curr.ptr = none) :
      Internal s t ({ s with
        ghost := { s.ghost with taken := Function.update s.ghost.taken t [] } }.goto t
          (.detachRet none))
  | detachNext (curr : Head N) (node : N) (here : s.pc t = .detachTest curr)
      (top : curr.ptr = some node) :
      Internal s t (s.goto t (.detachCas curr ⟨curr.aba + 1, none⟩))
  | detachCas (curr next : Head N) (here : s.pc t = .detachCas curr next) (equal : s.head = curr)
      (bound : s.ghost.casCount < s.ghost.stamp t + 2 ^ 64) :
      Internal s t (s.install t next (.detachRet curr.ptr) []
        (takeAll s.ghost.owner t s.ghost.stack) s.ghost.stack)

theorem internal_of_run {s s' : State T N} {t : T} (fresh : TagFresh s (t, .run))
    (ran : runStep s t = some s') : Internal s t s' := by
  have bound := fresh rfl
  unfold runStep at ran
  cases here : s.pc t with
  | idle | popRet result | pushRet | detachRet result => simp [here] at ran
  | popLoad =>
    simp only [here, Option.some.injEq] at ran
    exact ran ▸ .popLoad (.inl here)
  | popRead curr =>
    cases top : curr.ptr with
    | none =>
      simp only [here, top, Option.some.injEq] at ran
      exact ran ▸ .popNull curr here top
    | some node =>
      simp only [here, top, Option.some.injEq] at ran
      exact ran ▸ .popNext curr node here top
  | popCas curr next =>
    simp only [here] at ran bound
    split at ran <;> cases ran
    · exact .popCas curr next here ‹_› (bound trivial)
    · exact .popLoad (.inr ⟨curr, next, here⟩)
  | pushLoad ptr =>
    simp only [here, Option.some.injEq] at ran
    exact ran ▸ .pushLoad ptr (.inl here)
  | pushWrite ptr curr =>
    simp only [here, Option.some.injEq] at ran
    exact ran ▸ .pushWrite ptr curr here
  | pushCas ptr curr next =>
    simp only [here] at ran bound
    split at ran <;> cases ran
    · exact .pushCas ptr curr next here ‹_› (bound trivial)
    · exact .pushLoad ptr (.inr ⟨curr, next, here⟩)
  | detachLoad =>
    simp only [here, Option.some.injEq] at ran
    exact ran ▸ .detachLoad (.inl here)
  | detachTest curr =>
    cases top : curr.ptr with
    | none =>
      simp only [here, top, Option.some.injEq] at ran
      exact ran ▸ .detachNull curr here top
    | some node =>
      simp only [here, top, Option.some.injEq] at ran
      exact ran ▸ .detachNext curr node here top
  | detachCas curr next =>
    simp only [here] at ran bound
    split at ran <;> cases ran
    · exact .detachCas curr next here ‹_› (bound trivial)
    · exact .detachLoad (.inr ⟨curr, next, here⟩)

theorem internal_of_spurious {s s' : State T N} {t : T} (ran : spuriousStep s t = some s') :
    Internal s t s' := by
  unfold spuriousStep at ran
  cases here : s.pc t with
  | popCas curr next =>
    simp only [here, Option.some.injEq] at ran
    exact ran ▸ .popLoad (.inr ⟨curr, next, here⟩)
  | pushCas ptr curr next =>
    simp only [here, Option.some.injEq] at ran
    exact ran ▸ .pushLoad ptr (.inr ⟨curr, next, here⟩)
  | detachCas curr next =>
    simp only [here, Option.some.injEq] at ran
    exact ran ▸ .detachLoad (.inr ⟨curr, next, here⟩)
  | _ => simp [here] at ran

end NpAlloc.LfStack
