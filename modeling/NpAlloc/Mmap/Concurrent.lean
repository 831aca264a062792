/-
**`np::mmap` under concurrency: `alloc_chunk`, `free_chunk` and `count_free_list`, one atomic step at
a time.**

The free stack is the `lf_stack` of `LfStack.Model` over chunk addresses, with its own atomic steps;
`Pc` adds the steps of `mmap` around it: the loop of `alloc_chunk_from_new` on `head_`, the commit by
`virtual_alloc`, the three counters, and the walk of `for_each` that `count_free_list` runs.
Assertions are compiled out, as in the Release builds.

`Ghost` records what the clients hold, what a walk still has to push back, and, for every successful
compare-exchange on `head_`, which thread got which chunk.
-/

import NpAlloc.LfStack.Step
import NpAlloc.Mmap.Address

set_option linter.unusedSectionVars false

namespace NpAlloc.Mmap

/-- Where a thread stands inside one of the three functions. -/
inductive Pc
  | idle
  /-- In `free_head_.pop()`. -/
  | allocPop
  /-- A free chunk was found; `perf_alloc_from_free` is next. -/
  | allocReuse (ptr : Nat)
  | newLoad
  | newTest (head : Nat)
  | newCas (head next : Nat)
  /-- `head_` was advanced; `virtual_alloc` is next. -/
  | newCommit (head : Nat)
  /-- `virtual_alloc` returned; `perf_alloc` is next. -/
  | newCount (head : Nat)
  | allocRet (ptr : Nat)
  /-- In `free_head_.push(ptr)`. -/
  | freePush
  | freeCount
  | freeRet
  /-- In the detaching loop of `for_each`. -/
  | countDetach
  | countWalk (ptr : Option Nat) (c : Nat)
  /-- In `push(ptr)` of the walk, with the saved `next`. -/
  | countPush (next : Option Nat) (c : Nat)
  | countRet (c : Nat)
deriving DecidableEq

/-- The auxiliary variables of the proof. -/
structure Ghost (T : Type) where
  /-- The chunks a client holds. -/
  held : T → List Nat
  /-- What a walk of `for_each` has not pushed back yet. -/
  rest : T → List Nat
  /-- The chunks `alloc_chunk_from_new` issued, in order, with the thread each went to. -/
  issued : List (T × Nat)

/-- The fields of `mmap` the three functions use, and every thread's program counter. -/
structure State (T : Type) where
  ptr_ : Nat
  size_ : Nat
  head_ : Nat
  freeHead : LfStack.State T Nat
  perfAlloc : BitVec 64
  perfDealloc : BitVec 64
  perfAllocFromFree : BitVec 64
  pc : T → Pc
  ghost : Ghost T

/-- What a thread does next. -/
inductive Act
  | callAlloc
  | callFree (ptr : Nat)
  | callCount
  /-- The next atomic step. -/
  | run
  /-- A weak compare-exchange that fails although the words are equal. -/
  | spurious
  /-- `virtual_alloc` fails. -/
  | commitFail
  | ret
  /-- A client overwrites the first word of a chunk it holds. -/
  | write (chunk : Nat) (link : Option Nat)
deriving DecidableEq

variable {T : Type} [DecidableEq T]

namespace State

def goto (s : State T) (t : T) (pc : Pc) : State T :=
  { s with pc := Function.update s.pc t pc }

/-- A step that changes the free stack and the program counter. -/
def inner (s : State T) (freeHead : LfStack.State T Nat) (t : T) (pc : Pc) : State T :=
  { s with freeHead := freeHead, pc := Function.update s.pc t pc }

def hold (s : State T) (t : T) (held : List Nat) : State T :=
  { s with ghost := { s.ghost with held := Function.update s.ghost.held t held } }

def keep (s : State T) (t : T) (rest : List Nat) : State T :=
  { s with ghost := { s.ghost with rest := Function.update s.ghost.rest t rest } }

/-- A successful compare-exchange on `head_` issues the old `head_`. -/
def issue (s : State T) (t : T) (next : Nat) : State T :=
  { s with
    head_ := next
    freeHead := s.freeHead.own s.head_ (.client t)
    pc := Function.update s.pc t (.newCommit s.head_)
    ghost := { s.ghost with issued := s.ghost.issued ++ [(t, s.head_)] } }

end State

/-- A step inside `free_head_`: its own next step, or, when it is done, its return. -/
def innerStep (s : State T) (t : T) (done : Option Nat → State T) : Option (State T) :=
  match (s.freeHead.pc t).result with
  | some result => some (done result)
  | none => (LfStack.runStep s.freeHead t).map fun freeHead => { s with freeHead := freeHead }

/-- The free stack after a finished call has returned. -/
def State.returned (s : State T) (t : T) : LfStack.State T Nat := s.freeHead.goto t .idle

/-- The next atomic step of a call in progress. -/
def runStep (s : State T) (t : T) : Option (State T) :=
  match s.pc t with
  | .allocPop => innerStep s t fun result =>
      match result with
      | some ptr => s.inner (s.returned t) t (.allocReuse ptr)
      | none => s.inner (s.returned t) t .newLoad
  | .allocReuse ptr =>
    some ({ s with perfAllocFromFree := s.perfAllocFromFree + 1 }.goto t (.allocRet ptr))
  | .newLoad => some (s.goto t (.newTest s.head_))
  | .newTest head =>
    if head = 0 then some (s.goto t (.allocRet 0))
    else some (s.goto t (.newCas head (getChunkPtr s.ptr_ (getChunkIndex s.ptr_ head + 1))))
  | .newCas head next =>
    if s.head_ = head then some (s.issue t next) else some (s.goto t (.newTest s.head_))
  | .newCommit head => some (s.goto t (.newCount head))
  | .newCount head => some ({ s with perfAlloc := s.perfAlloc + 1 }.goto t (.allocRet head))
  | .freePush => innerStep s t fun _ => s.inner (s.returned t) t .freeCount
  | .freeCount => some ({ s with perfDealloc := s.perfDealloc + 1 }.goto t .freeRet)
  | .countDetach => innerStep s t fun result =>
      (s.inner (s.returned t) t (.countWalk result 0)).keep t (s.freeHead.ghost.taken t)
  | .countWalk none c => some (s.goto t (.countRet c))
  | .countWalk (some ptr) c =>
    -- `fun(ptr)` counts, the link is read, and `push(ptr)` is entered
    some ((s.inner (s.freeHead.goto t (.pushLoad ptr)) t
      (.countPush (s.freeHead.next ptr) (c + 1))).keep t (s.ghost.rest t).tail)
  | .countPush next c => innerStep s t fun _ => s.inner (s.returned t) t (.countWalk next c)
  | .idle | .allocRet _ | .freeRet | .countRet _ => none

/-- A spurious failure, of a compare-exchange inside `free_head_` or of the one on `head_`. -/
def spuriousStep (s : State T) (t : T) : Option (State T) :=
  match s.pc t with
  | .newCas _ _ => some (s.goto t (.newTest s.head_))
  | _ => (LfStack.spuriousStep s.freeHead t).map fun freeHead => { s with freeHead := freeHead }

/-- `virtual_alloc` returns null; the rest of `alloc_chunk_from_new` runs with `head` null. -/
def commitFailStep (s : State T) (t : T) : Option (State T) :=
  match s.pc t with
  | .newCommit _ => some (s.goto t (.newCount 0))
  | _ => none

/-- A call returns to its client, which then holds the chunk it was given. -/
def retStep (s : State T) (t : T) : Option (State T) :=
  match s.pc t with
  | .allocRet ptr =>
    some ((s.goto t .idle).hold t (if ptr = 0 then s.ghost.held t else ptr :: s.ghost.held t))
  | .freeRet | .countRet _ => some (s.goto t .idle)
  | _ => none

/-- **One atomic step of one thread.** -/
def step (s : State T) : T × Act → Option (State T)
  | (t, .callAlloc) =>
    if s.pc t = .idle then some (s.inner (s.freeHead.goto t .popLoad) t .allocPop) else none
  | (t, .callFree ptr) =>
    if s.pc t = .idle ∧ ptr ∈ s.ghost.held t then
      some ((s.inner (s.freeHead.goto t (.pushLoad ptr)) t .freePush).hold t
        ((s.ghost.held t).erase ptr))
    else none
  | (t, .callCount) =>
    if s.pc t = .idle then some (s.inner (s.freeHead.goto t .detachLoad) t .countDetach) else none
  | (t, .run) => runStep s t
  | (t, .spurious) => spuriousStep s t
  | (t, .commitFail) => commitFailStep s t
  | (t, .ret) => retStep s t
  | (t, .write chunk link) =>
    if s.pc t = .idle ∧ chunk ∈ s.ghost.held t then
      some { s with freeHead := s.freeHead.link chunk link }
    else none

/-- After a successful `reserve`: `ptr_ = head_` is the base of the `size_` bytes reserved, the free
stack is empty and no call is in progress. -/
structure Init (s : State T) : Prop where
  base : 0 < s.ptr_
  space : s.ptr_ + s.size_ < 2 ^ 64
  head : s.head_ = s.ptr_
  freeHead : (LfStack.machine T Nat).init s.freeHead
  unissued : ∀ chunk, s.freeHead.ghost.owner chunk = .nobody
  perfAlloc : s.perfAlloc = 0
  perfDealloc : s.perfDealloc = 0
  perfAllocFromFree : s.perfAllocFromFree = 0
  pc : ∀ t, s.pc t = .idle
  held : ∀ t, s.ghost.held t = []
  rest : ∀ t, s.ghost.rest t = []
  issued : s.ghost.issued = []

/-- The machine of all threads. -/
def machine (T : Type) [DecidableEq T] : Machine (State T) (T × Act) where
  init := Init
  step := step

/-- **The frontier stays inside the reservation and every commit succeeds.** -/
def Inside (s : State T) (act : T × Act) : Prop :=
  act.2 ≠ .commitFail ∧
    (act.2 = .run → ∀ head next, s.pc act.1 = .newCas head next → s.head_ = head →
      s.head_ + kDefaultChunkSize ≤ s.ptr_ + s.size_)

/-- The tag assumption of the free stack. -/
def TagFresh (s : State T) (act : T × Act) : Prop :=
  act.2 = .run → LfStack.TagFresh s.freeHead (act.1, .run)

/-! ### What a step can do -/

/-- **The steps of a run that stays inside the reservation**, by their effect. -/
inductive Moves (s : State T) (t : T) : State T → Prop
  | callAlloc (here : s.pc t = .idle) :
      Moves s t (s.inner (s.freeHead.goto t .popLoad) t .allocPop)
  | callFree (ptr : Nat) (here : s.pc t = .idle) (holds : ptr ∈ s.ghost.held t) :
      Moves s t ((s.inner (s.freeHead.goto t (.pushLoad ptr)) t .freePush).hold t
        ((s.ghost.held t).erase ptr))
  | callCount (here : s.pc t = .idle) :
      Moves s t (s.inner (s.freeHead.goto t .detachLoad) t .countDetach)
  | internal (freeHead : LfStack.State T Nat) (moved : LfStack.Internal s.freeHead t freeHead) :
      Moves s t { s with freeHead := freeHead }
  | popped (ptr : Nat) (here : s.pc t = .allocPop)
      (done : (s.freeHead.pc t).result = some (some ptr)) :
      Moves s t (s.inner (s.returned t) t (.allocReuse ptr))
  | poppedNull (here : s.pc t = .allocPop) (done : (s.freeHead.pc t).result = some none) :
      Moves s t (s.inner (s.returned t) t .newLoad)
  | reuse (ptr : Nat) (here : s.pc t = .allocReuse ptr) :
      Moves s t ({ s with perfAllocFromFree := s.perfAllocFromFree + 1 }.goto t (.allocRet ptr))
  | load (here : s.pc t = .newLoad ∨ ∃ head next, s.pc t = .newCas head next) :
      Moves s t (s.goto t (.newTest s.head_))
  | null (here : s.pc t = .newTest 0) : Moves s t (s.goto t (.allocRet 0))
  | next (head : Nat) (here : s.pc t = .newTest head) (some_ : head ≠ 0) :
      Moves s t (s.goto t (.newCas head (getChunkPtr s.ptr_ (getChunkIndex s.ptr_ head + 1))))
  | issue (next : Nat) (here : s.pc t = .newCas s.head_ next)
      (bound : s.head_ + kDefaultChunkSize ≤ s.ptr_ + s.size_) : Moves s t (s.issue t next)
  | commit (head : Nat) (here : s.pc t = .newCommit head) : Moves s t (s.goto t (.newCount head))
  | count (head : Nat) (here : s.pc t = .newCount head) :
      Moves s t ({ s with perfAlloc := s.perfAlloc + 1 }.goto t (.allocRet head))
  | pushed (here : s.pc t = .freePush) (result : Option Nat)
      (done : (s.freeHead.pc t).result = some result) :
      Moves s t (s.inner (s.returned t) t .freeCount)
  | dealloc (here : s.pc t = .freeCount) :
      Moves s t ({ s with perfDealloc := s.perfDealloc + 1 }.goto t .freeRet)
  | detached (result : Option Nat) (here : s.pc t = .countDetach)
      (done : (s.freeHead.pc t).result = some result) :
      Moves s t ((s.inner (s.returned t) t (.countWalk result 0)).keep t (s.freeHead.ghost.taken t))
  | walkEnd (c : Nat) (here : s.pc t = .countWalk none c) : Moves s t (s.goto t (.countRet c))
  | walk (ptr c : Nat) (here : s.pc t = .countWalk (some ptr) c) :
      Moves s t ((s.inner (s.freeHead.goto t (.pushLoad ptr)) t
        (.countPush (s.freeHead.next ptr) (c + 1))).keep t (s.ghost.rest t).tail)
  | walked (next : Option Nat) (c : Nat) (here : s.pc t = .countPush next c) (result : Option Nat)
      (done : (s.freeHead.pc t).result = some result) :
      Moves s t (s.inner (s.returned t) t (.countWalk next c))
  | retAlloc (ptr : Nat) (here : s.pc t = .allocRet ptr) :
      Moves s t ((s.goto t .idle).hold t
        (if ptr = 0 then s.ghost.held t else ptr :: s.ghost.held t))
  | ret (here : s.pc t = .freeRet ∨ ∃ c, s.pc t = .countRet c) : Moves s t (s.goto t .idle)
  | write (chunk : Nat) (link : Option Nat) (here : s.pc t = .idle)
      (holds : chunk ∈ s.ghost.held t) : Moves s t { s with freeHead := s.freeHead.link chunk link }

/-- A step inside `free_head_` is its return or one of its internal steps. -/
theorem innerStep_cases {s s' : State T} {t : T} {done : Option Nat → State T}
    (fresh : LfStack.TagFresh s.freeHead (t, .run)) (ran : innerStep s t done = some s') :
    (∃ result, (s.freeHead.pc t).result = some result ∧ s' = done result) ∨
      ∃ freeHead, LfStack.Internal s.freeHead t freeHead ∧
        s' = { s with freeHead := freeHead } := by
  unfold innerStep at ran
  split at ran
  · rename_i result finished
    cases ran
    exact .inl ⟨result, finished, rfl⟩
  · obtain ⟨freeHead, inside, rfl⟩ := Option.map_eq_some_iff.mp ran
    exact .inr ⟨freeHead, LfStack.internal_of_run fresh inside, rfl⟩

theorem moves_of_run {s s' : State T} {t : T} (inside : Inside s (t, .run))
    (fresh : LfStack.TagFresh s.freeHead (t, .run)) (ran : runStep s t = some s') :
    Moves s t s' := by
  unfold runStep at ran
  cases here : s.pc t with
  | idle | allocRet ptr | freeRet | countRet c => simp [here] at ran
  | allocPop =>
    simp only [here] at ran
    rcases innerStep_cases fresh ran with ⟨result, done, rfl⟩ | ⟨freeHead, moved, rfl⟩
    · cases result with
      | none => exact .poppedNull here done
      | some ptr => exact .popped ptr here done
    · exact .internal freeHead moved
  | allocReuse ptr =>
    simp only [here, Option.some.injEq] at ran
    exact ran ▸ .reuse ptr here
  | newLoad =>
    simp only [here, Option.some.injEq] at ran
    exact ran ▸ .load (.inl here)
  | newTest head =>
    simp only [here] at ran
    split at ran
    · rename_i zero
      cases ran
      exact .null (by rw [here, zero])
    · rename_i some_
      cases ran
      exact .next head here some_
  | newCas head next =>
    simp only [here] at ran
    split at ran
    · rename_i equal
      cases ran
      exact .issue next (by rw [here, equal]) (inside.2 rfl head next here equal)
    · cases ran
      exact .load (.inr ⟨head, next, here⟩)
  | newCommit head =>
    simp only [here, Option.some.injEq] at ran
    exact ran ▸ .commit head here
  | newCount head =>
    simp only [here, Option.some.injEq] at ran
    exact ran ▸ .count head here
  | freePush =>
    simp only [here] at ran
    rcases innerStep_cases fresh ran with ⟨result, done, rfl⟩ | ⟨freeHead, moved, rfl⟩
    · exact .pushed here result done
    · exact .internal freeHead moved
  | freeCount =>
    simp only [here, Option.some.injEq] at ran
    exact ran ▸ .dealloc here
  | countDetach =>
    simp only [here] at ran
    rcases innerStep_cases fresh ran with ⟨result, done, rfl⟩ | ⟨freeHead, moved, rfl⟩
    · exact .detached result here done
    · exact .internal freeHead moved
  | countWalk ptr c =>
    cases ptr with
    | none =>
      simp only [here, Option.some.injEq] at ran
      exact ran ▸ .walkEnd c here
    | some ptr =>
      simp only [here, Option.some.injEq] at ran
      exact ran ▸ .walk ptr c here
  | countPush next c =>
    simp only [here] at ran
    rcases innerStep_cases fresh ran with ⟨result, done, rfl⟩ | ⟨freeHead, moved, rfl⟩
    · exact .walked next c here result done
    · exact .internal freeHead moved

/-- **The inversion of `step`.** -/
theorem moves_of_step {s s' : State T} {t : T} {act : Act} (inside : Inside s (t, act))
    (fresh : TagFresh s (t, act)) (next : step s (t, act) = some s') : Moves s t s' := by
  cases act with
  | callAlloc =>
    simp only [step, Option.ite_none_right_eq_some, Option.some.injEq] at next
    obtain ⟨here, rfl⟩ := next
    exact .callAlloc here
  | callFree ptr =>
    simp only [step, Option.ite_none_right_eq_some, Option.some.injEq] at next
    obtain ⟨⟨here, holds⟩, rfl⟩ := next
    exact .callFree ptr here holds
  | callCount =>
    simp only [step, Option.ite_none_right_eq_some, Option.some.injEq] at next
    obtain ⟨here, rfl⟩ := next
    exact .callCount here
  | run => exact moves_of_run inside (fresh rfl) next
  | spurious =>
    simp only [step, spuriousStep] at next
    split at next
    · rename_i head next' here
      cases next
      exact .load (.inr ⟨head, next', here⟩)
    · obtain ⟨freeHead, ran, rfl⟩ := Option.map_eq_some_iff.mp next
      exact .internal freeHead (LfStack.internal_of_spurious ran)
  | commitFail => exact absurd rfl inside.1
  | ret =>
    simp only [step, retStep] at next
    cases here : s.pc t <;> simp only [here, Option.some.injEq, reduceCtorEq] at next <;>
      subst next
    case allocRet ptr => exact .retAlloc ptr here
    case freeRet => exact .ret (.inl here)
    case countRet c => exact .ret (.inr ⟨c, here⟩)
  | write chunk link =>
    simp only [step, Option.ite_none_right_eq_some, Option.some.injEq] at next
    obtain ⟨⟨here, holds⟩, rfl⟩ := next
    exact .write chunk link here holds

/-- `get_total_allocated()`. -/
def State.getTotalAllocated (s : State T) : BitVec 64 := s.perfAlloc

/-- No operation is in progress. -/
def State.Quiescent (s : State T) : Prop := ∀ t, s.pc t = .idle

end NpAlloc.Mmap
