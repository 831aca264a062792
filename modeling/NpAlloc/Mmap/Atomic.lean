/-
**`alloc_chunk` and `free_chunk` take effect in single steps.**

`Atomic` is what the chunk pool is for: a stack of free chunks, a number of chunks issued, and what every
client holds. A call takes effect in steps that cannot be interrupted, between its call and its return:
`alloc_chunk` looks at the free stack once, and takes its top or, if there is none, a chunk from the
frontier later; `free_chunk` puts its chunk on top. These are the steps in which the program of all
threads uses the pool.

* `Atomic.step` — the pool and its clients;
* `seen` — the event of a step of `Mmap.Concurrent`: a call, a return, or the step in which a call takes
  effect;
* **`chunks_linearized`** — the events of every run are accepted by the atomic pool, which ends in the
  state the memory shows.
-/

import NpAlloc.General.Heap
import NpAlloc.LfStack.Refinement
import NpAlloc.Mmap.Footprint

set_option linter.unusedSectionVars false

namespace NpAlloc.Mmap

variable {T : Type} [DecidableEq T]

/-! ### The atomic pool -/

namespace Atomic

/-- Where a client stands. -/
inductive Status
  | idle
  /-- `alloc_chunk` has not looked at the free stack yet. -/
  | asking
  /-- It found it empty. -/
  | starved
  /-- It has a chunk. -/
  | given (ptr : Nat)
  /-- `free_chunk` has the chunk. -/
  | giving (ptr : Nat)
  /-- The chunk is free. -/
  | gave
deriving DecidableEq

structure State (T : Type) where
  free : List Nat
  issued : Nat
  held : T → List Nat
  status : T → Status

inductive Event (T : Type)
  | callAlloc (t : T)
  | callFree (t : T) (ptr : Nat)
  /-- `alloc_chunk` looks at the free stack. -/
  | take (t : T)
  /-- It takes the next chunk of the reservation. -/
  | advance (t : T)
  /-- `free_chunk` puts its chunk on top. -/
  | put (t : T)
  | retAlloc (t : T) (ptr : Nat)
  | retFree (t : T)

def State.goto (s : State T) (t : T) (status : Status) : State T :=
  { s with status := Function.update s.status t status }

/-- **One step of the pool** of a reservation at `base`. -/
def step (base : Nat) (s : State T) : Event T → Option (State T)
  | .callAlloc t => if s.status t = .idle then some (s.goto t .asking) else none
  | .callFree t ptr =>
    if s.status t = .idle ∧ ptr ∈ s.held t then
      some { s.goto t (.giving ptr) with
        held := Function.update s.held t ((s.held t).erase ptr) }
    else none
  | .take t =>
    if s.status t = .asking then
      match s.free with
      | [] => some (s.goto t .starved)
      | ptr :: rest => some { s.goto t (.given ptr) with free := rest }
    else none
  | .advance t =>
    if s.status t = .starved then
      some { s.goto t (.given (chunkAt base s.issued)) with issued := s.issued + 1 }
    else none
  | .put t =>
    match s.status t with
    | .giving ptr => some { s.goto t .gave with free := ptr :: s.free }
    | _ => none
  | .retAlloc t ptr =>
    if s.status t = .given ptr then
      some { s.goto t .idle with held := Function.update s.held t (ptr :: s.held t) }
    else none
  | .retFree t => if s.status t = .gave then some (s.goto t .idle) else none

/-- A new pool. -/
def State.new : State T := ⟨[], 0, fun _ => [], fun _ => .idle⟩

end Atomic

/-! ### What a state stands for -/

/-- Where a pop stands. -/
def popStatus : LfStack.Spec.Status Nat → Atomic.Status
  | .done none => .starved
  | .done (some ptr) => .given ptr
  | _ => .asking

/-- Where a push stands. -/
def pushStatus : LfStack.Spec.Status Nat → Atomic.Status
  | .pending (.push ptr) => .giving ptr
  | _ => .gave

/-- **Where the call of a thread stands.** -/
def statusOf (pc : Pc) (inner : LfStack.Spec.Status Nat) : Atomic.Status :=
  match pc with
  | .allocPop => popStatus inner
  | .freePush => pushStatus inner
  | .allocReuse ptr | .newCommit ptr | .newCount ptr | .allocRet ptr => .given ptr
  | .newLoad | .newTest _ | .newCas _ _ => .starved
  | .freeCount | .freeRet => .gave
  | _ => .idle

def State.status (s : State T) (t : T) : Atomic.Status := statusOf (s.pc t) (s.freeHead.pc t).status

/-- The atomic pool a state stands for. -/
def State.abs (s : State T) : Atomic.State T :=
  ⟨s.freeHead.ghost.stack, s.ghost.issued.length, s.ghost.held, s.status⟩

/-- The event that takes a call from one status to another. -/
def effect (t : T) : Atomic.Status → Atomic.Status → Option (Atomic.Event T)
  | .asking, .starved | .asking, .given _ => some (.take t)
  | .starved, .given _ => some (.advance t)
  | .giving _, .gave => some (.put t)
  | _, _ => none

/-- **What is seen of a step.** -/
def seen (s : State T) (act : T × Act) (s' : State T) : Option (Atomic.Event T) :=
  match act.2 with
  | .callAlloc => some (.callAlloc act.1)
  | .callFree ptr => some (.callFree act.1 ptr)
  | .ret =>
    match s.pc act.1 with
    | .allocRet ptr => some (.retAlloc act.1 ptr)
    | _ => some (.retFree act.1)
  | .run | .spurious => effect act.1 (s.status act.1) (s'.status act.1)
  | _ => none

variable {s s' : State T} {t u : T}

/-! ### The invariant -/

/-- No thread is in `count_free_list`, and no call has found a null frontier. -/
structure Sound (base : Nat) (s : State T) : Prop where
  places : Places s
  calm : ∀ t, (s.pc t).counting = false
  base : s.ptr_ = base
  tested : ∀ t head, s.pc t = .newTest head → head ≠ 0
  found : ∀ t ptr, s.pc t = .allocRet ptr → ptr ≠ 0

/-- The status of the thread that steps, and of the others. -/
theorem status_step (places : Places s) (moved : Moves s t s') :
    s'.status = Function.update s.status t (s'.status t) := by
  funext u
  by_cases same : u = t
  · rw [same, Function.update_self]
  · obtain ⟨outer, inner⟩ := moved.elsewhere places same
    rw [Function.update_of_ne same]
    unfold State.status
    rw [outer, inner]

/-- A step that shows in none of the parts. -/
theorem abs_same (places : Places s) (moved : Moves s t s')
    (stack : s'.freeHead.ghost.stack = s.freeHead.ghost.stack) (issued : s'.ghost.issued = s.ghost.issued)
    (held : s'.ghost.held = s.ghost.held) (status : s'.status t = s.status t) : s'.abs = s.abs := by
  have every : s'.status = s.status := by
    rw [status_step places moved, status, Function.update_eq_self]
  unfold State.abs
  rw [stack, issued, held, every]

/-- What a step does to the pool. -/
theorem abs_step (places : Places s) (moved : Moves s t s') :
    s'.abs = { s.abs.goto t (s'.status t) with
      free := s'.freeHead.ghost.stack, issued := s'.ghost.issued.length, held := s'.ghost.held } := by
  unfold State.abs Atomic.State.goto
  rw [← status_step places moved]

theorem status_eq {pc : Pc} {inner : LfStack.Pc Nat} (here : s.pc t = pc)
    (there : s.freeHead.pc t = inner) : s.status t = statusOf pc inner.status := by
  unfold State.status
  rw [here, there]

theorem status_at {pc : Pc} {inner : LfStack.Pc Nat} {status : Atomic.Status} (here : s.pc t = pc)
    (there : s.freeHead.pc t = inner) (stands : statusOf pc inner.status = status) :
    s.status t = status :=
  (status_eq here there).trans stands

theorem effect_self (t : T) (status : Atomic.Status) : effect t status status = none := by
  cases status <;> rfl

/-! ### The steps inside a call -/

/-- The look at the free stack, with or without a chunk on it. -/
theorem Atomic.step_take {base : Nat} {a : Atomic.State T} (asking : a.status t = .asking) :
    Atomic.step base a (.take t)
      = some { a.goto t (popStatus (.done a.free.head?)) with free := a.free.tail } := by
  obtain ⟨free, issued, held, status⟩ := a
  simp only [Atomic.step, if_pos asking]
  cases free <;> rfl

theorem Atomic.step_put {base : Nat} {a : Atomic.State T} {ptr : Nat} (giving : a.status t = .giving ptr) :
    Atomic.step base a (.put t) = some { a.goto t .gave with free := ptr :: a.free } := by
  simp only [Atomic.step, giving]

theorem Atomic.step_advance {base : Nat} {a : Atomic.State T} (starved : a.status t = .starved) :
    Atomic.step base a (.advance t)
      = some { a.goto t (.given (chunkAt base a.issued)) with issued := a.issued + 1 } :=
  if_pos starved

/-- **What is seen of a step is what happens to the pool.** -/
def Shown (base : Nat) (s : State T) (event : Option (Atomic.Event T)) (s' : State T) : Prop :=
  Machine.Follows (Atomic.step base) s.abs event s'.abs

/-- A step that leaves the call where it stands. -/
theorem shown_quiet {base : Nat} (places : Places s) (moved : Moves s t s')
    (stack : s'.freeHead.ghost.stack = s.freeHead.ghost.stack) (issued : s'.ghost.issued = s.ghost.issued)
    (held : s'.ghost.held = s.ghost.held) (status : s'.status t = s.status t) :
    Shown base s (effect t (s.status t) (s'.status t)) s' := by
  refine .inl ⟨?_, abs_same places moved stack issued held status⟩
  rw [status]
  exact effect_self t _

/-- The commit of an operation of the atomic stack. -/
theorem commit_cases {lf lf' : LfStack.State T Nat}
    (commit : LfStack.Spec.step lf.abs (t, .commit) = some lf'.abs) :
    ∃ op, (lf.pc t).status = .pending op ∧
      lf'.ghost.stack = (LfStack.Spec.apply lf.ghost.stack op).2 ∧
      (lf'.pc t).status = .done (LfStack.Spec.apply lf.ghost.stack op).1 := by
  simp only [LfStack.Spec.step, LfStack.State.abs] at commit
  split at commit
  · rename_i op pending
    refine ⟨op, pending, ?_, ?_⟩
    · exact (congrArg LfStack.Spec.State.stack (Option.some.inj commit)).symm
    · have after := congrFun (congrArg LfStack.Spec.State.status (Option.some.inj commit)) t
      simp only [Function.update_self] at after
      exact after.symm
  · cases commit

/-- The function of an operation. -/
def opKind : LfStack.Op Nat → LfStack.Kind
  | .pop => .pop
  | .push _ => .push
  | .detach => .detach

theorem kind_of_pending {pc : LfStack.Pc Nat} {op : LfStack.Op Nat}
    (pending : pc.status = .pending op) : pc.kind = opKind op := by
  cases pc with
  | popRead curr | detachTest curr =>
    simp only [LfStack.Pc.status] at pending
    split at pending <;> cases pending
    rfl
  | idle | popRet result | pushRet | detachRet result => cases pending
  | _ =>
    cases pending
    rfl

/-- **A step inside `free_head_`.** -/
theorem Sound.shown_internal {base : Nat} (sound : Sound base s) {freeHead : LfStack.State T Nat}
    (moved : LfStack.Internal s.freeHead t freeHead) :
    Shown base s (effect t (s.status t) (({ s with freeHead := freeHead } : State T).status t))
      { s with freeHead := freeHead } := by
  have places := sound.places
  have step : Moves s t { s with freeHead := freeHead } := .internal freeHead moved
  rcases LfStack.abs_internal places.stack moved with commit | same
  · obtain ⟨op, pending, stack, done⟩ := commit_cases commit
    have calm := sound.calm t
    have kind := places.kind t
    rw [kind_of_pending pending] at kind
    cases op with
    | pop =>
      have here : s.pc t = .allocPop := by
        cases there : s.pc t <;> rw [there] at kind <;> first | rfl | cases kind
      have before : s.status t = .asking := by
        unfold State.status
        rw [here, pending]
        rfl
      have after : ({ s with freeHead := freeHead } : State T).status t
          = popStatus (.done s.freeHead.ghost.stack.head?) := by
        show statusOf (s.pc t) (freeHead.pc t).status = _
        rw [here, done]
        rfl
      have taken : Atomic.step base s.abs (.take t) = some (State.abs { s with freeHead := freeHead }) := by
        rw [abs_step places step, after, stack, Atomic.step_take before]
        rfl
      rw [before, after]
      cases split : s.freeHead.ghost.stack with
      | nil => exact Machine.Follows.taken taken
      | cons ptr rest => exact Machine.Follows.taken taken
    | push ptr =>
      have here : s.pc t = .freePush := by
        cases there : s.pc t <;> rw [there] at kind calm <;> cases calm <;> first | rfl | cases kind
      have before : s.status t = .giving ptr := by
        unfold State.status
        rw [here, pending]
        rfl
      have after : ({ s with freeHead := freeHead } : State T).status t = .gave := by
        unfold State.status
        show statusOf (s.pc t) (freeHead.pc t).status = _
        rw [here, done]
        rfl
      have taken : Atomic.step base s.abs (.put t) = some (State.abs { s with freeHead := freeHead }) := by
        rw [abs_step places step, after, stack, Atomic.step_put before]
        rfl
      rw [before, after]
      exact Machine.Follows.taken taken
    | detach =>
      cases there : s.pc t <;> rw [there] at kind calm <;> cases calm <;> cases kind
  · refine shown_quiet places step (congrArg LfStack.Spec.State.stack same) rfl rfl ?_
    have status := congrFun (congrArg LfStack.Spec.State.status same) t
    exact congrArg (statusOf (s.pc t)) status

/-- **A step of a call in progress.** -/
theorem Sound.shown_run {base : Nat} (sound : Sound base s) (moved : Moves s t s')
    (busy : s.pc t ≠ .idle ∧ (∀ ptr, s.pc t ≠ .allocRet ptr) ∧ s.pc t ≠ .freeRet) :
    Shown base s (effect t (s.status t) (s'.status t)) s' := by
  have places := sound.places
  have calm := sound.calm t
  have kind := places.kind t
  have into (pc : Pc) (stays : statusOf pc .idle = s.status t)
      (outer : ∀ inner, statusOf pc inner = statusOf pc .idle) (there : s'.pc t = pc) :
      s'.status t = s.status t := by
    unfold State.status
    rw [there, outer, stays]
    rfl
  cases moved with
  | callAlloc here | callFree ptr here holds | callCount here | write chunk link here holds =>
    exact absurd here busy.1
  | retAlloc ptr here => exact absurd here (busy.2.1 ptr)
  | ret here =>
    rcases here with here | ⟨c, here⟩
    · exact absurd here busy.2.2
    · rw [here] at calm
      cases calm
  | internal freeHead moved => exact sound.shown_internal moved
  | popped ptr here done =>
    have there := places.at_popRet here done
    refine shown_quiet places (.popped ptr here done) rfl rfl rfl ?_
    exact into (.allocReuse ptr) (status_eq here there).symm (fun _ => rfl) (Function.update_self ..)
  | poppedNull here done =>
    have there := places.at_popRet here done
    refine shown_quiet places (.poppedNull here done) rfl rfl rfl ?_
    exact into .newLoad (status_eq here there).symm (fun _ => rfl) (Function.update_self ..)
  | reuse ptr here =>
    refine shown_quiet places (.reuse ptr here) rfl rfl rfl ?_
    exact into (.allocRet ptr) (status_eq here rfl).symm (fun _ => rfl) (Function.update_self ..)
  | load here =>
    refine shown_quiet places (.load here) rfl rfl rfl ?_
    refine into (.newTest s.head_) ?_ (fun _ => rfl) (Function.update_self ..)
    rcases here with here | ⟨head, next, here⟩ <;> exact (status_eq here rfl).symm
  | null here => exact absurd rfl (sound.tested t 0 here)
  | next head here some_ =>
    refine shown_quiet places (.next head here some_) rfl rfl rfl ?_
    exact into (.newCas head _) (status_eq here rfl).symm (fun _ => rfl) (Function.update_self ..)
  | issue next here bound =>
    have before : s.status t = .starved := status_eq here rfl
    have after : (s.issue t next).status t = .given s.head_ :=
      status_eq (s := s.issue t next) (Function.update_self ..) rfl
    have count : (s.issue t next).ghost.issued.length = s.ghost.issued.length + 1 := by
      simp [State.issue]
    have taken : Atomic.step base s.abs (.advance t) = some (s.issue t next).abs := by
      rw [abs_step places (.issue next here bound), after, count, places.frontier, sound.base,
        Atomic.step_advance before]
      rfl
    rw [before, after]
    exact Machine.Follows.taken taken
  | commit head here =>
    refine shown_quiet places (.commit head here) rfl rfl rfl ?_
    exact into (.newCount head) (status_eq here rfl).symm (fun _ => rfl) (Function.update_self ..)
  | count head here =>
    refine shown_quiet places (.count head here) rfl rfl rfl ?_
    exact into (.allocRet head) (status_eq here rfl).symm (fun _ => rfl) (Function.update_self ..)
  | pushed here result done =>
    have there := places.at_pushRet (by rw [here]; rfl) done
    refine shown_quiet places (.pushed here result done) rfl rfl rfl ?_
    exact into .freeCount (status_eq here there).symm (fun _ => rfl) (Function.update_self ..)
  | dealloc here =>
    refine shown_quiet places (.dealloc here) rfl rfl rfl ?_
    exact into .freeRet (status_eq here rfl).symm (fun _ => rfl) (Function.update_self ..)
  | detached result here done => rw [here] at calm; cases calm
  | walkEnd c here => rw [here] at calm; cases calm
  | walk ptr c here => rw [here] at calm; cases calm
  | walked next c here result done => rw [here] at calm; cases calm

/-! ### Every step -/

/-- A call in progress is neither at its start nor at its end. -/
theorem busy_of_run (ran : runStep s t = some s') :
    s.pc t ≠ .idle ∧ (∀ ptr, s.pc t ≠ .allocRet ptr) ∧ s.pc t ≠ .freeRet := by
  refine ⟨?_, ?_, ?_⟩ <;> intros <;> intro here <;> simp [runStep, here] at ran

theorem busy_of_spurious (places : Places s) (ran : spuriousStep s t = some s') :
    s.pc t ≠ .idle ∧ (∀ ptr, s.pc t ≠ .allocRet ptr) ∧ s.pc t ≠ .freeRet := by
  have inner (pc : Pc) (kind : pc.kind = .idle) (plain : ∀ head next, pc ≠ .newCas head next) :
      s.pc t ≠ pc := by
    rintro rfl
    have idle := places.inner_idle kind
    cases here : s.pc t <;> simp [spuriousStep, LfStack.spuriousStep, here, idle] at ran plain
  exact ⟨inner .idle rfl (by simp), fun ptr => inner (.allocRet ptr) rfl (by simp),
    inner .freeRet rfl (by simp)⟩

/-- **Every step is seen as what it does.** -/
theorem Sound.shown {base : Nat} {act : T × Act} (sound : Sound base s) (steady : Steady s act)
    (next : step s act = some s') : Shown base s (seen s act s') s' := by
  obtain ⟨t, act⟩ := act
  have places := sound.places
  have moved := moves_of_step steady.1.1 steady.1.2 next
  have after := abs_step places moved
  cases act with
  | callAlloc =>
    simp only [step, Option.ite_none_right_eq_some, Option.some.injEq] at next
    obtain ⟨here, rfl⟩ := next
    have idle : s.abs.status t = .idle := status_eq here rfl
    have asking : (s.inner (s.freeHead.goto t .popLoad) t .allocPop).status t = .asking :=
      status_at (Function.update_self ..) (Function.update_self ..) rfl
    rw [asking] at after
    exact Machine.Follows.taken ((if_pos idle).trans (congrArg some after.symm))
  | callFree ptr =>
    simp only [step, Option.ite_none_right_eq_some, Option.some.injEq] at next
    obtain ⟨⟨here, holds⟩, rfl⟩ := next
    have idle : s.abs.status t = .idle := status_eq here rfl
    have giving : ((s.inner (s.freeHead.goto t (.pushLoad ptr)) t .freePush).hold t
        ((s.ghost.held t).erase ptr)).status t = .giving ptr :=
      status_at (Function.update_self ..) (Function.update_self ..) rfl
    rw [giving] at after
    exact Machine.Follows.taken ((if_pos ⟨idle, holds⟩).trans (congrArg some after.symm))
  | callCount => exact absurd rfl steady.2
  | run => exact sound.shown_run moved (busy_of_run next)
  | spurious => exact sound.shown_run moved (busy_of_spurious places next)
  | commitFail => exact absurd rfl steady.1.1.1
  | ret =>
    simp only [step, retStep] at next
    cases here : s.pc t <;> simp only [here, Option.some.injEq, reduceCtorEq] at next
    case allocRet ptr =>
      subst next
      have given : s.abs.status t = .given ptr := status_eq here rfl
      have idle : ((s.goto t .idle).hold t
          (if ptr = 0 then s.ghost.held t else ptr :: s.ghost.held t)).status t = .idle :=
        status_at (Function.update_self ..) rfl rfl
      have holds : ((s.goto t .idle).hold t
          (if ptr = 0 then s.ghost.held t else ptr :: s.ghost.held t)).ghost.held
          = Function.update s.ghost.held t (ptr :: s.ghost.held t) := by
        rw [if_neg (sound.found t ptr here)]
        rfl
      rw [idle, holds] at after
      simp only [seen, here]
      exact Machine.Follows.taken ((if_pos given).trans (congrArg some after.symm))
    case freeRet =>
      subst next
      have gave : s.abs.status t = .gave := status_eq here rfl
      have idle : (s.goto t .idle).status t = .idle := status_at (Function.update_self ..) rfl rfl
      rw [idle] at after
      simp only [seen, here]
      exact Machine.Follows.taken ((if_pos gave).trans (congrArg some after.symm))
    case countRet c =>
      have calm := sound.calm t
      rw [here] at calm
      cases calm
  | write chunk link =>
    simp only [step, Option.ite_none_right_eq_some, Option.some.injEq] at next
    obtain ⟨_, rfl⟩ := next
    exact .inl ⟨rfl, rfl⟩

/-! ### The invariant over runs -/

/-- A new reservation. -/
theorem Sound.init (start : Init s) : Sound s.ptr_ s := by
  have idle := start.pc
  refine ⟨.init start, fun t => ?_, rfl, fun t head here => ?_, fun t ptr here => ?_⟩
  · rw [idle]
    rfl
  · rw [idle] at here
    cases here
  · rw [idle] at here
    cases here

/-- A chunk of the reservation is not null. -/
theorem Places.head_pos (places : Places s) : s.head_ ≠ 0 := by
  have base := places.base
  have frontier := places.frontier
  unfold chunkAt at frontier
  omega

/-- A call only ever sees a frontier and chunks that are not null. -/
theorem Sound.reaches {base : Nat} (sound : Sound base s) (moved : Moves s t s') :
    (∀ head, s'.pc t = .newTest head → head ≠ 0) ∧ ∀ ptr, s'.pc t = .allocRet ptr → ptr ≠ 0 := by
  have places := sound.places
  have at_ : ∀ pc : Pc, Function.update s.pc t pc t = pc := fun pc => Function.update_self ..
  have elsewhere (pc : Pc) (there : s'.pc t = pc) (tests : ∀ head, pc ≠ .newTest head)
      (found : ∀ ptr, pc ≠ .allocRet ptr) :
      (∀ head, s'.pc t = .newTest head → head ≠ 0) ∧ ∀ ptr, s'.pc t = .allocRet ptr → ptr ≠ 0 := by
    rw [there]
    exact ⟨fun head same => absurd same (tests head), fun ptr same => absurd same (found ptr)⟩
  have arrived (ptr : Nat) (there : s'.pc t = .allocRet ptr) (pos : ptr ≠ 0) :
      (∀ head, s'.pc t = .newTest head → head ≠ 0) ∧ ∀ ptr, s'.pc t = .allocRet ptr → ptr ≠ 0 := by
    rw [there]
    refine ⟨fun head same => (by cases same), fun ptr' same => ?_⟩
    cases same
    exact pos
  cases moved with
  | internal freeHead moved => exact ⟨sound.tested t, sound.found t⟩
  | write chunk link here holds => exact ⟨sound.tested t, sound.found t⟩
  | null here => exact absurd rfl (sound.tested t 0 here)
  | reuse ptr here =>
    exact arrived ptr (at_ _) (places.hand_pos (t := t) (by rw [here]; exact List.mem_singleton_self _))
  | count head here =>
    exact arrived head (at_ _) (places.hand_pos (t := t) (by rw [here]; exact List.mem_singleton_self _))
  | load here =>
    refine ⟨fun head same => ?_, fun ptr same => ?_⟩
    · cases (at_ (.newTest s.head_)).symm.trans same
      exact places.head_pos
    · cases (at_ (.newTest s.head_)).symm.trans same
  | _ => exact elsewhere _ (at_ _) (by simp) (by simp)

/-- **Every step keeps it.** -/
theorem Sound.step {base : Nat} {act : T × Act} (sound : Sound base s) (steady : Steady s act)
    (next : step s act = some s') : Sound base s' := by
  obtain ⟨t, act⟩ := act
  have places := sound.places
  have moved := moves_of_step steady.1.1 steady.1.2 next
  have mine := sound.reaches moved
  refine ⟨places.moves moved, not_counting_step steady next sound.calm, ?_, fun u head here => ?_,
    fun u ptr here => ?_⟩
  · rw [← sound.base]
    cases moved <;> rfl
  · by_cases same : u = t
    · exact mine.1 head (same ▸ here)
    · exact sound.tested u head ((moved.elsewhere places same).1 ▸ here)
  · by_cases same : u = t
    · exact mine.2 ptr (same ▸ here)
    · exact sound.found u ptr ((moved.elsewhere places same).1 ▸ here)

/-! ### The result -/

/-- **`alloc_chunk` and `free_chunk` are atomic.** Under any schedule of them by any number of threads,
with the frontier inside the reservation, every commit successful and the tags fresh, the calls, the
returns and one or two effects between them are a run of the atomic pool. Where it ends, its free chunks
are those linked from `free_head_`, `head_` stands after its issued chunks, and it has every client hold
what that client holds. -/
theorem chunks_linearized {start : State T} {acts : List (T × Act)} (initial : Init start)
    (run : (machine T).Exec Steady start acts s) :
    ∃ final, replay (Atomic.step start.ptr_) .new ((machine T).history seen start acts) = some final ∧
      Linked s.freeHead.next s.freeHead.head.ptr final.free ∧
      s.head_ = chunkAt start.ptr_ final.issued ∧ final.held = s.ghost.held := by
  have fresh : (Atomic.State.new : Atomic.State T) = start.abs := by
    have status : start.status = fun _ => .idle := funext fun t => status_at (initial.pc t) rfl rfl
    have held : start.ghost.held = fun _ => [] := funext initial.held
    unfold Atomic.State.new State.abs
    rw [status, held, initial.issued, initial.freeHead.1.stack]
    rfl
  obtain ⟨accepted, sound⟩ := Machine.Exec.replays_abs (Atomic.step start.ptr_) seen State.abs
    (fun s act s' sound steady next => Sound.step sound steady next)
    (fun s act s' sound steady next => Sound.shown sound steady next) run (.init initial)
  have places := sound.places
  refine ⟨s.abs, by rw [fresh]; exact accepted, places.stack.chain, ?_, rfl⟩
  rw [← sound.base]
  exact places.frontier

/-- One thread allocates a chunk, frees it, and allocates again. -/
theorem chunks_linearized_reuse : ∃ s : State Bool, s.ghost.held true = [chunkA] ∧
    ∃ final, replay (Atomic.step fourChunks.ptr_) .new ((machine Bool).history seen fourChunks
        (newActs true ++ freeActs true chunkA ++ allocActs true)) = some final ∧
      Linked s.freeHead.next s.freeHead.head.ptr final.free ∧
      s.head_ = chunkAt fourChunks.ptr_ final.issued ∧ final.held = s.ghost.held := by
  have reached : ((machine Bool).runFrom Steady fourChunks
      (newActs true ++ freeActs true chunkA ++ allocActs true)).map (fun s => s.ghost.held true)
      = some [chunkA] := by
    decide +kernel
  obtain ⟨s, run, held⟩ := Option.map_eq_some_iff.mp reached
  exact ⟨s, held, chunks_linearized fourChunks_init (Machine.exec_of_runFrom run)⟩

end NpAlloc.Mmap
