/-
**`lf_stack` refines an atomic LIFO stack.**

`Spec` is the purpose of the component: a list, and three operations that take effect in one
indivisible `commit` somewhere between their call and their return. `simulates` is the forward
simulation: the commit of a push, a non-empty pop and a non-empty detach is its successful
compare-exchange, the commit of an empty one is the load that found `head_.ptr` null.

`lf_stack_refines` collects what the simulation and the invariant say of every run whose
compare-exchanges meet the tag assumption.
-/

import NpAlloc.LfStack.Step

set_option linter.unusedSectionVars false

namespace NpAlloc.LfStack

variable {T N : Type} [DecidableEq T] [DecidableEq N]

/-! ### The atomic stack -/

namespace Spec

/-- A client's operation: none, not yet in effect, or in effect with its result. -/
inductive Status (N : Type)
  | idle
  | pending (op : Op N)
  | done (result : Option N)

/-- The abstract state. -/
structure State (T N : Type) where
  stack : List N
  status : T → Status N

inductive Act (N : Type)
  | call (op : Op N)
  | commit
  | ret (result : Option N)

/-- The whole effect of an operation: its result and the stack it leaves. -/
def apply (stack : List N) : Op N → Option N × List N
  | .pop => (stack.head?, stack.tail)
  | .push ptr => (none, ptr :: stack)
  | .detach => (stack.head?, [])

/-- One step of one client. -/
def step (s : State T N) : T × Act N → Option (State T N)
  | (t, .call op) =>
    match s.status t with
    | .idle => some { s with status := Function.update s.status t (.pending op) }
    | _ => none
  | (t, .commit) =>
    match s.status t with
    | .pending op => some ⟨(apply s.stack op).2,
        Function.update s.status t (.done (apply s.stack op).1)⟩
    | _ => none
  | (t, .ret result) =>
    match s.status t with
    | .done found =>
      if found = result then some { s with status := Function.update s.status t .idle } else none
    | _ => none

/-- The atomic stack, empty at first. -/
def machine (T N : Type) [DecidableEq T] [DecidableEq N] : Machine (State T N) (T × Act N) where
  init s := s = ⟨[], fun _ => .idle⟩
  step := step

end Spec

/-- What a client sees: calls and returns. -/
inductive Event (T N : Type)
  | call (t : T) (op : Op N)
  | ret (t : T) (result : Option N)

/-- The event of a step of `lf_stack`. -/
def seen : T × Act T N → Option (Event T N)
  | (t, .call op) => some (.call t op)
  | (t, .ret result) => some (.ret t result)
  | _ => none

/-- The event of a step of the atomic stack. -/
def Spec.shown : T × Spec.Act N → Option (Event T N)
  | (t, .call op) => some (.call t op)
  | (t, .ret result) => some (.ret t result)
  | (_, .commit) => none

/-! ### The simulation -/

/-- **Linearization points.** A program counter is past its own exactly when it holds a loaded null
top or its compare-exchange has succeeded. -/
def Pc.status : Pc N → Spec.Status N
  | .idle => .idle
  | .popLoad | .popCas _ _ => .pending .pop
  | .popRead curr => if curr.ptr = none then .done none else .pending .pop
  | .popRet result => .done result
  | .pushLoad ptr | .pushWrite ptr _ | .pushCas ptr _ _ => .pending (.push ptr)
  | .pushRet => .done none
  | .detachLoad | .detachCas _ _ => .pending .detach
  | .detachTest curr => if curr.ptr = none then .done none else .pending .detach
  | .detachRet result => .done result

/-- The atomic stack a state of `lf_stack` stands for. -/
def State.abs (s : State T N) : Spec.State T N :=
  ⟨s.ghost.stack, fun t => (s.pc t).status⟩

variable {s s' : State T N} {t : T}

theorem status_update (pcs : T → Pc N) (pc : Pc N) :
    (fun u => (Function.update pcs t pc u).status)
      = Function.update (fun u => (pcs u).status) t pc.status := by
  funext u
  by_cases same : u = t
  · subst same
    simp only [Function.update_self]
  · simp only [Function.update_of_ne same]

/-- A step that changes neither the stack nor the thread's status is no abstract step. -/
theorem abs_stutter {pc : Pc N} (stack : s'.ghost.stack = s.ghost.stack)
    (pcs : s'.pc = Function.update s.pc t pc) (same : pc.status = (s.pc t).status) :
    s'.abs = s.abs := by
  have status : (fun u => (s'.pc u).status) = fun u => (s.pc u).status := by
    rw [pcs, status_update, same, Function.update_eq_self_iff]
  simp only [State.abs, stack, status]

/-- A step with the effect of the pending operation is its commit. -/
theorem abs_commit {pc : Pc N} {op : Op N} (pending : (s.pc t).status = .pending op)
    (stack : s'.ghost.stack = (Spec.apply s.ghost.stack op).2)
    (pcs : s'.pc = Function.update s.pc t pc)
    (done : pc.status = .done (Spec.apply s.ghost.stack op).1) :
    Spec.step s.abs (t, .commit) = some s'.abs := by
  simp only [Spec.step, State.abs, pending, stack, pcs, status_update, done]

/-- A load of `head_` commits an operation that finds nothing, and is invisible otherwise. -/
theorem abs_load {pc : Pc N} {op : Op N} (inv : Inv s) (pending : (s.pc t).status = .pending op)
    (empty : Spec.apply [] op = (none, []))
    (after : pc.status = if s.head.ptr = none then .done none else .pending op) :
    Spec.step s.abs (t, .commit) = some (s.load t pc).abs ∨ (s.load t pc).abs = s.abs := by
  by_cases null : s.head.ptr = none
  · left
    have chain := inv.chain
    rw [null] at chain
    have nothing := chain.eq_nil
    rw [if_pos null] at after
    refine abs_commit pending ?_ rfl ?_
    · rw [nothing, empty]
      exact nothing
    · rw [nothing, empty]
      exact after
  · right
    rw [if_neg null] at after
    exact abs_stutter rfl rfl (after.trans pending.symm)

/-- **Every internal step is a commit or invisible.** -/
theorem abs_internal (inv : Inv s) (moved : Internal s t s') :
    Spec.step s.abs (t, .commit) = some s'.abs ∨ s'.abs = s.abs := by
  cases moved with
  | popLoad entered =>
    refine abs_load inv ?_ rfl rfl
    rcases entered with here | ⟨curr, next, here⟩ <;> rw [here] <;> rfl
  | popNull curr here null | detachNull curr here null =>
    exact .inr (abs_stutter rfl rfl (by rw [here, Pc.status, Pc.status, if_pos null]))
  | popNext curr node here top | detachNext curr node here top =>
    refine .inr (abs_stutter rfl rfl ?_)
    rw [here, Pc.status, Pc.status, if_neg (by rw [top]; simp)]
  | popCas curr next here equal bound =>
    obtain ⟨node, rest, split, top, -⟩ := popCas_installs inv here equal bound
    refine .inl (abs_commit (by rw [here]; rfl) rfl rfl ?_)
    rw [split, top]
    rfl
  | pushLoad ptr entered =>
    refine .inr (abs_stutter rfl rfl ?_)
    rcases entered with here | ⟨curr, next, here⟩ <;> rw [here] <;> rfl
  | pushWrite ptr curr here => exact .inr (abs_stutter rfl rfl (by rw [here]; rfl))
  | pushCas ptr curr next here => exact .inl (abs_commit (by rw [here]; rfl) rfl rfl rfl)
  | detachLoad entered =>
    refine abs_load inv ?_ rfl rfl
    rcases entered with here | ⟨curr, next, here⟩ <;> rw [here] <;> rfl
  | detachCas curr next here equal =>
    refine .inl (abs_commit (by rw [here]; rfl) rfl rfl ?_)
    rw [Pc.status, Spec.apply, ← equal, inv.chain.head_eq]

/-- A call is a call. -/
theorem abs_call {op : Op N} (idle : s.pc t = .idle) :
    Spec.step s.abs (t, .call op) = some (s.goto t op.entry).abs := by
  have entry : op.entry.status = .pending op := by cases op <;> rfl
  have before : (s.pc t).status = .idle := by rw [idle]; rfl
  simp only [Spec.step, State.abs, before, State.goto, status_update, entry]

/-- A return is a return. -/
theorem abs_ret {result : Option N} (finished : (s.pc t).result = some result) :
    Spec.step s.abs (t, .ret result) = some (s.goto t .idle).abs := by
  have done : (s.pc t).status = .done result := by
    cases here : s.pc t <;> simp_all [Pc.result, Pc.status]
  have after : (Pc.idle : Pc N).status = .idle := rfl
  simp only [Spec.step, State.abs, done, if_true, State.goto, status_update, after]

/-- **The forward simulation.** -/
theorem simulates : Machine.Simulates (machine T N) TagFresh (Spec.machine T N) seen Spec.shown
    fun s abstract => Inv s ∧ abstract = s.abs where
  init s start := by
    refine ⟨s.abs, ?_, .init start, rfl⟩
    obtain ⟨⟨_, pc, stack, _, _⟩, _⟩ := start
    show s.abs = _
    simp only [State.abs, stack, pc, Pc.status]
  step := by
    rintro s ⟨t, act⟩ s' abstract ⟨inv, rfl⟩ fresh next
    have inv' := inv.step fresh next
    -- an invisible step is matched by a commit or by nothing
    have silent (either : Spec.step s.abs (t, .commit) = some s'.abs ∨ s'.abs = s.abs) :
        ∃ acts abstract', (Spec.machine T N).Exec Machine.anyStep s.abs acts abstract' ∧
          acts.filterMap Spec.shown = ([] : List (Event T N)) ∧ Inv s' ∧ abstract' = s'.abs := by
      rcases either with commit | same
      · exact ⟨[(t, .commit)], s'.abs, .single trivial commit, rfl, inv', rfl⟩
      · exact ⟨[], s.abs, .nil _, rfl, inv', same.symm⟩
    cases act with
    | call op =>
      simp only [machine, LfStack.step, Option.ite_none_right_eq_some, Option.some.injEq] at next
      obtain ⟨⟨idle, _⟩, rfl⟩ := next
      exact ⟨[(t, .call op)], _, .single trivial (abs_call idle), rfl, inv', rfl⟩
    | run => exact silent (abs_internal inv (internal_of_run fresh next))
    | spurious => exact silent (abs_internal inv (internal_of_spurious next))
    | ret result =>
      simp only [machine, LfStack.step, Option.ite_none_right_eq_some, Option.some.injEq] at next
      obtain ⟨finished, rfl⟩ := next
      exact ⟨[(t, .ret result)], _, .single trivial (abs_ret finished), rfl, inv', rfl⟩
    | write node link | give node other | create node | delete node =>
      simp only [machine, LfStack.step, Option.ite_none_right_eq_some, Option.some.injEq] at next
      obtain ⟨_, rfl⟩ := next
      exact silent (.inr rfl)

/-! ### Where a null result comes from -/

/-- An internal step changes no other thread's program counter. -/
theorem Internal.pc_other {u : T} (moved : Internal s t s') (other : u ≠ t) :
    s'.pc u = s.pc u := by
  cases moved <;> exact Function.update_of_ne other _ _

/-- A step changes no other thread's program counter. -/
theorem step_pc_other {act : Act T N} {u : T} (fresh : TagFresh s (t, act)) (other : u ≠ t)
    (next : step s (t, act) = some s') : s'.pc u = s.pc u := by
  cases act with
  | run => exact (internal_of_run fresh next).pc_other other
  | spurious => exact (internal_of_spurious next).pc_other other
  | call op | ret result =>
    simp only [step, Option.ite_none_right_eq_some, Option.some.injEq] at next
    obtain ⟨_, rfl⟩ := next
    exact Function.update_of_ne other _ _
  | write node link | give node other | create node | delete node =>
    simp only [step, Option.ite_none_right_eq_some, Option.some.injEq] at next
    obtain ⟨_, rfl⟩ := next
    rfl

/-- The pop has found nothing: it holds a null top, or is about to return it. -/
def FoundNull (s : State T N) (t : T) : Prop :=
  (∃ curr, s.pc t = .popRead curr ∧ curr.ptr = none) ∨ s.pc t = .popRet none

/-- **A pop finds nothing by loading the `head_` of an empty stack**; after that it only runs to its
return. -/
theorem Internal.foundNull (moved : Internal s t s') (inv : Inv s) (found : FoundNull s' t) :
    s'.ghost.stack = [] ∨ FoundNull s t := by
  cases moved with
  | popLoad entered =>
    left
    rcases found with ⟨curr, there, null⟩ | there <;>
      simp only [State.load, Function.update_self, reduceCtorEq, Pc.popRead.injEq] at there
    have chain := inv.chain
    rw [there, null] at chain
    exact chain.eq_nil
  | popNull curr here null => exact .inr (.inl ⟨curr, here, null⟩)
  | popCas curr next here equal bound =>
    obtain ⟨node, rest, _, top, -⟩ := popCas_installs inv here equal bound
    rcases found with ⟨curr, there, null⟩ | there <;>
      simp [State.install, top] at there
  | _ =>
    rcases found with ⟨curr, there, null⟩ | there <;>
      simp [State.goto, State.load, State.install] at there

/-- The state right after the load a null pop decided on, and the rest of the run. -/
def SawEmpty (start : State T N) (t : T) (acts : List (T × Act T N)) (s : State T N) : Prop :=
  ∃ before middle after, acts = before ++ after ∧
    (machine T N).Exec TagFresh start before middle ∧ (machine T N).Exec TagFresh middle after s ∧
    middle.ghost.stack = [] ∧ FoundNull middle t ∧ ∀ act ∈ after, act.1 = t → act.2 = .run

theorem SawEmpty.snoc {start : State T N} {acts : List (T × Act T N)} {act : T × Act T N}
    (saw : SawEmpty start t acts s) (fresh : TagFresh s act) (next : step s act = some s')
    (mine : act.1 = t → act.2 = .run) : SawEmpty start t (acts ++ [act]) s' := by
  obtain ⟨before, middle, after, rfl, front, back, empty, null, onlyRun⟩ := saw
  refine ⟨before, middle, after ++ [act], by rw [List.append_assoc], front, back.snoc fresh next,
    empty, null, fun other member => ?_⟩
  rcases List.mem_append.mp member with old | new
  · exact onlyRun other old
  · rw [List.mem_singleton.mp new]
    exact mine

/-- **A pop that has found nothing loaded `head_` while the stack was empty.** -/
theorem sawEmpty {start : State T N} (initial : (machine T N).init start)
    {acts : List (T × Act T N)} (run : (machine T N).Exec TagFresh start acts s)
    (found : FoundNull s t) : SawEmpty start t acts s := by
  refine run.snoc_induction (P := fun acts s => FoundNull s t → SawEmpty start t acts s) ?_ ?_ found
  · intro null
    rcases null with ⟨curr, here, _⟩ | here <;> rw [initial.1.pc] at here <;> cases here
  · rintro acts s ⟨u, act⟩ s' front ih fresh next null
    have inv : Inv s := .reachable ⟨start, acts, initial, front⟩
    by_cases same : t = u
    · subst same
      have internal (moved : Internal s t s') (ran : act = .run ∨ act = .spurious) :
          SawEmpty start t (acts ++ [(t, act)]) s' := by
        rcases moved.foundNull inv null with empty | before
        · exact ⟨acts ++ [(t, act)], s', [], (List.append_nil _).symm, front.snoc fresh next,
            .nil _, empty, null, fun _ member => absurd member List.not_mem_nil⟩
        · refine (ih before).snoc fresh next fun _ => ran.resolve_right ?_
          rintro rfl
          rcases before with ⟨curr, here, _⟩ | here <;>
            simp [machine, step, spuriousStep, here] at next
      cases act with
      | run => exact internal (internal_of_run fresh next) (.inl rfl)
      | spurious => exact internal (internal_of_spurious next) (.inr rfl)
      | call op =>
        simp only [machine, step, Option.ite_none_right_eq_some, Option.some.injEq] at next
        obtain ⟨_, rfl⟩ := next
        cases op <;> simp [FoundNull, State.goto, Op.entry] at null
      | ret result =>
        simp only [machine, step, Option.ite_none_right_eq_some, Option.some.injEq] at next
        obtain ⟨_, rfl⟩ := next
        simp [FoundNull, State.goto] at null
      | write node link | give node other | create node | delete node =>
        simp only [machine, step, Option.ite_none_right_eq_some, Option.some.injEq] at next
        obtain ⟨⟨idle, _⟩, rfl⟩ := next
        rcases null with ⟨curr, here, _⟩ | here <;> cases idle.symm.trans here
    · have kept : FoundNull s t := by
        unfold FoundNull at null ⊢
        rwa [step_pc_other fresh same next] at null
      exact (ih kept).snoc fresh next fun same' => absurd same'.symm same

/-! ### The refinement -/

/-- What a run of `lf_stack` from `start` along `acts` to `s` guarantees. -/
structure Correct (start : State T N) (acts : List (T × Act T N)) (s : State T N) : Prop where
  /-- The chain from `head_.ptr` is finite and is the abstract stack. -/
  chain : Linked s.next s.head.ptr s.ghost.stack
  acyclic : s.ghost.stack.Nodup
  /-- The run's calls and returns are those of an atomic stack ending in the same stack. -/
  atomic : ∃ abstracted final,
    (Spec.machine T N).Exec Machine.anyStep ⟨[], fun _ => .idle⟩ abstracted final ∧
      abstracted.filterMap Spec.shown = acts.filterMap seen ∧ final.stack = s.ghost.stack
  /-- A successful pop installs the node now below the top and returns the top. -/
  pop : ∀ t curr next s', s.pc t = .popCas curr next → s.head = curr → TagFresh s (t, .run) →
    step s (t, .run) = some s' → ∃ node rest, s.ghost.stack = node :: rest ∧
      s'.pc t = .popRet (some node) ∧ s'.head.ptr = rest.head? ∧ s'.ghost.stack = rest
  /-- A successful push adds exactly its node on top. -/
  push : ∀ t ptr curr next s', s.pc t = .pushCas ptr curr next → s.head = curr →
    TagFresh s (t, .run) → step s (t, .run) = some s' →
      ptr ∉ s.ghost.stack ∧ s'.head.ptr = some ptr ∧ s'.ghost.stack = ptr :: s.ghost.stack
  /-- A successful detach takes the whole stack and leaves it empty. -/
  detach : ∀ t curr next s', s.pc t = .detachCas curr next → s.head = curr →
    TagFresh s (t, .run) → step s (t, .run) = some s' →
      s'.pc t = .detachRet s.ghost.stack.head? ∧ s'.ghost.taken t = s.ghost.stack ∧
        Linked s'.next s.ghost.stack.head? s.ghost.stack ∧ s'.head.ptr = none ∧
        s'.ghost.stack = []
  /-- A pop returns null only if the stack was empty at its load. -/
  empty : ∀ t, s.pc t = .popRet none → SawEmpty start t acts s

/-- **`lf_stack` refines an atomic LIFO stack**, over any number of threads, any schedule and any
spurious failures, under the tag assumption. -/
theorem lf_stack_refines (start : State T N) (initial : (machine T N).init start)
    (acts : List (T × Act T N)) (s : State T N)
    (run : (machine T N).Exec TagFresh start acts s) : Correct start acts s := by
  have inv : Inv s := .reachable ⟨start, acts, initial, run⟩
  refine ⟨inv.chain, inv.chain.nodup, ?_, ?_, ?_, ?_, fun t null => sawEmpty initial run (.inr null)⟩
  · obtain ⟨abstract, rfl, related⟩ := simulates.init start initial
    obtain ⟨abstracted, final, front, same, _, rfl⟩ := simulates.trace run _ related
    exact ⟨abstracted, _, front, same, rfl⟩
  · intro t curr next s' here equal fresh ran
    obtain ⟨node, rest, split, top, -, below, -⟩ :=
      popCas_installs inv here equal (fresh rfl (by rw [here]; trivial))
    simp only [step, runStep, here, equal, if_true, Option.some.injEq] at ran
    subst ran
    refine ⟨node, rest, split, ?_, below, ?_⟩
    · rw [← top]
      exact Function.update_self ..
    · show s.ghost.stack.tail = rest
      rw [split]
      rfl
  · intro t ptr curr next s' here equal fresh ran
    obtain ⟨rfl, outside, -⟩ := pushCas_installs inv here equal
    simp only [step, runStep, here, equal, if_true, Option.some.injEq] at ran
    subst ran
    exact ⟨outside, rfl, rfl⟩
  · intro t curr next s' here equal fresh ran
    have shape := detachCas_installs inv here
    simp only [step, runStep, here, equal, if_true, Option.some.injEq] at ran
    subst ran
    have top : curr.ptr = s.ghost.stack.head? := by rw [← equal]; exact inv.chain.head_eq
    refine ⟨?_, Function.update_self .., ?_, by rw [shape]; rfl, rfl⟩
    · rw [← top]
      exact Function.update_self ..
    · rw [← top, ← equal]
      exact inv.chain

/-- A fresh stack on which the first thread owns node 7. -/
def demoStart : State (Fin 2) Nat where
  head := ⟨0, none⟩
  next _ := none
  pc _ := .idle
  ghost := ⟨[], fun _ => .client 0, 0, fun _ => 0, fun _ => []⟩

/-- The second thread pops the first one's node, after a spurious failure. -/
def demoActs : List (Fin 2 × Act (Fin 2) Nat) :=
  [(0, .call (.push 7)), (0, .run), (0, .run), (0, .run), (1, .call .pop), (1, .run), (1, .run),
    (1, .spurious), (1, .run), (1, .run)]

theorem lf_stack_refines_push_pop :
    ∃ s, (machine (Fin 2) Nat).Exec TagFresh demoStart demoActs s ∧ Correct demoStart demoActs s ∧
      s.pc 1 = .popRet (some 7) := by
  have finished : ((machine (Fin 2) Nat).runFrom TagFresh demoStart demoActs).map (fun s => s.pc 1)
      = some (.popRet (some 7)) := by decide
  obtain ⟨s, found, result⟩ := Option.map_eq_some_iff.mp finished
  have run : (machine (Fin 2) Nat).Exec TagFresh demoStart demoActs s := Machine.exec_of_runFrom found
  refine ⟨s, run, lf_stack_refines demoStart ?_ demoActs s run, result⟩
  exact ⟨⟨rfl, fun _ => rfl, rfl, fun _ => by simp [demoStart], rfl⟩, rfl⟩

end NpAlloc.LfStack
