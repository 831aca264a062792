/-
**Calls of `lf_stack` that nobody disturbs, and a push that is overtaken.**

* `push_alone`, `pop_alone`: a thread that runs alone comes through a call in three atomic steps;
* `push_overtaken`: a push whose `head_` has changed since its load goes back to its load;
* `exec_client`: a run of `lf_stack` by a thread outside `for_each` is a run beside `for_each`.
-/

import NpAlloc.LfStack.ForEach
import NpAlloc.LfStack.Step

set_option linter.unusedSectionVars false

namespace NpAlloc.LfStack

variable {T N : Type} [DecidableEq T] [DecidableEq N] {s : State T N} {t : T}

/-- The acts of a call of three atomic steps. -/
def threeSteps (op : Op N) (result : Option N) : List (Act T N) :=
  [.call op, .run, .run, .run, .ret result]

/-- A call that is in step at every atomic step of it. -/
theorem threeSteps_exec {s₁ s₂ s₃ s₄ s₅ : State T N} {op : Op N} {result : Option N}
    (one : step s (t, .call op) = some s₁) (two : step s₁ (t, .run) = some s₂)
    (three : step s₂ (t, .run) = some s₃) (four : step s₃ (t, .run) = some s₄)
    (five : step s₄ (t, .ret result) = some s₅) (fresh₁ : Synced s₁ t) (fresh₂ : Synced s₂ t)
    (fresh₃ : Synced s₃ t) :
    (machine T N).Exec TagFresh s ((threeSteps op result).map (t, ·)) s₅ := by
  have calls : TagFresh s (t, .call op) := tagFresh_of_ne (by simp)
  have returns : TagFresh s₄ (t, .ret result) := tagFresh_of_ne (by simp)
  exact .cons calls one (.cons fresh₁.tagFresh two (.cons fresh₂.tagFresh three
    (.cons fresh₃.tagFresh four (.cons returns five (.nil _)))))

/-- **A push in no company.** -/
theorem push_alone {ptr : N} (idle : s.pc t = .idle) (owner : s.ghost.owner ptr = .client t) :
    ∃ s', (machine T N).Exec TagFresh s ((threeSteps (.push ptr) none).map (t, ·)) s' ∧
      s'.head.ptr = some ptr ∧ s'.next ptr = s.head.ptr ∧ s'.pc t = .idle ∧
      s'.ghost.casCount = s.ghost.casCount + 1 ∧
      ∀ u, u ≠ t → s'.pc u = s.pc u ∧ s'.ghost.stamp u = s.ghost.stamp u := by
  let s₁ := s.goto t (.pushLoad ptr)
  let s₂ := s₁.load t (.pushWrite ptr s.head)
  let s₃ := (s₂.link ptr s.head.ptr).goto t (.pushCas ptr s.head ⟨s.head.aba + 1, some ptr⟩)
  let s₄ := s₃.install t ⟨s.head.aba + 1, some ptr⟩ .pushRet (ptr :: s.ghost.stack)
        (Function.update s.ghost.owner ptr .stack) (s.ghost.taken t)
  have synced : Synced s₃ t := fun _ => by simp [s₃, s₂, s₁, State.goto, State.link, State.load]
  have one : step s (t, .call (.push ptr)) = some s₁ := by
    simp [step, idle, Op.Allowed, owner, s₁, Op.entry]
  have two : step s₁ (t, .run) = some s₂ := by simp [step, runStep, s₁, s₂, State.goto]
  have three : step s₂ (t, .run) = some s₃ := by
    simp [step, runStep, s₂, s₃, State.load]
  have four : step s₃ (t, .run) = some s₄ := by
    simp [step, runStep, s₁, s₂, s₃, s₄, State.goto, State.link, State.load]
  have five : step s₄ (t, .ret none) = some (s₄.goto t .idle) := by
    simp [step, s₄, State.install, Pc.result]
  have fresh₁ : Synced s₁ t := fun loaded => by simp [s₁, State.goto, Pc.loaded] at loaded
  have fresh₂ : Synced s₂ t := fun _ => by simp [s₂, s₁, State.load, State.goto]
  refine ⟨s₄.goto t .idle, threeSteps_exec one two three four five fresh₁ fresh₂ synced, rfl, ?_,
    Function.update_self .., rfl, fun u other => ?_⟩
  · exact Function.update_self ..
  · simp [s₄, s₃, s₂, s₁, State.goto, State.install, State.link, State.load, Function.update_of_ne other]

/-- **A pop in no company.** -/
theorem pop_alone {node : N} (idle : s.pc t = .idle) (top : s.head.ptr = some node) :
    ∃ s', (machine T N).Exec TagFresh s ((threeSteps .pop (some node)).map (t, ·)) s' ∧
      s'.head.ptr = s.next node ∧ s'.ghost.owner node = .client t ∧ s'.pc t = .idle ∧
      s'.ghost.casCount = s.ghost.casCount + 1 ∧
      ∀ u, u ≠ t → s'.pc u = s.pc u ∧ s'.ghost.stamp u = s.ghost.stamp u := by
  let s₁ := s.goto t .popLoad
  let s₂ := s₁.load t (.popRead s.head)
  let s₃ := s₂.goto t (.popCas s.head ⟨s.head.aba + 1, s.next node⟩)
  let s₄ := s₃.install t ⟨s.head.aba + 1, s.next node⟩ (.popRet s.head.ptr) s.ghost.stack.tail
        (takeAll s.ghost.owner t s.head.ptr.toList) (s.ghost.taken t)
  have one : step s (t, .call .pop) = some s₁ := by simp [step, idle, Op.Allowed, s₁, Op.entry]
  have two : step s₁ (t, .run) = some s₂ := by simp [step, runStep, s₁, s₂, State.goto]
  have three : step s₂ (t, .run) = some s₃ := by
    simp [step, runStep, s₁, s₂, s₃, State.load, State.goto, top]
  have four : step s₃ (t, .run) = some s₄ := by
    simp [step, runStep, s₁, s₂, s₃, s₄, State.goto, State.load]
  have five : step s₄ (t, .ret (some node)) = some (s₄.goto t .idle) := by
    simp [step, s₄, State.install, Pc.result, top]
  have fresh₁ : Synced s₁ t := fun loaded => by simp [s₁, State.goto, Pc.loaded] at loaded
  have fresh₂ : Synced s₂ t := fun _ => by simp [s₂, s₁, State.load, State.goto]
  have fresh₃ : Synced s₃ t := fun _ => by simp [s₃, s₂, s₁, State.load, State.goto]
  refine ⟨s₄.goto t .idle, threeSteps_exec one two three four five fresh₁ fresh₂ fresh₃, rfl, ?_,
    Function.update_self .., rfl, fun u other => ?_⟩
  · exact mem_takeAll (by simp [top])
  · simp [s₄, s₃, s₂, s₁, State.goto, State.install, State.load, Function.update_of_ne other]

/-- **A push that is overtaken** goes back to its load. -/
theorem push_overtaken {ptr : N} {curr : Head N} (here : s.pc t = .pushWrite ptr curr)
    (overtaken : s.head ≠ curr) (recent : s.ghost.casCount ≤ s.ghost.stamp t + 1) :
    ∃ written s', step s (t, .run) = some written ∧ (written.pc t).result = none ∧
      written.pc t ≠ .pushRet ∧ TagFresh written (t, .run) ∧ step written (t, .run) = some s' ∧
      s'.pc t = .pushWrite ptr s.head ∧ s'.head = s.head ∧ s'.ghost.owner = s.ghost.owner ∧
      s'.ghost.casCount = s.ghost.casCount ∧ s'.ghost.stamp t = s.ghost.casCount ∧
      (∀ u, u ≠ t → s'.pc u = s.pc u) ∧ ∀ node, node ≠ ptr → s'.next node = s.next node := by
  refine ⟨(s.link ptr curr.ptr).goto t (.pushCas ptr curr ⟨curr.aba + 1, some ptr⟩),
    ((s.link ptr curr.ptr).goto t (.pushCas ptr curr ⟨curr.aba + 1, some ptr⟩)).load t
      (.pushWrite ptr s.head), ?_, ?_, ?_, fun _ _ => ?_, ?_, ?_⟩
  · simp [step, runStep, here]
  · simp [State.goto, Pc.result]
  · simp [State.goto]
  · show s.ghost.casCount < s.ghost.stamp t + 2 ^ 64
    omega
  · simp [step, runStep, State.goto, State.link, overtaken]
  · refine ⟨Function.update_self .., rfl, rfl, rfl, Function.update_self .., fun u other => ?_,
      fun node other => Function.update_of_ne other _ _⟩
    simp [State.load, State.goto, State.link, Function.update_of_ne other]

end NpAlloc.LfStack

namespace NpAlloc.LfStack.ForEach

variable {T N : Type} [DecidableEq T] [DecidableEq N] {s : State T N} {t : T}

/-- **A thread outside `for_each` runs as on the stack alone.** -/
theorem exec_client {acts : List (LfStack.Act T N)} {lf : LfStack.State T N} (out : s.walk t = .out)
    (plain : .call .detach ∉ acts)
    (run : (LfStack.machine T N).Exec TagFresh s.lf (acts.map fun act => (t, act)) lf) :
    (machine T N).Exec Fresh s (acts.map fun act => (t, .client act)) (s.inner lf) := by
  induction acts generalizing s with
  | nil =>
    cases run
    exact .nil s
  | cons act acts ih =>
    rw [List.map_cons] at run ⊢
    cases run with
    | @cons _ middle _ _ _ fresh next rest =>
      have inside : LfStack.step s.lf (t, act) = some middle := next
      have other : act ≠ .call .detach := fun same => plain (same ▸ List.mem_cons_self)
      have ran : (machine T N).step s (t, .client act) = some (s.inner middle) := by
        show step s (t, .client act) = _
        simp [step, out, other, inside]
      exact .cons fresh ran (ih (s := s.inner middle) out (fun member => plain (.tail _ member)) rest)

end NpAlloc.LfStack.ForEach
