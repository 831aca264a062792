/-
**Labelled machines: runs, invariants, and trace inclusion by forward simulation.**

* `Machine σ α` — a set of initial states and a guarded step function: `step s a` is `some s'` when
  action `a` is enabled in `s`. Every choice of a scheduler or of the environment is an action, so
  one function serves both to prove (`Exec`) and to evaluate a fixed schedule (`runFrom`).
* `Exec M ok s acts s'` — a run from `s` to `s'`, every step of which meets the side condition `ok`
  of the state it is taken in. `ok` is where an assumption on the environment lives.
* **`Machine.invariant`** — what holds initially and is preserved by every admitted step holds in
  every reachable state; `Exec.preserves` is the same along one run.
* **`Machine.Simulates.trace`** — a forward simulation carries every run of the concrete machine to
  a run of the abstract one with the same visible actions.
-/

import Mathlib.Data.List.Basic
import Mathlib.Logic.Relation

namespace NpAlloc

/-- A machine: its initial states and its guarded step function. -/
structure Machine (σ α : Type*) where
  init : σ → Prop
  step : σ → α → Option σ

namespace Machine

variable {σ α τ β ω : Type*}

/-- The side condition that admits every step. -/
def anyStep : σ → α → Prop := fun _ _ => True

instance (s : σ) (act : α) : Decidable (anyStep s act) := .isTrue trivial

/-- **A run** from a state along a list of actions, each step meeting the side condition. -/
inductive Exec (M : Machine σ α) (ok : σ → α → Prop) : σ → List α → σ → Prop
  | nil (s : σ) : Exec M ok s [] s
  | cons {s middle last : σ} {act : α} {acts : List α} (admitted : ok s act)
      (step : M.step s act = some middle) (rest : Exec M ok middle acts last) :
      Exec M ok s (act :: acts) last

/-- A state some run from an initial state ends in. -/
def Reachable (M : Machine σ α) (ok : σ → α → Prop) (s : σ) : Prop :=
  ∃ start acts, M.init start ∧ M.Exec ok start acts s

variable {M : Machine σ α} {ok : σ → α → Prop}

namespace Exec

theorem single {s s' : σ} {act : α} (admitted : ok s act) (step : M.step s act = some s') :
    M.Exec ok s [act] s' :=
  .cons admitted step (.nil s')

theorem append {s middle last : σ} {first second : List α} (run : M.Exec ok s first middle)
    (rest : M.Exec ok middle second last) : M.Exec ok s (first ++ second) last := by
  induction run with
  | nil => exact rest
  | cons admitted step _ ih => exact .cons admitted step (ih rest)

/-- A run extended by one step at its end. -/
theorem snoc {s middle last : σ} {acts : List α} {act : α} (run : M.Exec ok s acts middle)
    (admitted : ok middle act) (step : M.step middle act = some last) :
    M.Exec ok s (acts ++ [act]) last :=
  run.append (single admitted step)

/-- **Induction from the front of a run**: the last step is the one peeled off. -/
theorem snoc_induction {s : σ} {P : List α → σ → Prop} (base : P [] s)
    (next : ∀ acts middle act last, M.Exec ok s acts middle → P acts middle → ok middle act →
      M.step middle act = some last → P (acts ++ [act]) last)
    {acts : List α} {last : σ} (run : M.Exec ok s acts last) : P acts last := by
  have general : ∀ {mid last : σ} {post : List α}, M.Exec ok mid post last →
      ∀ pre, M.Exec ok s pre mid → P pre mid → P (pre ++ post) last := by
    clear run
    intro mid last post back
    induction back with
    | nil => exact fun pre _ holds => by rwa [List.append_nil]
    | @cons mid _ _ act _ admitted step _ ih =>
      intro pre front holds
      rw [List.append_cons]
      exact ih (pre ++ [act]) (front.snoc admitted step) (next pre mid act _ front holds admitted step)
  exact general run [] (.nil s) base

/-- A run under a side condition is a run under every one that is weaker along its actions. -/
theorem mono_of_mem {ok' : σ → α → Prop} {s s' : σ} {acts : List α}
    (weaker : ∀ s, ∀ act ∈ acts, ok s act → ok' s act) (run : M.Exec ok s acts s') :
    M.Exec ok' s acts s' := by
  induction run with
  | nil => exact .nil _
  | cons admitted step _ ih =>
    exact .cons (weaker _ _ List.mem_cons_self admitted) step
      (ih fun s act member => weaker s act (.tail _ member))

theorem mono {ok' : σ → α → Prop} (weaker : ∀ s act, ok s act → ok' s act) {s s' : σ}
    {acts : List α} (run : M.Exec ok s acts s') : M.Exec ok' s acts s' :=
  run.mono_of_mem fun s act _ => weaker s act

/-- **What every admitted step preserves, every run preserves.** -/
theorem preserves {I : σ → Prop}
    (step : ∀ s act s', I s → ok s act → M.step s act = some s' → I s') {s s' : σ} {acts : List α}
    (run : M.Exec ok s acts s') (holds : I s) : I s' := by
  induction run with
  | nil => exact holds
  | cons admitted next _ ih => exact ih (step _ _ _ holds admitted next)

/-- A run is a run under every side condition that follows where an invariant holds. -/
theorem mono_of_inv {ok' : σ → α → Prop} {I : σ → Prop}
    (step : ∀ s act s', I s → ok s act → M.step s act = some s' → I s')
    (weaker : ∀ s act, I s → ok s act → ok' s act) {s s' : σ} {acts : List α} (holds : I s)
    (run : M.Exec ok s acts s') : M.Exec ok' s acts s' := by
  induction run with
  | nil => exact .nil _
  | cons admitted next _ ih =>
    exact .cons (weaker _ _ holds admitted) next (ih (step _ _ _ holds admitted next))

/-- **Side conditions that say the same wherever an invariant holds** admit the same runs. -/
theorem congr {ok' : σ → α → Prop} {I : σ → Prop}
    (step : ∀ s act s', I s → ok s act → M.step s act = some s' → I s')
    (same : ∀ s act, I s → (ok s act ↔ ok' s act)) {s s' : σ} {acts : List α} (holds : I s) :
    M.Exec ok s acts s' ↔ M.Exec ok' s acts s' := by
  constructor
  · exact mono_of_inv step (fun s act inside => (same s act inside).mp) holds
  · refine mono_of_inv (fun s act s' inside admitted => step s act s' inside ?_)
      (fun s act inside => (same s act inside).mpr) holds
    exact (same s act inside).mpr admitted

/-- **Side conditions that say the same of every step that is taken** admit the same runs. -/
theorem congr_step {ok' : σ → α → Prop}
    (same : ∀ s act s', M.step s act = some s' → (ok s act ↔ ok' s act)) {s s' : σ} {acts : List α} :
    M.Exec ok s acts s' ↔ M.Exec ok' s acts s' := by
  constructor
  · intro run
    induction run with
    | nil => exact .nil _
    | cons admitted next _ ih => exact .cons ((same _ _ _ next).mp admitted) next ih
  · intro run
    induction run with
    | nil => exact .nil _
    | cons admitted next _ ih => exact .cons ((same _ _ _ next).mpr admitted) next ih

/-- **A machine without choice** stops in one state. -/
theorem stop_unique {M : Machine σ Unit} {ok : σ → Unit → Prop} {s last last' : σ} {acts acts' : List Unit}
    (run : M.Exec ok s acts last) (stops : M.step last () = none) (run' : M.Exec ok s acts' last')
    (stops' : M.step last' () = none) : last = last' := by
  induction run generalizing acts' with
  | nil =>
    cases run' with
    | nil => rfl
    | cons _ next _ => exact absurd (stops.symm.trans next) (by simp)
  | cons _ next _ ih =>
    cases run' with
    | nil => exact absurd (stops'.symm.trans next) (by simp)
    | cons _ again rest =>
      cases next.symm.trans again
      exact ih stops rest

end Exec

namespace Reachable

theorem init {s : σ} (start : M.init s) : M.Reachable ok s :=
  ⟨s, [], start, .nil s⟩

theorem step {s s' : σ} {act : α} (reached : M.Reachable ok s) (admitted : ok s act)
    (next : M.step s act = some s') : M.Reachable ok s' := by
  obtain ⟨start, acts, initial, run⟩ := reached
  exact ⟨start, acts ++ [act], initial, run.snoc admitted next⟩

theorem exec {s s' : σ} {acts : List α} (reached : M.Reachable ok s)
    (run : M.Exec ok s acts s') : M.Reachable ok s' := by
  obtain ⟨start, before, initial, front⟩ := reached
  exact ⟨start, before ++ acts, initial, front.append run⟩

end Reachable

/-- **The invariant rule.** -/
theorem invariant {I : σ → Prop} (base : ∀ s, M.init s → I s)
    (step : ∀ s act s', I s → ok s act → M.step s act = some s' → I s') {s : σ}
    (reached : M.Reachable ok s) : I s := by
  obtain ⟨start, acts, initial, run⟩ := reached
  exact run.preserves step (base start initial)

/-! ### Evaluating a fixed schedule -/

/-- The state a list of actions leads to, if all of them are admitted and enabled. -/
def runFrom (M : Machine σ α) (ok : σ → α → Prop) [∀ s act, Decidable (ok s act)] (s : σ) :
    List α → Option σ
  | [] => some s
  | act :: acts =>
    if ok s act then (M.step s act).bind fun middle => runFrom M ok middle acts else none

theorem exec_of_runFrom [∀ s act, Decidable (ok s act)] {s s' : σ} {acts : List α}
    (found : M.runFrom ok s acts = some s') : M.Exec ok s acts s' := by
  induction acts generalizing s with
  | nil =>
    cases found
    exact .nil _
  | cons act acts ih =>
    simp only [runFrom, Option.ite_none_right_eq_some, Option.bind_eq_some_iff] at found
    obtain ⟨admitted, middle, step, rest⟩ := found
    exact .cons admitted step (ih rest)

theorem runFrom_append [∀ s act, Decidable (ok s act)] (s : σ) (first second : List α) :
    M.runFrom ok s (first ++ second)
      = (M.runFrom ok s first).bind fun middle => M.runFrom ok middle second := by
  induction first generalizing s with
  | nil => rfl
  | cons act first ih =>
    simp only [List.cons_append, runFrom]
    split
    · cases M.step s act with
      | none => rfl
      | some middle => exact ih middle
    · rfl

/-! ### What a run shows -/

/-- What is seen of each step along a schedule. -/
def along {γ : Type*} (M : Machine σ α) (see : σ → α → σ → γ) : σ → List α → List γ
  | _, [] => []
  | s, act :: acts =>
    match M.step s act with
    | none => []
    | some s' => see s act s' :: along M see s' acts

variable {γ : Type*} {see : σ → α → σ → γ}

@[simp] theorem along_nil (s : σ) : M.along see s [] = [] := rfl

theorem along_cons {s s' : σ} {act : α} (next : M.step s act = some s') (acts : List α) :
    M.along see s (act :: acts) = see s act s' :: M.along see s' acts := by
  simp only [along, next]

/-- The rest of a run is seen from where the first part ends. -/
theorem Exec.along_append {s middle : σ} {first : List α} (run : M.Exec ok s first middle)
    (second : List α) :
    M.along see s (first ++ second) = M.along see s first ++ M.along see middle second := by
  induction run with
  | nil => rfl
  | cons _ step _ ih => rw [List.cons_append, along_cons step, along_cons step, ih, List.cons_append]

theorem Exec.along_snoc {s middle last : σ} {acts : List α} {act : α}
    (run : M.Exec ok s acts middle) (next : M.step middle act = some last) :
    M.along see s (acts ++ [act]) = M.along see s acts ++ [see middle act last] := by
  rw [run.along_append, along_cons next, along_nil]

/-- What is seen along a run is seen at one of its steps. -/
theorem Exec.mem_along {s last : σ} {acts : List α} (run : M.Exec ok s acts last) {x : γ}
    (member : x ∈ M.along see s acts) : ∃ before middle act s', M.Exec ok s before middle ∧
      ok middle act ∧ M.step middle act = some s' ∧ act ∈ acts ∧ see middle act s' = x := by
  induction run with
  | nil => exact absurd member List.not_mem_nil
  | @cons s middle _ act acts admitted next _ ih =>
    rw [along_cons next] at member
    rcases List.mem_cons.mp member with rfl | later
    · exact ⟨[], s, act, middle, .nil s, admitted, next, List.mem_cons_self, rfl⟩
    · obtain ⟨before, there, other, s', front, admitted', next', member', seen⟩ := ih later
      exact ⟨act :: before, there, other, s', .cons admitted next front, admitted', next',
        .tail _ member', seen⟩

/-! ### Forward simulation -/

/-- **A forward simulation** of `C`, under its side condition, by `A`: every concrete step is
matched by a run of `A` with the same visible actions. -/
structure Simulates (C : Machine σ α) (ok : σ → α → Prop) (A : Machine τ β)
    (seen : α → Option ω) (shown : β → Option ω) (R : σ → τ → Prop) : Prop where
  init : ∀ s, C.init s → ∃ t, A.init t ∧ R s t
  step : ∀ s act s' t, R s t → ok s act → C.step s act = some s' →
    ∃ acts t', A.Exec anyStep t acts t' ∧ acts.filterMap shown = (seen act).toList ∧ R s' t'

/-- **Trace inclusion.** -/
theorem Simulates.trace {C : Machine σ α} {A : Machine τ β} {seen : α → Option ω}
    {shown : β → Option ω} {R : σ → τ → Prop} (sim : Simulates C ok A seen shown R) {s s' : σ}
    {acts : List α} (run : C.Exec ok s acts s') : ∀ t, R s t →
      ∃ abstracted t', A.Exec anyStep t abstracted t' ∧
        abstracted.filterMap shown = acts.filterMap seen ∧ R s' t' := by
  induction run with
  | nil s => exact fun t related => ⟨[], t, .nil t, rfl, related⟩
  | @cons s _ _ act _ admitted step _ ih =>
    intro t related
    obtain ⟨first, middle, front, same, related'⟩ := sim.step _ _ _ t related admitted step
    obtain ⟨second, t', back, same', related''⟩ := ih middle related'
    refine ⟨first ++ second, t', front.append back, ?_, related''⟩
    rw [List.filterMap_append, same, same', List.filterMap_cons]
    cases seen act <;> rfl

end Machine

end NpAlloc
