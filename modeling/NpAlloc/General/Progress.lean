/-
**Amortised step counts of machines whose steps are taken by threads.**

A potential pays for the work of a run: every step may spend what the potential holds and what the step
itself brings in. Here the potential is the sum over a finite set of threads of what each has still to
do, its rank. A step changes the rank of its own thread, and may raise the rank of every other one, when
it invalidates what they have read.

* `trail` — the steps of a run, each with the state it is taken in;
* `Exec.spends` — a potential bounds the work along a run;
* **`Exec.amortized`** — the rule for ranks.
-/

import NpAlloc.General.Machine
import Mathlib.Algebra.BigOperators.Group.Finset.Basic
import Mathlib.Algebra.Order.BigOperators.Group.Finset
import Mathlib.Algebra.GroupWithZero.Nat

namespace NpAlloc.Machine

variable {σ α T : Type*} {M : Machine σ α} {ok : σ → α → Prop}

/-- The steps of a schedule, each with the state it is taken in. -/
def trail (M : Machine σ α) : σ → List α → List (σ × α) := M.along fun s act _ => (s, act)

theorem Exec.trail_snd {s last : σ} {acts : List α} (run : M.Exec ok s acts last) :
    (M.trail s acts).map Prod.snd = acts := by
  induction run with
  | nil => rfl
  | cons _ next _ ih =>
    unfold trail at ih ⊢
    rw [along_cons next, List.map_cons, ih]

/-- What is counted by the action alone. -/
theorem Exec.countP_trail {s last : σ} {acts : List α} (run : M.Exec ok s acts last) (p : α → Bool) :
    (M.trail s acts).countP (fun step => p step.2) = acts.countP p := by
  have mapped := congrArg (List.countP p) run.trail_snd
  rwa [List.countP_map] at mapped

/-- **A potential bounds the work along a run.** -/
theorem Exec.spends (Φ : σ → Nat) (work income : σ × α → Nat) (P : α → Prop)
    (step : ∀ s act s', P act → ok s act → M.step s act = some s' →
      Φ s' + work (s, act) ≤ Φ s + income (s, act)) {s last : σ} {acts : List α}
    (run : M.Exec ok s acts last) (all : ∀ act ∈ acts, P act) :
    Φ last + ((M.trail s acts).map work).sum ≤ Φ s + ((M.trail s acts).map income).sum := by
  induction run with
  | nil => exact le_rfl
  | @cons s middle last act acts admitted next rest ih =>
    have first := step s act middle (all act List.mem_cons_self) admitted next
    have others := ih fun other member => all other (.tail _ member)
    have split : M.trail s (act :: acts) = (s, act) :: M.trail middle acts := along_cons next acts
    rw [split]
    simp only [List.map_cons, List.sum_cons]
    omega

/-! ### Prices -/

/-- What happens once for each step of a kind. -/
theorem sum_toNat {β : Type*} (p : β → Bool) (steps : List β) :
    (steps.map fun step => (p step).toNat).sum = steps.countP p := by
  induction steps with
  | nil => rfl
  | cons step steps ih =>
    rw [List.map_cons, List.sum_cons, ih, List.countP_cons]
    cases p step <;> simp [Nat.add_comm]

/-- A price for each step of a kind. -/
theorem sum_price {β : Type*} (c : Nat) (p : β → Bool) (steps : List β) :
    (steps.map fun step => c * (p step).toNat).sum = c * steps.countP p := by
  induction steps with
  | nil => rfl
  | cons step steps ih =>
    rw [List.map_cons, List.sum_cons, ih, List.countP_cons]
    cases p step
    · simp
    · simp only [Bool.toNat_true, if_true, Nat.mul_add, Nat.mul_one]
      omega

/-- The same price for every step. -/
theorem sum_const {β : Type*} (c : Nat) (steps : List β) :
    (steps.map fun _ => c).sum = c * steps.length := by
  induction steps with
  | nil => rfl
  | cons step steps ih =>
    rw [List.map_cons, List.sum_cons, ih, List.length_cons, Nat.mul_add]
    omega

/-! ### Ranks -/

/-- The ranks of a finite set of threads when one of them moves and the others are pushed back. -/
theorem sum_rank_le [DecidableEq T] {U : Finset T} {before after : T → Nat} {t : T}
    {work income rise : Nat} (member : t ∈ U)
    (own : after t + work + rise * (U.card - 1) ≤ before t + income)
    (others : ∀ u, u ≠ t → after u ≤ before u + rise) :
    ∑ u ∈ U, after u + work ≤ ∑ u ∈ U, before u + income := by
  have rest : ∑ u ∈ U.erase t, after u ≤ ∑ u ∈ U.erase t, before u + rise * (U.card - 1) := by
    calc ∑ u ∈ U.erase t, after u ≤ ∑ u ∈ U.erase t, (before u + rise) :=
          Finset.sum_le_sum fun u other => others u (Finset.ne_of_mem_erase other)
      _ = ∑ u ∈ U.erase t, before u + rise * (U.card - 1) := by
          rw [Finset.sum_add_distrib, Finset.sum_const_nat fun _ _ => rfl,
            Finset.card_erase_of_mem member, Nat.mul_comm]
  have last := Finset.add_sum_erase U after member
  have first := Finset.add_sum_erase U before member
  omega

/-- **Ranks that pay for each other.** A step of a thread pays for its own work and for what it costs
the others; then the work along a run of the threads of `U` is bounded by their ranks at its start and
by what the steps bring in. -/
theorem Exec.amortized [DecidableEq T] (U : Finset T) (who : α → T) (rank : σ → T → Nat)
    (work income : σ × α → Nat) (P : α → Prop)
    (step : ∀ s act s', P act → ok s act → M.step s act = some s' → ∃ rise,
      rank s' (who act) + work (s, act) + rise * (U.card - 1) ≤ rank s (who act) + income (s, act) ∧
      ∀ u, u ≠ who act → rank s' u ≤ rank s u + rise)
    {s last : σ} {acts : List α} (run : M.Exec ok s acts last)
    (all : ∀ act ∈ acts, who act ∈ U ∧ P act) :
    ∑ u ∈ U, rank last u + ((M.trail s acts).map work).sum
      ≤ ∑ u ∈ U, rank s u + ((M.trail s acts).map income).sum := by
  refine Exec.spends (fun s => ∑ u ∈ U, rank s u) work income (fun act => who act ∈ U ∧ P act) ?_
    run all
  intro s act s' inside admitted next
  obtain ⟨rise, own, others⟩ := step s act s' inside.2 admitted next
  exact sum_rank_le inside.1 own others

end NpAlloc.Machine
