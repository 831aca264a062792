/-
**Runs whose steps may be taken in another order.**

* `Machine.Carries` — two related states take the same steps, and stay related;
* `Machine.Commutes` — two steps, each possible first, lead to related states in either order;
* `Machine.Exchange` — a run in which two such steps, one after the other, change places;
* **`Machine.Exec.reorder`** — after any number of exchanges there is still a run, and it ends in a state
  related to where the first one ended.
-/

import NpAlloc.General.Machine

namespace NpAlloc.Machine

variable {σ α : Type*} {M : Machine σ α} {ok : σ → α → Prop} {I : σ → Prop} {R : σ → σ → Prop}
  {free : α → α → Prop} {s s' t : σ} {acts acts' : List α}

/-- **A relation carries over every step** between states that meet the invariant. -/
def Carries (M : Machine σ α) (ok : σ → α → Prop) (I : σ → Prop) (R : σ → σ → Prop) : Prop :=
  ∀ s t act s', I s → I t → R s t → ok s act → M.step s act = some s' →
    ok t act ∧ ∃ t', M.step t act = some t' ∧ R s' t'

/-- **Steps commute**: when each may come first, their order makes no difference but for the relation. -/
def Commutes (M : Machine σ α) (ok : σ → α → Prop) (I : σ → Prop) (R : σ → σ → Prop)
    (free : α → α → Prop) : Prop :=
  ∀ s a b s₁ s₂ s', I s → free a b → ok s a → M.step s a = some s₁ → ok s₁ b → M.step s₁ b = some s' →
    ok s b → M.step s b = some s₂ → ok s₂ a ∧ ∃ t, M.step s₂ a = some t ∧ R s' t

/-- **Two neighbours of a run change places**: the second could have been taken before the first. -/
inductive Exchange (M : Machine σ α) (ok : σ → α → Prop) (free : α → α → Prop) (s : σ) :
    List α → List α → Prop
  | swap {before after : List α} {a b : α} {middle first : σ} (front : M.Exec ok s before middle)
      (apart : free a b) (admitted : ok middle b) (possible : M.step middle b = some first) :
      Exchange M ok free s (before ++ a :: b :: after) (before ++ b :: a :: after)

/-- A run passes through where its first part ends. -/
theorem Exec.rest {first second : List α} {middle last : σ} (front : M.Exec ok s first middle)
    (run : M.Exec ok s (first ++ second) last) : M.Exec ok middle second last := by
  induction front with
  | nil => exact run
  | cons _ step _ ih =>
    cases run with
    | cons _ step' rest =>
      obtain rfl := Option.some.inj (step.symm.trans step')
      exact ih rest

/-- **A run carries over to a related state.** -/
theorem Exec.carry (carries : Carries M ok I R)
    (keeps : ∀ s act s', I s → ok s act → M.step s act = some s' → I s')
    (run : M.Exec ok s acts s') (here : I s) (there : I t) (related : R s t) :
    ∃ t', M.Exec ok t acts t' ∧ R s' t' := by
  induction run generalizing t with
  | nil => exact ⟨t, .nil t, related⟩
  | cons admitted step _ ih =>
    obtain ⟨admitted', middle, step', related'⟩ := carries _ _ _ _ here there related admitted step
    obtain ⟨t', rest, final⟩ := ih (keeps _ _ _ here admitted step) (keeps _ _ _ there admitted' step')
      related'
    exact ⟨t', .cons admitted' step' rest, final⟩

/-- **One exchange.** -/
theorem Exec.exchange (carries : Carries M ok I R) (commutes : Commutes M ok I R free)
    (keeps : ∀ s act s', I s → ok s act → M.step s act = some s' → I s')
    (exchanged : Exchange M ok free s acts acts') (run : M.Exec ok s acts s') (here : I s) :
    ∃ t, M.Exec ok s acts' t ∧ R s' t := by
  cases exchanged with
  | @swap before after a b middle first front apart admitted possible =>
    have reached := front.preserves keeps here
    cases front.rest run with
    | @cons _ s₁ _ _ _ admitted_a step_a rest =>
      cases rest with
      | @cons _ s₁₂ _ _ _ admitted_b step_b rest =>
        have left := keeps _ _ _ (keeps _ _ _ reached admitted_a step_a) admitted_b step_b
        obtain ⟨admitted', s₂₁, step', related⟩ := commutes _ _ _ _ _ _ reached apart admitted_a step_a
          admitted_b step_b admitted possible
        have right := keeps _ _ _ (keeps _ _ _ reached admitted possible) admitted' step'
        obtain ⟨t, after', final⟩ := rest.carry carries keeps left right related
        exact ⟨t, front.append (.cons admitted possible (.cons admitted' step' after')), final⟩

/-- **Any number of exchanges.** -/
theorem Exec.reorder (carries : Carries M ok I R) (commutes : Commutes M ok I R free)
    (keeps : ∀ s act s', I s → ok s act → M.step s act = some s' → I s')
    (refl : ∀ s, R s s) (trans : ∀ s t r, R s t → R t r → R s r)
    (exchanged : Relation.ReflTransGen (Exchange M ok free s) acts acts') (run : M.Exec ok s acts s')
    (here : I s) : ∃ t, M.Exec ok s acts' t ∧ R s' t := by
  induction exchanged with
  | refl => exact ⟨s', run, refl s'⟩
  | tail _ last ih =>
    obtain ⟨middle, run', related⟩ := ih
    obtain ⟨t, run'', related'⟩ := run'.exchange carries commutes keeps last here
    exact ⟨t, run'', trans _ _ _ related related'⟩

end NpAlloc.Machine
