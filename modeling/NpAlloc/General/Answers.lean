/-
**Acceptors whose answers are forced.**

An event of a server is what it was asked and what it answered. When the state says the answer, and
whether something more has to be supplied for it, then everything the server answered follows from what it
was asked and from the supplies, in their order.

* `Forced` — the state and the question say whether a supply is needed, and with it say the event;
* **`Forced.replay_eq`** — two lists of events that are accepted from one state, with the same questions
  and the same supplies, are the same.
-/

import NpAlloc.General.Heap

namespace NpAlloc

variable {τ ε ι κ : Type*} {accept : τ → ε → Option τ} {asked : ε → ι} {supply : ε → Option κ}

/-- **The events are forced by what is asked and what is supplied.** -/
structure Forced (accept : τ → ε → Option τ) (asked : ε → ι) (supply : ε → Option κ) : Prop where
  needs : ∀ {t t₁ t₂ : τ} {e e' : ε}, accept t e = some t₁ → accept t e' = some t₂ →
    asked e = asked e' → (supply e).isSome = (supply e').isSome
  event : ∀ {t t₁ t₂ : τ} {e e' : ε}, accept t e = some t₁ → accept t e' = some t₂ →
    asked e = asked e' → supply e = supply e' → e = e'

/-- **The same questions and supplies get the same answers.** -/
theorem Forced.replay_eq (forced : Forced accept asked supply) {t last last' : τ} {events events' : List ε}
    (accepted : replay accept t events = some last) (accepted' : replay accept t events' = some last')
    (same : events.map asked = events'.map asked)
    (supplied : events.filterMap supply = events'.filterMap supply) : events = events' := by
  induction events generalizing t events' with
  | nil =>
    cases events' with
    | nil => rfl
    | cons e' events' => cases same
  | cons e events ih =>
    cases events' with
    | nil => cases same
    | cons e' events' =>
      obtain ⟨middle, taken, rest⟩ := Option.bind_eq_some_iff.mp accepted
      obtain ⟨middle', taken', rest'⟩ := Option.bind_eq_some_iff.mp accepted'
      obtain ⟨question, questions⟩ := List.cons.inj same
      have needs := forced.needs taken taken' question
      -- both events take the next supply, or none of them does
      have first : supply e = supply e' ∧ events.filterMap supply = events'.filterMap supply := by
        cases here : supply e with
        | none =>
          rw [here] at needs
          have there := Option.isSome_eq_false_iff.mp needs.symm
          rw [Option.isNone_iff_eq_none] at there
          rw [List.filterMap_cons_none here, List.filterMap_cons_none there] at supplied
          exact ⟨there.symm, supplied⟩
        | some x =>
          rw [here] at needs
          obtain ⟨y, there⟩ := Option.isSome_iff_exists.mp needs.symm
          rw [List.filterMap_cons_some here, List.filterMap_cons_some there] at supplied
          obtain ⟨rfl, rest⟩ := List.cons.inj supplied
          exact ⟨there.symm, rest⟩
      obtain rfl := forced.event taken taken' question first.1
      obtain rfl := Option.some.inj (taken.symm.trans taken')
      rw [ih rest rest' questions first.2]

end NpAlloc
