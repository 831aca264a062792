/-
**A heap of separate allocations: what a memory allocator is for.**

A cell is an allocation with a label and an array of values of its own. No operation on one cell can
reach another, because nothing but the name of a cell says where it is: that a memory behaves like this
is what has to be shown of an allocator.

* `Heap.step` — allocation of a cell apart from all others, release, and a write inside a cell;
* `replay` — an acceptor on a list of events; `Exec.replays` — a run whose events it accepts, when it
  follows every step of the machine;
* **`Heap.replay_separate`** — the cells of every heap reached are apart from each other.
-/

import NpAlloc.General.Machine
import Mathlib.Data.List.Basic
import Mathlib.Data.List.ReduceOption

namespace NpAlloc

/-! ### Acceptors -/

/-- The state an acceptor is in after a list of events, if it accepts them. -/
def replay {τ ε : Type*} (accept : τ → ε → Option τ) : τ → List ε → Option τ
  | t, [] => some t
  | t, event :: events => (accept t event).bind fun t' => replay accept t' events

/-- **Several events at a time.** -/
theorem replay_flatten {τ ε : Type*} (accept : τ → ε → Option τ) (t : τ) (groups : List (List ε)) :
    replay (replay accept) t groups = replay accept t groups.flatten := by
  have append : ∀ (first second : List ε) (t : τ), replay accept t (first ++ second)
      = (replay accept t first).bind fun t' => replay accept t' second := by
    intro first
    induction first with
    | nil => exact fun second t => rfl
    | cons event first ih =>
      intro second t
      show (accept t event).bind _ = ((accept t event).bind _).bind _
      rw [Option.bind_assoc]
      exact congrArg _ (funext fun t' => ih second t')
  induction groups generalizing t with
  | nil => rfl
  | cons group groups ih =>
    rw [List.flatten_cons, append]
    exact congrArg _ (funext fun t' => ih t')

namespace Machine

variable {σ α τ ε : Type*} {M : Machine σ α} {ok : σ → α → Prop} {see : σ → α → σ → Option ε}

/-- What is seen of a run: a step shows one event, or none. -/
def history (M : Machine σ α) (see : σ → α → σ → Option ε) (s : σ) (acts : List α) : List ε :=
  (M.along see s acts).reduceOption

theorem history_cons {s s' : σ} {act : α} (next : M.step s act = some s') (acts : List α) :
    M.history see s (act :: acts) = (see s act s').toList ++ M.history see s' acts := by
  unfold history
  rw [along_cons next]
  cases see s act s' with
  | none => exact List.reduceOption_cons_of_none _
  | some event => exact List.reduceOption_cons_of_some _ _

/-- The rest of a run is seen from where the first part ends. -/
theorem Exec.history_append {ok : σ → α → Prop} {s middle : σ} {first : List α} {see : σ → α → σ → Option ε}
    (run : M.Exec ok s first middle) (second : List α) :
    M.history see s (first ++ second) = M.history see s first ++ M.history see middle second := by
  unfold history
  rw [run.along_append, List.reduceOption_append]

/-- What an acceptor makes of a step that shows an event, or none. -/
def Follows (accept : τ → ε → Option τ) (t : τ) (event : Option ε) (t' : τ) : Prop :=
  event = none ∧ t' = t ∨ ∃ event', event = some event' ∧ accept t event' = some t'

theorem Follows.taken {accept : τ → ε → Option τ} {t t' : τ} {event : ε}
    (taken : accept t event = some t') : Follows accept t (some event) t' :=
  .inr ⟨event, rfl, taken⟩

/-- **A machine refines an acceptor**, if it follows every step: it accepts what is seen of a run, and
ends in a state that is related to the one the run ends in. -/
theorem Exec.replays (accept : τ → ε → Option τ) (see : σ → α → σ → Option ε) (R : σ → τ → Prop)
    (follows : ∀ s act s' t, R s t → ok s act → M.step s act = some s' →
      ∃ t', Follows accept t (see s act s') t' ∧ R s' t')
    {s last : σ} {acts : List α} (run : M.Exec ok s acts last) {t : τ} (related : R s t) :
    ∃ t', replay accept t (M.history see s acts) = some t' ∧ R last t' := by
  induction run generalizing t with
  | nil => exact ⟨t, rfl, related⟩
  | @cons s middle last act acts admitted next rest ih =>
    obtain ⟨t', followed, related'⟩ := follows s act middle t related admitted next
    obtain ⟨final, replayed, held⟩ := ih related'
    refine ⟨final, ?_, held⟩
    rw [history_cons next]
    rcases followed with ⟨silent, rfl⟩ | ⟨event, shown, taken⟩
    · rw [silent]
      exact replayed
    · rw [shown]
      show (accept t event).bind _ = _
      rw [taken]
      exact replayed

/-- **Refinement by a function** of the states that meet an invariant. -/
theorem Exec.replays_abs (accept : τ → ε → Option τ) (see : σ → α → σ → Option ε) (abs : σ → τ)
    {I : σ → Prop} (keeps : ∀ s act s', I s → ok s act → M.step s act = some s' → I s')
    (follows : ∀ s act s', I s → ok s act → M.step s act = some s' →
      Follows accept (abs s) (see s act s') (abs s'))
    {s last : σ} {acts : List α} (run : M.Exec ok s acts last) (holds : I s) :
    replay accept (abs s) (M.history see s acts) = some (abs last) ∧ I last := by
  have replayed := Exec.replays accept see (fun s t => I s ∧ t = abs s) ?_ run ⟨holds, rfl⟩
  · obtain ⟨_, accepted, held, rfl⟩ := replayed
    exact ⟨accepted, held⟩
  · rintro s act s' _ ⟨holds, rfl⟩ admitted next
    exact ⟨abs s', follows s act s' holds admitted next, keeps s act s' holds admitted next, rfl⟩

end Machine

/-! ### Heaps -/

/-- An allocation: its address, what was said when it was made, and its values. -/
structure Cell (L V : Type*) where
  ptr : Nat
  label : L
  contents : List V

namespace Cell

variable {L V : Type*}

/-- A cell after a write. -/
def write (c : Cell L V) (ptr offset : Nat) (value : V) : Cell L V :=
  if c.ptr = ptr then { c with contents := c.contents.set offset value } else c

theorem write_ptr (c : Cell L V) (ptr offset : Nat) (value : V) :
    (c.write ptr offset value).ptr = c.ptr := by
  unfold write
  split <;> rfl

theorem write_length (c : Cell L V) (ptr offset : Nat) (value : V) :
    (c.write ptr offset value).contents.length = c.contents.length := by
  unfold write
  split
  · exact List.length_set
  · rfl

end Cell

/-- **A heap**: the live allocations, the most recent first. -/
abbrev Heap (L V : Type*) := List (Cell L V)

namespace Heap

variable {L V : Type*}

/-- Different addresses, and no common one inside. -/
def Separate (c d : Cell L V) : Prop :=
  c.ptr ≠ d.ptr ∧ (c.ptr + c.contents.length ≤ d.ptr ∨ d.ptr + d.contents.length ≤ c.ptr)

instance (c d : Cell L V) : Decidable (Separate c d) := by
  unfold Separate
  infer_instance

/-- What a client does. -/
inductive Event (L V : Type*)
  /-- A new allocation; the values in it are whatever they are. -/
  | alloc (cell : Cell L V)
  | free (ptr : Nat)
  | write (ptr offset : Nat) (value : V)

/-- **What the events mean**: an allocation lies apart from the others; only what is live is released,
or written to, inside its bounds. -/
def step (h : Heap L V) : Event L V → Option (Heap L V)
  | .alloc cell => if ∀ c ∈ h, Separate cell c then some (cell :: h) else none
  | .free ptr =>
    if ∃ c ∈ h, c.ptr = ptr then some (h.eraseP fun c => c.ptr = ptr) else none
  | .write ptr offset value =>
    if ∃ c ∈ h, c.ptr = ptr ∧ offset < c.contents.length then
      some (h.map fun c => c.write ptr offset value)
    else none

theorem step_alloc {h : Heap L V} {cell : Cell L V} (fresh : ∀ c ∈ h, Separate cell c) :
    h.step (.alloc cell) = some (cell :: h) := if_pos fresh

theorem step_free {h : Heap L V} {cell : Cell L V} (member : cell ∈ h) :
    h.step (.free cell.ptr) = some (h.eraseP fun c => c.ptr = cell.ptr) :=
  if_pos ⟨cell, member, rfl⟩

theorem step_write {h : Heap L V} {cell : Cell L V} (member : cell ∈ h) {offset : Nat}
    (inside : offset < cell.contents.length) (value : V) :
    h.step (.write cell.ptr offset value) = some (h.map fun c => c.write cell.ptr offset value) :=
  if_pos ⟨cell, member, rfl, inside⟩

/-- **Every event keeps the allocations apart.** -/
theorem step_separate {h h' : Heap L V} {event : Event L V} (apart : h.Pairwise Separate)
    (next : h.step event = some h') : h'.Pairwise Separate := by
  cases event with
  | alloc cell =>
    simp only [step, Option.ite_none_right_eq_some, Option.some.injEq] at next
    obtain ⟨fresh, rfl⟩ := next
    exact List.pairwise_cons.mpr ⟨fresh, apart⟩
  | free ptr =>
    simp only [step, Option.ite_none_right_eq_some, Option.some.injEq] at next
    obtain ⟨_, rfl⟩ := next
    exact apart.sublist List.eraseP_sublist
  | write ptr offset value =>
    simp only [step, Option.ite_none_right_eq_some, Option.some.injEq] at next
    obtain ⟨_, rfl⟩ := next
    refine List.pairwise_map.mpr (apart.imp fun {c d} separate => ?_)
    unfold Separate
    rw [Cell.write_ptr, Cell.write_ptr, Cell.write_length, Cell.write_length]
    exact separate

/-- **The allocations of a heap never meet.** -/
theorem replay_separate {h h' : Heap L V} {events : List (Event L V)} (apart : h.Pairwise Separate)
    (accepted : replay step h events = some h') : h'.Pairwise Separate := by
  induction events generalizing h with
  | nil =>
    cases accepted
    exact apart
  | cons event events ih =>
    obtain ⟨middle, taken, rest⟩ := Option.bind_eq_some_iff.mp accepted
    exact ih (step_separate apart taken) rest

end Heap

end NpAlloc
