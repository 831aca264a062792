/-
**`a = b` of two iterators copies a whole `bitset`.**

An iterator holds a reference to its `bitset`, and `self_ = r.self_` in its assignment operator does not
bind the reference anew: it assigns the object. So `a = b` leaves `a` at the object it was made for, and
copies the content of that of `b` into it. Nothing of this shows while both are over the same object.

The state is a collection of `bitset`s of one size and of iterators over them; what an iterator does by
itself is in `Instantiation`.

* `kept_iff` — which assignments keep what is expected of them;
* **`frame_iff`** — which runs do, and that nothing is changed in those;
* `assignment_overwrites` — an assignment that does not.
-/

import NpAlloc.Bitset.Model
import NpAlloc.General.Machine
import Mathlib.Data.Set.Function

set_option linter.unusedSectionVars false

namespace NpAlloc.Iterators

/-- An iterator: the object its reference is bound to, and its position. -/
structure Iterator (O : Type) where
  self_ : O
  pos_ : Nat
deriving DecidableEq

structure State (I : Instantiation) (O K : Type) where
  bitsets : O → I.State
  iterators : K → Option (Iterator O)

inductive Act (O K : Type)
  /-- `iterator(self, pos)`. -/
  | construct (k : K) (self : O) (pos : Nat)
  /-- `iterator(r)`. -/
  | copy (k r : K)
  /-- `k = r`. -/
  | assign (k r : K)
  | next (k : K)
  /-- `*k`. -/
  | deref (k : K)
  | getPos (k : K)
  /-- `k.end()`. -/
  | isEnd (k : K)
  | set (k : K)
  | clear (k : K)

section

variable {O K : Type}

/-- `begin()`. -/
def Act.begin_ (k : K) (self : O) : Act O K := .construct k self 0

/-- `at(pos)`. -/
def Act.at_ (k : K) (self : O) (pos : Nat) : Act O K := .construct k self pos

/-- `end()`. -/
def Act.end_ (I : Instantiation) (k : K) (self : O) : Act O K := .construct k self I.size

/-- `set()` and `clear()` of an iterator. -/
def Act.Changes : Act O K → Prop
  | .set _ | .clear _ => True
  | _ => False

end

variable {I : Instantiation} {O K : Type} [DecidableEq O] [DecidableEq K] {s s' start last : State I O K}
  {k r : K} {act : Act O K} {acts : List (Act O K)}

namespace State

/-- An iterator is where another one is to be. -/
def put (s : State I O K) (k : K) (it : Iterator O) : State I O K :=
  { s with iterators := Function.update s.iterators k (some it) }

/-- An object has another content. -/
def store (s : State I O K) (self : O) (content : I.State) : State I O K :=
  { s with bitsets := Function.update s.bitsets self content }

/-- **One operation.** Nothing follows one that fails. -/
def step (s : State I O K) : Act O K → Option (State I O K)
  | .construct k self pos => some (s.put k ⟨self, I.toPos pos⟩)
  | .copy k r => (s.iterators r).map fun it => s.put k it
  | .assign k r => do
    let it ← s.iterators k
    let from_ ← s.iterators r
    some ((s.store it.self_ (s.bitsets from_.self_)).put k ⟨it.self_, from_.pos_⟩)
  | .next k => do
    let it ← s.iterators k
    let pos ← (I.next (s.bitsets it.self_) it.pos_).toOption
    some (s.put k ⟨it.self_, pos⟩)
  | .deref k => do
    let it ← s.iterators k
    let _ ← (I.get (s.bitsets it.self_) it.pos_).toOption
    some s
  | .getPos k | .isEnd k => do
    let _ ← s.iterators k
    some s
  | .set k => do
    let it ← s.iterators k
    let content ← (I.set (s.bitsets it.self_) it.pos_).toOption
    some (s.store it.self_ content)
  | .clear k => do
    let it ← s.iterators k
    let (content, _) ← (I.clear (s.bitsets it.self_) it.pos_).toOption
    some (s.store it.self_ content)

end State

/-- The operations of any iterators over any objects. -/
def machine (I : Instantiation) (O K : Type) [DecidableEq O] [DecidableEq K] :
    Machine (State I O K) (Act O K) where
  init s := ∀ k, s.iterators k = none
  step := State.step

/-- **What is expected of an operation**: only `set()` and `clear()` change an object, and after `a = b`
the iterator `a` is over the same object as `b`, and at the same position. -/
def Kept (s : State I O K) (act : Act O K) : Prop :=
  ∀ s', s.step act = some s' → (¬ act.Changes → s'.bitsets = s.bitsets) ∧
    ∀ k r, act = .assign k r → s'.iterators k = s'.iterators r

/-- An assignment is between iterators over the same object. -/
def SameObject (s : State I O K) (act : Act O K) : Prop :=
  ∀ k r, act = .assign k r → ∀ it from_, s.iterators k = some it → s.iterators r = some from_ →
    it.self_ = from_.self_

/-! ### One operation -/

theorem step_assign {it from_ : Iterator O} (here : s.iterators k = some it)
    (there : s.iterators r = some from_) : s.step (.assign k r)
      = some ((s.store it.self_ (s.bitsets from_.self_)).put k ⟨it.self_, from_.pos_⟩) := by
  unfold State.step
  simp only [here, there, Option.bind_eq_bind, Option.bind_some]

/-- An operation that is no assignment. -/
theorem bitsets_step (other : ∀ k r, act ≠ .assign k r) (quiet : ¬ act.Changes)
    (next : s.step act = some s') : s'.bitsets = s.bitsets := by
  cases act with
  | construct k self pos =>
    cases next
    rfl
  | copy k r =>
    obtain ⟨it, _, rfl⟩ := Option.map_eq_some_iff.mp next
    rfl
  | assign k r => exact absurd rfl (other k r)
  | next k =>
    obtain ⟨it, _, moved⟩ := Option.bind_eq_some_iff.mp next
    obtain ⟨pos, _, moved⟩ := Option.bind_eq_some_iff.mp moved
    cases moved
    rfl
  | deref k =>
    obtain ⟨it, _, read⟩ := Option.bind_eq_some_iff.mp next
    obtain ⟨answer, _, read⟩ := Option.bind_eq_some_iff.mp read
    cases read
    rfl
  | getPos k | isEnd k =>
    obtain ⟨it, _, read⟩ := Option.bind_eq_some_iff.mp next
    cases read
    rfl
  | set k | clear k => exact absurd trivial quiet

/-- After `a = b` the iterator `a` is where `b` is exactly when it was over the same object. -/
theorem assigned_iff {it from_ : Iterator O} (here : s.iterators k = some it)
    (there : s.iterators r = some from_) (next : s.step (.assign k r) = some s') :
    s'.iterators k = s'.iterators r ↔ it.self_ = from_.self_ := by
  rw [step_assign here there] at next
  cases next
  have now : ∀ t : State I O K, (t.put k ⟨it.self_, from_.pos_⟩).iterators k
      = some ⟨it.self_, from_.pos_⟩ := fun t => Function.update_self ..
  by_cases own : r = k
  · subst own
    obtain rfl := Option.some.inj (here.symm.trans there)
    exact iff_of_true rfl rfl
  · have still : ∀ t : State I O K, (t.put k ⟨it.self_, from_.pos_⟩).iterators r = t.iterators r :=
      fun t => Function.update_of_ne own _ _
    rw [now, still]
    show some _ = s.iterators r ↔ _
    rw [there, Option.some.injEq]
    constructor
    · intro same
      rw [← same]
    · intro same
      rw [same]

/-- **An operation keeps what is expected of it** exactly when it is no assignment between iterators over
different objects. -/
theorem kept_iff (ran : s.step act = some s') : Kept s act ↔ SameObject s act := by
  constructor
  · rintro kept k r rfl it from_ here there
    exact (assigned_iff here there ran).mp ((kept s' ran).2 k r rfl)
  · intro same s'' next
    by_cases assigns : ∃ k r, act = .assign k r
    · obtain ⟨k, r, rfl⟩ := assigns
      have both : ∃ it from_, s.iterators k = some it ∧ s.iterators r = some from_ := by
        obtain ⟨it, here, rest⟩ := Option.bind_eq_some_iff.mp next
        obtain ⟨from_, there, _⟩ := Option.bind_eq_some_iff.mp rest
        exact ⟨it, from_, here, there⟩
      obtain ⟨it, from_, here, there⟩ := both
      have one := same k r rfl it from_ here there
      refine ⟨fun _ => ?_, fun k' r' equal => ?_⟩
      · rw [step_assign here there] at next
        cases next
        show Function.update s.bitsets it.self_ (s.bitsets from_.self_) = s.bitsets
        rw [one, Function.update_eq_self]
      · obtain ⟨rfl, rfl⟩ := Act.assign.inj equal
        exact (assigned_iff here there next).mpr one
    · have other : ∀ k r, act ≠ .assign k r := fun k r equal => assigns ⟨k, r, equal⟩
      exact ⟨fun quiet => bitsets_step other quiet next, fun k r equal => absurd equal (other k r)⟩

/-! ### The result -/

/-- A run without `set()` and `clear()` that keeps what is expected changes no object. -/
theorem kept_run (run : (machine I O K).Exec Kept start acts last) (quiet : ∀ act ∈ acts, ¬ act.Changes) :
    last.bitsets = start.bitsets := by
  induction run with
  | nil => rfl
  | cons kept next _ ih =>
    rw [ih fun act member => quiet act (.tail _ member)]
    exact (kept _ next).1 (quiet _ List.mem_cons_self)

/-- **A run keeps what is expected of iterators exactly when no assignment in it is between iterators over
different objects.** It then changes no object but through `set()` and `clear()`. -/
theorem frame_iff (build : Build) (TSize : Nat) (O K : Type) [DecidableEq O] [DecidableEq K]
    (start last : State (bitset build TSize) O K) (acts : List (Act O K)) :
    ((machine (bitset build TSize) O K).Exec Kept start acts last ↔
      (machine (bitset build TSize) O K).Exec SameObject start acts last) ∧
    ((machine (bitset build TSize) O K).Exec SameObject start acts last →
      (∀ act ∈ acts, ¬ act.Changes) → last.bitsets = start.bitsets) := by
  have same : (machine (bitset build TSize) O K).Exec Kept start acts last ↔
      (machine (bitset build TSize) O K).Exec SameObject start acts last :=
    Machine.Exec.congr_step fun _ _ _ => kept_iff
  exact ⟨same, fun orderly quiet => kept_run (same.mpr orderly) quiet⟩

/-- Two objects with a position each. -/
def State.two : State (bitset .debug 64) Bool Bool :=
  ⟨fun self => if self then (⟨1⟩ : Bitset64) else (⟨2⟩ : Bitset64), fun _ => none⟩

/-- **An assignment that overwrites an object**: `a` is over the first of two objects, `b` over the second,
and after `a = b` the first has the content of the second, and `a` is still over the first. -/
theorem assignment_overwrites : ∃ last, (machine (bitset .debug 64) Bool Bool).Exec Machine.anyStep State.two
      [.begin_ true true, .begin_ false false, .assign true false] last ∧
    last.bitsets true = (⟨2⟩ : Bitset64) ∧ State.two.bitsets true = (⟨1⟩ : Bitset64) ∧
    last.iterators true = some ⟨true, 0⟩ ∧ last.iterators false = some ⟨false, 0⟩ ∧
    ¬ (machine (bitset .debug 64) Bool Bool).Exec Kept State.two
      [.begin_ true true, .begin_ false false, .assign true false] last := by
  refine ⟨_, .cons trivial rfl (.cons trivial rfl (.cons trivial rfl (.nil _))), rfl, rfl, rfl, rfl, ?_⟩
  rintro (_ | ⟨_, first, _ | ⟨_, second, _ | ⟨kept, third, _⟩⟩⟩)
  obtain rfl := Option.some.inj first
  obtain rfl := Option.some.inj second
  have unchanged := congrFun ((kept _ third).1 id) true
  obtain rfl := Option.some.inj third
  have equal : (⟨2⟩ : Bitset64) = ⟨1⟩ := unchanged
  exact absurd equal (by decide)

end NpAlloc.Iterators
