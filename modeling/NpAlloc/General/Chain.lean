/-
**Null-terminated chains through a link function.**

`Linked next p l`: starting at the pointer `p` and following `next`, one meets exactly the nodes of
the list `l`, in order, and then the null pointer. A chain that ends is a finite list, so `Linked`
already says "finite"; `Linked.nodup` adds "acyclic". `Linked.congr` is the frame rule: a chain
survives every change of `next` outside its own nodes.
-/

import Mathlib.Data.List.Nodup
import Mathlib.Logic.Function.Basic

namespace NpAlloc

variable {N : Type*}

/-- The chain from pointer `p` is exactly the list. -/
def Linked (next : N → Option N) : Option N → List N → Prop
  | p, [] => p = none
  | p, n :: l => p = some n ∧ Linked next (next n) l

namespace Linked

variable {next next' : N → Option N} {p : Option N} {n : N} {l : List N}

@[simp] theorem nil_iff : Linked next p [] ↔ p = none := Iff.rfl

@[simp] theorem cons_iff : Linked next p (n :: l) ↔ p = some n ∧ Linked next (next n) l := Iff.rfl

/-- The pointer a chain starts at is the head of its list. -/
theorem head_eq (chain : Linked next p l) : p = l.head? := by
  cases l with
  | nil => exact chain
  | cons n l => exact chain.1

/-- A null pointer is the empty chain. -/
theorem eq_nil (chain : Linked next none l) : l = [] := by
  cases l with
  | nil => rfl
  | cons n l => cases chain.1

/-- A non-null pointer is the first node of a non-empty chain. -/
theorem exists_cons (chain : Linked next (some n) l) :
    ∃ rest, l = n :: rest ∧ Linked next (next n) rest := by
  cases l with
  | nil => cases chain
  | cons m rest =>
    obtain ⟨same, tail⟩ := chain
    cases same
    exact ⟨rest, rfl, tail⟩

/-- **One pointer starts at most one chain.** -/
theorem unique {l' : List N} (chain : Linked next p l) (other : Linked next p l') : l = l' := by
  induction l generalizing p l' with
  | nil =>
    cases chain
    exact other.eq_nil.symm
  | cons n l ih =>
    obtain ⟨rfl, tail⟩ := chain
    obtain ⟨rest, rfl, tail'⟩ := other.exists_cons
    rw [ih tail tail']

/-- Every suffix of a chain that starts at one of its nodes is the chain from that node. -/
theorem suffix {before after : List N} (chain : Linked next p (before ++ n :: after)) :
    Linked next (some n) (n :: after) := by
  induction before generalizing p with
  | nil => exact ⟨rfl, chain.2⟩
  | cons m before ih => exact ih chain.2

/-- **A chain that ends never meets a node twice.** -/
theorem nodup (chain : Linked next p l) : l.Nodup := by
  induction l generalizing p with
  | nil => exact List.nodup_nil
  | cons n l ih =>
    refine List.nodup_cons.mpr ⟨fun member => ?_, ih chain.2⟩
    -- a second visit of `n` starts the same chain again, which would be its own proper suffix
    obtain ⟨before, after, split⟩ := List.append_of_mem member
    have again : Linked next (some n) (n :: after) := by
      rw [split, ← List.cons_append] at chain
      exact chain.suffix
    have same : n :: l = n :: after := unique ⟨rfl, chain.2⟩ again
    have shorter := congrArg List.length same
    rw [split] at shorter
    simp only [List.length_cons, List.length_append] at shorter
    omega

/-- **The frame rule of chains.** -/
theorem congr (chain : Linked next p l) (same : ∀ m ∈ l, next' m = next m) : Linked next' p l := by
  induction l generalizing p with
  | nil => exact chain
  | cons n l ih =>
    refine ⟨chain.1, ?_⟩
    rw [same n List.mem_cons_self]
    exact ih chain.2 fun m member => same m (List.mem_cons_of_mem _ member)

/-- Changing the link of a node outside the chain leaves the chain alone. -/
theorem update [DecidableEq N] (chain : Linked next p l) (outside : n ∉ l) (q : Option N) :
    Linked (Function.update next n q) p l :=
  chain.congr fun _ member => Function.update_of_ne (ne_of_mem_of_not_mem member outside) _ _

end Linked

end NpAlloc
