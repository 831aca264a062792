/-
**A cursor that goes from one position to the next.**

`First P n k q` says that `q` is the first position from `k` on where `P` holds, or the end `n`. A cursor
starts at the first position and moves to the first one behind it; `walk` is the loop that does so until
the end, and collects where it was.

* `First.positions_eq` — the first position divides the positions there are;
* **`walk_eq`** — the loop ends, and has been at the positions where `P` holds, each once, in order.
-/

import Mathlib.Data.List.Range

set_option linter.unusedSectionVars false

namespace NpAlloc

variable {P Q : Nat → Bool} {n k p : Nat}

/-- **The first position from `k` on where `P` holds**, or `n`. -/
structure First (P : Nat → Bool) (n k q : Nat) : Prop where
  after : k ≤ q
  bound : q ≤ n
  holds : q < n → P q = true
  before : ∀ j, k ≤ j → j < q → P j = false

namespace First

/-- Only the positions in the range count. -/
theorem congr (same : ∀ j, k ≤ j → j < n → P j = Q j) (first : First P n k p) : First Q n k p := by
  refine ⟨first.after, first.bound, fun inside => ?_, fun j behind less => ?_⟩
  · rw [← same p first.after inside]
    exact first.holds inside
  · rw [← same j behind (less.trans_le first.bound)]
    exact first.before j behind less

end First

/-! ### The loop -/

/-- The positions from `k` on where `P` holds, in order. -/
def positions (P : Nat → Bool) (n k : Nat) : List Nat := (List.range' k (n - k)).filter P

theorem positions_zero : positions P n 0 = (List.range n).filter P := by
  unfold positions
  rw [Nat.sub_zero, ← List.range_eq_range']

/-- Where the first position divides the list. -/
theorem First.positions_eq (first : First P n k p) :
    positions P n k = if p < n then p :: positions P n (p + 1) else [] := by
  have skip : (List.range' k (p - k)).filter P = [] := by
    refine List.filter_eq_nil_iff.mpr fun j member => ?_
    obtain ⟨low, high⟩ := List.mem_range'_1.mp member
    have after := first.after
    rw [first.before j low (by omega)]
    exact Bool.false_ne_true
  have split : List.range' k (n - k) = List.range' k (p - k) ++ List.range' p (n - p) := by
    have after := first.after
    have bound := first.bound
    have start : k + (p - k) = p := by omega
    have total : p - k + (n - p) = n - k := by omega
    rw [← total, ← List.range'_append_1, start]
  unfold positions
  rw [split, List.filter_append, skip, List.nil_append]
  split
  · rename_i inside
    have rest : n - p = n - (p + 1) + 1 := by omega
    rw [rest, List.range'_succ, List.filter_cons_of_pos (first.holds inside)]
  · rename_i ended
    have none_ : n - p = 0 := by omega
    rw [none_]
    rfl

/-- The loop from a position to the end, if it ends within the given number of rounds. -/
def walk (next : Nat → Option Nat) (n : Nat) : Nat → Nat → Option (List Nat)
  | 0, _ => none
  | rounds + 1, p =>
    if p = n then some []
    else (next p).bind fun q => (walk next n rounds q).map (p :: ·)

/-- **The loop has been at every position from `k` on, each once, in order.** -/
theorem walk_positions {next : Nat → Option Nat}
    (moves : ∀ p < n, ∃ q, next p = some q ∧ First P n (p + 1) q) (rounds : Nat)
    (first : First P n k p) (enough : n - p < rounds) :
    walk next n rounds p = some (positions P n k) := by
  induction rounds generalizing k p with
  | zero => omega
  | succ rounds ih =>
    rw [first.positions_eq]
    unfold walk
    by_cases ended : p = n
    · rw [if_pos ended, if_neg (by omega)]
    · have inside : p < n := lt_of_le_of_ne first.bound ended
      obtain ⟨q, next_, later⟩ := moves p inside
      have behind := later.after
      rw [if_neg ended, if_pos inside, next_, Option.bind_some, ih later (by omega), Option.map_some]

/-- **The loop from the first position on.** -/
theorem walk_eq {next : Nat → Option Nat}
    (moves : ∀ p < n, ∃ q, next p = some q ∧ First P n (p + 1) q) (first : First P n 0 p) {rounds : Nat}
    (enough : n < rounds) : walk next n rounds p = some ((List.range n).filter P) := by
  rw [walk_positions moves rounds first (by omega), positions_zero]

end NpAlloc
