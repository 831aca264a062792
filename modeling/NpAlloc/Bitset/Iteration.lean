/-
**An iterator is at every position of the set, each once, in order.**

The iterator of `bitset<64>` shifts the positions it has passed out of the word and counts leading zeros;
that of the general template asks `get` for one position after the other. Both go from the first position
to the first one behind them (`Bitset64.next_first`, `Inv.next_first`), so the loop
`for (auto it = b.at(b.get_frist()); !it.end(); it.next())` is the same for both: **`iteration_exact`**.
-/

import NpAlloc.Bitset.Index

set_option linter.unusedSectionVars false

namespace NpAlloc

/-! ### The loop of a client -/

namespace Instantiation

/-- The positions of an iterator from one on, until `end()`, if that is within the given rounds. -/
def visits (I : Instantiation) (s : I.State) (rounds pos_ : Nat) : Option (List Nat) :=
  walk (fun pos => (I.next s pos).toOption) I.size rounds pos_

/-- `at(get_frist())`. -/
def atFirst (I : Instantiation) (s : I.State) : Except Bitset.Fault Nat := do
  let pos ← I.getFrist s
  pure (I.toPos pos)

/-- **The loop from `at(get_frist())`** is at every position of the set, each once, in order, and ends. -/
def Exact (I : Instantiation) (s : I.State) : Prop :=
  ∃ first, I.atFirst s = .ok first ∧ ∀ rounds > I.size,
    I.visits s rounds first = some ((List.range I.size).filter fun pos => I.get s pos = .ok true)

/-- An iterator that starts at the first position, and goes to the first one behind it. -/
theorem exact_of (I : Instantiation) {s : I.State} {first : Nat} {A : Nat → Bool}
    (holds : ∀ pos < I.size, I.get s pos = .ok (A pos)) (starts : I.atFirst s = .ok first)
    (least : First A I.size 0 first)
    (moves : ∀ pos < I.size, ∃ next, I.next s pos = .ok next ∧ First A I.size (pos + 1) next) :
    I.Exact s := by
  refine ⟨first, starts, fun rounds enough => ?_⟩
  have same : (List.range I.size).filter A
      = (List.range I.size).filter fun pos => I.get s pos = .ok true := by
    refine List.filter_congr fun pos member => ?_
    rw [holds pos (List.mem_range.mp member)]
    cases A pos <;> rfl
  rw [← same]
  refine walk_eq (fun pos inside => ?_) least enough
  obtain ⟨next, moved, behind⟩ := moves pos inside
  exact ⟨next, by rw [moved]; rfl, behind⟩

end Instantiation

/-! ### The two iterators -/

theorem Bitset64.exact (b : Bitset64) : bitset64.Exact b := by
  have first : First b.has 64 0 b.getFrist := getFrist_first
  have bound := first.bound
  have byte : b.getFrist % 2 ^ 8 = b.getFrist := Nat.mod_eq_of_lt (by omega)
  refine bitset64.exact_of (fun pos inside => get_eq inside) ?_ first fun pos inside => next_first inside
  exact congrArg Except.ok byte

namespace Bitset

variable {TSize : Nat} {b : Bitset TSize} {build : Build} {A : Nat → Bool} {tail : Bool}

/-- The loop of `next` stops at the first position. -/
theorem Inv.scan_first (inv : Inv b A tail) (sizes : Sizes TSize) (rounds pos : Nat)
    (left : TSize - pos = rounds) (bound : pos ≤ TSize) :
    ∃ next, b.scan build pos = .ok next ∧ First A TSize pos next := by
  induction rounds generalizing pos with
  | zero =>
    have ended : pos = TSize := by omega
    unfold scan
    refine ⟨pos, if_neg (by omega), le_rfl, bound, fun inside => absurd inside (by omega), ?_⟩
    exact fun j behind before => absurd behind (by omega)
  | succ rounds ih =>
    have inside : pos < TSize := by omega
    have answer : b.get build pos = .ok (A pos) := by
      rw [get_eq bound (sizes.inside inside).1, inv.holds pos inside]
    unfold scan
    rw [if_pos inside, answer]
    cases here : A pos with
    | true => exact ⟨pos, rfl, le_rfl, bound, fun _ => here, fun j behind before =>
        absurd behind (by omega)⟩
    | false =>
      obtain ⟨next, found, first⟩ := ih (pos + 1) (by omega) (by omega)
      have after := first.after
      refine ⟨next, found, by omega, first.bound, first.holds, fun j behind before => ?_⟩
      by_cases same : j = pos
      · rw [same, here]
      · exact first.before j (by omega) before

/-- **The iterator goes to the first position behind it.** -/
theorem Inv.next_first (inv : Inv b A tail) (sizes : Sizes TSize) {pos : Nat} (inside : pos < TSize) :
    ∃ next, b.next build pos = .ok next ∧ First A TSize (pos + 1) next := by
  have space := @room TSize
  have high := sizes.high
  have small : (pos + 1) % 2 ^ 64 = pos + 1 := Nat.mod_eq_of_lt (by omega)
  unfold next
  simp only [small]
  by_cases ended : pos + 1 = TSize
  · refine ⟨pos + 1, if_pos ended, le_rfl, ended.le, fun less => absurd less (by omega), ?_⟩
    exact fun j behind before => absurd behind (by omega)
  · rw [if_neg ended]
    exact inv.scan_first sizes _ _ rfl (by omega)

theorem Inv.exact (inv : Inv b A tail) (sizes : Sizes TSize) : (bitsetOf build TSize).Exact b := by
  obtain ⟨first, found, least⟩ := inv.getFrist_first sizes
  have bound := least.bound
  have space := @room TSize
  have high := sizes.high
  have word : first % 2 ^ 64 = first := Nat.mod_eq_of_lt (by omega)
  refine (bitsetOf build TSize).exact_of (fun pos inside => ?_) ?_ least
    fun pos inside => inv.next_first sizes inside
  · exact (get_eq inside.le (sizes.inside inside).1).trans (congrArg Except.ok (inv.holds pos inside))
  · show (b.getFrist).bind _ = _
    rw [found]
    exact congrArg Except.ok word

end Bitset

/-! ### The result -/

/-- **Iteration is exact**, by either iterator, after any history of a `bitset` of any size. -/
theorem iteration_exact (build : Build) (TSize : Nat) (low : 64 ≤ TSize) (high : TSize ≤ 4096)
    (ops : List Op) (within : ∀ op ∈ ops, op.Within TSize) :
    ∃ s, (bitset build TSize).run ops = .ok s ∧ (bitset build TSize).Exact s := by
  by_cases one : TSize = 64
  · subst one
    obtain ⟨b, ran, _⟩ := Bitset64.run_has ops within
    exact ⟨b, ran, b.exact⟩
  · have general : bitset build TSize = bitsetOf build TSize := if_neg one
    rw [general]
    have sizes := Bitset.Sizes.of (lt_of_le_of_ne low (Ne.symm one)) high
    obtain ⟨b, ran, inv⟩ := Bitset.Inv.run build sizes ops within
    exact ⟨b, ran, inv.exact sizes⟩

/-- The positions of a `bitset` of 70 that was filled, and lost one. -/
theorem iteration_exact_seventy : ∃ s, (bitset .debug 70).run [.setAll, .clear 5] = .ok s ∧
    (bitset .debug 70).Exact s :=
  iteration_exact .debug 70 (by decide) (by decide) _ (by decide)

end NpAlloc
