/-
**Words as sets of positions.**

The positions of a word are counted from its most significant bit, as `BitVec.getMsbD` does, so that
the number of leading zeros is the first position. What the operations of a word do to its positions:

* `getMsbD_clz`, `getMsbD_lt_clz` — the leading zeros end at the first position;
* `getMsbD_or_bit`, `getMsbD_and_not_bit`, `and_bit_ne_zero` — one position is set, cleared, tested;
* `getMsbD_shift` — a shift to the left and back drops the positions in front;
* **`toNat_cpop_eq`** — the population count is the number of positions.
-/

import Mathlib.Data.BitVec
import Mathlib.Data.List.Range

set_option linter.unusedSectionVars false

namespace NpAlloc.Words

variable {w : Nat} {x : BitVec w} {p q : Nat}

/-- The word with one position. -/
def bit (w p : Nat) : BitVec w := 1#w <<< (w - 1 - p)

theorem getMsbD_bit (inside : p < w) : (bit w p).getMsbD q = decide (q = p) := by
  unfold bit
  rw [BitVec.getMsbD_eq_getLsbD, BitVec.getLsbD_shiftLeft]
  by_cases same : q = p
  · subst same
    simp [inside, show w - 1 - q < w by omega]
    omega
  · by_cases within : q < w
    · simp [same, within]
      omega
    · simp [same, within]

/-- Words with the same positions are the same. -/
theorem ext {y : BitVec w} (same : ∀ i < w, x.getMsbD i = y.getMsbD i) : x = y :=
  BitVec.eq_of_getMsbD_eq fun i inside => same i inside

/-- A word is zero when it has no position. -/
theorem eq_zero_iff : x = 0#w ↔ ∀ i < w, x.getMsbD i = false := by
  constructor
  · rintro rfl i _
    simp
  · intro none_
    exact ext fun i inside => by simp [none_ i inside]

theorem exists_of_ne_zero (some_ : x ≠ 0#w) : ∃ i < w, x.getMsbD i = true := by
  by_contra none_
  refine some_ (eq_zero_iff.mpr fun i inside => ?_)
  by_contra set_
  exact none_ ⟨i, inside, by simpa using set_⟩

/-! ### One position -/

theorem getMsbD_or_bit (inside : p < w) : (x ||| bit w p).getMsbD q = (decide (q = p) || x.getMsbD q) := by
  rw [BitVec.getMsbD_or, getMsbD_bit inside, Bool.or_comm]

theorem getMsbD_and_not_bit (inside : p < w) (within : q < w) :
    (x &&& ~~~ bit w p).getMsbD q = (!decide (q = p) && x.getMsbD q) := by
  rw [BitVec.getMsbD_and, BitVec.getMsbD_not, getMsbD_bit inside, decide_eq_true within, Bool.true_and,
    Bool.and_comm]

/-- **The test of a position.** -/
theorem and_bit_ne_zero (inside : p < w) : x &&& bit w p ≠ 0#w ↔ x.getMsbD p = true := by
  constructor
  · intro some_
    obtain ⟨q, _, set_⟩ := exists_of_ne_zero some_
    rw [BitVec.getMsbD_and, getMsbD_bit inside, Bool.and_eq_true, decide_eq_true_eq] at set_
    obtain ⟨set_, rfl⟩ := set_
    exact set_
  · intro set_ zero
    have none_ := eq_zero_iff.mp zero p inside
    rw [BitVec.getMsbD_and, getMsbD_bit inside, set_] at none_
    simp at none_

/-! ### The first position -/

theorem clz_lt (some_ : x ≠ 0#w) : x.clz.toNat < w := by
  have below := BitVec.clz_lt_iff_ne_zero.mpr some_
  rw [BitVec.lt_def, BitVec.natCast_eq_ofNat, BitVec.toNat_ofNat] at below
  exact below.trans_le (Nat.mod_le w (2 ^ w))

/-- **The leading zeros end at a position.** -/
theorem getMsbD_clz (some_ : x ≠ 0#w) : x.getMsbD x.clz.toNat = true := by
  have less := clz_lt some_
  rw [BitVec.getMsbD_eq_getLsbD, decide_eq_true less, Bool.true_and]
  exact BitVec.getLsbD_true_clz_of_ne_zero (by omega) some_

/-- **No position comes before.** -/
theorem getMsbD_lt_clz (before : p < x.clz.toNat) : x.getMsbD p = false := by
  by_cases inside : p < w
  · have small : x.toNat < 2 ^ (w - 1 - p) :=
      BitVec.toNat_lt_two_pow_sub_clz.trans_le (Nat.pow_le_pow_right (by decide) (by omega))
    rw [BitVec.getMsbD_eq_getLsbD, decide_eq_true inside, Bool.true_and]
    exact Nat.testBit_lt_two_pow small
  · exact BitVec.getMsbD_of_ge x p (by omega)

/-- A shift to the left and back drops the positions in front. -/
theorem getMsbD_shift : ((x <<< p) >>> p).getMsbD q = (decide (p ≤ q) && x.getMsbD q) := by
  rw [BitVec.getMsbD_ushiftRight, BitVec.getMsbD_shiftLeft]
  by_cases behind : p ≤ q
  · by_cases inside : q < w
    · simp [behind, inside]
    · simp [behind, inside, BitVec.getMsbD_of_ge x q (by omega)]
  · simp [behind]

/-! ### The number of positions -/

theorem cpopNatRec_eq_countP (n : Nat) : x.cpopNatRec n 0 = (List.range n).countP x.getLsbD := by
  induction n with
  | zero => rfl
  | succ n ih =>
    rw [BitVec.cpopNatRec_succ, BitVec.cpopNatRec_eq, ih, List.range_succ, List.countP_append,
      List.countP_singleton]
    cases x.getLsbD n <;> simp

/-- **The population count is the number of positions.** -/
theorem toNat_cpop_eq : x.cpop.toNat = (List.range w).countP x.getMsbD := by
  have reversed : x.reverse.getLsbD = x.getMsbD := by
    funext i
    exact BitVec.getLsbD_reverse
  rw [← BitVec.cpop_reverse, BitVec.toNat_cpop, cpopNatRec_eq_countP, reversed]

end NpAlloc.Words
