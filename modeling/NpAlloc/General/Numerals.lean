/-
**Numerals that are read in another base.**

A number is printed in one base and read in another one. Up to base 16 the digits are the same characters,
so what is read is what the digits of the number say in the other base.

* `reread` — what the digits of a number in one base say in another;
* **`toDigits_eq_iff`** — two numbers have the same numeral, each in its base, exactly if the one is the
  other reread;
* `reread_small` — one digit says the same in both.
-/

import Mathlib.Data.Nat.Digits.Lemmas

namespace NpAlloc

variable {b c m n a u : Nat}

/-- What the digits of a number in base `b` say in base `c`. -/
def reread (b c u : Nat) : Nat := Nat.ofDigits c (Nat.digits b u)

theorem reread_small (small : u < b) : reread b c u = u := by
  unfold reread
  rcases Nat.eq_zero_or_pos u with rfl | positive
  · rw [Nat.digits_zero]
    rfl
  · rw [Nat.digits_of_lt b u (by omega) small]
    exact Nat.ofDigits_singleton

/-- The last digit, and the others. -/
theorem reread_large (base : 1 < b) (large : b ≤ u) :
    reread b c u = c * reread b c (u / b) + u % b := by
  unfold reread
  rw [Nat.digits_def' base (by omega), Nat.ofDigits_cons]
  exact Nat.add_comm _ _

theorem reread_pos (base : 1 < b) (other : 0 < c) (positive : 0 < u) : 0 < reread b c u := by
  induction u using Nat.strong_induction_on with
  | _ u ih =>
    by_cases small : u < b
    · rwa [reread_small small]
    · have digits : 0 < u / b := Nat.div_pos (by omega) (by omega)
      have rest := ih (u / b) (Nat.div_lt_self positive base) digits
      rw [reread_large base (by omega)]
      exact Nat.add_pos_left (Nat.mul_pos other rest) _

/-- Up to base 16 different digits are different characters. -/
theorem digitChar_inj (first : m < 16) (second : n < 16) : m.digitChar = n.digitChar ↔ m = n := by
  have all : ∀ m n : Fin 16, m.val.digitChar = n.val.digitChar → m = n := by decide
  exact ⟨fun same => congrArg Fin.val (all ⟨m, first⟩ ⟨n, second⟩ same), congrArg _⟩

/-- **The numerals of two numbers, each in its base, are the same exactly if the one is the other
reread.** -/
theorem toDigits_eq_iff (base : 1 < b) (wider : b ≤ c) (known : c ≤ 16) :
    Nat.toDigits c a = Nat.toDigits b u ↔ a = reread b c u := by
  induction a using Nat.strong_induction_on generalizing u with
  | _ a ih =>
    by_cases short : a < c <;> by_cases small : u < b
    · rw [Nat.toDigits_of_lt_base short, Nat.toDigits_of_lt_base small, reread_small small,
        List.cons.injEq, digitChar_inj (by omega) (by omega)]
      exact and_iff_left rfl
    · -- one digit on the left, and at least two on the right
      have more : c ≤ reread b c u := by
        have rest := reread_pos base (c := c) (by omega) (Nat.div_pos (Nat.not_lt.mp small) (by omega))
        rw [reread_large base (by omega)]
        exact (Nat.le_mul_of_pos_right c rest).trans (Nat.le_add_right _ _)
      refine iff_of_false (fun same => ?_) (by omega)
      have lengths := congrArg List.length same
      rw [Nat.toDigits_of_lt_base short, Nat.toDigits_of_base_le base (by omega)] at lengths
      have rest := Nat.length_toDigits_pos (b := b) (n := u / b)
      simp only [List.length_append, List.length_singleton] at lengths
      omega
    · -- and the other way round
      rw [reread_small small]
      refine iff_of_false (fun same => ?_) (by omega)
      have lengths := congrArg List.length same
      rw [Nat.toDigits_of_lt_base small, Nat.toDigits_of_base_le (by omega) (by omega)] at lengths
      have rest := Nat.length_toDigits_pos (b := c) (n := a / c)
      simp only [List.length_append, List.length_singleton] at lengths
      omega
    · have front := ih (a / c) (Nat.div_lt_self (by omega) (by omega)) (u := u / b)
      have last := digitChar_inj (m := a % c) (n := u % b)
        ((Nat.mod_lt _ (by omega)).trans_le known)
        ((Nat.mod_lt _ (by omega)).trans_le (wider.trans known))
      have split := Nat.div_add_mod a c
      have least := Nat.mod_lt a (show 0 < c by omega)
      have least' := (Nat.mod_lt u (show 0 < b by omega)).trans_le wider
      rw [Nat.toDigits_of_base_le (by omega) (Nat.not_lt.mp short),
        Nat.toDigits_of_base_le base (Nat.not_lt.mp small), reread_large base (by omega)]
      constructor
      · intro same
        obtain ⟨digits, digit⟩ := List.append_inj' same rfl
        rw [← front.mp digits, ← last.mp (List.cons.inj digit).1]
        exact split.symm
      · intro same
        have quotient : a / c = reread b c (u / b) := by
          rw [same, Nat.mul_add_div (by omega), Nat.div_eq_of_lt least', Nat.add_zero]
        have remainder : a % c = u % b := by
          rw [same, Nat.mul_add_mod, Nat.mod_eq_of_lt least']
        rw [front.mpr quotient, remainder]

end NpAlloc
