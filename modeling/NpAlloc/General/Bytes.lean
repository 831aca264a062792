/-
**Byte memory: little-endian words, intervals of addresses, and their frame rules.**

* `load m a w`, `store m a w v` — the word of `w` bytes at address `a`.
* `load_store` — a word read where it was written; `load_store_apart`, `load_congr` — a word is
  unchanged by what happens outside its bytes.
* `Apart a n b k` — the intervals `[a, a + n)` and `[b, b + k)` do not meet.
* `SameOn m m' a n` — the two memories agree on `[a, a + n)`; `Outside P m m'` — they agree wherever
  `P` does not hold, which is how an operation says what it writes.
-/

import Mathlib.Data.BitVec
import Mathlib.Tactic.Ring

namespace NpAlloc

/-- A memory of bytes. -/
abbrev Memory := Nat → BitVec 8

/-- The little-endian word of `w` bytes at `a`. -/
def load (m : Memory) (a : Nat) : Nat → Nat
  | 0 => 0
  | w + 1 => (m a).toNat + 256 * load m (a + 1) w

/-- Write the low `w` bytes of `v` at `a`, little-endian. -/
def store (m : Memory) (a w v : Nat) : Memory := fun x =>
  if a ≤ x ∧ x < a + w then BitVec.ofNat 8 (v / 256 ^ (x - a)) else m x

/-- Two intervals of addresses that do not meet. -/
def Apart (a n b k : Nat) : Prop := a + n ≤ b ∨ b + k ≤ a

/-- Two memories that agree on an interval. -/
def SameOn (m m' : Memory) (a n : Nat) : Prop := ∀ x, a ≤ x → x < a + n → m' x = m x

/-- Two memories that agree outside a set of addresses. -/
def Outside (P : Nat → Prop) (m m' : Memory) : Prop := ∀ x, ¬ P x → m' x = m x

/-- The addresses of an interval. -/
def Within (a n : Nat) (x : Nat) : Prop := a ≤ x ∧ x < a + n

instance (a n b k : Nat) : Decidable (Apart a n b k) := by
  unfold Apart
  infer_instance

instance (a n x : Nat) : Decidable (Within a n x) := by
  unfold Within
  infer_instance

variable {m m' m'' : Memory} {a b n k w v x : Nat} {P Q : Nat → Prop}

/-! ### Intervals -/

theorem Apart.symm (apart : Apart a n b k) : Apart b k a n := apart.elim .inr .inl

/-- Parts of apart intervals are apart. -/
theorem Apart.mono {a' n' b' k' : Nat} (apart : Apart a n b k) (left : a ≤ a')
    (leftEnd : a' + n' ≤ a + n) (right : b ≤ b') (rightEnd : b' + k' ≤ b + k) : Apart a' n' b' k' := by
  unfold Apart at apart ⊢
  omega

theorem Apart.not_within (apart : Apart a n b k) (member : Within a n x) : ¬ Within b k x := by
  unfold Apart at apart
  unfold Within at member ⊢
  omega

namespace SameOn

theorem refl (m : Memory) (a n : Nat) : SameOn m m a n := fun _ _ _ => rfl

theorem trans (first : SameOn m m' a n) (second : SameOn m' m'' a n) : SameOn m m'' a n :=
  fun x low high => (second x low high).trans (first x low high)

/-- Agreement on an interval is agreement on its parts. -/
theorem mono {a' n' : Nat} (same : SameOn m m' a n) (low : a ≤ a') (high : a' + n' ≤ a + n) :
    SameOn m m' a' n' :=
  fun x here there => same x (by omega) (by omega)

end SameOn

namespace Outside

theorem refl (P : Nat → Prop) (m : Memory) : Outside P m m := fun _ _ => rfl

theorem trans (first : Outside P m m') (second : Outside P m' m'') : Outside P m m'' :=
  fun x outside => (second x outside).trans (first x outside)

theorem mono (weaker : ∀ x, P x → Q x) (outside : Outside P m m') : Outside Q m m' :=
  fun x notQ => outside x fun member => notQ (weaker x member)

/-- **The frame rule**: what an operation does not write stays. -/
theorem sameOn (outside : Outside P m m') (untouched : ∀ x, Within a n x → ¬ P x) :
    SameOn m m' a n :=
  fun x low high => outside x (untouched x ⟨low, high⟩)

end Outside

/-! ### Words -/

/-- **A word depends on its own bytes only.** -/
theorem load_congr (same : SameOn m m' a w) : load m' a w = load m a w := by
  induction w generalizing a with
  | zero => rfl
  | succ w ih =>
    unfold load
    rw [same a le_rfl (by omega), ih (same.mono (by omega) (by omega))]

/-- A store changes its own bytes only. -/
theorem store_outside (m : Memory) (a w v : Nat) : Outside (Within a w) m (store m a w v) :=
  fun _ outside => if_neg outside

/-- Below the address of a store its value does not matter. -/
theorem load_store_aux (m : Memory) (a b w k v : Nat) (inside : a ≤ b) (room : b + k ≤ a + w) :
    load (store m a w v) b k = v / 256 ^ (b - a) % 256 ^ k := by
  induction k generalizing b with
  | zero => simp [load, Nat.mod_one]
  | succ k ih =>
    have here : store m a w v b = BitVec.ofNat 8 (v / 256 ^ (b - a)) := if_pos ⟨inside, by omega⟩
    have power : 256 ^ (b + 1 - a) = 256 ^ (b - a) * 256 := by
      rw [Nat.sub_add_comm inside, Nat.pow_succ]
    have split (q : Nat) : q % 256 + 256 * (q / 256 % 256 ^ k) = q % 256 ^ (k + 1) := by
      rw [Nat.pow_succ', Nat.mod_mul]
    unfold load
    rw [here, ih (b + 1) (by omega) (by omega), power, ← Nat.div_div_eq_div_mul, ← split,
      BitVec.toNat_ofNat]

/-- **A word is read back where it was written.** -/
theorem load_store (fits : v < 256 ^ w) : load (store m a w v) a w = v := by
  rw [load_store_aux m a a w w v le_rfl le_rfl, Nat.sub_self, Nat.pow_zero, Nat.div_one,
    Nat.mod_eq_of_lt fits]

/-- **A store elsewhere leaves a word alone.** -/
theorem load_store_apart (apart : Apart a n b k) : load (store m a n v) b k = load m b k :=
  load_congr ((store_outside m a n v).sameOn fun _ member => apart.symm.not_within member)

-- words are known by the lemmas above, not by their bytes
attribute [irreducible] load store

end NpAlloc
