/-
**`bitset<64>` is a set of positions.**

`has b p` says that position `p` is in the word. Each operation at a position below 64 is the operation of
that name on sets: `get_eq`, `set_eq`, `clear_eq`, `count_eq`; `getFrist_first` and `next_first` find the
first position of the word, and the first one behind an iterator. After a history the word holds what the
last operations made of the positions (`run_has`).
-/

import NpAlloc.Bitset.Model
import NpAlloc.General.Scan

set_option linter.unusedSectionVars false

namespace NpAlloc

/-! ### What a history leaves -/

section History

variable {kind : Op → Bool} {ops : List Op} {op : Op} {pos : Nat}

theorem lastIn_snoc : lastIn kind (ops ++ [op]) = if kind op then op.leaves else lastIn kind ops := by
  unfold lastIn
  rw [List.filter_append]
  by_cases same : kind op = true
  · simp [same]
  · simp [same]

theorem lastOf_snoc :
    lastOf (ops ++ [op]) pos = if op.affects pos then op.leaves else lastOf ops pos := lastIn_snoc

theorem filled_snoc : filled (ops ++ [op]) = if op.bulk then op.leaves else filled ops := lastIn_snoc

/-- What `set` does to a position. -/
theorem Op.after_set {q : Nat} {before : Bool} : (decide (q = pos) || before)
    = if (Op.set pos).affects q then (Op.set pos).leaves else before := by
  show _ = if decide (pos = q) = true then true else before
  by_cases same : pos = q
  · simp [same]
  · simp [same, Ne.symm same]

/-- What `clear` does to a position. -/
theorem Op.after_clear {q : Nat} {before : Bool} : (!decide (q = pos) && before)
    = if (Op.clear pos).affects q then (Op.clear pos).leaves else before := by
  show _ = if decide (pos = q) = true then false else before
  by_cases same : pos = q
  · simp [same]
  · simp [same, Ne.symm same]

theorem Instantiation.run_snoc (I : Instantiation) (ops : List Op) (op : Op) :
    I.run (ops ++ [op]) = (I.run ops).bind fun s => I.apply s op := by
  unfold run
  rw [List.foldlM_append]
  simp only [List.foldlM_cons, List.foldlM_nil, bind_pure]
  rfl

end History

namespace Bitset64

variable {b : Bitset64} {p q : Nat}

/-! ### Positions -/

/-- A position is in the word. -/
def has (b : Bitset64) (p : Nat) : Bool := b.bits_.getMsbD p

/-- The word with a position more. -/
def put (b : Bitset64) (p : Nat) : Bitset64 := ⟨b.bits_ ||| Words.bit 64 p⟩

/-- The word without a position. -/
def drop (b : Bitset64) (p : Nat) : Bitset64 := ⟨b.bits_ &&& ~~~ Words.bit 64 p⟩

theorem has_put (inside : p < 64) : (b.put p).has q = (decide (q = p) || b.has q) :=
  Words.getMsbD_or_bit inside

theorem has_drop (inside : p < 64) (within : q < 64) :
    (b.drop p).has q = (!decide (q = p) && b.has q) :=
  Words.getMsbD_and_not_bit inside within

theorem has_new : new.has q = false := by
  unfold has new
  simp

theorem has_clearAll : b.clearAll.has q = false := by
  unfold has clearAll
  simp

theorem has_setAll (inside : q < 64) : b.setAll.has q = true := by
  have ones : (-1 : BitVec 64) = BitVec.allOnes 64 := by decide
  show (-1 : BitVec 64).getMsbD q = true
  rw [ones, BitVec.getMsbD_allOnes]
  exact decide_eq_true inside

/-- A word is zero when it has no position. -/
theorem zero_iff : b.bits_ = 0 ↔ ∀ i < 64, b.has i = false := Words.eq_zero_iff

theorem nonzero_iff : b.bits_ ≠ 0 ↔ ∃ i < 64, b.has i = true := by
  constructor
  · exact Words.exists_of_ne_zero
  · rintro ⟨i, inside, set_⟩ zero
    rw [zero_iff.mp zero i inside] at set_
    cases set_

/-! ### The operations -/

theorem mask_eq (inside : p < 64) : mask p = .ok (Words.bit 64 p) := if_pos (by omega)

theorem get_eq (inside : p < 64) : b.get p = .ok (b.has p) := by
  have test : decide (b.bits_ &&& Words.bit 64 p > 0) = b.has p := by
    rw [Bool.eq_iff_iff, decide_eq_true_eq]
    exact (BitVec.pos_iff_ne_zero _).trans (Words.and_bit_ne_zero inside)
  unfold get
  rw [mask_eq inside]
  exact congrArg Except.ok test

theorem set_eq (inside : p < 64) : b.set p = .ok (b.put p) := by
  unfold set
  rw [mask_eq inside]
  rfl

theorem clear_eq (inside : p < 64) : b.clear p = .ok (b.drop p, decide ((b.drop p).bits_ = 0)) := by
  unfold clear
  rw [mask_eq inside]
  rfl

theorem count_eq : b.count = (List.range 64).countP b.has := Words.toNat_cpop_eq

/-- **The first position.** -/
theorem getFrist_first : First b.has 64 0 b.getFrist := by
  unfold getFrist
  by_cases zero : b.bits_ = 0
  · rw [if_pos zero]
    exact ⟨Nat.zero_le _, le_rfl, fun inside => absurd inside (lt_irrefl _), fun j _ inside =>
      zero_iff.mp zero j inside⟩
  · rw [if_neg zero, clz, if_pos zero]
    exact ⟨Nat.zero_le _, (Words.clz_lt zero).le, fun _ => Words.getMsbD_clz zero,
      fun j _ before => Words.getMsbD_lt_clz before⟩

theorem getFrist_lt (some_ : b.bits_ ≠ 0) : b.getFrist < 64 := by
  unfold getFrist
  rw [if_neg some_, clz, if_pos some_]
  exact Words.clz_lt some_

/-- **The first position behind an iterator.** -/
theorem next_first (inside : p < 64) : ∃ q, b.next p = .ok q ∧ First b.has 64 (p + 1) q := by
  have small : (p + 1) % 2 ^ 8 = p + 1 := Nat.mod_eq_of_lt (by omega)
  unfold next
  simp only [small]
  by_cases ended : p + 1 = kIndexSize
  · refine ⟨p + 1, if_pos ended, le_rfl, ended.le, fun less => absurd ended.symm less.ne', ?_⟩
    exact fun j behind before => absurd behind (by omega)
  · have less : p + 1 < 64 := by
      unfold kIndexSize at ended
      omega
    let t : Bitset64 := ⟨(b.bits_ <<< (p + 1)) >>> (p + 1)⟩
    have first : First t.has 64 0 t.getFrist := getFrist_first
    have shifted : ∀ j, t.has j = (decide (p + 1 ≤ j) && b.has j) := fun j => Words.getMsbD_shift
    have byte : t.getFrist % 2 ^ 8 = t.getFrist := by
      have bound := first.bound
      exact Nat.mod_eq_of_lt (by omega)
    refine ⟨t.getFrist, ?_, ?_, first.bound, fun inside => ?_, fun j behind before => ?_⟩
    · rw [if_neg ended, if_neg (by omega)]
      exact congrArg Except.ok byte
    · by_contra before
      have holds := first.holds (by omega)
      rw [shifted, decide_eq_false before] at holds
      cases holds
    · have holds := first.holds inside
      rw [shifted, Bool.and_eq_true] at holds
      exact holds.2
    · have none_ := first.before j (Nat.zero_le _) before
      rwa [shifted, decide_eq_true behind, Bool.true_and] at none_

/-! ### Histories -/

theorem apply_has (op : Op) (within : op.Within 64) : ∃ b' : Bitset64, bitset64.apply b op = .ok b' ∧
    ∀ q < 64, b'.has q = if op.affects q then op.leaves else b.has q := by
  cases op with
  | set pos =>
    refine ⟨b.put pos, set_eq within, fun q _ => ?_⟩
    rw [has_put within, Op.after_set]
  | clear pos =>
    refine ⟨b.drop pos, ?_, fun q inside => ?_⟩
    · show (b.clear pos).bind _ = _
      rw [clear_eq within]
      rfl
    · rw [has_drop within inside, Op.after_clear]
  | setAll => exact ⟨b.setAll, rfl, fun q inside => has_setAll inside⟩
  | clearAll => exact ⟨b.clearAll, rfl, fun q _ => has_clearAll⟩

/-- **After every history** the word holds what the last operations made of the positions. -/
theorem run_has (ops : List Op) (within : ∀ op ∈ ops, op.Within 64) :
    ∃ b : Bitset64, bitset64.run ops = .ok b ∧ ∀ q < 64, b.has q = lastOf ops q := by
  induction ops using List.reverseRecOn with
  | nil => exact ⟨new, rfl, fun q _ => has_new⟩
  | append_singleton ops op ih =>
    obtain ⟨b, ran, holds⟩ := ih fun op member => within op (List.mem_append_left _ member)
    obtain ⟨b', next, after⟩ := apply_has (b := b) op (within op (by simp))
    refine ⟨b', ?_, fun q inside => ?_⟩
    · rw [Instantiation.run_snoc, ran]
      exact next
    · rw [after q inside, lastOf_snoc, holds q inside]

end Bitset64

end NpAlloc
