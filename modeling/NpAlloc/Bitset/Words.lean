/-
**`bitset<TSize>`: words, and an index of the words.**

`has b p` says that position `p` is in the words, also for the positions behind `TSize` that the last word
has room for. `get_eq`, `set_eq` and `clear_eq` say what the operations do to the words at every position
that is in one of them, and `has_put`, `has_drop` what this makes of `has`.
-/

import NpAlloc.Bitset.OneWord

set_option linter.unusedSectionVars false

namespace NpAlloc.Bitset

variable {TSize : Nat} {b : Bitset TSize} {p q i j : Nat} {build : Build}

/-! ### Positions and words -/

/-- The words have room for all positions, and the last one is needed. -/
theorem room : TSize ≤ 64 * kSubIndexCount TSize ∧ 64 * kSubIndexCount TSize < TSize + 64 := by
  unfold kSubIndexCount kSubIndexSize
  omega

/-- A word; behind the end there is none. -/
def word (b : Bitset TSize) (i : Nat) : Bitset64 := b.sub_index_[i]?.getD .new

/-- A position is in the words. -/
def has (b : Bitset TSize) (p : Nat) : Bool := (b.word (p / 64)).has (p % 64)

theorem word_eq (inside : i < kSubIndexCount TSize) : b.word i = b.sub_index_[i] := by
  unfold word
  rw [Vector.getElem?_eq_getElem inside, Option.getD_some]

theorem has_word (small : j < 64) : b.has (64 * i + j) = (b.word i).has j := by
  have here : (64 * i + j) / 64 = i := by omega
  have place : (64 * i + j) % 64 = j := by omega
  unfold has
  rw [here, place]

/-- A word is not zero when one of its positions is there. -/
theorem word_nonzero_iff : (b.word i).bits_ ≠ 0 ↔ ∃ p, p / 64 = i ∧ b.has p = true := by
  rw [Bitset64.nonzero_iff]
  constructor
  · rintro ⟨j, small, set_⟩
    exact ⟨64 * i + j, by omega, by rwa [has_word small]⟩
  · rintro ⟨p, rfl, set_⟩
    exact ⟨p % 64, by omega, set_⟩

theorem word_new : (new : Bitset TSize).word i = .new := by
  unfold word new
  rw [Vector.getElem?_replicate]
  split <;> rfl

theorem has_new : (new : Bitset TSize).has p = false := by
  unfold has
  rw [word_new]
  exact Bitset64.has_new

theorem word_map {f : Bitset64 → Bitset64} {index : Bitset64} (inside : i < kSubIndexCount TSize) :
    (⟨index, b.sub_index_.map f⟩ : Bitset TSize).word i = f (b.word i) := by
  rw [word_eq inside, word_eq inside]
  exact Vector.getElem_map f inside

/-- One word is replaced. -/
theorem word_replace {index new_ : Bitset64} (inside : i < kSubIndexCount TSize) :
    (⟨index, b.sub_index_.setIfInBounds i new_⟩ : Bitset TSize).word j
      = if j = i then new_ else b.word j := by
  unfold word
  simp only [Vector.getElem?_setIfInBounds, if_pos inside]
  by_cases same : j = i
  · rw [if_pos same, if_pos same.symm, Option.getD_some]
  · rw [if_neg same, if_neg (Ne.symm same)]

/-! ### A position more, a position less -/

/-- The words with a position more. -/
def put (b : Bitset TSize) (p : Nat) : Bitset TSize :=
  ⟨b.index_.put (p / 64), b.sub_index_.setIfInBounds (p / 64) ((b.word (p / 64)).put (p % 64))⟩

/-- The words without a position. -/
def drop (b : Bitset TSize) (p : Nat) : Bitset TSize :=
  ⟨if ((b.word (p / 64)).drop (p % 64)).bits_ = 0 then b.index_.drop (p / 64) else b.index_,
    b.sub_index_.setIfInBounds (p / 64) ((b.word (p / 64)).drop (p % 64))⟩

theorem word_put (inside : p / 64 < kSubIndexCount TSize) :
    (b.put p).word i = if i = p / 64 then (b.word i).put (p % 64) else b.word i := by
  unfold put
  rw [word_replace inside]
  split
  · rename_i same
    rw [same]
  · rfl

theorem word_drop (inside : p / 64 < kSubIndexCount TSize) :
    (b.drop p).word i = if i = p / 64 then (b.word i).drop (p % 64) else b.word i := by
  unfold drop
  rw [word_replace inside]
  split
  · rename_i same
    rw [same]
  · rfl

/-- Two positions are the same when they are in the same place of the same word. -/
theorem same_place (word : q / 64 = p / 64) : decide (q % 64 = p % 64) = decide (q = p) := by
  refine decide_eq_decide.mpr ⟨fun place => ?_, fun same => by rw [same]⟩
  omega

theorem has_put (inside : p / 64 < kSubIndexCount TSize) :
    (b.put p).has q = (decide (q = p) || b.has q) := by
  unfold has
  rw [word_put inside]
  by_cases here : q / 64 = p / 64
  · rw [if_pos here, Bitset64.has_put (by omega), same_place here]
  · have other : q ≠ p := fun same => here (by rw [same])
    rw [if_neg here, decide_eq_false other, Bool.false_or]

theorem has_drop (inside : p / 64 < kSubIndexCount TSize) :
    (b.drop p).has q = (!decide (q = p) && b.has q) := by
  unfold has
  rw [word_drop inside]
  by_cases here : q / 64 = p / 64
  · rw [if_pos here, Bitset64.has_drop (by omega) (by omega), same_place here]
  · have other : q ≠ p := fun same => here (by rw [same])
    rw [if_neg here, decide_eq_false other, Bool.not_false, Bool.true_and]

/-! ### The operations -/

theorem getSubpos_eq (accepted : p ≤ TSize) : getSubpos build TSize p = .ok ⟨p / 64, p % 64⟩ :=
  if_neg fun aborted => aborted.2 accepted

theorem sub_eq (inside : i < kSubIndexCount TSize) : b.sub i = .ok (b.word i) := by
  unfold sub
  rw [word_eq inside, Vector.getElem?_eq_getElem inside]

theorem sub_error (outside : ¬ i < kSubIndexCount TSize) : b.sub i = .error .bounds := by
  unfold sub
  rw [Vector.getElem?_eq_none (by omega)]

section Operations

variable (accepted : p ≤ TSize) (inside : p / 64 < kSubIndexCount TSize)
include accepted inside

theorem get_eq : b.get build p = .ok (b.has p) := by
  unfold get
  rw [getSubpos_eq accepted]
  simp only [bind, Except.bind, sub_eq inside]
  exact Bitset64.get_eq (by omega)

theorem set_eq (small : p / 64 < 64) : b.set build p = .ok (b.put p) := by
  have place : p % 64 < 64 := by omega
  unfold set
  rw [getSubpos_eq accepted]
  simp only [bind, Except.bind, sub_eq inside, Bitset64.set_eq small, Bitset64.set_eq place]
  rfl

theorem clear_eq (small : p / 64 < 64) : b.clear build p = .ok (b.drop p,
    decide (((b.word (p / 64)).drop (p % 64)).bits_ = 0) &&
      decide ((b.index_.drop (p / 64)).bits_ = 0)) := by
  have place : p % 64 < 64 := by omega
  unfold clear drop
  rw [getSubpos_eq accepted]
  simp only [bind, Except.bind, sub_eq inside, Bitset64.clear_eq small, Bitset64.clear_eq place]
  by_cases zero : ((b.word (p / 64)).drop (p % 64)).bits_ = 0
  · simp only [zero, decide_true, if_true, Bool.true_and]
    rfl
  · simp only [zero, decide_false, if_false, Bool.false_and, Bool.false_eq_true]
    rfl

end Operations

end NpAlloc.Bitset
