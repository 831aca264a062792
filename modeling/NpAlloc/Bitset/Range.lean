/-
**`get_subpos` accepts one position too many.**

Its assertion is `pos <= kIndexSize`, and `pos_` of an `end()` iterator is `kIndexSize`. When `TSize` is
not a multiple of 64 that place is in the last word, and no position below `TSize` is disturbed there; when
it is one, the place is behind the last word, and `get`, `set` and `clear` leave the array.

* **`positions_in_range_iff`** — which of the accepted positions are in range;
* `end_out_of_range` — an `end()` iterator over 128 positions.
-/

import NpAlloc.Bitset.Words

set_option linter.unusedSectionVars false

namespace NpAlloc

/-- `pos_` of `end()`. -/
def Instantiation.endPos (I : Instantiation) : Nat := I.toPos I.size

namespace Bitset

variable {TSize : Nat} {b : Bitset TSize} {build : Build} {pos : Nat}

/-- **A position with which `get`, `set` and `clear` stay inside the object**, and `set` to itself. -/
structure InRange (build : Build) (b : Bitset TSize) (pos : Nat) : Prop where
  index : ∃ subpos, getSubpos build TSize pos = .ok subpos ∧ subpos.idx < kSubIndexCount TSize
  reads : ∃ answer, b.get build pos = .ok answer
  sets : ∃ b', b.set build pos = .ok b' ∧
    ∀ q < TSize, q ≠ pos → b'.get build q = b.get build q
  clears : ∃ b' last, b.clear build pos = .ok (b', last)

/-- The word of an accepted position is there, except at the end of full words. -/
theorem word_inside_iff (accepted : pos ≤ TSize) :
    pos / 64 < kSubIndexCount TSize ↔ pos < TSize ∨ TSize % 64 ≠ 0 := by
  unfold kSubIndexCount kSubIndexSize
  omega

theorem inRange_of (accepted : pos ≤ TSize) (inside : pos / 64 < kSubIndexCount TSize)
    (high : kSubIndexCount TSize ≤ 64) : InRange build b pos := by
  have small : pos / 64 < 64 := inside.trans_le high
  refine ⟨⟨_, getSubpos_eq accepted, inside⟩, ⟨_, get_eq accepted inside⟩,
    ⟨_, set_eq accepted inside small, fun q below other => ?_⟩, ⟨_, _, clear_eq accepted inside small⟩⟩
  have there : q / 64 < kSubIndexCount TSize := (word_inside_iff below.le).mpr (.inl below)
  rw [get_eq below.le there, get_eq below.le there, has_put inside, decide_eq_false other, Bool.false_or]

/-- **Which accepted positions are in range**: all below the size, and the size itself when it is not a
multiple of 64. -/
theorem positions_in_range_iff (build : Build) (TSize : Nat) (low : 64 < TSize) (high : TSize ≤ 4096)
    (b : Bitset TSize) (pos : Nat) (accepted : pos ≤ TSize) :
    InRange build b pos ↔ pos < TSize ∨ TSize % 64 ≠ 0 := by
  have space := @room TSize
  constructor
  · rintro ⟨⟨subpos, place, inside⟩, _⟩
    rw [getSubpos_eq accepted, Except.ok.injEq] at place
    subst place
    exact (word_inside_iff accepted).mp inside
  · intro condition
    exact inRange_of accepted ((word_inside_iff accepted).mpr condition) (by omega)

/-- The end of 65 positions. -/
theorem positions_in_range_last : InRange .debug (new : Bitset 65) 65 :=
  (positions_in_range_iff .debug 65 (by decide) (by decide) new 65 (by decide)).mpr (.inr (by decide))

/-- What `get`, `set` and `clear` do with the end of full words, of which the index has one more. -/
theorem end_faults (build : Build) (b : Bitset TSize) (full : TSize % 64 = 0) (more : TSize / 64 < 64) :
    b.get build TSize = .error .bounds ∧ b.set build TSize = .error .bounds ∧
      b.clear build TSize = .error .bounds := by
  have outside : b.sub (TSize / 64) = .error .bounds := by
    refine sub_error ?_
    rw [word_inside_iff le_rfl]
    omega
  refine ⟨?_, ?_, ?_⟩
  · unfold get
    rw [getSubpos_eq le_rfl]
    simp only [bind, Except.bind, outside]
  · unfold set
    rw [getSubpos_eq le_rfl]
    simp only [bind, Except.bind, outside, Bitset64.set_eq more]
  · unfold clear
    rw [getSubpos_eq le_rfl]
    simp only [bind, Except.bind, outside]

/-- **`*end()`, `end().set()` and `end().clear()` over 128 positions** leave the array of words, in a
Debug build too. -/
theorem end_out_of_range : (bitset .debug 128).endPos = 128 ∧
    (bitset .debug 128).get (bitset .debug 128).new 128 = .error .bounds ∧
    (bitset .debug 128).set (bitset .debug 128).new 128 = .error .bounds ∧
    (bitset .debug 128).clear (bitset .debug 128).new 128 = .error .bounds ∧
    ¬ InRange .debug (new : Bitset 128) 128 := by
  obtain ⟨reads, sets, clears⟩ := end_faults .debug (new : Bitset 128) rfl (by decide)
  refine ⟨rfl, reads, sets, clears, fun inRange => ?_⟩
  obtain ⟨answer, read⟩ := inRange.reads
  rw [reads] at read
  cases read

end Bitset

end NpAlloc
