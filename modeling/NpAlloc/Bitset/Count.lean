/-
**`count`, and what `clear` returns, are wrong after `set_all`.**

`set_all` also fills the places behind `TSize`. `count` counts those in the last word, and the index does
not become zero while one of those in the index or in the last word is filled, so that `clear` does not
see that it has cleared the last position.

* `count_eq` — what `count` counts;
* `Inv.index_zero_iff` — when the index is zero;
* **`cardinality_iff`** — for every size and history, `count` is right exactly when `set_all` was not
  called since the last `clear_all`, or the size is a multiple of 64; and what `clear` returns exactly when
  `set_all` was not called, or no place is behind the size, or another position is there.
-/

import NpAlloc.Bitset.Index

set_option linter.unusedSectionVars false

namespace NpAlloc

namespace Bitset

variable {TSize : Nat} {b : Bitset TSize} {p q i : Nat} {build : Build} {A : Nat → Bool} {tail : Bool}

/-! ### What is counted -/

/-- The sum over the words is the number of positions in them. -/
theorem words_count (words : List Bitset64) : words.foldl (fun c sub => c + sub.count) 0
    = (List.range (64 * words.length)).countP
      fun p => (words[p / 64]?.getD .new).has (p % 64) := by
  induction words using List.reverseRecOn with
  | nil => rfl
  | append_singleton words word ih =>
    have length : 64 * (words ++ [word]).length = 64 * words.length + 64 := by
      rw [List.length_append, List.length_singleton, Nat.mul_add]
    rw [List.foldl_append, List.foldl_cons, List.foldl_nil, ih, length, List.range_add,
      List.countP_append, List.countP_map, Bitset64.count_eq]
    congr 1
    · refine List.countP_congr fun p member => ?_
      have inside : p / 64 < words.length := by
        have below := List.mem_range.mp member
        omega
      rw [List.getElem?_append_left inside]
    · refine List.countP_congr fun j member => ?_
      have small := List.mem_range.mp member
      have last : (64 * words.length + j) / 64 = words.length := by omega
      have place : (64 * words.length + j) % 64 = j := by omega
      simp only [Function.comp_apply, last, place, List.getElem?_concat_length, Option.getD_some]

theorem count_eq : b.count = (List.range (64 * kSubIndexCount TSize)).countP b.has := by
  have sum := words_count b.sub_index_.toList
  rw [Vector.length_toList] at sum
  unfold count
  rw [← Vector.foldl_toList, sum]
  refine List.countP_congr fun p _ => ?_
  unfold has word
  rw [Vector.getElem?_toList]

/-- The filled places behind `TSize` are counted too. -/
theorem Inv.count_eq (inv : Inv b A tail) : b.count
    = (List.range TSize).countP A + if tail then 64 * kSubIndexCount TSize - TSize else 0 := by
  have space := @room TSize
  have split : 64 * kSubIndexCount TSize = TSize + (64 * kSubIndexCount TSize - TSize) := by omega
  rw [Bitset.count_eq]
  nth_rewrite 1 [split]
  rw [List.range_add, List.countP_append, List.countP_map]
  congr 1
  · refine List.countP_congr fun p member => ?_
    rw [inv.holds p (List.mem_range.mp member)]
  · have behind : ∀ j ∈ List.range (64 * kSubIndexCount TSize - TSize),
        (b.has ∘ fun j => TSize + j) j = true ↔ (fun _ => tail) j = true := by
      intro j member
      have below := List.mem_range.mp member
      rw [Function.comp_apply, inv.rest _ (by omega) (by omega)]
    rw [List.countP_congr behind]
    cases tail <;> simp

/-! ### What `clear` returns -/

/-- **When the index is zero**: no position is left, and no place behind is filled. -/
theorem Inv.index_zero_iff (inv : Inv b A tail) (sizes : Sizes TSize) :
    b.index_.bits_ = 0 ↔ (∀ q < TSize, A q = false) ∧ (tail = false ∨ TSize = 4096) := by
  have space := @room TSize
  have high := sizes.high
  have words : ∀ i < kSubIndexCount TSize, b.index_.has i = false ↔ ∀ q, q / 64 = i → b.has q = false := by
    intro i inside
    rw [← Bool.not_eq_true, inv.index i inside, word_nonzero_iff]
    simp only [not_exists, not_and, Bool.not_eq_true]
  rw [Bitset64.zero_iff]
  constructor
  · intro zero
    refine ⟨fun q below => ?_, ?_⟩
    · obtain ⟨inside, small⟩ := sizes.inside below
      rw [← inv.holds q below]
      exact (words _ inside).mp (zero _ small) q rfl
    · by_contra filled
      push Not at filled
      by_cases short : kSubIndexCount TSize < 64
      · exact filled.1 ((inv.beyond _ le_rfl short).symm.trans (zero _ short))
      · have last : TSize / 64 < kSubIndexCount TSize := by omega
        have none_ := (words _ last).mp (zero _ (by omega)) TSize rfl
        exact filled.1 ((inv.rest TSize le_rfl last).symm.trans none_)
  · rintro ⟨none_, unfilled⟩ i small
    by_cases inside : i < kSubIndexCount TSize
    · refine (words i inside).mpr fun q word => ?_
      by_cases below : q < TSize
      · rw [inv.holds q below, none_ q below]
      · rw [inv.rest q (by omega) (by omega)]
        exact unfilled.resolve_right (by omega)
    · rw [inv.beyond i (by omega) small]
      exact unfilled.resolve_right (by omega)

/-- **What `clear` returns** is whether the index has become zero. -/
theorem Inv.clear_eq (inv : Inv b A tail) (sizes : Sizes TSize) (below : p < TSize) :
    b.clear build p = .ok (b.drop p, decide ((b.drop p).index_.bits_ = 0)) := by
  obtain ⟨inside, small⟩ := sizes.inside below
  rw [Bitset.clear_eq below.le inside small]
  by_cases zero : ((b.word (p / 64)).drop (p % 64)).bits_ = 0
  · have index : (b.drop p).index_ = b.index_.drop (p / 64) := if_pos zero
    rw [index, decide_eq_true zero, Bool.true_and]
  · have some_ : (b.drop p).index_.bits_ ≠ 0 := by
      have nonzero : ((b.drop p).word (p / 64)).bits_ ≠ 0 := by
        rw [word_drop inside, if_pos rfl]
        exact zero
      exact Bitset64.nonzero_iff.mpr ⟨_, small, ((inv.drop sizes below).index _ inside).mpr nonzero⟩
    rw [decide_eq_false zero, decide_eq_false some_, Bool.false_and]

end Bitset

/-! ### The result -/

namespace Instantiation

/-- `count` is the number of positions below the size. -/
def Counts (I : Instantiation) (s : I.State) : Prop :=
  I.count s = (List.range I.size).countP fun pos => I.get s pos = .ok true

/-- `clear` of a position returns whether no position is left. -/
def Tells (I : Instantiation) (s : I.State) (pos : Nat) : Prop :=
  ∃ s' last, I.clear s pos = .ok (s', last) ∧ (last = true ↔ ∀ q < I.size, I.get s' q = .ok false)

end Instantiation

open Instantiation

/-- One word has no place behind its size. -/
theorem Bitset64.cardinality (ops : List Op) (within : ∀ op ∈ ops, op.Within 64) :
    ∃ s, bitset64.run ops = .ok s ∧ bitset64.Counts s ∧ ∀ pos < 64, bitset64.Tells s pos := by
  obtain ⟨b, ran, _⟩ := run_has ops within
  refine ⟨b, ran, ?_, fun pos inside => ⟨b.drop pos, _, clear_eq inside, ?_⟩⟩
  · refine count_eq.trans (List.countP_congr fun p member => ?_)
    have inside := List.mem_range.mp member
    show b.has p = true ↔ decide (b.get p = .ok true) = true
    rw [get_eq inside]
    simp
  · rw [decide_eq_true_eq, zero_iff]
    refine forall₂_congr fun q inside => ?_
    show (b.drop pos).has q = false ↔ (b.drop pos).get q = .ok false
    rw [get_eq inside, Except.ok.injEq]

theorem Bitset.cardinality (build : Build) {TSize : Nat} (sizes : Bitset.Sizes TSize) (ops : List Op)
    (within : ∀ op ∈ ops, op.Within TSize) :
    ∃ s, (bitsetOf build TSize).run ops = .ok s ∧
      ((bitsetOf build TSize).Counts s ↔ filled ops = false ∨ TSize % 64 = 0) ∧
      (∀ pos < TSize, ((bitsetOf build TSize).Tells s pos ↔ filled ops = false ∨ TSize = 4096 ∨
        ∃ q < TSize, q ≠ pos ∧ (bitsetOf build TSize).get s q = .ok true)) ∧
      ∀ pos < TSize, (bitsetOf build TSize).get s pos = .ok (lastOf ops pos) := by
  obtain ⟨b, ran, inv⟩ := Inv.run build sizes ops within
  have answers : ∀ (c : Bitset TSize) (q : Nat), q < TSize → c.get build q = .ok (c.has q) :=
    fun c q below => get_eq below.le (sizes.inside below).1
  refine ⟨b, ran, ?_, fun pos below => ?_, fun pos below => by
    rw [← inv.holds pos below]
    exact answers b pos below⟩
  · have space := @room TSize
    have number : (List.range TSize).countP (fun pos => b.get build pos = .ok true)
        = (List.range TSize).countP (lastOf ops) := by
      refine List.countP_congr fun p member => ?_
      have inside := List.mem_range.mp member
      rw [answers b p inside, inv.holds p inside]
      simp
    show b.count = (List.range TSize).countP (fun pos => b.get build pos = .ok true) ↔ _
    rw [inv.count_eq, number]
    cases filled ops
    · simp
    · simp only [if_true, Bool.true_eq_false, false_or]
      omega
  · have after := inv.drop sizes below
    have told : (bitsetOf build TSize).Tells b pos ↔ ((b.drop pos).index_.bits_ = 0 ↔
        ∀ q < TSize, (b.drop pos).get build q = .ok false) := by
      constructor
      · rintro ⟨s', last, cleared, right⟩
        obtain ⟨rfl, rfl⟩ := Prod.mk.inj (Except.ok.inj ((inv.clear_eq sizes below).symm.trans cleared))
        rwa [decide_eq_true_eq] at right
      · intro right
        exact ⟨_, _, inv.clear_eq sizes below, by rwa [decide_eq_true_eq]⟩
    have left : (∀ q < TSize, (b.drop pos).get build q = .ok false)
        ↔ ∀ q < TSize, (!decide (q = pos) && lastOf ops q) = false := by
      refine forall₂_congr fun q inside => ?_
      rw [answers _ q inside, after.holds q inside, Except.ok.injEq]
    have other : (∃ q < TSize, q ≠ pos ∧ b.get build q = .ok true)
        ↔ ¬ ∀ q < TSize, (!decide (q = pos) && lastOf ops q) = false := by
      push Not
      refine exists_congr fun q => and_congr_right fun inside => ?_
      rw [answers b q inside, inv.holds q inside, Except.ok.injEq]
      simp
    show _ ↔ filled ops = false ∨ TSize = 4096 ∨ ∃ q < TSize, q ≠ pos ∧ b.get build q = .ok true
    rw [told, left, after.index_zero_iff sizes, other, ← or_assoc]
    tauto

/-- **When `count` and what `clear` returns are right**, after any history of a `bitset` of any size. -/
theorem cardinality_iff (build : Build) (TSize : Nat) (low : 64 ≤ TSize) (high : TSize ≤ 4096)
    (ops : List Op) (within : ∀ op ∈ ops, op.Within TSize) :
    ∃ s, (bitset build TSize).run ops = .ok s ∧
      ((bitset build TSize).Counts s ↔ filled ops = false ∨ TSize % 64 = 0) ∧
      ∀ pos < TSize, ((bitset build TSize).Tells s pos ↔ filled ops = false ∨ TSize = 64 ∨ TSize = 4096 ∨
        ∃ q < TSize, q ≠ pos ∧ (bitset build TSize).get s q = .ok true) := by
  by_cases one : TSize = 64
  · subst one
    obtain ⟨s, ran, counts, tells⟩ := Bitset64.cardinality ops within
    exact ⟨s, ran, iff_of_true counts (.inr rfl), fun pos below =>
      iff_of_true (tells pos below) (.inr (.inl rfl))⟩
  · have general : bitset build TSize = bitsetOf build TSize := if_neg one
    rw [general]
    obtain ⟨s, ran, counts, tells, _⟩ :=
      Bitset.cardinality build (.of (lt_of_le_of_ne low (Ne.symm one)) high) ops within
    refine ⟨s, ran, counts, fun pos below => ?_⟩
    rw [tells pos below]
    simp only [one, false_or]

/-- A `bitset` of 100 positions that was filled, and then cleared but for two. -/
theorem cardinality_iff_hundred : ∃ s,
    (bitset .release 100).run [.setAll, .clearAll, .set 3, .set 70] = .ok s ∧
    (bitset .release 100).Counts s ∧ (bitset .release 100).Tells s 3 := by
  obtain ⟨s, ran, counts, tells⟩ := cardinality_iff .release 100 (by decide) (by decide)
    [.setAll, .clearAll, .set 3, .set 70] (by decide)
  exact ⟨s, ran, counts.mpr (.inl (by decide)), (tells 3 (by decide)).mpr (.inl (by decide))⟩

/-- **Wrong after `set_all`**: 128 positions of 100 are counted, and when the last of 65 is cleared,
`clear` does not say so. -/
theorem filled_miscounted :
    (∃ s, (bitset .release 100).run [.setAll] = .ok s ∧ ¬ (bitset .release 100).Counts s) ∧
    ∃ s, (bitset .release 65).run (.setAll :: (List.range 64).map .clear) = .ok s ∧
      ¬ (bitset .release 65).Tells s 64 := by
  constructor
  · have sizes : Bitset.Sizes 100 := .of (by decide) (by decide)
    obtain ⟨s, ran, counts, _⟩ := Bitset.cardinality .release sizes [.setAll] (by decide)
    exact ⟨s, ran, fun right => absurd (counts.mp right) (by decide)⟩
  · have sizes : Bitset.Sizes 65 := .of (by decide) (by decide)
    obtain ⟨s, ran, _, tells, answers⟩ := Bitset.cardinality .release sizes
      (.setAll :: (List.range 64).map .clear) (by decide)
    refine ⟨s, ran, fun right => ?_⟩
    rcases (tells 64 (by decide)).mp right with unfilled | size | ⟨q, below, other, set_⟩
    · exact absurd unfilled (by decide)
    · exact absurd size (by decide)
    · have cleared : ∀ q < 64, lastOf (.setAll :: (List.range 64).map .clear) q = false := by
        decide +kernel
      rw [answers q below, cleared q (by omega)] at set_
      cases Except.ok.inj set_

end NpAlloc
