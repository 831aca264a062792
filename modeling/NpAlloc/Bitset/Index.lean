/-
**The index of the words is right, and finds the first position.**

`Inv b A tail` holds of the words of a `bitset` after every history: below `TSize` they hold the positions
of `A`; the places behind, in the last word and in the index, all hold `tail`, which is what the last
`set_all` or `clear_all` left there; and a word is in the index when it is not zero.

* `Inv.apply` — every operation keeps it;
* `Inv.run` — so after any history `A` is what the last operation about each position made of it;
* **`index_in_step`** — the index, `get` and `get_frist` after any history.
-/

import NpAlloc.Bitset.Words

set_option linter.unusedSectionVars false

namespace NpAlloc

namespace Bitset

variable {TSize : Nat} {b b' : Bitset TSize} {p q i : Nat} {build : Build} {A : Nat → Bool} {tail : Bool}

/-! ### The invariant -/

/-- **What the words hold.** -/
structure Inv (b : Bitset TSize) (A : Nat → Bool) (tail : Bool) : Prop where
  holds : ∀ p < TSize, b.has p = A p
  rest : ∀ p, TSize ≤ p → p / 64 < kSubIndexCount TSize → b.has p = tail
  index : ∀ i < kSubIndexCount TSize, b.index_.has i = true ↔ (b.word i).bits_ ≠ 0
  beyond : ∀ i, kSubIndexCount TSize ≤ i → i < 64 → b.index_.has i = tail

/-- The static assertions of the template. -/
structure Sizes (TSize : Nat) : Prop where
  low : 64 < TSize
  high : kSubIndexCount TSize ≤ 64

theorem Sizes.of (low : 64 < TSize) (high : TSize ≤ 4096) : Sizes TSize := by
  refine ⟨low, ?_⟩
  have space := @room TSize
  omega

/-- A position below the size is in a word, and its word in the index. -/
theorem Sizes.inside (sizes : Sizes TSize) (below : p < TSize) :
    p / 64 < kSubIndexCount TSize ∧ p / 64 < 64 := by
  have space := @room TSize
  have high := sizes.high
  omega

theorem Inv.new : Inv (.new : Bitset TSize) (lastOf []) (filled []) := by
  refine ⟨fun p _ => has_new, fun p _ _ => has_new, fun i _ => ?_, fun i _ _ => Bitset64.has_new⟩
  rw [word_new]
  show Bitset64.new.has i = true ↔ Bitset64.new.bits_ ≠ 0
  rw [Bitset64.has_new]
  simp [Bitset64.new]

/-- The same positions. -/
theorem Inv.congr {B : Nat → Bool} (inv : Inv b A tail) (same : ∀ p, A p = B p) : Inv b B tail :=
  (funext same : A = B) ▸ inv

theorem Inv.put (inv : Inv b A tail) (sizes : Sizes TSize) (below : p < TSize) :
    Inv (b.put p) (fun q => decide (q = p) || A q) tail := by
  obtain ⟨inside, small⟩ := sizes.inside below
  have index : ∀ i, (b.put p).index_.has i = (decide (i = p / 64) || b.index_.has i) := fun i =>
    Bitset64.has_put small
  refine ⟨fun q within => ?_, fun q behind within => ?_, fun i within => ?_, fun i behind within => ?_⟩
  · rw [has_put inside, inv.holds q within]
  · rw [has_put inside, inv.rest q behind within, decide_eq_false (by omega), Bool.false_or]
  · rw [index, word_nonzero_iff]
    simp only [has_put inside, Bool.or_eq_true, decide_eq_true_eq]
    rw [inv.index i within, word_nonzero_iff]
    constructor
    · rintro (rfl | ⟨q, word, set_⟩)
      · exact ⟨p, rfl, .inl rfl⟩
      · exact ⟨q, word, .inr set_⟩
    · rintro ⟨q, word, rfl | set_⟩
      · exact .inl word.symm
      · exact .inr ⟨q, word, set_⟩
  · rw [index, inv.beyond i behind within, decide_eq_false (by omega), Bool.false_or]

theorem Inv.drop (inv : Inv b A tail) (sizes : Sizes TSize) (below : p < TSize) :
    Inv (b.drop p) (fun q => !decide (q = p) && A q) tail := by
  obtain ⟨inside, small⟩ := sizes.inside below
  refine ⟨fun q within => ?_, fun q behind within => ?_, fun i within => ?_, fun i behind within => ?_⟩
  · rw [has_drop inside, inv.holds q within]
  · rw [has_drop inside, inv.rest q behind within, decide_eq_false (by omega), Bool.not_false,
      Bool.true_and]
  · rw [word_drop inside]
    by_cases here : i = p / 64
    · subst here
      rw [if_pos rfl]
      show (if _ then b.index_.drop (p / 64) else b.index_).has (p / 64) = true ↔ _
      by_cases zero : ((b.word (p / 64)).drop (p % 64)).bits_ = 0
      · rw [if_pos zero, Bitset64.has_drop small small]
        simp [zero]
      · rw [if_neg zero, inv.index _ inside]
        refine ⟨fun _ => zero, fun _ empty => ?_⟩
        have none_ := Bitset64.zero_iff.mp empty
        refine zero (Bitset64.zero_iff.mpr fun j within => ?_)
        rw [Bitset64.has_drop (by omega) within, none_ j within, Bool.and_false]
    · rw [if_neg here, ← inv.index i within]
      show (if _ then b.index_.drop (p / 64) else b.index_).has i = true ↔ _
      split
      · rw [Bitset64.has_drop small (within.trans_le sizes.high), decide_eq_false here, Bool.not_false,
          Bool.true_and]
      · exact Iff.rfl
  · rw [← inv.beyond i behind within]
    have other : i ≠ p / 64 := by omega
    show (if _ then b.index_.drop (p / 64) else b.index_).has i = _
    split
    · rw [Bitset64.has_drop small within, decide_eq_false other, Bool.not_false, Bool.true_and]
    · rfl

/-- All words become the same. -/
theorem Inv.fill (sizes : Sizes TSize) {f : Bitset64 → Bitset64} {value : Bool}
    (all : ∀ word : Bitset64, ∀ i < 64, (f word).has i = value) :
    Inv (⟨f b.index_, b.sub_index_.map f⟩ : Bitset TSize) (fun _ => value) value := by
  have same : ∀ p, p / 64 < kSubIndexCount TSize →
      (⟨f b.index_, b.sub_index_.map f⟩ : Bitset TSize).has p = value := by
    intro p inside
    unfold has
    rw [word_map inside]
    exact all _ _ (by omega)
  refine ⟨fun p below => same p (sizes.inside below).1, fun p _ inside => same p inside,
    fun i inside => ?_, fun i _ within => all _ i within⟩
  have small : i < 64 := inside.trans_le sizes.high
  rw [word_map inside, Bitset64.nonzero_iff, all _ i small]
  constructor
  · intro set_
    exact ⟨0, by decide, by rw [all _ 0 (by decide), set_]⟩
  · rintro ⟨j, within, set_⟩
    rwa [all _ j within] at set_

/-- **Every operation keeps the invariant.** -/
theorem Inv.apply (build : Build) (inv : Inv b A tail) (sizes : Sizes TSize) (op : Op)
    (within : op.Within TSize) :
    ∃ b', (bitsetOf build TSize).apply b op = .ok b' ∧
      Inv b' (fun pos => if op.affects pos then op.leaves else A pos)
        (if op.bulk then op.leaves else tail) := by
  cases op with
  | set pos =>
    obtain ⟨inside, small⟩ := sizes.inside within
    exact ⟨b.put pos, set_eq within.le inside small, (inv.put sizes within).congr fun q => Op.after_set⟩
  | clear pos =>
    obtain ⟨inside, small⟩ := sizes.inside within
    refine ⟨b.drop pos, ?_, (inv.drop sizes within).congr fun q => Op.after_clear⟩
    show (b.clear build pos).bind _ = _
    rw [clear_eq within.le inside small]
    rfl
  | setAll => exact ⟨_, rfl, Inv.fill sizes fun _ _ inside => Bitset64.has_setAll inside⟩
  | clearAll => exact ⟨_, rfl, Inv.fill sizes fun _ _ _ => Bitset64.has_clearAll⟩

/-- **After every history** the words hold what the last operations made of the positions. -/
theorem Inv.run (build : Build) (sizes : Sizes TSize) (ops : List Op)
    (within : ∀ op ∈ ops, op.Within TSize) :
    ∃ b : Bitset TSize, (bitsetOf build TSize).run ops = .ok b ∧ Inv b (lastOf ops) (filled ops) := by
  induction ops using List.reverseRecOn with
  | nil => exact ⟨.new, rfl, .new⟩
  | append_singleton ops op ih =>
    obtain ⟨b, ran, inv⟩ := ih fun op member => within op (List.mem_append_left _ member)
    obtain ⟨b', next, after⟩ := inv.apply build sizes op (within op (by simp))
    refine ⟨b', ?_, ?_⟩
    · rw [Instantiation.run_snoc, ran]
      exact next
    · rw [filled_snoc]
      exact after.congr fun pos => lastOf_snoc.symm

/-! ### The first position -/

/-- No word in front of the first one of the index has a position. -/
theorem Inv.before_index (inv : Inv b A tail) (inside : p / 64 < kSubIndexCount TSize)
    (front : p / 64 < b.index_.getFrist) : b.has p = false := by
  by_contra set_
  have nonzero : (b.word (p / 64)).bits_ ≠ 0 := word_nonzero_iff.mpr ⟨p, rfl, by simpa using set_⟩
  have here := (inv.index _ inside).mpr nonzero
  rw [Bitset64.getFrist_first.before _ (Nat.zero_le _) front] at here
  cases here

/-- **`get_frist` finds the first position**: where the places behind `TSize` are filled, the first of them
is `TSize` itself. -/
theorem Inv.getFrist_first (inv : Inv b A tail) (sizes : Sizes TSize) :
    ∃ first, b.getFrist = .ok first ∧ First A TSize 0 first := by
  have index : First b.index_.has 64 0 b.index_.getFrist := Bitset64.getFrist_first
  have space := @room TSize
  unfold getFrist
  by_cases empty : kSubIndexCount TSize ≤ b.index_.getFrist
  · refine ⟨TSize, if_pos empty, Nat.zero_le _, le_rfl, fun less => absurd less (lt_irrefl _), ?_⟩
    intro q _ below
    obtain ⟨inside, _⟩ := sizes.inside below
    rw [← inv.holds q below]
    exact inv.before_index inside (inside.trans_le empty)
  · set idx := b.index_.getFrist
    have inside : idx < kSubIndexCount TSize := Nat.not_le.mp empty
    have first : First (b.word idx).has 64 0 (b.word idx).getFrist := Bitset64.getFrist_first
    have small := Bitset64.getFrist_lt ((inv.index idx inside).mp (index.holds (inside.trans_le sizes.high)))
    set place := (b.word idx).getFrist
    have found : b.has (64 * idx + place) = true := by
      rw [has_word small]
      exact first.holds small
    have before : ∀ q < 64 * idx + place, b.has q = false := by
      intro q less
      by_cases front : q / 64 < idx
      · exact inv.before_index (front.trans inside) front
      · have same : 64 * idx + q % 64 = q := by omega
        rw [← same, has_word (by omega)]
        exact first.before _ (Nat.zero_le _) (by omega)
    -- a place behind `TSize` is filled only if the first of them is
    have bound : 64 * idx + place ≤ TSize := by
      by_contra behind
      have last := inv.rest (64 * idx + place) (by omega) (by omega)
      have end_ := inv.rest TSize le_rfl (by omega)
      rw [before TSize (by omega), ← last, found] at end_
      cases end_
    refine ⟨64 * idx + place, ?_, Nat.zero_le _, bound, fun below => ?_, fun q _ less => ?_⟩
    · rw [if_neg empty, sub_eq inside, Nat.mul_comm 64 idx]
      rfl
    · rw [← inv.holds _ below]
      exact found
    · rw [← inv.holds q (less.trans_le bound)]
      exact before q less

/-! ### The result -/

/-- **The two levels after a history.** -/
structure InStep (build : Build) (ops : List Op) (b : Bitset TSize) : Prop where
  /-- A word is in the index exactly when it is not zero. -/
  index : ∀ i (inside : i < kSubIndexCount TSize), b.index_.get i = .ok true ↔ b.sub_index_[i].bits_ ≠ 0
  /-- `get` answers what the last operation about the position made of it. -/
  get : ∀ pos < TSize, b.get build pos = .ok (lastOf ops pos)
  /-- `get_frist` finds the first position, or `TSize`. -/
  first : ∃ first, b.getFrist = .ok first ∧ First (fun pos => b.get build pos = .ok true) TSize 0 first

/-- **The index and the words stay in step** through every history of `set`, `clear`, `set_all` and
`clear_all`, for every size. -/
theorem index_in_step (build : Build) (TSize : Nat) (low : 64 < TSize) (high : TSize ≤ 4096)
    (ops : List Op) (within : ∀ op ∈ ops, op.Within TSize) :
    ∃ b : Bitset TSize, (bitsetOf build TSize).run ops = .ok b ∧ InStep build ops b := by
  have sizes := Sizes.of low high
  obtain ⟨b, ran, inv⟩ := Inv.run build sizes ops within
  have answers : ∀ pos < TSize, b.get build pos = .ok (lastOf ops pos) := by
    intro pos below
    rw [get_eq below.le (sizes.inside below).1, inv.holds pos below]
  refine ⟨b, ran, fun i inside => ?_, answers, ?_⟩
  · rw [Bitset64.get_eq (inside.trans_le sizes.high), Except.ok.injEq, inv.index i inside, word_eq inside]
  · obtain ⟨first, found, least⟩ := inv.getFrist_first sizes
    refine ⟨first, found, least.congr fun pos _ below => ?_⟩
    rw [answers pos below]
    simp

/-- A position more than a word has, and one of them left. -/
theorem index_in_step_one : ∃ b : Bitset 65,
    (bitsetOf .debug 65).run [.setAll, .clear 0, .set 64] = .ok b ∧
      InStep .debug [.setAll, .clear 0, .set 64] b :=
  index_in_step .debug 65 (by decide) (by decide) _ (by decide)

end Bitset

end NpAlloc
