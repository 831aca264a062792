/-
**What the fences detect.**

`alloc` puts 16 bytes of a pattern in front of what it hands out and 16 bytes behind it, and `dealloc`
asserts that they are still there. Whatever the program has done by then, and wherever it wrote: the
assertion fails exactly when a byte of the block's own fences was changed, at the `np_free` of that block
and of no other. A Release build goes on.

* `load_injective` — a word tells its bytes;
* `fencesHold_iff` — the four words are compared byte by byte;
* **`fences_detect`** — at every `np_free`, after any damage that spares the sizes.
-/

import NpAlloc.Threads.Frames

set_option linter.unusedSectionVars false

namespace NpAlloc.Threads

open Mmap Pool

variable {T : Type} [DecidableEq T] {s : State T} {n : Nat} {t : T} {b : Block (Index T)}
  {mem mem' : Memory} {base bytes : Nat}

/-- **A word tells its bytes.** -/
theorem load_injective {a w : Nat} (same : load mem' a w = load mem a w) : SameOn mem mem' a w := by
  induction w generalizing a with
  | zero => exact fun x low high => by omega
  | succ w ih =>
    unfold load at same
    have one := (mem' a).isLt
    have other := (mem a).isLt
    have rest := ih (a := a + 1) (by omega)
    intro x low high
    by_cases first : x = a
    · subst first
      exact BitVec.eq_of_toNat_eq (by omega)
    · exact rest x (by omega) (by omega)

/-- Two words side by side are their bytes. -/
theorem sameOn_words (a : Nat) : SameOn mem mem' a 16 ↔
    load mem' a 8 = load mem a 8 ∧ load mem' (a + 8) 8 = load mem (a + 8) 8 := by
  constructor
  · intro same
    exact ⟨load_congr (same.mono (by omega) (by omega)), load_congr (same.mono (by omega) (by omega))⟩
  · rintro ⟨first, second⟩ x low high
    by_cases less : x < a + 8
    · exact load_injective first x low less
    · exact load_injective second x (by omega) (by omega)

/-- **The fences of a block hold** exactly where its 32 bytes are those of an intact one. -/
theorem fencesHold_iff (intact : Intact mem base bytes) (fits : base + blockSize bytes < 2 ^ 64) :
    fencesHold mem' (base + headerSize) bytes = true ↔
      SameOn mem mem' (base + 32) 16 ∧ SameOn mem mem' (base + 48 + bytes) 16 := by
  have post := postPad_eq fits
  have header : headerSize = 32 := by decide
  have fences := intact.fences
  unfold fencesHold at fences ⊢
  rw [header] at fences post ⊢
  rw [post] at fences ⊢
  obtain ⟨first, second, third, fourth⟩ := of_decide_eq_true fences
  rw [sameOn_words, sameOn_words, decide_eq_true_iff, first, second, third, fourth, and_assoc]

/-- **A byte of the block's fences was changed.** -/
def Damaged (s : State T) (mem : Memory) (b : Block (Index T)) : Prop :=
  ∃ x, (Within (b.base + 32) 16 x ∨ Within (b.base + 48 + b.bytes) 16 x) ∧ mem x ≠ s.mem x

/-- What is not damaged is the same. -/
theorem not_damaged_iff : ¬ Damaged s mem b ↔
    SameOn s.mem mem (b.base + 32) 16 ∧ SameOn s.mem mem (b.base + 48 + b.bytes) 16 := by
  unfold Damaged Within SameOn
  constructor
  · intro none_
    refine ⟨fun x low high => ?_, fun x low high => ?_⟩
    · by_contra changed
      exact none_ ⟨x, .inl ⟨low, high⟩, changed⟩
    · by_contra changed
      exact none_ ⟨x, .inr ⟨low, high⟩, changed⟩
  · rintro ⟨pre, post⟩ ⟨x, ⟨low, high⟩ | ⟨low, high⟩, changed⟩
    · exact changed (pre x low high)
    · exact changed (post x low high)

/-- **`dealloc` of a block whose size was spared.** -/
theorem dealloc_spared (intact : Intact s.mem b.base b.bytes)
    (fits : b.base + blockSize b.bytes < 2 ^ 64) (shape : b.ptr = b.base + 48)
    (spared : SameOn s.mem mem b.base 8) (build : Build) (pool : ThreadPool) :
    (build = .debug ∧ Damaged s mem b → pool.dealloc build mem b.ptr = .error .aborted) ∧
    (¬ (build = .debug ∧ Damaged s mem b) → ∃ result, pool.dealloc build mem b.ptr = .ok result) := by
  have start : b.base + 48 - headerSize - 16 = b.base := by
    have header : headerSize = 32 := by decide
    omega
  have size : load mem b.base 8 = b.bytes := by
    rw [load_congr spared, intact.size]
  have holds : fencesHold mem (b.base + headerSize) b.bytes = true ↔ _ := fencesHold_iff intact fits
  rw [← not_damaged_iff] at holds
  have fails : fencesHold mem (b.base + headerSize) b.bytes = false ↔ Damaged s mem b := by
    rw [← Bool.not_eq_true, holds, not_not]
  rw [shape]
  unfold ThreadPool.dealloc
  simp only [start, size]
  refine ⟨fun damaged => if_pos ⟨damaged.1, fails.mpr damaged.2⟩, fun fine => ?_⟩
  rw [if_neg fun both => fine ⟨both.1, fails.mp both.2⟩]
  split <;> exact ⟨_, rfl⟩

/-- **What becomes of an `np_free`** in a state whose memory was overwritten. -/
structure Detects (s : State T) (mem : Memory) (t : T) (b : Block (Index T)) : Prop where
  /-- The assertion fails exactly in a Debug build, for a damaged block. -/
  aborts : ∀ build, (s.pool t).dealloc build mem b.ptr = .error .aborted ↔ build = .debug ∧ Damaged s mem b
  /-- Otherwise the block is freed. -/
  freed : ∀ build, ¬ (build = .debug ∧ Damaged s mem b) →
    ∃ s', ({ s with mem := mem } : State T).step build (.free t b.ptr) = some s' ∧
      s'.live = s.live.erase b

/-- **The fences detect exactly the damage done to them.** In every run of any threads, whose chunks are
handed over settled, let the memory then be overwritten in any way that spares the sizes in the headers.
The `np_free` of a live block, by any thread between two calls, fails its assertion exactly when a byte of
the 16 before or the 16 behind the block was changed, in a Debug build; otherwise the block is freed. -/
theorem fences_detect (build : Build) (n : Nat) (s : State T)
    (reached : (machine T build n).Reachable (fun s act => Supplied n s act ∧ Orderly s act) s)
    (mem : Memory) (spared : ∀ b ∈ s.live, SameOn s.mem mem b.base 8) (t : T)
    (idle : s.phase t = .idle) : ∀ b ∈ s.live, Detects s mem t b := by
  have inv : Inv n s := Machine.invariant (fun _ => .init)
    (fun _ _ _ before admitted next => before.orderly_step admitted.1 admitted.2 next) reached
  intro b member
  obtain ⟨shape, fits⟩ := inv.housing.shape b member
  have answer := fun build => dealloc_spared (inv.housing.intact b member) fits shape
    (spared b member) build (s.pool t)
  refine ⟨fun build => ⟨fun error => ?_, (answer build).1⟩, fun build fine => ?_⟩
  · by_contra fine
    obtain ⟨result, ok⟩ := (answer build).2 fine
    rw [ok] at error
    cases error
  · obtain ⟨⟨origin, pool, after⟩, ok⟩ := (answer build).2 fine
    have freed : ({ s with mem := mem } : State T).freeWith build t b
        = some (({ s with mem := mem } : State T).withoutBlock t pool after b) := by
      unfold State.freeWith
      simp only [ok]
    exact ⟨_, Moves.step (.free idle (inv.housing.find member) freed), rfl⟩

/-- One byte before the block is changed: a Debug build stops at its `np_free`. -/
theorem fences_detect_underrun : ∃ (s : State Bool) (b : Block (Index Bool)) (mem : Memory),
    (machine Bool .debug 1).Exec (fun s act => Supplied 1 s act ∧ Orderly s act) State.pair pairCalls s ∧
    s.live = [b] ∧ Damaged s mem b ∧ Detects s mem false b := by
  obtain ⟨s, b, run, inv, _, idle, live, _⟩ := pair_orderly .debug
  let mem := Function.update s.mem (b.base + 47) (s.mem (b.base + 47) + 1)
  have damaged : Damaged s mem b := by
    refine ⟨b.base + 47, .inl ⟨by omega, by omega⟩, ?_⟩
    show Function.update s.mem (b.base + 47) (s.mem (b.base + 47) + 1) (b.base + 47) ≠ _
    rw [Function.update_self]
    intro same
    have values := congrArg BitVec.toNat same
    rw [BitVec.toNat_add] at values
    have bound := (s.mem (b.base + 47)).isLt
    have one : (1 : BitVec 8).toNat = 1 := rfl
    omega
  refine ⟨s, b, mem, run, live, damaged, ?_⟩
  refine fences_detect .debug 1 s ⟨State.pair, pairCalls, State.pair_init, run⟩ mem ?_ false idle b ?_
  · rw [live]
    intro c member x low high
    rw [List.mem_singleton.mp member] at low high
    exact Function.update_of_ne (by omega) _ _
  · rw [live]
    exact List.mem_cons_self

end NpAlloc.Threads
