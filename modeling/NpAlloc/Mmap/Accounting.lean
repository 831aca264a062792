/-
**The counters of `np::mmap` and the number of chunks in each place.**

* `Counters s` — `perf_alloc` lags the chunks issued by the calls that have not bumped it yet, and
  `perf_alloc + perf_alloc_from_free - perf_dealloc` is what the clients hold plus what their calls
  still owe the counters.
* `Places.census` — the ownership partition counted: the chunks issued are the chunks of the free
  stack and those of all threads.

With no operation in progress nothing is owed and no call has a chunk in its hand, so the counters
and the census are statements about the clients alone (`quiescent_census`, `quiescent_perfAlloc`,
`quiescent_held`).
-/

import NpAlloc.Mmap.Places
import Mathlib.Algebra.BigOperators.Group.Finset.Basic
import Mathlib.Algebra.Order.BigOperators.Group.Finset
import Mathlib.Tactic.LinearCombination

set_option linter.unusedSectionVars false

namespace NpAlloc.Mmap

variable {T : Type} [DecidableEq T] [Fintype T] {s s' : State T} {t : T}

/-! ### The counters -/

/-- A chunk issued to a call that has not counted it in `perf_alloc` yet. -/
def Pc.uncounted : Pc → Nat
  | .newCommit _ | .newCount _ => 1
  | _ => 0

/-- A chunk the counters give to the client while its call still has it. -/
def Pc.owed : Pc → Nat
  | .allocRet ptr => if ptr = 0 then 0 else 1
  | .freePush | .freeCount => 1
  | _ => 0

/-- What the counters give to a thread. -/
def credit (s : State T) (t : T) : Nat := (s.ghost.held t).length + (s.pc t).owed

/-- **The counters.** -/
structure Counters (s : State T) : Prop where
  issued : s.perfAlloc + BitVec.ofNat 64 (∑ t, (s.pc t).uncounted)
    = BitVec.ofNat 64 s.ghost.issued.length
  held : s.perfAlloc + s.perfAllocFromFree = s.perfDealloc + BitVec.ofNat 64 (∑ t, credit s t)

/-- A sum over all threads changes by the change at the one thread that moves. -/
theorem sum_step (before after : T → Nat) (others : ∀ u, u ≠ t → after u = before u) :
    ∑ u, after u + before t = ∑ u, before u + after t := by
  rw [← Finset.add_sum_erase _ after (Finset.mem_univ t),
    ← Finset.add_sum_erase _ before (Finset.mem_univ t)]
  have same : ∑ u ∈ Finset.univ.erase t, after u = ∑ u ∈ Finset.univ.erase t, before u :=
    Finset.sum_congr rfl fun u member => others u (Finset.ne_of_mem_erase member)
  omega

/-- **The rule for one step**: `alloc`, `free` and `dealloc` are what it adds to the counters. -/
theorem Counters.of_step (counters : Counters s) (alloc free dealloc : Nat)
    (perfAlloc : s'.perfAlloc = s.perfAlloc + BitVec.ofNat 64 alloc)
    (perfFree : s'.perfAllocFromFree = s.perfAllocFromFree + BitVec.ofNat 64 free)
    (perfDealloc : s'.perfDealloc = s.perfDealloc + BitVec.ofNat 64 dealloc)
    (pc : ∀ u, u ≠ t → s'.pc u = s.pc u) (held : ∀ u, u ≠ t → s'.ghost.held u = s.ghost.held u)
    (issued : alloc + (s'.pc t).uncounted + s.ghost.issued.length
      = (s.pc t).uncounted + s'.ghost.issued.length)
    (owed : alloc + free + credit s t = dealloc + credit s' t) : Counters s' := by
  have uncounted := sum_step (t := t) (fun u => (s.pc u).uncounted) (fun u => (s'.pc u).uncounted)
    fun u other => by simp only [pc u other]
  have credits := sum_step (t := t) (credit s) (credit s') fun u other => by
    unfold credit
    rw [pc u other, held u other]
  refine ⟨?_, ?_⟩
  · have total : alloc + ∑ u, (s'.pc u).uncounted + s.ghost.issued.length
        = ∑ u, (s.pc u).uncounted + s'.ghost.issued.length := by omega
    have words := congrArg (BitVec.ofNat 64) total
    simp only [BitVec.ofNat_add] at words
    rw [perfAlloc]
    linear_combination counters.issued + words
  · have total : alloc + free + ∑ u, credit s u = dealloc + ∑ u, credit s' u := by omega
    have words := congrArg (BitVec.ofNat 64) total
    simp only [BitVec.ofNat_add] at words
    rw [perfAlloc, perfFree, perfDealloc]
    linear_combination counters.held + words

/-- **Every admitted step keeps the counters.** -/
theorem Counters.moves (counters : Counters s) (places : Places s) (moved : Moves s t s') :
    Counters s' := by
  -- a step that counts nothing
  have quiet (perfAlloc : s'.perfAlloc = s.perfAlloc)
      (perfFree : s'.perfAllocFromFree = s.perfAllocFromFree)
      (perfDealloc : s'.perfDealloc = s.perfDealloc)
      (pc : ∀ u, u ≠ t → s'.pc u = s.pc u) (held : ∀ u, u ≠ t → s'.ghost.held u = s.ghost.held u)
      (issued : (s'.pc t).uncounted + s.ghost.issued.length
        = (s.pc t).uncounted + s'.ghost.issued.length)
      (owed : credit s t = credit s' t) : Counters s' :=
    counters.of_step 0 0 0 (by simp [perfAlloc]) (by simp [perfFree]) (by simp [perfDealloc]) pc held
      (by omega) (by omega)
  have moves (pc : Pc) : ∀ u, u ≠ t → Function.update s.pc t pc u = s.pc u :=
    fun u other => Function.update_of_ne other _ _
  cases moved with
  | callAlloc here | callCount here | popped ptr here done | poppedNull here done | null here
  | next head here some_ | pushed here result done | detached result here done | walkEnd c here
  | walk ptr c here | walked next c here result done =>
    refine quiet rfl rfl rfl (moves _) (fun _ _ => rfl) ?_ ?_ <;>
      simp [credit, State.goto, State.inner, State.keep, here, Pc.owed, Pc.uncounted]
  | load here =>
    refine quiet rfl rfl rfl (moves _) (fun _ _ => rfl) ?_ ?_ <;>
      rcases here with here | ⟨head, next, here⟩ <;>
      simp [credit, State.goto, here, Pc.owed, Pc.uncounted]
  | ret here =>
    refine quiet rfl rfl rfl (moves _) (fun _ _ => rfl) ?_ ?_ <;>
      rcases here with here | ⟨c, here⟩ <;>
      simp [credit, State.goto, here, Pc.owed, Pc.uncounted]
  | internal freeHead moved => exact quiet rfl rfl rfl (fun _ _ => rfl) (fun _ _ => rfl) rfl rfl
  | write chunk link here holds =>
    exact quiet rfl rfl rfl (fun _ _ => rfl) (fun _ _ => rfl) rfl rfl
  | commit head here =>
    refine quiet rfl rfl rfl (moves _) (fun _ _ => rfl) ?_ ?_ <;>
      simp [credit, State.goto, here, Pc.owed, Pc.uncounted]
  | callFree ptr here holds =>
    have length := List.length_erase_add_one holds
    refine quiet rfl rfl rfl (moves _) (fun u other => Function.update_of_ne other _ _) ?_ ?_
    · simp [State.inner, State.hold, here, Pc.uncounted]
    · simp [credit, State.inner, State.hold, here, Pc.owed, length]
  | retAlloc ptr here =>
    refine quiet rfl rfl rfl (moves _) (fun u other => Function.update_of_ne other _ _) ?_ ?_
    · simp [State.goto, State.hold, here, Pc.uncounted]
    · by_cases null : ptr = 0 <;> simp [credit, State.goto, State.hold, here, Pc.owed, null]
  | reuse ptr here =>
    have some_ := places.hand_pos (t := t) (by
      rw [here]
      exact List.mem_singleton_self ptr)
    refine counters.of_step 0 1 0 (by simp [State.goto]) rfl (by simp [State.goto]) (moves _)
      (fun _ _ => rfl) ?_ ?_ <;>
      simp [credit, State.goto, here, Pc.owed, Pc.uncounted, some_]
    omega
  | count head here =>
    have some_ := places.hand_pos (t := t) (by
      rw [here]
      exact List.mem_singleton_self head)
    refine counters.of_step 1 0 0 rfl (by simp [State.goto]) (by simp [State.goto]) (moves _)
      (fun _ _ => rfl) ?_ ?_ <;>
      simp [credit, State.goto, here, Pc.owed, Pc.uncounted, some_]
    omega
  | issue next here bound =>
    refine quiet rfl rfl rfl (moves _) (fun _ _ => rfl) ?_ ?_ <;>
      simp [credit, State.issue, here, Pc.owed, Pc.uncounted]
    omega
  | dealloc here =>
    refine counters.of_step 0 0 1 (by simp [State.goto]) (by simp [State.goto]) rfl (moves _)
      (fun _ _ => rfl) ?_ ?_ <;>
      simp [credit, State.goto, here, Pc.owed, Pc.uncounted]
    omega

theorem Counters.init (start : Init s) : Counters s := by
  have uncounted : ∀ t, (s.pc t).uncounted = 0 := fun t => by rw [start.pc]; rfl
  have credits : ∀ t, credit s t = 0 := fun t => by
    unfold credit
    rw [start.pc, start.held]
    rfl
  refine ⟨?_, ?_⟩
  · simp [uncounted, start.perfAlloc, start.issued]
  · simp [credits, start.perfAlloc, start.perfAllocFromFree, start.perfDealloc]

/-- **Structure and counters hold in every reachable state.** -/
theorem Counters.reachable (reached : (machine T).Reachable Admitted s) : Places s ∧ Counters s :=
  Machine.invariant (I := fun s => Places s ∧ Counters s)
    (fun _ start => ⟨.init start, .init start⟩)
    (fun _ _ _ both admitted next =>
      have moved := moves_of_step admitted.1 admitted.2 next
      ⟨both.1.moves moved, both.2.moves both.1 moved⟩) reached

/-! ### The census -/

namespace Places

theorem stack_nodup (places : Places s) : s.freeHead.ghost.stack.Nodup :=
  places.stack.chain.nodup

/-- **No two threads own the same chunk.** -/
theorem disjoint (places : Places s) {t u : T} (other : t ≠ u) :
    List.Disjoint (belongings s t) (belongings s u) := by
  intro chunk mine theirs
  rw [← places.owned] at mine theirs
  rw [mine, LfStack.Owner.client.injEq] at theirs
  exact other theirs

/-- No thread owns a chunk of the free stack. -/
theorem not_free (places : Places s) {chunk : Nat} (free : chunk ∈ s.freeHead.ghost.stack) :
    chunk ∉ belongings s t := by
  intro mine
  rw [← places.owned, (places.stack.owned chunk).mp free] at mine
  cases mine

/-- **A chunk issued is in exactly one place.** -/
theorem issued_iff (places : Places s) (chunk : Nat) :
    (∃ i < s.ghost.issued.length, chunk = chunkAt s.ptr_ i) ↔
      chunk ∈ s.freeHead.ghost.stack ∨ ∃ t, chunk ∈ belongings s t := by
  rw [← places.born, places.stack.owned]
  simp only [← places.owned]
  cases s.freeHead.ghost.owner chunk <;> simp

/-- **The census.** -/
theorem census (places : Places s) :
    s.ghost.issued.length = s.freeHead.ghost.stack.length + ∑ t, (belongings s t).length := by
  have threads : (Finset.univ.biUnion fun t => (belongings s t).toFinset).card
      = ∑ t, (belongings s t).length := by
    rw [Finset.card_biUnion]
    · exact Finset.sum_congr rfl fun t _ => List.toFinset_card_of_nodup (places.nodup t)
    · exact fun t _ u _ other => List.disjoint_toFinset_iff_disjoint.mpr (places.disjoint other)
  have apart : Disjoint s.freeHead.ghost.stack.toFinset
      (Finset.univ.biUnion fun t => (belongings s t).toFinset) := by
    rw [Finset.disjoint_left]
    intro chunk free owned
    obtain ⟨t, _, mine⟩ := Finset.mem_biUnion.mp owned
    exact places.not_free (List.mem_toFinset.mp free) (List.mem_toFinset.mp mine)
  have everything : (Finset.range s.ghost.issued.length).image (chunkAt s.ptr_)
      = s.freeHead.ghost.stack.toFinset ∪ Finset.univ.biUnion fun t => (belongings s t).toFinset := by
    ext chunk
    simp only [Finset.mem_image, Finset.mem_range, Finset.mem_union, List.mem_toFinset,
      Finset.mem_biUnion, Finset.mem_univ, true_and]
    rw [← places.issued_iff]
    exact exists_congr fun i => and_congr_right fun _ => eq_comm
  have count := congrArg Finset.card everything
  rw [Finset.card_image_of_injective _ (chunkAt_injective _), Finset.card_range,
    Finset.card_union_of_disjoint apart, List.toFinset_card_of_nodup places.stack_nodup,
    threads] at count
  exact count

/-- Where the frontier stands, as a number of chunks. -/
theorem frontier_index (places : Places s) :
    (s.head_ - s.ptr_) / kDefaultChunkSize = s.ghost.issued.length := by
  rw [places.frontier, chunkAt, Nat.add_sub_cancel_left, Nat.mul_div_cancel _ (by decide)]

/-- Fewer chunks than addresses. -/
theorem issued_lt (places : Places s) : s.ghost.issued.length < 2 ^ 64 := by
  have frontier := places.frontier
  have inside := places.inside
  have space := places.space
  unfold chunkAt kDefaultChunkSize at frontier
  omega

end Places

/-! ### When no operation is in progress -/

/-- A thread between calls owns what its client holds. -/
theorem Places.belongings_idle (places : Places s) (idle : s.pc t = .idle) :
    belongings s t = s.ghost.held t := by
  rw [belongings_at idle (places.inner_idle (by rw [idle]; rfl)),
    places.rest_nil (by rw [idle]; rfl)]
  simp [Pc.hand, LfStack.Pc.hand]

/-- **Issued chunks are free or held.** -/
theorem Places.quiescent_census (places : Places s) (quiescent : s.Quiescent) :
    s.ghost.issued.length = s.freeHead.ghost.stack.length + ∑ t, (s.ghost.held t).length := by
  rw [places.census]
  congr 1
  exact Finset.sum_congr rfl fun t _ => by rw [places.belongings_idle (quiescent t)]

/-- **`get_total_allocated` is the number of chunks issued.** -/
theorem Counters.quiescent_perfAlloc (counters : Counters s) (places : Places s)
    (quiescent : s.Quiescent) : s.getTotalAllocated.toNat = s.ghost.issued.length := by
  have none_ : ∑ t, (s.pc t).uncounted = 0 :=
    Finset.sum_eq_zero fun t _ => by rw [quiescent t]; rfl
  have issued := counters.issued
  rw [none_] at issued
  have words : s.perfAlloc = BitVec.ofNat 64 s.ghost.issued.length := by simpa using issued
  unfold State.getTotalAllocated
  rw [words, BitVec.toNat_ofNat, Nat.mod_eq_of_lt places.issued_lt]

/-- **`perf_alloc + perf_alloc_from_free - perf_dealloc` is the number of chunks held.** -/
theorem Counters.quiescent_held (counters : Counters s) (places : Places s)
    (quiescent : s.Quiescent) :
    (s.perfAlloc + s.perfAllocFromFree - s.perfDealloc).toNat = ∑ t, (s.ghost.held t).length := by
  have credits : ∑ t, credit s t = ∑ t, (s.ghost.held t).length :=
    Finset.sum_congr rfl fun t _ => by
      unfold credit
      rw [quiescent t]
      rfl
  have held := counters.held
  rw [credits] at held
  have words : s.perfAlloc + s.perfAllocFromFree - s.perfDealloc
      = BitVec.ofNat 64 (∑ t, (s.ghost.held t).length) := by
    linear_combination held
  have census := places.quiescent_census quiescent
  have small := places.issued_lt
  rw [words, BitVec.toNat_ofNat, Nat.mod_eq_of_lt (by omega)]

end NpAlloc.Mmap
