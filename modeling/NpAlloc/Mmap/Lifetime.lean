/-
**The reservation of `global_pool`, from its constructor to `~mmap`.**

The constructor asks for the default size first, and then for one half of it after the other, down to
64 MB; each `reserve` makes 16 attempts. What the system answers is arbitrary.

* `tries` — the attempts in their order, over all sizes;
* `globalPool_eq` — the constructor takes the first of them that is granted;
* **`pool_lifetime`** — the process then has this region and no other, its base and size are recorded, and
  `~mmap` gives back exactly this region, on both platforms;
* `globalPool_sequential` — without the regions this is the constructor of `Mmap.Sequential`.
-/

import NpAlloc.Mmap.Reserve

set_option linter.unusedSectionVars false

namespace NpAlloc.Mmap.Reserve

variable {platform : Platform} {virtualReserve : Nat → Nat → Nat → Nat} {s : State} {size : Nat}

/-! ### The constructor and the destructor -/

/-- A `mmap` before `reserve`, in a process that has reserved nothing. -/
def State.new : State := ⟨0, 0, 0, Bitset.new, []⟩

/-- The loop of the constructor of `global_pool`. -/
def fallback (platform : Platform) (virtualReserve : Nat → Nat → Nat → Nat) (s : State) (size : Nat) :
    State :=
  if 64 * 1024 * 1024 ≤ size then
    let (reserved, s) := reserve platform virtualReserve s size
    if reserved ≠ 0 then s else fallback platform virtualReserve s (size / 2)
  else s
termination_by size
decreasing_by omega

/-- The constructor of `global_pool`. -/
def globalPool (platform : Platform) (virtualReserve : Nat → Nat → Nat → Nat) (s : State) : State :=
  let (reserved, s) := reserve platform virtualReserve s kDefaultWholeChunkSize
  if reserved ≠ 0 then s else fallback platform virtualReserve s (kDefaultWholeChunkSize / 2)

/-- The regions, with their sizes, that are left after `~mmap`. `VirtualFree` releases the region at an
address; `munmap` a region, if it is asked for all of it. -/
def destroy (platform : Platform) (mapped : List (Nat × Nat)) (s : State) : List (Nat × Nat) :=
  if s.ptr_ = 0 then mapped
  else match platform with
    | .windows => mapped.eraseP fun region => region.1 = s.ptr_
    | .posix => if 0 < s.size_ then mapped.erase (s.ptr_, s.size_) else mapped

/-! ### The attempts in their order -/

/-- The sizes the constructor asks for: 64 MB and its doubles, the largest first. -/
def halves : Nat → List Nat
  | 0 => [64 * 1024 * 1024]
  | k + 1 => 2 ^ (k + 1) * (64 * 1024 * 1024) :: halves k

/-- The attempts of one `reserve`. -/
def triesAt (size : Nat) : List (Nat × Nat) := (List.range 16).map fun i => (size, i)

/-- **The attempts of the constructor**, each a size and its number. -/
def tries : List (Nat × Nat) := (halves 6).flatMap triesAt

/-- The system grants an attempt. -/
def granted (virtualReserve : Nat → Nat → Nat → Nat) (attempt : Nat × Nat) : Bool :=
  virtualReserve attempt.2 (attemptAt attempt.2) attempt.1 ≠ 0

/-- What a granted attempt leaves behind. -/
def install (virtualReserve : Nat → Nat → Nat → Nat) (s : State) (attempt : Nat × Nat) : State :=
  let v := virtualReserve attempt.2 (attemptAt attempt.2) attempt.1
  { s with ptr_ := v, size_ := attempt.1, alloc_chunk_index_ := s.alloc_chunk_index_.clearAll,
           head_ := v, regions := v :: s.regions }

/-- **One `reserve` takes the first attempt that is granted.** -/
theorem reserve_eq (platform : Platform) (virtualReserve : Nat → Nat → Nat → Nat) (size : Nat)
    (fresh : s.ptr_ = 0) : reserve platform virtualReserve s size
      = ((triesAt size).find? (granted virtualReserve)).elim (0, s)
          fun attempt => (size, install virtualReserve s attempt) := by
  unfold reserve triesAt
  generalize List.range 16 = attempts
  induction attempts with
  | nil => rfl
  | cons i rest ih =>
    unfold reserveFrom
    rw [List.map_cons]
    by_cases success : virtualReserve i (attemptAt i) size ≠ 0
    · have grants : granted virtualReserve (size, i) = true := decide_eq_true success
      rw [List.find?_cons_of_pos grants]
      simp only [if_pos success, fresh, if_true]
      rfl
    · have denies : ¬ granted virtualReserve (size, i) = true := fun grants =>
        success (of_decide_eq_true grants)
      rw [List.find?_cons_of_neg denies]
      simp only [if_neg success]
      exact ih

/-- The `reserve` of one size after the other. -/
def reserveEach (platform : Platform) (virtualReserve : Nat → Nat → Nat → Nat) : List Nat → State → State
  | [], s => s
  | size :: rest, s =>
    let (reserved, s) := reserve platform virtualReserve s size
    if reserved ≠ 0 then s else reserveEach platform virtualReserve rest s

/-- The loop halves. -/
theorem fallback_eq (k : Nat) : fallback platform virtualReserve s (2 ^ k * (64 * 1024 * 1024))
    = reserveEach platform virtualReserve (halves k) s := by
  induction k generalizing s with
  | zero =>
    rw [fallback, if_pos (by omega), halves, reserveEach]
    simp only [pow_zero, Nat.one_mul]
    split
    · rfl
    · rw [fallback, if_neg (by omega)]
      rfl
  | succ k ih =>
    have large : 64 * 1024 * 1024 ≤ 2 ^ (k + 1) * (64 * 1024 * 1024) :=
      Nat.le_mul_of_pos_left _ (Nat.two_pow_pos _)
    have half : 2 ^ (k + 1) * (64 * 1024 * 1024) / 2 = 2 ^ k * (64 * 1024 * 1024) := by
      rw [Nat.pow_succ]
      omega
    rw [fallback, if_pos large, halves, reserveEach, half]
    simp only [ih]

/-- The sizes are whole numbers of chunks, between 64 and all of them. -/
theorem halves_chunks : ∀ size ∈ halves 6, ∃ n, 64 ≤ n ∧ n ≤ kDefaultChunkCount ∧
    size = n * kDefaultChunkSize := by
  intro size member
  simp only [halves, List.mem_cons, List.not_mem_nil, or_false] at member
  rcases member with rfl | rfl | rfl | rfl | rfl | rfl | rfl
  · exact ⟨4096, by decide, by decide, by decide⟩
  · exact ⟨2048, by decide, by decide, by decide⟩
  · exact ⟨1024, by decide, by decide, by decide⟩
  · exact ⟨512, by decide, by decide, by decide⟩
  · exact ⟨256, by decide, by decide, by decide⟩
  · exact ⟨128, by decide, by decide, by decide⟩
  · exact ⟨64, by decide, by decide, by decide⟩

/-- **The sizes one after the other** are the attempts one after the other. -/
theorem reserveEach_eq {sizes : List Nat} (positive : ∀ size ∈ sizes, size ≠ 0) (fresh : s.ptr_ = 0) :
    reserveEach platform virtualReserve sizes s
      = ((sizes.flatMap triesAt).find? (granted virtualReserve)).elim s (install virtualReserve s) := by
  induction sizes with
  | nil => rfl
  | cons size rest ih =>
    rw [reserveEach, reserve_eq platform virtualReserve size fresh, List.flatMap_cons, List.find?_append]
    cases found : (triesAt size).find? (granted virtualReserve) with
    | none =>
      simp only [Option.elim_none, ne_eq, not_true, if_false, Option.none_or]
      exact ih fun other member => positive other (.tail _ member)
    | some attempt =>
      simp only [Option.elim_some, Option.some_or]
      exact if_pos (positive size List.mem_cons_self)

/-- **The constructor takes the first attempt that is granted.** -/
theorem globalPool_eq (platform : Platform) (virtualReserve : Nat → Nat → Nat → Nat) (fresh : s.ptr_ = 0) :
    globalPool platform virtualReserve s
      = (tries.find? (granted virtualReserve)).elim s (install virtualReserve s) := by
  have whole : kDefaultWholeChunkSize = 2 ^ 6 * (64 * 1024 * 1024) := by decide
  have half : kDefaultWholeChunkSize / 2 = 2 ^ 5 * (64 * 1024 * 1024) := by decide
  have each : globalPool platform virtualReserve s
      = reserveEach platform virtualReserve (halves 6) s := by
    unfold globalPool
    rw [half, whole]
    simp only [fallback_eq]
    rfl
  rw [each]
  refine reserveEach_eq (fun size member => ?_) fresh
  obtain ⟨n, many, _, rfl⟩ := halves_chunks size member
  unfold kDefaultChunkSize
  omega

/-! ### The result -/

/-- **The pool that got a region**: its fields describe the region, the process has no other, and the
destructor gives back all of it. -/
structure Holds (platform : Platform) (v size : Nat) (s : State) : Prop where
  base : v ≠ 0 ∧ s.ptr_ = v
  frontier : s.head_ = v
  recorded : s.size_ = size
  chunks : ∃ n, 64 ≤ n ∧ n ≤ kDefaultChunkCount ∧ size = n * kDefaultChunkSize
  regions : s.regions = [v]
  /-- Of whatever is mapped, the destructor gives back this region and no other. -/
  returned : ∀ before after, (∀ region ∈ before, region.1 ≠ v) →
    destroy platform (before ++ (v, size) :: after) s = before ++ after

/-- **The life of the reservation.** Whatever the system answers: the first attempt it grants, in the
order of the sizes and the addresses, decides which region the pool has from its constructor to its
destructor; if it grants none the pool has none, and the destructor gives nothing back. -/
theorem pool_lifetime (platform : Platform) (virtualReserve : Nat → Nat → Nat → Nat) :
    (∀ before size i after, tries = before ++ (size, i) :: after →
      (∀ attempt ∈ before, ¬ granted virtualReserve attempt) → granted virtualReserve (size, i) →
        Holds platform (virtualReserve i (attemptAt i) size) size
          (globalPool platform virtualReserve .new)) ∧
    ((∀ attempt ∈ tries, ¬ granted virtualReserve attempt) →
      globalPool platform virtualReserve .new = .new ∧ ∀ mapped, destroy platform mapped .new = mapped) := by
  have constructed := globalPool_eq (s := .new) platform virtualReserve rfl
  refine ⟨fun before size i after split failed success => ?_, fun failed => ⟨?_, fun _ => rfl⟩⟩
  · have first : tries.find? (granted virtualReserve) = some (size, i) := by
      rw [List.find?_eq_some_iff_append]
      exact ⟨success, before, after, split, fun attempt member => by simpa using failed attempt member⟩
    rw [first, Option.elim_some] at constructed
    rw [constructed]
    have some_ : virtualReserve i (attemptAt i) size ≠ 0 := of_decide_eq_true success
    have asked : size ∈ halves 6 := by
      have member : (size, i) ∈ tries := by
        rw [split]
        exact List.mem_append_right _ List.mem_cons_self
      obtain ⟨other, asked, here⟩ := List.mem_flatMap.mp member
      obtain ⟨_, _, same⟩ := List.mem_map.mp here
      rwa [← (Prod.mk.inj same).1]
    obtain ⟨n, many, few, chunks⟩ := halves_chunks size asked
    refine ⟨⟨some_, rfl⟩, rfl, rfl, ⟨n, many, few, chunks⟩, rfl, fun earlier later distinct => ?_⟩
    have positive : 0 < size := by
      rw [chunks]
      unfold kDefaultChunkSize
      omega
    unfold destroy install
    simp only [if_neg some_, if_pos positive]
    cases platform with
    | windows =>
      simp only
      rw [List.eraseP_append_right _ fun region member => by simpa using distinct region member,
        List.eraseP_cons_of_pos (by simp)]
    | posix =>
      simp only
      rw [List.erase_append_right _ fun member => distinct _ member rfl, List.erase_cons_head]
  · have none_ : tries.find? (granted virtualReserve) = none :=
      List.find?_eq_none.mpr fun attempt member => by simpa using failed attempt member
    rw [constructed, none_]
    rfl

/-- The system grants 64 MB at an address of its own, and nothing before. -/
theorem pool_lifetime_smallest :
    let virtualReserve : Nat → Nat → Nat → Nat := fun i _ size =>
      if i = 15 ∧ size = 64 * 1024 * 1024 then 0x7f0000000000 else 0
    Holds .posix 0x7f0000000000 (64 * 1024 * 1024) (globalPool .posix virtualReserve .new) := by
  intro virtualReserve
  refine (pool_lifetime .posix virtualReserve).1 (tries.take 111) (64 * 1024 * 1024) 15 [] ?_ ?_ ?_
  · decide
  · decide
  · decide

/-! ### The constructor of `Mmap.Sequential` -/

/-- **Without the regions this is the constructor of `Mmap.Sequential`.** -/
theorem globalPool_sequential (platform : Platform) {answer : Nat → Nat → Option Nat}
    (present : ∀ address size, answer address size ≠ some 0) :
    Sequential.globalPool answer
      = (globalPool platform (fun _ address size => (answer address size).getD 0) .new).forget .new := by
  have loop : ∀ (k : Nat) (s : State), Sequential.fallback answer (s.forget .new) k
      = (fallback platform (fun _ address size => (answer address size).getD 0) s k).forget .new := by
    intro k
    induction k using Nat.strong_induction_on with
    | _ k ih =>
      intro s
      unfold Sequential.fallback fallback
      rw [reserve_sequential platform present .new s k]
      split
      · simp only
        split
        · rfl
        · exact ih (k / 2) (by omega) _
      · rfl
  have start : Sequential.Pool.new = State.new.forget .new := rfl
  unfold Sequential.globalPool globalPool
  rw [start, reserve_sequential platform present .new .new kDefaultWholeChunkSize]
  simp only
  split
  · rfl
  · exact loop _ _

end NpAlloc.Mmap.Reserve
