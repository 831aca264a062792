/-
**What `alloc_chunk` gives out, up to the end of the reservation and after it.**

`Sound n k m`: the reservation has `n` whole chunks, the first `k` are issued, and the free stack
holds issued chunks. As long as no `alloc_chunk` is made on an exhausted pool every call keeps this;
then no assertion of the chunk arithmetic can fail and every chunk given out is whole
(`Sound.good`). `alloc_chunk_from_new` has no test for the end of the reservation but the assertion
in `get_chunk_ptr`, whose bound is the constant `kDefaultChunkCount`: on an exhausted pool the call
fails that assertion or moves `head_` past the end (`Sound.exhausted`).

* **`whole_chunks_iff`** — a sequence of calls meets `Good` at every `alloc_chunk` exactly if none of
  them is made on an exhausted pool.
* `exhausts` — every reservation can be exhausted.
-/

import NpAlloc.Mmap.Sequential
import Mathlib.Tactic.Linarith

set_option linter.unusedSectionVars false

namespace NpAlloc.Mmap.Sequential

variable {build : Build} {platform : Platform} {virtualReserve : Nat → Nat → Option Nat}

/-- The free stack is empty and every chunk of the reservation has been issued. -/
def Exhausted (m : Pool) : Prop := m.freeHead = [] ∧ m.head_ = m.ptr_ + m.size_

/-- A whole chunk inside the reservation. -/
def WholeChunk (m : Pool) (ptr : Nat) : Prop :=
  ∃ i, ptr = chunkAt m.ptr_ i ∧ ptr + kDefaultChunkSize ≤ m.ptr_ + m.size_

/-- **What an `alloc_chunk` promises.** -/
structure Good (build : Build) (platform : Platform) (m : Pool) (env : Env) : Prop where
  asserts : ∀ name, m.allocChunk build platform env = .error name → name.arithmetic = false
  whole : ∀ ptr m', m.allocChunk build platform env = .ok (ptr, m') → ptr ≠ 0 → WholeChunk m ptr
  exhausted : Exhausted m → ∃ m', m.allocChunk build platform env = .ok (0, m') ∧
    m'.head_ = m.head_ ∧ m'.log = m.log

/-- **The invariant of the pool**: `n` chunks in all, the first `k` issued. -/
structure Sound (n k : Nat) (m : Pool) : Prop where
  base : 0 < m.ptr_
  size : m.size_ = n * kDefaultChunkSize
  space : m.ptr_ + m.size_ < 2 ^ 64
  count : n ≤ getChunkCount
  issued : k ≤ n
  head : m.head_ = chunkAt m.ptr_ k
  free : ∀ ptr ∈ m.freeHead, ∃ i < k, ptr = chunkAt m.ptr_ i

/-! ### The chunk arithmetic -/

/-- An assertion that holds does nothing. -/
theorem assert_holds {condition : Bool} {name : Assertion} (holds : condition = true) :
    assert build condition name = .ok () := by
  unfold assert
  rw [holds]
  exact if_neg (by simp)

/-- An assertion that fails ends a Debug build only. -/
theorem assert_fails {condition : Bool} {name : Assertion} (fails : condition = false) :
    assert build condition name = if build = .debug then .error name else .ok () := by
  unfold assert
  rw [fails]
  simp

/-- `get_chunk_index` reads the base of the reservation only. -/
theorem chunkIndex_congr (m m' : Pool) (same : m'.ptr_ = m.ptr_) (ptr : Nat) :
    m'.chunkIndex build ptr = m.chunkIndex build ptr := by
  unfold Pool.chunkIndex
  rw [same]

/-- A Release build has no assertion. -/
theorem chunkIndex_release (m : Pool) (ptr : Nat) : ∃ i, m.chunkIndex .release ptr = .ok i := by
  unfold Pool.chunkIndex assert
  simp only [reduceCtorEq, false_and, if_false, bind, Except.bind]
  split
  · exact ⟨_, rfl⟩
  · exact ⟨_, rfl⟩

/-- What the counters and the log are no part of. -/
structure Kept (m m' : Pool) : Prop where
  ptr : m'.ptr_ = m.ptr_
  size : m'.size_ = m.size_
  head : m'.head_ = m.head_
  free : m'.freeHead = m.freeHead

/-- `virtual_alloc` gives the address or null, and changes nothing but the log. -/
theorem virtualAlloc_cases (platform : Platform) (m : Pool) (env : Env) (address : Nat) :
    ∃ m', (m.virtualAlloc platform env address = (address, m') ∨
      m.virtualAlloc platform env address = (0, m')) ∧ Kept m m' := by
  unfold Pool.virtualAlloc
  cases env.commit <;> cases platform <;> cases env.remap
  all_goals first
    | exact ⟨_, .inl rfl, rfl, rfl, rfl, rfl⟩
    | exact ⟨_, .inr rfl, rfl, rfl, rfl, rfl⟩

/-- **The commit of a chunk whose index passes the assertions**: granted, or refused. -/
theorem commitChunk_cases {m : Pool} {head i : Nat} (some_ : head ≠ 0)
    (index : m.chunkIndex build head = .ok i) (env : Env) :
    (∃ m', (m.commitChunk build platform env head = .ok (head, m') ∨
      m.commitChunk build platform env head = .ok (0, m')) ∧ Kept m m') ∨
    m.commitChunk build platform env head = .error .committed := by
  unfold Pool.commitChunk
  obtain ⟨m', granted | refused, kept⟩ := virtualAlloc_cases platform m env head
  · refine .inl ⟨{ m' with perfAlloc := m'.perfAlloc + 1 }, .inl ?_,
      kept.ptr, kept.size, kept.head, kept.free⟩
    rw [granted]
    simp only [assert_holds (decide_eq_true some_), bind, Except.bind, chunkIndex_congr m m' kept.ptr,
      index]
    rfl
  · rw [refused]
    cases build with
    | debug => exact .inr rfl
    | release =>
      obtain ⟨j, other⟩ := chunkIndex_release m 0
      refine .inl ⟨{ m' with perfAlloc := m'.perfAlloc + 1 }, .inr ?_,
        kept.ptr, kept.size, kept.head, kept.free⟩
      simp only [assert, reduceCtorEq, false_and, if_false, bind, Except.bind,
        chunkIndex_congr m m' kept.ptr, other]
      rfl

/-- A commit the system grants at once. -/
theorem commitChunk_granted (platform : Platform) {m : Pool} {head i : Nat} {env : Env} (some_ : head ≠ 0)
    (index : m.chunkIndex build head = .ok i) (grants : env.commit = true) :
    ∃ m', m.commitChunk build platform env head = .ok (head, m') ∧ Kept m m' := by
  let asked := { m with log := m.log ++ [Request.commit head] }
  refine ⟨{ asked with perfAlloc := asked.perfAlloc + 1 }, ?_, rfl, rfl, rfl, rfl⟩
  have answer : m.virtualAlloc platform env head = (head, asked) := by
    unfold Pool.virtualAlloc
    rw [grants]
    rfl
  unfold Pool.commitChunk
  rw [answer]
  simp only [assert_holds (decide_eq_true some_), bind, Except.bind, chunkIndex_congr m asked rfl,
    index]
  rfl

/-- The commit leaves the frontier alone. -/
theorem commitChunk_kept {m m' : Pool} {head ptr : Nat} {env : Env}
    (result : m.commitChunk build platform env head = .ok (ptr, m')) : Kept m m' := by
  unfold Pool.commitChunk at result
  obtain ⟨asked, answer, kept⟩ := virtualAlloc_cases platform m env head
  rcases answer with granted | refused
  · rw [granted] at result
    simp only [bind, Except.bind] at result
    split at result <;> try cases result
    split at result <;> cases result
    exact ⟨kept.ptr, kept.size, kept.head, kept.free⟩
  · rw [refused] at result
    simp only [bind, Except.bind] at result
    split at result <;> try cases result
    split at result <;> cases result
    exact ⟨kept.ptr, kept.size, kept.head, kept.free⟩

namespace Sound

variable {n k : Nat} {m : Pool}

/-- Every chunk up to the frontier has an address. -/
theorem fits (sound : Sound n k m) {i : Nat} (small : i ≤ n) : chunkAt m.ptr_ i < 2 ^ 64 := by
  have space := sound.space
  rw [sound.size] at space
  have less := Nat.mul_le_mul_right kDefaultChunkSize small
  unfold chunkAt
  omega

/-- The assertions of `get_chunk_index` hold of every chunk up to the frontier. -/
theorem chunkIndex_eq (build : Build) (sound : Sound n k m) {i : Nat} (small : i ≤ n) :
    m.chunkIndex build (chunkAt m.ptr_ i) = .ok i := by
  have fits := sound.fits small
  have base := sound.base
  have count := sound.count
  have offset : (chunkAt m.ptr_ i + (2 ^ 64 - m.ptr_)) % 2 ^ 64 = i * kDefaultChunkSize := by
    unfold chunkAt at fits ⊢
    omega
  have some_ : chunkAt m.ptr_ i ≠ 0 := by
    unfold chunkAt
    omega
  have quotient : i * kDefaultChunkSize / kDefaultChunkSize = i := Nat.mul_div_cancel _ (by decide)
  have bound : i ≤ getChunkCount := le_trans small count
  unfold Pool.chunkIndex
  simp only [offset, quotient]
  rw [assert_holds (decide_eq_true some_), assert_holds (decide_eq_true bound), if_neg (by simp)]
  rfl

/-- **The one test for the end of the reservation.** -/
theorem nextPtr_eq (sound : Sound n k m) : m.nextPtr build =
    if build = .debug ∧ getChunkCount < k + 1 then .error .chunkPtrBound
    else .ok (getChunkPtr m.ptr_ (k + 1)) := by
  have count : n ≤ 64 * 64 := sound.count
  have issued := sound.issued
  have base : m.ptr_ ≠ 0 := by
    have base := sound.base
    omega
  have small : (k + 1) % 2 ^ 64 = k + 1 := Nat.mod_eq_of_lt (by omega)
  have valid : decide (k ≠ 2 ^ 64 - 1) = true := decide_eq_true (by omega)
  unfold Pool.nextPtr Pool.chunkPtr
  rw [sound.head, sound.chunkIndex_eq build issued]
  simp only [bind, Except.bind, small]
  rw [assert_holds valid, assert_holds (decide_eq_true base)]
  by_cases ended : getChunkCount < k + 1
  · rw [assert_fails (decide_eq_false (by omega))]
    by_cases debug : build = .debug <;> simp [debug, ended]
    rfl
  · rw [assert_holds (decide_eq_true (by omega)), if_neg (by simp [ended])]
    rfl

/-- The loop advances the frontier by one chunk, whatever fails spuriously. -/
theorem advance_eq (build : Build) (sound : Sound n k m) (spurious : Nat) : m.advance build spurious =
    if build = .debug ∧ getChunkCount < k + 1 then .error .chunkPtrBound
    else .ok (m.head_, { m with head_ := getChunkPtr m.ptr_ (k + 1) }) := by
  have some_ : m.head_ ≠ 0 := by
    have base := sound.base
    rw [sound.head, chunkAt]
    omega
  induction spurious with
  | zero =>
    unfold Pool.advance
    rw [if_neg some_, sound.nextPtr_eq]
    split <;> rfl
  | succ spurious ih =>
    unfold Pool.advance
    rw [if_neg some_, sound.nextPtr_eq, ih]
    split <;> rfl

/-- **`alloc_chunk` that finds a free chunk.** -/
theorem allocChunk_free (sound : Sound n k m) {ptr : Nat} {rest : List Nat}
    (top : m.freeHead = ptr :: rest) (env : Env) : m.allocChunk build platform env =
      .ok (ptr, { m with freeHead := rest, perfAllocFromFree := m.perfAllocFromFree + 1 }) := by
  obtain ⟨i, small, rfl⟩ := sound.free ptr (by rw [top]; exact List.mem_cons_self)
  have popped : Sound n k { m with freeHead := rest } :=
    { sound with free := fun p member => sound.free p (by rw [top]; exact .tail _ member) }
  have index := popped.chunkIndex_eq build (i := i) (by
    have issued := sound.issued
    omega)
  unfold Pool.allocChunk
  rw [top]
  simp only [index]
  rfl

/-- The frontier is a chunk of its own, so `alloc_chunk` comes to its commit. -/
theorem allocChunk_commit (build : Build) (platform : Platform) (sound : Sound n k m)
    (empty : m.freeHead = []) (room : k < n) (env : Env) :
    m.head_ ≠ 0 ∧
      { m with head_ := chunkAt m.ptr_ (k + 1) }.chunkIndex build m.head_ = .ok k ∧
      m.allocChunk build platform env
        = { m with head_ := chunkAt m.ptr_ (k + 1) }.commitChunk build platform env m.head_ := by
  have count := sound.count
  have some_ : m.head_ ≠ 0 := by
    have base := sound.base
    rw [sound.head, chunkAt]
    omega
  refine ⟨some_, ?_, ?_⟩
  · rw [chunkIndex_congr m { m with head_ := chunkAt m.ptr_ (k + 1) } rfl, sound.head]
    exact sound.chunkIndex_eq build sound.issued
  · have next : getChunkPtr m.ptr_ (k + 1) = chunkAt m.ptr_ (k + 1) :=
      getChunkPtr_eq (sound.fits (by omega))
    have advanced := sound.advance_eq build env.spurious
    rw [if_neg (by omega), next] at advanced
    unfold Pool.allocChunk Pool.allocChunkFromNew
    rw [advanced, empty]
    simp only [bind, Except.bind, if_neg some_]

/-- **`alloc_chunk` that takes a new chunk**: it advances the frontier and asks for the memory. -/
theorem allocChunk_new (build : Build) (platform : Platform) (sound : Sound n k m)
    (empty : m.freeHead = []) (room : k < n) (env : Env) :
    (∃ m', (m.allocChunk build platform env = .ok (m.head_, m') ∨
      m.allocChunk build platform env = .ok (0, m')) ∧
        Kept { m with head_ := chunkAt m.ptr_ (k + 1) } m') ∨
    m.allocChunk build platform env = .error .committed := by
  obtain ⟨some_, index, split⟩ := sound.allocChunk_commit build platform empty room env
  rw [split]
  exact commitChunk_cases some_ index env

/-- The frontier before its last chunk is not the end. -/
theorem exhausted_iff (sound : Sound n k m) : Exhausted m ↔ m.freeHead = [] ∧ k = n := by
  unfold Exhausted
  rw [sound.head, sound.size, chunkAt, Nat.add_left_cancel_iff,
    Nat.mul_left_inj (by decide : kDefaultChunkSize ≠ 0)]

/-- A chunk issued is whole. -/
theorem whole (sound : Sound n k m) {i : Nat} (small : i < n) : WholeChunk m (chunkAt m.ptr_ i) := by
  have less := Nat.mul_le_mul_right kDefaultChunkSize (show i + 1 ≤ n by omega)
  refine ⟨i, rfl, ?_⟩
  rw [sound.size, ← chunkAt_succ, chunkAt]
  omega

/-- What is kept of a sound pool is sound. -/
theorem kept {m' : Pool} (sound : Sound n k m) (kept : Kept m m') : Sound n k m' := by
  refine ⟨?_, ?_, ?_, sound.count, sound.issued, ?_, ?_⟩
  · rw [kept.ptr]
    exact sound.base
  · rw [kept.size]
    exact sound.size
  · rw [kept.ptr, kept.size]
    exact sound.space
  · rw [kept.head, kept.ptr]
    exact sound.head
  · rw [kept.free, kept.ptr]
    exact sound.free

/-- One more chunk issued. -/
theorem advanced (sound : Sound n k m) (room : k < n) :
    Sound n (k + 1) { m with head_ := chunkAt m.ptr_ (k + 1) } :=
  { sound with
    issued := room
    head := rfl
    free := fun ptr member => by
      obtain ⟨i, small, same⟩ := sound.free ptr member
      exact ⟨i, by omega, same⟩ }

/-- **What an `alloc_chunk` gives out and leaves behind** when the pool is not exhausted. -/
theorem allocChunk_ok (sound : Sound n k m) (more : ¬ Exhausted m) {env : Env} {ptr : Nat}
    {m' : Pool} (result : m.allocChunk build platform env = .ok (ptr, m')) :
    m'.ptr_ = m.ptr_ ∧ ∃ k', k ≤ k' ∧ Sound n k' m' ∧
      (ptr = 0 ∨ ∃ i < k', ptr = chunkAt m.ptr_ i) := by
  rw [sound.exhausted_iff] at more
  cases free : m.freeHead with
  | cons top rest =>
    rw [sound.allocChunk_free free] at result
    cases result
    refine ⟨rfl, k, le_rfl, ?_, .inr ?_⟩
    · exact { sound with free := fun p member => sound.free p (by rw [free]; exact .tail _ member) }
    · exact sound.free ptr (by rw [free]; exact List.mem_cons_self)
  | nil =>
    have room : k < n := by
      have issued := sound.issued
      have unfinished : k ≠ n := fun same => more ⟨free, same⟩
      omega
    have fresh := sound.advanced room
    rcases sound.allocChunk_new build platform free room env with
      ⟨m'', granted | refused, kept⟩ | failed
    · rw [granted] at result
      cases result
      exact ⟨kept.ptr, k + 1, by omega, fresh.kept kept, .inr ⟨k, by omega, sound.head⟩⟩
    · rw [refused] at result
      cases result
      exact ⟨kept.ptr, k + 1, by omega, fresh.kept kept, .inl rfl⟩
    · rw [failed] at result
      cases result

/-- The only assertion an `alloc_chunk` can fail when the pool is not exhausted is the commit's. -/
theorem allocChunk_error (sound : Sound n k m) (more : ¬ Exhausted m) {env : Env} {name : Assertion}
    (result : m.allocChunk build platform env = .error name) : name = .committed := by
  rw [sound.exhausted_iff] at more
  cases free : m.freeHead with
  | cons top rest =>
    rw [sound.allocChunk_free free] at result
    cases result
  | nil =>
    have room : k < n := by
      have issued := sound.issued
      have unfinished : k ≠ n := fun same => more ⟨free, same⟩
      omega
    rcases sound.allocChunk_new build platform free room env with
      ⟨m'', granted | refused, kept⟩ | failed
    · rw [granted] at result
      cases result
    · rw [refused] at result
      cases result
    · rw [failed] at result
      exact (Except.error.inj result).symm

/-- **An `alloc_chunk` on a pool that is not exhausted keeps its promises.** -/
theorem good (sound : Sound n k m) (more : ¬ Exhausted m) (env : Env) :
    Good build platform m env := by
  refine ⟨fun name result => ?_, fun ptr m' result some_ => ?_, fun ended => absurd ended more⟩
  · rw [sound.allocChunk_error more result]
    rfl
  · obtain ⟨_, k', _, sound', null | ⟨i, small, rfl⟩⟩ := sound.allocChunk_ok more result
    · exact absurd null some_
    · have issued := sound'.issued
      exact sound.whole (by omega)

/-- **An `alloc_chunk` on an exhausted pool fails an assertion or moves `head_`.** -/
theorem exhausted (sound : Sound n k m) (ended : Exhausted m) (env : Env) :
    ¬ Good build platform m env := by
  intro good
  obtain ⟨m', result, still, _⟩ := good.exhausted ended
  obtain ⟨free, rfl⟩ := sound.exhausted_iff.mp ended
  have some_ : m.head_ ≠ 0 := by
    have base := sound.base
    rw [sound.head, chunkAt]
    omega
  unfold Pool.allocChunk Pool.allocChunkFromNew at result
  rw [free, sound.advance_eq build] at result
  simp only [bind, Except.bind] at result
  split at result
  · cases result
  · rename_i advanced
    split at advanced
    · cases advanced
    · cases advanced
      simp only [if_neg some_] at result
      have moved : m'.head_ = getChunkPtr m.ptr_ (k + 1) := (commitChunk_kept result).head
      have fits := sound.fits (i := k) le_rfl
      rw [still, sound.head] at moved
      unfold getChunkPtr at moved
      unfold chunkAt kDefaultChunkSize at moved fits
      omega

end Sound

/-! ### The reservations the constructor can end with -/

/-- What `virtual_reserve` returns lies in the address space and is not null. -/
def Documented (virtualReserve : Nat → Nat → Option Nat) : Prop :=
  ∀ address size v, virtualReserve address size = some v → 0 < v ∧ v + size < 2 ^ 64

/-- A pool with nothing issued. -/
def Fresh (n : Nat) (m : Pool) : Prop := Sound n 0 m ∧ m.freeHead = []

/-- An attempt to reserve succeeds with the size asked for, or changes nothing. -/
theorem reserveFrom_cases (documented : Documented virtualReserve) {n : Nat} (count : n ≤ getChunkCount)
    (attempts : List Nat) :
    (Fresh n (reserveFrom virtualReserve .new (n * kDefaultChunkSize) attempts).1 ∧
      (reserveFrom virtualReserve .new (n * kDefaultChunkSize) attempts).2 = n * kDefaultChunkSize) ∨
    reserveFrom virtualReserve .new (n * kDefaultChunkSize) attempts = (.new, 0) := by
  induction attempts with
  | nil => exact .inr rfl
  | cons i rest ih =>
    unfold reserveFrom
    simp only
    split
    · exact ih
    · rename_i v answer
      obtain ⟨some_, space⟩ := documented _ _ _ answer
      left
      simp only [Pool.new, if_true]
      refine ⟨⟨⟨some_, rfl, space, count, Nat.zero_le n, (chunkAt_zero v).symm, ?_⟩, rfl⟩, trivial⟩
      exact fun ptr member => absurd member List.not_mem_nil

/-- The fallback loop ends with a power of two of at least 64 chunks, or with nothing. -/
theorem fallback_cases (documented : Documented virtualReserve) {j : Nat} (small : j < 12) :
    (∃ i, 6 ≤ i ∧ i ≤ j ∧ Fresh (2 ^ i) (fallback virtualReserve .new (2 ^ j * kDefaultChunkSize))) ∨
      fallback virtualReserve .new (2 ^ j * kDefaultChunkSize) = .new := by
  induction j with
  | zero =>
    right
    unfold fallback
    exact if_neg (by decide)
  | succ j ih =>
    have count : 2 ^ (j + 1) ≤ getChunkCount :=
      Nat.pow_le_pow_right (by decide) (show j + 1 ≤ 12 by omega)
    have half : 2 ^ (j + 1) * kDefaultChunkSize / 2 = 2 ^ j * kDefaultChunkSize := by
      rw [Nat.pow_succ, Nat.mul_right_comm, Nat.mul_div_cancel _ (by decide)]
    unfold fallback
    by_cases enough : 64 * 1024 * 1024 ≤ 2 ^ (j + 1) * kDefaultChunkSize
    · rw [if_pos enough, half]
      have large : 6 ≤ j + 1 := by
        by_contra less
        have power : 2 ^ (j + 1) ≤ 2 ^ 5 := Nat.pow_le_pow_right (by decide) (by omega)
        unfold kDefaultChunkSize at enough
        omega
      rcases reserveFrom_cases documented count (List.range 16) with ⟨fresh, size⟩ | failed
      · left
        have some_ : (reserve virtualReserve .new (2 ^ (j + 1) * kDefaultChunkSize)).2 ≠ 0 := by
          rw [reserve, size]
          exact Nat.mul_ne_zero (pow_ne_zero _ (by decide)) (by decide)
        refine ⟨j + 1, large, le_rfl, ?_⟩
        simp only [if_pos some_]
        exact fresh
      · have failed : reserve virtualReserve .new (2 ^ (j + 1) * kDefaultChunkSize) = (.new, 0) :=
          failed
        simp only [failed, ne_eq, not_true_eq_false, if_false]
        rcases ih (by omega) with ⟨i, least, most, fresh⟩ | nothing
        · exact .inl ⟨i, least, by omega, fresh⟩
        · exact .inr nothing
    · right
      exact if_neg enough

/-- **The reservations the constructor can end with**: from 4 GB halved down to 64 MB, or none. -/
theorem globalPool_cases (documented : Documented virtualReserve) :
    (∃ i, 6 ≤ i ∧ i ≤ 12 ∧ Fresh (2 ^ i) (globalPool virtualReserve)) ∨
      globalPool virtualReserve = .new := by
  have whole : kDefaultWholeChunkSize = 2 ^ 12 * kDefaultChunkSize := by decide
  have half : kDefaultWholeChunkSize / 2 = 2 ^ 11 * kDefaultChunkSize := by decide
  unfold globalPool
  rw [half, whole]
  rcases reserveFrom_cases documented (n := 2 ^ 12) (by decide) (List.range 16) with
    ⟨fresh, size⟩ | failed
  · left
    have some_ : (reserve virtualReserve .new (2 ^ 12 * kDefaultChunkSize)).2 ≠ 0 := by
      rw [reserve, size]
      decide
    refine ⟨12, by decide, le_rfl, ?_⟩
    simp only [if_pos some_]
    exact fresh
  · have failed : reserve virtualReserve .new (2 ^ 12 * kDefaultChunkSize) = (.new, 0) := failed
    simp only [failed, ne_eq, not_true_eq_false, if_false]
    rcases fallback_cases documented (j := 11) (by decide) with ⟨i, least, most, fresh⟩ | nothing
    · exact .inl ⟨i, least, by omega, fresh⟩
    · exact .inr nothing

/-! ### Sequences of calls -/

/-- **The invariant of a session**: the pool is sound, and the client holds issued chunks. -/
def Session.Sound (s : Session) (n : Nat) : Prop :=
  ∃ k, Sequential.Sound n k s.pool ∧ ∀ ptr ∈ s.held, ∃ i < k, ptr = chunkAt s.pool.ptr_ i

/-- **Every call but an `alloc_chunk` on an exhausted pool keeps the invariant.** -/
theorem Session.Sound.step {n : Nat} {s s' : Session} {call : Call} (sound : s.Sound n)
    (more : ∀ env, call = .allocChunk env → ¬ Exhausted s.pool)
    (next : s.step build platform call = some s') : s'.Sound n := by
  obtain ⟨k, sound, held⟩ := sound
  cases call with
  | allocChunk env =>
    simp only [Session.step] at next
    split at next
    · rename_i ptr pool result
      cases next
      obtain ⟨base, k', grown, sound', given⟩ := sound.allocChunk_ok (more env rfl) result
      refine ⟨k', sound', fun chunk member => ?_⟩
      rw [base]
      have before : chunk ∈ s.held → ∃ i < k', chunk = chunkAt s.pool.ptr_ i := fun old => by
        obtain ⟨i, small, same⟩ := held chunk old
        exact ⟨i, by omega, same⟩
      split at member
      · exact before member
      · rename_i some_
        rcases List.mem_cons.mp member with rfl | old
        · exact given.resolve_left some_
        · exact before old
    · cases next
  | freeChunk ptr =>
    simp only [Session.step, Option.ite_none_right_eq_some, Option.some.injEq] at next
    obtain ⟨holds, rfl⟩ := next
    refine ⟨k, ?_, fun chunk member => held chunk (List.mem_of_mem_erase member)⟩
    refine { sound with free := fun chunk member => ?_ }
    rcases List.mem_cons.mp member with rfl | old
    · exact held chunk holds
    · exact sound.free chunk old

theorem Session.Sound.exec {n : Nat} {s s' : Session} {calls : List Call} (sound : s.Sound n)
    (run : (machine build platform virtualReserve).Exec Machine.anyStep s calls s')
    (more : ∀ before env after middle, calls = before ++ .allocChunk env :: after →
      (machine build platform virtualReserve).Exec Machine.anyStep s before middle →
      ¬ Exhausted middle.pool) : s'.Sound n := by
  induction run with
  | nil => exact sound
  | @cons s middle _ call calls _ next _ ih =>
    refine ih (sound.step (fun env same => ?_) next) fun before env after last split run => ?_
    · exact more [] env calls s (by rw [same]; rfl) (.nil s)
    · exact more (call :: before) env after last (by rw [split]; rfl) (.cons trivial next run)

/-- **Exactly when `alloc_chunk` keeps its promises.** For every reservation the constructor can end
with and every sequence of calls: every `alloc_chunk` of the sequence keeps its promises if and only
if none is made on an exhausted pool. -/
theorem whole_chunks_iff (documented : Documented virtualReserve)
    (reserved : (globalPool virtualReserve).ptr_ ≠ 0) (calls : List Call) :
    (∀ before env after s, calls = before ++ .allocChunk env :: after →
      (machine build platform virtualReserve).Exec Machine.anyStep
        ⟨globalPool virtualReserve, []⟩ before s → Good build platform s.pool env) ↔
    ∀ before env after s, calls = before ++ .allocChunk env :: after →
      (machine build platform virtualReserve).Exec Machine.anyStep
        ⟨globalPool virtualReserve, []⟩ before s → ¬ Exhausted s.pool := by
  obtain ⟨n, fresh⟩ : ∃ n, Fresh n (globalPool virtualReserve) := by
    rcases globalPool_cases documented with ⟨i, _, _, fresh⟩ | nothing
    · exact ⟨_, fresh⟩
    · rw [nothing] at reserved
      exact absurd rfl reserved
  have start : Session.Sound ⟨globalPool virtualReserve, []⟩ n :=
    ⟨0, fresh.1, fun ptr member => absurd member List.not_mem_nil⟩
  constructor
  · intro good before
    -- the calls before the first `alloc_chunk` on an exhausted pool keep the pool sound
    induction measured : before.length using Nat.strong_induction_on generalizing before with
    | _ length ih =>
      intro env after s split run ended
      have sound := start.exec run fun front env' back middle split' run' =>
        ih front.length (by rw [← measured, split']; simp) front rfl env'
          (back ++ .allocChunk env :: after) middle (by simp [split, split']) run'
      obtain ⟨k, sound, _⟩ := sound
      exact sound.exhausted ended env (good before env after s split run)
  · intro more before env after s split run
    have sound := start.exec run fun front env' back middle split' run' =>
      more front env' (back ++ .allocChunk env :: after) middle (by simp [split, split']) run'
    obtain ⟨k, sound, _⟩ := sound
    exact sound.good (more before env after s split run) env

/-! ### Every reservation can be exhausted -/

/-- An `alloc_chunk` whose commit succeeds at once. -/
def granted : Env := ⟨0, true, true⟩

theorem Sound.allocChunk_granted (build : Build) (platform : Platform) {n k : Nat} {m : Pool}
    (sound : Sound n k m) (empty : m.freeHead = []) (room : k < n) :
    ∃ m', m.allocChunk build platform granted = .ok (m.head_, m') ∧ Sound n (k + 1) m' ∧
      m'.freeHead = [] := by
  obtain ⟨some_, index, split⟩ :=
    sound.allocChunk_commit build platform empty room granted
  obtain ⟨m', result, kept⟩ :=
    commitChunk_granted platform some_ index (show granted.commit = true from rfl)
  refine ⟨m', ?_, (sound.advanced room).kept kept, kept.free.trans empty⟩
  rw [split]
  exact result

/-- **As many calls as there are chunks exhaust a reservation.** -/
theorem exhausts (build : Build) (platform : Platform) (virtualReserve : Nat → Nat → Option Nat)
    {n : Nat} {m : Pool} (fresh : Fresh n m) {k : Nat} (small : k ≤ n) :
    ∃ s, (machine build platform virtualReserve).Exec Machine.anyStep ⟨m, []⟩
      (List.replicate k (.allocChunk granted)) s ∧ Sound n k s.pool ∧ s.pool.freeHead = [] := by
  induction k with
  | zero => exact ⟨_, .nil _, fresh.1, fresh.2⟩
  | succ k ih =>
    obtain ⟨s, run, sound, empty⟩ := ih (by omega)
    obtain ⟨m', result, sound', empty'⟩ :=
      sound.allocChunk_granted build platform empty small
    have next : s.step build platform (.allocChunk granted)
        = some ⟨m', if s.pool.head_ = 0 then s.held else s.pool.head_ :: s.held⟩ := by
      simp only [Session.step, result]
    refine ⟨⟨m', if s.pool.head_ = 0 then s.held else s.pool.head_ :: s.held⟩, ?_, sound', empty'⟩
    rw [List.replicate_succ']
    exact run.snoc trivial next

/-- A system that reserves wherever it is asked to. -/
def atHint (address size : Nat) : Option Nat :=
  if 0 < address ∧ address + size < 2 ^ 64 then some address else none

theorem atHint_documented : Documented atHint := by
  intro address size v answer
  unfold atHint at answer
  split at answer
  · cases answer
    assumption
  · cases answer

theorem atHint_reserved : (globalPool atHint).ptr_ ≠ 0 := by
  have first : reserve atHint .new kDefaultWholeChunkSize
      = ({ Pool.new with
          ptr_ := 0x10000000000, size_ := kDefaultWholeChunkSize, head_ := 0x10000000000 },
        kDefaultWholeChunkSize) := by
    rfl
  unfold globalPool
  rw [first]
  decide

/-- **Call number 4097 on a 4 GB reservation**, with every chunk held, does not keep its promises. -/
theorem past_the_end : ∃ before env s,
    (machine .release .posix atHint).Exec Machine.anyStep ⟨globalPool atHint, []⟩ before s ∧
      Exhausted s.pool ∧ ¬ Good .release .posix s.pool env := by
  rcases globalPool_cases atHint_documented with ⟨i, _, _, fresh⟩ | nothing
  · obtain ⟨s, run, sound, empty⟩ := exhausts .release .posix atHint fresh le_rfl
    have ended := sound.exhausted_iff.mpr ⟨empty, rfl⟩
    exact ⟨_, granted, s, run, ended, sound.exhausted ended granted⟩
  · exact absurd (congrArg Pool.ptr_ nothing) atHint_reserved

/-- The first call on a 4 GB reservation keeps its promises. -/
theorem first_of_4gb : Good .release .posix (globalPool atHint) granted := by
  refine (whole_chunks_iff atHint_documented atHint_reserved [.allocChunk granted]).mpr ?_
    [] granted [] ⟨globalPool atHint, []⟩ rfl (.nil _)
  intro before env after s split run ended
  cases before with
  | nil =>
    cases run
    rcases globalPool_cases atHint_documented with ⟨i, _, _, fresh⟩ | nothing
    · have none_ := (fresh.1.exhausted_iff.mp ended).2
      exact absurd none_ (pow_ne_zero _ (by decide)).symm
    · exact absurd (congrArg Pool.ptr_ nothing) atHint_reserved
  | cons _ before => simp at split

end NpAlloc.Mmap.Sequential
