/-
**`mmap::reserve` and the regions it obtains.**

The loop of 16 attempts, with every region the system has handed out and not been given back. A region
that is reserved when another one is in place already is released with `virtual_release`, which gives it
back on Windows, and on POSIX does nothing: `munmap` would need the size.

* `reserveFrom_fresh`, `reserveFrom_taken` — the loop with nothing reserved before, and with something;
* **`reserve_booked_iff`** — when the call keeps its books;
* `reserve_leaks` — a second `reserve` on POSIX;
* `reserve_sequential` — without the regions this is the `reserve` of `Mmap.Sequential`.
-/

import NpAlloc.Bitset.Model
import NpAlloc.Mmap.Sequential

set_option linter.unusedSectionVars false

namespace NpAlloc.Mmap.Reserve

/-- The fields of `mmap` that `reserve` is about, and the regions the process has from the system. -/
structure State where
  ptr_ : Nat
  head_ : Nat
  size_ : Nat
  alloc_chunk_index_ : Bitset kDefaultChunkCount
  regions : List Nat

/-- `virtual_release(ptr)`: the regions that are left. -/
def virtualRelease (platform : Platform) (regions : List Nat) (ptr : Nat) : List Nat :=
  match platform with
  | .windows => regions.erase ptr
  | .posix => regions

/-- The address of an attempt; the last lets the system choose. -/
def attemptAt (i : Nat) : Nat := if i < 0xf then 0x10000000000 * (i + 1) else 0

/-- The attempts from the given ones on. `virtualReserve i address size` is what the system answers to
attempt `i`, null if it fails. -/
def reserveFrom (platform : Platform) (virtualReserve : Nat → Nat → Nat → Nat) (size : Nat) :
    List Nat → State → Nat × State
  | [], s => (0, s)
  | i :: rest, s =>
    let v := virtualReserve i (attemptAt i) size
    if v ≠ 0 then
      let s := { s with regions := v :: s.regions }
      if s.ptr_ = 0 then
        (size, { s with ptr_ := v, size_ := size, alloc_chunk_index_ := s.alloc_chunk_index_.clearAll,
                        head_ := v })
      else
        reserveFrom platform virtualReserve size rest
          { s with regions := virtualRelease platform s.regions v }
    else reserveFrom platform virtualReserve size rest s

/-- `reserve(size)`. -/
def reserve (platform : Platform) (virtualReserve : Nat → Nat → Nat → Nat) (s : State) (size : Nat) :
    Nat × State :=
  reserveFrom platform virtualReserve size (List.range 16) s

variable {platform : Platform} {virtualReserve : Nat → Nat → Nat → Nat} {s : State} {size : Nat}
  {attempts : List Nat}

/-- An attempt that succeeds. -/
def Succeeds (virtualReserve : Nat → Nat → Nat → Nat) (size i : Nat) : Prop :=
  virtualReserve i (attemptAt i) size ≠ 0

/-- **The books of `reserve`**: with nothing reserved before, a region that an attempt obtained is
recorded, and the size returned; otherwise 0 is returned, and the fields are as before. The process has
the recorded region more, and no other. -/
structure Booked (virtualReserve : Nat → Nat → Nat → Nat) (s : State) (size : Nat)
    (result : Nat × State) : Prop where
  recorded : s.ptr_ = 0 → (∃ i < 16, Succeeds virtualReserve size i) → result.1 = size ∧
    (∃ i < 16, result.2.ptr_ = virtualReserve i (attemptAt i) size ∧ result.2.ptr_ ≠ 0) ∧
    result.2.head_ = result.2.ptr_ ∧ result.2.size_ = size ∧
    result.2.regions = result.2.ptr_ :: s.regions
  unchanged : ¬ (s.ptr_ = 0 ∧ ∃ i < 16, Succeeds virtualReserve size i) → result.1 = 0 ∧
    result.2.ptr_ = s.ptr_ ∧ result.2.head_ = s.head_ ∧ result.2.size_ = s.size_ ∧
    result.2.regions = s.regions

/-! ### The loop -/

/-- **With nothing reserved before** the first success ends the loop. -/
theorem reserveFrom_fresh (platform : Platform) (virtualReserve : Nat → Nat → Nat → Nat) (size : Nat)
    (attempts : List Nat) (fresh : s.ptr_ = 0) :
    (∃ i ∈ attempts, Succeeds virtualReserve size i ∧
      reserveFrom platform virtualReserve size attempts s = (size,
        { s with ptr_ := virtualReserve i (attemptAt i) size, size_ := size,
                 alloc_chunk_index_ := s.alloc_chunk_index_.clearAll,
                 head_ := virtualReserve i (attemptAt i) size,
                 regions := virtualReserve i (attemptAt i) size :: s.regions })) ∨
    (∀ i ∈ attempts, ¬ Succeeds virtualReserve size i) ∧
      reserveFrom platform virtualReserve size attempts s = (0, s) := by
  induction attempts with
  | nil => exact .inr ⟨fun i member => absurd member List.not_mem_nil, rfl⟩
  | cons i rest ih =>
    unfold reserveFrom
    by_cases success : virtualReserve i (attemptAt i) size ≠ 0
    · refine .inl ⟨i, List.mem_cons_self, success, ?_⟩
      simp only [if_pos success, fresh, if_true]
    · simp only [if_neg success]
      rcases ih with ⟨j, member, success', ran⟩ | ⟨none_, ran⟩
      · exact .inl ⟨j, .tail _ member, success', ran⟩
      · refine .inr ⟨fun j member => ?_, ran⟩
        rcases List.mem_cons.mp member with rfl | member
        · exact success
        · exact none_ j member

/-- The regions that attempts leave with the process when one is in place. -/
def leaked (platform : Platform) (virtualReserve : Nat → Nat → Nat → Nat) (size : Nat) :
    List Nat → List Nat → List Nat
  | [], regions => regions
  | i :: rest, regions =>
    let v := virtualReserve i (attemptAt i) size
    leaked platform virtualReserve size rest
      (if v ≠ 0 then virtualRelease platform (v :: regions) v else regions)

/-- **With something reserved before** the loop makes every attempt, and changes no field. -/
theorem reserveFrom_taken (taken : s.ptr_ ≠ 0) :
    reserveFrom platform virtualReserve size attempts s
      = (0, { s with regions := leaked platform virtualReserve size attempts s.regions }) := by
  induction attempts generalizing s with
  | nil => rfl
  | cons i rest ih =>
    unfold reserveFrom leaked
    by_cases success : virtualReserve i (attemptAt i) size ≠ 0
    · simp only [if_pos success, if_neg taken]
      exact ih taken
    · simp only [if_neg success]
      exact ih taken

/-- Windows is given back every one of them. -/
theorem leaked_windows (regions : List Nat) :
    leaked .windows virtualReserve size attempts regions = regions := by
  induction attempts generalizing regions with
  | nil => rfl
  | cons i rest ih =>
    unfold leaked
    simp only [virtualRelease, List.erase_cons_head, ite_self]
    exact ih regions

/-- POSIX is given back none. -/
theorem leaked_posix (virtualReserve : Nat → Nat → Nat → Nat) (size : Nat) (attempts regions : List Nat) :
    (leaked .posix virtualReserve size attempts regions).length = regions.length
      + attempts.countP fun i => decide (virtualReserve i (attemptAt i) size ≠ 0) := by
  induction attempts generalizing regions with
  | nil => rfl
  | cons i rest ih =>
    rw [List.countP_cons]
    by_cases success : virtualReserve i (attemptAt i) size ≠ 0
    · have kept : leaked .posix virtualReserve size (i :: rest) regions
          = leaked .posix virtualReserve size rest (virtualReserve i (attemptAt i) size :: regions) := by
        show leaked _ _ _ rest (if virtualReserve i (attemptAt i) size ≠ 0 then _ else _) = _
        rw [if_pos success]
        rfl
      rw [kept, ih, List.length_cons, if_pos (decide_eq_true success)]
      omega
    · have kept : leaked .posix virtualReserve size (i :: rest) regions
          = leaked .posix virtualReserve size rest regions := by
        show leaked _ _ _ rest (if virtualReserve i (attemptAt i) size ≠ 0 then _ else _) = _
        rw [if_neg success]
      rw [kept, ih, if_neg (by simpa using success)]
      rfl

/-- Without a success no region is obtained. -/
theorem leaked_none (regions : List Nat)
    (none_ : ∀ i ∈ attempts, ¬ Succeeds virtualReserve size i) :
    leaked platform virtualReserve size attempts regions = regions := by
  induction attempts with
  | nil => rfl
  | cons i rest ih =>
    have failed : ¬ virtualReserve i (attemptAt i) size ≠ 0 := none_ i List.mem_cons_self
    show leaked _ _ _ rest (if virtualReserve i (attemptAt i) size ≠ 0 then _ else _) = _
    rw [if_neg failed]
    exact ih fun j member => none_ j (.tail _ member)

/-- What is left with POSIX is as before only when no attempt succeeds. -/
theorem leaked_posix_iff (regions : List Nat) :
    leaked .posix virtualReserve size attempts regions = regions ↔
      ∀ i ∈ attempts, ¬ Succeeds virtualReserve size i := by
  constructor
  · intro same i member success
    have length := leaked_posix virtualReserve size attempts regions
    have counted : 0 < attempts.countP fun i => decide (virtualReserve i (attemptAt i) size ≠ 0) :=
      List.countP_pos_iff.mpr ⟨i, member, decide_eq_true success⟩
    rw [same] at length
    omega
  · exact leaked_none regions

/-! ### The result -/

/-- Nothing reserved before: the books are kept. -/
theorem booked_of_fresh (fresh : s.ptr_ = 0) :
    Booked virtualReserve s size (reserve platform virtualReserve s size) := by
  unfold reserve
  rcases reserveFrom_fresh platform virtualReserve size (List.range 16) fresh with
    ⟨i, member, success, ran⟩ | ⟨none_, ran⟩
  · rw [ran]
    have inside : i < 16 := List.mem_range.mp member
    exact ⟨fun _ _ => ⟨rfl, ⟨i, inside, rfl, success⟩, rfl, rfl, rfl⟩,
      fun not => absurd ⟨fresh, i, inside, success⟩ not⟩
  · rw [ran]
    refine ⟨fun _ ⟨i, inside, success⟩ => ?_, fun _ => ⟨rfl, rfl, rfl, rfl, rfl⟩⟩
    exact absurd success (none_ i (List.mem_range.mpr inside))

/-- Something reserved before: the books are kept when the regions are as before. -/
theorem booked_of_taken (taken : s.ptr_ ≠ 0) :
    Booked virtualReserve s size (reserve platform virtualReserve s size) ↔
      leaked platform virtualReserve size (List.range 16) s.regions = s.regions := by
  unfold reserve
  rw [reserveFrom_taken taken]
  constructor
  · intro booked
    exact (booked.unchanged fun both => taken both.1).2.2.2.2
  · intro same
    exact ⟨fun fresh => absurd fresh taken, fun _ => ⟨rfl, rfl, rfl, rfl, same⟩⟩

/-- **`reserve` keeps its books** exactly on Windows, with nothing reserved before, or when no attempt
succeeds. -/
theorem reserve_booked_iff (platform : Platform) (virtualReserve : Nat → Nat → Nat → Nat) (s : State)
    (size : Nat) : Booked virtualReserve s size (reserve platform virtualReserve s size) ↔
      platform = .windows ∨ s.ptr_ = 0 ∨ ∀ i < 16, ¬ Succeeds virtualReserve size i := by
  by_cases fresh : s.ptr_ = 0
  · exact iff_of_true (booked_of_fresh fresh) (.inr (.inl fresh))
  · rw [booked_of_taken fresh]
    cases platform with
    | windows => exact iff_of_true (leaked_windows s.regions) (.inl rfl)
    | posix =>
      rw [leaked_posix_iff]
      constructor
      · intro none_
        exact .inr (.inr fun i inside => none_ i (List.mem_range.mpr inside))
      · rintro (windows | fresh' | none_) i member
        · cases windows
        · exact absurd fresh' fresh
        · exact none_ i (List.mem_range.mp member)

/-- **A second `reserve` on POSIX**: the region at `0x20000000000` is neither recorded nor given back. -/
theorem reserve_leaks :
    let s : State := ⟨0x10000000000, 0x10000000000, 0x1000000, Bitset.new, [0x10000000000]⟩
    let virtualReserve : Nat → Nat → Nat → Nat := fun i address _ => if i = 1 then address else 0
    (reserve .posix virtualReserve s 0x1000000).1 = 0 ∧
      (reserve .posix virtualReserve s 0x1000000).2.ptr_ = 0x10000000000 ∧
      (reserve .posix virtualReserve s 0x1000000).2.regions = [0x20000000000, 0x10000000000] ∧
      ¬ Booked virtualReserve s 0x1000000 (reserve .posix virtualReserve s 0x1000000) := by
  intro s virtualReserve
  have taken : s.ptr_ ≠ 0 := by decide
  have ran : reserve .posix virtualReserve s 0x1000000
      = (0, { s with regions := [0x20000000000, 0x10000000000] }) := by
    unfold reserve
    rw [reserveFrom_taken taken]
    rfl
  refine ⟨congrArg Prod.fst ran, by rw [ran], by rw [ran], ?_⟩
  rw [ran]
  intro booked
  have same := (booked.unchanged fun both => taken both.1).2.2.2.2
  exact absurd same (by decide)

/-! ### The `reserve` of `Mmap.Sequential` -/

/-- The fields that `Mmap.Sequential` has too. -/
def State.forget (m : Sequential.Pool) (s : State) : Sequential.Pool :=
  { m with ptr_ := s.ptr_, size_ := s.size_, head_ := s.head_ }

/-- **Without the regions this is the `reserve` of `Mmap.Sequential`**, with an answer of the system that
does not depend on the attempt and is no null pointer. -/
theorem reserve_sequential (platform : Platform) {answer : Nat → Nat → Option Nat}
    (present : ∀ address size, answer address size ≠ some 0) (m : Sequential.Pool) (s : State) (size : Nat) :
    Sequential.reserve answer (s.forget m) size
      = ((reserve platform (fun _ address size => (answer address size).getD 0) s size).2.forget m,
          (reserve platform (fun _ address size => (answer address size).getD 0) s size).1) := by
  unfold reserve Sequential.reserve
  generalize List.range 16 = attempts
  induction attempts generalizing s with
  | nil => rfl
  | cons i rest ih =>
    unfold reserveFrom Sequential.reserveFrom
    have asked : (if i < 0xf then 0x10000000000 * (i + 1) else 0) = attemptAt i := rfl
    rw [asked]
    cases answered : answer (attemptAt i) size with
    | none => simpa only [answered, Option.getD_none, ne_eq, not_true, if_false] using ih s
    | some v =>
      have valid : v ≠ 0 := fun null => present _ _ (null ▸ answered)
      by_cases fresh : s.ptr_ = 0
      · have fresh' : (s.forget m).ptr_ = 0 := fresh
        simp only [answered, Option.getD_some, if_pos valid, if_pos fresh, if_pos fresh']
        rfl
      · have taken : ¬ (s.forget m).ptr_ = 0 := fresh
        simp only [answered, Option.getD_some, if_pos valid, if_neg fresh, if_neg taken]
        exact ih { s with regions := virtualRelease platform (v :: s.regions) v }

end NpAlloc.Mmap.Reserve
