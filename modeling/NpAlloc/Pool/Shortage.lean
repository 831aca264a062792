/-
**What a call does when its memory cannot be had.**

`globalSupply` joins the pools of a thread to the `mmap` they take chunks from. A call is `Short` of
memory when the class it needs has no free block and no room, the free stack is empty, and nothing
was reserved or the commit is refused; or when `malloc` refuses. The three depths end alike.

* **`shortage_faults`** — from any state of the pools, of the memory and of the `mmap`, a call that is
  short never returns: it writes through the null pointer, or the assertion behind the commit ends it.
-/

import NpAlloc.Mmap.Sequential
import NpAlloc.Pool.ThreadPool

set_option linter.unusedSectionVars false

namespace NpAlloc.Pool

/-- `get_global_pool()->alloc_chunk()`. -/
def globalSupply (build : Build) (platform : Platform) (env : Mmap.Sequential.Env) :
    Supply Mmap.Sequential.Pool := fun m =>
  match m.allocChunk build platform env with
  | .ok answer => .ok answer
  | .error _ => .error .aborted

/-- The operating system does not commit a chunk. -/
def Uncommitted (platform : Platform) (env : Mmap.Sequential.Env) : Prop :=
  env.commit = false ∧ (platform = .posix → env.remap = false)

/-- **No chunk can be had**: none is free, and nothing is reserved or the commit is refused. -/
def NoChunk (platform : Platform) (env : Mmap.Sequential.Env) (m : Mmap.Sequential.Pool) : Prop :=
  m.freeHead = [] ∧ (m.head_ = 0 ∨ Uncommitted platform env)

/-- **The memory a call needs cannot be had.** -/
def Short (platform : Platform) (env : Mmap.Sequential.Env) (malloc : Nat) (t : ThreadPool)
    (w : World Mmap.Sequential.Pool) (bytes : Nat) : Prop :=
  if widened bytes ≤ maxAllocSize getAllocSizeList then
    (t.tlsPool (classOf (widened bytes))).Starved w.mem ∧ NoChunk platform env w.global
  else malloc = 0

/-- **A shortage is reported**: the call returns null, and the pools and their memory are as they
were. -/
def Reported {G : Type} (supply : Supply G) (malloc : Nat) (t : ThreadPool) (w : World G)
    (bytes : Nat) (info : Meta) : Prop :=
  ∃ origin global, t.alloc supply malloc w bytes info = .ok (0, origin, t, ⟨w.mem, global⟩)

variable {build : Build} {platform : Platform} {env : Mmap.Sequential.Env}

/-! ### `alloc_chunk` without a chunk -/

section Results

variable {ε α β : Type} {x : Except ε α} {f : α → Except ε β}

/-- Where a sequence of two calls fails. -/
theorem bind_error {e : ε} (fails : x >>= f = .error e) :
    x = .error e ∨ ∃ a, x = .ok a ∧ f a = .error e := by
  cases x with
  | error e' =>
    cases fails
    exact .inl rfl
  | ok a => exact .inr ⟨a, rfl, fails⟩

/-- What a sequence of two calls that returns went through. -/
theorem bind_ok {b : β} (returns : x >>= f = .ok b) : ∃ a, x = .ok a ∧ f a = .ok b := by
  cases x with
  | error e => cases returns
  | ok a => exact ⟨a, rfl, returns⟩

end Results

open Mmap.Sequential in
/-- Only a Debug build has assertions. -/
theorem assert_debug {condition : Bool} {name name' : Assertion}
    (fails : assert build condition name = .error name') : build = .debug := by
  unfold assert at fails
  split at fails
  · rename_i both
    exact both.1
  · cases fails

namespace GlobalPool

open Mmap.Sequential

variable {m m' : Pool} {head ptr index : Nat} {name : Assertion}

theorem chunkIndex_debug (fails : m.chunkIndex build ptr = .error name) : build = .debug := by
  unfold Pool.chunkIndex at fails
  rcases bind_error fails with null | ⟨_, _, rest⟩
  · exact assert_debug null
  · dsimp only at rest
    split at rest
    · cases rest
    · rcases bind_error rest with bound | ⟨_, _, done⟩
      · exact assert_debug bound
      · cases done

theorem chunkPtr_debug (fails : m.chunkPtr build index = .error name) : build = .debug := by
  unfold Pool.chunkPtr at fails
  rcases bind_error fails with bound | ⟨_, _, rest⟩
  · exact assert_debug bound
  · rcases bind_error rest with null | ⟨_, _, done⟩
    · exact assert_debug null
    · cases done

theorem nextPtr_debug (fails : m.nextPtr build = .error name) : build = .debug := by
  unfold Pool.nextPtr at fails
  rcases bind_error fails with first | ⟨_, _, rest⟩
  · exact chunkIndex_debug first
  · rcases bind_error rest with aligned | ⟨_, _, second⟩
    · exact assert_debug aligned
    · exact chunkPtr_debug second

theorem advance_debug {spurious : Nat} (fails : m.advance build spurious = .error name) :
    build = .debug := by
  induction spurious with
  | zero =>
    unfold Pool.advance at fails
    split at fails
    · cases fails
    · rcases bind_error fails with next | ⟨_, _, done⟩
      · exact nextPtr_debug next
      · cases done
  | succ spurious ih =>
    unfold Pool.advance at fails
    split at fails
    · cases fails
    · rcases bind_error fails with next | ⟨_, _, again⟩
      · exact nextPtr_debug next
      · exact ih again

theorem commitChunk_debug (fails : m.commitChunk build platform env head = .error name) :
    build = .debug := by
  unfold Pool.commitChunk at fails
  rcases bind_error fails with committed | ⟨_, _, rest⟩
  · exact assert_debug committed
  · rcases bind_error rest with counted | ⟨_, _, done⟩
    · exact chunkIndex_debug counted
    · cases done

/-- **In a Release build `alloc_chunk` always returns.** -/
theorem allocChunk_debug (fails : m.allocChunk build platform env = .error name) :
    build = .debug := by
  unfold Pool.allocChunk at fails
  split at fails
  · rcases bind_error fails with counted | ⟨_, _, done⟩
    · exact chunkIndex_debug counted
    · cases done
  · unfold Pool.allocChunkFromNew at fails
    rcases bind_error fails with moved | ⟨⟨head, m'⟩, _, rest⟩
    · exact advance_debug moved
    · dsimp only at rest
      split at rest
      · cases rest
      · exact commitChunk_debug rest

/-- With nothing reserved, `head_` stays null. -/
theorem advance_null (null : m.head_ = 0) (spurious : Nat) :
    m.advance build spurious = .ok (0, m) := by
  cases spurious with
  | zero => exact if_pos null
  | succ spurious => exact if_pos null

/-- A refused commit gives null. -/
theorem commitChunk_null (uncommitted : Uncommitted platform env)
    (returns : m.commitChunk build platform env head = .ok (ptr, m')) : ptr = 0 := by
  have refused : (m.virtualAlloc platform env head).1 = 0 := by
    obtain ⟨commit, remap⟩ := uncommitted
    unfold Pool.virtualAlloc
    rw [commit]
    cases platform with
    | windows => rfl
    | posix =>
      rw [remap rfl]
      rfl
  unfold Pool.commitChunk at returns
  obtain ⟨_, _, rest⟩ := bind_ok returns
  obtain ⟨_, _, done⟩ := bind_ok rest
  cases done
  exact refused

/-- **Without a chunk to have, `alloc_chunk` returns null if it returns.** -/
theorem allocChunk_null (none_ : NoChunk platform env m)
    (returns : m.allocChunk build platform env = .ok (ptr, m')) : ptr = 0 := by
  obtain ⟨empty, short⟩ := none_
  unfold Pool.allocChunk Pool.allocChunkFromNew at returns
  rw [empty] at returns
  obtain ⟨⟨head, moved⟩, advanced, rest⟩ := bind_ok returns
  dsimp only at rest
  split at rest
  · cases rest
    rfl
  · rename_i some_
    rcases short with null | uncommitted
    · rw [advance_null null] at advanced
      cases advanced
      exact absurd rfl some_
    · exact commitChunk_null uncommitted rest

end GlobalPool

/-- **`alloc_chunk` without a chunk** gives null, or an assertion of a Debug build ends it. -/
theorem NoChunk.supply {m : Mmap.Sequential.Pool} (none_ : NoChunk platform env m) (build : Build) :
    (∃ m', globalSupply build platform env m = .ok (0, m')) ∨
      build = .debug ∧ globalSupply build platform env m = .error .aborted := by
  unfold globalSupply
  cases answer : m.allocChunk build platform env with
  | error name => exact .inr ⟨GlobalPool.allocChunk_debug answer, rfl⟩
  | ok result =>
    obtain ⟨ptr, m'⟩ := result
    have null := GlobalPool.allocChunk_null none_ answer
    subst null
    exact .inl ⟨m', rfl⟩

/-! ### The calls above it -/

section Starved

variable {G : Type} {supply : Supply G} {p : PsPool} {w : World G}

/-- **A starved pool writes through the null pointer it is given.** -/
theorem PsPool.Starved.null {global : G} (starved : p.Starved w.mem)
    (answer : supply w.global = .ok (0, global)) : p.alloc supply w = .error .nullWrite := by
  obtain ⟨free, full⟩ := starved
  have grow : p.allocFromGlobal supply w = .error .nullWrite := by
    unfold PsPool.allocFromGlobal
    rw [answer]
    rfl
  have local_ : p.allocFromLocalPool supply w = .error .nullWrite := by
    unfold PsPool.allocFromLocalPool
    rw [if_pos full, grow]
    rfl
  unfold PsPool.alloc
  rw [if_neg (not_not.mpr free), local_]
  rfl

/-- A starved pool ends where its supply ends. -/
theorem PsPool.Starved.fault {fault : Fault} (starved : p.Starved w.mem)
    (answer : supply w.global = .error fault) : p.alloc supply w = .error fault := by
  obtain ⟨free, full⟩ := starved
  have grow : p.allocFromGlobal supply w = .error fault := by
    unfold PsPool.allocFromGlobal
    rw [answer]
    rfl
  have local_ : p.allocFromLocalPool supply w = .error fault := by
    unfold PsPool.allocFromLocalPool
    rw [if_pos full, grow]
    rfl
  unfold PsPool.alloc
  rw [if_neg (not_not.mpr free), local_]
  rfl

end Starved

/-- The end of a call that is short of memory. -/
theorem Short.ends {malloc : Nat} {t : ThreadPool} {w : World Mmap.Sequential.Pool} {bytes : Nat}
    (build : Build) (info : Meta) (short : Short platform env malloc t w bytes) :
    t.alloc (globalSupply build platform env) malloc w bytes info = .error .nullWrite ∨
      build = .debug ∧
        t.alloc (globalSupply build platform env) malloc w bytes info = .error .aborted := by
  unfold Short at short
  split at short
  · rename_i small
    obtain ⟨starved, none_⟩ := short
    rcases none_.supply build with ⟨m', null⟩ | ⟨debug, aborted⟩
    · exact .inl (ThreadPool.alloc_fault (ThreadPool.serve_fault small (starved.null null)))
    · exact .inr ⟨debug,
        ThreadPool.alloc_fault (ThreadPool.serve_fault small (starved.fault aborted))⟩
  · rename_i large
    rw [ThreadPool.alloc_of_serve _ (ThreadPool.serve_malloc large), if_pos short]
    exact .inl rfl

/-- A call that ends so reports nothing. -/
theorem Short.not_reported {malloc : Nat} {t : ThreadPool} {w : World Mmap.Sequential.Pool}
    {bytes : Nat} (build : Build) (info : Meta) (short : Short platform env malloc t w bytes) :
    ¬ Reported (globalSupply build platform env) malloc t w bytes info := by
  rintro ⟨origin, global, returns⟩
  rcases short.ends build info with ends | ⟨_, ends⟩ <;>
  · rw [ends] at returns
    cases returns

/-- **A call that is short of memory never returns**: it writes through a null pointer, or, in a Debug
build, the assertions of `alloc_chunk_from_new` end it. Its shortage is not reported. -/
theorem shortage_faults (build : Build) (platform : Platform) (env : Mmap.Sequential.Env)
    (malloc : Nat) (t : ThreadPool) (w : World Mmap.Sequential.Pool) (bytes : Nat) (info : Meta)
    (short : Short platform env malloc t w bytes) :
    ¬ Reported (globalSupply build platform env) malloc t w bytes info ∧
      (t.alloc (globalSupply build platform env) malloc w bytes info = .error .nullWrite ∨
        build = .debug ∧
          t.alloc (globalSupply build platform env) malloc w bytes info = .error .aborted) :=
  ⟨short.not_reported build info, short.ends build info⟩

/-! ### A process for which nothing can be reserved -/

namespace GlobalPool

open Mmap.Sequential

theorem reserveFrom_none (m : Pool) (size : Nat) (attempts : List Nat) :
    reserveFrom (fun _ _ => none) m size attempts = (m, 0) := by
  induction attempts with
  | nil => rfl
  | cons i rest ih => exact ih

theorem fallback_none (m : Pool) (size : Nat) : fallback (fun _ _ => none) m size = m := by
  induction size using Nat.strong_induction_on with
  | _ size ih =>
    unfold fallback reserve
    rw [reserveFrom_none]
    split
    · rename_i large
      exact ih (size / 2) (by omega)
    · rfl

/-- **Nothing is reserved**, and every fallback fails too. -/
theorem globalPool_none : globalPool (fun _ _ => none) = .new := by
  unfold globalPool reserve
  rw [reserveFrom_none]
  exact fallback_none _ _

end GlobalPool

/-- The world of a new process for which nothing can be reserved. -/
def World.nothingReserved : World Mmap.Sequential.Pool :=
  ⟨fun _ => 0, Mmap.Sequential.globalPool fun _ _ => none⟩

theorem World.nothingReserved_short (platform : Platform) (env : Mmap.Sequential.Env) :
    Short platform env 0 .init nothingReserved 100 := by
  unfold Short
  rw [if_pos (by decide)]
  refine ⟨⟨rfl, .inl rfl⟩, ?_⟩
  unfold NoChunk nothingReserved
  rw [GlobalPool.globalPool_none]
  exact ⟨rfl, .inl rfl⟩

/-- A first request of 100 bytes. -/
theorem shortage_faults_first :
    ¬ Reported (globalSupply .release .posix ⟨0, true, true⟩) 0 .init .nothingReserved 100
      ⟨1, 0, 0⟩ :=
  (shortage_faults .release .posix ⟨0, true, true⟩ 0 .init .nothingReserved 100 ⟨1, 0, 0⟩
    (World.nothingReserved_short _ _)).1

/-- **The first request writes through null when nothing is reserved**: a shortage that is not
reported, of a request within bounds from a new pool. -/
theorem first_request_not_reported :
    100 ≤ 2 ^ 64 - 65 ∧ Short .posix ⟨0, true, true⟩ 0 .init .nothingReserved 100 ∧
      ¬ Reported (globalSupply .release .posix ⟨0, true, true⟩) 0 .init .nothingReserved 100
        ⟨1, 0, 0⟩ := by
  have short := World.nothingReserved_short .posix ⟨0, true, true⟩
  exact ⟨by decide, short, short.not_reported .release ⟨1, 0, 0⟩⟩

end NpAlloc.Pool
