/-
**The calls of `Mmap.Sequential` as schedules of `Mmap.Concurrent`.**

A thread that is not interrupted does what the sequential functions say: the free stack is the list that
is linked below its head, `alloc_chunk` takes the top of it, or the frontier, and `free_chunk` puts a
chunk on top. Other threads may stand anywhere, as long as they do not run.

* `Mirrors` — the two states agree;
* `reuse_alone`, `fresh_alone`, `free_alone'` — one call as a schedule;
* **`sequential_realised`** — every sequence of calls is a run of one thread, with the same chunks and
  counters, commits that fail and compare-exchanges on `head_` that fail spuriously included;
* **`mirrors_reachable`** — and there is such a session for every thread between two calls, in every
  state that is reached.
-/

import NpAlloc.Mmap.Exhaustion
import NpAlloc.Mmap.FailedCommit

set_option linter.unusedSectionVars false

namespace NpAlloc.Mmap

open NpAlloc.Mmap.Sequential (Session Env Call Exhausted)

variable {T : Type} [DecidableEq T] {s s' : State T} {t : T}

/-! ### What the calls change -/

/-- Everything but the free stack, the counters and a program counter. -/
structure Frontier (s s' : State T) (head_ : Nat) : Prop where
  ptr_ : s'.ptr_ = s.ptr_
  size_ : s'.size_ = s.size_
  head_ : s'.head_ = head_

/-- The three counters. -/
def State.counts (s : State T) : BitVec 64 × BitVec 64 × BitVec 64 :=
  (s.perfAlloc, s.perfDealloc, s.perfAllocFromFree)

/-- **An `alloc_chunk` that finds a free chunk**, with nothing between its steps. -/
theorem reuse_alone {aba : BitVec 64} {ptr : Nat} (here : s.pc t = .idle)
    (top : s.freeHead.head = ⟨aba, some ptr⟩) (some_ : ptr ≠ 0) :
    ∃ s', (machine T).Exec Fits s (allocActs t) s' ∧ s'.pc t = .idle ∧
      s'.freeHead.head.ptr = s.freeHead.next ptr ∧ s'.freeHead.next = s.freeHead.next ∧
      s'.ghost.held t = ptr :: s.ghost.held t ∧ Frontier s s' s.head_ ∧
      s'.counts = (s.perfAlloc, s.perfDealloc, s.perfAllocFromFree + 1) := by
  have found : ∃ s', (machine T).runFrom Fits s (allocActs t) = some s' ∧ s'.pc t = .idle ∧
      s'.freeHead.head.ptr = s.freeHead.next ptr ∧ s'.freeHead.next = s.freeHead.next ∧
      s'.ghost.held t = ptr :: s.ghost.held t ∧ Frontier s s' s.head_ ∧
      s'.counts = (s.perfAlloc, s.perfDealloc, s.perfAllocFromFree + 1) := by
    simp [allocActs, Machine.runFrom, machine, step, runStep, retStep, innerStep, LfStack.runStep,
      LfStack.Pc.result, here, top, some_, Fits, TagFresh, LfStack.TagFresh, LfStack.Pc.AtCas,
      State.inner, State.returned, State.goto, State.hold, LfStack.State.goto, LfStack.State.load,
      LfStack.State.install, State.counts]
    exact ⟨rfl, rfl, rfl⟩
  obtain ⟨s', run, rest⟩ := found
  exact ⟨s', Machine.exec_of_runFrom run, rest⟩

/-- **A `free_chunk`**, with nothing between its steps. -/
theorem free_alone' (ptr : Nat) {aba : BitVec 64} {below : Option Nat} (here : s.pc t = .idle)
    (top : s.freeHead.head = ⟨aba, below⟩) (holds : ptr ∈ s.ghost.held t) :
    ∃ s', (machine T).Exec Fits s (freeActs t ptr) s' ∧ s'.pc t = .idle ∧
      s'.freeHead.head.ptr = some ptr ∧
      s'.freeHead.next = Function.update s.freeHead.next ptr below ∧
      s'.ghost.held t = (s.ghost.held t).erase ptr ∧ Frontier s s' s.head_ ∧
      s'.counts = (s.perfAlloc, s.perfDealloc + 1, s.perfAllocFromFree) := by
  have found : ∃ s', (machine T).runFrom Fits s (freeActs t ptr) = some s' ∧ s'.pc t = .idle ∧
      s'.freeHead.head.ptr = some ptr ∧
      s'.freeHead.next = Function.update s.freeHead.next ptr below ∧
      s'.ghost.held t = (s.ghost.held t).erase ptr ∧ Frontier s s' s.head_ ∧
      s'.counts = (s.perfAlloc, s.perfDealloc + 1, s.perfAllocFromFree) := by
    simp [freeActs, Machine.runFrom, machine, step, runStep, retStep, innerStep, LfStack.runStep,
      LfStack.Pc.result, here, top, holds, Fits, TagFresh, LfStack.TagFresh, LfStack.Pc.AtCas,
      State.inner, State.returned, State.goto, State.hold, LfStack.State.goto, LfStack.State.load,
      LfStack.State.link, LfStack.State.install, State.counts]
    exact ⟨rfl, rfl, rfl⟩
  obtain ⟨s', run, rest⟩ := found
  exact ⟨s', Machine.exec_of_runFrom run, rest⟩

/-- `alloc_chunk` up to the compare-exchange on `head_`. -/
def towardsNew (t : T) : List (T × Act) :=
  [(t, .callAlloc), (t, .run), (t, .run), (t, .run), (t, .run), (t, .run)]

/-- A compare-exchange on `head_` that fails spuriously, and the loop back to it. -/
def again (t : T) : List (T × Act) := [(t, .spurious), (t, .run)]

/-- The rest of it, with the answer to the commit. -/
def fromNew (t : T) (refused : Bool) : List (T × Act) :=
  [(t, .run), (t, if refused then .commitFail else .run), (t, .run), (t, .ret)]

/-- **With an empty free stack it comes to the compare-exchange on `head_`.** -/
theorem towards_alone (here : s.pc t = .idle) (top : s.freeHead.head.ptr = none) (some_ : s.head_ ≠ 0) :
    ∃ s', (machine T).Exec Fits s (towardsNew t) s' ∧
      s'.pc t = .newCas s.head_ (getChunkPtr s.ptr_ (getChunkIndex s.ptr_ s.head_ + 1)) ∧
      s'.freeHead.pc t = .idle ∧ s'.freeHead.head = s.freeHead.head ∧ s'.freeHead.next = s.freeHead.next ∧
      s'.ghost.held t = s.ghost.held t ∧ Frontier s s' s.head_ ∧ s'.counts = s.counts := by
  have found : ∃ s', (machine T).runFrom Fits s (towardsNew t) = some s' ∧
      s'.pc t = .newCas s.head_ (getChunkPtr s.ptr_ (getChunkIndex s.ptr_ s.head_ + 1)) ∧
      s'.freeHead.pc t = .idle ∧ s'.freeHead.head = s.freeHead.head ∧ s'.freeHead.next = s.freeHead.next ∧
      s'.ghost.held t = s.ghost.held t ∧ Frontier s s' s.head_ ∧ s'.counts = s.counts := by
    simp [towardsNew, Machine.runFrom, machine, step, runStep, innerStep, LfStack.runStep,
      LfStack.Pc.result, here, top, some_, Fits, TagFresh, LfStack.TagFresh, LfStack.Pc.AtCas,
      State.inner, State.returned, State.goto, LfStack.State.goto, LfStack.State.load, State.counts]
    exact ⟨rfl, rfl, rfl⟩
  obtain ⟨s', run, rest⟩ := found
  exact ⟨s', Machine.exec_of_runFrom run, rest⟩

/-- A spurious failure changes nothing. -/
theorem again_alone (here : s.pc t = .newCas s.head_ (getChunkPtr s.ptr_ (getChunkIndex s.ptr_ s.head_ + 1)))
    (inner : s.freeHead.pc t = .idle) (some_ : s.head_ ≠ 0) : (machine T).Exec Fits s (again t) s := by
  let s₁ := s.goto t (.newTest s.head_)
  have here₁ : s₁.pc t = .newTest s.head_ := Function.update_self ..
  have failed : step s (t, .spurious) = some s₁ := by
    simp only [step, spuriousStep, here]
    rfl
  have back : step s₁ (t, .run) = some s := by
    have same : Function.update s₁.pc t
        (.newCas s.head_ (getChunkPtr s.ptr_ (getChunkIndex s.ptr_ s.head_ + 1))) = s.pc := by
      show Function.update (Function.update s.pc t _) t _ = s.pc
      rw [Function.update_idem, ← here, Function.update_eq_self]
    simp only [step, runStep, here₁, if_neg some_]
    exact congrArg (fun pc => some { s with pc := pc }) same
  have spurious : Fits s (t, .spurious) := ⟨fun ran => (by cases ran), fun ran => (by cases ran)⟩
  have retried : Fits s₁ (t, .run) := by
    refine ⟨fun _ head next cas => ?_, fun _ _ atCas => ?_⟩
    · rw [here₁] at cas
      cases cas
    · have idle : s₁.freeHead.pc t = .idle := inner
      rw [idle] at atCas
      exact atCas.elim
  exact .cons spurious failed (.single retried back)

/-- Nor do many of them. -/
theorem agains_alone (here : s.pc t = .newCas s.head_ (getChunkPtr s.ptr_ (getChunkIndex s.ptr_ s.head_ + 1)))
    (inner : s.freeHead.pc t = .idle) (some_ : s.head_ ≠ 0) (k : Nat) :
    (machine T).Exec Fits s (List.replicate k (again t)).flatten s := by
  induction k with
  | zero => exact .nil s
  | succ k ih =>
    rw [List.replicate_succ, List.flatten_cons]
    exact (again_alone here inner some_).append ih

/-- **The compare-exchange succeeds**, and the system grants the memory or refuses it. -/
theorem from_alone {next : Nat} (refused : Bool) (here : s.pc t = .newCas s.head_ next)
    (inner : s.freeHead.pc t = .idle) (some_ : s.head_ ≠ 0)
    (room : s.head_ + kDefaultChunkSize ≤ s.ptr_ + s.size_) :
    ∃ s', (machine T).Exec Fits s (fromNew t refused) s' ∧ s'.pc t = .idle ∧
      s'.freeHead.head = s.freeHead.head ∧ s'.freeHead.next = s.freeHead.next ∧
      s'.ghost.held t = (if refused then s.ghost.held t else s.head_ :: s.ghost.held t) ∧
      Frontier s s' next ∧ s'.counts = (s.perfAlloc + 1, s.perfDealloc, s.perfAllocFromFree) := by
  have found : ∃ s', (machine T).runFrom Fits s (fromNew t refused) = some s' ∧ s'.pc t = .idle ∧
      s'.freeHead.head = s.freeHead.head ∧ s'.freeHead.next = s.freeHead.next ∧
      s'.ghost.held t = (if refused then s.ghost.held t else s.head_ :: s.ghost.held t) ∧
      Frontier s s' next ∧ s'.counts = (s.perfAlloc + 1, s.perfDealloc, s.perfAllocFromFree) := by
    cases refused <;>
      simp [fromNew, Machine.runFrom, machine, step, runStep, retStep, commitFailStep, here, inner, some_,
        room, Fits, TagFresh, LfStack.TagFresh, LfStack.Pc.AtCas, State.issue, State.goto, State.hold,
        LfStack.State.own, State.counts] <;>
      exact ⟨rfl, rfl, rfl⟩
  obtain ⟨s', run, rest⟩ := found
  exact ⟨s', Machine.exec_of_runFrom run, rest⟩

/-- The schedule of a whole `alloc_chunk` that finds no free chunk. -/
def freshActs (t : T) (spurious : Nat) (refused : Bool) : List (T × Act) :=
  towardsNew t ++ (List.replicate spurious (again t)).flatten ++ fromNew t refused

/-- **An `alloc_chunk` that takes a chunk from the frontier**, with nothing between its steps. -/
theorem fresh_alone (spurious : Nat) (refused : Bool) (here : s.pc t = .idle)
    (top : s.freeHead.head.ptr = none) (some_ : s.head_ ≠ 0)
    (room : s.head_ + kDefaultChunkSize ≤ s.ptr_ + s.size_) :
    ∃ s', (machine T).Exec Fits s (freshActs t spurious refused) s' ∧ s'.pc t = .idle ∧
      s'.freeHead.head = s.freeHead.head ∧ s'.freeHead.next = s.freeHead.next ∧
      s'.ghost.held t = (if refused then s.ghost.held t else s.head_ :: s.ghost.held t) ∧
      Frontier s s' (getChunkPtr s.ptr_ (getChunkIndex s.ptr_ s.head_ + 1)) ∧
      s'.counts = (s.perfAlloc + 1, s.perfDealloc, s.perfAllocFromFree) := by
  obtain ⟨middle, before, cas, inner, head, next, held, frontier, counts⟩ := towards_alone here top some_
  rw [← frontier.head_, ← frontier.ptr_] at cas
  have some' : middle.head_ ≠ 0 := by rwa [frontier.head_]
  obtain ⟨s', after, idle, head', next', held', frontier', counts'⟩ :=
    from_alone refused cas inner some' (by rwa [frontier.head_, frontier.ptr_, frontier.size_])
  obtain ⟨alloc, rest⟩ := Prod.mk.inj counts
  obtain ⟨dealloc, fromFree⟩ := Prod.mk.inj rest
  refine ⟨s', (before.append (agains_alone cas inner some' spurious)).append after, idle,
    head'.trans head, next'.trans next, ?_, ⟨frontier'.ptr_.trans frontier.ptr_,
      frontier'.size_.trans frontier.size_, ?_⟩, ?_⟩
  · rw [held', held, frontier.head_]
  · rw [frontier'.head_, frontier.head_, frontier.ptr_]
  · rw [counts', alloc, dealloc, fromFree]

/-! ### Sequences of calls -/

/-- The counters of a pool. -/
def countsOf (m : Sequential.Pool) : BitVec 64 × BitVec 64 × BitVec 64 :=
  (m.perfAlloc, m.perfDealloc, m.perfAllocFromFree)

/-- **A thread between two calls sees a `Mmap.Sequential` session.** -/
structure Mirrors (s : State T) (t : T) (q : Session) : Prop where
  idle : s.pc t = .idle
  ptr_ : s.ptr_ = q.pool.ptr_
  size_ : s.size_ = q.pool.size_
  head_ : s.head_ = q.pool.head_
  free : Linked s.freeHead.next s.freeHead.head.ptr q.pool.freeHead
  held : s.ghost.held t = q.held
  counts : s.counts = countsOf q.pool
  once : (q.held ++ q.pool.freeHead).Nodup

/-- No `alloc_chunk` on an exhausted pool. -/
def Unexhausted (q : Session) (call : Call) : Prop := ∀ env, call = .allocChunk env → ¬ Exhausted q.pool

variable {build : Build} {platform : Platform} {q q' : Session} {n : Nat}

/-- `virtual_alloc` counts nothing. -/
theorem virtualAlloc_counts (m : Sequential.Pool) (platform : Platform) (env : Env) (address : Nat) :
    ((m.virtualAlloc platform env address).1 = address ∨ (m.virtualAlloc platform env address).1 = 0) ∧
      countsOf (m.virtualAlloc platform env address).2 = countsOf m := by
  unfold Sequential.Pool.virtualAlloc
  cases env.commit <;> cases platform <;> cases env.remap
  all_goals first
    | exact ⟨.inl rfl, rfl⟩
    | exact ⟨.inr rfl, rfl⟩

/-- A commit that comes back gives the chunk or null, and is counted either way. -/
theorem commitChunk_counts {m m' : Sequential.Pool} {head ptr : Nat} {env : Env}
    (result : m.commitChunk build platform env head = .ok (ptr, m')) :
    (ptr = head ∨ ptr = 0) ∧ countsOf m' = (m.perfAlloc + 1, m.perfDealloc, m.perfAllocFromFree) := by
  obtain ⟨answer, same⟩ := virtualAlloc_counts m platform env head
  unfold Sequential.Pool.commitChunk at result
  simp only [bind, Except.bind] at result
  split at result <;> try cases result
  split at result <;> cases result
  obtain ⟨alloc, rest⟩ := Prod.mk.inj same
  obtain ⟨dealloc, fromFree⟩ := Prod.mk.inj rest
  refine ⟨answer, ?_⟩
  unfold countsOf
  simp only [alloc, dealloc, fromFree]

/-- **Every call is a schedule of the thread.** -/
theorem Mirrors.step (mirrors : Mirrors s t q) (sound : q.Sound n) {call : Call}
    (more : Unexhausted q call) (next : q.step build platform call = some q') :
    ∃ acts s', (machine T).Exec Fits s acts s' ∧ (∀ act ∈ acts, act.1 = t) ∧ Mirrors s' t q' := by
  obtain ⟨k, sound, held⟩ := sound
  obtain ⟨idle, base, size, head, free, holds, counts, once⟩ := mirrors
  obtain ⟨alloc, rest⟩ := Prod.mk.inj counts
  obtain ⟨dealloc, fromFree⟩ := Prod.mk.inj rest
  cases call with
  | allocChunk env =>
    simp only [Session.step] at next
    cases stack : q.pool.freeHead with
    | cons ptr below =>
      -- the top of the free stack
      rw [sound.allocChunk_free stack] at next
      obtain ⟨i, less, chunk⟩ := sound.free ptr (by rw [stack]; exact List.mem_cons_self)
      have some_ : ptr ≠ 0 := by
        have positive := sound.base
        unfold chunkAt at chunk
        omega
      simp only [if_neg some_, Option.some.injEq] at next
      subst next
      rw [stack] at free once
      obtain ⟨top, chain⟩ := free
      have head' : s.freeHead.head = ⟨s.freeHead.head.aba, some ptr⟩ := by rw [← top]
      obtain ⟨s', run, idle', top', next', held', frontier, counts'⟩ := reuse_alone idle head' some_
      refine ⟨_, s', run, by simp [allocActs], idle', frontier.ptr_.trans base,
        frontier.size_.trans size, frontier.head_.trans head, ?_, ?_, ?_, ?_⟩
      · rw [top', next']
        exact chain
      · rw [held', holds]
      · rw [counts', alloc, dealloc, fromFree]
        rfl
      · exact (List.perm_middle.nodup_iff).mp once
    | nil =>
      -- a new chunk
      have room : k < n := by
        have ended := more env rfl
        rw [sound.exhausted_iff] at ended
        have issued := sound.issued
        have unfinished : k ≠ n := fun same => ended ⟨stack, same⟩
        omega
      obtain ⟨some_, _, split⟩ := sound.allocChunk_commit build platform stack room env
      rw [split] at next
      have empty : s.freeHead.head.ptr = none := by
        rw [stack] at free
        exact free
      have inside : s.head_ + kDefaultChunkSize ≤ s.ptr_ + s.size_ := by
        have less := Nat.mul_le_mul_right kDefaultChunkSize (show k + 1 ≤ n from room)
        rw [head, base, size, sound.head, sound.size, ← chunkAt_succ]
        unfold chunkAt
        omega
      have advanced : getChunkPtr s.ptr_ (getChunkIndex s.ptr_ s.head_ + 1)
          = chunkAt q.pool.ptr_ (k + 1) := by
        rw [base, head, sound.head]
        exact next_chunkAt (sound.fits room)
      have new : q.pool.head_ ∉ q.held ++ q.pool.freeHead := by
        intro member
        rw [stack, List.append_nil] at member
        obtain ⟨i, less, same⟩ := held _ member
        rw [sound.head] at same
        have indices := chunkAt_injective _ same
        omega
      split at next
      · rename_i ptr pool result
        cases next
        obtain ⟨given, counted⟩ := commitChunk_counts result
        have kept := Sequential.commitChunk_kept result
        have some' : s.head_ ≠ 0 := by rwa [head]
        obtain ⟨s', run, idle', head', next', held', frontier, counts'⟩ :=
          fresh_alone env.spurious (decide (ptr = 0)) idle empty some' inside
        have mine : ∀ act ∈ freshActs t env.spurious (decide (ptr = 0)), act.1 = t := by
          intro act member
          unfold freshActs towardsNew fromNew again at member
          simp only [List.mem_append, List.mem_cons, List.not_mem_nil, or_false, List.mem_flatten,
            List.mem_replicate] at member
          rcases member with (member | ⟨list, ⟨_, rfl⟩, member⟩) | member
          · rcases member with rfl | rfl | rfl | rfl | rfl | rfl <;> rfl
          · simp only [List.mem_cons, List.not_mem_nil, or_false] at member
            rcases member with rfl | rfl <;> rfl
          · rcases member with rfl | rfl | rfl | rfl <;> rfl
        refine ⟨_, s', run, mine, idle', ?_, ?_, ?_, ?_, ?_, ?_, ?_⟩
        · rw [frontier.ptr_, base]
          exact kept.ptr.symm
        · rw [frontier.size_, size]
          exact kept.size.symm
        · rw [frontier.head_, advanced]
          exact kept.head.symm
        · rw [head', next', kept.free]
          exact free
        · rw [held', holds, head]
          rcases given with rfl | rfl
          · rw [if_neg some_, decide_eq_false some_, if_neg Bool.false_ne_true]
          · simp
        · rw [counts', counted, alloc, dealloc, fromFree]
        · rw [kept.free]
          split
          · exact once
          · rename_i some''
            rcases given with rfl | null
            · exact List.nodup_cons.mpr ⟨new, once⟩
            · exact absurd null some''
      · cases next
  | freeChunk ptr =>
    simp only [Session.step, Option.ite_none_right_eq_some, Option.some.injEq] at next
    obtain ⟨member, rfl⟩ := next
    have holds' : ptr ∈ s.ghost.held t := by rwa [holds]
    have outside : ptr ∉ q.pool.freeHead := fun free =>
      (List.disjoint_of_nodup_append once) member free
    obtain ⟨s', run, idle', top', next', held', frontier, counts'⟩ :=
      free_alone' ptr idle rfl holds'
    refine ⟨_, s', run, by simp [freeActs], idle', frontier.ptr_.trans base,
      frontier.size_.trans size, frontier.head_.trans head, ?_, ?_, ?_, ?_⟩
    · refine ⟨top', ?_⟩
      rw [next', Function.update_self]
      exact free.update outside _
    · rw [held', holds]
    · rw [counts', alloc, dealloc, fromFree]
      rfl
    · show (q.held.erase ptr ++ ptr :: q.pool.freeHead).Nodup
      rw [List.perm_middle.nodup_iff]
      exact ((List.perm_cons_erase member).append_right q.pool.freeHead).nodup_iff.mp once

/-- **The sequential functions are what one thread does.** From any state of the concurrent program in
which a thread is between two calls, wherever the others stand: every sequence of `alloc_chunk` and
`free_chunk`, none of them on an exhausted pool, is realised by a run of this thread alone, which ends
with the same frontier, free stack, counters and held chunks, as long as the thread runs. -/
theorem sequential_realised (build : Build) (platform : Platform)
    (virtualReserve : Nat → Nat → Option Nat) (n : Nat) (q q' : Session) (sound : q.Sound n)
    (s : State T) (t : T) (mirrors : Mirrors s t q) (calls : List Call)
    (run : (Sequential.machine build platform virtualReserve).Exec Unexhausted q calls q') :
    ∃ acts s', (machine T).Exec Fits s acts s' ∧ (∀ act ∈ acts, act.1 = t) ∧ Mirrors s' t q' := by
  induction run generalizing s with
  | nil => exact ⟨[], s, .nil s, fun act member => absurd member List.not_mem_nil, mirrors⟩
  | cons admitted next _ ih =>
    obtain ⟨first, middle, front, mine, mirrors'⟩ := mirrors.step sound admitted next
    obtain ⟨second, s', back, mine', mirrors''⟩ := ih (sound.step admitted next) middle mirrors'
    refine ⟨first ++ second, s', front.append back, fun act member => ?_, mirrors''⟩
    rcases List.mem_append.mp member with here | there
    · exact mine act here
    · exact mine' act there

/-- **After `reserve`** every thread sees the session of a new pool. -/
theorem mirrors_init (initial : Init s) (t : T) :
    Mirrors s t ⟨⟨s.ptr_, s.size_, s.ptr_, [], 0, 0, 0, []⟩, []⟩ := by
  refine ⟨initial.pc t, rfl, rfl, initial.head, ?_, initial.held t, ?_, List.nodup_nil⟩
  · rw [initial.freeHead.1.head]
    rfl
  · unfold State.counts
    rw [initial.perfAlloc, initial.perfDealloc, initial.perfAllocFromFree]
    rfl

/-- **A thread between two calls always sees a sound session**, whatever has happened before: on a
reservation of `n` chunks, with commits that failed and other threads anywhere. -/
theorem mirrors_reachable [Fintype T] (reached : (machine T).Reachable Fits s)
    (size : s.size_ = n * kDefaultChunkSize) (count : n ≤ Sequential.getChunkCount)
    (idle : s.pc t = .idle) : ∃ q, q.Sound n ∧ Mirrors s t q := by
  obtain ⟨start, acts, initial, run⟩ := reached
  obtain ⟨lost, pc, held, lossy, _⟩ := (Lossy.start initial).run run
  have places := lossy.places
  obtain ⟨same, perm⟩ := (lossy.covers t).plain (by simp [idle]) (by simp [idle])
  -- what the thread holds is part of what it holds in the run without failures
  have still : (s.cover pc held).pc t = .idle := same.trans idle
  have owns : belongings (s.cover pc held) t = held t := places.belongings_idle still
  have mine : ∀ chunk ∈ s.ghost.held t, chunk ∈ held t := fun chunk member =>
    perm.mem_iff.mpr (List.mem_append_right _ member)
  have nodup : (s.ghost.held t).Nodup := by
    have all := places.nodup t
    rw [owns, perm.nodup_iff] at all
    exact all.of_append_right
  have issued : ∀ chunk, chunk ∈ s.freeHead.ghost.stack ∨ chunk ∈ s.ghost.held t →
      ∃ i < s.ghost.issued.length, chunk = chunkAt s.ptr_ i := by
    rintro chunk (free | member)
    · exact (places.issued_iff chunk).mpr (.inl free)
    · refine (places.issued_iff chunk).mpr (.inr ⟨t, ?_⟩)
      rw [owns]
      exact mine chunk member
  have frontier : s.head_ = chunkAt s.ptr_ s.ghost.issued.length := places.frontier
  have fits : s.ghost.issued.length ≤ n := by
    have inside : s.head_ ≤ s.ptr_ + s.size_ := places.inside
    rw [frontier, size] at inside
    unfold chunkAt kDefaultChunkSize at inside
    omega
  refine ⟨⟨⟨s.ptr_, s.size_, s.head_, s.freeHead.ghost.stack, s.perfAlloc, s.perfDealloc,
    s.perfAllocFromFree, []⟩, s.ghost.held t⟩, ⟨s.ghost.issued.length,
      ⟨places.base, size, places.space, count, fits, frontier, fun chunk free => issued chunk (.inl free)⟩,
      fun chunk member => issued chunk (.inr member)⟩, ?_⟩
  refine ⟨idle, rfl, rfl, rfl, places.stack.chain, rfl, rfl, ?_⟩
  refine List.nodup_append'.mpr ⟨nodup, places.stack_nodup, fun chunk member free => ?_⟩
  refine places.not_free (t := t) free ?_
  rw [owns]
  exact mine chunk member

/-- A chunk is allocated, freed, and allocated again on a reservation of four. -/
theorem sequential_realised_again : ∃ (acts : List (Bool × Act)) (s : State Bool) (q : Session),
    (machine Bool).Exec Fits fourChunks acts s ∧ (∀ act ∈ acts, act.1 = true) ∧ Mirrors s true q ∧
    q.held = [chunkA] ∧ q.pool.perfAllocFromFree = 1 := by
  have sound : Session.Sound ⟨⟨kDefaultChunkSize, 4 * kDefaultChunkSize, kDefaultChunkSize, [], 0, 0, 0, []⟩,
      []⟩ 4 :=
    ⟨0, ⟨by decide, rfl, by decide, by decide, by decide, rfl, fun _ member => absurd member List.not_mem_nil⟩,
      fun _ member => absurd member List.not_mem_nil⟩
  have mirrors := mirrors_init fourChunks_init true
  have run : ∃ q : Session, (Sequential.machine .release .posix fun _ _ => none).Exec Unexhausted
      ⟨⟨kDefaultChunkSize, 4 * kDefaultChunkSize, kDefaultChunkSize, [], 0, 0, 0, []⟩, []⟩
      [.allocChunk ⟨2, false, true⟩, .freeChunk chunkA, .allocChunk ⟨0, true, true⟩] q ∧
      q.held = [chunkA] ∧ q.pool.perfAllocFromFree = 1 := by
    refine ⟨_, .cons (fun _ _ ended => ?_) rfl (.cons (fun _ other => ?_) rfl
      (.single (fun _ _ ended => ?_) rfl)), rfl, rfl⟩
    · exact absurd ended.2 (by decide)
    · cases other
    · exact absurd ended.1 (List.cons_ne_nil _ _)
  obtain ⟨q, exec, held, fromFree⟩ := run
  obtain ⟨acts, s, schedule, mine, after⟩ := sequential_realised .release .posix (fun _ _ => none) 4 _ q
    sound fourChunks true mirrors _ exec
  exact ⟨acts, s, q, schedule, mine, after, held, fromFree⟩

end NpAlloc.Mmap
