/-
**Chunk accounting of `np::mmap`.**

* **`chunk_accounting`** — every chunk below the frontier was issued to exactly one call, no two
  holders have the same chunk, and with no operation in progress the counters, the frontier,
  `count_free_list` and the clients' holdings agree (`Accounts`).
* `two_holders` — the tag assumption is needed: a schedule with `2 ^ 64` successful compare-exchanges
  between a pop's load and its own gives one chunk to two clients. The tag is a 64-bit word, so the
  stalled pop finds the `head_` it loaded, and installs a link that is long out of date.
-/

import NpAlloc.Mmap.Accounting
import NpAlloc.Mmap.CountFree

set_option linter.unusedSectionVars false

namespace NpAlloc.Mmap

variable {T : Type} [DecidableEq T] {s s' : State T} {t u : T}

/-! ### The accounting -/

/-- What the counters say when no operation is in progress. -/
structure Balanced [Fintype T] (s : State T) : Prop where
  frontier : s.getTotalAllocated.toNat = (s.head_ - s.ptr_) / kDefaultChunkSize
  returns : ∀ t, ∃ c, CountsFree s t c
  count : ∀ t c, CountsFree s t c →
    s.getTotalAllocated.toNat = c + ∑ u, (s.ghost.held u).length
  held : (s.perfAlloc + s.perfAllocFromFree - s.perfDealloc).toNat = ∑ u, (s.ghost.held u).length
  freed : (∀ u, s.ghost.held u = []) → ∀ t c, CountsFree s t c → s.getTotalAllocated.toNat = c

/-- **The accounting of chunks** in a state. -/
structure Accounts [Fintype T] (s : State T) : Prop where
  issued : ∀ i < (s.head_ - s.ptr_) / kDefaultChunkSize,
    (s.ghost.issued.map Prod.snd).count (chunkAt s.ptr_ i) = 1
  inside : ∀ chunk ∈ s.ghost.issued.map Prod.snd,
    ∃ i < (s.head_ - s.ptr_) / kDefaultChunkSize, chunk = chunkAt s.ptr_ i
  holders : ∀ t u chunk, chunk ∈ belongings s t → chunk ∈ belongings s u → t = u
  once : ∀ t, (belongings s t).Nodup
  quiescent : s.Quiescent → Balanced s

/-- **Chunk accounting.** In every state reached by any schedule of any number of threads, with the
frontier inside the reservation, every commit successful, and fewer than `2 ^ 64` successful
compare-exchanges on `free_head_` between an operation's load and its own compare-exchange. -/
theorem chunk_accounting [Fintype T] (reached : (machine T).Reachable Admitted s) : Accounts s := by
  obtain ⟨places, counters⟩ := Counters.reachable reached
  refine ⟨?_, ?_, ?_, places.nodup, fun quiescent => ?_⟩
  · intro i small
    rw [places.frontier_index] at small
    rw [places.issued]
    have distinct : ((List.range s.ghost.issued.length).map (chunkAt s.ptr_)).Nodup :=
      List.nodup_range.map (chunkAt_injective _)
    exact List.count_eq_one_of_mem distinct
      (List.mem_map.mpr ⟨i, List.mem_range.mpr small, rfl⟩)
  · intro chunk member
    rw [places.issued] at member
    obtain ⟨i, small, rfl⟩ := List.mem_map.mp member
    rw [places.frontier_index]
    exact ⟨i, List.mem_range.mp small, rfl⟩
  · intro t u chunk mine theirs
    by_contra other
    exact places.disjoint other mine theirs
  · have total := counters.quiescent_perfAlloc places quiescent
    have census := places.quiescent_census quiescent
    have count : ∀ t c, CountsFree s t c →
        s.getTotalAllocated.toNat = c + ∑ u, (s.ghost.held u).length := by
      intro t c counted
      rw [(countsFree_iff places (quiescent t) c).mp counted, total, census]
    refine ⟨?_, ?_, count, counters.quiescent_held places quiescent, ?_⟩
    · rw [total, places.frontier_index]
    · exact fun t => ⟨_, (countsFree_iff places (quiescent t) _).mpr rfl⟩
    · intro empty t c counted
      rw [count t c counted]
      simp [empty]

/-! ### A schedule that wraps the tag -/

/-- The `head` a thread is about to compare with `head_`. -/
def Pc.compared : Pc → Option Nat
  | .newCas head _ => some head
  | _ => none

instance (s : State T) (act : T × Act) : Decidable (Inside s act) :=
  decidable_of_iff (act.2 ≠ .commitFail ∧ (act.2 = .run → (s.pc act.1).compared = some s.head_ →
    s.head_ + kDefaultChunkSize ≤ s.ptr_ + s.size_)) <| by
  unfold Inside
  refine and_congr_right fun _ => forall_congr' fun _ => ?_
  cases here : s.pc act.1 <;> simp [Pc.compared, eq_comm]

/-- A state with nothing issued, over a reservation of four chunks. -/
def fourChunks : State Bool where
  ptr_ := kDefaultChunkSize
  size_ := 4 * kDefaultChunkSize
  head_ := kDefaultChunkSize
  freeHead := ⟨⟨0, none⟩, fun _ => none, fun _ => .idle,
    ⟨[], fun _ => .nobody, 0, fun _ => 0, fun _ => []⟩⟩
  perfAlloc := 0
  perfDealloc := 0
  perfAllocFromFree := 0
  pc := fun _ => .idle
  ghost := ⟨fun _ => [], fun _ => [], []⟩

theorem fourChunks_init : Init fourChunks where
  base := by decide
  space := by decide
  head := rfl
  freeHead := ⟨⟨rfl, fun _ => rfl, rfl, fun _ => by simp [fourChunks], rfl⟩, rfl⟩
  unissued := fun _ => rfl
  perfAlloc := rfl
  perfDealloc := rfl
  perfAllocFromFree := rfl
  pc := fun _ => rfl
  held := fun _ => rfl
  rest := fun _ => rfl
  issued := rfl

/-- What `u` sees of the calls of another thread. -/
structure Beside (u : T) (s s' : State T) : Prop where
  pc : s'.pc u = s.pc u
  inner : s'.freeHead.pc u = s.freeHead.pc u
  held : s'.ghost.held u = s.ghost.held u

/-- The frontier has not moved. -/
structure Still (s s' : State T) : Prop where
  ptr_ : s'.ptr_ = s.ptr_
  size_ : s'.size_ = s.size_
  head_ : s'.head_ = s.head_

/-- A whole `alloc_chunk` that finds a free chunk. -/
def allocActs (t : T) : List (T × Act) :=
  [(t, .callAlloc), (t, .run), (t, .run), (t, .run), (t, .run), (t, .run), (t, .ret)]

/-- A whole `free_chunk`. -/
def freeActs (t : T) (ptr : Nat) : List (T × Act) :=
  [(t, .callFree ptr), (t, .run), (t, .run), (t, .run), (t, .run), (t, .run), (t, .ret)]

theorem alloc_alone {aba : BitVec 64} {ptr : Nat} (here : s.pc t = .idle)
    (top : s.freeHead.head = ⟨aba, some ptr⟩) (some_ : ptr ≠ 0) :
    ∃ s', (machine T).Exec Inside s (allocActs t) s' ∧ s'.pc t = .idle ∧
      s'.freeHead.head = ⟨aba + 1, s.freeHead.next ptr⟩ ∧ s'.freeHead.next = s.freeHead.next ∧
      s'.ghost.held t = ptr :: s.ghost.held t ∧ Still s s' ∧ ∀ u, u ≠ t → Beside u s s' := by
  have found : ∃ s', (machine T).runFrom Inside s (allocActs t) = some s' ∧ s'.pc t = .idle ∧
      s'.freeHead.head = ⟨aba + 1, s.freeHead.next ptr⟩ ∧ s'.freeHead.next = s.freeHead.next ∧
      s'.ghost.held t = ptr :: s.ghost.held t ∧ Still s s' ∧ ∀ u, u ≠ t → Beside u s s' := by
    simp [allocActs, Machine.runFrom, machine, step, runStep, retStep, innerStep, LfStack.runStep,
      LfStack.Pc.result, here, top, some_, Inside, State.inner, State.returned, State.goto,
      State.hold, LfStack.State.goto, LfStack.State.load, LfStack.State.install]
    exact ⟨⟨rfl, rfl, rfl⟩, fun u other => ⟨Function.update_of_ne other _ _,
      Function.update_of_ne other _ _, Function.update_of_ne other _ _⟩⟩
  obtain ⟨s', run, rest⟩ := found
  exact ⟨s', Machine.exec_of_runFrom run, rest⟩

theorem free_alone (ptr : Nat) {aba : BitVec 64} {below : Option Nat} (here : s.pc t = .idle)
    (top : s.freeHead.head = ⟨aba, below⟩) (holds : ptr ∈ s.ghost.held t) :
    ∃ s', (machine T).Exec Inside s (freeActs t ptr) s' ∧ s'.pc t = .idle ∧
      s'.freeHead.head = ⟨aba + 1, some ptr⟩ ∧
      s'.freeHead.next = Function.update s.freeHead.next ptr below ∧
      s'.ghost.held t = (s.ghost.held t).erase ptr ∧ Still s s' ∧ ∀ u, u ≠ t → Beside u s s' := by
  have found : ∃ s', (machine T).runFrom Inside s (freeActs t ptr) = some s' ∧ s'.pc t = .idle ∧
      s'.freeHead.head = ⟨aba + 1, some ptr⟩ ∧
      s'.freeHead.next = Function.update s.freeHead.next ptr below ∧
      s'.ghost.held t = (s.ghost.held t).erase ptr ∧ Still s s' ∧ ∀ u, u ≠ t → Beside u s s' := by
    simp [freeActs, Machine.runFrom, machine, step, runStep, retStep, innerStep, LfStack.runStep,
      LfStack.Pc.result, here, top, holds, Inside, State.inner, State.returned, State.goto,
      State.hold, LfStack.State.goto, LfStack.State.load, LfStack.State.link,
      LfStack.State.install]
    exact ⟨⟨rfl, rfl, rfl⟩, fun u other => ⟨Function.update_of_ne other _ _,
      Function.update_of_ne other _ _, Function.update_of_ne other _ _⟩⟩
  obtain ⟨s', run, rest⟩ := found
  exact ⟨s', Machine.exec_of_runFrom run, rest⟩

/-- The first three chunks of `fourChunks`. -/
def chunkA : Nat := chunkAt kDefaultChunkSize 0

def chunkB : Nat := chunkAt kDefaultChunkSize 1

def chunkC : Nat := chunkAt kDefaultChunkSize 2

/-- A whole `alloc_chunk` that finds no free chunk. -/
def newActs (t : T) : List (T × Act) :=
  [(t, .callAlloc), (t, .run), (t, .run), (t, .run), (t, .run), (t, .run), (t, .run), (t, .run),
    (t, .run), (t, .ret)]

/-- `false` is stalled in `pop` with `head_ = {3, A}` and `next = B`; `A` alone is on the free stack
again, with tag `aba`, and `true` holds `B`. -/
structure Stalled (aba : BitVec 64) (s : State Bool) : Prop where
  here : s.pc false = .allocPop
  cas : s.freeHead.pc false = .popCas ⟨3, some chunkA⟩ ⟨4, some chunkB⟩
  idle : s.pc true = .idle
  top : s.freeHead.head = ⟨aba, some chunkA⟩
  bottom : s.freeHead.next chunkA = none
  kept : chunkB ∈ s.ghost.held true

/-- Three chunks are issued and freed, `false` starts its pop, and `true` takes all three and frees
the first: the tag is 7. -/
def overtakeActs : List (Bool × Act) :=
  newActs true ++ newActs true ++ newActs true ++ freeActs true chunkC
    ++ freeActs true chunkB ++ freeActs true chunkA
    ++ [(false, .callAlloc), (false, .run), (false, .run)]
    ++ allocActs true ++ allocActs true ++ allocActs true ++ freeActs true chunkA

theorem stalled_reachable : ∃ s, (machine Bool).Reachable Inside s ∧ Stalled 7 s := by
  have reached : ((machine Bool).runFrom Inside fourChunks overtakeActs).map (fun s =>
      (s.pc false, s.freeHead.pc false, s.pc true, s.freeHead.head, s.freeHead.next chunkA,
        decide (chunkB ∈ s.ghost.held true)))
      = some (.allocPop, .popCas ⟨3, some chunkA⟩ ⟨4, some chunkB⟩, .idle, ⟨7, some chunkA⟩, none,
        true) := by
    rfl
  obtain ⟨s, run, view⟩ := Option.map_eq_some_iff.mp reached
  simp only [Prod.mk.injEq, decide_eq_true_eq] at view
  obtain ⟨here, cas, idle, top, bottom, kept⟩ := view
  exact ⟨s, ⟨fourChunks, overtakeActs, fourChunks_init, Machine.exec_of_runFrom run⟩,
    here, cas, idle, top, bottom, kept⟩

/-- `true` allocates `A` and frees it: the tag grows by two. -/
theorem Stalled.cycle {aba : BitVec 64} {s : State Bool} (stalled : Stalled aba s) :
    ∃ acts s', (machine Bool).Exec Inside s acts s' ∧ Stalled (aba + 2) s' := by
  obtain ⟨here, cas, idle, top, bottom, kept⟩ := stalled
  obtain ⟨middle, run, idle', top', next', held', _, beside'⟩ := alloc_alone idle top (by decide)
  obtain ⟨last, rest, idle'', top'', next'', held'', _, beside''⟩ :=
    free_alone chunkA idle' top' (by rw [held']; exact List.mem_cons_self)
  have first := beside' false (by decide)
  have second := beside'' false (by decide)
  refine ⟨_, last, run.append rest, ?_, ?_, idle'', ?_, ?_, ?_⟩
  · rw [second.pc, first.pc, here]
  · rw [second.inner, first.inner, cas]
  · rw [top'']
    congr 1
    rw [BitVec.add_assoc]
    rfl
  · rw [next'', Function.update_self, bottom]
  · rw [held'', held', List.erase_cons_head]
    exact kept

/-- **A cycle that makes the tag grow by two**, many times. -/
theorem cycles_of_cycle {ok : State T → T × Act → Prop} {Stands : BitVec 64 → State T → Prop}
    (cycle : ∀ aba s, Stands aba s → ∃ acts s', (machine T).Exec ok s acts s' ∧ Stands (aba + 2) s')
    (k : Nat) {aba : BitVec 64} {s : State T} (stands : Stands aba s) :
    ∃ acts s', (machine T).Exec ok s acts s' ∧ Stands (aba + BitVec.ofNat 64 (2 * k)) s' := by
  induction k with
  | zero => exact ⟨[], s, .nil s, by simpa using stands⟩
  | succ k ih =>
    obtain ⟨acts, middle, run, stands'⟩ := ih
    obtain ⟨acts', last, rest, stands''⟩ := cycle _ middle stands'
    refine ⟨_, last, run.append rest, ?_⟩
    rw [Nat.mul_succ, BitVec.ofNat_add, ← BitVec.add_assoc]
    exact stands''

/-- The stalled pop resumes with the tag it has loaded, and the next one takes what it installed. -/
theorem Stalled.resume {s : State Bool} (stalled : Stalled 3 s) :
    ∃ acts s', (machine Bool).Exec Inside s acts s' ∧ chunkB ∈ s'.ghost.held true ∧
      chunkB ∈ s'.ghost.held false := by
  obtain ⟨here, cas, idle, top, bottom, kept⟩ := stalled
  have found : ∃ s', (machine Bool).runFrom Inside s
      [(false, .run), (false, .run), (false, .run), (false, .ret)] = some s' ∧
      s'.pc false = .idle ∧ s'.freeHead.head = ⟨4, some chunkB⟩ ∧
      s'.ghost.held true = s.ghost.held true := by
    have some_ : chunkA ≠ 0 := by decide
    simp [Machine.runFrom, machine, step, runStep, retStep, innerStep, LfStack.runStep,
      LfStack.Pc.result, here, cas, top, some_, Inside, State.inner, State.returned, State.goto,
      State.hold, LfStack.State.goto, LfStack.State.install]
  obtain ⟨middle, run, here', top', held'⟩ := found
  obtain ⟨last, rest, _, _, _, held'', _, beside⟩ := alloc_alone here' top' (by decide)
  refine ⟨_, last, (Machine.exec_of_runFrom run).append rest, ?_, ?_⟩
  · rw [(beside true (by decide)).held, held']
    exact kept
  · rw [held'']
    exact List.mem_cons_self

/-- **Without the tag assumption one chunk can have two holders.** -/
theorem two_holders : ∃ s : State Bool, (machine Bool).Reachable Inside s ∧
    ∃ chunk, chunk ∈ s.ghost.held true ∧ chunk ∈ s.ghost.held false := by
  obtain ⟨s, reached, stalled⟩ := stalled_reachable
  obtain ⟨acts, middle, run, wrapped⟩ :=
    cycles_of_cycle (fun _ _ stalled => stalled.cycle) (2 ^ 63 - 2) stalled
  obtain ⟨acts', last, rest, mine, theirs⟩ := Stalled.resume wrapped
  exact ⟨last, reached.exec (run.append rest), chunkB, mine, theirs⟩

/-! ### A run that keeps the assumption -/

instance (s : State T) (act : T × Act) : Decidable (TagFresh s act) := by
  unfold TagFresh
  infer_instance

instance (s : State T) (act : T × Act) : Decidable (Admitted s act) := by
  unfold Admitted
  infer_instance

/-- One thread allocates two chunks and frees the first: one is free, one is held. -/
theorem chunk_accounting_two : ∃ s : State Bool, (machine Bool).Reachable Admitted s ∧
    s.ghost.held true = [chunkB] ∧ Accounts s := by
  let acts := newActs true ++ newActs true ++ freeActs true chunkA
  have reached : ((machine Bool).runFrom Admitted fourChunks acts).map (fun s => s.ghost.held true)
      = some [chunkB] := by
    decide +kernel
  obtain ⟨s, run, held⟩ := Option.map_eq_some_iff.mp reached
  have reached : (machine Bool).Reachable Admitted s :=
    ⟨fourChunks, acts, fourChunks_init, Machine.exec_of_runFrom run⟩
  exact ⟨s, reached, held, chunk_accounting reached⟩

end NpAlloc.Mmap
