/-
**The chunks of a thread.**

A pool carves a block only when its free list is empty, and takes a chunk only when the last one is
full. What is freed goes to the pool of the thread that frees it. So the chunks of a thread follow from
how far the requests it was served ran ahead of the blocks it freed itself, and not from how many of its
blocks were live at once.

* `tally` — requests served minus blocks freed, by one thread in one class, and the most it ever was;
* `Moved.counted` — a step moves a pool with its tally;
* **`thread_footprint`** — the chunks in the chain of a class are the peak of the tally over the blocks
  of a chunk, rounded up.
-/

import NpAlloc.General.Progress
import NpAlloc.Threads.Lists

set_option linter.unusedSectionVars false

namespace NpAlloc.Threads

open Mmap Pool

variable {T : Type} [DecidableEq T] {s s' : State T} {n : Nat} {t u : T} {i : SizeClass}
  {build : Build} {L L' : Layout} {size C : Nat}

/-- Blocks of a class in a chunk. -/
def blocksPerChunk (i : SizeClass) : Nat := (kDefaultChunkSize - poolHeader) / classSize i

/-! ### The tally of a thread in a class -/

/-- What a step adds to the requests served to a thread, less the blocks it freed. -/
def drift (t : T) (i : SizeClass) (step : State T × Act T) : Int :=
  if takes t i step then 1 else if (gives t i step).isSome then -1 else 0

/-- The balance after a step, and the highest balance so far. -/
def tally (t : T) (i : SizeClass) (sofar : Int × Nat) (step : State T × Act T) : Int × Nat :=
  (sofar.1 + drift t i step, max sofar.2 (sofar.1 + drift t i step).toNat)

/-- **The tally of a run.** -/
def tallied (build : Build) (n : Nat) (t : T) (i : SizeClass) (start : State T) (acts : List (Act T)) :
    Int × Nat :=
  ((machine T build n).trail start acts).foldl (tally t i) (0, 0)

theorem tallied_snoc {ok : State T → Act T → Prop} {start : State T} {acts : List (Act T)} {act : Act T}
    (run : (machine T build n).Exec ok start acts s) (next : s.step build act = some s') :
    tallied build n t i start (acts ++ [act]) = tally t i (tallied build n t i start acts) (s, act) := by
  unfold tallied Machine.trail
  rw [run.along_snoc next, List.foldl_append]
  rfl

/-- **A pool and its tally**: what was carved is the peak; what is free makes up for the balance. -/
structure Counted (i : SizeClass) (L : Layout) (sofar : Int × Nat) : Prop where
  carved : (L.carved (classSize i)).length = sofar.2
  balance : sofar.1 + L.frees.length = sofar.2
  used : ∀ c ∈ L.chunks, 0 < c.count

/-- **A step moves a pool with its tally.** -/
theorem Moved.counted {step : State T × Act T} {sofar : Int × Nat} (moved : Moved t i step L L')
    (shape : L.Shape (classSize i) kDefaultChunkSize)
    (large : poolHeader + classSize i ≤ kDefaultChunkSize) (counted : Counted i L sofar) :
    Counted i L' (tally t i sofar step) := by
  obtain ⟨carved, balance, used⟩ := counted
  obtain ⟨now, peak⟩ := sofar
  simp only at carved balance
  unfold tally drift
  cases moved with
  | taken chunk take give fresh took =>
    rw [take]
    rcases shape.take_cases large fresh with
      ⟨block, rest, frees, result⟩ | ⟨frees, _, c, rest, head, _, result⟩
    · -- a block of the list is served again
      rw [took, result]
      rw [frees, List.length_cons] at balance
      refine ⟨?_, ?_, used⟩
      · show (L.carved (classSize i)).length = max peak (now + 1).toNat
        omega
      · show now + 1 + (rest.length : Int) = (max peak (now + 1).toNat : Nat)
        omega
    · -- everything that was carved is out: one block more
      have none_ : L'.frees = [] := by
        rw [took, Layout.take_frees, frees]
        rfl
      have more := ((shape.take_blocks large fresh).resolve_left fun again => by
        rw [frees] at again
        exact List.not_mem_nil again.1).2.2.length_eq
      rw [← took, List.length_cons] at more
      rw [frees] at balance
      simp only [List.length_nil, Nat.cast_zero, Int.add_zero] at balance
      refine ⟨?_, ?_, ?_⟩
      · show (L'.carved (classSize i)).length = max peak (now + 1).toNat
        omega
      · show now + 1 + (L'.frees.length : Int) = (max peak (now + 1).toNat : Nat)
        rw [none_]
        simp only [List.length_nil]
        omega
      · rw [took]
        exact shape.take_used large fresh used
  | given base take give frees chunks =>
    rw [take, give]
    refine ⟨?_, ?_, by rw [chunks]; exact used⟩
    · show (L'.carved (classSize i)).length = max peak (now + -1).toNat
      unfold Layout.carved at carved ⊢
      rw [chunks]
      omega
    · show now + -1 + (L'.frees.length : Int) = (max peak (now + -1).toNat : Nat)
      rw [frees, List.length_cons]
      omega
  | still take give frees chunks =>
    rw [take, give]
    refine ⟨?_, ?_, by rw [chunks]; exact used⟩
    · show (L'.carved (classSize i)).length = max peak (now + 0).toNat
      unfold Layout.carved at carved ⊢
      rw [chunks]
      omega
    · show now + 0 + (L'.frees.length : Int) = (max peak (now + 0).toNat : Nat)
      rw [frees]
      omega

/-! ### Runs -/

/-- Every class has room in a chunk. -/
theorem class_large (i : SizeClass) : poolHeader + classSize i ≤ kDefaultChunkSize := by
  have bounds := classSize_bounds i
  unfold poolHeader kDefaultChunkSize
  omega

/-- The layouts of an invariant have their shape. -/
theorem Inv.shape (inv : Inv n s) (t : T) (i : SizeClass) :
    (s.ghost.layout (t, i)).Shape (classSize i) kDefaultChunkSize := by
  have shape := inv.housing.family.shape (t, i)
  rwa [inv.size] at shape

/-- **Every pool in use has the tally of the run.** -/
theorem counted_run {start : State T} {acts : List (Act T)} (initial : State.Init n start)
    (run : (machine T build n).Exec (fun s act => Supplied n s act ∧ Orderly s act) start acts s) :
    Inv n s ∧ ∀ t i, Usable s t i →
      Counted i (s.ghost.layout (t, i)) (tallied build n t i start acts) := by
  refine run.snoc_induction (P := fun acts s => Inv n s ∧ ∀ t i, Usable s t i →
    Counted i (s.ghost.layout (t, i)) (tallied build n t i start acts)) ?_ ?_
  · refine ⟨.init initial, fun t i _ => ?_⟩
    rw [initial.layout]
    exact ⟨rfl, rfl, fun c member => absurd member List.not_mem_nil⟩
  · intro acts s act s' front before admitted next
    have after := before.1.orderly_step admitted.1 admitted.2 next
    refine ⟨after, fun t i usable => ?_⟩
    obtain ⟨usable', moved⟩ := moved_step before.1 admitted.1 after next usable
    rw [tallied_snoc front next]
    exact moved.counted (before.1.shape t i) (class_large i) (before.2 t i usable')

/-- **The footprint of a thread.** In every run of any threads, whose chunks are handed over settled, the
chain of a class that a thread has not given up holds `⌈P / m⌉` chunks: `P` is the most by which the
requests of the class that were served to the thread ever exceeded the blocks of the class it freed, and
`m` the blocks of a chunk. -/
theorem thread_footprint (build : Build) (n : Nat) (start s : State T) (acts : List (Act T))
    (initial : State.Init n start)
    (run : (machine T build n).Exec (fun s act => Supplied n s act ∧ Orderly s act) start acts s)
    (t : T) (i : SizeClass) (opens : (s.phase t).Open i) :
    ∃ chain, Linked (linkOf s.mem) (toPtr ((s.pool t).tlsPool i).head_) chain ∧
      chain.length = (tallied build n t i start acts).2
        ⌈/⌉ ((kDefaultChunkSize - poolHeader) / classSize i) := by
  obtain ⟨inv, counts⟩ := counted_run initial run
  have counted := counts t i (.inl opens)
  refine ⟨(s.ghost.layout (t, i)).bases, ?_, ?_⟩
  · rw [← view_head s (t, i)]
    exact (inv.represents (t, i)).chain
  · unfold Layout.bases
    rw [List.length_map, (inv.shape t i).chunks_length (class_large i) counted.used, counted.carved]
    rfl

/-- A thread whose only chunk was another one's before. -/
theorem thread_footprint_pair : ∃ s : State Bool,
    (machine Bool .debug 1).Exec (fun s act => Supplied 1 s act ∧ Orderly s act) State.pair pairCalls s ∧
    s.phase true = .exited ∧ s.live.map Block.bytes = [100] ∧
    ∃ chain, Linked (linkOf s.mem) (toPtr ((s.pool false).tlsPool (classOf 164)).head_) chain ∧
      chain.length = (tallied .debug 1 false (classOf 164) State.pair pairCalls).2
        ⌈/⌉ ((kDefaultChunkSize - poolHeader) / classSize (classOf 164)) := by
  obtain ⟨s, b, run, _, exited, idle, live, bytes, _⟩ := pair_orderly .debug
  refine ⟨s, run, exited, by rw [live]; simp [bytes], ?_⟩
  refine thread_footprint .debug 1 State.pair s pairCalls State.pair_init run false (classOf 164) ?_
  rw [idle]
  trivial

end NpAlloc.Threads
