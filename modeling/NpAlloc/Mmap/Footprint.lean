/-
**The footprint of the chunk pool.**

A thread decides to issue a new chunk when it sees the free stack empty, and issues it much later. At the
moment the last of these threads sees it empty, every chunk issued so far is with a client or in the hand
of a call, and every chunk issued from then on goes to a call that is in progress and empty-handed.

* `peak` — the most that was held by clients and calls at any one time of a run.
* `Deciding` — a thread that has seen the free stack empty, and has not issued its chunk yet.
* **`footprint_bounded`** — no more chunks are ever issued than the peak so far.
-/

import NpAlloc.Mmap.ChunkAccounting

set_option linter.unusedSectionVars false

namespace NpAlloc.Mmap

variable {T : Type} [DecidableEq T] {s s' : State T} {t u : T}

/-! ### What is in use -/

/-- A call is in progress. -/
def Pc.busy : Pc → Nat
  | .idle => 0
  | _ => 1

/-- What a thread has in use: the chunks its client holds, and its call. -/
def share (s : State T) (t : T) : Nat := (s.ghost.held t).length + (s.pc t).busy

/-- **The chunks clients hold and the calls in progress**, counted together. -/
def State.load [Fintype T] (s : State T) : Nat := ∑ t, share s t

/-- **The most that was in use at any one time** of the run these actions make. -/
def peak [Fintype T] (s : State T) : List (T × Act) → Nat
  | [] => s.load
  | act :: acts => max s.load (((step s act).map fun s' => peak s' acts).getD 0)

/-- A run of `alloc_chunk` and `free_chunk` alone. -/
def Steady (s : State T) (act : T × Act) : Prop := Admitted s act ∧ act.2 ≠ .callCount

/-- Only a call of `count_free_list` leads into it. -/
theorem detach_entered {act : Act} (idle : s.pc t = .idle) (next : step s (t, act) = some s')
    (entered : s'.pc t = .countDetach) : act = .callCount := by
  have pc := congrArg (Option.map fun s' : State T => s'.pc t) next
  rw [Option.map_some, entered] at pc
  cases act with
  | callCount => rfl
  | callAlloc => simp [step, idle, State.inner] at pc
  | callFree ptr =>
    simp only [step, idle, true_and] at pc
    split at pc <;> simp [State.inner, State.hold] at pc
  | run => simp [step, runStep, idle] at pc
  | spurious =>
    simp only [step, spuriousStep, idle, Option.map_map] at pc
    obtain ⟨freeHead, _, same⟩ := Option.map_eq_some_iff.mp pc
    exact absurd (idle.symm.trans same) (by simp)
  | commitFail => simp [step, commitFailStep, idle] at pc
  | ret => simp [step, retStep, idle] at pc
  | write chunk link =>
    simp only [step, idle, true_and] at pc
    split at pc <;> simp [idle] at pc

/-- A run without `count_free_list` is nowhere in it. -/
theorem not_counting_step {act : T × Act} (steady : Steady s act) (next : step s act = some s')
    (calm : ∀ u, (s.pc u).counting = false) (u : T) : (s'.pc u).counting = false := by
  obtain ⟨t, act⟩ := act
  have mine : ∀ pc : Pc, pc.counting = false → (Function.update s.pc t pc u).counting = false := by
    intro pc quiet
    by_cases same : u = t
    · rw [same, Function.update_self]
      exact quiet
    · rw [Function.update_of_ne same]
      exact calm u
  have here := calm t
  cases moves_of_step steady.1.1 steady.1.2 next with
  | callCount idle => exact absurd (detach_entered idle next (Function.update_self ..)) steady.2
  | internal freeHead moved => exact calm u
  | write chunk link idle holds => exact calm u
  | detached result there done => rw [there] at here; cases here
  | walkEnd c there => rw [there] at here; cases here
  | walk ptr c there => rw [there] at here; cases here
  | walked after c there => rw [there] at here; cases here
  | _ => exact mine _ rfl

/-! ### The threads that decide -/

/-- **The thread has seen the free stack empty**, and is going to issue a chunk. -/
def deciding (s : State T) (t : T) : Nat :=
  match s.pc t with
  | .allocPop =>
    match s.freeHead.pc t with
    | .popRead curr => if curr.ptr = none then 1 else 0
    | .popRet none => 1
    | _ => 0
  | .newLoad | .newTest _ | .newCas _ _ => 1
  | _ => 0

/-- **A thread's share**: what it has apart from what its client holds is at most one chunk, and none
while it decides. -/
theorem Places.share_le (places : Places s) (calm : (s.pc t).counting = false) :
    (belongings s t).length + deciding s t ≤ share s t := by
  have rest : s.ghost.rest t = [] := by
    refine places.rest_nil ?_
    cases here : s.pc t <;> rw [here] at calm <;> first | rfl | cases calm
  have kind := places.kind t
  unfold belongings outside deciding share
  rw [rest]
  simp only [List.length_append, List.append_nil]
  have outer : (s.pc t).kind = .idle → (LfStack.hand s.freeHead t).length = 0 := fun idle => by
    rw [places.hand_nil idle]
    rfl
  cases here : s.pc t <;> rw [here] at kind calm outer
  case allocPop =>
    unfold LfStack.hand
    cases there : s.freeHead.pc t <;> rw [there] at kind <;> try cases kind
    case popRead curr =>
      by_cases null : curr.ptr = none <;> simp [Pc.hand, LfStack.Pc.hand, Pc.busy, null]
    case popRet result => cases result <;> simp [Pc.hand, LfStack.Pc.hand, Pc.busy]
    all_goals simp [Pc.hand, LfStack.Pc.hand, Pc.busy]
  case freePush =>
    unfold LfStack.hand
    cases there : s.freeHead.pc t <;> rw [there] at kind <;> try cases kind
    all_goals simp [Pc.hand, LfStack.Pc.hand, Pc.busy]
  case allocRet ptr =>
    rw [outer rfl]
    by_cases null : ptr = 0 <;> simp [Pc.hand, Pc.busy, null]
  case countDetach | countWalk ptr c | countPush next c | countRet c => cases calm
  all_goals
    rw [outer rfl]
    simp [Pc.hand, Pc.busy]

/-- **When the free stack is empty** everything issued is in use, and so is the place of every thread
that decides. -/
theorem Places.empty_census [Fintype T] (places : Places s)
    (calm : ∀ u, (s.pc u).counting = false) (empty : s.freeHead.ghost.stack = []) :
    s.ghost.issued.length + ∑ u, deciding s u ≤ s.load := by
  rw [places.census, empty, List.length_nil, Nat.zero_add, ← Finset.sum_add_distrib]
  exact Finset.sum_le_sum fun u _ => places.share_le (calm u)

/-! ### Every step -/

/-- A step of another thread leaves a thread where it stands. -/
theorem Moves.elsewhere (places : Places s) (moved : Moves s t s') (other : u ≠ t) :
    s'.pc u = s.pc u ∧ s'.freeHead.pc u = s.freeHead.pc u := by
  have same : ∀ pc : Pc, Function.update s.pc t pc u = s.pc u :=
    fun pc => Function.update_of_ne other _ _
  have inside : ∀ pc : LfStack.Pc Nat, Function.update s.freeHead.pc t pc u = s.freeHead.pc u :=
    fun pc => Function.update_of_ne other _ _
  cases moved with
  | internal freeHead moved => exact ⟨rfl, (moved.untouched places.stack other).pc⟩
  | write chunk link => exact ⟨rfl, rfl⟩
  | load | null | next | issue | commit | reuse | count | dealloc | walkEnd | retAlloc | ret =>
    exact ⟨same _, rfl⟩
  | callAlloc | callFree | callCount | popped | poppedNull | pushed | detached | walk | walked =>
    exact ⟨same _, inside _⟩

/-- A load sees the free stack empty, and no other step inside `pop` decides. -/
theorem decides_internal (places : Places s) (here : s.pc t = .allocPop)
    {freeHead : LfStack.State T Nat} (moved : LfStack.Internal s.freeHead t freeHead) :
    s.ghost.issued.length + deciding { s with freeHead := freeHead } t
        ≤ s.ghost.issued.length + deciding s t ∨ freeHead.ghost.stack = [] := by
  have inv := places.stack
  have kind := places.kind t
  rw [here] at kind
  unfold deciding
  simp only [here]
  cases moved with
  | popLoad entered =>
    cases top : s.freeHead.head.ptr with
    | none =>
      right
      have chain := inv.chain
      rw [top] at chain
      exact chain.eq_nil
    | some node =>
      left
      simp [LfStack.State.load, top]
  | popNull curr there null =>
    left
    simp [LfStack.State.goto, there, null]
  | popNext curr node there top =>
    left
    simp [LfStack.State.goto]
  | popCas curr next there equal bound =>
    obtain ⟨top, rest, split, ptr, -⟩ := LfStack.popCas_installs inv there equal bound
    left
    simp [LfStack.State.install, ptr]
  | pushLoad ptr entered | detachLoad entered =>
    rcases entered with there | ⟨curr, next, there⟩ <;> rw [there] at kind <;> cases kind
  | pushWrite _ _ there | pushCas _ _ _ there | detachNull _ there | detachNext _ _ there
  | detachCas _ _ there =>
    rw [there] at kind
    cases kind

/-- **A step decides nothing new, or the free stack is empty.** -/
theorem Moves.decides (places : Places s) (moved : Moves s t s') :
    s'.ghost.issued.length + deciding s' t ≤ s.ghost.issued.length + deciding s t ∨
      s'.freeHead.ghost.stack = [] := by
  -- a step into a place where nothing is decided
  have idle : s'.ghost.issued = s.ghost.issued → deciding s' t = 0 →
      s'.ghost.issued.length + deciding s' t ≤ s.ghost.issued.length + deciding s t ∨
        s'.freeHead.ghost.stack = [] := fun issued none_ => by
    left
    rw [issued, none_]
    exact Nat.le_add_right _ _
  have kind := places.kind t
  cases moved with
  | internal freeHead moved =>
    by_cases here : s.pc t = .allocPop
    · exact decides_internal places here moved
    · left
      unfold deciding
      cases there : s.pc t <;> first | exact Nat.le_refl _ | exact absurd there here
  | issue next here bound =>
    left
    simp [State.issue, deciding, here]
  | poppedNull here done =>
    have there := (LfStack.Pc.eq_of_result done).1 (by rw [kind, here]; rfl)
    left
    simp [State.inner, deciding, here, there]
  | load here =>
    left
    rcases here with here | ⟨head, next, here⟩ <;> simp [State.goto, deciding, here]
  | next head here some_ =>
    left
    simp [State.goto, deciding, here]
  | write chunk link here => exact idle rfl (by simp [deciding, here])
  | callAlloc here => exact idle rfl (by simp [State.inner, LfStack.State.goto, deciding])
  | _ => exact idle rfl (by simp [State.inner, State.goto, State.hold, State.keep, deciding])

/-- **Every step**: what is issued and what is going to be issued stays below the peak. -/
theorem Places.footprint_step [Fintype T] (places : Places s) (moved : Moves s t s')
    (calm' : ∀ u, (s'.pc u).counting = false) :
    s'.ghost.issued.length + ∑ u, deciding s' u
      ≤ max (s.ghost.issued.length + ∑ u, deciding s u) s'.load := by
  rcases moved.decides places with less | empty
  · refine le_max_of_le_left ?_
    have total := sum_step (t := t) (deciding s) (deciding s') fun u other => by
      obtain ⟨outer, inner⟩ := moved.elsewhere places other
      unfold deciding
      rw [outer, inner]
    omega
  · exact le_max_of_le_right ((places.moves moved).empty_census calm' empty)

/-- **A whole run.** -/
theorem Places.footprint_run [Fintype T] {acts : List (T × Act)}
    (run : (machine T).Exec Steady s acts s') (places : Places s)
    (calm : ∀ u, (s.pc u).counting = false) :
    Places s' ∧ s'.ghost.issued.length + ∑ u, deciding s' u
      ≤ max (s.ghost.issued.length + ∑ u, deciding s u) (peak s acts) := by
  induction run with
  | nil s => exact ⟨places, le_max_left _ _⟩
  | @cons s middle last act acts steady next rest ih =>
    have moved := moves_of_step steady.1.1 steady.1.2 next
    have calm' := not_counting_step steady next calm
    obtain ⟨final, bound⟩ := ih (places.moves moved) calm'
    refine ⟨final, bound.trans ?_⟩
    have one := places.footprint_step moved calm'
    have found : step s act = some middle := next
    have here : peak s (act :: acts) = max s.load (peak middle acts) := by
      unfold peak
      rw [found]
      cases acts <;> rfl
    have reached : middle.load ≤ peak middle acts := by
      cases acts with
      | nil => exact Nat.le_refl _
      | cons act acts => exact le_max_left _ _
    rw [here]
    omega

/-! ### The result -/

/-- **The footprint of the chunk pool.** Under any schedule of `alloc_chunk` and `free_chunk` by any
number of threads, with the frontier inside the reservation, every commit successful, and fewer than
`2 ^ 64` successful compare-exchanges on `free_head_` between an operation's load and its own
compare-exchange, no more chunks are issued than were in use at some moment of the run. -/
theorem footprint_bounded [Fintype T] {start : State T} {acts : List (T × Act)}
    (initial : Init start) (run : (machine T).Exec Steady start acts s) :
    (s.head_ - s.ptr_) / kDefaultChunkSize ≤ peak start acts := by
  have idle : ∀ u, start.pc u = .idle := initial.pc
  have calm : ∀ u, (start.pc u).counting = false := fun u => by
    rw [idle]
    rfl
  have none_ : ∑ u, deciding start u = 0 := Finset.sum_eq_zero fun u _ => by
    unfold deciding
    rw [idle]
  obtain ⟨places, bound⟩ := Places.footprint_run run (.init initial) calm
  rw [none_, initial.issued] at bound
  rw [places.frontier_index]
  have zero : max (([] : List (T × Nat)).length + 0) (peak start acts) = peak start acts :=
    Nat.zero_max _
  rw [zero] at bound
  exact (Nat.le_add_right _ _).trans bound

instance (s : State T) (act : T × Act) : Decidable (Steady s act) := by
  unfold Steady
  infer_instance

/-- One thread allocates a chunk, frees it, and allocates again: the chunk is reused. -/
theorem footprint_bounded_reuse : ∃ s : State Bool,
    (machine Bool).Exec Steady fourChunks (newActs true ++ freeActs true chunkA ++ allocActs true) s ∧
    s.ghost.held true = [chunkA] ∧
    (s.head_ - s.ptr_) / kDefaultChunkSize
      ≤ peak fourChunks (newActs true ++ freeActs true chunkA ++ allocActs true) := by
  have reached : ((machine Bool).runFrom Steady fourChunks
      (newActs true ++ freeActs true chunkA ++ allocActs true)).map (fun s => s.ghost.held true)
      = some [chunkA] := by
    decide +kernel
  obtain ⟨s, found, held⟩ := Option.map_eq_some_iff.mp reached
  have run : (machine Bool).Exec Steady fourChunks
      (newActs true ++ freeActs true chunkA ++ allocActs true) s := Machine.exec_of_runFrom found
  exact ⟨s, run, held, footprint_bounded fourChunks_init run⟩

end NpAlloc.Mmap
