/-
**A frontier that creeps up.**

Without an assumption on the tag of `free_head_` chunks can get lost: a pop that is stalled for `2 ^ 64`
compare-exchanges finds the head it has loaded, and installs a link that is long out of date, which cuts
off the rest of the stack. What is cut off is never issued again, so new chunks are.

* `Within m` — a run without `count_free_list` in which no more than `m` chunks are in use at any time.
* **`footprint_creeps`** — seven chunks issued, and never more than six in use.
-/

import NpAlloc.Mmap.Footprint
import Mathlib.Data.Fintype.BigOperators

set_option linter.unusedSectionVars false

namespace NpAlloc.Mmap

variable {T : Type} [DecidableEq T] {s s' : State T} {t u : T} {m : Nat}

/-! ### What a step adds to the load -/

theorem Pc.busy_le (pc : Pc) : pc.busy ≤ 1 := by
  cases pc <;> simp [Pc.busy]

theorem Pc.busy_of_ne {pc : Pc} (other : pc ≠ .idle) : pc.busy = 1 := by
  cases pc <;> first | rfl | exact absurd rfl other

/-- The next step of a call is the thread's own affair, and takes no chunk from its client. -/
theorem runStep_own (ran : runStep s t = some s') :
    s.pc t ≠ .idle ∧ s'.ghost.held = s.ghost.held ∧ ∀ u, u ≠ t → s'.pc u = s.pc u := by
  have moved : ∀ pc : Pc, ∀ u, u ≠ t → Function.update s.pc t pc u = s.pc u :=
    fun pc u other => Function.update_of_ne other _ _
  have inside : ∀ done : Option Nat → State T, innerStep s t done = some s' →
      (∀ result, (done result).ghost.held = s.ghost.held ∧
        ∀ u, u ≠ t → (done result).pc u = s.pc u) →
      s'.ghost.held = s.ghost.held ∧ ∀ u, u ≠ t → s'.pc u = s.pc u := by
    intro done found own
    unfold innerStep at found
    split at found
    · rename_i result _
      cases found
      exact own result
    · obtain ⟨freeHead, _, rfl⟩ := Option.map_eq_some_iff.mp found
      exact ⟨rfl, fun _ _ => rfl⟩
  unfold runStep at ran
  cases here : s.pc t <;> simp only [here, reduceCtorEq] at ran
  case allocPop =>
    refine ⟨by simp, inside _ ran fun result => ?_⟩
    cases result <;> exact ⟨rfl, moved _⟩
  case freePush | countDetach | countPush next c =>
    exact ⟨by simp, inside _ ran fun result => ⟨rfl, moved _⟩⟩
  case newTest head =>
    split at ran <;> cases ran <;> exact ⟨by simp, rfl, moved _⟩
  case newCas head next =>
    split at ran <;> cases ran <;> exact ⟨by simp, rfl, moved _⟩
  case countWalk ptr c =>
    cases ptr <;> cases ran <;> exact ⟨by simp, rfl, moved _⟩
  all_goals
    cases ran
    exact ⟨by simp, rfl, moved _⟩

/-- What a step adds to the load: a call of `alloc_chunk` one, and every other step nothing. -/
def Act.added : Act → Nat
  | .callAlloc => 1
  | _ => 0

/-- **Only a call of `alloc_chunk` adds to what is in use.** -/
theorem share_step {act : Act} (ok : Inside s (t, act)) (other : act ≠ .callCount)
    (next : step s (t, act) = some s') :
    (∀ u, u ≠ t → share s' u = share s u) ∧ share s' t ≤ share s t + act.added := by
  have moved : ∀ pc : Pc, ∀ u, u ≠ t → Function.update s.pc t pc u = s.pc u :=
    fun pc u other => Function.update_of_ne other _ _
  have freed : ∀ held : List Nat, ∀ u, u ≠ t →
      Function.update s.ghost.held t held u = s.ghost.held u :=
    fun held u other => Function.update_of_ne other _ _
  unfold share
  cases act with
  | callAlloc =>
    simp only [step, Option.ite_none_right_eq_some, Option.some.injEq] at next
    obtain ⟨here, rfl⟩ := next
    refine ⟨fun u other => by simp only [State.inner]; rw [moved _ u other], ?_⟩
    simp [State.inner, here, Pc.busy, Act.added]
  | callFree ptr =>
    simp only [step, Option.ite_none_right_eq_some, Option.some.injEq] at next
    obtain ⟨⟨here, holds⟩, rfl⟩ := next
    have length := List.length_erase_add_one holds
    refine ⟨fun u other => ?_, ?_⟩
    · simp only [State.inner, State.hold]
      rw [moved _ u other, freed _ u other]
    · simp [State.inner, State.hold, here, Pc.busy, Act.added, length]
  | callCount => exact absurd rfl other
  | run =>
    obtain ⟨busy, held, same⟩ := runStep_own next
    refine ⟨fun u other => by rw [held, same u other], ?_⟩
    rw [held, Pc.busy_of_ne busy]
    exact Nat.add_le_add_left (Pc.busy_le _) _
  | spurious =>
    simp only [step, spuriousStep] at next
    split at next
    · rename_i head after here
      cases next
      refine ⟨fun u other => by simp only [State.goto]; rw [moved _ u other], ?_⟩
      simp [State.goto, here, Pc.busy, Act.added]
    · obtain ⟨freeHead, _, rfl⟩ := Option.map_eq_some_iff.mp next
      exact ⟨fun _ _ => rfl, Nat.le_add_right _ _⟩
  | commitFail => exact absurd rfl ok.1
  | ret =>
    simp only [step, retStep] at next
    cases here : s.pc t <;> simp only [here, Option.some.injEq, reduceCtorEq] at next <;> subst next
    case allocRet ptr =>
      refine ⟨fun u other => ?_, ?_⟩
      · simp only [State.goto, State.hold]
        rw [moved _ u other, freed _ u other]
      · by_cases null : ptr = 0 <;> simp [State.goto, State.hold, Pc.busy, Act.added, null]
    case freeRet | countRet c =>
      refine ⟨fun u other => by simp only [State.goto]; rw [moved _ u other], ?_⟩
      simp [State.goto, Pc.busy, Act.added]
  | write chunk link =>
    simp only [step, Option.ite_none_right_eq_some, Option.some.injEq] at next
    obtain ⟨_, rfl⟩ := next
    exact ⟨fun _ _ => rfl, Nat.le_add_right _ _⟩

theorem load_step [Fintype T] {act : T × Act} (ok : Inside s act) (other : act.2 ≠ .callCount)
    (next : step s act = some s') : s'.load ≤ s.load + act.2.added := by
  obtain ⟨t, act⟩ := act
  obtain ⟨others, mine⟩ := share_step ok other next
  have total := sum_step (t := t) (share s) (share s') others
  unfold State.load
  show ∑ u, share s' u ≤ ∑ u, share s u + act.added
  omega

/-- **No more than `m` chunks are in use**, and nobody calls `count_free_list`. -/
def Within [Fintype T] (m : Nat) (s : State T) (act : T × Act) : Prop :=
  Inside s act ∧ act.2 ≠ .callCount ∧ s.load ≤ m

/-- A run stays within what it starts with and its calls of `alloc_chunk`. -/
theorem within_of_exec [Fintype T] {acts : List (T × Act)} (run : (machine T).Exec Inside s acts s')
    (others : ∀ act ∈ acts, act.2 ≠ .callCount)
    (bound : s.load + (acts.map fun act => act.2.added).sum ≤ m) :
    (machine T).Exec (Within m) s acts s' ∧ s'.load ≤ m := by
  induction run with
  | nil s => exact ⟨.nil s, by simpa using bound⟩
  | @cons s middle last act acts ok next _ ih =>
    simp only [List.map_cons, List.sum_cons] at bound
    have other := others act List.mem_cons_self
    have one := load_step ok other next
    obtain ⟨run, final⟩ := ih (fun a member => others a (List.mem_cons_of_mem _ member)) (by omega)
    exact ⟨.cons ⟨ok, other, by omega⟩ next run, final⟩

/-- Such a run has no higher peak. -/
theorem peak_le [Fintype T] {acts : List (T × Act)} (run : (machine T).Exec (Within m) s acts s')
    (final : s'.load ≤ m) : peak s acts ≤ m := by
  induction run with
  | nil s => exact final
  | @cons s middle last act acts ok next _ ih =>
    have found : step s act = some middle := next
    unfold peak
    rw [found]
    exact max_le ok.2.2 (ih final)

/-! ### The schedule -/

/-- A whole `alloc_chunk` that issues a new chunk. -/
theorem new_alone {aba : BitVec 64} {i : Nat} (here : s.pc t = .idle)
    (top : s.freeHead.head = ⟨aba, none⟩) (base : 0 < s.ptr_) (frontier : s.head_ = chunkAt s.ptr_ i)
    (room : chunkAt s.ptr_ (i + 1) ≤ s.ptr_ + s.size_) (space : s.ptr_ + s.size_ < 2 ^ 64) :
    ∃ s', (machine T).Exec Inside s (newActs t) s' ∧ s'.pc t = .idle ∧
      s'.freeHead.head = ⟨aba, none⟩ ∧ s'.ptr_ = s.ptr_ ∧ s'.size_ = s.size_ ∧
      s'.head_ = chunkAt s.ptr_ (i + 1) := by
  have some_ : s.head_ ≠ 0 := by
    rw [frontier]
    unfold chunkAt
    omega
  have next : getChunkPtr s.ptr_ (getChunkIndex s.ptr_ s.head_ + 1) = chunkAt s.ptr_ (i + 1) := by
    rw [frontier]
    exact next_chunkAt (by omega)
  have bound : s.head_ + kDefaultChunkSize ≤ s.ptr_ + s.size_ := by
    rw [frontier, ← chunkAt_succ]
    exact room
  have found : ∃ s', (machine T).runFrom Inside s (newActs t) = some s' ∧ s'.pc t = .idle ∧
      s'.freeHead.head = ⟨aba, none⟩ ∧ s'.ptr_ = s.ptr_ ∧ s'.size_ = s.size_ ∧
      s'.head_ = chunkAt s.ptr_ (i + 1) := by
    simp [newActs, Machine.runFrom, machine, step, runStep, retStep, innerStep, LfStack.runStep,
      LfStack.Pc.result, here, top, some_, next, bound, Inside, State.inner, State.returned,
      State.goto, State.hold, State.issue, LfStack.State.goto, LfStack.State.load,
      LfStack.State.own]
  obtain ⟨s', run, rest⟩ := found
  exact ⟨s', Machine.exec_of_runFrom run, rest⟩

/-- A state with nothing issued, over a reservation of eight chunks. -/
def eightChunks : State Bool := { fourChunks with size_ := 8 * kDefaultChunkSize }

theorem eightChunks_init : Init eightChunks :=
  { fourChunks_init with space := by decide }

def chunkD : Nat := chunkAt kDefaultChunkSize 3

def chunkE : Nat := chunkAt kDefaultChunkSize 4

/-- `false` is stalled in `pop` with `head_ = {5, A}` and `next = B`; `A` is on top of the free stack
again, with tag `aba`, and `true` holds `B` and `E`. -/
structure Cut (aba : BitVec 64) (s : State Bool) : Prop where
  here : s.pc false = .allocPop
  cas : s.freeHead.pc false = .popCas ⟨5, some chunkA⟩ ⟨6, some chunkB⟩
  idle : s.pc true = .idle
  top : s.freeHead.head = ⟨aba, some chunkA⟩
  mine : s.ghost.held true = [chunkE, chunkB]
  theirs : s.ghost.held false = []
  ptr_ : s.ptr_ = kDefaultChunkSize
  size_ : s.size_ = 8 * kDefaultChunkSize
  head_ : s.head_ = chunkAt kDefaultChunkSize 5

theorem Cut.load {aba : BitVec 64} {s : State Bool} (cut : Cut aba s) : s.load = 3 := by
  unfold State.load share
  rw [Fintype.sum_bool, cut.mine, cut.theirs, cut.here, cut.idle]
  rfl

/-- `true` takes five chunks, frees them, and `false` starts its pop: the tag is 5. -/
def stallActs : List (Bool × Act) :=
  newActs true ++ newActs true ++ newActs true ++ newActs true ++ newActs true
    ++ freeActs true chunkE ++ freeActs true chunkD ++ freeActs true chunkC
    ++ freeActs true chunkB ++ freeActs true chunkA

/-- `false` starts its pop, `true` takes all five, and frees three: the tag is 13. -/
def cutActs : List (Bool × Act) :=
  [(false, .callAlloc), (false, .run), (false, .run)]
    ++ allocActs true ++ allocActs true ++ allocActs true ++ allocActs true ++ allocActs true
    ++ freeActs true chunkD ++ freeActs true chunkC ++ freeActs true chunkA

set_option maxRecDepth 4000 in
/-- What the run up to the cut leaves. -/
theorem cut_reachable : ∃ s, (machine Bool).Exec (Within 6) eightChunks (stallActs ++ cutActs) s ∧
    Cut 13 s := by
  have first : ((machine Bool).runFrom Inside eightChunks stallActs).map (fun s => s.load)
      = some 0 := by
    rfl
  have second : ((machine Bool).runFrom Inside eightChunks (stallActs ++ cutActs)).map (fun s =>
      (s.pc false, s.freeHead.pc false, s.pc true, s.freeHead.head, s.ghost.held true,
        s.ghost.held false, s.ptr_, s.size_, s.head_))
      = some (.allocPop, .popCas ⟨5, some chunkA⟩ ⟨6, some chunkB⟩, .idle, ⟨13, some chunkA⟩,
        [chunkE, chunkB], [], kDefaultChunkSize, 8 * kDefaultChunkSize,
        chunkAt kDefaultChunkSize 5) := by
    rfl
  obtain ⟨middle, front, load⟩ := Option.map_eq_some_iff.mp first
  obtain ⟨s, run, view⟩ := Option.map_eq_some_iff.mp second
  rw [Machine.runFrom_append, front, Option.bind_some] at run
  simp only [Prod.mk.injEq] at view
  obtain ⟨here, cas, idle, top, mine, theirs, ptr, size, head⟩ := view
  have stall := within_of_exec (m := 6) (Machine.exec_of_runFrom front) (by decide) (by decide)
  have cut := within_of_exec (m := 6) (Machine.exec_of_runFrom run) (by decide) (by rw [load]; decide)
  exact ⟨s, stall.1.append cut.1, here, cas, idle, top, mine, theirs, ptr, size, head⟩

/-- `true` allocates `A` and frees it: the tag grows by two. -/
theorem Cut.cycle {aba : BitVec 64} {s : State Bool} (cut : Cut aba s) :
    ∃ acts s', (machine Bool).Exec (Within 6) s acts s' ∧ Cut (aba + 2) s' := by
  have load := cut.load
  obtain ⟨here, cas, idle, top, mine, theirs, ptr, size, head⟩ := cut
  obtain ⟨middle, run, idle', top', next', held', still', beside'⟩ :=
    alloc_alone idle top (by decide)
  obtain ⟨last, rest, idle'', top'', next'', held'', still'', beside''⟩ :=
    free_alone chunkA idle' top' (by rw [held']; exact List.mem_cons_self)
  have first := beside' false (by decide)
  have second := beside'' false (by decide)
  have within := within_of_exec (m := 6) (run.append rest) (by decide) (by rw [load]; decide)
  refine ⟨_, last, within.1, ?_, ?_, idle'', ?_, ?_, ?_, ?_, ?_, ?_⟩
  · rw [second.pc, first.pc, here]
  · rw [second.inner, first.inner, cas]
  · rw [top'', BitVec.add_assoc]
    rfl
  · rw [held'', held', List.erase_cons_head, mine]
  · rw [second.held, first.held, theirs]
  · rw [still''.ptr_, still'.ptr_, ptr]
  · rw [still''.size_, still'.size_, size]
  · rw [still''.head_, still'.head_, head]

/-- The stalled pop resumes with the tag it has loaded, and installs `B`, whose owner has cleared its
link. -/
def resumeActs : List (Bool × Act) :=
  [(true, .write chunkB none), (false, .run), (false, .run), (false, .run), (false, .ret)]

/-- **The rest of the free stack is cut off**: `true` gets `B` again, and then two new chunks. -/
theorem Cut.resume {s : State Bool} (cut : Cut 5 s) :
    ∃ acts s', (machine Bool).Exec (Within 6) s acts s' ∧ s'.load ≤ 6 ∧
      s'.ptr_ = kDefaultChunkSize ∧ s'.head_ = chunkAt kDefaultChunkSize 7 := by
  have load := cut.load
  obtain ⟨here, cas, idle, top, mine, theirs, ptr, size, head⟩ := cut
  have found : ∃ s', (machine Bool).runFrom Inside s resumeActs = some s' ∧ s'.pc true = .idle ∧
      s'.freeHead.head = ⟨6, some chunkB⟩ ∧ s'.freeHead.next chunkB = none ∧
      s'.ptr_ = s.ptr_ ∧ s'.size_ = s.size_ ∧ s'.head_ = s.head_ := by
    have some_ : chunkA ≠ 0 := by decide
    simp [resumeActs, Machine.runFrom, machine, step, runStep, retStep, innerStep, LfStack.runStep,
      LfStack.Pc.result, here, cas, idle, top, mine, some_, Inside, State.inner, State.returned,
      State.goto, State.hold, LfStack.State.goto, LfStack.State.install, LfStack.State.link]
  obtain ⟨resumed, run, idle', top', link, ptr', size', head'⟩ := found
  obtain ⟨second, run', idle'', top'', _, _, still, _⟩ := alloc_alone idle' top' (by decide)
  rw [link] at top''
  have base : second.ptr_ = kDefaultChunkSize := by rw [still.ptr_, ptr', ptr]
  have bytes : second.size_ = 8 * kDefaultChunkSize := by rw [still.size_, size', size]
  have frontier : second.head_ = chunkAt second.ptr_ 5 := by rw [still.head_, head', head, base]
  obtain ⟨third, run'', idle₃, top₃, ptr₃, size₃, head₃⟩ := new_alone idle'' top'' (i := 5)
    (by rw [base]; decide) frontier (by rw [base, bytes]; decide) (by rw [base, bytes]; decide)
  obtain ⟨last, run₄, _, _, ptr₄, _, head₄⟩ := new_alone idle₃ top₃ (i := 6)
    (by rw [ptr₃, base]; decide) (by rw [head₃, ptr₃]) (by rw [ptr₃, size₃, base, bytes]; decide)
    (by rw [ptr₃, size₃, base, bytes]; decide)
  have whole := (((Machine.exec_of_runFrom run).append run').append run'').append run₄
  have within := within_of_exec (m := 6) whole (by decide) (by rw [load]; decide)
  refine ⟨_, last, within.1, within.2, ?_, ?_⟩
  · rw [ptr₄, ptr₃, base]
  · rw [head₄, ptr₃, base]

/-- **Without the tag assumption the frontier creeps up.** -/
theorem footprint_creeps : ∃ (start s : State Bool) (acts : List (Bool × Act)), Init start ∧
    (machine Bool).Exec (fun s act => Inside s act ∧ act.2 ≠ .callCount) start acts s ∧
    peak start acts < (s.head_ - s.ptr_) / kDefaultChunkSize := by
  obtain ⟨s, run, cut⟩ := cut_reachable
  obtain ⟨acts, middle, run', wrapped⟩ :=
    cycles_of_cycle (fun _ _ cut => cut.cycle) (2 ^ 63 - 4) cut
  obtain ⟨acts', last, run'', load, ptr, head⟩ := Cut.resume wrapped
  have whole := (run.append run').append run''
  refine ⟨eightChunks, last, _, eightChunks_init,
    whole.mono fun _ _ within => ⟨within.1, within.2.1⟩, ?_⟩
  have low := peak_le whole load
  rw [ptr, head]
  exact Nat.lt_of_le_of_lt low (by decide)

end NpAlloc.Mmap
