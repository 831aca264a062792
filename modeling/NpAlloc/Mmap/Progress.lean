/-
**`mmap` under contention: what `alloc_chunk`, `free_chunk` and `count_free_list` cost.**

`alloc_chunk` goes through two loops, the pop of the free stack and the advance of `head_`;
`count_free_list` pushes every node it visits back. The steps inside `free_head_` are paid for as in
`LfStack.Progress`; `Pc.due` is what a thread owes outside of it. A successful compare-exchange on
`head_` costs every other thread in that loop one more round.

* `innerStep_spends`, `runStep_spends` — what an atomic step spends, and what it costs the others;
* **`chunk_steps_amortized`** — the atomic steps of any interleaving, against the calls that were made, the
  nodes that were visited, and the spurious failures.
-/

import NpAlloc.LfStack.Progress
import NpAlloc.Mmap.Concurrent
import NpAlloc.Mmap.ChunkAccounting

set_option linter.unusedSectionVars false

namespace NpAlloc.Mmap

variable {T : Type} [DecidableEq T] {s s' : State T} {t u : T} {n : Nat}

/-! ### Ranks -/

/-- What a thread owes outside `free_head_`: the steps left if no other thread advances `head_`, and two
for each other thread when it does itself. -/
def Pc.due (n head_ : Nat) : Pc → Nat
  | .idle | .allocRet _ | .freeRet | .countRet _ => 0
  | .allocPop => 6 + 2 * (n - 1)
  | .allocReuse _ => 1
  | .newLoad => 5 + 2 * (n - 1)
  | .newTest head => (if head_ = head then 4 else 6) + 2 * (n - 1)
  | .newCas head _ => (if head_ = head then 3 else 5) + 2 * (n - 1)
  | .newCommit _ => 2
  | .newCount _ => 1
  | .freePush => 2
  | .freeCount => 1
  | .countDetach => 2
  | .countWalk _ _ => 1
  | .countPush _ _ => 2

/-- What a thread has still to pay for, among `n` threads. -/
def owed (n : Nat) (s : State T) (t : T) : Nat :=
  LfStack.rank n s.freeHead t + (s.pc t).due n s.head_

/-- At most one round of the loop on `head_` is lost. -/
theorem Pc.due_le (pc : Pc) (head head' : Nat) : pc.due n head' ≤ pc.due n head + 2 := by
  cases pc <;> unfold Pc.due <;> grind

/-- What an atomic step spends, and what it brings in. -/
structure Spends (n : Nat) (s s' : State T) (t : T) (income rise : Nat) : Prop where
  own : owed n s' t + 1 + rise * (n - 1) ≤ owed n s t + income
  others : ∀ u, u ≠ t → owed n s' u ≤ owed n s u + rise

/-- A step outside `free_head_` that leaves `head_` alone. -/
theorem Spends.quiet {pc : Pc} {income : Nat} (here : s'.pc = Function.update s.pc t pc)
    (head : s'.head_ = s.head_) (same : s'.freeHead = s.freeHead)
    (less : pc.due n s.head_ + 1 ≤ (s.pc t).due n s.head_ + income) : Spends n s s' t income 0 := by
  refine ⟨?_, fun u other => ?_⟩ <;> unfold owed <;> rw [here, head, same]
  · rw [Function.update_self]
    omega
  · rw [Function.update_of_ne other]
    omega

/-- A step that moves the thread inside `free_head_` without a change of its `head_`. -/
theorem Spends.inner (inside : LfStack.Pc Nat) {pc : Pc} {income : Nat}
    (here : s'.pc = Function.update s.pc t pc) (head : s'.head_ = s.head_)
    (same : s'.freeHead = s.freeHead.goto t inside)
    (less : LfStack.rank n (s.freeHead.goto t inside) t + pc.due n s.head_ + 1
      ≤ owed n s t + income) : Spends n s s' t income 0 := by
  refine ⟨?_, fun u other => ?_⟩
  · have after : owed n s' t = LfStack.rank n (s.freeHead.goto t inside) t + pc.due n s.head_ := by
      unfold owed
      rw [here, head, same, Function.update_self]
    omega
  · have still : LfStack.rank n (s.freeHead.goto t inside) u = LfStack.rank n s.freeHead u :=
      LfStack.rank_same (Function.update_of_ne other _ _) rfl
    unfold owed
    rw [here, head, same, Function.update_of_ne other, still]
    exact le_rfl

/-- A thread outside `free_head_` owes nothing there. -/
theorem rank_goto_idle (s : LfStack.State T Nat) (t : T) : LfStack.rank n (s.goto t .idle) t = 0 := by
  show LfStack.Pc.left s.head (Function.update s.pc t .idle t)
    + (if (Function.update s.pc t .idle t).Active then _ else _) = 0
  rw [Function.update_self]
  rfl

/-- A thread at the first load of a call of `free_head_`. -/
theorem rank_goto_entry (s : LfStack.State T Nat) (t : T) (op : LfStack.Op Nat) :
    LfStack.rank n (s.goto t op.entry) t = 3 + 2 * (n - 1) := by
  have three : op.entry.left s.head = 3 ∧ op.entry.Active := by
    cases op <;> exact ⟨rfl, trivial⟩
  show LfStack.Pc.left s.head (Function.update s.pc t op.entry t)
    + (if (Function.update s.pc t op.entry t).Active then _ else _) = _
  rw [Function.update_self, three.1, if_pos three.2]

/-! ### Atomic steps -/

/-- **A step in `free_head_`**, or the return from it to a program counter that owes less. -/
theorem innerStep_spends {done : Option Nat → State T} {income : Nat} (ran : innerStep s t done = some s')
    (returns : ∀ result, ∃ pc, (done result).pc = Function.update s.pc t pc ∧
      (done result).head_ = s.head_ ∧ (done result).freeHead = s.returned t ∧
      pc.due n s.head_ + 1 ≤ (s.pc t).due n s.head_) : ∃ rise, Spends n s s' t income rise := by
  unfold innerStep at ran
  split at ran
  · rename_i result finished
    cases ran
    obtain ⟨pc, here, head, same, less⟩ := returns result
    refine ⟨0, .inner .idle here head same ?_⟩
    rw [rank_goto_idle]
    unfold owed
    omega
  · obtain ⟨freeHead, inside, rfl⟩ := Option.map_eq_some_iff.mp ran
    obtain ⟨rise, spends⟩ := LfStack.runStep_rank n inside
    refine ⟨rise, ?_, fun u other => ?_⟩
    · have own := spends.own
      show LfStack.rank n freeHead t + (s.pc t).due n s.head_ + 1 + _
        ≤ LfStack.rank n s.freeHead t + (s.pc t).due n s.head_ + income
      omega
    · have others := spends.others u other
      show LfStack.rank n freeHead u + (s.pc u).due n s.head_
        ≤ LfStack.rank n s.freeHead u + (s.pc u).due n s.head_ + _
      omega

/-- The next step visits a node of the detached list. -/
def Pc.visits : Pc → Bool
  | .countWalk (some _) _ => true
  | _ => false

def visits (s : State T) : T × Act → Bool
  | (t, .run) => (s.pc t).visits
  | _ => false

/-- **Every atomic step is paid for**; a node that is visited brings in the push that takes it back. -/
theorem runStep_spends (n : Nat) (ran : runStep s t = some s') : ∃ rise,
    Spends n s s' t ((2 * n + 5) * (s.pc t).visits.toNat) rise := by
  unfold runStep at ran
  cases here : s.pc t with
  | idle | allocRet ptr | freeRet | countRet c => simp [here] at ran
  | allocPop =>
    simp only [here] at ran
    refine innerStep_spends ran fun result => ?_
    cases result with
    | none => exact ⟨.newLoad, rfl, rfl, rfl, by simp only [here, Pc.due]; omega⟩
    | some ptr => exact ⟨.allocReuse ptr, rfl, rfl, rfl, by simp only [here, Pc.due]; omega⟩
  | allocReuse ptr =>
    simp only [here, Option.some.injEq] at ran
    subst ran
    exact ⟨0, .quiet rfl rfl rfl (by simp only [here, Pc.due]; omega)⟩
  | newLoad =>
    simp only [here, Option.some.injEq] at ran
    subst ran
    exact ⟨0, .quiet rfl rfl rfl (by simp only [here, Pc.due, if_true]; omega)⟩
  | newTest head =>
    simp only [here] at ran
    split at ran <;> cases ran
    · exact ⟨0, .quiet rfl rfl rfl (by simp only [here, Pc.due]; split_ifs <;> omega)⟩
    · exact ⟨0, .quiet rfl rfl rfl (by simp only [here, Pc.due]; split_ifs <;> omega)⟩
  | newCas head next =>
    simp only [here] at ran
    split at ran
    · -- a success: every other thread in the loop has lost a round
      rename_i equal
      cases ran
      have still : ∀ u, LfStack.rank n (s.freeHead.own s.head_ (.client t)) u
          = LfStack.rank n s.freeHead u := fun u => LfStack.rank_same rfl rfl
      refine ⟨2, ?_, fun u other => ?_⟩
      · show LfStack.rank n (s.freeHead.own s.head_ (.client t)) t
          + (Function.update s.pc t (.newCommit s.head_) t).due n next + 1 + 2 * (n - 1)
          ≤ LfStack.rank n s.freeHead t + (s.pc t).due n s.head_ + _
        rw [Function.update_self, here, still]
        simp only [Pc.due, if_pos equal]
        omega
      · show LfStack.rank n (s.freeHead.own s.head_ (.client t)) u
          + (Function.update s.pc t (.newCommit s.head_) u).due n next ≤ owed n s u + 2
        rw [Function.update_of_ne other, still]
        have lost := (s.pc u).due_le (n := n) s.head_ next
        unfold owed
        omega
    · rename_i changed
      cases ran
      exact ⟨0, .quiet rfl rfl rfl (by
        simp only [here, Pc.due, if_true, if_neg changed]
        omega)⟩
  | newCommit head =>
    simp only [here, Option.some.injEq] at ran
    subst ran
    exact ⟨0, .quiet rfl rfl rfl (by simp only [here, Pc.due]; omega)⟩
  | newCount head =>
    simp only [here, Option.some.injEq] at ran
    subst ran
    exact ⟨0, .quiet rfl rfl rfl (by simp only [here, Pc.due]; omega)⟩
  | freePush =>
    simp only [here] at ran
    exact innerStep_spends ran fun result =>
      ⟨.freeCount, rfl, rfl, rfl, by simp only [here, Pc.due]; omega⟩
  | freeCount =>
    simp only [here, Option.some.injEq] at ran
    subst ran
    exact ⟨0, .quiet rfl rfl rfl (by simp only [here, Pc.due]; omega)⟩
  | countDetach =>
    simp only [here] at ran
    exact innerStep_spends ran fun result =>
      ⟨.countWalk result 0, rfl, rfl, rfl, by simp only [here, Pc.due]; omega⟩
  | countWalk ptr c =>
    cases ptr with
    | none =>
      simp only [here, Option.some.injEq] at ran
      subst ran
      exact ⟨0, .quiet rfl rfl rfl (by simp only [here, Pc.due]; omega)⟩
    | some ptr =>
      simp only [here, Option.some.injEq] at ran
      subst ran
      refine ⟨0, .inner (LfStack.Op.push ptr).entry rfl rfl rfl ?_⟩
      rw [rank_goto_entry]
      have some_ : 1 ≤ owed n s t := by
        unfold owed
        rw [here]
        exact Nat.le_add_left _ _
      simp only [Pc.due, Pc.visits, Bool.toNat_true]
      omega
  | countPush next c =>
    simp only [here] at ran
    exact innerStep_spends ran fun result =>
      ⟨.countWalk next c, rfl, rfl, rfl, by simp only [here, Pc.due]; omega⟩

/-- **A spurious failure costs one more round**, of the thread it happens to. -/
theorem spuriousStep_spends (n : Nat) (ran : spuriousStep s t = some s') : Spends n s s' t 2 0 := by
  have inner : ∀ freeHead, LfStack.spuriousStep s.freeHead t = some freeHead →
      Spends n s { s with freeHead := freeHead } t 2 0 := by
    intro freeHead inside
    obtain ⟨own, others⟩ := LfStack.spuriousStep_rank n inside
    refine ⟨?_, fun u other => ?_⟩
    · show LfStack.rank n freeHead t + (s.pc t).due n s.head_ + 1 + _
        ≤ LfStack.rank n s.freeHead t + (s.pc t).due n s.head_ + 2
      omega
    · have same := others u other
      show LfStack.rank n freeHead u + (s.pc u).due n s.head_
        ≤ LfStack.rank n s.freeHead u + (s.pc u).due n s.head_ + 0
      omega
  unfold spuriousStep at ran
  cases here : s.pc t with
  | newCas head next =>
    simp only [here, Option.some.injEq] at ran
    subst ran
    refine .quiet rfl rfl rfl ?_
    simp only [here, Pc.due, if_true]
    split_ifs <;> omega
  | _ =>
    simp only [here] at ran
    obtain ⟨freeHead, inside, rfl⟩ := Option.map_eq_some_iff.mp ran
    exact inner freeHead inside

/-! ### Runs -/

/-- An atomic step inside a call, failed commits and spurious failures among them. -/
def isStep : T × Act → Bool
  | (_, .run) | (_, .spurious) | (_, .commitFail) => true
  | _ => false

def isSpurious : T × Act → Bool
  | (_, .spurious) => true
  | _ => false

def isAlloc : T × Act → Bool
  | (_, .callAlloc) => true
  | _ => false

def isFree : T × Act → Bool
  | (_, .callFree _) => true
  | _ => false

def isCount : T × Act → Bool
  | (_, .callCount) => true
  | _ => false

/-- What an action brings in. -/
def income (n : Nat) (s : State T) (act : T × Act) : Nat :=
  (4 * n + 5) * (isAlloc act).toNat + ((2 * n + 3) * (isFree act).toNat
    + ((2 * n + 3) * (isCount act).toNat + ((2 * n + 5) * (visits s act).toNat
      + 2 * (isSpurious act).toNat)))

/-- **Every step is paid for.** -/
theorem step_spends {act : T × Act} (positive : 0 < n) (next : step s act = some s') :
    ∃ rise, owed n s' act.1 + (isStep act).toNat + rise * (n - 1)
        ≤ owed n s act.1 + income n s act ∧
      ∀ u, u ≠ act.1 → owed n s' u ≤ owed n s u + rise := by
  obtain ⟨t, act⟩ := act
  have calls : ∀ (pc : Pc) (op : LfStack.Op Nat) (price : Nat), s'.pc = Function.update s.pc t pc →
      s'.head_ = s.head_ → s'.freeHead = s.freeHead.goto t op.entry →
      3 + 2 * (n - 1) + pc.due n s.head_ ≤ price → price ≤ income n s (t, act) →
      isStep (t, act) = false → ∃ rise, owed n s' t + (isStep (t, act)).toNat + rise * (n - 1)
        ≤ owed n s t + income n s (t, act) ∧ ∀ u, u ≠ t → owed n s' u ≤ owed n s u + rise := by
    intro pc op price here head same due brought step
    have started : owed n s' t = 3 + 2 * (n - 1) + pc.due n s.head_ := by
      unfold owed
      rw [here, head, same, Function.update_self, rank_goto_entry]
    refine ⟨0, ?_, fun u other => ?_⟩
    · rw [started, step]
      show _ + 0 + _ ≤ _
      omega
    · have still : LfStack.rank n (s.freeHead.goto t op.entry) u = LfStack.rank n s.freeHead u :=
        LfStack.rank_same (Function.update_of_ne other _ _) rfl
      unfold owed
      rw [here, head, same, Function.update_of_ne other, still]
      exact le_rfl
  cases act with
  | callAlloc =>
    simp only [step, Option.ite_none_right_eq_some, Option.some.injEq] at next
    obtain ⟨_, rfl⟩ := next
    refine calls .allocPop .pop (4 * n + 5) rfl rfl rfl ?_ ?_ rfl
    · simp only [Pc.due]
      omega
    · show 4 * n + 5 ≤ (4 * n + 5) * 1 + _
      omega
  | callFree ptr =>
    simp only [step, Option.ite_none_right_eq_some, Option.some.injEq] at next
    obtain ⟨_, rfl⟩ := next
    refine calls .freePush (.push ptr) (2 * n + 3) rfl rfl rfl ?_ ?_ rfl
    · simp only [Pc.due]
      omega
    · show 2 * n + 3 ≤ (4 * n + 5) * 0 + ((2 * n + 3) * 1 + _)
      omega
  | callCount =>
    simp only [step, Option.ite_none_right_eq_some, Option.some.injEq] at next
    obtain ⟨_, rfl⟩ := next
    refine calls .countDetach .detach (2 * n + 3) rfl rfl rfl ?_ ?_ rfl
    · simp only [Pc.due]
      omega
    · show 2 * n + 3 ≤ (4 * n + 5) * 0 + ((2 * n + 3) * 0 + ((2 * n + 3) * 1 + _))
      omega
  | run =>
    obtain ⟨rise, own, others⟩ := runStep_spends n next
    refine ⟨rise, ?_, others⟩
    show owed n s' t + 1 + _ ≤ owed n s t + ((4 * n + 5) * 0 + ((2 * n + 3) * 0 + ((2 * n + 3) * 0
      + ((2 * n + 5) * (s.pc t).visits.toNat + 2 * 0))))
    omega
  | spurious =>
    obtain ⟨own, others⟩ := spuriousStep_spends n next
    refine ⟨0, ?_, others⟩
    show owed n s' t + 1 + _ ≤ owed n s t + ((4 * n + 5) * 0 + ((2 * n + 3) * 0 + ((2 * n + 3) * 0
      + ((2 * n + 5) * 0 + 2 * 1))))
    omega
  | commitFail =>
    have failed : commitFailStep s t = some s' := next
    unfold commitFailStep at failed
    split at failed
    · rename_i head here
      cases failed
      have spends : Spends n s (s.goto t (.newCount 0)) t 0 0 :=
        .quiet rfl rfl rfl (by simp only [here, Pc.due]; omega)
      refine ⟨0, ?_, spends.others⟩
      have own := spends.own
      show owed n (s.goto t (.newCount 0)) t + 1 + 0 * (n - 1) ≤ owed n s t + _
      omega
    · cases failed
  | ret =>
    have returned : retStep s t = some s' := next
    have finishes : ∀ (s₁ : State T), s₁.pc = Function.update s.pc t .idle → s₁.head_ = s.head_ →
        s₁.freeHead = s.freeHead → owed n s₁ t ≤ owed n s t ∧
          ∀ u, u ≠ t → owed n s₁ u ≤ owed n s u + 0 := by
      intro s₁ here head same
      refine ⟨?_, fun u other => ?_⟩ <;> unfold owed <;> rw [here, head, same]
      · rw [Function.update_self]
        exact Nat.le_add_right _ _
      · rw [Function.update_of_ne other]
        exact le_rfl
    have ended : owed n s' t ≤ owed n s t ∧ ∀ u, u ≠ t → owed n s' u ≤ owed n s u + 0 := by
      unfold retStep at returned
      split at returned
      · cases returned
        exact finishes _ rfl rfl rfl
      · cases returned
        exact finishes _ rfl rfl rfl
      · cases returned
        exact finishes _ rfl rfl rfl
      · cases returned
    refine ⟨0, ?_, ended.2⟩
    have own := ended.1
    show owed n s' t + 0 + 0 * (n - 1) ≤ owed n s t + _
    omega
  | write chunk link =>
    simp only [step, Option.ite_none_right_eq_some, Option.some.injEq] at next
    obtain ⟨_, rfl⟩ := next
    refine ⟨0, ?_, fun u _ => le_rfl⟩
    show owed n s t + 0 + 0 * (n - 1) ≤ owed n s t + _
    omega

/-- The nodes that the walks of `count_free_list` visit along a run. -/
def visited (start : State T) (acts : List (T × Act)) : Nat :=
  ((machine T).trail start acts).countP fun step => visits step.1 step.2

/-- **What the functions of `mmap` cost under contention.** In any interleaving of the calls of `n`
threads on a new reservation the atomic steps are at most `4 * n + 5` for each `alloc_chunk`, `2 * n + 3`
for each `free_chunk` and each `count_free_list`, `2 * n + 5` for each node `count_free_list` visits, and
two for each spurious failure of a compare-exchange. -/
theorem chunk_steps_amortized (U : Finset T) (start s : State T) (acts : List (T × Act))
    (initial : (machine T).init start) (run : (machine T).Exec Machine.anyStep start acts s)
    (threads : ∀ act ∈ acts, act.1 ∈ U) :
    acts.countP isStep ≤ (4 * U.card + 5) * acts.countP isAlloc
      + (2 * U.card + 3) * (acts.countP isFree + acts.countP isCount)
      + (2 * U.card + 5) * visited start acts + 2 * acts.countP isSpurious := by
  have paid := Machine.Exec.amortized U Prod.fst (owed U.card) (fun step => (isStep step.2).toNat)
    (fun step => income U.card step.1 step.2) (fun act => act.1 ∈ U)
    (fun s act s' inside _ next => step_spends (Finset.card_pos.mpr ⟨_, inside⟩) next) run
    fun act member => ⟨threads act member, threads act member⟩
  have none_ : ∑ u ∈ U, owed U.card start u = 0 := by
    refine Finset.sum_eq_zero fun u _ => ?_
    unfold owed LfStack.rank
    rw [initial.pc u, initial.freeHead.1.pc u]
    rfl
  unfold income at paid
  rw [none_, List.sum_map_add, List.sum_map_add, List.sum_map_add, List.sum_map_add,
    Machine.sum_price, Machine.sum_price, Machine.sum_price, Machine.sum_price, Machine.sum_price,
    Machine.sum_toNat, run.countP_trail, run.countP_trail, run.countP_trail, run.countP_trail,
    run.countP_trail] at paid
  unfold visited
  rw [Nat.mul_add]
  omega

/-- Seven calls of `alloc_chunk` and four of `free_chunk`, of two threads that overtake each other. -/
theorem chunk_steps_amortized_overtake :
    (∃ s, (machine Bool).Exec Machine.anyStep fourChunks overtakeActs s) ∧
    overtakeActs.countP isStep
      ≤ (4 * (Finset.univ : Finset Bool).card + 5) * overtakeActs.countP isAlloc
        + (2 * (Finset.univ : Finset Bool).card + 3)
          * (overtakeActs.countP isFree + overtakeActs.countP isCount)
        + (2 * (Finset.univ : Finset Bool).card + 5) * visited fourChunks overtakeActs
        + 2 * overtakeActs.countP isSpurious := by
  have finished : ((machine Bool).runFrom Inside fourChunks overtakeActs).isSome = true := by rfl
  obtain ⟨s, found⟩ := Option.isSome_iff_exists.mp finished
  have run : (machine Bool).Exec Machine.anyStep fourChunks overtakeActs s :=
    (Machine.exec_of_runFrom found).mono fun _ _ _ => trivial
  exact ⟨⟨s, run⟩, chunk_steps_amortized Finset.univ fourChunks s overtakeActs fourChunks_init run
    fun act _ => Finset.mem_univ _⟩

end NpAlloc.Mmap
