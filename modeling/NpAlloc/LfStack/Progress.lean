/-
**`lf_stack` is lock-free, and what its loops cost.**

A compare-exchange fails only on a `head_` that another thread has changed since the load, or
spuriously. `Pc.left` counts the atomic steps a call still takes if nobody else succeeds: one more round
of the loop if `head_` has changed already. A success by one thread costs every other thread at most two
steps more; a call prepays that when it starts (`rank`). None of it needs the tag to be fresh: a tag
that comes round again makes a compare-exchange succeed, and ends the loop.

* `runStep_rank`, `spuriousStep_rank` — what one atomic step spends, and what it costs the others;
* **`steps_amortized`** — over any interleaving of `n` threads, `2 * n + 1` atomic steps for a call, and
  two for a spurious failure, are enough;
* **`lock_free`** — of any `4 * n + 1` atomic steps in a row, without a spurious failure, one completes
  a call, and no thread inside a call is ever stuck.
-/

import NpAlloc.General.Progress
import NpAlloc.LfStack.Refinement

set_option linter.unusedSectionVars false

namespace NpAlloc.LfStack

variable {T N : Type} [DecidableEq T] [DecidableEq N] {s s' : State T N} {t u : T} {n : Nat}

/-! ### Ranks -/

/-- The atomic steps left of a call, if no other thread changes `head_`. -/
def Pc.left (head : Head N) : Pc N → Nat
  | .idle | .popRet _ | .pushRet | .detachRet _ => 0
  | .popLoad | .pushLoad _ | .detachLoad => 3
  | .popRead curr | .pushWrite _ curr | .detachTest curr => if head = curr then 2 else 4
  | .popCas curr _ | .pushCas _ curr _ | .detachCas curr _ => if head = curr then 1 else 3

/-- A call is in progress that has not had its effect. -/
def Pc.Active : Pc N → Prop
  | .idle | .popRet _ | .pushRet | .detachRet _ => False
  | _ => True

instance : (pc : Pc N) → Decidable pc.Active
  | .idle | .popRet _ | .pushRet | .detachRet _ => .isFalse not_false
  | .popLoad | .popRead _ | .popCas _ _ | .pushLoad _ | .pushWrite _ _ | .pushCas _ _ _ | .detachLoad
  | .detachTest _ | .detachCas _ _ => .isTrue trivial

/-- What a thread has still to pay for, among `n` threads: its own steps, and two for each other thread
when it succeeds. -/
def rank (n : Nat) (s : State T N) (t : T) : Nat :=
  (s.pc t).left s.head + if (s.pc t).Active then 2 * (n - 1) else 0

/-- At most one round of the loop is lost. -/
theorem Pc.left_le (pc : Pc N) (head head' : Head N) : pc.left head' ≤ pc.left head + 2 := by
  cases pc <;> unfold Pc.left <;> grind

theorem Pc.left_le_four (pc : Pc N) (head : Head N) : pc.left head ≤ 4 := by
  cases pc <;> unfold Pc.left <;> grind

/-- A thread that has not moved is at most two steps further from its end. -/
theorem rank_le (other : s'.pc u = s.pc u) : rank n s' u ≤ rank n s u + 2 := by
  unfold rank
  rw [other]
  have lost := (s.pc u).left_le s.head s'.head
  omega

/-- Nothing is lost when `head_` stays. -/
theorem rank_same (pc : s'.pc u = s.pc u) (head : s'.head = s.head) : rank n s' u = rank n s u := by
  unfold rank
  rw [pc, head]

/-! ### What an atomic step spends -/

/-- **What a step spends**: a step of the thread that leaves `head_` alone, or a success, which ends the
call. -/
structure Spends (n : Nat) (s s' : State T N) (t : T) (rise : Nat) : Prop where
  own : rank n s' t + 1 + rise * (n - 1) ≤ rank n s t
  others : ∀ u, u ≠ t → rank n s' u ≤ rank n s u + rise
  completes : rise = 0 ∨ ((s'.pc t).result).isSome

/-- A step to a later program counter. -/
theorem Spends.quiet {pc : Pc N} (here : s'.pc = Function.update s.pc t pc) (head : s'.head = s.head)
    (less : pc.left s.head + 1 ≤ (s.pc t).left s.head) (active : pc.Active → (s.pc t).Active) :
    Spends n s s' t 0 := by
  refine ⟨?_, fun u other => ?_, .inl rfl⟩
  · unfold rank
    rw [here, head, Function.update_self]
    by_cases going : pc.Active
    · rw [if_pos going, if_pos (active going)]
      omega
    · rw [if_neg going]
      omega
  · exact (rank_same (by rw [here, Function.update_of_ne other]) head).le

/-- A compare-exchange that succeeds. -/
theorem Spends.success {pc : Pc N} (here : s'.pc = Function.update s.pc t pc)
    (ends : pc.result.isSome) (left : (s.pc t).left s.head = 1) (active : (s.pc t).Active) :
    Spends n s s' t 2 := by
  have ended : pc.left s'.head = 0 ∧ ¬ pc.Active := by
    cases pc <;> simp_all [Pc.result, Pc.left, Pc.Active]
  refine ⟨?_, fun u other => ?_, .inr ?_⟩
  · unfold rank
    rw [here, Function.update_self, ended.1, if_neg ended.2, left, if_pos active]
  · exact rank_le (by rw [here, Function.update_of_ne other])
  · rw [here, Function.update_self]
    exact ends

/-- **Every atomic step is paid for.** -/
theorem runStep_rank (n : Nat) (ran : runStep s t = some s') : ∃ rise, Spends n s s' t rise := by
  unfold runStep at ran
  cases here : s.pc t with
  | idle | popRet result | pushRet | detachRet result => simp [here] at ran
  | popLoad =>
    simp only [here, Option.some.injEq] at ran
    subst ran
    exact ⟨0, .quiet rfl rfl (by simp [here, Pc.left]) fun _ => by simp [here, Pc.Active]⟩
  | popRead curr =>
    cases top : curr.ptr with
    | none =>
      simp only [here, top, Option.some.injEq] at ran
      subst ran
      refine ⟨0, .quiet rfl rfl ?_ fun active => active.elim⟩
      simp only [here, Pc.left]
      split_ifs <;> omega
    | some node =>
      simp only [here, top, Option.some.injEq] at ran
      subst ran
      refine ⟨0, .quiet rfl rfl ?_ fun _ => by simp [here, Pc.Active]⟩
      simp only [here, Pc.left]
      split_ifs <;> omega
  | popCas curr next =>
    simp only [here] at ran
    split at ran
    · rename_i equal
      cases ran
      exact ⟨2, .success rfl rfl (by simp [here, Pc.left, equal]) (by simp [here, Pc.Active])⟩
    · rename_i changed
      cases ran
      exact ⟨0, .quiet rfl rfl (by simp [here, Pc.left, changed]) fun _ => by simp [here, Pc.Active]⟩
  | pushLoad ptr =>
    simp only [here, Option.some.injEq] at ran
    subst ran
    exact ⟨0, .quiet rfl rfl (by simp [here, Pc.left]) fun _ => by simp [here, Pc.Active]⟩
  | pushWrite ptr curr =>
    simp only [here, Option.some.injEq] at ran
    subst ran
    refine ⟨0, .quiet rfl rfl ?_ fun _ => by simp [here, Pc.Active]⟩
    simp only [here, Pc.left]
    split_ifs <;> omega
  | pushCas ptr curr next =>
    simp only [here] at ran
    split at ran
    · rename_i equal
      cases ran
      exact ⟨2, .success rfl rfl (by simp [here, Pc.left, equal]) (by simp [here, Pc.Active])⟩
    · rename_i changed
      cases ran
      exact ⟨0, .quiet rfl rfl (by simp [here, Pc.left, changed]) fun _ => by simp [here, Pc.Active]⟩
  | detachLoad =>
    simp only [here, Option.some.injEq] at ran
    subst ran
    exact ⟨0, .quiet rfl rfl (by simp [here, Pc.left]) fun _ => by simp [here, Pc.Active]⟩
  | detachTest curr =>
    cases top : curr.ptr with
    | none =>
      simp only [here, top, Option.some.injEq] at ran
      subst ran
      refine ⟨0, .quiet rfl rfl ?_ fun active => active.elim⟩
      simp only [here, Pc.left]
      split_ifs <;> omega
    | some node =>
      simp only [here, top, Option.some.injEq] at ran
      subst ran
      refine ⟨0, .quiet rfl rfl ?_ fun _ => by simp [here, Pc.Active]⟩
      simp only [here, Pc.left]
      split_ifs <;> omega
  | detachCas curr next =>
    simp only [here] at ran
    split at ran
    · rename_i equal
      cases ran
      exact ⟨2, .success rfl rfl (by simp [here, Pc.left, equal]) (by simp [here, Pc.Active])⟩
    · rename_i changed
      cases ran
      exact ⟨0, .quiet rfl rfl (by simp [here, Pc.left, changed]) fun _ => by simp [here, Pc.Active]⟩

/-- **A spurious failure costs one more round**, of the thread it happens to. -/
theorem spuriousStep_rank (n : Nat) (ran : spuriousStep s t = some s') :
    rank n s' t + 1 ≤ rank n s t + 2 ∧ ∀ u, u ≠ t → rank n s' u = rank n s u := by
  unfold spuriousStep at ran
  have reloads : ∀ pc, s' = s.load t pc → (s.pc t).Active → 1 ≤ (s.pc t).left s.head →
      pc.left s.head = 2 → rank n s' t + 1 ≤ rank n s t + 2 ∧
        ∀ u, u ≠ t → rank n s' u = rank n s u := by
    rintro pc rfl active left two
    refine ⟨?_, fun u other => rank_same (Function.update_of_ne other _ _) rfl⟩
    unfold rank
    rw [if_pos active]
    show (Function.update s.pc t pc t).left s.head + _ + 1 ≤ _
    rw [Function.update_self, two]
    split_ifs <;> omega
  cases here : s.pc t with
  | popCas curr next | pushCas ptr curr next | detachCas curr next =>
    simp only [here, Option.some.injEq] at ran
    refine reloads _ ran.symm (by simp [here, Pc.Active]) ?_ (by simp [Pc.left])
    simp only [here, Pc.left]
    split_ifs <;> omega
  | _ => simp [here] at ran

/-! ### Runs -/

/-- An atomic step inside a call, spurious failures among them. -/
def isStep : T × Act T N → Bool
  | (_, .run) | (_, .spurious) => true
  | _ => false

def isSpurious : T × Act T N → Bool
  | (_, .spurious) => true
  | _ => false

def isCall : T × Act T N → Bool
  | (_, .call _) => true
  | _ => false

/-- A thread between two atomic steps of its own. -/
theorem rank_quiet {pc : Pc N} (here : s'.pc = Function.update s.pc t pc) (head : s'.head = s.head)
    (u : T) (other : u ≠ t) : rank n s' u ≤ rank n s u + 0 :=
  (rank_same (by rw [here, Function.update_of_ne other]) head).le

/-- **Every step is paid for**, by its thread's rank or by what a call and a spurious failure bring in. -/
theorem step_rank {act : T × Act T N} (positive : 0 < n) (next : step s act = some s') :
    ∃ rise, rank n s' act.1 + (isStep act).toNat + rise * (n - 1) ≤
        rank n s act.1 + ((2 * n + 1) * (isCall act).toNat + 2 * (isSpurious act).toNat) ∧
      ∀ u, u ≠ act.1 → rank n s' u ≤ rank n s u + rise := by
  obtain ⟨t, act⟩ := act
  cases act with
  | call op =>
    simp only [step, Option.ite_none_right_eq_some, Option.some.injEq] at next
    obtain ⟨_, rfl⟩ := next
    refine ⟨0, ?_, rank_quiet rfl rfl⟩
    have three : op.entry.left s.head = 3 ∧ op.entry.Active := by
      cases op <;> exact ⟨rfl, trivial⟩
    have started : rank n (s.goto t op.entry) t = 3 + 2 * (n - 1) := by
      show (Function.update s.pc t op.entry t).left s.head + _ = _
      rw [Function.update_self, three.1]
      show _ + (if (Function.update s.pc t op.entry t).Active then _ else _) = _
      rw [Function.update_self, if_pos three.2]
    show rank n (s.goto t op.entry) t + 0 + _ ≤ rank n s t + ((2 * n + 1) * 1 + 2 * 0)
    rw [started]
    omega
  | run =>
    obtain ⟨rise, spends⟩ := runStep_rank n next
    exact ⟨rise, spends.own, spends.others⟩
  | spurious =>
    obtain ⟨own, others⟩ := spuriousStep_rank n next
    refine ⟨0, ?_, fun u other => (others u other).le⟩
    show rank n s' t + 1 + _ ≤ rank n s t + ((2 * n + 1) * 0 + 2 * 1)
    omega
  | ret result =>
    simp only [step, Option.ite_none_right_eq_some, Option.some.injEq] at next
    obtain ⟨_, rfl⟩ := next
    refine ⟨0, ?_, rank_quiet rfl rfl⟩
    have ended : rank n (s.goto t .idle) t = 0 := by
      show (Function.update s.pc t .idle t).left s.head + (if (Function.update s.pc t .idle t).Active
        then _ else _) = 0
      rw [Function.update_self]
      rfl
    show rank n (s.goto t .idle) t + 0 + 0 * (n - 1) ≤ _
    rw [ended]
    omega
  | write node link | give node other | create node | delete node =>
    simp only [step, Option.ite_none_right_eq_some, Option.some.injEq] at next
    obtain ⟨_, rfl⟩ := next
    refine ⟨0, ?_, fun u _ => le_rfl⟩
    show rank n s t + 0 + 0 * (n - 1) ≤ rank n s t + _
    omega

/-- **The loops of `lf_stack` cost `2 * n + 1` atomic steps a call.** In any interleaving of the calls
of `n` threads, on a new stack, the atomic steps are at most `2 * n + 1` for each call made and two for
each spurious failure. -/
theorem steps_amortized (U : Finset T) (start s : State T N) (acts : List (T × Act T N))
    (initial : (machine T N).init start) (run : (machine T N).Exec Machine.anyStep start acts s)
    (threads : ∀ act ∈ acts, act.1 ∈ U) :
    acts.countP isStep ≤ (2 * U.card + 1) * acts.countP isCall + 2 * acts.countP isSpurious := by
  have paid := Machine.Exec.amortized U Prod.fst (rank U.card) (fun step => (isStep step.2).toNat)
    (fun step => (2 * U.card + 1) * (isCall step.2).toNat + 2 * (isSpurious step.2).toNat)
    (fun act => act.1 ∈ U)
    (fun s act s' inside _ next => step_rank (Finset.card_pos.mpr ⟨_, inside⟩) next) run
    fun act member => ⟨threads act member, threads act member⟩
  have none_ : ∑ u ∈ U, rank U.card start u = 0 := by
    refine Finset.sum_eq_zero fun u _ => ?_
    unfold rank
    rw [initial.1.pc u]
    rfl
  rw [none_, List.sum_map_add, Machine.sum_price, Machine.sum_price, Machine.sum_toNat,
    run.countP_trail, run.countP_trail, run.countP_trail] at paid
  omega

/-- A push and a pop with a spurious failure in between: eight atomic steps, of twelve. -/
theorem steps_amortized_push_pop :
    (∃ s, (machine (Fin 2) Nat).Exec Machine.anyStep demoStart demoActs s) ∧
    demoActs.countP isStep = 8 ∧
    demoActs.countP isStep ≤ (2 * (Finset.univ : Finset (Fin 2)).card + 1) * demoActs.countP isCall
      + 2 * demoActs.countP isSpurious := by
  have finished : ((machine (Fin 2) Nat).runFrom TagFresh demoStart demoActs).isSome := by decide
  obtain ⟨s, found⟩ := Option.isSome_iff_exists.mp finished
  have run : (machine (Fin 2) Nat).Exec Machine.anyStep demoStart demoActs s :=
    (Machine.exec_of_runFrom found).mono fun _ _ _ => trivial
  refine ⟨⟨s, run⟩, rfl, ?_⟩
  refine steps_amortized Finset.univ demoStart s demoActs ?_ run fun act _ => Finset.mem_univ _
  exact ⟨⟨rfl, fun _ => rfl, rfl, fun _ => by simp [demoStart], rfl⟩, rfl⟩

/-- No call completes in the step. -/
def Unfinished (s : State T N) (act : T × Act T N) : Prop :=
  ∀ s', step s act = some s' → (s'.pc act.1).result = none

/-- **A thread inside a call can go on**, whatever the others do: its next atomic step is always
possible. -/
theorem runStep_isSome (active : (s.pc t).Active) : ∃ s', step s (t, .run) = some s' := by
  show ∃ s', runStep s t = some s'
  unfold runStep
  cases here : s.pc t with
  | idle | popRet result | pushRet | detachRet result =>
    rw [here] at active
    exact active.elim
  | popLoad | pushLoad ptr | pushWrite ptr curr | detachLoad => exact ⟨_, rfl⟩
  | popRead curr | detachTest curr =>
    simp only
    cases curr.ptr with
    | none => exact ⟨_, rfl⟩
    | some node => exact ⟨_, rfl⟩
  | popCas curr next | pushCas ptr curr next | detachCas curr next =>
    by_cases equal : s.head = curr
    · exact ⟨_, if_pos equal⟩
    · exact ⟨_, if_neg equal⟩

/-- **`lf_stack` is lock-free**: whatever the state, `n` threads inside their calls take at most `4 * n`
atomic steps until one of the calls completes; and until then each of them can take its next step. -/
theorem lock_free (U : Finset T) (start s : State T N) (acts : List (T × Act T N))
    (run : (machine T N).Exec Unfinished start acts s)
    (steps : ∀ act ∈ acts, act.1 ∈ U ∧ act.2 = .run) :
    acts.length ≤ 4 * U.card ∧ ∀ t, (s.pc t).Active → ∃ s', step s (t, .run) = some s' := by
  refine ⟨?_, fun t => runStep_isSome⟩
  have paid := Machine.Exec.amortized U Prod.fst (rank 1) (fun _ => 1) (fun _ => 0)
    (fun act => act.2 = .run) (fun s act s' runs unfinished next => ?_) run steps
  · have bound : ∑ u ∈ U, rank 1 start u ≤ U.card * 4 := by
      refine Finset.sum_le_card_nsmul U _ 4 fun u _ => ?_
      unfold rank
      have four := (start.pc u).left_le_four start.head
      split_ifs <;> omega
    have same : ((machine T N).trail start acts).length = acts.length := by
      rw [← List.length_map (f := Prod.snd), run.trail_snd]
    rw [Machine.sum_const, Machine.sum_const, same] at paid
    omega
  · obtain ⟨t, act⟩ := act
    cases runs
    obtain ⟨rise, spends⟩ := runStep_rank 1 next
    have none_ : (s'.pc t).result = none := unfinished s' next
    have zero : rise = 0 := spends.completes.resolve_right (by simp [none_])
    subst zero
    refine ⟨0, ?_, spends.others⟩
    have own := spends.own
    show rank 1 s' t + 1 + 0 * (U.card - 1) ≤ rank 1 s t + 0
    omega

/-- Two threads push: the first two steps of each, and neither call is complete; both can go on. -/
theorem lock_free_push : ∃ s, (machine (Fin 2) Nat).Exec Unfinished
      ((demoStart.goto 0 (.pushLoad 7)).goto 1 (.pushLoad 8)) [(0, .run), (1, .run), (1, .run), (0, .run)] s ∧
    [((0 : Fin 2), (.run : Act (Fin 2) Nat)), (1, .run), (1, .run), (0, .run)].length
      ≤ 4 * (Finset.univ : Finset (Fin 2)).card ∧
    (∃ s', step s (0, .run) = some s') ∧ ∃ s', step s (1, .run) = some s' := by
  have run : ∃ s, (machine (Fin 2) Nat).Exec Unfinished
      ((demoStart.goto 0 (.pushLoad 7)).goto 1 (.pushLoad 8)) [(0, .run), (1, .run), (1, .run), (0, .run)] s ∧
      (s.pc 0).Active ∧ (s.pc 1).Active := by
    refine ⟨_, .cons (fun s' next => ?_) rfl (.cons (fun s' next => ?_) rfl
      (.cons (fun s' next => ?_) rfl (.cons (fun s' next => ?_) rfl (.nil _)))), trivial, trivial⟩ <;>
    · cases next
      rfl
  obtain ⟨s, run, first, second⟩ := run
  obtain ⟨bound, goes⟩ := lock_free Finset.univ _ s _ run fun act member =>
    ⟨Finset.mem_univ _, by
      simp only [List.mem_cons, List.not_mem_nil, or_false] at member
      rcases member with rfl | rfl | rfl | rfl <;> rfl⟩
  exact ⟨s, run, bound, goes 0 first, goes 1 second⟩

end NpAlloc.LfStack
