/-
**`count_free_list` with no other operation in progress.**

`CountsFree s t c`: thread `t` calls `count_free_list` in `s`, runs it alone to its return, with any
spurious failures on the way, and gets `c`. The call detaches the whole stack and pushes it back
chunk by chunk, so what it has counted and what it has still to count add up to the stack it found
(`tally`); running alone, none of its compare-exchanges can fail but spuriously, so it ends (`rank`).

**`countsFree_iff`** — it returns, and what it returns is the number of chunks of the free stack.
-/

import NpAlloc.Mmap.Places

set_option linter.unusedSectionVars false

namespace NpAlloc.Mmap

variable {T : Type} [DecidableEq T] {s s' : State T} {t : T}

/-- A run of one thread's own steps. -/
def Alone (t : T) (acts : List (T × Act)) : Prop :=
  ∀ act ∈ acts, act = (t, .run) ∨ act = (t, .spurious)

/-- **`count_free_list()` called in `s` by `t` and run alone returns `c`.** -/
def CountsFree (s : State T) (t : T) (c : Nat) : Prop :=
  ∃ acts last, (machine T).Exec Admitted s ((t, .callCount) :: acts) last ∧ Alone t acts ∧
    last.pc t = .countRet c

/-- A program counter of `count_free_list`. -/
def Pc.counting : Pc → Bool
  | .countDetach | .countWalk _ _ | .countPush _ _ | .countRet _ => true
  | _ => false

/-- What the call has counted and has still to count. -/
def tally (s : State T) (t : T) : Nat :=
  match s.pc t with
  | .countDetach =>
    match s.freeHead.pc t with
    | .detachRet _ => (s.freeHead.ghost.taken t).length
    | _ => s.freeHead.ghost.stack.length
  | .countWalk _ c | .countPush _ c => c + (s.ghost.rest t).length
  | .countRet c => c
  | _ => 0

/-- What holds while `count_free_list` runs alone and has `n` chunks to count in all. -/
structure Solo (n : Nat) (t : T) (s : State T) : Prop where
  places : Places s
  synced : LfStack.Synced s.freeHead t
  counting : (s.pc t).counting = true
  tallied : tally s t = n

/-- A step inside the detaching loop keeps the tally. -/
theorem tally_detach {freeHead : LfStack.State T Nat} (inv : LfStack.Inv s.freeHead)
    (synced : LfStack.Synced s.freeHead t) (here : s.pc t = .countDetach)
    (kind : (s.freeHead.pc t).kind = .detach) (moved : LfStack.Internal s.freeHead t freeHead) :
    tally { s with freeHead := freeHead } t = tally s t := by
  unfold tally
  simp only [here]
  cases moved with
  | detachLoad entered =>
    rcases entered with there | ⟨curr, next, there⟩ <;>
      simp [LfStack.State.load, there]
  | detachNull curr there null =>
    -- the loaded `head_` is still `head_`, so the stack is empty
    have chain := inv.chain
    rw [synced.detach inv (.inl there), null] at chain
    simp [LfStack.State.goto, there, chain.eq_nil]
  | detachNext curr node there => simp [LfStack.State.goto, there]
  | detachCas curr next there => simp [LfStack.State.install, there]
  | popLoad entered | pushLoad _ entered =>
    rcases entered with there | ⟨_, _, there⟩ <;> rw [there] at kind <;> cases kind
  | popNull _ there | popNext _ _ there | popCas _ _ there | pushWrite _ _ there
  | pushCas _ _ _ there => rw [there] at kind; cases kind

/-- **A step of `count_free_list` alone.** -/
theorem Solo.moves {n : Nat} (solo : Solo n t s) (moved : Moves s t s')
    (running : ∀ c, s.pc t ≠ .countRet c) : Solo n t s' := by
  obtain ⟨places, synced, counting, count⟩ := solo
  have after := places.moves moved
  have kind := places.kind t
  have walk := places.walk t
  cases moved with
  | internal freeHead moved =>
    refine ⟨after, synced.internal moved, counting, ?_⟩
    rw [← count]
    cases here : s.pc t <;> rw [here] at kind counting <;>
      simp only [Pc.counting, reduceCtorEq] at counting
    case countDetach => exact tally_detach places.stack synced here kind moved
    all_goals simp [tally, here]
  | detached result here done =>
    have there := places.at_detachRet here done
    refine ⟨after, ?_, ?_, ?_⟩
    · simp [LfStack.Synced, State.keep, State.inner, State.returned, LfStack.State.goto,
        LfStack.Pc.loaded]
    · simp [State.keep, State.inner, Pc.counting]
    · unfold tally at count
      simp only [here, there] at count
      simp [tally, State.keep, State.inner, count]
  | walkEnd c here =>
    unfold tally at count
    rw [here] at walk count
    have nothing : s.ghost.rest t = [] := Linked.eq_nil walk
    refine ⟨after, synced, by simp [State.goto, Pc.counting], ?_⟩
    simp only [nothing, List.length_nil, Nat.add_zero] at count
    simp [tally, State.goto, count]
  | walk ptr c here =>
    unfold tally at count
    rw [here] at walk count
    obtain ⟨rest, split, _⟩ := Linked.exists_cons walk
    refine ⟨after, ?_, by simp [State.keep, State.inner, Pc.counting], ?_⟩
    · simp [LfStack.Synced, State.keep, State.inner, LfStack.State.goto, LfStack.Pc.loaded]
    · simp only [split, List.length_cons] at count
      simp [tally, State.keep, State.inner, split]
      omega
  | walked next c here result done =>
    unfold tally at count
    rw [here] at count
    refine ⟨after, ?_, by simp [State.inner, Pc.counting], ?_⟩
    · simp [LfStack.Synced, State.inner, State.returned, LfStack.State.goto, LfStack.Pc.loaded]
    · simp only at count
      simp [tally, State.inner, count]
  | ret here =>
    rcases here with here | ⟨c, here⟩
    · rw [here] at counting
      cases counting
    · exact absurd here (running c)
  | load here =>
    rcases here with here | ⟨head, next, here⟩ <;> rw [here] at counting <;> cases counting
  | callAlloc here | callFree _ here | callCount here | popped _ here | poppedNull here
  | reuse _ here | null here | next _ here | issue _ here | commit _ here | count _ here
  | pushed here | dealloc here | retAlloc _ here | write _ _ here =>
    rw [here] at counting
    cases counting

/-- A thread at its return takes no step of its own. -/
theorem running_of_step {act : T × Act} (places : Places s) (own : act = (t, .run) ∨ act = (t, .spurious))
    (next : step s act = some s') (c : Nat) : s.pc t ≠ .countRet c := by
  intro here
  have idle := places.inner_idle (t := t) (by rw [here]; rfl)
  rcases own with rfl | rfl
  · simp [step, runStep, here] at next
  · simp [step, spuriousStep, here, LfStack.spuriousStep, idle] at next

/-- **What it returns is what it found.** -/
theorem Solo.run {n : Nat} {acts : List (T × Act)} (run : (machine T).Exec Admitted s acts s')
    (alone : Alone t acts) (solo : Solo n t s) : Solo n t s' := by
  induction run with
  | nil => exact solo
  | @cons s middle _ act acts admitted next _ ih =>
    have own := alone act List.mem_cons_self
    have running := running_of_step solo.places own next
    have moved : Moves s t middle := by
      rcases own with rfl | rfl <;> exact moves_of_step admitted.1 admitted.2 next
    exact ih (fun act member => alone act (List.mem_cons_of_mem _ member)) (solo.moves moved running)

theorem Solo.call (places : Places s) (next : step s (t, .callCount) = some s') :
    Solo s.freeHead.ghost.stack.length t s' := by
  simp only [step, Option.ite_none_right_eq_some, Option.some.injEq] at next
  obtain ⟨here, rfl⟩ := next
  refine ⟨places.moves (.callCount here), ?_, ?_, ?_⟩
  · simp [LfStack.Synced, State.inner, LfStack.State.goto, LfStack.Pc.loaded]
  · simp [State.inner, Pc.counting]
  · simp [tally, State.inner, LfStack.State.goto]

/-! ### It returns -/

/-- How far a detaching loop or a push is from its return. -/
def innerRank : LfStack.Pc Nat → Nat
  | .detachLoad | .pushLoad _ => 3
  | .detachTest _ | .pushWrite _ _ => 2
  | .detachCas _ _ | .pushCas _ _ _ => 1
  | _ => 0

/-- How far a call of `count_free_list` that runs alone is from its return. -/
def rank (s : State T) (t : T) : Nat :=
  match s.pc t with
  | .countDetach => 6 * tally s t + 2 + innerRank (s.freeHead.pc t)
  | .countWalk _ _ => 6 * (s.ghost.rest t).length + 1
  | .countPush _ _ => 6 * (s.ghost.rest t).length + 2 + innerRank (s.freeHead.pc t)
  | _ => 0

/-- Alone, an operation of `free_head_` that has not finished comes one step closer to its end. -/
theorem inner_progress {freeHead : LfStack.State T Nat} (inv : LfStack.Inv freeHead)
    (synced : LfStack.Synced freeHead t)
    (kind : (freeHead.pc t).kind = .push ∨ (freeHead.pc t).kind = .detach)
    (unfinished : (freeHead.pc t).result = none) :
    ∃ after, LfStack.runStep freeHead t = some after ∧
      innerRank (after.pc t) < innerRank (freeHead.pc t) := by
  cases here : freeHead.pc t <;> simp only [here, LfStack.Pc.kind, LfStack.Pc.result, reduceCtorEq,
    or_self] at kind unfinished
  case pushLoad ptr | pushWrite ptr curr | detachLoad =>
    exact ⟨_, by simp only [LfStack.runStep, here]; rfl,
      by simp [LfStack.State.load, LfStack.State.goto, LfStack.State.link, innerRank]⟩
  case pushCas ptr curr next =>
    exact ⟨_, by simp only [LfStack.runStep, here, synced.push inv here, if_true]; rfl,
      by simp [LfStack.State.install, innerRank]⟩
  case detachTest curr =>
    cases top : curr.ptr with
    | none =>
      exact ⟨_, by simp only [LfStack.runStep, here, top]; rfl,
        by simp [LfStack.State.goto, innerRank]⟩
    | some node =>
      exact ⟨_, by simp only [LfStack.runStep, here, top]; rfl,
        by simp [LfStack.State.goto, innerRank]⟩
  case detachCas curr next =>
    exact ⟨_, by simp only [LfStack.runStep, here, synced.detach inv (.inr ⟨next, here⟩), if_true]; rfl,
      by simp [LfStack.State.install, innerRank]⟩

/-- **Alone, `count_free_list` comes closer to its return with every step.** -/
theorem Solo.progress {n : Nat} (solo : Solo n t s) (running : ∀ c, s.pc t ≠ .countRet c) :
    ∃ after, step s (t, .run) = some after ∧ Admitted s (t, .run) ∧ rank after t < rank s t := by
  have counting := solo.counting
  have admitted : Admitted s (t, .run) := by
    refine ⟨⟨by simp, fun _ head next here => ?_⟩, fun _ => solo.synced.tagFresh⟩
    rw [show s.pc t = .newCas head next from here] at counting
    cases counting
  have kind := solo.places.kind t
  have walk := solo.places.walk t
  -- a step inside `free_head_` of a call that is there
  have inner (done : Option Nat → State T)
      (there : s.pc t = .countDetach ∨ ∃ next c, s.pc t = .countPush next c)
      (unfinished : (s.freeHead.pc t).result = none) :
      ∃ after, innerStep s t done = some after ∧ rank after t < rank s t := by
    obtain ⟨freeHead, ran, closer⟩ := inner_progress solo.places.stack solo.synced (by
      rw [kind]
      rcases there with there | ⟨_, _, there⟩ <;> rw [there] <;> simp [Pc.kind]) unfinished
    refine ⟨{ s with freeHead := freeHead }, by simp [innerStep, unfinished, ran], ?_⟩
    rcases there with there | ⟨_, _, there⟩
    · have same := tally_detach solo.places.stack solo.synced there (by rw [kind, there]; rfl)
        (LfStack.internal_of_run solo.synced.tagFresh ran)
      simp only [rank, there, same]
      omega
    · simp only [rank, there]
      omega
  cases here : s.pc t <;> simp only [here, Pc.counting, reduceCtorEq] at counting
  case countRet c => exact absurd here (running c)
  case countDetach =>
    cases finished : (s.freeHead.pc t).result with
    | none =>
      obtain ⟨after, ran, closer⟩ := inner _ (.inl here) finished
      exact ⟨after, by simp only [step, runStep, here]; exact ran, admitted, closer⟩
    | some result =>
      refine ⟨_, by simp only [step, runStep, here, innerStep, finished]; rfl, admitted, ?_⟩
      have there := solo.places.at_detachRet here finished
      simp [rank, tally, here, there, State.keep, State.inner, innerRank]
  case countWalk ptr c =>
    rw [here] at walk
    cases ptr with
    | none =>
      refine ⟨_, by simp only [step, runStep, here]; rfl, admitted, ?_⟩
      simp [rank, here, State.goto]
    | some ptr =>
      obtain ⟨rest, split, _⟩ := Linked.exists_cons walk
      refine ⟨_, by simp only [step, runStep, here]; rfl, admitted, ?_⟩
      simp [rank, here, State.keep, State.inner, LfStack.State.goto, innerRank, split]
      omega
  case countPush next c =>
    cases finished : (s.freeHead.pc t).result with
    | none =>
      obtain ⟨after, ran, closer⟩ := inner _ (.inr ⟨_, _, here⟩) finished
      exact ⟨after, by simp only [step, runStep, here]; exact ran, admitted, closer⟩
    | some result =>
      refine ⟨_, by simp only [step, runStep, here, innerStep, finished]; rfl, admitted, ?_⟩
      simp [rank, here, State.inner]
      omega

/-- **Alone, `count_free_list` returns.** -/
theorem Solo.returns {n : Nat} (solo : Solo n t s) :
    ∃ acts last, (machine T).Exec Admitted s acts last ∧ Alone t acts ∧ last.pc t = .countRet n := by
  induction measured : rank s t using Nat.strong_induction_on generalizing s with
  | _ bound ih =>
    by_cases ended : ∃ c, s.pc t = .countRet c
    · obtain ⟨c, here⟩ := ended
      have tallied := solo.tallied
      rw [tally, here] at tallied
      exact ⟨[], s, .nil s, by simp [Alone], by rw [here, ← tallied]⟩
    · have running : ∀ c, s.pc t ≠ .countRet c := fun c here => ended ⟨c, here⟩
      obtain ⟨after, next, admitted, closer⟩ := solo.progress running
      have solo' := solo.moves (moves_of_step admitted.1 admitted.2 next) running
      obtain ⟨acts, last, run, alone, here⟩ := ih _ (by omega) solo' rfl
      refine ⟨(t, .run) :: acts, last, .cons admitted next run, ?_, here⟩
      intro act member
      rcases List.mem_cons.mp member with rfl | later
      · exact .inl rfl
      · exact alone act later

/-- **`count_free_list` returns the number of chunks of the free stack.** -/
theorem countsFree_iff (places : Places s) (idle : s.pc t = .idle) (c : Nat) :
    CountsFree s t c ↔ c = s.freeHead.ghost.stack.length := by
  constructor
  · rintro ⟨acts, last, run, alone, here⟩
    cases run with
    | cons admitted next rest =>
      have tallied := ((Solo.call places next).run rest alone).tallied
      rw [tally, here] at tallied
      exact tallied
  · rintro rfl
    have enabled : step s (t, .callCount)
        = some (s.inner (s.freeHead.goto t .detachLoad) t .countDetach) := by
      simp [step, idle]
    obtain ⟨acts, last, run, alone, here⟩ := (Solo.call places enabled).returns
    refine ⟨acts, last, .cons ⟨⟨by simp, by simp⟩, by simp [TagFresh]⟩ enabled run, alone, here⟩

end NpAlloc.Mmap
