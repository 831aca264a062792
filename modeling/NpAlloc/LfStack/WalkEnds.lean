/-
**`for_each` comes to its end.**

`potential`: how many steps a call has to go, where every compare-exchange that has succeeded on the stack
since the thread's load (`stale`) costs it two more. A step of the call spends one; a spurious failure
gives one back; a success of another thread gives at most nine back, because it makes a load stale and may
make the stack one node longer. So the steps of a call are bounded by the nodes it found and by what the
others did to the stack in the meantime (`potential_run`).
-/

import NpAlloc.LfStack.Walk

set_option linter.unusedSectionVars false

namespace NpAlloc.LfStack

variable {T N : Type} [DecidableEq T] [DecidableEq N] {s s' : State T N} {t u : T}

/-! ### The loops of `lf_stack` -/

/-- How many compare-exchanges have succeeded since the thread's load. -/
def stale (s : State T N) (t : T) : Nat := s.ghost.casCount - s.ghost.stamp t

/-- How far a compare-exchange loop is from its return. -/
def cost (s : State T N) (t : T) : Nat :=
  match s.pc t with
  | .pushLoad _ | .detachLoad => 5
  | .pushWrite _ _ | .detachTest _ => 4 + 2 * stale s t
  | .pushCas _ _ _ | .detachCas _ _ => 3 + 2 * stale s t
  | _ => 0

/-- A compare-exchange that fails has been overtaken. -/
theorem Loaded.overtaken {curr : Head N} (loaded : Loaded s.ghost s.head t curr) (inv : Inv s)
    (differ : s.head ≠ curr) : 0 < stale s t := by
  have bound := inv.stamp t
  have moved : s.ghost.stamp t ≠ s.ghost.casCount := fun now => differ (loaded.fresh now).symm
  unfold stale
  omega

/-- **A step of a loop spends**, the last one at least three. -/
theorem cost_run (inv : Inv s) (loops : (s.pc t).kind = .push ∨ (s.pc t).kind = .detach)
    (running : (s.pc t).result = none) :
    ∃ after, runStep s t = some after ∧ cost after t < cost s t ∧ 3 ≤ cost s t := by
  have own := inv.pcs t
  unfold runStep cost
  cases here : s.pc t with
  | pushLoad ptr | detachLoad =>
    exact ⟨_, rfl, by simp [State.load, stale], by simp⟩
  | pushWrite ptr curr =>
    exact ⟨_, rfl, by simp [State.goto, State.link, stale], by simp only []; omega⟩
  | pushCas ptr curr next =>
    rw [here] at own
    by_cases equal : s.head = curr
    · exact ⟨_, by simp only [equal, if_true]; rfl, by simp only [State.install, Function.update_self]; omega,
        by simp only []; omega⟩
    · have overtaken := own.1.overtaken inv equal
      refine ⟨_, by simp only [equal, if_false]; rfl, ?_, by simp only []; omega⟩
      simp only [State.load, Function.update_self, stale, Nat.sub_self] at overtaken ⊢
      omega
  | detachTest curr =>
    cases top : curr.ptr with
    | none =>
      refine ⟨_, by simp only [top]; rfl, ?_, by simp only []; omega⟩
      simp only [State.goto, Function.update_self]
      omega
    | some node =>
      exact ⟨_, by simp only [top]; rfl, by simp [State.goto, stale], by simp only []; omega⟩
  | detachCas curr next =>
    rw [here] at own
    by_cases equal : s.head = curr
    · exact ⟨_, by simp only [equal, if_true]; rfl, by simp only [State.install, Function.update_self]; omega,
        by simp only []; omega⟩
    · have overtaken := own.1.overtaken inv equal
      refine ⟨_, by simp only [equal, if_false]; rfl, ?_, by simp only []; omega⟩
      simp only [State.load, Function.update_self, stale, Nat.sub_self] at overtaken ⊢
      omega
  | _ => simp_all [Pc.kind, Pc.result]

/-- A spurious failure gives one back. -/
theorem cost_spurious (ran : spuriousStep s t = some s') : cost s' t ≤ cost s t + 1 := by
  unfold spuriousStep at ran
  cases here : s.pc t with
  | popCas curr next | pushCas ptr curr next | detachCas curr next =>
    simp only [here, Option.some.injEq] at ran
    subst ran
    simp [cost, here, State.load, stale]
  | _ => simp [here] at ran

/-- What the others succeed in costs two. -/
theorem Untouched.cost (same : Untouched u s s') :
    cost s' u ≤ cost s u + 2 * (s'.ghost.casCount - s.ghost.casCount) := by
  have grown := same.count
  unfold LfStack.cost stale
  rw [same.pc, same.stamp]
  cases s.pc u <;> simp only [] <;> omega

/-- A success adds at most one node. -/
theorem Internal.length (moved : Internal s t s') :
    s'.ghost.stack.length ≤ s.ghost.stack.length + (s'.ghost.casCount - s.ghost.casCount) := by
  cases moved with
  | popCas curr next here => simp only [State.install, List.length_tail]; omega
  | pushCas ptr curr next here => simp only [State.install, List.length_cons]; omega
  | detachCas curr next here => exact Nat.zero_le _
  | _ => exact Nat.le_add_right _ _

theorem step_length {act : T × Act T N} (fresh : TagFresh s act) (next : step s act = some s') :
    s'.ghost.stack.length ≤ s.ghost.stack.length + (s'.ghost.casCount - s.ghost.casCount) := by
  obtain ⟨t, act⟩ := act
  cases act with
  | run => exact (internal_of_run fresh next).length
  | spurious => exact (internal_of_spurious next).length
  | call op | ret result | write node link | give node other | create node | delete node =>
    simp only [step, Option.ite_none_right_eq_some, Option.some.injEq] at next
    obtain ⟨_, rfl⟩ := next
    exact Nat.le_add_right _ _

end NpAlloc.LfStack

namespace NpAlloc.LfStack.ForEach

variable {T N : Type} [DecidableEq T] [DecidableEq N] {s s' : State T N} {t u : T}

/-! ### The potential -/

/-- How many nodes the call has still to give back. -/
def left (s : State T N) (t : T) : Nat := (s.lf.ghost.taken t).length - (s.given t).length

/-- **How far a call of `for_each` is from its end.** -/
def potential (s : State T N) (t : T) : Nat :=
  match s.walk t with
  | .out | .done => 0
  | .detaching =>
    if (s.lf.pc t).result = none then 7 * s.lf.ghost.stack.length + 2 + cost s.lf t
    else 7 * (s.lf.ghost.taken t).length + 2
  | .testing _ => 7 * left s t + 1
  | .reading _ => 7 * left s t
  | .pushing _ _ =>
    if (s.lf.pc t).result = none then 7 * (left s t - 1) + 1 + cost s.lf t
    else 7 * left s t + 2

/-- **A step inside the detaching loop** leaves the stack, or takes all of it. -/
theorem detach_internal {lf lf' : LfStack.State T N} (kind : (lf.pc t).kind = .detach)
    (moved : Internal lf t lf') :
    (lf'.pc t).result = none ∧ lf'.ghost.stack = lf.ghost.stack ∨
      (lf'.pc t).result ≠ none ∧ (lf'.ghost.taken t = [] ∨ lf'.ghost.taken t = lf.ghost.stack) := by
  cases moved with
  | detachLoad | detachNext curr node here =>
    exact .inl ⟨by simp [LfStack.State.load, LfStack.State.goto, LfStack.Pc.result], rfl⟩
  | detachNull curr here null =>
    exact .inr ⟨by simp [LfStack.State.goto, LfStack.Pc.result], .inl (Function.update_self ..)⟩
  | detachCas curr next here =>
    exact .inr ⟨by simp [LfStack.State.install, LfStack.Pc.result], .inr (Function.update_self ..)⟩
  | popLoad entered | pushLoad ptr entered =>
    rcases entered with here | ⟨curr, next, here⟩ <;> rw [here] at kind <;> cases kind
  | _ => simp_all [LfStack.Pc.kind]

/-- **Every step of a call is there to take, and spends.** -/
theorem potential_step (inv : Inv s) (busy : s.walk t ≠ .out) (more : s.walk t ≠ .done) :
    ∃ after, step s (t, .run) = some after ∧
      (TagFresh s.lf (t, .run) → potential after t < potential s t) := by
  have walk := inv.walks t
  have finished : ∀ {result : Option N}, (s.lf.pc t).result = some result →
      LfStack.step s.lf (t, .ret result) = some (s.lf.goto t .idle) := fun done => by
    simp [LfStack.step, done]
  show ∃ after, runStep s t = some after ∧ _
  unfold runStep potential
  cases here : s.walk t with
  | out => exact absurd here busy
  | done => exact absurd here more
  | detaching =>
    rw [here] at walk
    cases done : (s.lf.pc t).result with
    | none =>
      obtain ⟨lf, ran, less, _⟩ := cost_run inv.stack (.inr walk.1) done
      have inside : LfStack.step s.lf (t, .run) = some lf := ran
      refine ⟨s.inner lf, by simp only; rw [inside]; rfl, fun fresh => ?_⟩
      have after : (s.inner lf).walk t = .detaching := here
      rw [after]
      rcases detach_internal walk.1 (internal_of_run fresh ran) with ⟨running, same⟩ | ⟨ended, took⟩
      · simp only [State.inner, running, if_true, same]
        omega
      · simp only [State.inner, ended, if_false, if_true]
        rcases took with took | took <;> rw [took]
        · simp only [List.length_nil]
          omega
        · omega
    | some result =>
      refine ⟨_, by simp only; rw [finished done]; rfl, fun _ => ?_⟩
      have given : s.given t = [] := walk.2.2
      simp [State.goto, left, State.inner, LfStack.State.goto, given]
  | testing ptr =>
    rw [here] at walk
    obtain ⟨idle, nodup, rest, remains, split, applied⟩ := walk
    cases ptr with
    | none => exact ⟨_, rfl, fun _ => by simp [State.goto]⟩
    | some ptr => exact ⟨_, rfl, fun _ => by simp [State.goto, State.apply, left]⟩
  | reading ptr =>
    rw [here] at walk
    obtain ⟨idle, nodup, rest, remains, split, applied⟩ := walk
    have owner := remains.2 ptr List.mem_cons_self
    refine ⟨_, by
      simp only
      rw [show LfStack.step s.lf (t, .call (.push ptr)) = some (s.lf.goto t (.pushLoad ptr)) by
        simp [LfStack.step, idle, Op.Allowed, owner, Op.entry]]
      rfl, fun _ => ?_⟩
    have positive : 0 < left s t := by
      unfold left
      rw [split]
      simp
    simp [State.goto, State.inner, LfStack.State.goto, Pc.result, cost, left] at positive ⊢
    omega
  | pushing ptr next =>
    rw [here] at walk
    cases done : (s.lf.pc t).result with
    | none =>
      obtain ⟨lf, ran, less, enough⟩ := cost_run inv.stack (.inl walk.1) done
      have inside : LfStack.step s.lf (t, .run) = some lf := ran
      refine ⟨_, by simp only; rw [inside]; rfl, fun fresh => ?_⟩
      obtain ⟨applied, kind, _, after, rest, _, split⟩ :=
        walk.push_step (internal_of_run fresh ran)
      have taken := (push_internal walk.1 (internal_of_run fresh ran)).1
      have lengths : (s.lf.ghost.taken t).length = (s.given t).length + 1 + rest.length := by
        rw [← taken, split, applied]
        simp only [List.length_append, List.length_singleton]
      rcases after with ⟨pushed, _⟩ | ⟨hand, _⟩
      · have walk' : ((s.inner lf).give t ptr).walk t = .pushing ptr next := here
        simp only [if_pos pushed]
        rw [walk']
        simp only [State.inner, State.give, left, pushed, LfStack.Pc.result, Function.update_self, taken,
          List.length_append, List.length_singleton, if_true, if_false, reduceCtorEq]
        omega
      · have unpushed : lf.pc t ≠ .pushRet := fun pushed => by
          rw [LfStack.hand, pushed] at hand
          cases hand
        have running : (lf.pc t).result = none := by
          cases ended : (lf.pc t).result with
          | none => rfl
          | some result => exact absurd ((LfStack.Pc.eq_of_result ended).2.1 kind) unpushed
        have walk' : (s.inner lf).walk t = .pushing ptr next := here
        simp only [if_neg unpushed]
        rw [walk']
        simp only [State.inner, left, running, if_true, taken]
        omega
    | some result =>
      refine ⟨_, by simp only; rw [finished done]; rfl, fun _ => ?_⟩
      simp [State.goto, left, State.inner, LfStack.State.goto]

/-- **What a spurious failure, and what the others do, gives back.** -/
theorem potential_spurious (ran : step s (t, .spurious) = some s') :
    potential s' t ≤ potential s t + 1 := by
  obtain ⟨here, lf, inside, rfl⟩ := step_spurious ran
  have loop : (s.lf.pc t).result = none ∧ (lf.pc t).result = none ∧ lf.ghost = { s.lf.ghost with
      stamp := Function.update s.lf.ghost.stamp t s.lf.ghost.casCount } := by
    have failed := inside
    simp only [LfStack.step, spuriousStep] at failed
    split at failed <;> cases failed <;> simp_all [LfStack.State.load, LfStack.Pc.result]
  obtain ⟨before, after, ghost⟩ := loop
  have bound := cost_spurious inside
  unfold potential
  rcases here with here | ⟨ptr, saved, here⟩
  · have walk' : (s.inner lf).walk t = .detaching := here
    rw [walk', here]
    simp only [State.inner, before, after, if_true, ghost]
    omega
  · have walk' : (s.inner lf).walk t = .pushing ptr saved := here
    rw [walk', here]
    simp only [State.inner, left, before, after, if_true, ghost]
    omega

/-- How many compare-exchanges succeeded on the stack between two states. -/
def successes (s s' : State T N) : Nat := s'.lf.ghost.casCount - s.lf.ghost.casCount

theorem potential_others (apart : Apart u s s')
    (length : s'.lf.ghost.stack.length ≤ s.lf.ghost.stack.length + successes s s') :
    potential s' u ≤ potential s u + 9 * successes s s' := by
  have bound := apart.lf.cost
  have same : left s' u = left s u := by
    unfold left
    rw [apart.lf.taken, apart.given]
  unfold potential
  unfold successes at length ⊢
  rw [apart.walk, apart.lf.pc, apart.lf.taken, same]
  cases s.walk u with
  | detaching =>
    by_cases running : (s.lf.pc u).result = none <;> simp only [running, if_true, if_false] <;> omega
  | pushing ptr next =>
    by_cases running : (s.lf.pc u).result = none <;> simp only [running, if_true, if_false] <;> omega
  | _ =>
    simp only []
    omega

/-- A success adds at most one node. -/
theorem Moves.length (moved : Moves s t s') :
    s'.lf.ghost.stack.length ≤ s.lf.ghost.stack.length + successes s s' := by
  cases moved with
  | client act lf here fresh next => exact step_length fresh next
  | internal lf here moved => exact moved.length
  | give ptr next lf here moved pushed => exact moved.length
  | _ => exact Nat.le_add_right _ _

/-- A call is left by its return alone. -/
theorem Moves.leaves (moved : Moves s t s') (busy : s.walk t ≠ .out) (ended : s'.walk t = .out) :
    s.walk t = .done := by
  cases moved with
  | client act lf here | call here => exact absurd here busy
  | internal lf here | give ptr next lf here => exact absurd ended busy
  | ret here => exact here
  | _ => simp [State.goto] at ended

/-- After its walk a call only returns. -/
theorem not_done {act : Act T N} (next : step s (t, act) = some s') (within : act ≠ .ret) :
    s.walk t ≠ .done := by
  intro done
  cases act with
  | ret => exact within rfl
  | run => simp [step, runStep, done] at next
  | client act | callForEach | spurious => simp [step, done] at next

theorem Moves.stays {act : Act T N} (moved : Moves s t s') (busy : s.walk t ≠ .out)
    (next : step s (t, act) = some s') (within : act ≠ .ret) : s'.walk t ≠ .out := fun ended =>
  not_done next within (moved.leaves busy ended)

/-- How many compare-exchanges of the other threads succeed along a schedule. -/
def others (t : T) (s : State T N) (acts : List (T × Act T N)) : Nat :=
  ((machine T N).along (fun s act s' => if act.1 = t then 0 else successes s s') s acts).sum

/-- **What one step of a run spends.** -/
theorem potential_moves {act : Act T N} (inv : Inv s) (busy : s.walk t ≠ .out)
    (fresh : Fresh s (u, act)) (next : step s (u, act) = some s') (within : (t, .ret) ≠ (u, act)) :
    s'.walk t ≠ .out ∧ [(u, act)].count (t, .run) + potential s' t
      ≤ potential s t + [(u, act)].count (t, .spurious) + 9 * if u = t then 0 else successes s s' := by
  have moved : Moves s u s' := .of_step fresh next
  by_cases own : t = u
  · subst own
    rw [if_pos rfl]
    have same : act ≠ .ret := fun ended => within (by rw [ended])
    refine ⟨moved.stays busy next same, ?_⟩
    cases act with
    | run =>
      obtain ⟨after, ran, less⟩ := potential_step inv busy (not_done next same)
      have spent := less fresh
      obtain rfl : after = s' := Option.some.inj (ran.symm.trans next)
      simp
      omega
    | spurious =>
      have bound := potential_spurious next
      simp
      omega
    | ret => exact absurd rfl same
    | client act => exact absurd (Option.ite_none_right_eq_some.mp next).1.1 busy
    | callForEach => exact absurd (Option.ite_none_right_eq_some.mp next).1 busy
  · have apart := moved.apart inv.stack own
    have bound := potential_others apart moved.length
    have counts : ∀ a : Act T N, [(u, act)].count (t, a) = 0 := fun a => by
      simp [Ne.symm own]
    rw [apart.walk, counts, counts, if_neg (Ne.symm own)]
    exact ⟨busy, by omega⟩

/-- **The steps of a call are bounded** by the nodes it found and by what the others did to the stack. -/
theorem potential_run {acts : List (T × Act T N)} (inv : Inv s) (busy : s.walk t ≠ .out)
    (run : (machine T N).Exec Fresh s acts s') (within : (t, .ret) ∉ acts) :
    s'.walk t ≠ .out ∧ acts.count (t, .run) + potential s' t
      ≤ potential s t + acts.count (t, .spurious) + 9 * others t s acts := by
  induction run with
  | nil => exact ⟨busy, by simp [others]⟩
  | @cons s middle last act acts fresh next rest ih =>
    obtain ⟨u, act⟩ := act
    have ran : step s (u, act) = some middle := next
    have first := potential_moves inv busy fresh ran fun same => within (same ▸ List.mem_cons_self)
    obtain ⟨busy', bound⟩ := ih (inv.moves (.of_step fresh ran)) first.1
      fun member => within (.tail _ member)
    have split : others t s ((u, act) :: acts)
        = (if u = t then 0 else successes s middle) + others t middle acts := by
      unfold others
      rw [Machine.along_cons next, List.sum_cons]
    have counts : ∀ a, ((u, act) :: acts).count a = [(u, act)].count a + acts.count a := by
      intro a
      show ([(u, act)] ++ acts).count a = _
      rw [List.count_append]
    rw [counts, counts, split]
    exact ⟨busy', by omega⟩

end NpAlloc.LfStack.ForEach
