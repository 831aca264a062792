/-
**The walk of `for_each` keeps to its own chain.**

`WalkInv` splits what the detaching compare-exchange took (`taken`) in what the walk has given back and
what it has still to visit. Only the rest has to be a chain in memory, and the walk owns all of it, so
that nobody else writes its links; what was given back may be popped, overwritten and pushed again, and
is not mentioned any more. A push of the walk writes the link of its own node alone, which is not on the
rest, because a chain meets no node twice.

* `Moves.of_step`: what a step can do;
* `Inv.step`: every step keeps the invariant of the stack and of all walks.
-/

import NpAlloc.LfStack.ForEach
import NpAlloc.LfStack.Step

set_option linter.unusedSectionVars false

namespace NpAlloc.LfStack.ForEach

variable {T N : Type} [DecidableEq T] [DecidableEq N] {s s' : State T N} {t u : T}

/-! ### What a step can do -/

/-- **The steps**, by their effect. -/
inductive Moves (s : State T N) (t : T) : State T N → Prop
  | client (act : LfStack.Act T N) (lf : LfStack.State T N) (here : s.walk t = .out)
      (fresh : TagFresh s.lf (t, act)) (next : LfStack.step s.lf (t, act) = some lf) :
      Moves s t (s.inner lf)
  | call (here : s.walk t = .out) (idle : s.lf.pc t = .idle) :
      Moves s t { (s.inner (s.lf.goto t .detachLoad)).goto t .detaching with
        applied := Function.update s.applied t []
        given := Function.update s.given t [] }
  | internal (lf : LfStack.State T N)
      (here : s.walk t = .detaching ∨ ∃ ptr next, s.walk t = .pushing ptr next)
      (moved : Internal s.lf t lf)
      (unpushed : ∀ ptr next, s.walk t = .pushing ptr next → lf.pc t ≠ .pushRet) :
      Moves s t (s.inner lf)
  | detached (result : Option N) (here : s.walk t = .detaching)
      (done : (s.lf.pc t).result = some result) :
      Moves s t ((s.inner (s.lf.goto t .idle)).goto t (.testing result))
  | finish (here : s.walk t = .testing none) : Moves s t (s.goto t .done)
  | apply (ptr : N) (here : s.walk t = .testing (some ptr)) :
      Moves s t ((s.apply t ptr).goto t (.reading ptr))
  | push (ptr : N) (here : s.walk t = .reading ptr) (idle : s.lf.pc t = .idle)
      (owner : s.lf.ghost.owner ptr = .client t) :
      Moves s t ((s.inner (s.lf.goto t (.pushLoad ptr))).goto t (.pushing ptr (s.lf.next ptr)))
  | give (ptr : N) (next : Option N) (lf : LfStack.State T N) (here : s.walk t = .pushing ptr next)
      (moved : Internal s.lf t lf) (pushed : lf.pc t = .pushRet) : Moves s t ((s.inner lf).give t ptr)
  | pushed (ptr : N) (next : Option N) (here : s.walk t = .pushing ptr next) (result : Option N)
      (done : (s.lf.pc t).result = some result) :
      Moves s t ((s.inner (s.lf.goto t .idle)).goto t (.testing next))
  | ret (here : s.walk t = .done) : Moves s t (s.goto t .out)

theorem lf_ret {lf lf' : LfStack.State T N} {result : Option N}
    (next : LfStack.step lf (t, .ret result) = some lf') : lf' = lf.goto t .idle := by
  simp only [LfStack.step, Option.ite_none_right_eq_some, Option.some.injEq] at next
  exact next.2.symm

/-- A spurious failure does not push. -/
theorem lf_spurious {lf lf' : LfStack.State T N} (next : LfStack.step lf (t, .spurious) = some lf') :
    Internal lf t lf' ∧ lf'.pc t ≠ .pushRet := by
  refine ⟨internal_of_spurious next, ?_⟩
  simp only [LfStack.step, spuriousStep] at next
  split at next <;> cases next <;> simp [LfStack.State.load]

theorem Moves.of_run (fresh : TagFresh s.lf (t, .run)) (ran : runStep s t = some s') :
    Moves s t s' := by
  unfold runStep at ran
  cases here : s.walk t with
  | out | done => simp [here] at ran
  | detaching =>
    simp only [here] at ran
    cases done : (s.lf.pc t).result with
    | none =>
      simp only [done] at ran
      obtain ⟨lf, next, rfl⟩ := Option.map_eq_some_iff.mp ran
      exact .internal lf (.inl here) (internal_of_run fresh next)
        fun ptr next there => by rw [here] at there; cases there
    | some result =>
      simp only [done] at ran
      obtain ⟨lf, next, rfl⟩ := Option.map_eq_some_iff.mp ran
      obtain rfl := lf_ret next
      exact .detached result here done
  | testing ptr =>
    cases ptr <;> simp only [here, Option.some.injEq] at ran <;> subst ran
    · exact .finish here
    · exact .apply _ here
  | reading ptr =>
    simp only [here] at ran
    obtain ⟨lf, next, rfl⟩ := Option.map_eq_some_iff.mp ran
    simp only [LfStack.step, Option.ite_none_right_eq_some, Option.some.injEq] at next
    obtain ⟨⟨idle, owner⟩, rfl⟩ := next
    exact .push ptr here idle owner
  | pushing ptr next =>
    simp only [here] at ran
    cases done : (s.lf.pc t).result with
    | none =>
      simp only [done] at ran
      obtain ⟨lf, next', rfl⟩ := Option.map_eq_some_iff.mp ran
      split
      · exact .give ptr next lf here (internal_of_run fresh next') ‹_›
      · exact .internal lf (.inr ⟨ptr, next, here⟩) (internal_of_run fresh next') fun _ _ _ => ‹_›
    | some result =>
      simp only [done] at ran
      obtain ⟨lf, next', rfl⟩ := Option.map_eq_some_iff.mp ran
      obtain rfl := lf_ret next'
      exact .pushed ptr next here result done

/-- A spurious failure is one of the detach or of a push. -/
theorem step_spurious (next : step s (t, .spurious) = some s') :
    (s.walk t = .detaching ∨ ∃ ptr saved, s.walk t = .pushing ptr saved) ∧
      ∃ lf, LfStack.step s.lf (t, .spurious) = some lf ∧ s' = s.inner lf := by
  unfold step at next
  cases here : s.walk t with
  | detaching =>
    simp only [here] at next
    obtain ⟨lf, inside, rfl⟩ := Option.map_eq_some_iff.mp next
    exact ⟨.inl rfl, lf, inside, rfl⟩
  | pushing ptr saved =>
    simp only [here] at next
    obtain ⟨lf, inside, rfl⟩ := Option.map_eq_some_iff.mp next
    exact ⟨.inr ⟨ptr, saved, rfl⟩, lf, inside, rfl⟩
  | _ =>
    simp only [here] at next
    cases next

theorem Moves.of_step {act : Act T N} (fresh : Fresh s (t, act)) (next : step s (t, act) = some s') :
    Moves s t s' := by
  cases act with
  | client act =>
    obtain ⟨⟨here, _⟩, ran⟩ := Option.ite_none_right_eq_some.mp next
    obtain ⟨lf, inside, rfl⟩ := Option.map_eq_some_iff.mp ran
    exact .client act lf here fresh inside
  | callForEach =>
    obtain ⟨here, ran⟩ := Option.ite_none_right_eq_some.mp next
    obtain ⟨lf, inside, rfl⟩ := Option.map_eq_some_iff.mp ran
    simp only [LfStack.step, Option.ite_none_right_eq_some, Option.some.injEq] at inside
    obtain ⟨⟨idle, _⟩, rfl⟩ := inside
    exact .call here idle
  | run => exact .of_run fresh next
  | spurious =>
    obtain ⟨here, lf, inside, rfl⟩ := step_spurious next
    exact .internal lf here (lf_spurious inside).1 fun _ _ _ => (lf_spurious inside).2
  | ret =>
    obtain ⟨here, ran⟩ := Option.ite_none_right_eq_some.mp next
    cases ran
    exact .ret here

/-! ### The invariant -/

/-- The nodes the walk has still to visit: a chain, all of which the thread owns. -/
def Remains (s : State T N) (t : T) (ptr : Option N) (rest : List N) : Prop :=
  Linked s.lf.next ptr rest ∧ ∀ node ∈ rest, s.lf.ghost.owner node = .client t

/-- What holds of a thread at each place of `for_each`. -/
def WalkInv (s : State T N) (t : T) : Walk N → Prop
  | .out => True
  | .detaching => (s.lf.pc t).kind = .detach ∧ s.applied t = [] ∧ s.given t = []
  | .testing ptr => s.lf.pc t = .idle ∧ (s.lf.ghost.taken t).Nodup ∧ ∃ rest, Remains s t ptr rest ∧
      s.lf.ghost.taken t = s.given t ++ rest ∧ s.applied t = s.given t
  | .reading ptr => s.lf.pc t = .idle ∧ (s.lf.ghost.taken t).Nodup ∧ ∃ rest,
      Remains s t (some ptr) (ptr :: rest) ∧ s.lf.ghost.taken t = s.given t ++ ptr :: rest ∧
      s.applied t = s.given t ++ [ptr]
  | .pushing ptr next => (s.lf.pc t).kind = .push ∧ (s.lf.ghost.taken t).Nodup ∧ ∃ rest,
      Remains s t next rest ∧ s.lf.ghost.taken t = s.applied t ++ rest ∧
      (s.lf.pc t = .pushRet ∧ s.applied t = s.given t ∨
        LfStack.hand s.lf t = [ptr] ∧ s.applied t = s.given t ++ [ptr])
  | .done => s.lf.pc t = .idle ∧ (s.lf.ghost.taken t).Nodup ∧ s.applied t = s.lf.ghost.taken t ∧
      s.given t = s.lf.ghost.taken t

/-- **The invariant.** -/
structure Inv (s : State T N) : Prop where
  stack : LfStack.Inv s.lf
  walks : ∀ t, WalkInv s t (s.walk t)

/-- What a step leaves alone of another thread. -/
structure Apart (u : T) (s s' : State T N) : Prop where
  lf : Untouched u s.lf s'.lf
  walk : s'.walk u = s.walk u
  applied : s'.applied u = s.applied u
  given : s'.given u = s.given u

theorem Remains.frame {ptr : Option N} {rest : List N} (remains : Remains s u ptr rest)
    (apart : Apart u s s') : Remains s' u ptr rest :=
  ⟨remains.1.congr fun node member => apart.lf.link node (remains.2 node member),
    fun node member => apart.lf.owner node (remains.2 node member)⟩

/-- **A walk survives the steps of the others.** -/
theorem WalkInv.frame {walk : Walk N} (holds : WalkInv s u walk) (apart : Apart u s s') :
    WalkInv s' u walk := by
  have pc := apart.lf.pc
  have taken := apart.lf.taken
  cases walk with
  | out => trivial
  | detaching =>
    unfold WalkInv
    rw [pc, apart.applied, apart.given]
    exact holds
  | testing ptr =>
    obtain ⟨idle, nodup, rest, remains, split, applied⟩ := holds
    unfold WalkInv
    rw [pc, taken, apart.applied, apart.given]
    exact ⟨idle, nodup, rest, remains.frame apart, split, applied⟩
  | reading ptr =>
    obtain ⟨idle, nodup, rest, remains, split, applied⟩ := holds
    unfold WalkInv
    rw [pc, taken, apart.applied, apart.given]
    exact ⟨idle, nodup, rest, remains.frame apart, split, applied⟩
  | pushing ptr next =>
    obtain ⟨kind, nodup, rest, remains, split, where_⟩ := holds
    unfold WalkInv LfStack.hand
    rw [pc, taken, apart.applied, apart.given]
    exact ⟨kind, nodup, rest, remains.frame apart, split, where_⟩
  | done =>
    unfold WalkInv
    rw [pc, taken, apart.applied, apart.given]
    exact holds

theorem Moves.apart (moved : Moves s t s') (inv : LfStack.Inv s.lf) (other : u ≠ t) :
    Apart u s s' := by
  have away : ∀ {α : Type} (f : T → α) (v : α), Function.update f t v u = f u :=
    fun f v => Function.update_of_ne other v f
  cases moved with
  | client act lf here fresh next => exact ⟨step_untouched inv fresh next other, rfl, rfl, rfl⟩
  | call here idle => exact ⟨untouched_goto _ other, away _ _, away _ _, away _ _⟩
  | internal lf here moved => exact ⟨moved.untouched inv other, rfl, rfl, rfl⟩
  | detached result here done | pushed ptr next here result done =>
    exact ⟨untouched_goto _ other, away _ _, rfl, rfl⟩
  | finish here | ret here => exact ⟨Untouched.refl _, away _ _, rfl, rfl⟩
  | apply ptr here => exact ⟨Untouched.refl _, away _ _, away _ _, rfl⟩
  | push ptr here idle owner => exact ⟨untouched_goto _ other, away _ _, rfl, rfl⟩
  | give ptr next lf here moved pushed => exact ⟨moved.untouched inv other, rfl, rfl, away _ _⟩

/-- A step is one of the stack, or leaves it alone. -/
theorem Moves.stack (moved : Moves s t s') (inv : LfStack.Inv s.lf) : LfStack.Inv s'.lf := by
  cases moved with
  | client act lf here fresh next => exact inv.step fresh next
  | call here idle => exact inv.goto _ trivial
  | internal lf here moved => exact inv.internal moved
  | detached result here done | pushed ptr next here result done => exact inv.goto _ trivial
  | finish here | ret here | apply ptr here => exact inv
  | push ptr here idle owner => exact inv.goto _ owner
  | give ptr next lf here moved pushed => exact inv.internal moved

/-- **A step inside a push** touches only the node in its hand, and has it in hand until its
compare-exchange has succeeded. -/
theorem push_internal {lf lf' : LfStack.State T N} (kind : (lf.pc t).kind = .push)
    (moved : Internal lf t lf') :
    lf'.ghost.taken t = lf.ghost.taken t ∧ ∃ ptr, LfStack.hand lf t = [ptr] ∧
      (∀ node, node ≠ ptr → lf'.next node = lf.next node ∧
        lf'.ghost.owner node = lf.ghost.owner node) ∧
      (lf'.pc t = .pushRet ∧ lf'.ghost.stack = ptr :: lf.ghost.stack ∨
        LfStack.hand lf' t = [ptr] ∧ lf'.ghost.stack = lf.ghost.stack) := by
  cases moved with
  | pushLoad ptr entered =>
    have hand : LfStack.hand lf t = [ptr] := by
      rcases entered with here | ⟨curr, next, here⟩ <;> rw [LfStack.hand, here] <;> rfl
    exact ⟨rfl, ptr, hand, fun _ _ => ⟨rfl, rfl⟩, .inr ⟨LfStack.hand_load _, rfl⟩⟩
  | pushWrite ptr curr here =>
    refine ⟨rfl, ptr, by rw [LfStack.hand, here]; rfl, fun node other =>
      ⟨Function.update_of_ne other _ _, rfl⟩, .inr ⟨?_, rfl⟩⟩
    exact LfStack.hand_goto _
  | pushCas ptr curr next here =>
    exact ⟨Function.update_self .., ptr, by rw [LfStack.hand, here]; rfl, fun node other =>
      ⟨rfl, Function.update_of_ne other _ _⟩, .inl ⟨Function.update_self .., rfl⟩⟩
  | popLoad entered | detachLoad entered =>
    rcases entered with here | ⟨curr, next, here⟩ <;> rw [here] at kind <;> cases kind
  | _ => simp_all [LfStack.Pc.kind]

theorem Remains.step {lf : LfStack.State T N} {next : Option N} {rest : List N} {own : N}
    (remains : Remains s t next rest) (outside : own ∉ rest)
    (same : ∀ node, node ≠ own → lf.next node = s.lf.next node ∧
      lf.ghost.owner node = s.lf.ghost.owner node) : Remains (s.inner lf) t next rest := by
  have other : ∀ node ∈ rest, node ≠ own := fun node member => by
    rintro rfl
    exact outside member
  refine ⟨remains.1.congr fun node member => (same node (other node member)).1, fun node member => ?_⟩
  show lf.ghost.owner node = .client t
  rw [(same node (other node member)).2]
  exact remains.2 node member

/-- **What a step inside a push of the walk does.** -/
theorem WalkInv.push_step {lf : LfStack.State T N} {ptr : N} {next : Option N}
    (walk : WalkInv s t (.pushing ptr next)) (moved : Internal s.lf t lf) :
    s.applied t = s.given t ++ [ptr] ∧ (lf.pc t).kind = .push ∧ (lf.ghost.taken t).Nodup ∧
      (lf.pc t = .pushRet ∧ lf.ghost.stack = ptr :: s.lf.ghost.stack ∨
        LfStack.hand lf t = [ptr] ∧ lf.ghost.stack = s.lf.ghost.stack) ∧
      ∃ rest, Remains (s.inner lf) t next rest ∧ lf.ghost.taken t = s.applied t ++ rest := by
  obtain ⟨kind, nodup, rest, remains, split, where_⟩ := walk
  obtain ⟨taken, own, hand, same, after⟩ := push_internal kind moved
  have applied : own = ptr ∧ s.applied t = s.given t ++ [ptr] := by
    rcases where_ with ⟨there, _⟩ | ⟨hand', applied⟩
    · rw [LfStack.hand, there] at hand
      cases hand
    · rw [hand'] at hand
      exact ⟨(List.cons.inj hand).1.symm, applied⟩
  obtain ⟨rfl, applied⟩ := applied
  have outside : own ∉ rest := by
    rw [split, applied] at nodup
    exact fun member => (List.disjoint_of_nodup_append nodup)
      (List.mem_append_right _ (List.mem_singleton_self own)) member
  rw [taken]
  exact ⟨applied, moved.kind.trans kind, nodup, after, rest, remains.step outside same, split⟩

/-- **The moving thread keeps its walk.** -/
theorem Inv.own (inv : Inv s) (moved : Moves s t s') : WalkInv s' t (s'.walk t) := by
  have walk := inv.walks t
  have stack := inv.stack
  cases moved with
  | client act lf here fresh next =>
    show WalkInv (s.inner lf) t (s.walk t)
    rw [here]
    trivial
  | call here idle =>
    show WalkInv _ t (Function.update s.walk t .detaching t)
    rw [Function.update_self]
    exact ⟨by simp [State.goto, State.inner, LfStack.State.goto, LfStack.Pc.kind],
      Function.update_self .., Function.update_self ..⟩
  | internal lf here moved unpushed =>
    show WalkInv (s.inner lf) t (s.walk t)
    rcases here with here | ⟨ptr, next, here⟩
    · rw [here] at walk ⊢
      exact ⟨moved.kind.trans walk.1, walk.2⟩
    · rw [here] at walk ⊢
      obtain ⟨applied, kind, nodup, after, rest, remains, split⟩ := walk.push_step moved
      have kept := after.resolve_left fun pushed => unpushed ptr next here pushed.1
      exact ⟨kind, nodup, rest, remains, split, .inr ⟨kept.1, applied⟩⟩
  | detached result here done =>
    show WalkInv _ t (Function.update s.walk t (.testing result) t)
    rw [here] at walk
    rw [Function.update_self]
    obtain ⟨kind, applied, given⟩ := walk
    have there := (LfStack.Pc.eq_of_result done).2.2 kind
    have own := stack.pcs t
    rw [there] at own
    refine ⟨Function.update_self .., own.1.nodup, _, own, ?_, ?_⟩
    · show _ = s.given t ++ _
      rw [given]
      rfl
    · show s.applied t = s.given t
      rw [applied, given]
  | finish here =>
    show WalkInv _ t (Function.update s.walk t .done t)
    rw [here] at walk
    rw [Function.update_self]
    obtain ⟨idle, nodup, rest, remains, split, applied⟩ := walk
    obtain rfl := remains.1.eq_nil
    rw [List.append_nil] at split
    exact ⟨idle, nodup, applied.trans split.symm, split.symm⟩
  | apply ptr here =>
    show WalkInv _ t (Function.update s.walk t (.reading ptr) t)
    rw [here] at walk
    rw [Function.update_self]
    obtain ⟨idle, nodup, rest, remains, split, applied⟩ := walk
    obtain ⟨tail, rfl, _⟩ := remains.1.exists_cons
    refine ⟨idle, nodup, tail, remains, split, ?_⟩
    show Function.update s.applied t (s.applied t ++ [ptr]) t = s.given t ++ [ptr]
    rw [Function.update_self, applied]
  | push ptr here idle owner =>
    show WalkInv _ t (Function.update s.walk t (.pushing ptr (s.lf.next ptr)) t)
    rw [here] at walk
    rw [Function.update_self]
    obtain ⟨_, nodup, rest, ⟨linked, owned⟩, split, applied⟩ := walk
    have hand : LfStack.hand (s.lf.goto t (.pushLoad ptr)) t = [ptr] := LfStack.hand_goto _
    refine ⟨by simp [State.goto, State.inner, LfStack.State.goto, LfStack.Pc.kind], nodup, rest,
      ⟨linked.2, fun node member => owned node (.tail _ member)⟩, ?_, .inr ⟨hand, applied⟩⟩
    show s.lf.ghost.taken t = s.applied t ++ rest
    rw [split, applied, List.append_assoc]
    rfl
  | give ptr next lf here moved pushed =>
    show WalkInv _ t (s.walk t)
    rw [here] at walk ⊢
    obtain ⟨applied, kind, nodup, _, rest, remains, split⟩ := walk.push_step moved
    refine ⟨kind, nodup, rest, remains, split, .inl ⟨pushed, ?_⟩⟩
    show s.applied t = Function.update s.given t (s.given t ++ [ptr]) t
    rw [Function.update_self, applied]
  | pushed ptr next here result done =>
    show WalkInv _ t (Function.update s.walk t (.testing next) t)
    rw [here] at walk
    rw [Function.update_self]
    obtain ⟨kind, nodup, rest, remains, split, where_⟩ := walk
    have there := (LfStack.Pc.eq_of_result done).2.1 kind
    have applied : s.applied t = s.given t := by
      rcases where_ with ⟨_, same⟩ | ⟨hand, _⟩
      · exact same
      · rw [LfStack.hand, there] at hand
        cases hand
    refine ⟨Function.update_self .., nodup, rest, remains, ?_, applied⟩
    show s.lf.ghost.taken t = s.given t ++ rest
    rw [split, applied]
  | ret here =>
    show WalkInv _ t (Function.update s.walk t .out t)
    rw [Function.update_self]
    trivial

/-- **Every step keeps the invariant.** -/
theorem Inv.moves (inv : Inv s) (moved : Moves s t s') : Inv s' := by
  refine ⟨moved.stack inv.stack, fun u => ?_⟩
  by_cases own : u = t
  · subst own
    exact inv.own moved
  · have apart := moved.apart inv.stack own
    rw [apart.walk]
    exact (inv.walks u).frame apart

theorem Inv.init (start : (machine T N).init s) : Inv s := by
  refine ⟨.init start.1, fun t => ?_⟩
  rw [start.2 t]
  trivial

/-- **The invariant holds in every reachable state.** -/
theorem Inv.reachable (reached : (machine T N).Reachable Fresh s) : Inv s :=
  Machine.invariant (fun _ start => .init start)
    (fun _ act _ inv fresh next => inv.moves (t := act.1) (.of_step fresh next)) reached

end NpAlloc.LfStack.ForEach
