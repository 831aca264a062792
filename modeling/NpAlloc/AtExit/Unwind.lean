/-
**`invoke` unwinds the list.**

* `Proper` — what the events of a thread have to look like: what is invoked was registered, is invoked
  once, and is the last registered of what is not yet invoked; a node is freed once, after its callback
  has returned.
* `Inv` — the list in memory is what was registered and not yet invoked, the last first.
* **`unwinds`** — every thread comes to its end, with an empty list and everything invoked and freed;
  what was invoked is what its calls, and those of its callbacks, registered.
-/

import NpAlloc.AtExit.Requests
import Mathlib.Algebra.GroupWithZero.Nat

set_option linter.unusedSectionVars false

namespace NpAlloc.AtExit

variable {s s' : State} {pending : List Nat} {n m : Nat} {f : Callback} {log : List Event}

/-! ### What should happen -/

/-- What may happen after the events so far, the last of them first. -/
def Allowed (before : List Event) : Event → Prop
  | .registered n _ => ∀ m f, .registered m f ∈ before → m < n
  | .invoked n f => .registered n f ∈ before ∧ (∀ g, .invoked n g ∉ before) ∧
      ∀ m g, .registered m g ∈ before → (∀ h, .invoked m h ∉ before) → m ≤ n
  | .returned n => (∃ f, .invoked n f ∈ before) ∧ .returned n ∉ before
  | .freed n => .returned n ∈ before ∧ .freed n ∉ before
  | .skipped | .used _ _ => True

/-- **A proper history**: everything in it was allowed when it happened. -/
def Proper : List Event → Prop
  | [] => True
  | e :: before => Allowed before e ∧ Proper before

theorem Proper.invoked_registered (proper : Proper log) (member : .invoked n f ∈ log) :
    .registered n f ∈ log := by
  induction log with
  | nil => exact absurd member List.not_mem_nil
  | cons e before ih =>
    rcases List.mem_cons.mp member with rfl | older
    · exact .tail _ proper.1.1
    · exact .tail _ (ih proper.2 older)

theorem Proper.returned_invoked (proper : Proper log) (member : .returned n ∈ log) :
    ∃ f, .invoked n f ∈ log := by
  induction log with
  | nil => exact absurd member List.not_mem_nil
  | cons e before ih =>
    rcases List.mem_cons.mp member with rfl | older
    · obtain ⟨⟨f, invoked⟩, _⟩ := proper.1
      exact ⟨f, .tail _ invoked⟩
    · obtain ⟨f, invoked⟩ := ih proper.2 older
      exact ⟨f, .tail _ invoked⟩

theorem Proper.freed_returned (proper : Proper log) (member : .freed n ∈ log) : .returned n ∈ log := by
  induction log with
  | nil => exact absurd member List.not_mem_nil
  | cons e before ih =>
    rcases List.mem_cons.mp member with rfl | older
    · exact .tail _ proper.1.1
    · exact .tail _ (ih proper.2 older)

/-! ### The invariant -/

/-- What holds where the thread stands. -/
def Control.Stands (log : List Event) (nodes : Nat) (pending : List Nat) : Control → Prop
  | .calling cb => cb < nodes ∧ (∀ f, .invoked cb f ∉ log) ∧ ∀ m ∈ pending, m < cb
  | .running cb _ => (∃ f, .invoked cb f ∈ log) ∧ .returned cb ∉ log
  | .deleting cb => .returned cb ∈ log ∧ .freed cb ∉ log
  | .ended => pending = []
  | .life _ | .testing => True

/-- The node whose callback is about to be called. -/
def Control.called : Control → Option Nat
  | .calling cb => some cb
  | _ => none

/-- The node whose callback was called, and which is not freed yet. -/
def Control.held : Control → Option Nat
  | .running cb _ | .deleting cb => some cb
  | _ => none

/-- **The invariant.** -/
structure Inv (s : State) (pending : List Nat) : Prop where
  chain : Linked (fun n => (s.node n).next) s.callList pending
  sorted : pending.Pairwise fun a b => b < a
  known : ∀ n f, .registered n f ∈ s.log ↔ n < s.nodes ∧ (s.node n).callback = some f
  made : ∀ n, n < s.nodes → ∃ f, (s.node n).callback = some f
  waiting : ∀ n, n ∈ pending ↔
    n < s.nodes ∧ (∀ f, .invoked n f ∉ s.log) ∧ s.control.called ≠ some n
  settled : ∀ n f, .invoked n f ∈ s.log →
    .returned n ∈ s.log ∧ .freed n ∈ s.log ∨ s.control.held = some n
  current : s.control.Stands s.log s.nodes pending
  proper : Proper s.log

theorem Inv.start (ops : List Op) : Inv (.start ops) [] := by
  refine ⟨rfl, .nil, fun n f => ?_, fun n below => absurd below (Nat.not_lt_zero n), fun n => ?_,
    fun n f member => absurd member List.not_mem_nil, trivial, trivial⟩
  · exact ⟨fun member => absurd member List.not_mem_nil, fun made => absurd made.1 (Nat.not_lt_zero n)⟩
  · exact ⟨fun member => absurd member List.not_mem_nil, fun made => absurd made.1 (Nat.not_lt_zero n)⟩

/-- Where a call of the client may stand. -/
def Control.Active : Control → Prop
  | .life _ | .running _ _ => True
  | _ => False

theorem Control.Active.uncalled {control : Control} (active : control.Active) :
    control.called = none := by
  cases control with
  | calling cb => exact active.elim
  | _ => rfl

/-- An event that is about no node. -/
theorem Inv.note (inv : Inv s pending) {e : Event} (active : s.control.Active)
    (about : e = .skipped ∨ ∃ pool deleted, e = .used pool deleted) :
    Inv { s with log := e :: s.log } pending := by
  have other : ∀ e', (∀ pool deleted, e' ≠ .used pool deleted) → e' ≠ .skipped →
      (e' ∈ e :: s.log ↔ e' ∈ s.log) := by
    intro e' unused unskipped
    rw [List.mem_cons]
    refine or_iff_right ?_
    rintro rfl
    rcases about with rfl | ⟨pool, deleted, rfl⟩
    · exact unskipped rfl
    · exact unused pool deleted rfl
  have registered : ∀ n f, .registered n f ∈ e :: s.log ↔ .registered n f ∈ s.log :=
    fun n f => other _ (by simp) (by simp)
  have invoked : ∀ n f, .invoked n f ∈ e :: s.log ↔ .invoked n f ∈ s.log :=
    fun n f => other _ (by simp) (by simp)
  have returned : ∀ n, .returned n ∈ e :: s.log ↔ .returned n ∈ s.log :=
    fun n => other _ (by simp) (by simp)
  have freed : ∀ n, .freed n ∈ e :: s.log ↔ .freed n ∈ s.log :=
    fun n => other _ (by simp) (by simp)
  refine ⟨inv.chain, inv.sorted, ?_, inv.made, ?_, ?_, ?_, ?_, inv.proper⟩
  · simp only [registered]
    exact inv.known
  · simp only [invoked]
    exact inv.waiting
  · simp only [invoked, returned, freed]
    exact inv.settled
  · have current := inv.current
    cases control : s.control with
    | life ops => trivial
    | running cb ops =>
      rw [control] at current
      unfold Control.Stands
      simp only [invoked, returned]
      exact current
    | _ =>
      rw [control] at active
      exact active.elim
  · rcases about with rfl | ⟨pool, deleted, rfl⟩ <;> trivial

/-- **A callback is registered.** -/
theorem Inv.add (inv : Inv s pending) (active : s.control.Active) (f : Callback) :
    Inv (s.add (some f)) (s.nodes :: pending) := by
  have below : ∀ n, n ∈ pending → n < s.nodes := fun n member => ((inv.waiting n).mp member).1
  have fresh : s.nodes ∉ pending := fun member => absurd (below _ member) (Nat.lt_irrefl _)
  have older : ∀ n, n < s.nodes → Function.update s.node s.nodes ⟨some f, s.callList⟩ n = s.node n :=
    fun n less => Function.update_of_ne (Nat.ne_of_lt less) _ _
  have unseen : ∀ g, .invoked s.nodes g ∉ s.log := fun g member =>
    absurd ((inv.known _ _).mp (inv.proper.invoked_registered member)).1 (Nat.lt_irrefl _)
  have uncalled := active.uncalled
  refine ⟨⟨rfl, ?_⟩, ?_, fun n g => ?_, fun n less => ?_, fun n => ?_, fun n g member => ?_, ?_,
    fun m g member => ?_, inv.proper⟩
  · show Linked (fun n => (Function.update s.node s.nodes ⟨some f, s.callList⟩ n).next)
      (Function.update s.node s.nodes ⟨some f, s.callList⟩ s.nodes).next pending
    rw [Function.update_self]
    refine inv.chain.congr fun m member => ?_
    rw [older m (below m member)]
  · exact List.pairwise_cons.mpr ⟨below, inv.sorted⟩
  · show .registered n g ∈ .registered s.nodes f :: s.log ↔
      n < s.nodes + 1 ∧ (Function.update s.node s.nodes ⟨some f, s.callList⟩ n).callback = some g
    rw [List.mem_cons, inv.known, Nat.lt_succ_iff_lt_or_eq]
    by_cases new : n = s.nodes
    · subst new
      rw [Function.update_self]
      simp [eq_comm]
    · rw [Function.update_of_ne new]
      simp [new]
  · rcases Nat.lt_succ_iff_lt_or_eq.mp less with old | rfl
    · obtain ⟨g, callback⟩ := inv.made n old
      refine ⟨g, ?_⟩
      show (Function.update s.node s.nodes _ n).callback = some g
      rw [older n old, callback]
    · refine ⟨f, ?_⟩
      show (Function.update s.node s.nodes ⟨some f, s.callList⟩ s.nodes).callback = some f
      rw [Function.update_self]
  · show n ∈ s.nodes :: pending ↔ n < s.nodes + 1 ∧
      (∀ g, .invoked n g ∉ .registered s.nodes f :: s.log) ∧ s.control.called ≠ some n
    rw [List.mem_cons, inv.waiting, Nat.lt_succ_iff_lt_or_eq, uncalled]
    simp only [List.mem_cons, reduceCtorEq, false_or, ne_eq, not_false_eq_true, and_true]
    constructor
    · rintro (rfl | ⟨less, unused⟩)
      · exact ⟨.inr rfl, unseen⟩
      · exact ⟨.inl less, unused⟩
    · rintro ⟨less | rfl, unused⟩
      · exact .inr ⟨less, unused⟩
      · exact .inl rfl
  · rcases List.mem_cons.mp member with bad | old
    · cases bad
    · rcases inv.settled n g old with done | held
      · exact .inl ⟨.tail _ done.1, .tail _ done.2⟩
      · exact .inr held
  · have current := inv.current
    show s.control.Stands (.registered s.nodes f :: s.log) (s.nodes + 1) (s.nodes :: pending)
    cases control : s.control with
    | life ops => trivial
    | running cb ops =>
      rw [control] at current
      obtain ⟨⟨g, invoked⟩, unreturned⟩ := current
      exact ⟨⟨g, .tail _ invoked⟩, fun member => (by
        rcases List.mem_cons.mp member with bad | old
        · cases bad
        · exact unreturned old)⟩
    | _ =>
      rw [control] at active
      exact active.elim
  · exact ((inv.known m g).mp member).1

/-! ### Termination -/

mutual

/-- How many steps a call may cause. -/
def Op.weight : Op → Nat
  | .alloc => 5
  | .free _ => 5
  | .atexit none => 1
  | .atexit (some ops) => weights ops + 5

def weights : List Op → Nat
  | [] => 0
  | op :: ops => op.weight + weights ops

end

def Callback.weight : Callback → Nat
  | .user ops => weights ops + 4
  | .deletePool _ => 4

def CallNode.weight (node : CallNode) : Nat :=
  match node.callback with
  | none => 3
  | some f => f.weight

/-- How many steps the nodes of the list may cause. -/
def queueWeight (s : State) (pending : List Nat) : Nat := (pending.map fun n => (s.node n).weight).sum

/-- How many steps the thread has to go, its list apart. -/
def controlWeight (s : State) : Nat :=
  match s.control with
  | .life ops => weights ops + 2
  | .testing => 1
  | .calling cb => (s.node cb).weight
  | .running _ ops => weights ops + 3
  | .deleting _ => 2
  | .ended => 0

/-- A registered callback adds what it may cause. -/
theorem Inv.queueWeight_add (inv : Inv s pending) (f : Callback) :
    queueWeight (s.add (some f)) (s.nodes :: pending) = f.weight + queueWeight s pending := by
  have same : ∀ n ∈ pending, ((s.add (some f)).node n).weight = (s.node n).weight := by
    intro n member
    have less := ((inv.waiting n).mp member).1
    show (Function.update s.node s.nodes _ n).weight = _
    rw [Function.update_of_ne (Nat.ne_of_lt less)]
  have new : ((s.add (some f)).node s.nodes).weight = f.weight := by
    show (Function.update s.node s.nodes ⟨some f, s.callList⟩ s.nodes).weight = _
    rw [Function.update_self]
    rfl
  unfold queueWeight
  rw [List.map_cons, List.sum_cons, new, List.map_congr_left same]

/-- The invariant does not mention the pools. -/
theorem Inv.pooled (inv : Inv s pending) (sPool : Option Nat) (pools : Nat) :
    Inv { s with sPool := sPool, pools := pools } pending := { inv with }

/-- **One call** keeps the invariant, and causes no more than its weight. -/
theorem Inv.exec (inv : Inv s pending) (active : s.control.Active) (op : Op) :
    ∃ more, Inv (s.exec op) (more ++ pending) ∧ (s.exec op).control = s.control ∧
      queueWeight (s.exec op) (more ++ pending) + 1 ≤ queueWeight s pending + op.weight := by
  have use : ∃ more, Inv s.use (more ++ pending) ∧ s.use.control = s.control ∧
      queueWeight s.use (more ++ pending) ≤ queueWeight s pending + 4 := by
    cases cached : s.sPool with
    | none =>
      rw [State.use_first cached]
      have pooled := inv.pooled s.sPool (s.pools + 1)
      have made := (pooled.add active (.deletePool s.pools)).pooled (some s.pools) (s.pools + 1)
      have weight := pooled.queueWeight_add (.deletePool s.pools)
      refine ⟨[s.nodes], made.note active (.inr ⟨_, _, rfl⟩), rfl, ?_⟩
      have bound : queueWeight s pending + 4 = (Callback.deletePool s.pools).weight + queueWeight
          { s with sPool := s.sPool, pools := s.pools + 1 } pending := Nat.add_comm _ _
      rw [bound, ← weight]
      exact Nat.le_refl _
    | some pool =>
      rw [State.use_cached cached]
      exact ⟨[], inv.note active (.inr ⟨_, _, rfl⟩), rfl, Nat.le_add_right _ _⟩
  cases op with
  | alloc =>
    obtain ⟨more, after, control, weight⟩ := use
    exact ⟨more, after, control, Nat.succ_le_succ weight⟩
  | free null =>
    cases null with
    | true => exact ⟨[], inv, rfl, Nat.add_le_add_left (by decide : 1 ≤ 5) _⟩
    | false =>
      obtain ⟨more, after, control, weight⟩ := use
      exact ⟨more, after, control, Nat.succ_le_succ weight⟩
  | atexit f =>
    cases f with
    | none => exact ⟨[], inv.note active (.inl rfl), rfl, by unfold Op.weight; exact Nat.le_refl _⟩
    | some ops =>
      refine ⟨[s.nodes], inv.add active (.user ops), rfl, ?_⟩
      show queueWeight (s.add (some (.user ops))) (s.nodes :: pending) + 1 ≤ _
      rw [inv.queueWeight_add]
      simp only [Callback.weight, Op.weight]
      omega

/-! ### Every step -/

/-- The client goes on. -/
theorem Inv.goOn (inv : Inv s pending) {control : Control}
    (same : (∃ ops, control = .life ops ∧ ∃ ops', s.control = .life ops') ∨
      ∃ cb ops, control = .running cb ops ∧ ∃ ops', s.control = .running cb ops') :
    Inv { s with control := control } pending := by
  have current := inv.current
  have settled := inv.settled
  have waiting := inv.waiting
  rcases same with ⟨ops, rfl, ops', was⟩ | ⟨cb, ops, rfl, ops', was⟩
  · rw [was] at settled waiting
    exact { inv with waiting := waiting, settled := settled, current := trivial }
  · rw [was] at settled waiting current
    exact { inv with waiting := waiting, settled := settled, current := current }

/-- **Every step keeps the invariant and is progress.** -/
theorem Inv.step (inv : Inv s pending) (running : s.control ≠ .ended) :
    ∃ s' pending', s.step = some s' ∧ Inv s' pending' ∧
      controlWeight s' + queueWeight s' pending' < controlWeight s + queueWeight s pending := by
  have current := inv.current
  have settled := inv.settled
  have waiting := inv.waiting
  unfold State.step controlWeight
  cases control : s.control with
  | life ops =>
    rw [control] at settled waiting current
    cases ops with
    | nil =>
      exact ⟨_, pending, rfl, { inv with waiting := waiting, settled := settled, current := trivial },
        by simp [weights, queueWeight]⟩
    | cons op ops =>
      have active : s.control.Active := by rw [control]; trivial
      obtain ⟨more, after, same, weight⟩ := inv.exec active op
      refine ⟨_, more ++ pending, rfl, after.goOn (.inl ⟨ops, rfl, op :: ops, by rw [same, control]⟩), ?_⟩
      show weights ops + 2 + queueWeight (s.exec op) (more ++ pending) < _
      simp only [weights]
      omega
  | testing =>
    rw [control] at settled waiting current
    cases head : s.callList with
    | none =>
      have chain := inv.chain
      rw [head] at chain
      have empty := chain.eq_nil
      refine ⟨_, [], rfl, { inv with
        chain := rfl
        sorted := .nil
        waiting := fun n => by rw [← empty]; exact waiting n
        settled := settled
        current := rfl }, ?_⟩
      rw [empty]
      exact Nat.zero_lt_one
    | some cb =>
      have chain := inv.chain
      rw [head] at chain
      obtain ⟨rest, rfl, tail⟩ := chain.exists_cons
      obtain ⟨smaller, sorted⟩ := List.pairwise_cons.mp inv.sorted
      obtain ⟨made, unused, _⟩ := (waiting cb).mp List.mem_cons_self
      refine ⟨_, rest, rfl, { inv with
        chain := tail
        sorted := sorted
        waiting := fun n => ?_
        settled := settled
        current := ⟨made, unused, smaller⟩ }, ?_⟩
      · rw [show (n < s.nodes ∧ (∀ f, .invoked n f ∉ s.log) ∧
            (Control.calling cb).called ≠ some n) ↔ n ∈ cb :: rest ∧ cb ≠ n by
          rw [waiting n]
          simp [Control.called, and_assoc]]
        rw [List.mem_cons]
        constructor
        · refine fun member => ⟨.inr member, fun same => absurd (smaller n member) ?_⟩
          rw [same]
          exact Nat.lt_irrefl _
        · exact fun both => both.1.resolve_left both.2.symm
      · simp only [queueWeight, List.map_cons, List.sum_cons]
        omega
  | calling cb =>
    rw [control] at settled waiting current
    obtain ⟨made, unused, smaller⟩ := current
    obtain ⟨f, callback⟩ := inv.made cb made
    have registered := (inv.known cb f).mpr ⟨made, callback⟩
    have latest : ∀ m g, .registered m g ∈ s.log → (∀ h, .invoked m h ∉ s.log) → m ≤ cb := by
      intro m g known unseen
      by_cases own : m = cb
      · exact Nat.le_of_eq own
      · have member : m ∈ pending := (waiting m).mpr
          ⟨((inv.known m g).mp known).1, unseen, fun same => own (Option.some.inj same).symm⟩
        exact Nat.le_of_lt (smaller m member)
    have unreturned : .returned cb ∉ s.log := fun member => by
      obtain ⟨g, invoked⟩ := inv.proper.returned_invoked member
      exact unused g invoked
    -- what the invocation of either kind of callback leaves
    have after : ∀ ops deleted, Inv { s with
        control := .running cb ops
        deleted := deleted
        log := .invoked cb f :: s.log } pending := by
      intro ops deleted
      refine ⟨inv.chain, inv.sorted, fun n g => ?_, inv.made, fun n => ?_, fun n g member => ?_, ?_,
        ⟨⟨registered, unused, latest⟩, inv.proper⟩⟩
      · rw [← inv.known]
        simp
      · rw [waiting n]
        simp only [List.mem_cons, Event.invoked.injEq, Control.called, Option.some.injEq, ne_eq]
        constructor
        · rintro ⟨less, unseen, other⟩
          refine ⟨less, fun g => ?_, by simp⟩
          rintro (⟨rfl, _⟩ | old)
          · exact other rfl
          · exact unseen g old
        · rintro ⟨less, unseen, _⟩
          refine ⟨less, fun g old => unseen g (.inr old), fun same => unseen f (.inl ⟨same.symm, rfl⟩)⟩
      · rcases List.mem_cons.mp member with new | old
        · cases new
          exact .inr rfl
        · rcases settled n g old with done | held
          · exact .inl ⟨.tail _ done.1, .tail _ done.2⟩
          · cases held
      · refine ⟨⟨f, List.mem_cons_self⟩, fun member => ?_⟩
        rcases List.mem_cons.mp member with bad | old
        · cases bad
        · exact unreturned old
    have weight : (s.node cb).weight = f.weight := by
      unfold CallNode.weight
      rw [callback]
    cases f with
    | user ops =>
      refine ⟨_, pending, by simp only [callback], after ops s.deleted, ?_⟩
      show weights ops + 3 + queueWeight s pending < (s.node cb).weight + _
      rw [weight]
      simp only [Callback.weight]
      omega
    | deletePool pool =>
      refine ⟨_, pending, by simp only [callback],
        after [] (Function.update s.deleted pool true), ?_⟩
      show weights [] + 3 + queueWeight s pending < (s.node cb).weight + _
      rw [weight]
      simp only [Callback.weight, weights]
      omega
  | running cb ops =>
    rw [control] at settled waiting current
    cases ops with
    | nil =>
      obtain ⟨⟨f, invoked⟩, unreturned⟩ := current
      refine ⟨_, pending, rfl, ⟨inv.chain, inv.sorted, fun n g => ?_, inv.made, fun n => ?_,
        fun n g member => ?_, ⟨List.mem_cons_self, fun member => ?_⟩,
        ⟨⟨f, invoked⟩, unreturned⟩, inv.proper⟩, ?_⟩
      · rw [← inv.known]
        simp
      · rw [waiting n]
        simp [Control.called]
      · rcases List.mem_cons.mp member with bad | old
        · cases bad
        · rcases settled n g old with done | held
          · exact .inl ⟨.tail _ done.1, .tail _ done.2⟩
          · exact .inr held
      · rcases List.mem_cons.mp member with bad | old
        · cases bad
        · exact unreturned (inv.proper.freed_returned old)
      · simp [weights, queueWeight]
    | cons op ops =>
      have active : s.control.Active := by rw [control]; trivial
      obtain ⟨more, after, same, weight⟩ := inv.exec active op
      refine ⟨_, more ++ pending, rfl,
        after.goOn (.inr ⟨cb, ops, rfl, op :: ops, by rw [same, control]⟩), ?_⟩
      show weights ops + 3 + queueWeight (s.exec op) (more ++ pending) < _
      simp only [weights]
      omega
  | deleting cb =>
    rw [control] at settled waiting current
    obtain ⟨returned, unfreed⟩ := current
    refine ⟨_, pending, rfl, ⟨inv.chain, inv.sorted, fun n g => ?_, inv.made, fun n => ?_,
      fun n g member => ?_, trivial, ⟨returned, unfreed⟩, inv.proper⟩, ?_⟩
    · rw [← inv.known]
      simp
    · rw [waiting n]
      simp [Control.called]
    · rcases List.mem_cons.mp member with bad | old
      · cases bad
      · rcases settled n g old with done | held
        · exact .inl ⟨.tail _ done.1, .tail _ done.2⟩
        · cases held
          exact .inl ⟨.tail _ returned, List.mem_cons_self⟩
    · simp [queueWeight]
  | ended => exact absurd control running

/-- **The thread comes to its end.** -/
theorem Inv.ends (program : List Op) (k : Nat) (inv : Inv s pending)
    (bound : controlWeight s + queueWeight s pending ≤ k) :
    ∃ last acts, (machine program).Exec Machine.anyStep s acts last ∧ last.control = .ended ∧
      Inv last [] := by
  induction k generalizing s pending with
  | zero =>
    by_cases ended : s.control = .ended
    · have current := inv.current
      rw [ended] at current
      have empty : pending = [] := current
      subst empty
      exact ⟨s, [], .nil s, ended, inv⟩
    · obtain ⟨s', pending', _, _, less⟩ := inv.step ended
      omega
  | succ k ih =>
    by_cases ended : s.control = .ended
    · have current := inv.current
      rw [ended] at current
      have empty : pending = [] := current
      subst empty
      exact ⟨s, [], .nil s, ended, inv⟩
    · obtain ⟨s', pending', next, after, less⟩ := inv.step ended
      obtain ⟨last, acts, run, ended, final⟩ := ih after (by omega)
      exact ⟨last, () :: acts, .cons trivial next run, ended, final⟩

/-! ### The result -/

/-- A thread that is over makes no step. -/
theorem step_ended {program : List Op} (ended : s.control = .ended) :
    (machine program).step s () = none := by
  show s.step = none
  unfold State.step
  rw [ended]

/-- **What is left of a thread that is over.** -/
structure Unwound (s : State) : Prop where
  ended : s.control = .ended
  empty : s.callList = none
  /-- Everything that happened was allowed when it happened. -/
  proper : Proper s.log
  /-- What was registered was invoked, has returned, and its node is freed. -/
  all : ∀ n f, .registered n f ∈ s.log →
    .invoked n f ∈ s.log ∧ .returned n ∈ s.log ∧ .freed n ∈ s.log
  /-- An empty function has no node: there is none but for what was registered. -/
  only : ∀ n, n < s.nodes ↔ ∃ f, .registered n f ∈ s.log

theorem Inv.unwound (inv : Inv s pending) (ended : s.control = .ended) : Unwound s := by
  have current := inv.current
  rw [ended] at current
  have empty : pending = [] := current
  subst empty
  refine ⟨ended, inv.chain, inv.proper, fun n f registered => ?_, fun n => ⟨fun made => ?_, ?_⟩⟩
  · obtain ⟨made, callback⟩ := (inv.known n f).mp registered
    have waiting := inv.waiting n
    rw [ended] at waiting
    obtain ⟨g, invoked⟩ : ∃ g, .invoked n g ∈ s.log := by
      by_contra unseen
      have member := waiting.mpr ⟨made, fun g invoked => unseen ⟨g, invoked⟩, by simp [Control.called]⟩
      exact absurd member List.not_mem_nil
    have known := ((inv.known n g).mp (inv.proper.invoked_registered invoked)).2
    rw [callback] at known
    cases known
    rcases inv.settled n f invoked with done | held
    · exact ⟨invoked, done⟩
    · rw [ended] at held
      cases held
  · obtain ⟨f, callback⟩ := inv.made n made
    exact ⟨f, (inv.known n f).mpr ⟨made, callback⟩⟩
  · rintro ⟨f, registered⟩
    exact ((inv.known n f).mp registered).1

/-- **Every thread unwinds its list**: whatever it and its callbacks register, its one run comes to an
end in which every callback was invoked once, the last registered first, and its node freed once after
the callback had returned; and what was registered are the functions that the thread and the invoked
callbacks passed, in order, and the deletion of the pool at its first use. -/
theorem unwinds (ops : List Op) :
    ∃ last, (∃ acts, (machine ops).Exec Machine.anyStep (.start ops) acts last) ∧
      (∀ acts s, (machine ops).Exec Machine.anyStep (.start ops) acts s → s.control = .ended →
        s = last) ∧
      Unwound last ∧ Obeyed ops last.log := by
  obtain ⟨last, acts, run, ended, inv⟩ := (Inv.start ops).ends ops _ (Nat.le_refl _)
  obtain ⟨done, obeys⟩ := Obeys.run run ⟨[], .start ops⟩
  refine ⟨last, ⟨acts, run⟩, fun _ s other stops => ?_, inv.unwound ended, obeys.obeyed ended⟩
  exact other.stop_unique (step_ended stops) run (step_ended ended)

/-- A callback that registers two more, one of them empty and one that allocates for the first time,
behind one that does nothing: the calls of the thread and of its callbacks, and what came of them. -/
theorem unwinds_nested :
    ∃ last acts, (machine [.atexit (some [.atexit (some [.alloc]), .atexit none]), .atexit (some []),
        .atexit none]).Exec Machine.anyStep (.start [.atexit (some [.atexit (some [.alloc]), .atexit none]),
        .atexit (some []), .atexit none]) acts last ∧
      Unwound last ∧
      Obeyed [.atexit (some [.atexit (some [.alloc]), .atexit none]), .atexit (some []), .atexit none]
        last.log ∧
      last.log.reverse = [
        .registered 0 (.user [.atexit (some [.alloc]), .atexit none]), .registered 1 (.user []), .skipped,
        .invoked 1 (.user []), .returned 1, .freed 1,
        .invoked 0 (.user [.atexit (some [.alloc]), .atexit none]),
          .registered 2 (.user [.alloc]), .skipped, .returned 0, .freed 0,
        .invoked 2 (.user [.alloc]), .registered 3 (.deletePool 0), .used 0 false, .returned 2, .freed 2,
        .invoked 3 (.deletePool 0), .returned 3, .freed 3] := by
  obtain ⟨last, ⟨acts, run⟩, unique, unwound, obeyed⟩ := unwinds
    [.atexit (some [.atexit (some [.alloc]), .atexit none]), .atexit (some []), .atexit none]
  have stops := unique (List.replicate 24 ()) _ (Machine.exec_of_runFrom rfl) rfl
  exact ⟨last, acts, run, unwound, obeyed, stops ▸ rfl⟩

end NpAlloc.AtExit
