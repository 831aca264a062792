/-
**`thread_local_pool::get` and the callback that deletes the pool.**

The first use of the allocator registers the deletion of the pool among the other callbacks, and caches
the pool in `s_pool`, which nobody ever clears. So whatever was registered before the first use, and is
invoked after the deletion, finds the deleted pool.

* `risk` — whether what runs after the deletion uses the allocator.
* **`pool_lifetime_iff`** — a thread never uses a deleted pool if and only if, when it constructs its
  pool, no callback that is pending then uses the allocator, nor any callback it registers.
* **`pool_outlived`** — a callback registered before the first `np_alloc`, and using it.
-/

import NpAlloc.AtExit.Unwind

set_option linter.unusedSectionVars false

namespace NpAlloc.AtExit

variable {s s' : State} {pending : List Nat} {n : Nat} {f : Callback} {pool : Nat}

/-! ### Who uses the allocator -/

mutual

/-- A call that uses the pool, or registers a callback that does. -/
def Op.uses : Op → Bool
  | .alloc => true
  | .free null => !null
  | .atexit none => false
  | .atexit (some ops) => usesAny ops

def usesAny : List Op → Bool
  | [] => false
  | op :: ops => op.uses || usesAny ops

end

def Callback.uses : Callback → Bool
  | .user ops => usesAny ops
  | .deletePool _ => false

/-- A call on the pool itself. -/
def Op.direct : Op → Bool
  | .alloc => true
  | .free null => !null
  | .atexit _ => false

/-- **The next step constructs the pool.** -/
def State.Constructs (s : State) : Prop :=
  s.sPool = none ∧ ∃ op ops, s.control.ops = op :: ops ∧ op.direct = true

/-- **The pool is constructed behind no callback that uses it.** -/
def Careful (s : State) (_ : Unit) : Prop :=
  s.Constructs → ∀ list, Linked (fun n => (s.node n).next) s.callList list →
    ∀ n ∈ list, ∀ f, (s.node n).callback = some f → f.uses = false

/-- **No call found its pool deleted.** -/
def Safe (s : State) : Prop := ∀ pool deleted, .used pool deleted ∈ s.log → deleted = false

/-! ### What runs after the deletion -/

/-- The callbacks that are to be invoked, in order. -/
def queue (s : State) (pending : List Nat) : List Callback :=
  (s.control.called.toList ++ pending).filterMap fun n => (s.node n).callback

/-- The callbacks behind the deletion of a pool. -/
def behind (pool : Nat) : List Callback → List Callback
  | [] => []
  | .deletePool other :: rest => if other = pool then rest else behind pool rest
  | .user _ :: rest => behind pool rest

/-- Whether what runs after the deletion of the pool uses it: these calls, and then these callbacks. -/
def riskOf (sPool : Option Nat) (deleted : Nat → Bool) (ops : List Op) (queue : List Callback) : Bool :=
  match sPool with
  | none => false
  | some pool =>
    if deleted pool then usesAny ops || queue.any Callback.uses
    else (behind pool queue).any Callback.uses

/-- **Whether what runs after the deletion of the pool uses it.** -/
def risk (s : State) (pending : List Nat) : Bool :=
  riskOf s.sPool s.deleted s.control.ops (queue s pending)

/-- Pools are numbered in the order of their construction. -/
structure Numbered (s : State) (pending : List Nat) : Prop where
  deleted : ∀ pool, s.deleted pool = true → pool < s.pools
  queued : ∀ pool, .deletePool pool ∈ queue s pending → pool < s.pools
  cached : ∀ pool, s.sPool = some pool → pool < s.pools
  used : ∀ pool deleted, .used pool deleted ∈ s.log → pool < s.pools

/-! ### One step -/

/-- Where a client stands, no node is called. -/
theorem queue_active (active : s.control.Active) (pending : List Nat) :
    queue s pending = pending.filterMap fun n => (s.node n).callback := by
  unfold queue
  rw [active.uncalled]
  rfl

/-- A registered callback is the next to be invoked. -/
theorem Inv.queue_add (inv : Inv s pending) (active : s.control.Active) (f : Callback) :
    queue (s.add (some f)) (s.nodes :: pending) = f :: queue s pending := by
  have same : ∀ n ∈ pending, ((s.add (some f)).node n).callback = (s.node n).callback := by
    intro n member
    have less := ((inv.waiting n).mp member).1
    show (Function.update s.node s.nodes _ n).callback = _
    rw [Function.update_of_ne (Nat.ne_of_lt less)]
  have new : ((s.add (some f)).node s.nodes).callback = some f := by
    show (Function.update s.node s.nodes ⟨some f, s.callList⟩ s.nodes).callback = _
    rw [Function.update_self]
  have active' : (s.add (some f)).control.Active := active
  rw [queue_active active', queue_active active, List.filterMap_cons, new]
  exact congrArg (f :: ·) (List.filterMap_congr same)

/-- **Being careful** is about the callbacks that are pending. -/
theorem Inv.careful_iff (inv : Inv s pending) (active : s.control.Active) (constructs : s.Constructs) :
    Careful s () ↔ (queue s pending).any Callback.uses = false := by
  rw [queue_active active, List.any_eq_false]
  constructor
  · intro careful f member
    obtain ⟨n, here, callback⟩ := List.mem_filterMap.mp member
    rw [careful constructs pending inv.chain n here f callback]
    simp
  · intro unused _ list chain n here f callback
    have same := chain.unique inv.chain
    subst same
    have answer := unused f (List.mem_filterMap.mpr ⟨n, here, callback⟩)
    simpa using answer

section Risk

variable {sPool : Option Nat} {deleted : Nat → Bool} {op : Op} {ops : List Op} {rest : List Callback}

/-- A call that has nothing to do with the pool. -/
theorem riskOf_skip (unrelated : op.uses = false) :
    riskOf sPool deleted (op :: ops) rest = riskOf sPool deleted ops rest := by
  unfold riskOf
  simp only [usesAny, unrelated, Bool.false_or]

/-- What a call registers is at risk as the call was. -/
theorem riskOf_register (body : List Op) :
    riskOf sPool deleted (.atexit (some body) :: ops) rest
      = riskOf sPool deleted ops (.user body :: rest) := by
  unfold riskOf
  cases sPool with
  | none => rfl
  | some pool =>
    simp only [usesAny, Op.uses, List.any_cons, Callback.uses, behind]
    rw [Bool.or_left_comm, Bool.or_assoc, Bool.or_left_comm]

/-- What a callback does is at risk as the callback was. -/
theorem riskOf_invoke (body : List Op) :
    riskOf sPool deleted [] (.user body :: rest) = riskOf sPool deleted body rest := by
  unfold riskOf
  cases sPool with
  | none => rfl
  | some pool => simp only [usesAny, List.any_cons, Callback.uses, behind, Bool.false_or]

/-- **The deletion**: what was behind it is at risk now. -/
theorem riskOf_delete (other : Nat) :
    riskOf sPool deleted [] (.deletePool other :: rest)
      = riskOf sPool (Function.update deleted other true) [] rest := by
  unfold riskOf
  cases sPool with
  | none => rfl
  | some pool =>
    by_cases own : pool = other
    · subst own
      simp [usesAny, Callback.uses, behind]
    · simp [usesAny, Callback.uses, behind, own, Ne.symm own]

/-- **The construction**: what is pending is behind the deletion. -/
theorem riskOf_construct (there : deleted pool = false) :
    riskOf (some pool) deleted ops (.deletePool pool :: rest) = rest.any Callback.uses := by
  unfold riskOf
  simp [there, behind]

/-- As long as the pool is there, the calls are not at risk. -/
theorem riskOf_there (there : deleted pool = false) :
    riskOf (some pool) deleted (op :: ops) rest = riskOf (some pool) deleted ops rest := by
  unfold riskOf
  simp [there]

/-- Once it is not, every use is. -/
theorem riskOf_gone (gone : deleted pool = true) (uses : op.uses = true) :
    riskOf (some pool) deleted (op :: ops) rest = true := by
  unfold riskOf
  simp [gone, usesAny, uses]

end Risk

/-- A direct call uses the pool. -/
theorem Op.direct_uses {op : Op} (direct : op.direct = true) : op.uses = true := by
  cases op with
  | alloc => rfl
  | free null => exact direct
  | atexit f => cases direct

/-- An event that is no use leaves a thread as safe as it was. -/
theorem safe_note {e : Event} {log : List Event} (other : ∀ pool deleted, e ≠ .used pool deleted) :
    (∀ pool deleted, .used pool deleted ∈ e :: log → deleted = false) ↔
      ∀ pool deleted, .used pool deleted ∈ log → deleted = false := by
  refine forall₂_congr fun pool deleted => ?_
  rw [List.mem_cons]
  exact imp_congr_left (or_iff_right fun same => other pool deleted same.symm)

/-- Only a construction needs care. -/
theorem careful_of_not (other : ¬ s.Constructs) : Careful s () := fun constructs =>
  absurd constructs other

/-- **What a call leaves**: these callbacks, and the rest of the calls at this risk. -/
def Leaves (s s' : State) (pending pending' : List Nat) (ops : List Op) : Prop :=
  Linked (fun n => (s'.node n).next) s'.callList pending' ∧ Numbered s' pending' ∧
    ((Safe s' ∧ riskOf s'.sPool s'.deleted ops (queue s' pending') = false) ↔
      Safe s ∧ risk s pending = false ∧ Careful s ())

/-- **A use of the pool.** -/
theorem Inv.use_risk (inv : Inv s pending) (numbered : Numbered s pending) (active : s.control.Active)
    {op : Op} {ops : List Op} (calls : s.control.ops = op :: ops) (direct : op.direct = true) :
    ∃ more, Leaves s s.use pending (more ++ pending) ops := by
  obtain ⟨deleted, queued, known, used⟩ := numbered
  cases cached : s.sPool with
  | none =>
    have fresh : s.deleted s.pools = false := by
      cases gone : s.deleted s.pools with
      | false => rfl
      | true => exact absurd (deleted s.pools gone) (Nat.lt_irrefl _)
    have constructs : s.Constructs := ⟨cached, op, ops, calls, direct⟩
    have pooled := inv.pooled s.sPool (s.pools + 1)
    have made := pooled.add active (.deletePool s.pools)
    have more := pooled.queue_add active (.deletePool s.pools)
    rw [State.use_first cached]
    refine ⟨[s.nodes], made.chain, ⟨fun pool gone => ?_, fun pool member => ?_, fun pool same => ?_,
      fun pool deleted member => ?_⟩, ?_⟩
    · exact Nat.lt_succ_of_lt (deleted pool gone)
    · change .deletePool pool ∈ queue _ (s.nodes :: pending) at member
      have here : .deletePool pool ∈ Callback.deletePool s.pools :: queue s pending := more ▸ member
      rcases List.mem_cons.mp here with same | older
      · cases same
        exact Nat.lt_succ_self _
      · exact Nat.lt_succ_of_lt (queued pool older)
    · cases same
      exact Nat.lt_succ_self _
    · rcases List.mem_cons.mp member with same | older
      · cases same
        exact Nat.lt_succ_self _
      · rcases List.mem_cons.mp older with same | older
        · cases same
        · exact Nat.lt_succ_of_lt (used pool deleted older)
    · have after : riskOf (some s.pools) s.deleted ops
          (queue (({ s with pools := s.pools + 1 } : State).add (some (.deletePool s.pools)))
            (s.nodes :: pending)) = (queue s pending).any Callback.uses := by
        have behind : riskOf (some s.pools) s.deleted ops (.deletePool s.pools :: queue s pending)
            = (queue s pending).any Callback.uses := riskOf_construct fresh
        exact (congrArg (riskOf (some s.pools) s.deleted ops) more).trans behind
      have calm : risk s pending = false := by
        unfold risk riskOf
        rw [cached]
      rw [inv.careful_iff active constructs, calm, ← after]
      have safe : ∀ s' : State, s'.log = .used s.pools (s.deleted s.pools) ::
          .registered s.nodes (.deletePool s.pools) :: s.log → (Safe s' ↔ Safe s) := by
        intro s' log
        unfold Safe
        rw [log, fresh]
        constructor
        · exact fun safe pool deleted member => safe pool deleted (.tail _ (.tail _ member))
        · intro safe pool deleted member
          rcases List.mem_cons.mp member with same | older
          · cases same
            rfl
          · rcases List.mem_cons.mp older with same | older
            · cases same
            · exact safe pool deleted older
      rw [safe _ rfl]
      exact and_congr_right fun _ => ⟨fun after => ⟨rfl, after⟩, fun both => both.2⟩
  | some pool =>
    have there : s.sPool ≠ none := by rw [cached]; simp
    have other : ¬ s.Constructs := fun constructs => there constructs.1
    have before : risk s pending = riskOf (some pool) s.deleted (op :: ops) (queue s pending) := by
      unfold risk
      rw [calls, cached]
    have after : riskOf s.use.sPool s.use.deleted ops (queue s.use pending)
        = riskOf (some pool) s.deleted ops (queue s pending) := by
      rw [State.use_cached cached, ← cached]
      rfl
    refine ⟨[], ?_, ?_, ?_⟩
    · rw [State.use_cached cached]
      exact inv.chain
    · rw [State.use_cached cached]
      refine ⟨deleted, queued, known, fun pool' deleted' member => ?_⟩
      rcases List.mem_cons.mp member with same | older
      · cases same
        exact known pool cached
      · exact used pool' deleted' older
    · have uses := Op.direct_uses direct
      show (Safe s.use ∧ riskOf s.use.sPool s.use.deleted ops (queue s.use pending) = false) ↔ _
      rw [after, before]
      have log : s.use.log = .used pool (s.deleted pool) :: s.log := by
        rw [State.use_cached cached]
      unfold Safe
      rw [log]
      cases gone : s.deleted pool with
      | true =>
        rw [riskOf_gone gone uses]
        constructor
        · rintro ⟨safe, _⟩
          have bad := safe pool true List.mem_cons_self
          cases bad
        · rintro ⟨_, bad, _⟩
          cases bad
      | false =>
        rw [riskOf_there gone]
        have safe : (∀ pool' deleted, .used pool' deleted ∈ .used pool false :: s.log →
            deleted = false) ↔ Safe s := by
          constructor
          · exact fun safe pool' deleted member => safe pool' deleted (.tail _ member)
          · intro safe pool' deleted member
            rcases List.mem_cons.mp member with same | older
            · cases same
              rfl
            · exact safe pool' deleted older
        have careful := careful_of_not other
        constructor
        · rintro ⟨after, calm⟩
          exact ⟨safe.mp after, calm, careful⟩
        · rintro ⟨before, calm, _⟩
          exact ⟨safe.mpr before, calm⟩

/-- **One call**: it leaves the thread safe and without risk if and only if the thread was so, and
careful. -/
theorem Inv.exec_risk (inv : Inv s pending) (numbered : Numbered s pending) (active : s.control.Active)
    {op : Op} {ops : List Op} (calls : s.control.ops = op :: ops) :
    ∃ more, Leaves s (s.exec op) pending (more ++ pending) ops := by
  have indirect : op.direct = false → Careful s () := fun other => careful_of_not fun constructs => by
    obtain ⟨_, op', ops', calls', direct⟩ := constructs
    rw [calls] at calls'
    cases calls'
    rw [other] at direct
    cases direct
  cases op with
  | alloc => exact inv.use_risk numbered active calls rfl
  | free null =>
    cases null with
    | false => exact inv.use_risk numbered active calls rfl
    | true =>
      refine ⟨[], inv.chain, numbered, ?_⟩
      unfold risk
      rw [calls, riskOf_skip rfl]
      exact and_congr_right fun _ => ⟨fun calm => ⟨calm, indirect rfl⟩, fun both => both.1⟩
  | atexit f =>
    have careful := indirect rfl
    cases f with
    | none =>
      refine ⟨[], inv.chain, ⟨numbered.deleted, numbered.queued, numbered.cached,
        fun pool deleted member => ?_⟩, ?_⟩
      · exact numbered.used pool deleted ((List.mem_cons.mp member).resolve_left (by simp))
      · unfold risk
        rw [calls, riskOf_skip rfl]
        show ((∀ pool deleted, .used pool deleted ∈ .skipped :: s.log → deleted = false) ∧ _) ↔ _
        rw [safe_note fun _ _ => by simp]
        exact and_congr_right fun _ => ⟨fun calm => ⟨calm, careful⟩, fun both => both.1⟩
    | some body =>
      have more := inv.queue_add active (.user body)
      refine ⟨[s.nodes], (inv.add active (.user body)).chain,
        ⟨numbered.deleted, fun pool member => ?_, numbered.cached,
          fun pool deleted member => ?_⟩, ?_⟩
      · have here : .deletePool pool ∈ Callback.user body :: queue s pending := more ▸ member
        exact numbered.queued pool ((List.mem_cons.mp here).resolve_left (by simp))
      · exact numbered.used pool deleted ((List.mem_cons.mp member).resolve_left (by simp))
      · unfold risk
        rw [calls, riskOf_register]
        show ((∀ pool deleted, .used pool deleted ∈ .registered s.nodes (.user body) :: s.log →
          deleted = false) ∧ riskOf s.sPool s.deleted ops
            (queue (s.add (some (.user body))) (s.nodes :: pending)) = false) ↔ _
        rw [safe_note fun _ _ => by simp, more]
        exact and_congr_right fun _ => ⟨fun calm => ⟨calm, careful⟩, fun both => both.1⟩

/-- **What a step leaves**: these callbacks, and a thread that is safe and without risk if and only if
it was so before, and careful. -/
def Follows (s s' : State) (pending pending' : List Nat) : Prop :=
  Linked (fun n => (s'.node n).next) s'.callList pending' ∧ Numbered s' pending' ∧
    ((Safe s' ∧ risk s' pending' = false) ↔ Safe s ∧ risk s pending = false ∧ Careful s ())

/-- Without a call to make, no pool is constructed. -/
theorem careful_of_idle (idle : s.control.ops = []) : Careful s () := careful_of_not fun constructs => by
  obtain ⟨_, op, ops, calls, _⟩ := constructs
  rw [idle] at calls
  cases calls

/-- The thread goes on from one place to the next, with no call, and nothing invoked or deleted. -/
theorem Follows.turn (numbered : Numbered s pending) {control : Control} {callList : Option Nat}
    {log : List Event} {pending' : List Nat}
    (chain : Linked (fun n => (s.node n).next) callList pending')
    (idle : s.control.ops = []) (idle' : control.ops = [])
    (same : (control.called.toList ++ pending') = s.control.called.toList ++ pending)
    (uses : ∀ pool deleted, .used pool deleted ∈ log ↔ .used pool deleted ∈ s.log) :
    Follows s { s with control := control, callList := callList, log := log } pending pending' := by
  have queued : queue { s with control := control, callList := callList, log := log } pending'
      = queue s pending := by
    unfold queue
    rw [← same]
  refine ⟨chain, ⟨numbered.deleted, ?_, numbered.cached, fun pool deleted member => ?_⟩, ?_⟩
  · rw [queued]
    exact numbered.queued
  · exact numbered.used pool deleted ((uses pool deleted).mp member)
  · unfold risk Safe
    rw [queued, idle]
    simp only [uses]
    show (_ ∧ riskOf s.sPool s.deleted control.ops (queue s pending) = false) ↔ _
    rw [idle']
    have careful := careful_of_idle idle
    exact and_congr_right fun _ => ⟨fun calm => ⟨calm, careful⟩, fun both => both.1⟩

/-- A call, and then the calls behind it. -/
theorem Inv.call_follows (inv : Inv s pending) (numbered : Numbered s pending)
    (active : s.control.Active) {op : Op} {control : Control}
    (calls : s.control.ops = op :: control.ops) (active' : control.Active) :
    ∃ pending', Follows s { s.exec op with control := control } pending pending' := by
  obtain ⟨more, chain, after, answer⟩ := inv.exec_risk numbered active calls
  have stays : (s.exec op).control.Active := by
    obtain ⟨_, _, same, _⟩ := inv.exec active op
    rw [same]
    exact active
  have queued : queue { s.exec op with control := control } (more ++ pending)
      = queue (s.exec op) (more ++ pending) := by
    rw [queue_active stays, queue_active active']
  refine ⟨more ++ pending, chain, ⟨after.deleted, ?_, after.cached, after.used⟩, ?_⟩
  · rw [queued]
    exact after.queued
  · unfold risk
    rw [queued]
    exact answer

/-- **Every step** leaves the thread safe and without risk if and only if the thread was so, and
careful. -/
theorem Inv.step_risk (inv : Inv s pending) (numbered : Numbered s pending)
    (next : s.step = some s') : ∃ pending', Follows s s' pending pending' := by
  unfold State.step at next
  cases control : s.control with
  | life ops =>
    rw [control] at next
    have active : s.control.Active := by rw [control]; trivial
    cases ops with
    | nil =>
      cases next
      refine ⟨pending, Follows.turn numbered inv.chain ?_ rfl ?_ fun _ _ => Iff.rfl⟩
      · rw [control]
        rfl
      · rw [control]
        rfl
    | cons op ops =>
      cases next
      exact inv.call_follows numbered active (by rw [control]; rfl) trivial
  | testing =>
    rw [control] at next
    have chain := inv.chain
    cases head : s.callList with
    | none =>
      rw [head] at next chain
      cases next
      refine ⟨pending, Follows.turn numbered chain ?_ rfl ?_ fun _ _ => Iff.rfl⟩
      · rw [control]
        rfl
      · rw [control]
        rfl
    | some cb =>
      rw [head] at next chain
      cases next
      obtain ⟨rest, rfl, tail⟩ := chain.exists_cons
      refine ⟨rest, Follows.turn numbered tail ?_ rfl ?_ fun _ _ => Iff.rfl⟩
      · rw [control]
        rfl
      · rw [control]
        rfl
  | calling cb =>
    rw [control] at next
    have current := inv.current
    rw [control] at current
    obtain ⟨f, callback⟩ := inv.made cb current.1
    have idle : s.control.ops = [] := by
      rw [control]
      rfl
    have careful := careful_of_idle idle
    have front : queue s pending = f :: pending.filterMap fun n => (s.node n).callback := by
      unfold queue
      rw [control]
      show (cb :: pending).filterMap _ = _
      rw [List.filterMap_cons, callback]
    obtain ⟨deleted, queued, known, used⟩ := numbered
    rw [front] at queued
    cases f with
    | user ops =>
      simp only [callback] at next
      cases next
      refine ⟨pending, inv.chain, ⟨deleted, fun pool member => queued pool (.tail _ member),
        known, fun pool deleted member => ?_⟩, ?_⟩
      · exact used pool deleted ((List.mem_cons.mp member).resolve_left (by simp))
      · unfold risk
        rw [front, idle, riskOf_invoke]
        show ((∀ pool deleted, .used pool deleted ∈ .invoked cb (.user ops) :: s.log →
          deleted = false) ∧ _) ↔ _
        rw [safe_note fun _ _ => by simp]
        exact and_congr_right fun _ => ⟨fun calm => ⟨calm, careful⟩, fun both => both.1⟩
    | deletePool pool =>
      simp only [callback] at next
      cases next
      refine ⟨pending, inv.chain, ⟨fun other gone => ?_, fun other member => queued other (.tail _ member),
        known, fun other deleted member => ?_⟩, ?_⟩
      · by_cases own : other = pool
        · subst own
          exact queued other List.mem_cons_self
        · have older : Function.update s.deleted pool true other = true := gone
          rw [Function.update_of_ne own] at older
          exact deleted other older
      · exact used other deleted ((List.mem_cons.mp member).resolve_left (by simp))
      · unfold risk
        rw [front, idle, riskOf_delete]
        show ((∀ other deleted, .used other deleted ∈ .invoked cb (.deletePool pool) :: s.log →
          deleted = false) ∧ _) ↔ _
        rw [safe_note fun _ _ => by simp]
        exact and_congr_right fun _ => ⟨fun calm => ⟨calm, careful⟩, fun both => both.1⟩
  | running cb ops =>
    rw [control] at next
    have active : s.control.Active := by rw [control]; trivial
    cases ops with
    | nil =>
      cases next
      refine ⟨pending, Follows.turn numbered inv.chain ?_ rfl ?_ fun _ _ => ?_⟩
      · rw [control]
        rfl
      · rw [control]
        rfl
      · simp
    | cons op ops =>
      cases next
      exact inv.call_follows numbered active (by rw [control]; rfl) trivial
  | deleting cb =>
    rw [control] at next
    cases next
    refine ⟨pending, Follows.turn numbered inv.chain ?_ rfl ?_ fun _ _ => ?_⟩
    · rw [control]
      rfl
    · rw [control]
      rfl
    · simp
  | ended =>
    rw [control] at next
    cases next

/-! ### The result -/

theorem Numbered.start (ops : List Op) : Numbered (.start ops) [] :=
  ⟨fun _ gone => absurd gone Bool.false_ne_true, fun _ member => absurd member List.not_mem_nil,
    fun _ cached => absurd cached (by simp [State.start]), fun _ _ member => absurd member List.not_mem_nil⟩

/-- Every step keeps the invariant, the numbers, and what follows. -/
theorem Inv.follows (inv : Inv s pending) (numbered : Numbered s pending) (next : s.step = some s') :
    ∃ pending', Inv s' pending' ∧ Follows s s' pending pending' := by
  have running : s.control ≠ .ended := fun ended => by
    unfold State.step at next
    rw [ended] at next
    cases next
  obtain ⟨after, pending', stepped, inv', _⟩ := inv.step running
  rw [next] at stepped
  cases stepped
  obtain ⟨other, chain, follows⟩ := inv.step_risk numbered next
  have same := chain.unique inv'.chain
  subst same
  exact ⟨other, inv', chain, follows⟩

/-- **A run** leaves a thread safe and without risk if and only if the thread was so, and careful at every
step. -/
theorem Inv.run_risk {ops : List Op} {acts : List Unit} {last : State}
    (run : (machine ops).Exec Machine.anyStep s acts last) :
    ∀ pending, Inv s pending → Numbered s pending → ∃ pending', Inv last pending' ∧
      Numbered last pending' ∧ ((Safe last ∧ risk last pending' = false) ↔
        Safe s ∧ risk s pending = false ∧ (machine ops).Exec Careful s acts last) := by
  induction run with
  | nil s =>
    intro pending inv numbered
    refine ⟨pending, inv, numbered, ?_⟩
    exact and_congr_right fun _ => ⟨fun calm => ⟨calm, .nil s⟩, fun both => both.1⟩
  | @cons s middle last act acts _ next _ ih =>
    intro pending inv numbered
    obtain ⟨pending', inv', _, numbered', first⟩ := inv.follows numbered next
    obtain ⟨final, inv'', numbered'', rest⟩ := ih pending' inv' numbered'
    refine ⟨final, inv'', numbered'', ?_⟩
    rw [rest, ← and_assoc, first]
    constructor
    · rintro ⟨⟨safe, calm, careful⟩, run⟩
      exact ⟨safe, calm, .cons careful next run⟩
    · rintro ⟨safe, calm, run⟩
      cases run with
      | cons careful again run =>
        rw [next] at again
        cases again
        exact ⟨⟨safe, calm, careful⟩, run⟩

/-- A thread that is over has no risk left. -/
theorem risk_over (ended : s.control = .ended) : risk s [] = false := by
  unfold risk queue
  rw [ended]
  unfold riskOf
  cases s.sPool with
  | none => rfl
  | some pool => cases gone : s.deleted pool <;> simp [Control.ops, Control.called, usesAny, behind]

/-- **The lifetime of the pool**: every pool that is used has been constructed; while the thread is
careful, none that is used has been deleted; and the thread's one run, which comes to its end, uses no
deleted pool if and only if the thread is careful at every step of it. -/
theorem pool_lifetime_iff (ops : List Op) :
    (∀ acts s, (machine ops).Exec Machine.anyStep (.start ops) acts s →
      ∀ pool deleted, .used pool deleted ∈ s.log → pool < s.pools) ∧
    (∀ acts s, (machine ops).Exec Careful (.start ops) acts s → Safe s) ∧
    ∃ last acts, (machine ops).Exec Machine.anyStep (.start ops) acts last ∧ last.control = .ended ∧
      (Safe last ↔ (machine ops).Exec Careful (.start ops) acts last) := by
  have safe : Safe (.start ops) := fun _ _ member => absurd member List.not_mem_nil
  have calm : risk (.start ops) [] = false := rfl
  refine ⟨fun acts s run => ?_, fun acts s run => ?_, ?_⟩
  · obtain ⟨_, _, numbered, _⟩ := Inv.run_risk run [] (.start ops) (.start ops)
    exact numbered.used
  · obtain ⟨_, _, _, answer⟩ :=
      Inv.run_risk (run.mono fun _ _ _ => trivial) [] (.start ops) (.start ops)
    exact (answer.mpr ⟨safe, calm, run⟩).1
  · obtain ⟨last, acts, run, ended, inv⟩ := (Inv.start ops).ends ops _ (Nat.le_refl _)
    obtain ⟨pending, inv', _, answer⟩ := Inv.run_risk run [] (.start ops) (.start ops)
    have same := inv'.chain.unique inv.chain
    subst same
    refine ⟨last, acts, run, ended, fun after => ?_, fun careful => ?_⟩
    · exact (answer.mp ⟨after, risk_over ended⟩).2.2
    · exact (answer.mpr ⟨safe, calm, careful⟩).1

/-- **A callback outlives the pool**: it was registered before the thread's first `np_alloc`, and it
allocates. -/
theorem pool_outlived : ∃ acts s,
    (machine [.atexit (some [.alloc]), .alloc]).Exec Machine.anyStep
      (.start [.atexit (some [.alloc]), .alloc]) acts s ∧ ¬ Safe s := by
  refine ⟨List.replicate 10 (), _, Machine.exec_of_runFrom rfl, fun safe => ?_⟩
  exact Bool.noConfusion (safe 0 true List.mem_cons_self)

end NpAlloc.AtExit
