/-
**What a thread asks for, and what comes of it.**

The calls of a thread, and of the callbacks that are invoked for it, ask for registrations and for
blocks; the log says what was registered and when a pool was used. The one is the other:

* `requested` — what the log says was asked for, in order.
* `lazily` — a list of requests with the deletion of the pool registered by the first use.
* **`Obeyed`** — what was done is what the calls asked for, one call after the other, and nothing else
  but the registration of that deletion.
-/

import NpAlloc.AtExit.Model

set_option linter.unusedSectionVars false

namespace NpAlloc.AtExit

variable {s s' : State} {program : List Op} {log : List Event}

/-! ### Requests -/

/-- What is asked of the library. -/
inductive Request
  /-- To register a function: an empty one, or one that makes these calls. -/
  | register (f : Option (List Op))
  /-- To register the deletion of the pool. -/
  | deletion
  /-- To use the pool. -/
  | use

def Op.requests : Op → List Request
  | .alloc => [.use]
  | .free null => if null then [] else [.use]
  | .atexit f => [.register f]

def Event.requests : Event → List Request
  | .registered _ (.user ops) => [.register (some ops)]
  | .registered _ (.deletePool _) => [.deletion]
  | .skipped => [.register none]
  | .used _ _ => [.use]
  | .invoked _ _ | .returned _ | .freed _ => []

/-- The calls a callback makes. -/
def Callback.ops : Callback → List Op
  | .user ops => ops
  | .deletePool _ => []

/-- The calls an event lets loose. -/
def Event.calls : Event → List Op
  | .invoked _ f => f.ops
  | _ => []

/-- What was asked for, in order. -/
def requested (log : List Event) : List Request := log.reverse.flatMap Event.requests

/-- The calls of the callbacks that were invoked, in order. -/
def called (log : List Event) : List Op := log.reverse.flatMap Event.calls

@[simp] theorem requested_cons (e : Event) (log : List Event) :
    requested (e :: log) = requested log ++ e.requests := by
  simp [requested]

@[simp] theorem called_cons (e : Event) (log : List Event) :
    called (e :: log) = called log ++ e.calls := by
  simp [called]

/-- The calls that are to go where the thread stands. -/
def Control.ops : Control → List Op
  | .life ops | .running _ ops => ops
  | _ => []

/-! ### The deletion of the pool -/

/-- **The deletion of the pool is registered by the first use.** -/
def lazily : List Request → List Request
  | [] => []
  | .use :: rest => .deletion :: .use :: rest
  | .register f :: rest => .register f :: lazily rest
  | .deletion :: rest => .deletion :: lazily rest

/-- Before the first use nothing is added. -/
theorem lazily_fresh (more : List Request) :
    ∀ done : List Request, .use ∉ done → lazily (done ++ more) = done ++ lazily more
  | [], _ => rfl
  | .use :: _, unused => absurd List.mem_cons_self unused
  | .register f :: done, unused =>
    congrArg (Request.register f :: ·) (lazily_fresh more done fun member => unused (.tail _ member))
  | .deletion :: done, unused =>
    congrArg (Request.deletion :: ·) (lazily_fresh more done fun member => unused (.tail _ member))

/-- And after it nothing more. -/
theorem lazily_used (more : List Request) :
    ∀ done : List Request, .use ∈ done → lazily (done ++ more) = lazily done ++ more
  | [], member => absurd member List.not_mem_nil
  | .use :: _, _ => rfl
  | .register f :: done, member =>
    congrArg (Request.register f :: ·)
      (lazily_used more done ((List.mem_cons.mp member).resolve_left (by simp)))
  | .deletion :: done, member =>
    congrArg (Request.deletion :: ·)
      (lazily_used more done ((List.mem_cons.mp member).resolve_left (by simp)))

theorem lazily_unused {done : List Request} (unused : .use ∉ done) : lazily done = done := by
  have same := lazily_fresh [] done unused
  simpa [lazily] using same

/-! ### What was done is what was asked for -/

/-- **What was done is what was asked for** by the calls of the thread, and then of the callbacks in the
order they were invoked. -/
structure Obeyed (program : List Op) (log : List Event) : Prop where
  requested : requested log = lazily ((program ++ called log).flatMap Op.requests)
  /-- The pool that is used is the one whose deletion was registered. -/
  own : ∀ pool deleted, .used pool deleted ∈ log → ∃ n, .registered n (.deletePool pool) ∈ log

/-- Where a thread stands, these requests are done, and those of the calls that are to go are not. -/
structure Obeys (program : List Op) (s : State) (done : List Request) : Prop where
  left : (program ++ called s.log).flatMap Op.requests = done ++ s.control.ops.flatMap Op.requests
  requested : requested s.log = lazily done
  first : s.sPool = none → .use ∉ done
  cached : ∀ pool, s.sPool = some pool →
    .use ∈ done ∧ ∃ n, .registered n (.deletePool pool) ∈ s.log
  own : ∀ pool deleted, .used pool deleted ∈ s.log → ∃ n, .registered n (.deletePool pool) ∈ s.log

theorem Obeys.start (program : List Op) : Obeys program (.start program) [] := by
  refine ⟨?_, rfl, fun _ => List.not_mem_nil, fun pool cached => ?_, fun _ _ member => ?_⟩
  · rw [show called (State.start program).log = [] from rfl, List.append_nil]
    rfl
  · cases cached
  · exact absurd member List.not_mem_nil

/-- What one call leaves in the log and in the cache. -/
structure Answers (s s' : State) (done requests : List Request) : Prop where
  called : called s'.log = called s.log
  requested : requested s'.log = lazily (done ++ requests)
  first : s'.sPool = none → .use ∉ done ++ requests
  cached : ∀ pool, s'.sPool = some pool →
    .use ∈ done ++ requests ∧ ∃ n, .registered n (.deletePool pool) ∈ s'.log
  own : ∀ pool deleted, .used pool deleted ∈ s'.log → ∃ n, .registered n (.deletePool pool) ∈ s'.log

/-- **A use** registers the deletion of the pool if it is the first. -/
theorem Obeys.use {done : List Request} (obeys : Obeys program s done) :
    Answers s s.use done [.use] := by
  have here : .use ∈ done ++ [Request.use] := by simp
  cases cached : s.sPool with
  | none =>
    have unused := obeys.first cached
    rw [State.use_first cached]
    refine ⟨?_, ?_, fun missing => ?_, fun pool same => ⟨here, ?_⟩, fun pool deleted member => ?_⟩
    · simp [State.construct, State.add, Event.calls]
    · rw [lazily_fresh [.use] done unused, ← lazily_unused unused, ← obeys.requested]
      simp [State.construct, State.add, Event.requests, lazily]
    · cases missing
    · cases same
      exact ⟨s.nodes, .tail _ List.mem_cons_self⟩
    · rcases List.mem_cons.mp member with same | older
      · cases same
        exact ⟨s.nodes, .tail _ List.mem_cons_self⟩
      · obtain ⟨n, registered⟩ := obeys.own pool deleted
          ((List.mem_cons.mp older).resolve_left (by simp))
        exact ⟨n, .tail _ (.tail _ registered)⟩
  | some pool =>
    obtain ⟨used, n, registered⟩ := obeys.cached pool cached
    rw [State.use_cached cached]
    refine ⟨?_, ?_, fun missing => ?_, fun pool' same => ⟨here, ?_⟩, fun pool' deleted member => ?_⟩
    · simp [Event.calls]
    · rw [lazily_used [.use] done used, ← obeys.requested]
      simp [Event.requests]
    · rw [cached] at missing
      cases missing
    · rw [cached] at same
      cases same
      exact ⟨n, .tail _ registered⟩
    · rcases List.mem_cons.mp member with same | older
      · cases same
        exact ⟨n, .tail _ registered⟩
      · obtain ⟨m, made⟩ := obeys.own pool' deleted older
        exact ⟨m, .tail _ made⟩

/-- **A registration** is what was asked for. -/
theorem Obeys.register {done : List Request} (obeys : Obeys program s done) (f : Option (List Op)) :
    Answers s (s.add (f.map .user)) done [.register f] := by
  have pool : (s.add (f.map .user)).sPool = s.sPool := by cases f <;> rfl
  have event : ∃ e, (s.add (f.map .user)).log = e :: s.log ∧ e.calls = [] ∧
      e.requests = [.register f] ∧ ∀ pool deleted, e ≠ .used pool deleted := by
    cases f with
    | none => exact ⟨.skipped, rfl, rfl, rfl, by simp⟩
    | some ops => exact ⟨.registered s.nodes (.user ops), rfl, rfl, rfl, by simp⟩
  obtain ⟨e, log, calls, requests, other⟩ := event
  refine ⟨?_, ?_, fun missing => ?_, fun pool' same => ?_, fun pool' deleted member => ?_⟩
  · rw [log, called_cons, calls, List.append_nil]
  · rw [log, requested_cons, requests, obeys.requested]
    by_cases used : .use ∈ done
    · rw [lazily_used _ done used]
    · rw [lazily_fresh _ done used, lazily_unused used]
      rfl
  · rw [pool] at missing
    simpa using obeys.first missing
  · rw [pool] at same
    obtain ⟨used, n, registered⟩ := obeys.cached pool' same
    rw [log]
    exact ⟨List.mem_append_left _ used, n, .tail _ registered⟩
  · rw [log] at member ⊢
    obtain ⟨n, registered⟩ := obeys.own pool' deleted
      ((List.mem_cons.mp member).resolve_left fun same => other pool' deleted same.symm)
    exact ⟨n, .tail _ registered⟩

/-- **One call** does what it asks for. -/
theorem Obeys.exec {done : List Request} (obeys : Obeys program s done) (op : Op) :
    Answers s (s.exec op) done op.requests := by
  cases op with
  | alloc => exact obeys.use
  | free null =>
    cases null with
    | false => exact obeys.use
    | true =>
      have same : done ++ (Op.free true).requests = done := List.append_nil done
      refine ⟨rfl, ?_, ?_, ?_, obeys.own⟩
      · rw [same]
        exact obeys.requested
      · rw [same]
        exact obeys.first
      · rw [same]
        exact obeys.cached
  | atexit f => exact obeys.register f

/-- After a call its requests are done. -/
theorem Obeys.call {done : List Request} (obeys : Obeys program s done) {op : Op} {ops : List Op}
    (calls : s.control.ops = op :: ops) {control : Control} (rest : control.ops = ops) :
    Obeys program { s.exec op with control := control } (done ++ op.requests) := by
  have answers := obeys.exec op
  refine ⟨?_, answers.requested, answers.first, answers.cached, answers.own⟩
  show (program ++ AtExit.called (s.exec op).log).flatMap Op.requests = _
  rw [answers.called, obeys.left, calls, rest, List.flatMap_cons, List.append_assoc]

/-- What is no call is no request. -/
theorem Obeys.turn {done : List Request} (obeys : Obeys program s done) {e : Event}
    (silent : e.requests = []) (idle : s.control.ops = []) (body : s'.control.ops = e.calls)
    (log : s'.log = e :: s.log) (cache : s'.sPool = s.sPool) : Obeys program s' done := by
  have older : ∀ pool deleted, .used pool deleted ∈ e :: s.log → .used pool deleted ∈ s.log := by
    intro pool deleted member
    refine (List.mem_cons.mp member).resolve_left ?_
    rintro rfl
    cases silent
  refine ⟨?_, ?_, ?_, ?_, fun pool deleted member => ?_⟩
  · have left := obeys.left
    rw [idle, List.flatMap_nil, List.append_nil] at left
    rw [log, called_cons, body, ← List.append_assoc, List.flatMap_append, left]
  · rw [log, requested_cons, silent, List.append_nil]
    exact obeys.requested
  · rw [cache]
    exact obeys.first
  · rw [cache, log]
    intro pool same
    obtain ⟨used, n, registered⟩ := obeys.cached pool same
    exact ⟨used, n, .tail _ registered⟩
  · rw [log] at member ⊢
    obtain ⟨n, registered⟩ := obeys.own pool deleted (older pool deleted member)
    exact ⟨n, .tail _ registered⟩

/-- The thread goes on, and nothing happens. -/
theorem Obeys.goOn {done : List Request} (obeys : Obeys program s done) (idle : s.control.ops = [])
    (rest : s'.control.ops = []) (log : s'.log = s.log) (cache : s'.sPool = s.sPool) :
    Obeys program s' done := by
  obtain ⟨left, requested, first, cached, own⟩ := obeys
  rw [idle] at left
  refine ⟨?_, ?_, ?_, ?_, ?_⟩
  · rw [log, rest]
    exact left
  · rw [log]
    exact requested
  · rw [cache]
    exact first
  · rw [cache, log]
    exact cached
  · rw [log]
    exact own

/-- **Every step** does what it asks for. -/
theorem Obeys.step {done : List Request} (obeys : Obeys program s done) (next : s.step = some s') :
    ∃ done', Obeys program s' done' := by
  unfold State.step at next
  cases control : s.control with
  | life ops =>
    rw [control] at next
    cases ops with
    | nil =>
      cases next
      exact ⟨done, obeys.goOn (by rw [control]; rfl) rfl rfl rfl⟩
    | cons op ops =>
      cases next
      exact ⟨_, obeys.call (by rw [control]; rfl) rfl⟩
  | testing =>
    rw [control] at next
    cases head : s.callList with
    | none =>
      rw [head] at next
      cases next
      exact ⟨done, obeys.goOn (by rw [control]; rfl) rfl rfl rfl⟩
    | some cb =>
      rw [head] at next
      cases next
      exact ⟨done, obeys.goOn (by rw [control]; rfl) rfl rfl rfl⟩
  | calling cb =>
    rw [control] at next
    cases callback : (s.node cb).callback with
    | none =>
      simp only [callback] at next
      cases next
      exact ⟨done, obeys.goOn (by rw [control]; rfl) rfl rfl rfl⟩
    | some f =>
      cases f with
      | user ops =>
        simp only [callback] at next
        cases next
        exact ⟨done, obeys.turn rfl (by rw [control]; rfl) rfl rfl rfl⟩
      | deletePool pool =>
        simp only [callback] at next
        cases next
        exact ⟨done, obeys.turn (e := .invoked cb (.deletePool pool)) rfl (by rw [control]; rfl)
          rfl rfl rfl⟩
  | running cb ops =>
    rw [control] at next
    cases ops with
    | nil =>
      cases next
      exact ⟨done, obeys.turn (e := .returned cb) rfl (by rw [control]; rfl) rfl rfl rfl⟩
    | cons op ops =>
      cases next
      exact ⟨_, obeys.call (by rw [control]; rfl) rfl⟩
  | deleting cb =>
    rw [control] at next
    cases next
    exact ⟨done, obeys.turn (e := .freed cb) rfl (by rw [control]; rfl) rfl rfl rfl⟩
  | ended =>
    rw [control] at next
    cases next

/-- **A run** does what its calls ask for. -/
theorem Obeys.run {acts : List Unit} (run : (machine program).Exec Machine.anyStep s acts s')
    (obeys : ∃ done, Obeys program s done) : ∃ done, Obeys program s' done :=
  run.preserves (I := fun s => ∃ done, Obeys program s done)
    (fun _ _ _ holds _ next => holds.elim fun _ obeys => obeys.step next) obeys

/-- A thread that is over was obeyed. -/
theorem Obeys.obeyed {done : List Request} (obeys : Obeys program s done)
    (ended : s.control = .ended) : Obeyed program s.log := by
  have left := obeys.left
  rw [ended] at left
  refine ⟨?_, obeys.own⟩
  rw [obeys.requested, left]
  exact congrArg lazily (List.append_nil done).symm

end NpAlloc.AtExit
