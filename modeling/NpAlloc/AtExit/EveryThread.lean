/-
**Which threads get their callbacks run.**

* `Slots`: who has a slot. On POSIX every caller, if there was a key for the first of them; on Windows
  the first `supply` callers, because every one of them takes an index for good (`Slotted`);
* `Stands`: a thread with a slot unwinds its list, one without ends with its callbacks uninvoked;
* **`callbacks_run_iff`**: every thread that is over has had its callbacks run if and only if every one
  of them that registered any has a slot.
-/

import NpAlloc.AtExit.Process
import NpAlloc.AtExit.Unwind

set_option linter.unusedSectionVars false

namespace NpAlloc.AtExit

variable {T : Type} [DecidableEq T] {platform : Platform} {supply : Nat}

/-- The thread is among those the system has a slot for. -/
def Slotted (platform : Platform) (supply : Nat) (callers : List T) (t : T) : Prop :=
  match platform with
  | .posix => t ∈ callers ∧ 0 < supply
  | .windows => t ∈ callers.take supply

namespace Process

/-! ### The slots -/

/-- **Who has a slot.** -/
structure Slots (platform : Platform) (supply : Nat) (s : Process T) : Prop where
  tlsCaller : ∀ t, s.tlsCaller t = true ↔ t ∈ s.callers
  slot : ∀ t, (s.slot t).isSome ↔ Slotted platform supply s.callers t
  windows : platform = .windows → s.handed = min supply s.callers.length
  posix : platform = .posix →
    (s.tlsKey = none → s.handed = 0 ∧ s.callers = []) ∧
      ∀ key, s.tlsKey = some key → (key.isSome ↔ 0 < supply)

theorem Slots.start (program : T → List Op) : Slots platform supply (start program) := by
  refine ⟨fun t => by simp [Process.start], fun t => ?_, fun _ => (Nat.min_zero _).symm,
    fun _ => ⟨fun _ => ⟨rfl, rfl⟩, fun key made => nomatch made⟩⟩
  cases platform <;> simp [Process.start, Slotted]

/-- What a call of `thread_atexit` does to the slots and leaves alone. -/
structure Called (platform : Platform) (supply : Nat) (s : Process T) (t : T) (s' : Process T) :
    Prop where
  slots : Slots platform supply s'
  thread : s'.thread = s.thread
  caller : t ∈ s'.callers
  others : ∀ u, u ≠ t → (u ∈ s'.callers ↔ u ∈ s.callers) ∧ s'.slot u = s.slot u

theorem Slots.createTlsKey {s : Process T} (slots : Slots .posix supply s) :
    ∃ key handed, (key.isSome ↔ 0 < supply) ∧
      s.createTlsKey supply = { s with tlsKey := some key, handed := handed } := by
  unfold Process.createTlsKey
  cases made : s.tlsKey with
  | some key => exact ⟨key, s.handed, (slots.posix rfl).2 key made, by simp only [← made]⟩
  | none =>
    have unused := ((slots.posix rfl).1 made).1
    by_cases positive : 0 < supply
    · refine ⟨some s.handed, s.handed + 1, by simp [positive], ?_⟩
      simp only [handOut, unused, if_pos positive]
    · refine ⟨none, s.handed, by simp [positive], ?_⟩
      simp only [handOut, unused, if_neg positive]

section SetValue

variable (platform : Platform) (s : Process T) (t : T) (key : Option Nat)

/-- Whatever the key, only slots and key zero are written. -/
theorem setValue_eq : ∃ slot keyZero,
    setValue platform s t key = { s with slot := slot, keyZero := keyZero } := by
  cases key with
  | some slot => exact ⟨_, s.keyZero, rfl⟩
  | none =>
    cases platform with
    | windows => exact ⟨s.slot, s.keyZero, rfl⟩
    | posix => exact ⟨s.slot, _, rfl⟩

@[simp] theorem setValue_thread : (setValue platform s t key).thread = s.thread := by
  obtain ⟨_, _, same⟩ := setValue_eq platform s t key
  rw [same]

@[simp] theorem setValue_tlsCaller : (setValue platform s t key).tlsCaller = s.tlsCaller := by
  obtain ⟨_, _, same⟩ := setValue_eq platform s t key
  rw [same]

@[simp] theorem setValue_tlsKey : (setValue platform s t key).tlsKey = s.tlsKey := by
  obtain ⟨_, _, same⟩ := setValue_eq platform s t key
  rw [same]

@[simp] theorem setValue_handed : (setValue platform s t key).handed = s.handed := by
  obtain ⟨_, _, same⟩ := setValue_eq platform s t key
  rw [same]

@[simp] theorem setValue_callers : (setValue platform s t key).callers = s.callers := by
  obtain ⟨_, _, same⟩ := setValue_eq platform s t key
  rw [same]

theorem setValue_slot_none : (setValue platform s t none).slot = s.slot := by
  cases platform <;> rfl

theorem setValue_slot_other {u : T} (other : u ≠ t) :
    (setValue platform s t key).slot u = s.slot u := by
  cases key with
  | none => rw [setValue_slot_none]
  | some slot => exact Function.update_of_ne other _ _

theorem setValue_slot_own :
    ((setValue platform s t key).slot t).isSome ↔ key.isSome ∨ (s.slot t).isSome := by
  cases key with
  | none =>
    rw [setValue_slot_none]
    simp
  | some slot =>
    show (Function.update s.slot t (some slot) t).isSome ↔ _
    rw [Function.update_self]
    simp

end SetValue

/-- **The first call of a thread**, by the slot it is given. -/
theorem Slots.called {s s' : Process T} (slots : Slots platform supply s) {t : T} {key : Option Nat}
    (new : t ∉ s.callers) (thread : s'.thread = s.thread) (slot : s'.slot = s.slot)
    (tlsCaller : s'.tlsCaller = Function.update s.tlsCaller t true)
    (callers : s'.callers = s.callers ++ [t])
    (granted : key.isSome ↔ Slotted platform supply (s.callers ++ [t]) t)
    (kept : ∀ u, u ≠ t → (Slotted platform supply (s.callers ++ [t]) u ↔ Slotted platform supply s.callers u))
    (windows : platform = .windows → s'.handed = min supply (s.callers.length + 1))
    (posix : platform = .posix → ∃ made, s'.tlsKey = some made ∧ (made.isSome ↔ 0 < supply)) :
    Called platform supply s t (setValue platform s' t key) := by
  have slotless : ¬ (s.slot t).isSome := by
    rw [slots.slot t]
    intro slotted
    cases platform with
    | posix => exact new slotted.1
    | windows => exact new (List.mem_of_mem_take slotted)
  refine ⟨⟨fun u => ?_, fun u => ?_, fun system => ?_, fun system => ⟨fun none_ => ?_, ?_⟩⟩, ?_, ?_,
    fun u other => ⟨?_, ?_⟩⟩
  · rw [setValue_tlsCaller, setValue_callers, tlsCaller, callers, Function.update_apply, List.mem_append,
      List.mem_singleton]
    split
    · exact iff_of_true rfl (.inr ‹_›)
    · rw [slots.tlsCaller u]
      exact ⟨.inl, fun either => either.resolve_right ‹_›⟩
  · rw [setValue_callers, callers]
    by_cases own : u = t
    · rw [own, setValue_slot_own, slot, granted]
      exact or_iff_left slotless
    · rw [setValue_slot_other platform s' t key own, slot, slots.slot u]
      exact (kept u own).symm
  · rw [setValue_handed, setValue_callers, callers, windows system, List.length_append,
      List.length_singleton]
  · obtain ⟨made, some_, _⟩ := posix system
    rw [setValue_tlsKey, some_] at none_
    cases none_
  · obtain ⟨made, some_, positive⟩ := posix system
    rw [setValue_tlsKey, some_]
    rintro _ ⟨⟩
    exact positive
  · rw [setValue_thread, thread]
  · rw [setValue_callers, callers]
    exact List.mem_append_right _ List.mem_cons_self
  · rw [setValue_callers, callers, List.mem_append, List.mem_singleton]
    exact or_iff_left other
  · rw [setValue_slot_other platform s' t key other, slot]

theorem Slots.threadAtexit {s : Process T} (slots : Slots platform supply s) (t : T) :
    Called platform supply s t (s.threadAtexit platform supply t) := by
  unfold Process.threadAtexit
  cases platform with
  | posix =>
    obtain ⟨key, handed, some_, eq⟩ := slots.createTlsKey
    simp only
    rw [eq]
    split
    · refine ⟨⟨slots.tlsCaller, slots.slot, nofun, fun _ => ⟨nofun, ?_⟩⟩, rfl,
        (slots.tlsCaller t).mp ‹_›, fun u _ => ⟨Iff.rfl, rfl⟩⟩
      rintro _ ⟨⟩
      exact some_
    · have new : t ∉ s.callers := fun member => ‹¬ _› ((slots.tlsCaller t).mpr member)
      refine slots.called new rfl rfl rfl rfl ?_ (fun u other => ?_) nofun fun _ => ⟨key, rfl, some_⟩
      · show key.isSome ↔ _ ∧ _
        rw [some_]
        simp
      · show _ ∧ _ ↔ _ ∧ _
        simp [other]
  | windows =>
    have handed := slots.windows rfl
    simp only
    split
    · exact ⟨slots, rfl, (slots.tlsCaller t).mp ‹_›, fun u _ => ⟨Iff.rfl, rfl⟩⟩
    · have new : t ∉ s.callers := fun member => ‹¬ _› ((slots.tlsCaller t).mpr member)
      unfold handOut
      split
      · have room : s.handed < supply := ‹_›
        have short : s.callers.length < supply := by omega
        have all : (s.callers ++ [t]).take supply = s.callers ++ [t] :=
          List.take_of_length_le (by rw [List.length_append, List.length_singleton]; omega)
        refine slots.called new rfl rfl rfl rfl ?_ (fun u other => ?_) (fun _ => ?_) nofun
        · show true = true ↔ t ∈ (s.callers ++ [t]).take supply
          rw [all]
          simp
        · show u ∈ (s.callers ++ [t]).take supply ↔ u ∈ s.callers.take supply
          rw [all, List.take_of_length_le (Nat.le_of_lt short)]
          simp [other]
        · show s.handed + 1 = _
          omega
      · have full : ¬ s.handed < supply := ‹_›
        have long : supply ≤ s.callers.length := by omega
        have same : (s.callers ++ [t]).take supply = s.callers.take supply :=
          List.take_append_of_le_length long
        refine slots.called new rfl rfl rfl rfl ?_ (fun u other => ?_) (fun _ => ?_) nofun
        · show false = true ↔ t ∈ (s.callers ++ [t]).take supply
          rw [same]
          exact iff_of_false Bool.false_ne_true fun member => new (List.mem_of_mem_take member)
        · show u ∈ (s.callers ++ [t]).take supply ↔ u ∈ s.callers.take supply
          rw [same]
        · show s.handed = _
          omega

end Process

/-! ### The threads -/

def Uninvoked (log : List Event) : Prop := ∀ n f, .invoked n f ∉ log

/-- A callback was registered. -/
def Registered (log : List Event) : Prop := ∃ n f, .registered n f ∈ log

/-- What a thread stands for, with its slot and whether it has called `thread_atexit`. -/
inductive Stands (s : State) (slot : Option Nat) (called : Prop) : Prop
  | life (ops : List Op) (pending : List Nat) (control : s.control = .life ops) (inv : Inv s pending)
      (quiet : Uninvoked s.log) (known : Registered s.log → called)
  | unwinding (pending : List Nat) (inv : Inv s pending) (past : ∀ ops, s.control ≠ .life ops)
      (slotted : slot.isSome)
  /-- The thread ended, and the system did not know of its caller. -/
  | lost (ended : s.control = .ended) (slotless : slot = none) (quiet : Uninvoked s.log)
      (known : Registered s.log → called)

theorem State.use_log (s : State) : ∃ new, s.use.log = new ++ s.log ∧ Uninvoked new ∧
    (Registered new → s.sPool = none) := by
  cases cached : s.sPool with
  | some pool =>
    rw [State.use_cached cached]
    exact ⟨[_], rfl, by simp [Uninvoked], by simp [Registered]⟩
  | none =>
    rw [State.use_first cached]
    exact ⟨[_, _], rfl, by simp [Uninvoked], fun _ => rfl⟩

/-- What a call adds to the log. -/
theorem State.exec_log (s : State) (op : Op) : ∃ new, (s.exec op).log = new ++ s.log ∧
    Uninvoked new ∧ (Registered new → s.registers op = true) := by
  have use : ∃ new, s.use.log = new ++ s.log ∧ Uninvoked new ∧
      (Registered new → s.sPool.isNone = true) := by
    obtain ⟨new, log, quiet, known⟩ := s.use_log
    exact ⟨new, log, quiet, fun some_ => Option.isNone_iff_eq_none.mpr (known some_)⟩
  match op with
  | .alloc => exact use
  | .free false => exact use
  | .free true => exact ⟨[], rfl, by simp [Uninvoked], by simp [Registered]⟩
  | .atexit none => exact ⟨[_], rfl, by simp [Uninvoked], fun _ => rfl⟩
  | .atexit (some ops) => exact ⟨[_], rfl, by simp [Uninvoked], fun _ => rfl⟩

/-- A thread in its life makes a call. -/
theorem Stands.exec {s : State} {op : Op} {ops : List Op} {pending : List Nat}
    {slot : Option Nat} {called : Prop} (control : s.control = .life (op :: ops)) (inv : Inv s pending)
    (quiet : Uninvoked s.log) (known : Registered s.log ∨ s.registers op = true → called) :
    Stands { s.exec op with control := .life ops } slot called := by
  have active : s.control.Active := by rw [control]; trivial
  obtain ⟨more, after, same, _⟩ := inv.exec active op
  obtain ⟨new, log, unseen, fresh⟩ := s.exec_log op
  refine .life ops (more ++ pending) rfl
    (after.goOn (.inl ⟨ops, rfl, op :: ops, by rw [same, control]⟩)) (fun n f member => ?_) ?_
  · have both : .invoked n f ∈ new ++ s.log := log ▸ member
    rcases List.mem_append.mp both with added | old
    · exact unseen n f added
    · exact quiet n f old
  · rintro ⟨n, f, member⟩
    have both : .registered n f ∈ new ++ s.log := log ▸ member
    rcases List.mem_append.mp both with added | old
    · exact known (.inr (fresh ⟨n, f, added⟩))
    · exact known (.inl ⟨n, f, old⟩)

/-- A thread past its life stays past it. -/
theorem State.step_past {s s' : State} (next : s.step = some s') (past : ∀ ops, s.control ≠ .life ops) :
    ∀ ops, s'.control ≠ .life ops := by
  unfold State.step at next
  cases control : s.control with
  | life ops => exact absurd control (past ops)
  | ended => simp [control] at next
  | testing =>
    simp only [control] at next
    split at next <;> cases next <;> exact nofun
  | calling cb =>
    simp only [control] at next
    split at next <;> cases next <;> exact nofun
  | running cb ops =>
    cases ops <;> simp only [control] at next <;> cases next <;> exact nofun
  | deleting cb =>
    simp only [control] at next
    cases next
    exact nofun

/-- **Where every thread stands.** -/
structure Process.Holds (platform : Platform) (supply : Nat) (s : Process T) : Prop where
  slots : s.Slots platform supply
  stands : ∀ t, Stands (s.thread t) (s.slot t) (t ∈ s.callers)

theorem Process.Holds.start (program : T → List Op) :
    (Process.start program).Holds platform supply := by
  refine ⟨.start program, fun t => .life (program t) [] rfl (.start (program t)) nofun ?_⟩
  rintro ⟨n, f, member⟩
  exact absurd member List.not_mem_nil

/-- A step of one thread that leaves the slots alone. -/
theorem Process.Holds.put {s : Process T} (holds : s.Holds platform supply) {t : T} {thread : State}
    (stands : Stands thread (s.slot t) (t ∈ s.callers)) : (s.put t thread).Holds platform supply := by
  refine ⟨{ holds.slots with }, fun u => ?_⟩
  show Stands (Function.update s.thread t thread u) (s.slot u) (u ∈ s.callers)
  by_cases own : u = t
  · subst own
    rw [Function.update_self]
    exact stands
  · rw [Function.update_of_ne own]
    exact holds.stands u

/-- **Every step keeps it.** -/
theorem Process.Holds.step {s s' : Process T} {t : T} (holds : s.Holds platform supply)
    (next : s.step platform supply t = some s') : s'.Holds platform supply := by
  unfold Process.step at next
  cases holds.stands t with
  | life ops pending control inv quiet known =>
    cases ops with
    | nil =>
      simp only [control] at next
      split at next
      · obtain ⟨thread, ran, rfl⟩ := Option.map_eq_some_iff.mp next
        obtain ⟨thread', pending', ran', after, _⟩ := inv.step (by rw [control]; nofun)
        rw [ran] at ran'
        cases ran'
        have testing : thread.control = .testing := by
          unfold State.step at ran
          rw [control] at ran
          cases ran
          rfl
        exact holds.put (.unwinding pending' after (by rw [testing]; nofun) ‹_›)
      · cases next
        exact holds.put (.lost rfl (Option.not_isSome_iff_eq_none.mp ‹_›) quiet known)
    | cons op ops =>
      simp only [control] at next
      obtain ⟨thread, ran, rfl⟩ := Option.map_eq_some_iff.mp next
      have made : thread = { (s.thread t).exec op with control := .life ops } := by
        unfold State.step at ran
        rw [control] at ran
        cases ran
        rfl
      subst made
      split
      · have called := holds.slots.threadAtexit t
        refine Process.Holds.put ⟨called.slots, fun u => ?_⟩
          (.exec control inv quiet fun _ => called.caller)
        rw [called.thread]
        by_cases own : u = t
        · subst own
          exact .life _ pending control inv quiet fun _ => called.caller
        · rw [(called.others u own).2, (called.others u own).1]
          exact holds.stands u
      · exact holds.put (.exec control inv quiet fun either =>
          either.elim known fun bad => absurd bad ‹_›)
  | unwinding pending inv past slotted =>
    have alone : (s.thread t).step.map (s.put t) = some s' := by
      cases control : (s.thread t).control with
      | life ops => exact absurd control (past ops)
      | _ => simpa only [control] using next
    obtain ⟨thread, ran, rfl⟩ := Option.map_eq_some_iff.mp alone
    have running : (s.thread t).control ≠ .ended := by
      intro ended
      unfold State.step at ran
      rw [ended] at ran
      cases ran
    obtain ⟨thread', pending', ran', after, _⟩ := inv.step running
    rw [ran] at ran'
    cases ran'
    exact holds.put (.unwinding pending' after (State.step_past ran past) slotted)
  | lost ended slotless quiet known =>
    rw [ended] at next
    unfold State.step at next
    rw [ended] at next
    cases next

/-- **A thread comes to its end**, whatever the others are at. -/
theorem Process.Holds.ends {t : T} (program : T → List Op) (k : Nat) {s : Process T}
    {pending : List Nat} (holds : s.Holds platform supply) (inv : Inv (s.thread t) pending)
    (bound : controlWeight (s.thread t) + queueWeight (s.thread t) pending ≤ k) :
    ∃ n s', (machine platform supply program).Exec Machine.anyStep s (List.replicate n t) s' ∧
      (s'.thread t).control = .ended := by
  induction k generalizing s pending with
  | zero =>
    by_cases ended : (s.thread t).control = .ended
    · exact ⟨0, s, .nil s, ended⟩
    · obtain ⟨_, _, _, _, less⟩ := inv.step ended
      omega
  | succ k ih =>
    by_cases ended : (s.thread t).control = .ended
    · exact ⟨0, s, .nil s, ended⟩
    obtain ⟨thread, pending', ran, after, less⟩ := inv.step ended
    -- with a slot, or before its end, the thread steps as it does alone
    have alone : ∀ base : Process T, s.step platform supply t = some (base.put t thread) →
        ∃ n s', (machine platform supply program).Exec Machine.anyStep s (List.replicate n t) s' ∧
          (s'.thread t).control = .ended := by
      intro base next
      have here : (base.put t thread).thread t = thread := Function.update_self ..
      obtain ⟨n, last, run, ended⟩ := ih (holds.step next) (here.symm ▸ after) (by rw [here]; omega)
      exact ⟨n + 1, last, .cons trivial next run, ended⟩
    have stepped : ∀ base : Process T, (s.thread t).step.map (base.put t) = some (base.put t thread) :=
      fun base => by rw [ran]; rfl
    cases control : (s.thread t).control with
    | life ops =>
      cases ops with
      | nil =>
        by_cases slotted : (s.slot t).isSome
        · refine alone s ?_
          unfold Process.step
          rw [control]
          simp only [slotted, if_true]
          exact stepped s
        · have next : s.step platform supply t =
              some (s.put t { s.thread t with control := .ended }) := by
            unfold Process.step
            rw [control]
            simp only [slotted, if_false, Bool.false_eq_true]
          exact ⟨1, _, .cons trivial next (.nil _), by simp [Process.put]⟩
      | cons op ops =>
        refine alone (if (s.thread t).registers op then s.threadAtexit platform supply t else s) ?_
        unfold Process.step
        rw [control]
        exact stepped _
    | ended => exact absurd control ended
    | _ =>
      refine alone s ?_
      unfold Process.step
      rw [control]
      exact stepped s

/-! ### The result -/

/-- Every callback that was registered was invoked, and has returned. -/
def CallbacksRun (s : State) : Prop :=
  ∀ n f, .registered n f ∈ s.log → .invoked n f ∈ s.log ∧ .returned n ∈ s.log

/-- Of a thread that is over, the callbacks have been run if and only if it registered none or has a
slot. -/
theorem Process.Holds.callbacksRun_iff {s : Process T} (holds : s.Holds platform supply) {t : T}
    (ended : (s.thread t).control = .ended) :
    CallbacksRun (s.thread t) ↔
      (Registered (s.thread t).log → Slotted platform supply s.callers t) := by
  rw [← holds.slots.slot t]
  cases holds.stands t with
  | life ops pending control =>
    rw [ended] at control
    cases control
  | unwinding pending inv past slotted =>
    refine ⟨fun _ _ => slotted, fun _ n f member => ?_⟩
    obtain ⟨invoked, returned, _⟩ := (inv.unwound ended).all n f member
    exact ⟨invoked, returned⟩
  | lost _ slotless quiet known =>
    rw [slotless]
    constructor
    · rintro run ⟨n, f, member⟩
      exact absurd (run n f member).1 (quiet n f)
    · intro none_ n f member
      exact absurd (none_ ⟨n, f, member⟩) (by simp)

/-- The thread has come to its end. -/
def Control.isEnded : Control → Bool
  | .ended => true
  | _ => false

theorem Control.isEnded_iff {control : Control} : control.isEnded = true ↔ control = .ended := by
  cases control <;> simp [Control.isEnded]

/-- **Thread-exit callbacks.** In every run of any number of threads, every thread that is over has had
its callbacks run if and only if all those that registered any are among those the system had a slot
for; and every thread can come to its end. -/
theorem callbacks_run_iff (platform : Platform) (supply : Nat) (program : T → List Op) {acts : List T}
    {s : Process T}
    (run : (Process.machine platform supply program).Exec Machine.anyStep (.start program) acts s) :
    ((∀ t, (s.thread t).control = .ended → CallbacksRun (s.thread t)) ↔
      ∀ t, (s.thread t).control = .ended → Registered (s.thread t).log →
        Slotted platform supply s.callers t) ∧
    ∀ t, ∃ n s', (Process.machine platform supply program).Exec Machine.anyStep s
      (List.replicate n t) s' ∧ (s'.thread t).control = .ended := by
  have holds : s.Holds platform supply :=
    run.preserves (fun _ _ _ holds _ next => holds.step next) (.start program)
  refine ⟨forall_congr' fun t => forall_congr' fun ended => holds.callbacksRun_iff ended, fun t => ?_⟩
  cases holds.stands t with
  | life ops pending control inv => exact holds.ends program _ inv (Nat.le_refl _)
  | unwinding pending inv => exact holds.ends program _ inv (Nat.le_refl _)
  | lost ended => exact ⟨0, s, .nil s, ended⟩

/-- Two threads that register one callback each. -/
def twoCallbacks : Bool → List Op := fun _ => [.atexit (some [])]

/-- The first registers, the second registers and exits, the first exits. -/
def twoActs : List Bool := false :: List.replicate 7 true ++ List.replicate 6 false

/-- On a system with two indices, and on one with two keys, both have their callbacks run. -/
theorem callbacks_run_iff_two :
    (∃ s, (Process.machine .windows 2 twoCallbacks).Exec Machine.anyStep (.start twoCallbacks) twoActs s ∧
      s.callers = [false, true] ∧ ∀ t, (s.thread t).control = .ended ∧ CallbacksRun (s.thread t)) ∧
    ∃ s, (Process.machine .posix 2 twoCallbacks).Exec Machine.anyStep (.start twoCallbacks) twoActs s ∧
      s.callers = [false, true] ∧ ∀ t, (s.thread t).control = .ended ∧ CallbacksRun (s.thread t) := by
  have both : ∀ platform, ∃ s, (Process.machine platform 2 twoCallbacks).Exec Machine.anyStep
      (.start twoCallbacks) twoActs s ∧ s.callers = [false, true] ∧
      ∀ t, (s.thread t).control = .ended ∧ CallbacksRun (s.thread t) := by
    intro platform
    have reached : ((Process.machine platform 2 twoCallbacks).runFrom Machine.anyStep
        (.start twoCallbacks) twoActs).map (fun s =>
          (s.callers, (s.thread false).control.isEnded, (s.thread true).control.isEnded))
        = some ([false, true], true, true) := by
      cases platform <;> decide +kernel
    obtain ⟨s, found, seen⟩ := Option.map_eq_some_iff.mp reached
    have run := Machine.exec_of_runFrom found
    obtain ⟨callers, first, second⟩ := by simpa using seen
    have ended : ∀ t, (s.thread t).control = .ended := by
      intro t
      cases t
      · exact Control.isEnded_iff.mp first
      · exact Control.isEnded_iff.mp second
    refine ⟨s, run, callers, fun t => ⟨ended t, ?_⟩⟩
    refine (callbacks_run_iff platform 2 _ run).1.mpr (fun t _ _ => ?_) t (ended t)
    unfold Slotted
    rw [callers]
    cases platform <;> cases t <;> decide
  exact ⟨both .windows, both .posix⟩

/-- Threads that register one callback each. -/
def oneCallback : Nat → List Op := fun _ => [.atexit (some [])]

/-- **On Windows the second thread goes without**, when the system has one index: it registers its
callback, it ends, and the callback is not invoked. -/
theorem callback_lost : ∃ s : Process Nat,
    (Process.machine .windows 1 oneCallback).Exec Machine.anyStep (.start oneCallback) [0, 1, 1] s ∧
    (s.thread 1).control = .ended ∧ ¬ CallbacksRun (s.thread 1) := by
  refine ⟨_, Machine.exec_of_runFrom rfl, rfl, fun run => ?_⟩
  have invoked := (run 0 (.user []) List.mem_cons_self).1
  rcases List.mem_cons.mp invoked with bad | bad
  · cases bad
  · cases bad

end NpAlloc.AtExit
