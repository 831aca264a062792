/-
**One global pool, whoever creates it.**

Before `del_global_pool` runs, every pool that was constructed is in exactly one place (`Place`): it is
published, or the candidate of one thread between its construction and its disposal, or destroyed. The
registration with `atexit` is, from the publication on, in one place as well: the publishing thread has
it to do, or it is done.

* `Inv.follows`: every step keeps the invariant `Inv`;
* `Exec.returns`: a thread that takes as many steps as its call has left returns, whatever the others do;
* **`singleton_creation`**: one pool is published, every call returns it, every other is destroyed once
  and was never returned or used, and `del_global_pool` is registered once.
-/

import NpAlloc.General.Custody
import NpAlloc.GlobalPool.Model

set_option linter.unusedSectionVars false

namespace NpAlloc.GlobalPool

variable {T : Type} [DecidableEq T]

/-- The candidate a thread has constructed and neither published nor disposed of. -/
def Pc.candidate : Pc → Option Nat
  | .installing newPool => some newPool
  | .disposing _ newPool => some newPool
  | _ => none

/-- The pointer a thread has read from `g_pool`, or put there. -/
def Pc.known : Pc → Option (Option Nat)
  | .registering newPool => some (some newPool)
  | .disposing ptr _ => some ptr
  | .returning ptr => some ptr
  | _ => none

/-- The thread has `std::atexit` to call. -/
def Pc.Registers : Pc → Prop
  | .registering _ => True
  | _ => False

/-- Where a pool is. -/
inductive Place (T : Type)
  | published
  | held (t : T)
  | destroyed

/-- Where the registration is. -/
inductive Duty (T : Type)
  | pending (t : T)
  | done

namespace State

/-- The pool is in this place. -/
def At (s : State T) (pool : Nat) : Place T → Prop
  | .published => s.gPool = some pool
  | .held t => (s.pc t).candidate = some pool
  | .destroyed => .destroyed pool ∈ s.log

/-- The registration, when there is one to make, is in this place. -/
def DutyAt (s : State T) (_ : Unit) : Duty T → Prop
  | .pending t => (s.pc t).Registers
  | .done => .registered ∈ s.log

end State

/-- What the log says about the pools and the registration. -/
structure Logged (s : State T) : Prop where
  constructed : ∀ pool, s.log.count (.constructed pool) = if pool < s.built then 1 else 0
  published : ∀ pool, s.gPool = some pool → s.log.count (.published pool) = 1
  unpublished : ∀ pool, s.gPool ≠ some pool → .published pool ∉ s.log
  destroyed : ∀ pool, s.log.count (.destroyed pool) ≤ 1
  registered : s.log.count .registered ≤ 1
  returned : ∀ t ptr, .returned t ptr ∈ s.log → ptr = s.gPool ∧ ptr ≠ none
  used : ∀ pool, .used pool ∈ s.log → s.gPool = some pool

/-- **The invariant.** -/
structure Inv (s : State T) : Prop where
  pools : Located (· < s.built) s.At
  duty : Located (fun _ => s.gPool ≠ none) s.DutyAt
  known : ∀ t ptr, (s.pc t).known = some ptr → ptr = s.gPool ∧ ptr ≠ none
  logged : Logged s

/-! ### What a step can do -/

/-- **The steps before `del_global_pool` runs.** -/
inductive Follows (s : State T) : State T → Prop
  | call (t : T) (here : s.pc t = .idle) : Follows s (s.goto t .loading)
  | loadNull (t : T) (here : s.pc t = .loading) (null : s.gPool = none) :
      Follows s (s.goto t .constructing)
  | loadPool (t : T) (ptr : Nat) (here : s.pc t = .loading) (there : s.gPool = some ptr) :
      Follows s (s.goto t (.returning (some ptr)))
  | construct (t : T) (here : s.pc t = .constructing) :
      Follows s { (s.goto t (.installing s.built)).record (.constructed s.built) with
        built := s.built + 1 }
  | publish (t : T) (newPool : Nat) (here : s.pc t = .installing newPool) (null : s.gPool = none) :
      Follows s { (s.goto t (.registering newPool)).record (.published newPool) with
        gPool := some newPool }
  | lose (t : T) (newPool ptr : Nat) (here : s.pc t = .installing newPool)
      (there : s.gPool = some ptr) : Follows s (s.goto t (.disposing (some ptr) newPool))
  | register (t : T) (newPool : Nat) (here : s.pc t = .registering newPool) :
      Follows s { (s.goto t (.returning (some newPool))).record .registered with
        handlers := s.handlers + 1 }
  | dispose (t : T) (ptr : Option Nat) (newPool : Nat) (here : s.pc t = .disposing ptr newPool) :
      Follows s ((s.goto t (.returning ptr)).record (.destroyed newPool))
  | ret (t : T) (ptr : Option Nat) (here : s.pc t = .returning ptr) :
      Follows s ((s.goto t .idle).record (.returned t ptr))
  | use (t : T) (pool : Nat) (handed : .returned t (some pool) ∈ s.log) :
      Follows s (s.record (.used pool))

theorem Follows.of_run {s s' : State T} {t : T} (ran : s.run t = some s') : Follows s s' := by
  unfold State.run at ran
  cases here : s.pc t with
  | idle => simp [here] at ran
  | loading =>
    cases there : s.gPool with
    | none =>
      simp only [here, there, Option.some.injEq] at ran
      exact ran ▸ .loadNull t here there
    | some ptr =>
      simp only [here, there, Option.some.injEq] at ran
      exact ran ▸ .loadPool t ptr here there
  | constructing =>
    simp only [here, Option.some.injEq] at ran
    exact ran ▸ .construct t here
  | installing newPool =>
    cases there : s.gPool with
    | none =>
      simp only [here, there, Option.some.injEq] at ran
      exact ran ▸ .publish t newPool here there
    | some ptr =>
      simp only [here, there, Option.some.injEq] at ran
      exact ran ▸ .lose t newPool ptr here there
  | registering newPool =>
    simp only [here, Option.some.injEq] at ran
    exact ran ▸ .register t newPool here
  | disposing ptr newPool =>
    simp only [here, Option.some.injEq] at ran
    exact ran ▸ .dispose t ptr newPool here
  | returning ptr =>
    simp only [here, Option.some.injEq] at ran
    exact ran ▸ .ret t ptr here

theorem Follows.of_step {s s' : State T} {act : Act T} (before : BeforeDeletion s act)
    (next : s.step act = some s') : Follows s s' := by
  cases act with
  | call t =>
    obtain ⟨here, ran⟩ := Option.ite_none_right_eq_some.mp next
    cases ran
    exact .call t here
  | run t => exact .of_run next
  | use pool =>
    obtain ⟨handed, ran⟩ := Option.ite_none_right_eq_some.mp next
    cases ran
    obtain ⟨e, member, which⟩ := List.mem_filterMap.mp handed
    cases e with
    | returned t ptr =>
      cases which
      exact .use t pool member
    | _ => cases which
  | exchange => exact absurd rfl before.1
  | destroy => exact absurd rfl before.2

/-! ### Every step keeps the invariant -/

theorem Inv.start : Inv (.start T) := by
  refine ⟨⟨fun pool place here => ?_, fun pool issued => absurd issued (Nat.not_lt_zero pool),
    fun pool place place' here => ?_⟩, ⟨fun _ place here => ?_, fun _ issued => absurd rfl issued,
    fun _ place place' here => ?_⟩, fun t ptr knows => ?_, ?_⟩
  · cases place <;> simp [State.At, State.start, Pc.candidate] at here
  · cases place <;> simp [State.At, State.start, Pc.candidate] at here
  · cases place <;> simp [State.DutyAt, State.start, Pc.Registers] at here
  · cases place <;> simp [State.DutyAt, State.start, Pc.Registers] at here
  · cases knows
  · constructor <;> simp [State.start]

/-- What holds where the threads stand after one of them has moved. -/
theorem goto_iff {s : State T} {t u : T} {pc : Pc} (P : Pc → Prop) :
    P (Function.update s.pc t pc u) ↔ u = t ∧ P pc ∨ u ≠ t ∧ P (s.pc u) := by
  rw [Function.update_apply]
  split
  · simp_all
  · simp_all

/-- **A step that only moves a thread on**, to a place with the same candidate and the same duty. -/
theorem Inv.goto {s : State T} (inv : Inv s) {t : T} {pc : Pc}
    (candidate : pc.candidate = (s.pc t).candidate) (duty : pc.Registers ↔ (s.pc t).Registers)
    (known : ∀ ptr, pc.known = some ptr → ptr = s.gPool ∧ ptr ≠ none) : Inv (s.goto t pc) := by
  refine ⟨?_, ?_, fun u ptr knows => ?_, { inv.logged with }⟩
  · refine inv.pools.congr (fun _ => Iff.rfl) fun pool place => ?_
    cases place with
    | held u =>
      refine (goto_iff fun pc => pc.candidate = some pool).trans ?_
      rw [candidate]
      constructor
      · rintro (⟨rfl, here⟩ | ⟨_, here⟩) <;> exact here
      · intro here
        by_cases own : u = t
        · exact .inl ⟨own, own ▸ here⟩
        · exact .inr ⟨own, here⟩
    | _ => exact Iff.rfl
  · refine inv.duty.congr (fun _ => Iff.rfl) fun _ place => ?_
    cases place with
    | pending u =>
      refine (goto_iff Pc.Registers).trans ?_
      rw [duty]
      constructor
      · rintro (⟨rfl, here⟩ | ⟨_, here⟩) <;> exact here
      · intro here
        by_cases own : u = t
        · exact .inl ⟨own, own ▸ here⟩
        · exact .inr ⟨own, here⟩
    | done => exact Iff.rfl
  · rcases (goto_iff fun pc => pc.known = some ptr).mp knows with ⟨_, new⟩ | ⟨_, old⟩
    · exact known ptr new
    · exact inv.known u ptr old

section Steps

variable {s : State T} (inv : Inv s) {t : T}
include inv

theorem Inv.construct (here : s.pc t = .constructing) :
    Inv { (s.goto t (.installing s.built)).record (.constructed s.built) with
      built := s.built + 1 } := by
  have logged := inv.logged
  refine ⟨?_, ?_, fun u ptr knows => ?_, ?_⟩
  · refine inv.pools.issue (a := s.built) (q := .held t) (Nat.lt_irrefl _)
      (fun b => ?_) fun pool place => ?_
    · show b < s.built + 1 ↔ _
      omega
    cases place with
    | held u =>
      refine (goto_iff fun pc => pc.candidate = some pool).trans ?_
      simp only [Pc.candidate, State.At]
      grind [Pc.candidate]
    | _ => simp [State.At, State.goto, State.record]
  · refine inv.duty.congr (fun _ => Iff.rfl) fun _ place => ?_
    cases place with
    | pending u =>
      refine (goto_iff Pc.Registers).trans ?_
      simp only [Pc.Registers, State.DutyAt]
      grind [Pc.Registers]
    | done => simp [State.DutyAt, State.goto, State.record]
  · rcases (goto_iff fun pc => pc.known = some ptr).mp knows with ⟨_, new⟩ | ⟨_, old⟩
    · cases new
    · exact inv.known u ptr old
  · constructor
    case constructed =>
      intro pool
      simp only [State.record, State.goto, List.count_cons, logged.constructed]
      grind
    all_goals simp only [State.record, State.goto, List.count_cons, List.mem_cons]
    all_goals grind [Logged]

theorem Inv.publish {newPool : Nat} (here : s.pc t = .installing newPool) (null : s.gPool = none) :
    Inv { (s.goto t (.registering newPool)).record (.published newPool) with
      gPool := some newPool } := by
  have logged := inv.logged
  have held : s.At newPool (.held t) := by
    show (s.pc t).candidate = some newPool
    rw [here]
    rfl
  have undone : ∀ place, ¬ s.DutyAt () place := fun place there => inv.duty.only () place there null
  refine ⟨?_, ?_, fun u ptr knows => ?_, ?_⟩
  · refine inv.pools.move (q := .published) held (fun _ => Iff.rfl) fun pool place => ?_
    cases place with
    | held u =>
      refine (goto_iff fun pc => pc.candidate = some pool).trans ?_
      have alone := inv.pools.one pool (.held u) (.held t)
      simp only [Pc.candidate, State.At] at alone ⊢
      grind [Pc.candidate]
    | published =>
      simp [State.At, null, eq_comm]
    | destroyed =>
      have absent : .destroyed newPool ∉ s.log := fun there =>
        nomatch inv.pools.one newPool (.held t) .destroyed held there
      simp only [State.At, State.goto, State.record, List.mem_cons]
      grind
  · refine inv.duty.issue (a := ()) (q := .pending t) (fun issued => issued null)
      (fun _ => by simp) fun _ place => ?_
    cases place with
    | pending u =>
      refine (goto_iff Pc.Registers).trans ?_
      have old := undone (.pending u)
      simp only [Pc.Registers, State.DutyAt] at old ⊢
      grind
    | done => simp [State.DutyAt, State.goto, State.record]
  · rcases (goto_iff fun pc => pc.known = some ptr).mp knows with ⟨_, new⟩ | ⟨_, old⟩
    · cases new
      exact ⟨rfl, Option.some_ne_none _⟩
    · exact absurd ((inv.known u ptr old).1.trans null) (inv.known u ptr old).2
  · constructor
    all_goals simp only [State.record, State.goto, List.count_cons, List.mem_cons]
    all_goals grind [Logged]

theorem Inv.register {newPool : Nat} (here : s.pc t = .registering newPool) :
    Inv { (s.goto t (.returning (some newPool))).record .registered with
      handlers := s.handlers + 1 } := by
  have logged := inv.logged
  have pending : s.DutyAt () (.pending t) := by
    show (s.pc t).Registers
    rw [here]
    trivial
  have unregistered : .registered ∉ s.log := fun there =>
    nomatch inv.duty.one () (.pending t) .done pending there
  refine ⟨?_, ?_, fun u ptr knows => ?_, ?_⟩
  · refine inv.pools.congr (fun _ => Iff.rfl) fun pool place => ?_
    cases place with
    | held u =>
      refine (goto_iff fun pc => pc.candidate = some pool).trans ?_
      simp only [Pc.candidate, State.At]
      grind [Pc.candidate]
    | _ => simp [State.At, State.goto, State.record]
  · refine inv.duty.move (q := .done) pending (fun _ => Iff.rfl) fun _ place => ?_
    cases place with
    | pending u =>
      refine (goto_iff Pc.Registers).trans ?_
      have alone := inv.duty.one () (.pending u) (.pending t)
      simp only [Pc.Registers, State.DutyAt] at alone pending ⊢
      grind
    | done => simp [State.DutyAt, State.goto, State.record]
  · rcases (goto_iff fun pc => pc.known = some ptr).mp knows with ⟨_, new⟩ | ⟨_, old⟩
    · cases new
      exact inv.known t (some newPool) (by rw [here]; rfl)
    · exact inv.known u ptr old
  · constructor
    all_goals simp only [State.record, State.goto, List.count_cons, List.mem_cons]
    all_goals grind [Logged]

theorem Inv.dispose {ptr : Option Nat} {newPool : Nat} (here : s.pc t = .disposing ptr newPool) :
    Inv ((s.goto t (.returning ptr)).record (.destroyed newPool)) := by
  have logged := inv.logged
  have held : s.At newPool (.held t) := by
    show (s.pc t).candidate = some newPool
    rw [here]
    rfl
  have absent : .destroyed newPool ∉ s.log := fun there =>
    nomatch inv.pools.one newPool (.held t) .destroyed held there
  refine ⟨?_, ?_, fun u ptr' knows => ?_, ?_⟩
  · refine inv.pools.move (q := .destroyed) held (fun _ => Iff.rfl) fun pool place => ?_
    cases place with
    | held u =>
      refine (goto_iff fun pc => pc.candidate = some pool).trans ?_
      have alone := inv.pools.one pool (.held u) (.held t)
      simp only [Pc.candidate, State.At] at alone ⊢
      grind [Pc.candidate]
    | published =>
      have private' : s.gPool ≠ some newPool := fun there =>
        nomatch inv.pools.one newPool (.held t) .published held there
      simp only [State.At, State.goto, State.record]
      grind
    | destroyed =>
      simp only [State.At, State.goto, State.record, List.mem_cons]
      grind
  · refine inv.duty.congr (fun _ => Iff.rfl) fun _ place => ?_
    cases place with
    | pending u =>
      refine (goto_iff Pc.Registers).trans ?_
      simp only [Pc.Registers, State.DutyAt]
      grind [Pc.Registers]
    | done => simp [State.DutyAt, State.goto, State.record]
  · rcases (goto_iff fun pc => pc.known = some ptr').mp knows with ⟨_, new⟩ | ⟨_, old⟩
    · cases new
      exact inv.known t ptr (by rw [here]; rfl)
    · exact inv.known u ptr' old
  · have none := List.count_eq_zero.mpr absent
    constructor
    all_goals simp only [State.record, State.goto, List.count_cons, List.mem_cons]
    all_goals grind [Logged]

/-- **A return, or a use, of the published pool.** -/
theorem Inv.record (e : Event T)
    (kind : (∃ u ptr, e = .returned u ptr ∧ ptr = s.gPool ∧ ptr ≠ none) ∨
      ∃ pool, e = .used pool ∧ s.gPool = some pool) : Inv (s.record e) := by
  have logged := inv.logged
  refine ⟨?_, ?_, inv.known, ?_⟩
  · refine inv.pools.congr (fun _ => Iff.rfl) fun pool place => ?_
    cases place with
    | destroyed =>
      simp only [State.At, State.record, List.mem_cons]
      grind
    | _ => exact Iff.rfl
  · refine inv.duty.congr (fun _ => Iff.rfl) fun _ place => ?_
    cases place with
    | pending u => exact Iff.rfl
    | done =>
      simp only [State.DutyAt, State.record, List.mem_cons]
      grind
  · constructor
    all_goals simp only [State.record, List.count_cons, List.mem_cons]
    all_goals grind [Logged]

/-- **Every step keeps the invariant.** -/
theorem Inv.follows {s' : State T} (next : Follows s s') : Inv s' := by
  cases next with
  | call t here => exact inv.goto (by rw [here]; rfl) (by rw [here]; rfl) (fun _ new => nomatch new)
  | loadNull t here null =>
    exact inv.goto (by rw [here]; rfl) (by rw [here]; rfl) (fun _ new => nomatch new)
  | loadPool t ptr here there =>
    refine inv.goto (by rw [here]; rfl) (by rw [here]; rfl) fun _ new => ?_
    cases new
    exact ⟨there.symm, Option.some_ne_none _⟩
  | construct t here => exact inv.construct here
  | publish t newPool here null => exact inv.publish here null
  | lose t newPool ptr here there =>
    refine inv.goto (by rw [here]; rfl) (by rw [here]; rfl) fun _ new => ?_
    cases new
    exact ⟨there.symm, Option.some_ne_none _⟩
  | register t newPool here => exact inv.register here
  | dispose t ptr newPool here => exact inv.dispose here
  | ret t ptr here =>
    have moved : Inv (s.goto t .idle) :=
      inv.goto (by rw [here]; rfl) (by rw [here]; rfl) fun _ new => nomatch new
    exact moved.record _ (.inl ⟨t, ptr, rfl, inv.known t ptr (by rw [here]; rfl)⟩)
  | use t pool handed =>
    exact inv.record _ (.inr ⟨pool, rfl, (inv.logged.returned t (some pool) handed).1.symm⟩)

end Steps

/-! ### Every call returns -/

/-- How many steps a call has to go, at most. -/
def Pc.left : Pc → Nat
  | .idle => 0
  | .loading => 5
  | .constructing => 4
  | .installing _ => 3
  | .registering _ | .disposing _ _ => 2
  | .returning _ => 1

/-- No call is ever blocked. -/
theorem run_enabled {s : State T} {t : T} (busy : s.pc t ≠ .idle) : ∃ s', s.run t = some s' := by
  unfold State.run
  cases here : s.pc t with
  | idle => exact absurd here busy
  | loading | installing newPool => cases s.gPool <;> exact ⟨_, rfl⟩
  | _ => exact ⟨_, rfl⟩

/-- A step of a call spends one of those it had left; the last one is the return. -/
theorem run_spends {s s' : State T} {t : T} (ran : s.run t = some s') :
    (s'.pc t).left < (s.pc t).left ∧ (s'.pc t = .idle → ∃ ptr, s'.log = .returned t ptr :: s.log) ∧
      s.log <:+ s'.log := by
  unfold State.run at ran
  cases here : s.pc t with
  | idle => simp [here] at ran
  | loading | installing newPool =>
    cases there : s.gPool <;> simp only [here, there, Option.some.injEq] at ran <;> subst ran <;>
      simp [State.goto, State.record, Pc.left]
  | _ =>
    simp only [here, Option.some.injEq] at ran
    subst ran
    simp [State.goto, State.record, Pc.left]

/-- The log only grows. -/
theorem step_grows {s s' : State T} {act : Act T} (next : s.step act = some s') :
    s.log <:+ s'.log := by
  cases act with
  | run t => exact (run_spends next).2.2
  | call t =>
    obtain ⟨_, ran⟩ := Option.ite_none_right_eq_some.mp next
    cases ran
    exact List.suffix_refl _
  | use pool =>
    obtain ⟨_, ran⟩ := Option.ite_none_right_eq_some.mp next
    cases ran
    exact List.suffix_cons _ _
  | exchange =>
    obtain ⟨_, ran⟩ := Option.ite_none_right_eq_some.mp next
    cases ran
    exact List.suffix_refl _
  | destroy =>
    obtain ⟨ptr, _, rfl⟩ := Option.map_eq_some_iff.mp next
    exact List.suffix_cons _ _

/-- What the others do leaves a call where it is. -/
theorem step_keeps {s s' : State T} {t : T} {act : Act T} (next : s.step act = some s')
    (other : act ≠ .run t) (busy : s.pc t ≠ .idle) : s'.pc t = s.pc t := by
  cases act with
  | call u =>
    obtain ⟨here, ran⟩ := Option.ite_none_right_eq_some.mp next
    cases ran
    have distinct : t ≠ u := fun same => busy (same ▸ here)
    exact Function.update_of_ne distinct _ _
  | run u =>
    have distinct : t ≠ u := fun same => other (same ▸ rfl)
    have ran : s.run u = some s' := next
    unfold State.run at ran
    cases here : s.pc u with
    | idle => simp [here] at ran
    | loading | installing newPool =>
      cases there : s.gPool <;> simp only [here, there, Option.some.injEq] at ran <;> subst ran <;>
        exact Function.update_of_ne distinct _ _
    | _ =>
      simp only [here, Option.some.injEq] at ran
      subst ran
      exact Function.update_of_ne distinct _ _
  | use pool | exchange =>
    obtain ⟨_, ran⟩ := Option.ite_none_right_eq_some.mp next
    cases ran
    rfl
  | destroy =>
    obtain ⟨ptr, _, rfl⟩ := Option.map_eq_some_iff.mp next
    rfl

variable {ok : State T → Act T → Prop}

theorem Exec.grows {s s' : State T} {acts : List (Act T)} (run : (machine T).Exec ok s acts s') :
    s.log <:+ s'.log := by
  induction run with
  | nil => exact List.suffix_refl _
  | cons _ next _ ih => exact (step_grows next).trans ih

/-- **A call returns** within the steps it has left, whatever the others do in between. -/
theorem Exec.returns {s s' : State T} {acts : List (Act T)} {t : T}
    (run : (machine T).Exec ok s acts s') (busy : s.pc t ≠ .idle)
    (enough : (s.pc t).left ≤ acts.count (.run t)) :
    ∃ ptr, (.returned t ptr :: s.log).Sublist s'.log := by
  induction run with
  | nil s =>
    refine absurd ?_ busy
    cases here : s.pc t <;> simp [here, Pc.left] at enough
    rfl
  | @cons s middle last act acts _ next rest ih =>
    by_cases own : act = .run t
    · subst own
      obtain ⟨less, returned, grown⟩ := run_spends next
      by_cases ended : middle.pc t = .idle
      · obtain ⟨ptr, logged⟩ := returned ended
        exact ⟨ptr, logged ▸ (Exec.grows rest).sublist⟩
      · rw [List.count_cons_self] at enough
        obtain ⟨ptr, sub⟩ := ih ended (by omega)
        exact ⟨ptr, (grown.sublist.cons_cons _).trans sub⟩
    · have kept := step_keeps next own busy
      rw [List.count_cons_of_ne own, ← kept] at enough
      obtain ⟨ptr, sub⟩ := ih (kept ▸ busy) enough
      exact ⟨ptr, ((step_grows next).sublist.cons_cons _).trans sub⟩

/-! ### The singleton -/

/-- **What one global pool means**, in a state before `del_global_pool` runs. -/
structure OneGlobalPool (s : State T) : Prop where
  /-- One pool is published, once. -/
  published : ∀ pool, .published pool ∈ s.log → s.log.count (.published pool) = 1 ∧
    ∀ other, .published other ∈ s.log → other = pool
  /-- It was constructed, and is not destroyed. -/
  kept : ∀ pool, .published pool ∈ s.log →
    .constructed pool ∈ s.log ∧ .destroyed pool ∉ s.log ∧ s.gPool = some pool
  /-- Every call that returns has returned it. -/
  returned : ∀ t ptr, .returned t ptr ∈ s.log →
    ∃ pool, ptr = some pool ∧ .published pool ∈ s.log
  /-- Every other pool was constructed once; it is destroyed once, or is the candidate of a call that
  has still to publish or to destroy it; no call has returned it, and nobody has used it. -/
  others : ∀ pool, .constructed pool ∈ s.log → .published pool ∉ s.log →
    s.log.count (.constructed pool) = 1 ∧
    (s.log.count (.destroyed pool) = 1 ∨
      .destroyed pool ∉ s.log ∧ ∃ t, (s.pc t).candidate = some pool) ∧
    (∀ t, .returned t (some pool) ∉ s.log) ∧ .used pool ∉ s.log
  /-- `del_global_pool` is registered once, or the call that published the pool has still to do it. -/
  registered : ∀ pool, .published pool ∈ s.log → s.log.count .registered = 1 ∨
    .registered ∉ s.log ∧ ∃ t, s.pc t = .registering pool

theorem Inv.published_iff {s : State T} (inv : Inv s) (pool : Nat) :
    .published pool ∈ s.log ↔ s.gPool = some pool := by
  constructor
  · intro member
    by_contra absent
    exact inv.logged.unpublished pool absent member
  · intro there
    exact List.count_pos_iff.mp (by rw [inv.logged.published pool there]; exact Nat.one_pos)

theorem Inv.oneGlobalPool {s : State T} (inv : Inv s) : OneGlobalPool s := by
  have logged := inv.logged
  refine ⟨fun pool member => ?_, fun pool member => ?_, fun t ptr member => ?_,
    fun pool made member => ?_, fun pool member => ?_⟩
  · have there := (inv.published_iff pool).mp member
    refine ⟨logged.published pool there, fun other again => ?_⟩
    exact Option.some.inj (((inv.published_iff other).mp again).symm.trans there)
  · have there := (inv.published_iff pool).mp member
    have built := inv.pools.only pool .published there
    have counted := logged.constructed pool
    rw [if_pos built] at counted
    refine ⟨List.count_pos_iff.mp (by omega), fun gone => ?_, there⟩
    exact nomatch inv.pools.one pool .published .destroyed there gone
  · obtain ⟨same, some⟩ := logged.returned t ptr member
    obtain ⟨pool, rfl⟩ := Option.ne_none_iff_exists'.mp some
    exact ⟨pool, rfl, (inv.published_iff pool).mpr same.symm⟩
  · have absent : s.gPool ≠ some pool := fun there => member ((inv.published_iff pool).mpr there)
    have counted := logged.constructed pool
    have positive := List.count_pos_iff.mpr made
    have built : pool < s.built := by
      by_contra unbuilt
      rw [if_neg unbuilt] at counted
      omega
    rw [if_pos built] at counted
    refine ⟨counted, ?_, fun t again => absent (logged.returned t _ again).1.symm,
      fun use => absent (logged.used pool use)⟩
    obtain ⟨place, here⟩ := inv.pools.some pool built
    cases place with
    | published => exact absurd here absent
    | held t =>
      exact .inr ⟨fun gone => (nomatch inv.pools.one pool (.held t) .destroyed here gone), t, here⟩
    | destroyed =>
      have once := logged.destroyed pool
      have gone := List.count_pos_iff.mpr here
      exact .inl (by omega)
  · have there := (inv.published_iff pool).mp member
    obtain ⟨place, here⟩ := inv.duty.some () (by rw [there]; exact Option.some_ne_none _)
    cases place with
    | pending t =>
      refine .inr ⟨fun done => (nomatch inv.duty.one () (.pending t) .done here done), t, ?_⟩
      have registers : (s.pc t).Registers := here
      cases at_t : s.pc t with
      | registering newPool =>
        have known := (inv.known t (some newPool) (by rw [at_t]; rfl)).1
        rw [there] at known
        cases known
        rfl
      | _ =>
        rw [at_t] at registers
        exact registers.elim
    | done =>
      have once := logged.registered
      have done := List.count_pos_iff.mpr here
      exact .inl (by omega)

/-- **Singleton creation.** Before `del_global_pool` runs, in every state that any number of threads
reaches by any interleaving there is one global pool, and every call in progress goes on and returns. -/
theorem singleton_creation {acts : List (Act T)} {s : State T}
    (run : (machine T).Exec BeforeDeletion (.start T) acts s) :
    OneGlobalPool s ∧
    (∀ t, s.pc t ≠ .idle → ∃ s', s.step (.run t) = some s') ∧
    ∀ t more s', s.pc t ≠ .idle → (machine T).Exec BeforeDeletion s more s' →
      (s.pc t).left ≤ more.count (.run t) → ∃ ptr, (.returned t ptr :: s.log).Sublist s'.log := by
  have inv : Inv s := run.preserves (fun _ _ _ inv before next => inv.follows (.of_step before next))
    Inv.start
  refine ⟨inv.oneGlobalPool, fun t busy => run_enabled busy, fun t more s' busy rest enough => ?_⟩
  exact Exec.returns rest busy enough

/-- Three threads: the first two both construct, the second one publishes, the third finds the pool
before the first has disposed of its own and before the second has called `atexit`. -/
def contention : List (Act (Fin 3)) :=
  [.call 0, .call 1, .run 0, .run 1, .run 0, .run 1, .run 1, .run 0, .call 2, .run 2, .run 2,
    .use 1, .run 0]

theorem singleton_creation_three : ∃ s, (machine (Fin 3)).Exec BeforeDeletion (.start (Fin 3))
    contention s ∧ OneGlobalPool s ∧ .returned 2 (some 1) ∈ s.log ∧ .destroyed 0 ∈ s.log := by
  have run : (machine (Fin 3)).Exec BeforeDeletion (.start (Fin 3)) contention _ :=
    Machine.exec_of_runFrom rfl
  exact ⟨_, run, (singleton_creation run).1, by decide, by decide⟩

end NpAlloc.GlobalPool
