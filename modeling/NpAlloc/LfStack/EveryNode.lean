/-
**`for_each` reaches every node once and gives every node back once.**

What a call visits is what was on the stack at one moment of the call: when its compare-exchange was about
to succeed, or when its load found null (`Moment`). At its end it has applied `fun` to these nodes, in
their order and to nothing else, and has pushed each of them back at one compare-exchange of its own.

* **`for_each_exact`**: every call, in any company;
* `for_each_starves`: a schedule in which another thread keeps it from its end for good.
-/

import NpAlloc.LfStack.Solo
import NpAlloc.LfStack.WalkEnds

set_option linter.unusedSectionVars false

namespace NpAlloc.LfStack

variable {T N : Type} [DecidableEq T] [DecidableEq N] {s s' : State T N} {t : T} {nodes : List N}

/-! ### What a detaching loop takes -/

/-- The compare-exchange of the detaching loop is about to succeed. -/
def AtDetach (s : State T N) (t : T) : Prop :=
  ∃ curr next, s.pc t = .detachCas curr next ∧ s.head = curr

/-- The detaching loop has just loaded a null `head_`. -/
def AtNull (s : State T N) (t : T) : Prop := ∃ curr, s.pc t = .detachTest curr ∧ curr.ptr = none

/-- What the detaching loop takes, once that is decided. -/
def takes (s : State T N) (t : T) : Option (List N) :=
  match s.pc t with
  | .detachTest curr => if curr.ptr = none then some [] else none
  | .detachRet _ => some (s.ghost.taken t)
  | _ => none

/-- **A step of the loop** decides nothing, finds null, or takes the whole stack. -/
theorem Internal.takes (inv : Inv s) (kind : (s.pc t).kind = .detach) (moved : Internal s t s') :
    s'.ghost.stack = s.ghost.stack ∧ LfStack.takes s' t = LfStack.takes s t ∨
      LfStack.takes s t = none ∧ LfStack.takes s' t = some s.ghost.stack ∧
        (AtNull s' t ∧ s.ghost.stack = [] ∧ s'.ghost.stack = [] ∨
          AtDetach s t ∧ s'.ghost.stack = [] ∧ (s'.pc t).result ≠ none) := by
  unfold LfStack.takes
  cases moved with
  | detachLoad entered =>
    have undecided : LfStack.takes s t = none := by
      unfold LfStack.takes
      rcases entered with here | ⟨curr, next, here⟩ <;> rw [here]
    unfold LfStack.takes at undecided
    simp only [State.load, Function.update_self, undecided]
    by_cases null : s.head.ptr = none
    · have chain := inv.chain
      rw [null] at chain
      rw [if_pos null, chain.eq_nil]
      exact .inr ⟨trivial, rfl, .inl ⟨⟨s.head, Function.update_self .., null⟩, rfl, rfl⟩⟩
    · rw [if_neg null]
      exact .inl ⟨trivial, rfl⟩
  | detachNull curr here null =>
    left
    simp [State.goto, here, null]
  | detachNext curr node here top =>
    left
    simp [State.goto, here, top]
  | detachCas curr next here equal =>
    refine .inr ⟨by rw [here], by simp [State.install], .inr ⟨⟨curr, next, here, equal⟩, rfl, ?_⟩⟩
    simp [State.install, Pc.result]
  | popLoad entered | pushLoad ptr entered =>
    rcases entered with here | ⟨curr, next, here⟩ <;> rw [here] at kind <;> cases kind
  | _ => simp_all [Pc.kind]

end NpAlloc.LfStack

namespace NpAlloc.LfStack.ForEach

variable {T N : Type} [DecidableEq T] [DecidableEq N] {s s' : State T N} {t u : T} {nodes : List N}

/-! ### What a call visits -/

/-- What a call in progress visits, once that is decided. -/
def visits (s : State T N) (t : T) : Option (List N) :=
  match s.walk t with
  | .out => none
  | .detaching => takes s.lf t
  | _ => some (s.lf.ghost.taken t)

/-- **What a step of a call does** to the stack, to the nodes given back, and to what it visits. -/
inductive Effect (s : State T N) (t : T) (s' : State T N) : Prop
  | still (stack : s'.lf.ghost.stack = s.lf.ghost.stack) (given : s'.given t = s.given t)
      (same : visits s' t = visits s t)
  | null (before : s.lf.ghost.stack = []) (after : s'.lf.ghost.stack = []) (given : s'.given t = s.given t)
      (undecided : visits s t = none) (found : visits s' t = some [])
      (here : s'.walk t = .detaching) (atNull : AtNull s'.lf t)
  | detach (empty : s'.lf.ghost.stack = []) (given : s'.given t = s.given t)
      (undecided : visits s t = none) (found : visits s' t = some s.lf.ghost.stack)
      (here : s.walk t = .detaching) (atDetach : AtDetach s.lf t) (ended : (s'.lf.pc t).result ≠ none)
  | give (ptr : N) (stack : s'.lf.ghost.stack = ptr :: s.lf.ghost.stack)
      (given : s'.given t = s.given t ++ [ptr]) (decided : visits s t ≠ none) (same : visits s' t = visits s t)

theorem Moves.effect (inv : Inv s) (moved : Moves s t s') (busy : s.walk t ≠ .out)
    (stays : s'.walk t ≠ .out) : Effect s t s' := by
  have walk := inv.walks t
  cases moved with
  | client act lf here | call here => exact absurd here busy
  | internal lf here moved unpushed =>
    rcases here with here | ⟨ptr, next, here⟩ <;> rw [here] at walk
    · have before : visits s t = takes s.lf t := by simp only [visits, here]
      have after : visits (s.inner lf) t = takes lf t := by simp only [visits, State.inner, here]
      rcases moved.takes inv.stack walk.1 with
        ⟨stack, same⟩ | ⟨undecided, found, ⟨null, before', after'⟩ | ⟨atDetach, empty, ended⟩⟩
      · exact .still stack rfl (after.trans (same.trans before.symm))
      · rw [before'] at found
        exact .null before' after' rfl (before.trans undecided) (after.trans found) here null
      · exact .detach empty rfl (before.trans undecided) (after.trans found) here atDetach ended
    · obtain ⟨_, _, _, which, _⟩ := walk.push_step moved
      have kept := which.resolve_left fun pushed => unpushed ptr next here pushed.1
      refine .still kept.2 rfl ?_
      simp only [visits, State.inner, here, (push_internal walk.1 moved).1]
  | detached result here done =>
    rw [here] at walk
    have there := (LfStack.Pc.eq_of_result done).2.2 walk.1
    refine .still rfl rfl ?_
    simp [visits, State.goto, State.inner, LfStack.State.goto, here, takes, there]
  | give ptr next lf here moved pushed =>
    rw [here] at walk
    obtain ⟨_, _, _, which, _⟩ := walk.push_step moved
    have stack : lf.ghost.stack = ptr :: s.lf.ghost.stack := by
      rcases which with ⟨_, stack⟩ | ⟨hand, _⟩
      · exact stack
      · rw [LfStack.hand, pushed] at hand
        cases hand
    have decided : visits s t = some (s.lf.ghost.taken t) := by simp only [visits, here]
    refine .give ptr stack (Function.update_self ..) (by rw [decided]; simp) ?_
    simp only [visits, State.give, State.inner, here, (push_internal walk.1 moved).1]
  | ret here => exact absurd (Function.update_self ..) stays
  | finish here | apply ptr here | push ptr here | pushed ptr next here =>
    refine .still rfl rfl ?_
    simp [visits, State.goto, State.inner, State.apply, LfStack.State.goto, here]

theorem visits_apart (apart : Apart u s s') : visits s' u = visits s u := by
  unfold visits takes
  rw [apart.walk, apart.lf.pc, apart.lf.taken]

/-- **The moment of a call at which the stack was `nodes`**: the state its detaching compare-exchange
finds, or the one its null load leaves. -/
def Took (middle : State T N) (t : T) (acts : List (T × Act T N)) (last : State T N)
    (nodes : List N) : Prop :=
  ∃ before moment after, acts = before ++ after ∧ (machine T N).Exec Fresh middle before moment ∧
    (machine T N).Exec Fresh moment after last ∧ moment.walk t = .detaching ∧
    moment.lf.ghost.stack = nodes ∧
    (AtDetach moment.lf t ∧ (∃ rest, after = (t, .run) :: rest) ∨ AtNull moment.lf t)

theorem Took.snoc {middle : State T N} {acts : List (T × Act T N)} {act : T × Act T N}
    (took : Took middle t acts s nodes) (fresh : Fresh s act) (next : step s act = some s') :
    Took middle t (acts ++ [act]) s' nodes := by
  obtain ⟨before, moment, after, rfl, front, back, here, stack, which⟩ := took
  refine ⟨before, moment, after ++ [act], by rw [List.append_assoc], front, back.snoc fresh next, here,
    stack, ?_⟩
  rcases which with ⟨atDetach, rest, rfl⟩ | atNull
  · exact .inl ⟨atDetach, rest ++ [act], rfl⟩
  · exact .inr atNull

/-- The step that detaches is a compare-exchange that compares. -/
theorem detaches_by_run {act : Act T N} (here : s.walk t = .detaching) (atDetach : AtDetach s.lf t)
    (ended : (s'.lf.pc t).result ≠ none) (next : step s (t, act) = some s') : act = .run := by
  obtain ⟨curr, held, there, _⟩ := atDetach
  cases act with
  | run => rfl
  | spurious =>
    simp only [step, here, LfStack.step, spuriousStep, there, Option.map_some, Option.some.injEq] at next
    subst next
    exact absurd (by simp [State.inner, LfStack.State.load, LfStack.Pc.result]) ended
  | client act | callForEach | ret => simp [step, here] at next

theorem Inv.exec {acts : List (T × Act T N)} (inv : Inv s) (run : (machine T N).Exec Fresh s acts s') :
    Inv s' :=
  run.preserves (I := Inv) (fun _ act _ inv fresh next => inv.moves (t := act.1) (.of_step fresh next))
    inv

/-- **What a call visits was the stack at one moment of the call.** -/
theorem took {middle last : State T N} {acts : List (T × Act T N)} (inv : Inv middle)
    (busy : middle.walk t ≠ .out) (undecided : visits middle t = none)
    (run : (machine T N).Exec Fresh middle acts last) (within : (t, .ret) ∉ acts)
    (found : visits last t = some nodes) : Took middle t acts last nodes := by
  refine run.snoc_induction (P := fun acts last => (t, .ret) ∉ acts → visits last t = some nodes →
    Took middle t acts last nodes) ?_ ?_ within found
  · intro _ decided
    rw [undecided] at decided
    cases decided
  · rintro acts s ⟨u, act⟩ s' front ih fresh next within decided
    have inside : (t, .ret) ∉ acts := fun member => within (List.mem_append_left _ member)
    have inv' := inv.exec front
    have moved : Moves s u s' := .of_step fresh next
    by_cases same : t = u
    · subst same
      have busy' := (potential_run inv busy front inside).1
      have other : act ≠ .ret := by
        rintro rfl
        exact within (List.mem_append_right _ (List.mem_singleton_self _))
      cases moved.effect inv' busy' (moved.stays busy' next other) with
      | still stack given same | give ptr stack given _ same =>
        rw [same] at decided
        exact (ih inside decided).snoc fresh next
      | null before after given undecided found here atNull =>
        obtain rfl := Option.some.inj (found.symm.trans decided)
        exact ⟨acts ++ [(t, act)], s', [], (List.append_nil _).symm, front.snoc fresh next, .nil _, here,
          after, .inr atNull⟩
      | detach empty given undecided found here atDetach ended =>
        obtain rfl := Option.some.inj (found.symm.trans decided)
        obtain rfl := detaches_by_run here atDetach ended next
        exact ⟨acts, s, [(t, .run)], rfl, front, .single fresh next, here, rfl,
          .inl ⟨atDetach, [], rfl⟩⟩
    · rw [visits_apart (moved.apart inv'.stack same)] at decided
      exact (ih inside decided).snoc fresh next

/-! ### What a call puts back -/

/-- The nodes that the thread's own steps put on the stack along a schedule. -/
def puts (t : T) (s : State T N) (acts : List (T × Act T N)) : List N :=
  ((machine T N).along (fun s act s' => if act.1 = t then
    s'.lf.ghost.stack.take (s'.lf.ghost.stack.length - s.lf.ghost.stack.length) else []) s acts).flatten

/-- **What a call has given back is what it has put on the stack.** -/
theorem given_eq {middle last : State T N} {acts : List (T × Act T N)} (inv : Inv middle)
    (busy : middle.walk t ≠ .out) (run : (machine T N).Exec Fresh middle acts last)
    (within : (t, .ret) ∉ acts) : last.given t = middle.given t ++ puts t middle acts := by
  induction run with
  | nil => simp [puts]
  | @cons s middle last act acts fresh next rest ih =>
    obtain ⟨u, act⟩ := act
    have ran : step s (u, act) = some middle := next
    have moved : Moves s u middle := .of_step fresh next
    have busy' := (potential_moves inv busy fresh ran fun same => within (same ▸ List.mem_cons_self)).1
    have later := ih (inv.moves moved) busy' fun member => within (.tail _ member)
    have now : middle.given t = s.given t ++ if u = t then middle.lf.ghost.stack.take
        (middle.lf.ghost.stack.length - s.lf.ghost.stack.length) else [] := by
      by_cases own : t = u
      · subst own
        rw [if_pos rfl]
        cases moved.effect inv busy busy' with
        | still stack given =>
          rw [stack, given]
          simp
        | null before empty given =>
          rw [empty, given]
          simp
        | detach empty given =>
          rw [empty, given]
          simp
        | give ptr stack given =>
          rw [stack, given]
          simp
      · rw [if_neg (Ne.symm own), (moved.apart inv.stack own).given, List.append_nil]
    rw [later, now, List.append_assoc]
    unfold puts
    rw [Machine.along_cons next, List.flatten_cons]

/-! ### A call in no company -/

/-- What holds of a call while no other thread runs. -/
def Alone (whole : List N) (s : State T N) (t : T) : Prop :=
  match visits s t with
  | none => s.lf.ghost.stack = whole ∧ s.given t = []
  | some nodes => nodes = whole ∧ s.lf.ghost.stack = (s.given t).reverse

theorem Alone.effect {whole : List N} (alone : Alone whole s t) (effect : Effect s t s') :
    Alone whole s' t := by
  unfold Alone at alone ⊢
  cases effect with
  | still stack given same =>
    rw [same, stack, given]
    exact alone
  | null before after given undecided found =>
    rw [undecided, before] at alone
    rw [found, after, given, alone.2]
    exact ⟨alone.1, rfl⟩
  | detach empty given undecided found =>
    rw [undecided] at alone
    rw [found, empty, given, alone.2]
    exact ⟨alone.1, rfl⟩
  | give ptr stack given decided same =>
    rw [same, stack, given]
    cases found : visits s t with
    | none => exact absurd found decided
    | some nodes =>
      rw [found] at alone
      rw [List.reverse_append, alone.2]
      exact ⟨alone.1, rfl⟩

theorem Alone.exec {whole : List N} {middle last : State T N} {acts : List (T × Act T N)}
    (alone : Alone whole middle t) (inv : Inv middle) (busy : middle.walk t ≠ .out)
    (run : (machine T N).Exec Fresh middle acts last) (within : (t, .ret) ∉ acts)
    (only : ∀ act ∈ acts, act.1 = t) : Alone whole last t := by
  induction run with
  | nil => exact alone
  | @cons s middle last act acts fresh next rest ih =>
    obtain ⟨u, act⟩ := act
    obtain rfl : u = t := only _ List.mem_cons_self
    have ran : step s (u, act) = some middle := next
    have moved : Moves s u middle := .of_step fresh next
    have busy' := moved.stays busy ran fun ended => within (by rw [ended]; exact List.mem_cons_self)
    exact ih (alone.effect (moved.effect inv busy busy')) (inv.moves moved) busy'
      (fun member => within (.tail _ member)) fun other member => only other (.tail _ member)

/-! ### A call of `for_each` -/

/-- What a call has applied `fun` to begins what it visits, and what it has given back begins that. -/
theorem WalkInv.visited {walk : Walk N} (holds : WalkInv s t walk) (here : s.walk t = walk)
    (found : visits s t = some nodes) : s.applied t <+: nodes ∧ s.given t <+: s.applied t := by
  unfold visits at found
  rw [here] at found
  cases walk with
  | out => cases found
  | detaching =>
    rw [holds.2.1, holds.2.2]
    exact ⟨List.nil_prefix, List.nil_prefix⟩
  | testing ptr =>
    obtain ⟨_, _, rest, _, split, applied⟩ := holds
    obtain rfl := Option.some.inj found
    rw [applied, split]
    exact ⟨List.prefix_append _ _, List.prefix_rfl⟩
  | reading ptr =>
    obtain ⟨_, _, rest, _, split, applied⟩ := holds
    obtain rfl := Option.some.inj found
    refine ⟨?_, applied ▸ List.prefix_append _ _⟩
    rw [applied, split]
    exact ⟨rest, (List.append_cons _ _ _).symm⟩
  | pushing ptr next =>
    obtain ⟨_, _, rest, _, split, which⟩ := holds
    obtain rfl := Option.some.inj found
    refine ⟨⟨rest, split.symm⟩, ?_⟩
    rcases which with ⟨_, applied⟩ | ⟨_, applied⟩ <;> rw [applied]
    exact List.prefix_append _ _
  | done =>
    obtain ⟨_, _, applied, given⟩ := holds
    obtain rfl := Option.some.inj found
    rw [applied, given]
    exact ⟨List.prefix_rfl, List.prefix_rfl⟩

/-- The stack visits no node twice. -/
theorem Took.nodup {middle last : State T N} {acts : List (T × Act T N)} (inv : Inv middle)
    (took : Took middle t acts last nodes) : nodes.Nodup := by
  obtain ⟨before, moment, after, _, front, _, _, rfl, _⟩ := took
  exact (inv.exec front).stack.chain.nodup

/-- **What a call of `for_each` guarantees**, from the state after its entry, along what the threads do
until its return. -/
structure Exact (middle : State T N) (t : T) (acts : List (T × Act T N)) (last : State T N) : Prop where
  /-- It takes as many steps as the nodes it may find allow, and more only for compare-exchanges that
  fail spuriously or that others overtake. -/
  bounded : acts.count (t, .run)
    ≤ 7 * middle.lf.ghost.stack.length + 7 + acts.count (t, .spurious) + 9 * others t middle acts
  /-- Until it is done it has a next step. -/
  runs : last.walk t ≠ .done → ∃ after, step last (t, .run) = some after
  /-- What it has applied `fun` to, and what it has put back, are the first of the nodes it visits. -/
  visited : ∀ nodes, visits last t = some nodes → Took middle t acts last nodes ∧ nodes.Nodup ∧
    last.applied t <+: nodes ∧ puts t middle acts <+: last.applied t
  /-- When it is done it has visited every node once, and put every node back once. -/
  done : last.walk t = .done → ∃ nodes, Took middle t acts last nodes ∧ nodes.Nodup ∧
    last.applied t = nodes ∧ puts t middle acts = nodes ∧ last.count t = nodes.length
  /-- In no company it reverses the stack. -/
  alone : (∀ act ∈ acts, act.1 = t) → last.walk t = .done →
    last.applied t = middle.lf.ghost.stack ∧ last.lf.ghost.stack = middle.lf.ghost.stack.reverse

/-- **`for_each` loses and duplicates nothing**, in any company, and comes to its end unless the others
keep succeeding on the stack. -/
theorem for_each_exact (s middle last : State T N) (t : T) (acts : List (T × Act T N))
    (reached : (machine T N).Reachable Fresh s) (entered : step s (t, .callForEach) = some middle)
    (run : (machine T N).Exec Fresh middle acts last) (within : (t, .ret) ∉ acts) :
    Exact middle t acts last := by
  have enters : (machine T N).step s (t, .callForEach) = some middle := entered
  have fresh : Fresh s (t, .callForEach) := trivial
  have inv : Inv middle := .reachable (reached.step fresh enters)
  have inv' := inv.exec run
  have start : middle.walk t = .detaching ∧ middle.lf.pc t = .detachLoad ∧ middle.given t = [] := by
    obtain ⟨_, ran⟩ := Option.ite_none_right_eq_some.mp entered
    obtain ⟨lf, inside, rfl⟩ := Option.map_eq_some_iff.mp ran
    simp only [LfStack.step, Option.ite_none_right_eq_some, Option.some.injEq] at inside
    obtain ⟨_, rfl⟩ := inside
    exact ⟨Function.update_self .., Function.update_self .., Function.update_self ..⟩
  obtain ⟨here, loads, fresh⟩ := start
  have busy : middle.walk t ≠ .out := by
    rw [here]
    simp
  have undecided : visits middle t = none := by simp only [visits, here, takes, loads]
  have first : potential middle t = 7 * middle.lf.ghost.stack.length + 7 := by
    simp [potential, here, loads, LfStack.Pc.result, cost]
  obtain ⟨busy', bound⟩ := potential_run inv busy run within
  have given := given_eq inv busy run within
  rw [fresh, List.nil_append] at given
  have visited : ∀ nodes, visits last t = some nodes → Took middle t acts last nodes ∧ nodes.Nodup ∧
      last.applied t <+: nodes ∧ puts t middle acts <+: last.applied t := fun nodes found => by
    have moment := took inv busy undecided run within found
    have parts := (inv'.walks t).visited rfl found
    rw [given] at parts
    exact ⟨moment, moment.nodup inv, parts⟩
  have finish : last.walk t = .done → visits last t = some (last.lf.ghost.taken t) ∧
      last.applied t = last.lf.ghost.taken t ∧ last.given t = last.lf.ghost.taken t := fun done => by
    have walk := inv'.walks t
    rw [done] at walk
    exact ⟨by simp only [visits, done], walk.2.2⟩
  refine ⟨by omega, fun more => ?_, visited, fun done => ?_, fun only done => ?_⟩
  · obtain ⟨after, ran, _⟩ := potential_step inv' busy' more
    exact ⟨after, ran⟩
  · obtain ⟨found, applied, back⟩ := finish done
    obtain ⟨moment, nodup, _⟩ := visited _ found
    refine ⟨_, moment, nodup, applied, given ▸ back, ?_⟩
    rw [State.count, applied, List.foldl_add_const, Nat.zero_add, Nat.one_mul]
  · obtain ⟨found, applied, back⟩ := finish done
    have alone : Alone middle.lf.ghost.stack middle t := by
      unfold Alone
      rw [undecided]
      exact ⟨rfl, fresh⟩
    have reversed := alone.exec inv busy run within only
    unfold Alone at reversed
    rw [found, back] at reversed
    obtain ⟨whole, stack⟩ := reversed
    rw [applied, stack, whole]
    exact ⟨rfl, rfl⟩

/-- A fresh stack; the second thread owns all nodes but one. -/
def demoStart : State Bool Nat where
  lf := ⟨⟨0, none⟩, fun _ => none, fun _ => .idle,
    ⟨[], fun node => .client (node ≠ 7), 0, fun _ => 0, fun _ => []⟩⟩
  walk _ := .out
  applied _ := []
  given _ := []

/-- A client's call of three atomic steps. -/
def calls (t : Bool) (op : Op Nat) (result : Option Nat) : List (Bool × Act Bool Nat) :=
  (threeSteps op result).map fun act => (t, .client act)

/-- The first thread's `for_each` finds `[8, 7]`; the second one takes node 8 as soon as it is back,
writes to it, and pushes it again. -/
def demoActs : List (Bool × Act Bool Nat) :=
  List.replicate 10 (false, .run) ++ calls true .pop (some 8)
    ++ [(true, .client (.write 8 (some 9)))] ++ calls true (.push 8) none ++ List.replicate 7 (false, .run)

theorem demo_init : (machine Bool Nat).init demoStart :=
  ⟨⟨⟨rfl, fun _ => rfl, rfl, fun _ => by simp [demoStart], rfl⟩, rfl⟩, fun _ => rfl⟩

theorem for_each_exact_demo : ∃ s middle last, step s (false, .callForEach) = some middle ∧
    Exact middle false demoActs last ∧ last.walk false = .done ∧ last.applied false = [8, 7] := by
  have finished : ((machine Bool Nat).runFrom Fresh demoStart ((calls false (.push 7) none
      ++ calls true (.push 8) none) ++ (false, .callForEach) :: demoActs)).map
        (fun s => (s.walk false, s.applied false)) = some (.done, [8, 7]) := by
    decide +kernel
  obtain ⟨last, found, result⟩ := Option.map_eq_some_iff.mp finished
  rw [Machine.runFrom_append, Option.bind_eq_some_iff] at found
  obtain ⟨s, before, rest⟩ := found
  simp only [Machine.runFrom, Option.ite_none_right_eq_some, Option.bind_eq_some_iff] at rest
  obtain ⟨_, middle, entered, rest⟩ := rest
  have reached : (machine Bool Nat).Reachable Fresh s :=
    ⟨demoStart, _, demo_init, Machine.exec_of_runFrom before⟩
  exact ⟨s, middle, last, entered, for_each_exact s middle last false demoActs reached entered
    (Machine.exec_of_runFrom rest) (by decide), congrArg Prod.fst result, congrArg Prod.snd result⟩

/-! ### A call that never ends -/

/-- The first thread detaches node 7, and is about to write its link in `push`. -/
def stall : List (Bool × Act Bool Nat) :=
  calls false (.push 7) none ++ (false, .callForEach) :: List.replicate 7 (false, .run)

/-- The second thread pushes its node 8 and pops it, each time between the first one's load of `head_` and
its compare-exchange. -/
def round : List (Bool × Act Bool Nat) :=
  calls true (.push 8) none ++ [(false, .run), (false, .run)] ++ calls true .pop (some 8)
    ++ [(false, .run), (false, .run)]

/-- The first thread is in its push of node 7, with a load of `head_` that is `late` successes old and
found `held`; node 8 is on the stack (`up`) or in the hands of the second thread. -/
structure Stalled (held : Option Nat) (up : Bool) (late : Nat) (s : State Bool Nat) : Prop where
  walk : s.walk false = .pushing 7 none
  given : s.given false = []
  here : ∃ curr, s.lf.pc false = .pushWrite 7 curr ∧ curr.ptr = held
  out : s.walk true = .out
  idle : s.lf.pc true = .idle
  top : s.lf.head.ptr = if up then some 8 else none
  node : if up then s.lf.next 8 = none else s.lf.ghost.owner 8 = .client true
  count : s.lf.ghost.casCount = s.lf.ghost.stamp false + late

section Round

variable {s : State Bool Nat} {held : Option Nat} {up : Bool}

/-- The push of the first thread fails. -/
theorem Stalled.fails (stalled : Stalled held up 1 s) (differ : held ≠ if up then some 8 else none) :
    ∃ s', (machine Bool Nat).Exec Fresh s [(false, .run), (false, .run)] s' ∧
      Stalled (if up then some 8 else none) up 0 s' := by
  obtain ⟨walk, given, ⟨curr, here, ptr⟩, out, idle, top, node, count⟩ := stalled
  have overtaken : s.lf.head ≠ curr := by
    rintro rfl
    exact differ (ptr.symm.trans top)
  obtain ⟨written, lf, one, running, unpushed, fresh, two, there, head, owner, cas, stamp, pcs, links⟩ :=
    push_overtaken here overtaken count.le
  have first : (machine Bool Nat).step s (false, .run) = some (s.inner written) := by
    show runStep s false = _
    simp [runStep, walk, here, LfStack.Pc.result, one, unpushed]
  have second : (machine Bool Nat).step (s.inner written) (false, .run) = some (s.inner lf) := by
    have walk' : (s.inner written).walk false = .pushing 7 none := walk
    have reloaded : lf.pc false ≠ .pushRet := by rw [there]; simp
    show runStep (s.inner written) false = _
    unfold runStep
    rw [walk']
    simp only [State.inner, running, two, Option.map_some, if_neg reloaded]
  have atWrite : Fresh s (false, .run) := fun _ atCas => by
    rw [here] at atCas
    exact atCas.elim
  refine ⟨s.inner lf, .cons atWrite first (.cons fresh second (.nil _)), walk, given,
    ⟨s.lf.head, there, top⟩, out, (pcs true (by simp)).trans idle, head ▸ top, ?_, cas.trans stamp.symm⟩
  show if up then lf.next 8 = none else lf.ghost.owner 8 = .client true
  rw [links 8 (by simp), owner]
  exact node

theorem Stalled.push (stalled : Stalled held false 0 s) :
    ∃ s', (machine Bool Nat).Exec Fresh s (calls true (.push 8) none) s' ∧ Stalled held true 1 s' := by
  obtain ⟨walk, given, ⟨curr, here, ptr⟩, out, idle, top, node, count⟩ := stalled
  obtain ⟨lf, ran, head, link, idle', cas, same⟩ := push_alone idle node
  obtain ⟨pc, stamp⟩ := same false (by simp)
  refine ⟨s.inner lf, exec_client out (by decide) ran, walk, given, ⟨curr, pc.trans here, ptr⟩, out,
    idle', head, link.trans top, ?_⟩
  show lf.ghost.casCount = lf.ghost.stamp false + 1
  rw [cas, stamp, count]

theorem Stalled.pop (stalled : Stalled held true 0 s) :
    ∃ s', (machine Bool Nat).Exec Fresh s (calls true .pop (some 8)) s' ∧ Stalled held false 1 s' := by
  obtain ⟨walk, given, ⟨curr, here, ptr⟩, out, idle, top, node, count⟩ := stalled
  obtain ⟨lf, ran, head, owner, idle', cas, same⟩ := pop_alone idle top
  obtain ⟨pc, stamp⟩ := same false (by simp)
  refine ⟨s.inner lf, exec_client out (by decide) ran, walk, given, ⟨curr, pc.trans here, ptr⟩, out,
    idle', head.trans node, owner, ?_⟩
  show lf.ghost.casCount = lf.ghost.stamp false + 1
  rw [cas, stamp, count]

/-- **After a round the first thread is where it was.** -/
theorem Stalled.round (stalled : Stalled none false 0 s) :
    ∃ s', (machine Bool Nat).Exec Fresh s ForEach.round s' ∧ Stalled none false 0 s' := by
  obtain ⟨pushed, one, stalled⟩ := stalled.push
  obtain ⟨reloaded, two, stalled⟩ := stalled.fails (by simp)
  obtain ⟨popped, three, stalled⟩ := stalled.pop
  obtain ⟨last, four, stalled⟩ := stalled.fails (by simp)
  exact ⟨last, ((one.append two).append three).append four, stalled⟩

end Round

/-- **Another thread can keep `for_each` from its end for good**, with no spurious failure. -/
theorem for_each_starves : (machine Bool Nat).init demoStart ∧ (false, .run) ∈ ForEach.round ∧
    (∀ act ∈ stall ++ ForEach.round, act.2 ≠ .spurious ∧ act.2 ≠ .ret) ∧
    ∀ n, ∃ s, (machine Bool Nat).Exec Fresh demoStart
      (stall ++ (List.replicate n ForEach.round).flatten) s ∧
        s.walk false = .pushing 7 none ∧ s.given false = [] := by
  have start : ∃ s, (machine Bool Nat).Exec Fresh demoStart stall s ∧ Stalled none false 0 s := by
    have found : ((machine Bool Nat).runFrom Fresh demoStart stall).map (fun s =>
        decide (s.walk false = .pushing 7 none ∧ s.given false = [] ∧
          s.lf.pc false = .pushWrite 7 ⟨2, none⟩ ∧ s.walk true = .out ∧ s.lf.pc true = .idle ∧
          s.lf.head.ptr = none ∧ s.lf.ghost.owner 8 = .client true ∧
          s.lf.ghost.casCount = s.lf.ghost.stamp false)) = some true := by
      decide +kernel
    obtain ⟨s, ran, holds⟩ := Option.map_eq_some_iff.mp found
    obtain ⟨walk, given, here, out, idle, top, owner, count⟩ := of_decide_eq_true holds
    exact ⟨s, Machine.exec_of_runFrom ran, walk, given, ⟨_, here, rfl⟩, out, idle, top, owner, count⟩
  have rounds : ∀ n, ∃ s, (machine Bool Nat).Exec Fresh demoStart
      (stall ++ (List.replicate n ForEach.round).flatten) s ∧ Stalled none false 0 s := by
    intro n
    induction n with
    | zero =>
      obtain ⟨s, run, stalled⟩ := start
      exact ⟨s, by simpa using run, stalled⟩
    | succ n ih =>
      obtain ⟨s, run, stalled⟩ := ih
      obtain ⟨s', more, stalled'⟩ := stalled.round
      refine ⟨s', ?_, stalled'⟩
      rw [List.replicate_succ', List.flatten_append, List.flatten_singleton, ← List.append_assoc]
      exact run.append more
  refine ⟨demo_init, by decide, by decide, fun n => ?_⟩
  obtain ⟨s, run, stalled⟩ := rounds n
  exact ⟨s, run, stalled.walk, stalled.given⟩

end NpAlloc.LfStack.ForEach
