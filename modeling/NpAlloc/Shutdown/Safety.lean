/-
**Shutdown is safe exactly when it does not overtake a `deinit`.**

`deinit` tests `is_pool_alive` once, and relies on the answer until it is done. `Quiet` is what would make
this right: `g_pool` is exchanged only when no `deinit` past its test has a chunk left for which it has
yet to ask for the pool, and the pool is destroyed only when none is in the middle of its free list or
of a push.

* `Calm` — the invariant of quiet runs: past the exchange nobody owes a chunk, past the destruction
  nobody is about to touch one.
* **`shutdown_safe_iff`** — quiet runs are safe; and a run that lets every `deinit` come to its end is
  safe only if it is quiet.
* **`shutdown_overtakes`** — the exchange behind the test: a second pool is constructed.
-/

import NpAlloc.Shutdown.Model

set_option linter.unusedSectionVars false

namespace NpAlloc.Shutdown

open LfStack (Head)

variable {T N : Type} [DecidableEq T] [DecidableEq N] {owned blocks : T → List N} {stack : List N}
  {s s' : State T N} {t u : T} {d : Deinit N} {act : Act T}

/-! ### Quiet steps and safe states -/

/-- Past its test, with a chunk left for which it has yet to ask for the pool. -/
def Deinit.Owes (d : Deinit N) : Prop :=
  match d.phase with
  | .ready | .done => False
  | .unlinked _ | .constructing _ | .installing _ _ => True
  | .walking _ | .looping | .pushing _ _ | .linking _ _ _ | .swapping _ _ _ => d.head_ ≠ none

/-- In the middle of its free list, or of a push. -/
def Deinit.Reads (d : Deinit N) : Prop :=
  match d.phase with
  | .walking f => f ≠ none
  | .pushing _ _ | .linking _ _ _ | .swapping _ _ _ => True
  | _ => False

/-- **`del_global_pool` overtakes no `deinit`.** -/
def Quiet (s : State T N) : Act T → Prop
  | .exchange => ∀ t, ¬ (s.deinit t).Owes
  | .destroy => ∀ t, ¬ (s.deinit t).Reads
  | _ => True

/-- **What shutdown should guarantee.** -/
structure Safe (owned : T → List N) (s : State T N) : Prop where
  /-- No chunk memory was read or written after its pool had been destroyed. -/
  late : s.late = false
  /-- No second pool was constructed. -/
  built : s.built = 1
  /-- A `deinit` that is over touched nothing, or returned all its chunks to the pool they came from. -/
  all : ∀ t, (s.deinit t).phase = .done → (s.deinit t).touched = false ∨
    (s.deinit t).given = (owned t).map fun c => (c, some home)
  /-- As long as the pool is there, what was returned is on its free stack. -/
  stacked : s.destroyed home = false → ∃ list, Linked s.next (s.freeHead home).ptr list ∧
    ∀ t, ∀ e ∈ (s.deinit t).given, e.1 ∈ list

/-- Every `deinit` is over, or has not begun. -/
def Complete (s : State T N) : Prop :=
  ∀ t, (s.deinit t).phase = .ready ∨ (s.deinit t).phase = .done

/-! ### The invariant of quiet runs -/

/-- The chunk in the hand of a `deinit`. -/
def Phase.hand : Phase N → List N
  | .unlinked p | .constructing p | .installing p _ | .pushing p _ | .linking p _ _
  | .swapping p _ _ => [p]
  | _ => []

/-- What a `deinit` relies on where it stands. -/
def Deinit.Stands (blocks : List N) (next : N → Option N) (d : Deinit N) : Prop :=
  match d.phase with
  | .ready => Linked next d.free_ blocks ∧ d.touched = false
  | .walking f => ∃ rest, Linked next f rest ∧ rest ⊆ blocks
  | .constructing _ | .installing _ _ => False
  | .pushing _ pool | .linking _ pool _ => pool = home
  | .swapping p pool curr => pool = home ∧ next p = curr.ptr
  | .looping | .unlinked _ => True
  | .done => d.head_ = none ∨ d.touched = false

/-- **One `deinit`**: its chunks are returned, in hand, or still on its chain. -/
structure Deinit.Sound (owned blocks : List N) (next : N → Option N) (d : Deinit N) : Prop where
  rest : ∃ rest, Linked next d.head_ rest ∧ owned = d.given.map Prod.fst ++ d.phase.hand ++ rest
  home : ∀ e ∈ d.given, e.2 = some home
  stands : d.Stands blocks next

/-- **The invariant.** -/
structure Calm (owned blocks : T → List N) (stack : List N) (s : State T N) : Prop where
  late : s.late = false
  built : s.built = 1
  waiting : s.deletion = .waiting → s.gPool = some home
  begun : s.deletion ≠ .waiting → s.gPool = none ∧ ∀ t, ¬ (s.deinit t).Owes
  exchanged : ∀ ptr, s.deletion = .exchanged ptr → ptr = some home
  destroyed : s.destroyed home = true → s.deletion = .ended
  ended : s.deletion = .ended → ∀ t, ¬ (s.deinit t).Reads
  each : ∀ t, (s.deinit t).Sound (owned t) (blocks t) s.next
  stack : ∃ list, Linked s.next (s.freeHead home).ptr list ∧
    ∀ c, c ∈ list ↔ c ∈ stack ∨ ∃ t, c ∈ (s.deinit t).given.map Prod.fst

/-- Which nodes are where, which no step changes. -/
structure Separate (owned blocks : T → List N) (stack : List N) : Prop where
  nodup : ∀ t, (owned t).Nodup
  apart : ∀ t u, t ≠ u → (owned t).Disjoint (owned u)
  unstacked : ∀ t, (owned t).Disjoint stack
  whole : ∀ t u, (owned t).Disjoint (blocks u)

theorem Separate.init (initial : State.Init owned blocks stack s) : Separate owned blocks stack :=
  ⟨fun t => (initial.chain t).nodup, initial.owned_owned, initial.owned_stack, initial.owned_blocks⟩

theorem Calm.init (initial : State.Init owned blocks stack s) : Calm owned blocks stack s := by
  refine ⟨initial.late, initial.built, fun _ => initial.gPool, fun begun => ?_, fun ptr gone => ?_,
    fun gone => ?_, fun ended => ?_, fun t => ⟨⟨owned t, initial.chain t, ?_⟩, fun e member => ?_, ?_⟩,
    stack, initial.freeStack, fun c => ?_⟩
  · exact absurd initial.deletion begun
  · rw [initial.deletion] at gone
    cases gone
  · rw [initial.destroyed] at gone
    cases gone
  · rw [initial.deletion] at ended
    cases ended
  · rw [initial.given, initial.phase]
    rfl
  · rw [initial.given] at member
    exact absurd member List.not_mem_nil
  · unfold Deinit.Stands
    rw [initial.phase]
    exact ⟨initial.free t, initial.touched t⟩
  · simp [initial.given]

/-- What holds of one `deinit`, and of the others. -/
theorem forall_put {P : T → Deinit N → Prop} (here : P t d) (others : ∀ u, u ≠ t → P u (s.deinit u))
    (u : T) : P u (Function.update s.deinit t d u) := by
  by_cases own : u = t
  · subst own
    rw [Function.update_self]
    exact here
  · rw [Function.update_of_ne own]
    exact others u own

/-- A `deinit` that owes or reads still finds its pool. -/
theorem Calm.alive (calm : Calm owned blocks stack s)
    (active : (s.deinit t).Owes ∨ (s.deinit t).Reads) : s.destroyed home = false := by
  cases gone : s.destroyed home with
  | false => rfl
  | true =>
    have ended := calm.destroyed gone
    obtain ⟨_, none_⟩ := calm.begun (by rw [ended]; simp)
    exact (active.elim (none_ t) (calm.ended ended t)).elim

/-- The words a step of a `deinit` leaves alone. -/
structure Kept (s s' : State T N) : Prop where
  late : s'.late = false
  built : s'.built = s.built
  deletion : s'.deletion = s.deletion
  gPool : s'.gPool = s.gPool
  destroyed : s'.destroyed = s.destroyed

/-- **A step of one `deinit`**: what it leaves alone, and what the others rely on. -/
theorem Calm.update (calm : Calm owned blocks stack s)
    (deinit : s'.deinit = Function.update s.deinit t d) (kept : Kept s s')
    (owes : d.Owes → (s.deinit t).Owes ∨ s.deletion = .waiting)
    (reads : d.Reads → (s.deinit t).Owes ∨ (s.deinit t).Reads ∨ s.deletion = .waiting)
    (sound : d.Sound (owned t) (blocks t) s'.next)
    (others : ∀ u, u ≠ t → (s.deinit u).Sound (owned u) (blocks u) s'.next)
    (stacked : ∃ list, Linked s'.next (s'.freeHead home).ptr list ∧
      ∀ c, c ∈ list ↔ c ∈ stack ∨ ∃ u, c ∈ (s'.deinit u).given.map Prod.fst) :
    Calm owned blocks stack s' := by
  obtain ⟨late, built, deletion, gPool, destroyed⟩ := kept
  refine ⟨late, built.trans calm.built, ?_, ?_, ?_, ?_, ?_, ?_, stacked⟩
  · rw [deletion, gPool]
    exact calm.waiting
  · rw [deletion, gPool, deinit]
    intro begun
    obtain ⟨null, none_⟩ := calm.begun begun
    refine ⟨null, forall_put (P := fun _ d => ¬ d.Owes) (fun bad => ?_) fun u _ => none_ u⟩
    exact (owes bad).elim (none_ t) begun
  · rw [deletion]
    exact calm.exchanged
  · rw [destroyed, deletion]
    exact calm.destroyed
  · rw [deletion, deinit]
    intro ended
    have begun : s.deletion ≠ .waiting := by
      rw [ended]
      simp
    obtain ⟨_, none_⟩ := calm.begun begun
    refine forall_put (P := fun _ d => ¬ d.Reads) (fun bad => ?_) fun u _ => calm.ended ended u
    rcases reads bad with bad | bad | bad
    · exact none_ t bad
    · exact calm.ended ended t bad
    · exact begun bad
  · rw [deinit]
    exact forall_put sound others

/-- A step that changes no link and returns nothing. -/
theorem Calm.still (calm : Calm owned blocks stack s)
    (deinit : s'.deinit = Function.update s.deinit t d) (kept : Kept s s')
    (words : s'.next = s.next ∧ s'.freeHead = s.freeHead) (given : d.given = (s.deinit t).given)
    (owes : d.Owes → (s.deinit t).Owes ∨ s.deletion = .waiting)
    (reads : d.Reads → (s.deinit t).Owes ∨ (s.deinit t).Reads ∨ s.deletion = .waiting)
    (sound : d.Sound (owned t) (blocks t) s.next) : Calm owned blocks stack s' := by
  obtain ⟨list, chain, members⟩ := calm.stack
  refine calm.update deinit kept owes reads (by rw [words.1]; exact sound)
    (fun u _ => by rw [words.1]; exact calm.each u) ⟨list, by rw [words.1, words.2]; exact chain, ?_⟩
  have same : ∀ u, (s'.deinit u).given = (s.deinit u).given := by
    rw [deinit]
    exact forall_put (P := fun u d => d.given = (s.deinit u).given) given fun _ _ => rfl
  intro c
  rw [members]
  simp only [same]

/-- A link that no other `deinit` relies on. -/
theorem Deinit.Sound.frame {mine : List N} {next : N → Option N} {p : N} {blocks : List N}
    (sound : d.Sound mine blocks next) (unowned : p ∉ mine) (whole : p ∉ blocks) (link : Option N) :
    d.Sound mine blocks (Function.update next p link) := by
  obtain ⟨⟨rest, chain, parts⟩, home, stands⟩ := sound
  have away : p ∉ rest := fun member => unowned (by rw [parts]; exact List.mem_append_right _ member)
  refine ⟨⟨rest, chain.update away link, parts⟩, home, ?_⟩
  unfold Deinit.Stands at stands ⊢
  split at stands
  · exact ⟨stands.1.update whole link, stands.2⟩
  · obtain ⟨walk, path, within⟩ := stands
    exact ⟨walk, path.update (fun member => whole (within member)) link, within⟩
  · exact stands
  · exact stands
  · exact stands
  · exact stands
  · rename_i q pool curr phase
    refine ⟨stands.1, ?_⟩
    have other : q ≠ p := by
      rintro rfl
      refine unowned ?_
      rw [parts, phase]
      simp [Phase.hand]
    rw [Function.update_of_ne other]
    exact stands.2
  · exact stands
  · exact stands
  · exact stands

/-! ### Every step of a quiet run -/

/-- Before the exchange, the pool is there. -/
theorem Calm.pool (calm : Calm owned blocks stack s) (owes : (s.deinit t).Owes) :
    s.deletion = .waiting ∧ s.gPool = some home := by
  by_cases waiting : s.deletion = .waiting
  · exact ⟨waiting, calm.waiting waiting⟩
  · exact absurd owes ((calm.begun waiting).2 t)

/-- Nothing was late, and a `deinit` that owes or reads is not. -/
theorem Calm.intime (calm : Calm owned blocks stack s)
    (active : (s.deinit t).Owes ∨ (s.deinit t).Reads) : (s.late || s.destroyed home) = false := by
  rw [calm.late, calm.alive active]
  rfl

/-- A chunk in hand is not on the free stack. -/
theorem Calm.unstacked (calm : Calm owned blocks stack s) (separate : Separate owned blocks stack)
    {list : List N} (members : ∀ c, c ∈ list ↔ c ∈ stack ∨
      ∃ t, c ∈ (s.deinit t).given.map Prod.fst) {p : N} (hand : p ∈ (s.deinit t).phase.hand) :
    p ∈ owned t ∧ p ∉ list := by
  obtain ⟨rest, _, parts⟩ := (calm.each t).rest
  have mine : p ∈ owned t := by
    rw [parts]
    exact List.mem_append_left _ (List.mem_append_right _ hand)
  refine ⟨mine, fun member => ?_⟩
  rcases (members p).mp member with old | ⟨u, given⟩
  · exact separate.unstacked t mine old
  · by_cases own : u = t
    · subst own
      have nodup := separate.nodup u
      rw [parts] at nodup
      exact List.disjoint_of_nodup_append nodup.of_append_left given hand
    · obtain ⟨_, _, theirs⟩ := (calm.each u).rest
      refine separate.apart t u (Ne.symm own) mine ?_
      rw [theirs]
      exact List.mem_append_left _ (List.mem_append_left _ given)

/-- **Every step of a `deinit`.** -/
theorem Calm.run (calm : Calm owned blocks stack s) (separate : Separate owned blocks stack)
    (next : s.run t = some s') : Calm owned blocks stack s' := by
  obtain ⟨⟨rest, chain, parts⟩, homes, stands⟩ := calm.each t
  unfold Deinit.Stands at stands
  unfold State.run at next
  cases phase : (s.deinit t).phase with
  | ready =>
    simp only [phase] at next stands parts
    split at next
    · cases next
      exact calm.still rfl ⟨calm.late, rfl, rfl, rfl, rfl⟩ ⟨rfl, rfl⟩ rfl (fun bad => bad.elim)
        (fun bad => bad.elim) ⟨⟨rest, chain, parts⟩, homes, .inr stands.2⟩
    · rename_i pool there
      cases next
      have waiting : s.deletion = .waiting := by
        by_contra begun
        rw [(calm.begun begun).1] at there
        cases there
      exact calm.still rfl ⟨calm.late, rfl, rfl, rfl, rfl⟩ ⟨rfl, rfl⟩ rfl (fun _ => .inr waiting)
        (fun _ => .inr (.inr waiting)) ⟨⟨rest, chain, parts⟩, homes, blocks t, stands.1, List.Subset.refl _⟩
  | walking f =>
    cases f with
    | none =>
      simp only [phase] at next stands parts
      cases next
      refine calm.still rfl ⟨calm.late, rfl, rfl, rfl, rfl⟩ ⟨rfl, rfl⟩ rfl (fun owes => .inl ?_)
        (fun bad => bad.elim) ⟨⟨rest, chain, parts⟩, homes, trivial⟩
      unfold Deinit.Owes
      rw [phase]
      exact owes
    | some f =>
      simp only [phase] at next stands parts
      cases next
      have reads : (s.deinit t).Reads := by
        unfold Deinit.Reads
        rw [phase]
        simp
      obtain ⟨walk, path, within⟩ := stands
      obtain ⟨more, rfl, tail⟩ := path.exists_cons
      refine calm.still rfl ⟨calm.intime (.inr reads), rfl, rfl, rfl, rfl⟩ ⟨rfl, rfl⟩ rfl
        (fun owes => .inl ?_) (fun _ => .inr (.inl reads))
        ⟨⟨rest, chain, parts⟩, homes, more, tail,
          List.Subset.trans (List.subset_cons_self _ _) within⟩
      unfold Deinit.Owes
      rw [phase]
      exact owes
  | looping =>
    simp only [phase] at next stands parts
    split at next
    · rename_i null
      cases next
      exact calm.still rfl ⟨calm.late, rfl, rfl, rfl, rfl⟩ ⟨rfl, rfl⟩ rfl (fun bad => bad.elim)
        (fun bad => bad.elim) ⟨⟨rest, chain, parts⟩, homes, .inl null⟩
    · rename_i p head
      cases next
      have owes : (s.deinit t).Owes := by
        unfold Deinit.Owes
        rw [phase, head]
        simp
      rw [head] at chain
      obtain ⟨more, rfl, tail⟩ := chain.exists_cons
      refine calm.still rfl ⟨calm.intime (.inl owes), rfl, rfl, rfl, rfl⟩ ⟨rfl, rfl⟩ rfl
        (fun _ => .inl owes) (fun bad => bad.elim) ⟨⟨more, tail, ?_⟩, homes, trivial⟩
      rw [parts]
      simp [Phase.hand]
  | unlinked p =>
    simp only [phase] at next stands parts
    have owes : (s.deinit t).Owes := by
      unfold Deinit.Owes
      rw [phase]
      trivial
    obtain ⟨waiting, pool⟩ := calm.pool owes
    rw [pool] at next
    cases next
    exact calm.still rfl ⟨calm.late, rfl, rfl, rfl, rfl⟩ ⟨rfl, rfl⟩ rfl (fun _ => .inl owes)
      (fun _ => .inl owes) ⟨⟨rest, chain, parts⟩, homes, rfl⟩
  | constructing p => simp only [phase] at stands
  | installing p newPool => simp only [phase] at stands
  | pushing p pool =>
    simp only [phase] at next stands parts
    cases next
    have reads : (s.deinit t).Reads := by
      unfold Deinit.Reads
      rw [phase]
      trivial
    refine calm.still rfl ⟨calm.late, rfl, rfl, rfl, rfl⟩ ⟨rfl, rfl⟩ rfl (fun owes => .inl ?_)
      (fun _ => .inr (.inl reads)) ⟨⟨rest, chain, parts⟩, homes, stands⟩
    unfold Deinit.Owes
    rw [phase]
    exact owes
  | linking p pool curr =>
    simp only [phase] at next stands parts
    cases next
    have reads : (s.deinit t).Reads := by
      unfold Deinit.Reads
      rw [phase]
      trivial
    obtain ⟨list, onStack, members⟩ := calm.stack
    have hand : p ∈ (s.deinit t).phase.hand := by
      rw [phase]
      exact List.mem_singleton.mpr rfl
    obtain ⟨mine, off⟩ := calm.unstacked separate members hand
    have nodup := separate.nodup t
    rw [parts] at nodup
    have behind : p ∉ rest := fun member => List.disjoint_of_nodup_append nodup
      (List.mem_append_right _ (List.mem_singleton.mpr rfl)) member
    refine calm.update rfl ⟨calm.intime (.inr reads), rfl, rfl, rfl, rfl⟩ (fun owes => .inl ?_)
      (fun _ => .inr (.inl reads)) ?_ (fun u other => ?_) ⟨list, onStack.update off curr.ptr, ?_⟩
    · unfold Deinit.Owes
      rw [phase]
      exact owes
    · exact ⟨⟨rest, chain.update behind curr.ptr, parts⟩, homes, stands, Function.update_self ..⟩
    · exact (calm.each u).frame (fun theirs => separate.apart t u (Ne.symm other) mine theirs)
        (fun theirs => separate.whole t u mine theirs) curr.ptr
    · have same : ∀ u, (Function.update s.deinit t
          { s.deinit t with phase := .swapping p pool curr, touched := true } u).given
          = (s.deinit u).given :=
        forall_put (P := fun u d => d.given = (s.deinit u).given) rfl fun _ _ => rfl
      intro c
      rw [members]
      show _ ↔ c ∈ stack ∨ ∃ u, c ∈ (Function.update s.deinit t
        { s.deinit t with phase := .swapping p pool curr, touched := true } u).given.map Prod.fst
      simp only [same]
  | swapping p pool curr =>
    simp only [phase] at next stands parts
    have reads : (s.deinit t).Reads := by
      unfold Deinit.Reads
      rw [phase]
      trivial
    obtain ⟨rfl, link⟩ := stands
    split at next
    · rename_i equal
      cases next
      have there := calm.alive (.inr reads)
      obtain ⟨list, onStack, members⟩ := calm.stack
      have hand : p ∈ (s.deinit t).phase.hand := by
        rw [phase]
        exact List.mem_singleton.mpr rfl
      refine calm.update rfl ⟨calm.late, rfl, rfl, rfl, rfl⟩ (fun owes => .inl ?_) (fun bad => bad.elim)
        ⟨⟨rest, chain, ?_⟩, ?_, trivial⟩ (fun u _ => calm.each u) ⟨p :: list, ?_, fun c => ?_⟩
      · unfold Deinit.Owes
        rw [phase]
        exact owes
      · rw [parts]
        simp [Phase.hand]
      · intro e member
        rcases List.mem_append.mp member with older | new
        · exact homes e older
        · rw [List.mem_singleton.mp new]
          show (if s.destroyed home then none else some home) = some home
          rw [there]
          rfl
      · show Linked s.next (Function.update s.freeHead home ⟨curr.aba + 1, some p⟩ home).ptr (p :: list)
        rw [Function.update_self]
        refine ⟨rfl, ?_⟩
        rw [link, ← equal]
        exact onStack
      · have grown : ∀ u, c ∈ (Function.update s.deinit t { s.deinit t with
            phase := .looping
            given := (s.deinit t).given ++ [(p, if s.destroyed home then none else some home)] }
              u).given.map Prod.fst ↔ u = t ∧ c = p ∨ c ∈ (s.deinit u).given.map Prod.fst := by
          intro u
          by_cases own : u = t
          · subst own
            rw [Function.update_self]
            simp [or_comm]
          · rw [Function.update_of_ne own]
            simp [own]
        show _ ↔ c ∈ stack ∨ ∃ u, c ∈ (Function.update s.deinit t _ u).given.map Prod.fst
        simp only [grown, List.mem_cons, members]
        constructor
        · rintro (rfl | old | ⟨u, given⟩)
          · exact .inr ⟨t, .inl ⟨rfl, rfl⟩⟩
          · exact .inl old
          · exact .inr ⟨u, .inr given⟩
        · rintro (old | ⟨u, ⟨_, rfl⟩ | given⟩)
          · exact .inr (.inl old)
          · exact .inl rfl
          · exact .inr (.inr ⟨u, given⟩)
    · cases next
      refine calm.still rfl ⟨calm.late, rfl, rfl, rfl, rfl⟩ ⟨rfl, rfl⟩ rfl (fun owes => .inl ?_)
        (fun _ => .inr (.inl reads)) ⟨⟨rest, chain, parts⟩, homes, rfl⟩
      unfold Deinit.Owes
      rw [phase]
      exact owes
  | done =>
    simp only [phase] at next
    cases next

/-- **Every quiet step.** -/
theorem Calm.step (calm : Calm owned blocks stack s) (separate : Separate owned blocks stack)
    (quiet : Quiet s act) (next : s.step act = some s') : Calm owned blocks stack s' := by
  cases act with
  | run t => exact calm.run separate next
  | spurious t =>
    simp only [State.step] at next
    split at next
    · rename_i p pool curr phase
      cases next
      obtain ⟨⟨rest, chain, parts⟩, homes, stands⟩ := calm.each t
      unfold Deinit.Stands at stands
      rw [phase] at stands parts
      refine calm.still rfl ⟨calm.late, rfl, rfl, rfl, rfl⟩ ⟨rfl, rfl⟩ rfl (fun owes => .inl ?_)
        (fun _ => .inr (.inl ?_)) ⟨⟨rest, chain, parts⟩, homes, stands.1⟩
      · unfold Deinit.Owes
        rw [phase]
        exact owes
      · unfold Deinit.Reads
        rw [phase]
        trivial
    · cases next
  | exchange =>
    simp only [State.step] at next
    split at next
    · rename_i waiting
      cases next
      refine { calm with
        waiting := fun bad => (by cases bad)
        begun := fun _ => ⟨rfl, quiet⟩
        exchanged := fun ptr same => ?_
        destroyed := fun gone => ?_
        ended := fun bad => (by cases bad) }
      · cases same
        exact calm.waiting waiting
      · have ended := calm.destroyed gone
        rw [waiting] at ended
        cases ended
    · cases next
  | destroy =>
    simp only [State.step] at next
    split at next
    · rename_i pool exchanged
      cases next
      obtain ⟨null, none_⟩ := calm.begun (by rw [exchanged]; simp)
      exact { calm with
        waiting := fun bad => (by cases bad)
        begun := fun _ => ⟨null, none_⟩
        exchanged := fun _ bad => (by cases bad)
        destroyed := fun _ => rfl
        ended := fun _ => quiet }
    · rename_i exchanged
      have bad := calm.exchanged none exchanged
      cases bad
    · cases next

/-- **A calm state is safe.** -/
theorem Calm.safe (calm : Calm owned blocks stack s) : Safe owned s := by
  refine ⟨calm.late, calm.built, fun t ended => ?_, fun _ => ?_⟩
  · obtain ⟨⟨rest, chain, parts⟩, homes, stands⟩ := calm.each t
    unfold Deinit.Stands at stands
    rw [ended] at stands parts
    rcases stands with null | untouched
    · refine .inr ?_
      rw [null] at chain
      rw [chain.eq_nil] at parts
      have firsts : owned t = (s.deinit t).given.map Prod.fst := by
        rw [parts]
        simp [Phase.hand]
      rw [firsts, List.map_map]
      calc (s.deinit t).given = (s.deinit t).given.map id := (List.map_id _).symm
        _ = (s.deinit t).given.map ((fun c => (c, some Shutdown.home)) ∘ Prod.fst) :=
          List.map_congr_left fun e member => Prod.ext rfl (homes e member)
    · exact .inl untouched
  · obtain ⟨list, chain, members⟩ := calm.stack
    exact ⟨list, chain, fun t e member => (members e.1).mpr (.inr ⟨t, List.mem_map_of_mem member⟩)⟩

/-! ### What no run undoes -/

/-- What holds in every run, quiet or not. -/
structure Plain (s : State T N) : Prop where
  built : 1 ≤ s.built
  installing : ∀ t p new, (s.deinit t).phase = .installing p new → 2 ≤ s.built
  waiting : s.deletion = .waiting → s.gPool = some home
  exchanged : ∀ ptr, s.deletion = .exchanged ptr → ptr = some home
  given : ∀ t, (s.deinit t).given ≠ [] → (s.deinit t).touched = true ∧ (s.deinit t).phase ≠ .ready
  swapping : ∀ t p pool curr, (s.deinit t).phase = .swapping p pool curr →
    (s.deinit t).touched = true

theorem Plain.init (initial : State.Init owned blocks stack s) : Plain s := by
  refine ⟨by rw [initial.built], fun t p new phase => ?_, fun _ => initial.gPool, fun ptr gone => ?_,
    fun t some_ => absurd (initial.given t) some_, fun t p pool curr phase => ?_⟩
  · rw [initial.phase] at phase
    cases phase
  · rw [initial.deletion] at gone
    cases gone
  · rw [initial.phase] at phase
    cases phase

theorem Plain.step (plain : Plain s) (next : s.step act = some s') : Plain s' := by
  obtain ⟨built, installing, waiting, exchanged, given, swapping⟩ := plain
  cases act with
  | run t =>
    simp only [State.step, State.run] at next
    split at next <;> (try split at next) <;> (try cases next) <;>
      (constructor <;> grind)
  | spurious t =>
    simp only [State.step] at next
    split at next <;> (try cases next)
    constructor <;> grind
  | exchange =>
    simp only [State.step] at next
    split at next <;> (try cases next)
    constructor <;> grind
  | destroy =>
    simp only [State.step] at next
    split at next <;> (try cases next) <;> constructor <;> grind

/-- **The exchange overtook a `deinit`**: it will not find its pool. -/
structure Overtaken (s : State T N) (t : T) : Prop where
  begun : s.deletion ≠ .waiting
  pool : s.gPool = none ∨ 2 ≤ s.built
  fate : 2 ≤ s.built ∨ (s.deinit t).Owes

theorem Overtaken.step (overtaken : Overtaken s t) (plain : Plain s) (next : s.step act = some s') :
    Overtaken s' t := by
  obtain ⟨begun, pool, fate⟩ := overtaken
  obtain ⟨built, installing, _⟩ := plain
  cases act with
  | run u =>
    simp only [State.step, State.run] at next
    split at next <;> (try split at next) <;> (try cases next) <;>
      (constructor <;> grind [Deinit.Owes])
  | spurious u =>
    simp only [State.step] at next
    split at next <;> (try cases next)
    constructor <;> grind [Deinit.Owes]
  | exchange =>
    cases deletion : s.deletion with
    | waiting => exact absurd deletion begun
    | exchanged ptr => simp [State.step, deletion] at next
    | ended => simp [State.step, deletion] at next
  | destroy =>
    simp only [State.step] at next
    split at next <;> (try cases next) <;> constructor <;> grind

/-- A chunk went to another pool, or to one that was not there any more. -/
def Deinit.Strayed (d : Deinit N) : Prop := ∃ e ∈ d.given, e.2 ≠ some home

/-- **The destruction struck a `deinit`** at a chunk. -/
structure Struck (s : State T N) (t : T) : Prop where
  gone : s.destroyed home = true
  fate : s.late = true ∨ (s.deinit t).Strayed ∨ (s.deinit t).Reads

/-- What a step of a `deinit` does not undo. -/
theorem State.run_keeps (next : s.run u = some s') :
    (s.late = true → s'.late = true) ∧ (s.destroyed home = true → s'.destroyed home = true) ∧
      (∀ t, t ≠ u → s'.deinit t = s.deinit t) ∧ (s.deinit u).given <+: (s'.deinit u).given := by
  simp only [State.run] at next
  split at next <;> (try split at next) <;> (try cases next) <;>
    exact ⟨fun late => by simp [late], fun gone => by simp [gone, Function.update_apply],
      fun t other => by simp [other], by simp⟩

/-- **A `deinit` about to touch a chunk that is gone** does so, or gives it away. -/
theorem State.run_reads (next : s.run u = some s') (gone : s.destroyed home = true)
    (reads : (s.deinit u).Reads) :
    s'.late = true ∨ (s'.deinit u).Strayed ∨ (s'.deinit u).Reads := by
  unfold Deinit.Reads at reads
  cases phase : (s.deinit u).phase with
  | walking f =>
    cases f with
    | none =>
      rw [phase] at reads
      exact absurd rfl reads
    | some f =>
      simp only [State.run, phase] at next
      cases next
      exact .inl (by simp [gone])
  | pushing p pool =>
    simp only [State.run, phase] at next
    cases next
    exact .inr (.inr (by simp [Deinit.Reads]))
  | linking p pool curr =>
    simp only [State.run, phase] at next
    cases next
    exact .inl (by simp [gone])
  | swapping p pool curr =>
    simp only [State.run, phase] at next
    split at next
    · cases next
      -- the pool is gone, or it is another one
      refine .inr (.inl ?_)
      show Deinit.Strayed (Function.update s.deinit u _ u)
      rw [Function.update_self]
      refine ⟨_, List.mem_append_right _ (List.mem_singleton.mpr rfl), ?_⟩
      grind
    · cases next
      exact .inr (.inr (by simp [Deinit.Reads]))
  | _ =>
    rw [phase] at reads
    exact reads.elim

theorem Struck.step (struck : Struck s t) (next : s.step act = some s') : Struck s' t := by
  obtain ⟨gone, fate⟩ := struck
  cases act with
  | run u =>
    obtain ⟨late, destroyed, others, given⟩ := State.run_keeps next
    refine ⟨destroyed gone, ?_⟩
    by_cases own : t = u
    · subst own
      rcases fate with was | astray | reads
      · exact .inl (late was)
      · obtain ⟨e, member, other⟩ := astray
        exact .inr (.inl ⟨e, given.subset member, other⟩)
      · exact State.run_reads next gone reads
    · rw [others t own]
      exact fate.imp_left late
  | spurious u =>
    simp only [State.step] at next
    split at next <;> (try cases next)
    constructor <;> grind [Deinit.Reads, Deinit.Strayed]
  | exchange =>
    simp only [State.step] at next
    split at next <;> (try cases next)
    exact ⟨gone, fate⟩
  | destroy =>
    simp only [State.step] at next
    split at next <;> (try cases next)
    · exact ⟨by grind [Function.update_apply], fate⟩
    · exact ⟨gone, fate⟩

variable {last : State T N} {acts : List (Act T)}

/-- **A safe end shows that the exchange overtook nobody.** -/
theorem Overtaken.unsafe_ (overtaken : Overtaken s t) (plain : Plain s)
    (run : (machine owned blocks stack).Exec Machine.anyStep s acts last) (complete : Complete last) :
    ¬ Safe owned last := by
  intro safe
  have after := run.preserves (I := fun s => Plain s ∧ Overtaken s t)
    (fun s act s' holds _ next => ⟨holds.1.step next, holds.2.step holds.1 next⟩) ⟨plain, overtaken⟩
  rcases after.2.fate with more | owes
  · rw [safe.built] at more
    omega
  · unfold Deinit.Owes at owes
    rcases complete t with ready | done
    · rw [ready] at owes
      exact owes
    · rw [done] at owes
      exact owes

/-- **A safe end shows that the destruction struck nobody.** -/
theorem Struck.unsafe_ (struck : Struck s t) (plain : Plain s)
    (run : (machine owned blocks stack).Exec Machine.anyStep s acts last) (complete : Complete last) :
    ¬ Safe owned last := by
  intro safe
  have after := run.preserves (I := fun s => Plain s ∧ Struck s t)
    (fun s act s' holds _ next => ⟨holds.1.step next, holds.2.step next⟩) ⟨plain, struck⟩
  rcases after.2.fate with late | ⟨e, member, astray⟩ | reads
  · rw [safe.late] at late
    cases late
  · have some_ : (last.deinit t).given ≠ [] := fun none_ => by
      rw [none_] at member
      exact absurd member List.not_mem_nil
    obtain ⟨touched, begun⟩ := after.1.given t some_
    rcases safe.all t ((complete t).resolve_left begun) with untouched | all
    · rw [touched] at untouched
      cases untouched
    · rw [all] at member
      obtain ⟨c, _, rfl⟩ := List.mem_map.mp member
      exact astray rfl
  · unfold Deinit.Reads at reads
    rcases complete t with ready | done
    · rw [ready] at reads
      exact reads
    · rw [done] at reads
      exact reads

/-- **A run that ends safely was quiet.** -/
theorem quiet_of_safe (plain : Plain s)
    (run : (machine owned blocks stack).Exec Machine.anyStep s acts last) (complete : Complete last)
    (safe : Safe owned last) : (machine owned blocks stack).Exec Quiet s acts last := by
  induction run with
  | nil => exact .nil _
  | @cons s middle last act acts _ next rest ih =>
    have after := plain.step next
    refine .cons ?_ next (ih after complete safe)
    cases act with
    | run u => trivial
    | spurious u => trivial
    | exchange =>
      intro t owes
      have overtaken : Overtaken middle t := by
        simp only [machine, State.step] at next
        split at next <;> (try cases next)
        exact ⟨by simp, .inl rfl, .inr owes⟩
      exact overtaken.unsafe_ after rest complete safe
    | destroy =>
      intro t reads
      have struck : Struck middle t := by
        simp only [machine, State.step] at next
        split at next <;> (try cases next)
        · rename_i pool exchanged
          have origin := plain.exchanged (some pool) exchanged
          cases origin
          have gone : Function.update s.destroyed home true home = true := Function.update_self ..
          exact ⟨gone, .inr (.inr reads)⟩
        · rename_i exchanged
          have origin := plain.exchanged none exchanged
          cases origin
      exact struck.unsafe_ after rest complete safe

/-! ### The result -/

/-- **Shutdown is safe exactly when `del_global_pool` overtakes no `deinit`**: every state of a quiet
run is safe, and a run of any threads that lets each `deinit` come to its end is safe if and only if it
is quiet. -/
theorem shutdown_safe_iff (owned blocks : T → List N) (stack : List N) (start last : State T N)
    (acts : List (Act T)) (initial : State.Init owned blocks stack start)
    (run : (machine owned blocks stack).Exec Machine.anyStep start acts last) :
    ((machine owned blocks stack).Exec Quiet start acts last → Safe owned last) ∧
    (Complete last →
      (Safe owned last ↔ (machine owned blocks stack).Exec Quiet start acts last)) := by
  have separate := Separate.init initial
  have safe : (machine owned blocks stack).Exec Quiet start acts last → Safe owned last := fun quiet =>
    (quiet.preserves (I := Calm owned blocks stack)
      (fun s act s' calm still next => calm.step separate still next) (Calm.init initial)).safe
  exact ⟨safe, fun complete => ⟨quiet_of_safe (Plain.init initial) run complete, safe⟩⟩

/-- One thread with one chunk and an empty free list. -/
def State.one : State Unit Unit :=
  ⟨some home, 1, fun _ => ⟨0, none⟩, fun _ => false, fun _ => none,
    fun _ => ⟨some (), none, .ready, false, []⟩, .waiting, false⟩

theorem State.one_init : State.Init (fun _ => [()]) (fun _ => []) [] State.one := by
  refine ⟨rfl, rfl, fun _ => rfl, rfl, rfl, rfl, fun _ => ⟨rfl, rfl⟩, fun _ => rfl, fun _ => rfl,
    fun _ => rfl, fun _ => rfl, fun t u other => absurd rfl other, fun _ => List.disjoint_nil_right _,
    fun _ _ => List.disjoint_nil_right _⟩

/-- Three threads that exit. -/
inductive Leaver
  | first
  | second
  | third
deriving DecidableEq

/-- The one chunk of each. -/
def Leaver.chunk : Leaver → Nat
  | .first => 0
  | .second => 1
  | .third => 2

/-- The second has two free blocks as well. -/
def Leaver.free : Leaver → List Nat
  | .second => [4, 5]
  | _ => []

def Leaver.chunks (t : Leaver) : List Nat := [t.chunk]

def State.three : State Leaver Nat :=
  ⟨some home, 1, fun _ => ⟨0, none⟩, fun _ => false, fun n => if n = 4 then some 5 else none,
    fun t => ⟨some t.chunk, t.free.head?, .ready, false, []⟩, .waiting, false⟩

theorem State.three_init : State.Init Leaver.chunks Leaver.free [] State.three := by
  refine ⟨rfl, rfl, fun _ => rfl, rfl, rfl, rfl, fun t => ?_, fun t => ?_, fun _ => rfl, fun _ => rfl,
    fun _ => rfl, fun t u other => ?_, fun _ => List.disjoint_nil_right _, fun t u => ?_⟩
  · cases t <;> exact ⟨rfl, rfl⟩
  · cases t with
    | first | third => exact rfl
    | second => exact ⟨rfl, rfl, rfl⟩
  · rw [List.disjoint_left]
    cases t <;> cases u <;> first | exact absurd rfl other | decide
  · rw [List.disjoint_left]
    cases t <;> cases u <;> decide

/-- Two of them push at once, so that one compare-exchange fails; the third starts behind the
exchange. -/
def threeRun : List (Act Leaver) :=
  List.replicate 6 (.run .first) ++ List.replicate 8 (.run .second) ++ [.run .first] ++
    List.replicate 4 (.run .second) ++ [.run .first, .exchange, .run .third, .destroy]

/-- The `deinit` is over. -/
def Phase.isDone : Phase N → Bool
  | .done => true
  | _ => false

theorem Phase.isDone_iff {phase : Phase N} : phase.isDone = true ↔ phase = .done := by
  cases phase <;> simp [Phase.isDone]

instance (d : Deinit N) : Decidable d.Owes := by
  unfold Deinit.Owes
  split <;> infer_instance

instance (d : Deinit N) : Decidable d.Reads := by
  unfold Deinit.Reads
  split <;> infer_instance

instance (p : Leaver → Prop) [DecidablePred p] : Decidable (∀ t, p t) :=
  decidable_of_iff (p .first ∧ p .second ∧ p .third)
    ⟨fun ⟨first, second, third⟩ t => by cases t <;> assumption, fun all => ⟨all _, all _, all _⟩⟩

instance (s : State Leaver N) (act : Act Leaver) : Decidable (Quiet s act) := by
  cases act <;> unfold Quiet <;> infer_instance

/-- What can be seen of a `deinit` from outside. -/
structure Outcome (N : Type) where
  done : Bool
  given : List (N × Option Nat)
  touched : Bool
deriving DecidableEq

def Deinit.outcome (d : Deinit N) : Outcome N := ⟨d.phase.isDone, d.given, d.touched⟩

/-- The chunks that were pushed are where they came from, and the third `deinit` touched nothing. -/
theorem shutdown_safe_three : ∃ last, Complete last ∧
    (machine Leaver.chunks Leaver.free []).Exec Machine.anyStep State.three threeRun last ∧
    Safe Leaver.chunks last ∧ (last.deinit .first).outcome = ⟨true, [(0, some home)], true⟩ ∧
    (last.deinit .second).outcome = ⟨true, [(1, some home)], true⟩ ∧
    (last.deinit .third).outcome = ⟨true, [], false⟩ := by
  have reached : ((machine Leaver.chunks Leaver.free []).runFrom Quiet State.three threeRun).map (fun s =>
      [(s.deinit .first).outcome, (s.deinit .second).outcome, (s.deinit .third).outcome])
      = some [⟨true, [(0, some home)], true⟩, ⟨true, [(1, some home)], true⟩, ⟨true, [], false⟩] := by
    decide +kernel
  obtain ⟨last, found, seen⟩ := Option.map_eq_some_iff.mp reached
  simp only [List.cons.injEq, and_true] at seen
  obtain ⟨first, second, third⟩ := seen
  have quiet := Machine.exec_of_runFrom found
  have any : (machine Leaver.chunks Leaver.free []).Exec Machine.anyStep State.three threeRun last :=
    quiet.mono fun _ _ _ => trivial
  have complete : Complete last := fun t => .inr (Phase.isDone_iff.mp (by
    cases t with
    | first => exact congrArg Outcome.done first
    | second => exact congrArg Outcome.done second
    | third => exact congrArg Outcome.done third))
  exact ⟨last, complete, any, ((shutdown_safe_iff _ _ _ _ _ _ State.three_init any).2 complete).mpr quiet,
    first, second, third⟩

/-- **The exchange behind the test**: a `deinit` finds the pool alive, `g_pool` is exchanged, and the
`deinit` constructs a second pool. -/
theorem shutdown_overtakes : ¬ ∀ (start last : State Unit Unit) (acts : List (Act Unit)),
    State.Init (fun _ => [()]) (fun _ => []) [] start →
    (machine (fun _ => [()]) (fun _ => []) []).Exec Machine.anyStep start acts last →
      Safe (fun _ => [()]) last := by
  intro claim
  have run : ∃ last : State Unit Unit, last.built = 2 ∧
      (machine (fun _ => [()]) (fun _ => []) []).Exec Machine.anyStep State.one
        [.run (), .exchange, .run (), .run (), .run (), .run ()] last :=
    ⟨_, rfl, .cons trivial rfl <| .cons trivial rfl <| .cons trivial rfl <| .cons trivial rfl <|
      .cons trivial rfl <| .cons trivial rfl <| .nil _⟩
  obtain ⟨last, built, run⟩ := run
  have safe := claim State.one last _ State.one_init run
  rw [safe.built] at built
  cases built

end NpAlloc.Shutdown
