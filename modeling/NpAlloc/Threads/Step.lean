/-
**Every step keeps the invariant.**

One lemma for each action, about what the action changes: a phase (`Inv.goto`), the place of one chunk
(`Inv.pop`, `Inv.advance`, `Inv.push`, `Inv.unlinkHead`), a block (`Inv.alloc`, `Inv.free`), a byte
(`Inv.write`, `Inv.elsewhere`), or a free list (`Inv.close`). The hand-over of a chunk needs that none
of its blocks is in use; nothing else needs more than the environment.
-/

import NpAlloc.Threads.Invariant

set_option linter.unusedSectionVars false

namespace NpAlloc.Threads

open Mmap Pool

variable {T : Type} [DecidableEq T] {s s' : State T} {n : Nat} {t u : T} {i j : SizeClass}
  {k l : Index T} {c d : Nat} {mem' : Memory} {phase : Phase}

/-! ### Initial states -/

theorem Inv.init (start : State.Init n s) : Inv n s := by
  obtain ⟨base, space, head, free, pool, absent, live, freed, layout, stack⟩ := start
  have views : view s = fun k => .new (classSize k.2) kDefaultChunkSize := by
    funext k
    unfold view
    rw [pool]
    split <;> rfl
  have layouts : s.ghost.layout = fun _ => .empty := funext layout
  have nowhere : ∀ c p, ¬ At s c p := by
    intro c p here
    cases p with
    | stack =>
      change c ∈ s.ghost.stack at here
      rw [stack] at here
      exact absurd here List.not_mem_nil
    | chain k =>
      change c ∈ (s.ghost.layout k).bases at here
      rw [layout] at here
      exact absurd here List.not_mem_nil
    | hand t =>
      change (s.phase t).hand = some c at here
      rw [absent] at here
      cases here
  have none_ : ∀ c, ¬ Issued s c := by
    rintro c ⟨j, rfl, below⟩
    rw [head] at below
    unfold chunkAt at below
    omega
  refine ⟨⟨base, space, 0, Nat.zero_le n, ?_⟩, ?_, fun k => ?_, ?_, ?_, fun b member => ?_,
    fun t => ?_, ?_⟩
  · rw [head, chunkAt_zero]
  · exact ⟨fun c p here => absurd here (nowhere c p), fun c issued => absurd issued (none_ c),
      fun c p _ here _ => absurd here (nowhere c p)⟩
  · rw [layout]
    exact List.nodup_nil
  · rw [free, stack]
    rfl
  · rw [views, layouts, live]
    exact Housing.init Prod.snd s.mem
  · rw [live] at member
    exact absurd member List.not_mem_nil
  · rw [pool, absent]
    exact ⟨trivial, fun _ _ => rfl, fun _ => rfl, fun _ request => (by cases request)⟩
  · refine ⟨fun k block member => ?_, fun k block member => ?_, fun k block member => ?_,
      fun block u freed' => ?_⟩
    · rw [layout] at member
      exact absurd member List.not_mem_nil
    · rw [layout] at member
      exact absurd member List.not_mem_nil
    · rw [layout] at member
      exact absurd member List.not_mem_nil
    · rw [freed] at freed'
      cases freed'

/-! ### Phases -/

/-- What holds of one thread, and of the others. -/
theorem forall_update {A : Type} {f : T → A} {a : A} {P : T → A → Prop} (here : P t a)
    (others : ∀ u, u ≠ t → P u (f u)) (u : T) : P u (Function.update f t a u) := by
  by_cases own : u = t
  · subst own
    rw [Function.update_self]
    exact here
  · rw [Function.update_of_ne own]
    exact others u own

/-- Between two calls. -/
theorem Stands.idle {pool : ThreadPool} {layout : SizeClass → Layout} : Stands pool layout .idle :=
  ⟨trivial, fun _ ended => ended.elim, fun absent => (by cases absent),
    fun _ request => (by cases request)⟩

/-- Chunks that stay where they are. -/
theorem at_congr (stack : s'.ghost.stack = s.ghost.stack)
    (bases : ∀ k, (s'.ghost.layout k).bases = (s.ghost.layout k).bases)
    (hand : ∀ u, (s'.phase u).hand = (s.phase u).hand) (c : Nat) (p : Place T) :
    At s' c p ↔ At s c p := by
  cases p with
  | stack => rw [at_stack, at_stack, stack]
  | chain k => rw [at_chain, at_chain, bases]
  | hand u => rw [at_hand, at_hand, hand]

/-- Where chunks are when a thread has let go of one, or has taken one. -/
theorem at_hand_update (t : T) (phase : Phase) (u : T) :
    (Function.update s.phase t phase u).hand = some c ↔
      u = t ∧ phase.hand = some c ∨ u ≠ t ∧ (s.phase u).hand = some c := by
  by_cases own : u = t
  · subst own
    simp
  · rw [Function.update_of_ne own]
    simp [own]

/-- The view when the pools stay and the same free lists are open. -/
theorem view_same (pool : s'.pool = s.pool) (phases : s'.phase = Function.update s.phase t phase)
    (same : ∀ i, phase.Open i ↔ (s.phase t).Open i) : view s' = view s := by
  funext k
  refine view_congr (by rw [pool]) ?_
  rw [phases]
  by_cases own : k.1 = t
  · rw [own, Function.update_self]
    exact same k.2
  · rw [Function.update_of_ne own]

/-- The history when the blocks stay and the same free lists are open. -/
theorem History.same (history : History s) (layout : s'.ghost.layout = s.ghost.layout)
    (freed : s'.freedBy = s.freedBy) (phases : s'.phase = Function.update s.phase t phase)
    (same : ∀ i, phase.Open i ↔ (s.phase t).Open i) (known : phase ≠ .absent) : History s' := by
  obtain ⟨carved, frees, live, found⟩ := history
  refine ⟨?_, ?_, ?_, ?_⟩ <;> rw [freed]
  · rw [layout, phases]
    intro k block member
    rcases carved k block member with used | ⟨u, by_, closed⟩
    · exact .inl used
    · exact .inr ⟨u, by_, forall_update
        (P := fun (u : T) (phase : Phase) => ¬ (s.phase u).Open k.2 → ¬ phase.Open k.2)
        (fun closed => mt (same k.2).mp closed) (fun _ _ closed => closed) u closed⟩
  · rw [layout]
    exact frees
  · rw [layout]
    exact live
  · rw [phases]
    intro block u by_
    exact forall_update (P := fun (u : T) (phase : Phase) => s.phase u ≠ .absent → phase ≠ .absent)
      (fun _ => known) (fun _ _ known => known) u (found block u by_)

/-- **A phase that changes nothing but the call.** -/
theorem Inv.goto (inv : Inv n s) (same : ∀ i, phase.Open i ↔ (s.phase t).Open i)
    (hand : phase.hand = (s.phase t).hand) (known : phase ≠ .absent)
    (stands : Stands (s.pool t) (fun i => s.ghost.layout (t, i)) phase) :
    Inv n (s.goto t phase) := by
  have hands : ∀ u, ((s.goto t phase).phase u).hand = (s.phase u).hand :=
    forall_update (P := fun (u : T) (phase : Phase) => phase.hand = (s.phase u).hand) hand fun _ _ => rfl
  refine { inv with
    located := inv.located.congr (fun _ => Iff.rfl) (at_congr rfl (fun _ => rfl) hands)
    housing := ?_
    stands := ?_
    history := inv.history.same rfl rfl rfl same known }
  · rw [show view (s.goto t phase) = view s from view_same rfl rfl same]
    exact inv.housing
  · exact forall_update (P := fun (u : T) (phase : Phase) =>
      Stands (s.pool u) (fun i => s.ghost.layout (u, i)) phase) stands fun u _ => inv.stands u

/-- **A thread starts**: its pools are new. -/
theorem Inv.start (inv : Inv n s) (absent : s.phase t = .absent) : Inv n (s.goto t .idle) := by
  have views : view (s.goto t .idle) = view s := by
    funext k
    by_cases own : k.1 = t
    · have closed : ¬ (s.phase k.1).Open k.2 := by
        rw [own, absent]
        exact id
      have opened : ((s.goto t .idle).phase k.1).Open k.2 := by
        show (Function.update s.phase t .idle k.1).Open k.2
        rw [own, Function.update_self]
        trivial
      have new : s.pool k.1 = .init := (inv.stands k.1).absent (by rw [own, absent])
      show (if _ then (s.pool k.1).tlsPool k.2 else _) = if _ then _ else _
      rw [if_pos opened, if_neg closed, new]
      rfl
    · refine view_congr rfl ?_
      show (Function.update s.phase t .idle k.1).Open k.2 ↔ _
      rw [Function.update_of_ne own]
  have hands : ∀ u, ((s.goto t .idle).phase u).hand = (s.phase u).hand :=
    forall_update (P := fun (u : T) (phase : Phase) => phase.hand = (s.phase u).hand) (by rw [absent]; rfl)
      fun _ _ => rfl
  refine { inv with
    located := inv.located.congr (fun _ => Iff.rfl) (at_congr rfl (fun _ => rfl) hands)
    housing := ?_
    stands := ?_
    history := ?_ }
  · rw [views]
    exact inv.housing
  · exact forall_update (P := fun (u : T) (phase : Phase) =>
      Stands (s.pool u) (fun i => s.ghost.layout (u, i)) phase) .idle fun u _ => inv.stands u
  · refine { inv.history with carved := fun k block member => ?_, known := fun block u freed => ?_ }
    · rcases inv.history.carved k block member with used | ⟨u, freed, closed⟩
      · exact .inl used
      · -- a thread that freed something is not new
        refine .inr ⟨u, freed, ?_⟩
        have other : u ≠ t := by
          rintro rfl
          exact inv.history.known block u freed absent
        show ¬ (Function.update s.phase t .idle u).Open k.2
        rwa [Function.update_of_ne other]
    · exact forall_update (P := fun (u : T) (phase : Phase) => s.phase u ≠ .absent → phase ≠ .absent)
        (fun _ => by simp) (fun _ _ known => known) u (inv.history.known block u freed)

/-! ### The free stack and the frontier -/

/-- The phase of a call that was given a chunk. -/
theorem Stands.granted {pool : ThreadPool} {layout : SizeClass → Layout} {bytes : Nat} {info : Meta}
    (bound : bytes ≤ 2 ^ 64 - 65) (small : widened bytes ≤ maxAllocSize getAllocSizeList)
    (hungry : (layout (classOf (widened bytes))).hungry (classSize (classOf (widened bytes)))
      kDefaultChunkSize = true) : Stands pool layout (.granted bytes info c) := by
  refine ⟨trivial, fun _ ended => ended.elim, fun absent => (by cases absent), fun other request => ?_⟩
  cases request
  exact ⟨bound, small, hungry⟩

/-- The phase of a call that found the free stack empty. -/
theorem Stands.starved {pool : ThreadPool} {layout : SizeClass → Layout} {bytes : Nat} {info : Meta}
    (bound : bytes ≤ 2 ^ 64 - 65) (small : widened bytes ≤ maxAllocSize getAllocSizeList)
    (hungry : (layout (classOf (widened bytes))).hungry (classSize (classOf (widened bytes)))
      kDefaultChunkSize = true) : Stands pool layout (.starved bytes info) := by
  refine ⟨trivial, fun _ ended => ended.elim, fun absent => (by cases absent), fun other request => ?_⟩
  cases request
  exact ⟨bound, small, hungry⟩

/-- **A chunk is popped.** -/
theorem Inv.popped (inv : Inv n s) (idle : s.phase t = .idle) (some_ : s.freeHead ≠ 0) {bytes : Nat}
    (info : Meta) (bound : bytes ≤ 2 ^ 64 - 65)
    (small : widened bytes ≤ maxAllocSize getAllocSizeList)
    (hungry : (s.ghost.layout (t, classOf (widened bytes))).hungry
      (classSize (classOf (widened bytes))) kDefaultChunkSize = true) :
    Inv n (s.popped t bytes info) := by
  have opens : ∀ i, Phase.Open (.granted bytes info s.freeHead) i ↔ (s.phase t).Open i := fun i => by
    rw [idle]
    exact Iff.rfl
  -- the head of the stack, and the rest
  obtain ⟨rest, stack, tail⟩ : ∃ rest, s.ghost.stack = s.freeHead :: rest ∧
      Linked (linkOf s.mem) (linkOf s.mem s.freeHead) rest := by
    have chain := inv.stack
    rw [show toPtr s.freeHead = some s.freeHead from if_neg some_] at chain
    exact chain.exists_cons
  have nodup := inv.stack.nodup
  rw [stack] at nodup
  have stack' : (s.popped t bytes info).ghost.stack = rest := by
    show s.ghost.stack.tail = rest
    rw [stack]
    rfl
  have here : At s s.freeHead .stack := by
    rw [at_stack, stack]
    exact List.mem_cons_self
  have moved : Located (Issued (s.popped t bytes info)) (At (s.popped t bytes info)) := by
    refine inv.located.move (q := .hand t) here (fun _ => Iff.rfl) fun c p => ?_
    cases p with
    | stack =>
      rw [at_stack, at_stack, stack', stack]
      simp only [reduceCtorEq, and_false, false_or, List.mem_cons]
      constructor
      · exact fun member => ⟨fun same => (List.nodup_cons.mp nodup).1 (same ▸ member), .inr member⟩
      · exact fun ⟨other, member⟩ => member.resolve_left other
    | chain k =>
      rw [at_chain, at_chain]
      simp only [reduceCtorEq, and_false, false_or]
      refine ⟨fun member => ⟨?_, member⟩, fun both => both.2⟩
      have there : At s c (.chain k) := member
      exact inv.located.ne there here (by simp)
    | hand u =>
      rw [at_hand, at_hand]
      show (Function.update s.phase t _ u).hand = some c ↔ _
      rw [at_hand_update]
      simp only [Phase.hand, Option.some.injEq, Place.hand.injEq]
      constructor
      · rintro (⟨rfl, rfl⟩ | ⟨other, held⟩)
        · exact .inl ⟨rfl, rfl⟩
        · have there : At s c (.hand u) := held
          exact .inr ⟨inv.located.ne there here (by simp), held⟩
      · rintro (⟨rfl, rfl⟩ | ⟨other, held⟩)
        · exact .inl ⟨rfl, rfl⟩
        · refine .inr ⟨?_, held⟩
          rintro rfl
          rw [idle] at held
          cases held
  refine ⟨inv.reserved, moved, inv.nodup, ?_, ?_, inv.heap, ?_, ?_⟩
  · rw [stack']
    exact tail
  · rw [show view (s.popped t bytes info) = view s from view_same rfl rfl opens]
    exact inv.housing
  · exact forall_update (P := fun (u : T) (phase : Phase) =>
      Stands (s.pool u) (fun i => s.ghost.layout (u, i)) phase) (.granted bound small hungry)
      fun u _ => inv.stands u
  · exact inv.history.same rfl rfl rfl opens (by simp)

/-- **The frontier advances over a chunk.** -/
theorem Inv.advanced (inv : Inv n s) {bytes : Nat} {info : Meta}
    (starved : s.phase t = .starved bytes info) (more : s.head_ ≠ s.ptr_ + n * kDefaultChunkSize) :
    Inv n (s.advanced t bytes info) := by
  have opens : ∀ i, Phase.Open (.granted bytes info s.head_) i ↔ (s.phase t).Open i := fun i => by
    rw [starved]
    exact Iff.rfl
  obtain ⟨bound, small, hungry⟩ := (inv.stands t).starving bytes (by rw [starved]; rfl)
  obtain ⟨base, space, m, inside, head⟩ := inv.reserved
  have less : m < n := by
    refine lt_of_le_of_ne inside ?_
    rintro rfl
    exact more head
  have room : (m + 1) * kDefaultChunkSize ≤ n * kDefaultChunkSize := Nat.mul_le_mul_right _ less
  have next : (s.advanced t bytes info).head_ = chunkAt s.ptr_ (m + 1) := by
    show getChunkPtr s.ptr_ (getChunkIndex s.ptr_ s.head_ + 1) = _
    rw [head]
    refine next_chunkAt ?_
    unfold chunkAt
    omega
  have more' : ∀ c, Issued (s.advanced t bytes info) c ↔ c = s.head_ ∨ Issued s c := by
    intro c
    rw [issued_iff next, issued_iff head, head]
    constructor
    · rintro ⟨j, below, rfl⟩
      rcases Nat.lt_succ_iff_lt_or_eq.mp below with older | rfl
      · exact .inr ⟨j, older, rfl⟩
      · exact .inl rfl
    · rintro (rfl | ⟨j, below, rfl⟩)
      · exact ⟨m, Nat.lt_succ_self m, rfl⟩
      · exact ⟨j, Nat.lt_succ_of_lt below, rfl⟩
  have new : ¬ Issued s s.head_ := fun ⟨j, _, below⟩ => absurd below (lt_irrefl _)
  have moved : Located (Issued (s.advanced t bytes info)) (At (s.advanced t bytes info)) := by
    refine inv.located.issue (q := .hand t) new more' fun c p => ?_
    cases p with
    | stack =>
      rw [at_stack, at_stack]
      simp only [reduceCtorEq, and_false, false_or]
      exact Iff.rfl
    | chain k =>
      rw [at_chain, at_chain]
      simp only [reduceCtorEq, and_false, false_or]
      exact Iff.rfl
    | hand u =>
      rw [at_hand, at_hand]
      show (Function.update s.phase t _ u).hand = some c ↔ _
      rw [at_hand_update]
      simp only [Phase.hand, Option.some.injEq, Place.hand.injEq]
      constructor
      · rintro (⟨rfl, rfl⟩ | ⟨other, held⟩)
        · exact .inl ⟨rfl, rfl⟩
        · exact .inr held
      · rintro (⟨rfl, rfl⟩ | held)
        · exact .inl ⟨rfl, rfl⟩
        · refine .inr ⟨?_, held⟩
          rintro rfl
          rw [starved] at held
          cases held
  refine ⟨⟨base, space, m + 1, less, next⟩, moved, inv.nodup, inv.stack, ?_, inv.heap, ?_, ?_⟩
  · rw [show view (s.advanced t bytes info) = view s from view_same rfl rfl opens]
    exact inv.housing
  · exact forall_update (P := fun (u : T) (phase : Phase) =>
      Stands (s.pool u) (fun i => s.ghost.layout (u, i)) phase) (.granted bound small hungry)
      fun u _ => inv.stands u
  · exact inv.history.same rfl rfl rfl opens (by simp)

/-- **A chunk is pushed.** -/
theorem Inv.pushed (inv : Inv n s) {later : List SizeClass}
    (handing : s.phase t = .handing i later c) : Inv n (s.pushed t i later c) := by
  have opens : ∀ j, Phase.Open (.closing i later) j ↔ (s.phase t).Open j := fun j => by
    rw [handing]
    exact Iff.rfl
  have here : At s c (.hand t) := by
    rw [at_hand, handing]
    rfl
  have unused := inv.unused here fun k => by simp
  have space := inv.chunk_space here
  have outside : Outside (Within c 8) s.mem (s.pushed t i later c).mem :=
    store_outside s.mem c 8 s.freeHead
  have within : ∀ x, Within c 8 x → Within c kDefaultChunkSize x := by
    intro x inside
    unfold Within kDefaultChunkSize at *
    omega
  have moved : Located (Issued (s.pushed t i later c)) (At (s.pushed t i later c)) := by
    refine inv.located.move (q := .stack) here (fun _ => Iff.rfl) fun d p => ?_
    cases p with
    | stack =>
      rw [at_stack, at_stack]
      show d ∈ c :: s.ghost.stack ↔ _
      simp only [and_true, List.mem_cons]
      constructor
      · rintro (rfl | member)
        · exact .inl rfl
        · have there : At s d .stack := member
          exact .inr ⟨inv.located.ne there here (by simp), member⟩
      · rintro (rfl | ⟨_, member⟩)
        · exact .inl rfl
        · exact .inr member
    | chain k =>
      rw [at_chain, at_chain]
      simp only [reduceCtorEq, and_false, false_or]
      refine ⟨fun member => ⟨?_, member⟩, fun both => both.2⟩
      have there : At s d (.chain k) := member
      exact inv.located.ne there here (by simp)
    | hand u =>
      rw [at_hand, at_hand]
      show (Function.update s.phase t _ u).hand = some d ↔ _
      rw [at_hand_update]
      simp only [Phase.hand, reduceCtorEq, and_false, false_or]
      constructor
      · rintro ⟨other, held⟩
        have there : At s d (.hand u) := held
        exact ⟨inv.located.ne there here (by simpa using other), held⟩
      · rintro ⟨other, held⟩
        refine ⟨?_, held⟩
        rintro rfl
        rw [handing] at held
        exact other (Option.some.inj held).symm
  refine ⟨inv.reserved, moved, inv.nodup, ⟨?_, ?_⟩, ?_, inv.heap, ?_, ?_⟩
  · exact if_neg (Nat.ne_of_gt space.1)
  · -- the link of the pushed chunk, and the rest of the stack below it
    have word : s.freeHead < 256 ^ 8 := by
      by_cases null : s.freeHead = 0
      · rw [null]
        decide
      · have chain := inv.stack
        rw [show toPtr s.freeHead = some s.freeHead from if_neg null] at chain
        obtain ⟨rest, stack, _⟩ := chain.exists_cons
        have there : At s s.freeHead .stack := by
          rw [at_stack, stack]
          exact List.mem_cons_self
        have space := inv.chunk_space there
        omega
    have link : linkOf (s.pushed t i later c).mem c = toPtr s.freeHead := by
      show toPtr (load (store s.mem c 8 s.freeHead) c 8) = _
      rw [load_store word]
    rw [link]
    refine inv.stack_frame outside fun d member x inside write => ?_
    have there : At s d .stack := member
    exact (inv.chunks_apart there here (inv.located.ne there here (by simp))).not_within inside
      (within x write)
  · rw [show view (s.pushed t i later c) = view s from view_same rfl rfl opens]
    refine inv.housing.frame outside (fun k x read write => ?_) fun b member x inside write => ?_
    · exact unused.1.not_territory (within x write) (inv.housing.family.footprint_territory read)
    · exact (unused.2 b member).not_within (within x write) inside
  · refine forall_update (P := fun (u : T) (phase : Phase) =>
      Stands (s.pool u) (fun i => s.ghost.layout (u, i)) phase) ?_ fun u _ => inv.stands u
    have stands := inv.stands t
    rw [handing] at stands
    exact ⟨stands.ordered, stands.done, fun absent => (by cases absent),
      fun _ request => (by cases request)⟩
  · exact inv.history.same rfl rfl rfl opens (by simp)

/-! ### Thread exit -/

/-- Another layout for one pool of a thread. -/
theorem layout_update {L : Layout} {A : Type} (f : Layout → A) (same : f L = f (s.ghost.layout (t, i)))
    (k : Index T) : f (Function.update s.ghost.layout (t, i) L k) = f (s.ghost.layout k) := by
  by_cases own : k = (t, i)
  · subst own
    rw [Function.update_self, same]
  · rw [Function.update_of_ne own]

/-- The other threads, after another layout for a pool of this one. -/
theorem Stands.others (stands : Stands (s.pool u) (fun i => s.ghost.layout (u, i)) phase)
    (other : u ≠ t) (L : Layout) :
    Stands (s.pool u) (fun j => Function.update s.ghost.layout (t, i) L (u, j)) phase := by
  have same : (fun j => Function.update s.ghost.layout (t, i) L (u, j))
      = fun j => s.ghost.layout (u, j) := by
    funext j
    exact Function.update_of_ne (fun same => other (congrArg Prod.fst same)) _ _
  rw [same]
  exact stands

/-- **`deinit` of the next class begins**, and its free list is given up. -/
theorem Inv.close (inv : Inv n s) {order : List SizeClass}
    (opens : ∀ i, (s.phase t).Open i ↔ i ∈ order)
    (ready : ∀ i, i ∉ order → ((s.pool t).tlsPool i).head_ = 0) (nodup : order.Nodup)
    (hand : (s.phase t).hand = none) : Inv n (s.close t order) := by
  have hands : ∀ u, ((s.close t order).phase u).hand = (s.phase u).hand := by
    refine forall_update (P := fun (u : T) (phase : Phase) => phase.hand = (s.phase u).hand) ?_
      fun _ _ => rfl
    rw [hand]
    cases order <;> rfl
  cases order with
  | nil =>
    have same : ∀ i, Phase.exited.Open i ↔ (s.phase t).Open i := fun i => by
      rw [opens]
      simp [Phase.Open]
    refine ⟨inv.reserved, inv.located.congr (fun _ => Iff.rfl) (at_congr rfl (fun _ => rfl) hands),
      inv.nodup, inv.stack, ?_, inv.heap, ?_, ?_⟩
    · rw [show view (s.close t []) = view s from view_same rfl rfl same]
      exact inv.housing
    · refine forall_update (P := fun (u : T) (phase : Phase) =>
        Stands (s.pool u) (fun i => s.ghost.layout (u, i)) phase) ?_ fun u _ => inv.stands u
      exact ⟨trivial, fun i _ => ready i List.not_mem_nil, fun absent => (by cases absent),
        fun _ request => (by cases request)⟩
    · exact inv.history.same rfl rfl rfl same (by simp [nextClass])
  | cons i later =>
    obtain ⟨last, rest⟩ := List.nodup_cons.mp nodup
    -- the lists that were open before and are still, and the one that is not
    have shut : ¬ Phase.Open (.closing i later) i := last
    have still : ∀ j, j ≠ i → (Phase.Open (.closing i later) j ↔ (s.phase t).Open j) := fun j other => by
      rw [opens]
      simp [Phase.Open, other]
    have views : view (s.close t (i :: later))
        = Function.update (view s) (t, i) { view s (t, i) with free_ := 0 } := by
      funext k
      by_cases own : k = (t, i)
      · subst own
        rw [Function.update_self, view_open ((opens i).mpr List.mem_cons_self)]
        refine view_closed (s := s.close t (i :: later)) ?_
        show ¬ (Function.update s.phase t _ t).Open i
        rw [Function.update_self]
        exact shut
      · rw [Function.update_of_ne own]
        refine view_congr rfl ?_
        show (Function.update s.phase t (.closing i later) k.1).Open k.2 ↔ _
        by_cases mine : k.1 = t
        · rw [mine, Function.update_self]
          exact still k.2 fun same => own (Prod.ext mine same)
        · rw [Function.update_of_ne mine]
    have bases := layout_update (s := s) (t := t) (i := i)
      (L := { s.ghost.layout (t, i) with frees := [] }) Layout.bases rfl
    have lives := layout_update (s := s) (t := t) (i := i)
      (L := { s.ghost.layout (t, i) with frees := [] }) Layout.live rfl
    have carved (size : Nat) := layout_update (s := s) (t := t) (i := i)
      (L := { s.ghost.layout (t, i) with frees := [] }) (Layout.carved size) rfl
    refine ⟨inv.reserved, inv.located.congr (fun _ => Iff.rfl) (at_congr rfl bases hands), ?_, inv.stack,
      ?_, inv.heap, ?_, ?_⟩
    · intro k
      show (Function.update s.ghost.layout (t, i) _ k).bases.Nodup
      rw [bases]
      exact inv.nodup k
    · rw [views]
      refine inv.housing.refamily (inv.housing.family.forget (t, i)) (fun k => ?_) lives
        fun k base member => (bases k) ▸ member
      by_cases own : k = (t, i)
      · subst own
        rw [Function.update_self]
      · rw [Function.update_of_ne own]
    · refine forall_update (P := fun (u : T) (phase : Phase) =>
        Stands (s.pool u) (fun j => (s.close t (i :: later)).ghost.layout (u, j)) phase) ?_
        fun u other => (inv.stands u).others other _
      exact ⟨nodup, fun j ⟨other, gone⟩ => ready j fun member =>
        (List.mem_cons.mp member).elim other gone, fun absent => (by cases absent),
        fun _ request => (by cases request)⟩
    · obtain ⟨history, frees, live, known⟩ := inv.history
      have fewer : ∀ j, Phase.Open (.closing i later) j → (s.phase t).Open j := fun j member => by
        rw [opens]
        exact .tail _ member
      refine ⟨fun k block member => ?_, fun k block member => ?_, fun k block member => ?_,
        fun block u by_ => ?_⟩
      · change block ∈ (Function.update s.ghost.layout (t, i) _ k).carved (classSize k.2) at member
        rw [carved] at member
        rcases history k block member with ⟨l, used⟩ | ⟨u, by_, closed⟩
        · by_cases own : l = (t, i)
          · subst own
            have class_ : k.2 = i := inv.class_eq member used
            rcases List.mem_append.mp used with free | here
            · refine .inr ⟨t, frees (t, i) block free, ?_⟩
              show ¬ (Function.update s.phase t (.closing i later) t).Open k.2
              rw [Function.update_self, class_]
              exact shut
            · refine .inl ⟨(t, i), List.mem_append_right _ ?_⟩
              show block ∈ (Function.update s.ghost.layout (t, i) _ (t, i)).live
              rw [lives]
              exact here
          · refine .inl ⟨l, ?_⟩
            show block ∈ (Function.update s.ghost.layout (t, i) _ l).blocks
            rwa [Function.update_of_ne own]
        · exact .inr ⟨u, by_, forall_update
            (P := fun (u : T) (phase : Phase) => ¬ (s.phase u).Open k.2 → ¬ phase.Open k.2)
            (fun closed => mt (fewer k.2) closed) (fun _ _ closed => closed) u closed⟩
      · change block ∈ (Function.update s.ghost.layout (t, i) _ k).frees at member
        by_cases own : k = (t, i)
        · subst own
          rw [Function.update_self] at member
          exact absurd member List.not_mem_nil
        · rw [Function.update_of_ne own] at member
          exact frees k block member
      · change block ∈ (Function.update s.ghost.layout (t, i) _ k).live at member
        rw [lives] at member
        exact live k block member
      · exact forall_update (P := fun (u : T) (phase : Phase) => s.phase u ≠ .absent → phase ≠ .absent)
          (fun _ => by simp [nextClass]) (fun _ _ known => known) u (known block u by_)

/-- **A chunk leaves the chain of a class**, when none of its blocks is in use. -/
theorem Inv.unlinkHead (inv : Inv n s) {later : List SizeClass} (closing : s.phase t = .closing i later)
    {chunk : Chunk} {rest : List Chunk} (head : (s.ghost.layout (t, i)).chunks = chunk :: rest)
    (unused : ∀ k, ∀ block ∈ (s.ghost.layout k).blocks, block ∉ chunk.blocks (classSize i)) :
    Inv n (s.unlinkHead t i later) := by
  have stands := inv.stands t
  rw [closing] at stands
  have shut : ¬ (s.phase t).Open i := by
    rw [closing]
    exact (List.nodup_cons.mp stands.ordered).1
  have opens : ∀ c j, Phase.Open (.handing i later c) j ↔ (s.phase t).Open j := fun c j => by
    rw [closing]
    exact Iff.rfl
  have first : ((s.pool t).tlsPool i).head_ = chunk.base := by
    rw [← (inv.represents (t, i)).head head, view_head]
  have tail : (s.ghost.layout (t, i)).chunks.tail = rest := by
    rw [head]
    rfl
  have bases : (s.ghost.layout (t, i)).bases = chunk.base :: rest.map Chunk.base := by
    unfold Layout.bases
    rw [head]
    rfl
  have layouts : (s.unlinkHead t i later).ghost.layout = Function.update s.ghost.layout (t, i)
      { s.ghost.layout (t, i) with chunks := rest } := by
    unfold State.unlinkHead
    rw [tail]
  have views : view (s.unlinkHead t i later)
      = Function.update (view s) (t, i) { view s (t, i) with head_ := load s.mem chunk.base 8 } := by
    funext k
    by_cases own : k = (t, i)
    · subst own
      rw [Function.update_self, view_closed shut, ← first]
      refine (view_closed (s := s.unlinkHead t i later) ?_).trans ?_
      · show ¬ (Function.update s.phase t _ t).Open i
        rw [Function.update_self, opens]
        exact shut
      · show { (Function.update s.pool t _ t).tlsPool i with free_ := 0 } = _
        rw [Function.update_self]
        show { Function.update (s.pool t).tlsPool i _ i with free_ := 0 } = _
        rw [Function.update_self]
    · rw [Function.update_of_ne own]
      by_cases mine : k.1 = t
      · have other : k.2 ≠ i := fun same => own (Prod.ext mine same)
        have pool : ((s.unlinkHead t i later).pool k.1).tlsPool k.2 = (s.pool k.1).tlsPool k.2 := by
          show (Function.update s.pool t _ k.1).tlsPool k.2 = _
          rw [mine, Function.update_self]
          exact Function.update_of_ne other _ _
        have phase : ((s.unlinkHead t i later).phase k.1).Open k.2 ↔ (s.phase k.1).Open k.2 := by
          show (Function.update s.phase t _ k.1).Open k.2 ↔ _
          rw [mine, Function.update_self, opens]
        unfold view
        rw [pool]
        simp only [phase]
      · refine view_congr ?_ ?_
        · exact Function.update_of_ne mine _ _
        · show (Function.update s.phase t _ k.1).Open k.2 ↔ _
          rw [Function.update_of_ne mine]
  have here : At s chunk.base (.chain (t, i)) := by
    rw [at_chain, bases]
    exact List.mem_cons_self
  have once := inv.nodup (t, i)
  rw [bases] at once
  have moved : Located (Issued (s.unlinkHead t i later)) (At (s.unlinkHead t i later)) := by
    refine inv.located.move (q := .hand t) here (fun _ => Iff.rfl) fun d p => ?_
    cases p with
    | stack =>
      rw [at_stack, at_stack]
      simp only [reduceCtorEq, and_false, false_or]
      refine ⟨fun member => ⟨?_, member⟩, fun both => both.2⟩
      have there : At s d .stack := member
      exact inv.located.ne there here (by simp)
    | chain k =>
      rw [at_chain, at_chain, layouts]
      simp only [reduceCtorEq, and_false, false_or]
      by_cases own : k = (t, i)
      · subst own
        rw [Function.update_self, bases]
        simp only [Layout.bases, List.mem_cons]
        constructor
        · intro member
          exact ⟨fun same => (List.nodup_cons.mp once).1 (same ▸ member), .inr member⟩
        · intro both
          exact both.2.resolve_left both.1
      · rw [Function.update_of_ne own]
        refine ⟨fun member => ⟨?_, member⟩, fun both => both.2⟩
        have there : At s d (.chain k) := member
        exact inv.located.ne there here (by simpa using own)
    | hand u =>
      rw [at_hand, at_hand]
      show (Function.update s.phase t _ u).hand = some d ↔ _
      rw [at_hand_update]
      simp only [Phase.hand, Option.some.injEq, Place.hand.injEq, first]
      constructor
      · rintro (⟨rfl, rfl⟩ | ⟨other, held⟩)
        · exact .inl ⟨rfl, rfl⟩
        · have there : At s d (.hand u) := held
          exact .inr ⟨inv.located.ne there here (by simp), held⟩
      · rintro (⟨rfl, rfl⟩ | ⟨other, held⟩)
        · exact .inl ⟨rfl, rfl⟩
        · refine .inr ⟨?_, held⟩
          rintro rfl
          rw [closing] at held
          cases held
  have family := inv.housing.family.handOver (i := (t, i)) head (by
    rw [inv.size]
    exact fun k block member _ => unused k block member)
  refine ⟨inv.reserved, moved, fun k => ?_, inv.stack, ?_, inv.heap, ?_, ?_⟩
  · rw [layouts]
    by_cases own : k = (t, i)
    · subst own
      rw [Function.update_self]
      exact (List.nodup_cons.mp once).2
    · rw [Function.update_of_ne own]
      exact inv.nodup k
  · rw [views, layouts]
    refine inv.housing.refamily family (fun k => ?_) (layout_update Layout.live rfl) fun k base member => ?_
    · by_cases own : k = (t, i)
      · subst own
        rw [Function.update_self]
      · rw [Function.update_of_ne own]
    · by_cases own : k = (t, i)
      · subst own
        rw [Function.update_self] at member
        rw [bases]
        exact .tail _ member
      · rwa [Function.update_of_ne own] at member
  · intro u
    rw [layouts]
    show Stands (Function.update s.pool t _ u) _ (Function.update s.phase t _ u)
    by_cases mine : u = t
    · subst mine
      rw [Function.update_self, Function.update_self]
      refine ⟨stands.ordered, fun j past => ?_, fun absent => (by cases absent),
        fun _ request => (by cases request)⟩
      show (Function.update (s.pool u).tlsPool i _ j).head_ = 0
      rw [Function.update_of_ne past.1]
      exact stands.done j past
    · rw [Function.update_of_ne mine, Function.update_of_ne mine]
      exact (inv.stands u).others mine _
  · obtain ⟨history, frees, live, known⟩ := inv.history
    have blocks := layout_update (s := s) (t := t) (i := i)
      (L := { s.ghost.layout (t, i) with chunks := rest }) Layout.blocks rfl
    have sameFrees := layout_update (s := s) (t := t) (i := i)
      (L := { s.ghost.layout (t, i) with chunks := rest }) Layout.frees rfl
    have sameLive := layout_update (s := s) (t := t) (i := i)
      (L := { s.ghost.layout (t, i) with chunks := rest }) Layout.live rfl
    refine ⟨?_, ?_, ?_, fun block u by_ => ?_⟩
    · rw [layouts]
      intro k block member
      have before : block ∈ (s.ghost.layout k).carved (classSize k.2) := by
        by_cases own : k = (t, i)
        · subst own
          rw [Function.update_self] at member
          unfold Layout.carved at member ⊢
          rw [head]
          exact List.mem_append_right _ member
        · rwa [Function.update_of_ne own] at member
      rcases history k block before with ⟨l, used⟩ | ⟨u, by_, closed⟩
      · exact .inl ⟨l, by rwa [blocks]⟩
      · exact .inr ⟨u, by_, forall_update
          (P := fun (u : T) (phase : Phase) => ¬ (s.phase u).Open k.2 → ¬ phase.Open k.2)
          (fun closed => mt (opens _ k.2).mp closed) (fun _ _ closed => closed) u closed⟩
    · rw [layouts]
      intro k block member
      rw [sameFrees] at member
      exact frees k block member
    · rw [layouts]
      intro k block member
      rw [sameLive] at member
      exact live k block member
    · exact forall_update (P := fun (u : T) (phase : Phase) => s.phase u ≠ .absent → phase ≠ .absent)
        (fun _ => by simp) (fun _ _ known => known) u (known block u by_)

/-! ### Bytes -/

/-- **A client writes to a block it holds.** -/
theorem Inv.write (inv : Inv n s) {b : Block (Index T)} (member : b ∈ s.live) {address : Nat}
    (value : BitVec 8) (within : Within b.ptr b.bytes address) :
    Inv n { s with mem := Function.update s.mem address value } := by
  have outside : Outside (· = address) s.mem (Function.update s.mem address value) :=
    fun x other => Function.update_of_ne other _ _
  obtain ⟨ptr, _⟩ := inv.housing.shape b member
  refine ⟨inv.reserved, inv.located, inv.nodup, ?_, inv.housing.write member value within, inv.heap,
    inv.stands, { inv.history with }⟩
  refine inv.stack_frame outside fun c stacked x inside here => ?_
  refine ((inv.stack_unused stacked).2 b member).not_within inside ?_
  unfold Within blockSize at *
  omega

/-- **The rest of the program writes.** -/
theorem Inv.elsewhere (inv : Inv n s) {address : Nat} (value : BitVec 8)
    (outlying : Apart address 1 s.ptr_ (n * kDefaultChunkSize))
    (others : ∀ b ∈ s.live, Apart address 1 b.base (blockSize b.bytes)) :
    Inv n { s with mem := Function.update s.mem address value } := by
  have outside : Outside (· = address) s.mem (Function.update s.mem address value) :=
    fun x other => Function.update_of_ne other _ _
  have away : ∀ c p, At s c p → Apart address 1 c kDefaultChunkSize := fun c p here =>
    outlying.mono le_rfl le_rfl (inv.chunk_inside here).1 (inv.chunk_inside here).2
  have here : Within address 1 address := ⟨le_rfl, by omega⟩
  refine ⟨inv.reserved, inv.located, inv.nodup, ?_, ?_, inv.heap, inv.stands, { inv.history with }⟩
  · refine inv.stack_frame outside fun c stacked x inside at_ => ?_
    rw [at_] at inside
    exact (away c .stack stacked).not_within here inside
  · exact (inv.housing.elsewhere value ⟨fun k base chunk => away base (.chain k) chunk, others⟩).1

end NpAlloc.Threads
