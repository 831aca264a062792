/-
**`np_alloc` and `np_free` keep the invariant.**

* **`Inv.allocWith`** — a request that is supplied is served, whichever way the block comes: off the
  free list, from the head chunk, from the chunk in hand, or from `malloc`.
* **`Inv.freeWith`** — any thread may free a live block; its own pool of that class takes it.
* **`Inv.step`** — every step of the program keeps the invariant, if what a thread that exits hands
  over is not in use.
-/

import NpAlloc.Threads.Step

set_option linter.unusedSectionVars false

namespace NpAlloc.Threads

open Mmap Pool

variable {T : Type} [DecidableEq T] {s s' : State T} {n : Nat} {t u : T} {i j : SizeClass}
  {k l : Index T} {c d : Nat} {mem' : Memory} {phase : Phase}

/-! ### The history -/

/-- **The history when one block changes hands.** -/
theorem History.change (history : History s) (base : Nat) (who : Option T)
    (freed : s'.freedBy = Function.update s.freedBy base who)
    (phases : s'.phase = Function.update s.phase t phase)
    (same : ∀ i, phase.Open i ↔ (s.phase t).Open i) (known : phase ≠ .absent)
    (carved : ∀ k, ∀ block ∈ (s'.ghost.layout k).carved (classSize k.2),
      block = base ∧ (∃ l, base ∈ (s'.ghost.layout l).blocks) ∨
        block ≠ base ∧ block ∈ (s.ghost.layout k).carved (classSize k.2))
    (blocks : ∀ l, ∀ block ∈ (s.ghost.layout l).blocks, block ≠ base →
      ∃ l, block ∈ (s'.ghost.layout l).blocks)
    (frees : ∀ k, ∀ block ∈ (s'.ghost.layout k).frees,
      block = base ∧ who = some k.1 ∨ block ≠ base ∧ block ∈ (s.ghost.layout k).frees)
    (lives : ∀ k, ∀ block ∈ (s'.ghost.layout k).live,
      block = base ∧ who = none ∨ block ≠ base ∧ block ∈ (s.ghost.layout k).live)
    (somebody : ∀ u, who = some u → s.phase u ≠ .absent) : History s' := by
  refine ⟨?_, ?_, ?_, ?_⟩ <;> rw [freed]
  · rw [phases]
    intro k block member
    rcases carved k block member with ⟨rfl, used⟩ | ⟨other, before⟩
    · exact .inl used
    · rcases history.carved k block before with ⟨l, used⟩ | ⟨u, by_, closed⟩
      · exact .inl (blocks l block used other)
      · refine .inr ⟨u, by rwa [Function.update_of_ne other], ?_⟩
        exact forall_update
          (P := fun (u : T) (phase : Phase) => ¬ (s.phase u).Open k.2 → ¬ phase.Open k.2)
          (fun closed => mt (same k.2).mp closed) (fun _ _ closed => closed) u closed
  · intro k block member
    rcases frees k block member with ⟨rfl, by_⟩ | ⟨other, before⟩
    · rw [Function.update_self, by_]
    · rw [Function.update_of_ne other]
      exact history.frees k block before
  · intro k block member
    rcases lives k block member with ⟨rfl, by_⟩ | ⟨other, before⟩
    · rw [Function.update_self, by_]
    · rw [Function.update_of_ne other]
      exact history.live k block before
  · rw [phases]
    intro block u by_
    refine forall_update (P := fun (u : T) (phase : Phase) => s.phase u ≠ .absent → phase ≠ .absent)
      (fun _ => known) (fun _ _ known => known) u ?_
    by_cases own : block = base
    · rw [own, Function.update_self] at by_
      exact somebody u by_
    · rw [Function.update_of_ne own] at by_
      exact history.known block u by_

/-! ### `np_alloc` -/

/-- The view after one pool of a thread changed. -/
theorem view_set {pool : PsPool} (pools : s'.pool = Function.update s.pool t ((s.pool t).set i pool))
    (phases : s'.phase = Function.update s.phase t phase)
    (same : ∀ i, phase.Open i ↔ (s.phase t).Open i) (opened : phase.Open i) :
    view s' = Function.update (view s) (t, i) pool := by
  have phaseOf : ∀ k : Index T, (s'.phase k.1).Open k.2 ↔ (s.phase k.1).Open k.2 := by
    intro k
    rw [phases]
    by_cases own : k.1 = t
    · rw [own, Function.update_self, same]
    · rw [Function.update_of_ne own]
  funext k
  by_cases own : k = (t, i)
  · subst own
    rw [Function.update_self, view_open ((phaseOf (t, i)).mpr ((same i).mp opened)), pools,
      Function.update_self]
    exact Function.update_self ..
  · rw [Function.update_of_ne own]
    have kept : (s'.pool k.1).tlsPool k.2 = (s.pool k.1).tlsPool k.2 := by
      rw [pools]
      by_cases mine : k.1 = t
      · rw [mine, Function.update_self]
        exact Function.update_of_ne (fun same => own (Prod.ext mine same)) _ _
      · rw [Function.update_of_ne mine]
    unfold view
    rw [kept]
    simp only [phaseOf]

/-- The chunk in hand, if there is one, becomes part of a chain. -/
theorem Inv.located_chained (inv : Inv n s) {t : T} {i : SizeClass}
    (reserved : s'.ptr_ = s.ptr_ ∧ s'.head_ = s.head_) (stack : s'.ghost.stack = s.ghost.stack)
    (phases : s'.phase = Function.update s.phase t .idle)
    (chains : ∀ k c, c ∈ (s'.ghost.layout k).bases ↔
      k = (t, i) ∧ (s.phase t).hand = some c ∨ c ∈ (s.ghost.layout k).bases) :
    Located (Issued s') (At s') := by
  have issued : ∀ c, Issued s' c ↔ Issued s c := fun c => by
    unfold Issued
    rw [reserved.1, reserved.2]
  cases held : (s.phase t).hand with
  | none =>
    refine inv.located.congr issued fun c p => ?_
    cases p with
    | stack => rw [at_stack, at_stack, stack]
    | chain k => rw [at_chain, at_chain, chains, held]; simp
    | hand u =>
      rw [at_hand, at_hand, phases, at_hand_update]
      by_cases own : u = t
      · subst own
        rw [held]
        simp [Phase.hand]
      · simp [own]
  | some d =>
    have here : At s d (.hand t) := held
    refine inv.located.move (q := .chain (t, i)) here issued fun c p => ?_
    cases p with
    | stack =>
      rw [at_stack, at_stack, stack]
      simp only [reduceCtorEq, and_false, false_or]
      refine ⟨fun member => ⟨?_, member⟩, fun both => both.2⟩
      have there : At s c .stack := member
      exact inv.located.ne there here (by simp)
    | chain k =>
      rw [at_chain, at_chain, chains, held]
      simp only [Option.some.injEq, Place.chain.injEq]
      constructor
      · rintro (⟨own, rfl⟩ | member)
        · exact .inl ⟨rfl, own⟩
        · have there : At s c (.chain k) := member
          exact .inr ⟨inv.located.ne there here (by simp), member⟩
      · rintro (⟨rfl, own⟩ | ⟨_, member⟩)
        · exact .inl ⟨own, rfl⟩
        · exact .inr member
    | hand u =>
      rw [at_hand, at_hand, phases, at_hand_update]
      simp only [Phase.hand, reduceCtorEq, and_false, false_or]
      constructor
      · rintro ⟨other, there⟩
        have there' : At s c (.hand u) := there
        exact ⟨inv.located.ne there' here (by simpa using other), there⟩
      · rintro ⟨other, there⟩
        refine ⟨?_, there⟩
        rintro rfl
        exact other (Option.some.inj (there.symm.trans held))

/-- **What a served request changes.** -/
structure Serves (s s' : State T) (t : T) (b : Block (Index T)) : Prop where
  live : s'.live = b :: s.live
  phase : s'.phase = Function.update s.phase t .idle
  owner : ∀ k, b.origin = .pool k → k.1 = t
  carved : ∀ k, ∀ block ∈ (s.ghost.layout k).carved (classSize k.2),
    block ∈ (s'.ghost.layout k).carved (classSize k.2)
  blocks : ∀ k, ∀ block ∈ (s'.ghost.layout k).blocks,
    block ∈ (s.ghost.layout k).blocks ∨ block ∈ (s'.ghost.layout k).carved (classSize k.2)

/-- **A request of a class is served.** -/
theorem Inv.allocPool (inv : Inv n s) (opens : ∀ i, (s.phase t).Open i) (supply : Supply Unit)
    (chunk malloc : Nat) {bytes : Nat} (info : Meta) (bound : bytes ≤ 2 ^ 64 - 65)
    (small : widened bytes ≤ maxAllocSize getAllocSizeList)
    (granted : (s.ghost.layout (t, classOf (widened bytes))).hungry
      (classSize (classOf (widened bytes))) kDefaultChunkSize = true →
        supply () = .ok (chunk, ()) ∧ (s.phase t).hand = some chunk)
    (spared : (s.ghost.layout (t, classOf (widened bytes))).hungry
      (classSize (classOf (widened bytes))) kDefaultChunkSize = false → (s.phase t).hand = none) :
    ∃ s' b, s.allocWith t supply chunk malloc bytes info = some s' ∧ Inv n s' ∧
      Serves s s' t b ∧ b.bytes = bytes ∧ b.origin = .pool (t, classOf (widened bytes)) ∧
      s'.ghost.layout = s.served t chunk (.pool (classOf (widened bytes))) := by
  have width := widened_eq bound
  set i := classOf (widened bytes) with class_
  have same : ∀ j, Phase.Open .idle j ↔ (s.phase t).Open j := fun j =>
    ⟨fun _ => opens j, fun _ => trivial⟩
  -- a chunk in hand is not in use
  have inHand : ∀ c, (s.phase t).hand = some c → Unused s.ghost.layout s.live c kDefaultChunkSize :=
    fun c held => inv.unused (p := .hand t) held fun k => by simp
  have own : view s (t, i) = (s.pool t).tlsPool i := view_open (opens i)
  obtain ⟨base, pool, w', L, took, result, some_, housing, others, _, outside⟩ :=
    inv.housing.alloc supply chunk () (w := ⟨s.mem, ()⟩) (t, i) info (by rw [← width])
      (width ▸ small) fun hungry => by
        obtain ⟨answer, held⟩ := granted hungry
        exact ⟨answer, (inv.chunk_space (p := .hand t) held).1, (inv.chunk_space (p := .hand t) held).2,
          inHand chunk held⟩
  rw [own] at result
  have answer := ThreadPool.alloc_of_serve info (ThreadPool.serve_pool malloc small result)
  rw [if_neg some_] at answer
  have start : (⟨base + 48, bytes, .pool (t, i)⟩ : Block (Index T)).base = base := Block.base_mk ..
  have layouts : s.served t chunk (.pool i) = Function.update s.ghost.layout (t, i) L :=
    congrArg (Function.update s.ghost.layout (t, i)) (congrArg Prod.snd took)
  have next : s.allocWith t supply chunk malloc bytes info = some (s.withBlock t
      ((s.pool t).set i pool) (ThreadPool.dress w'.mem base bytes info)
      ⟨base + 48, bytes, .pool (t, i)⟩ (Function.update s.ghost.layout (t, i) L)) := by
    unfold State.allocWith
    simp only [answer]
    rw [← layouts]
    rfl
  have shape := inv.housing.family.shape (t, i)
  have room := inv.housing.family.large (t, i)
  rw [inv.size] at shape room
  have new : (s.ghost.layout (t, i)).hungry (classSize i) kDefaultChunkSize = true →
      Layout.Fresh kDefaultChunkSize (s.ghost.layout (t, i)) chunk := fun hungry => by
    obtain ⟨_, held⟩ := granted hungry
    refine ⟨(inv.chunk_space (p := .hand t) held).1, (inv.chunk_space (p := .hand t) held).2,
      fun c member => (inHand chunk held).1 (t, i) c.base (List.mem_map_of_mem member)⟩
  have bases := (s.ghost.layout (t, i)).take_bases (classSize i) kDefaultChunkSize chunk
  have frees := (s.ghost.layout (t, i)).take_frees (classSize i) kDefaultChunkSize chunk
  have lives := shape.take_live room new
  have blocks := shape.take_blocks room new
  rw [took] at bases frees lives blocks
  have serves : Serves s (s.withBlock t ((s.pool t).set i pool)
      (ThreadPool.dress w'.mem base bytes info) ⟨base + 48, bytes, .pool (t, i)⟩
      (Function.update s.ghost.layout (t, i) L)) t ⟨base + 48, bytes, .pool (t, i)⟩ := by
    refine ⟨rfl, rfl, fun k origin => ?_, fun k block member => ?_, fun k block member => ?_⟩
    · cases origin
      rfl
    · show block ∈ (Function.update s.ghost.layout (t, i) L k).carved (classSize k.2)
      by_cases mine : k = (t, i)
      · subst mine
        rw [Function.update_self]
        rcases blocks with ⟨_, _, chunks⟩ | ⟨_, _, carved⟩
        · unfold Layout.carved at member ⊢
          rwa [chunks]
        · exact carved.mem_iff.mpr (.tail _ member)
      · rwa [Function.update_of_ne mine]
    · change block ∈ (Function.update s.ghost.layout (t, i) L k).blocks at member
      show _ ∨ block ∈ (Function.update s.ghost.layout (t, i) L k).carved (classSize k.2)
      by_cases mine : k = (t, i)
      · subst mine
        rw [Function.update_self] at member ⊢
        rcases blocks with ⟨_, same, _⟩ | ⟨_, more, carved⟩
        · exact .inl (same.mem_iff.mp member)
        · rcases List.mem_cons.mp (more.mem_iff.mp member) with rfl | older
          · exact .inr (carved.mem_iff.mpr List.mem_cons_self)
          · exact .inl older
      · rw [Function.update_of_ne mine] at member
        exact .inl member
  refine ⟨_, _, next, ?_, serves, rfl, rfl, layouts.symm⟩
  -- the chains: with the chunk in hand if there was one
  have chains : ∀ k c, c ∈ (Function.update s.ghost.layout (t, i) L k).bases ↔
      k = (t, i) ∧ (s.phase t).hand = some c ∨ c ∈ (s.ghost.layout k).bases := by
    intro k c
    by_cases mine : k = (t, i)
    · subst mine
      rw [Function.update_self, bases]
      split
      · rename_i hungry
        rw [(granted hungry).2]
        simp [eq_comm]
      · rename_i spare
        rw [spared (Bool.not_eq_true _ ▸ spare)]
        simp
    · rw [Function.update_of_ne mine]
      simp [mine]
  refine ⟨inv.reserved, inv.located_chained ⟨rfl, rfl⟩ rfl rfl chains, fun k => ?_, ?_, ?_, ?_, fun u => ?_, ?_⟩
  · by_cases mine : k = (t, i)
    · subst mine
      show (Function.update s.ghost.layout (t, i) L (t, i)).bases.Nodup
      rw [Function.update_self, bases]
      split
      · rename_i hungry
        refine List.nodup_cons.mpr ⟨fun member => ?_, inv.nodup _⟩
        have there : At s chunk (.chain (t, i)) := member
        have here : At s chunk (.hand t) := (granted hungry).2
        exact inv.located.ne here there (by simp) rfl
      · exact inv.nodup _
    · show (Function.update s.ghost.layout (t, i) L k).bases.Nodup
      rw [Function.update_of_ne mine]
      exact inv.nodup k
  · refine inv.stack_frame outside fun c stacked x within => ?_
    have there : At s c .stack := stacked
    rintro ⟨k, d, chunk', inside⟩
    rcases (chains k d).mp chunk' with ⟨_, held⟩ | older
    · have here : At s d (.hand t) := held
      exact (inv.chunks_apart there here (inv.located.ne there here (by simp))).not_within within inside
    · have here : At s d (.chain k) := older
      exact (inv.chunks_apart there here (inv.located.ne there here (by simp))).not_within within inside
  · rw [show view (s.withBlock t _ _ _ _) = _ from view_set rfl rfl same trivial]
    exact housing
  · intro b member p origin
    rcases List.mem_cons.mp member with rfl | older
    · cases origin
    · exact inv.heap b older p origin
  · refine forall_update (P := fun (u : T) (phase : Phase) => Stands
      (Function.update s.pool t ((s.pool t).set i pool) u)
      (fun j => Function.update s.ghost.layout (t, i) L (u, j)) phase) .idle (fun u other => ?_) u
    rw [Function.update_of_ne other]
    exact (inv.stands u).others other L
  · have once := housing.family.once (t, i)
    rw [Function.update_self] at once
    have mine : base ∈ L.live := by
      rw [lives]
      exact List.mem_cons_self
    refine inv.history.change base none (by rw [← start]; rfl) rfl same
      (by simp) ?_ ?_ ?_ ?_ (by simp)
    · intro k block member
      by_cases served : block = base
      · refine .inl ⟨served, (t, i), List.mem_append_right _ ?_⟩
        show base ∈ (Function.update s.ghost.layout (t, i) L (t, i)).live
        rwa [Function.update_self]
      · refine .inr ⟨served, ?_⟩
        change block ∈ (Function.update s.ghost.layout (t, i) L k).carved (classSize k.2) at member
        by_cases mine : k = (t, i)
        · subst mine
          rw [Function.update_self] at member
          rcases blocks with ⟨_, _, chunks⟩ | ⟨_, _, carved⟩
          · unfold Layout.carved at member ⊢
            rwa [← chunks]
          · exact (List.mem_cons.mp (carved.mem_iff.mp member)).resolve_left served
        · rwa [Function.update_of_ne mine] at member
    · intro k block member other
      refine ⟨k, ?_⟩
      show block ∈ (Function.update s.ghost.layout (t, i) L k).blocks
      by_cases mine : k = (t, i)
      · subst mine
        rw [Function.update_self]
        rcases blocks with ⟨_, same, _⟩ | ⟨_, more, _⟩
        · exact same.mem_iff.mpr member
        · exact more.mem_iff.mpr (.tail _ member)
      · rwa [Function.update_of_ne mine]
    · intro k block member
      change block ∈ (Function.update s.ghost.layout (t, i) L k).frees at member
      have live : base ∈ (Function.update s.ghost.layout (t, i) L (t, i)).live := by
        rwa [Function.update_self]
      refine .inr ⟨(housing.family.live_ne_free live member).symm, ?_⟩
      by_cases mine : k = (t, i)
      · subst mine
        rw [Function.update_self, frees] at member
        exact List.mem_of_mem_tail member
      · rwa [Function.update_of_ne mine] at member
    · intro k block member
      by_cases served : block = base
      · exact .inl ⟨served, rfl⟩
      · refine .inr ⟨served, ?_⟩
        change block ∈ (Function.update s.ghost.layout (t, i) L k).live at member
        by_cases mine : k = (t, i)
        · subst mine
          rw [Function.update_self, lives] at member
          exact (List.mem_cons.mp member).resolve_left served
        · rwa [Function.update_of_ne mine] at member

/-- **A request that no class serves.** -/
theorem Inv.allocMalloc (inv : Inv n s) (opens : ∀ i, (s.phase t).Open i)
    (hand : (s.phase t).hand = none) (supply : Supply Unit) (chunk : Nat) {malloc bytes : Nat}
    (info : Meta) (bound : bytes ≤ 2 ^ 64 - 65)
    (large : maxAllocSize getAllocSizeList < widened bytes)
    (some_ : malloc ≠ 0) (fresh : malloc + widened bytes < 2 ^ 64 ∧
      Outlying n s.ptr_ malloc (widened bytes) ∧
      ∀ b ∈ s.live, Apart malloc (widened bytes) b.base (blockSize b.bytes)) :
    ∃ s' b, s.allocWith t supply chunk malloc bytes info = some s' ∧ Inv n s' ∧
      Serves s s' t b ∧ b.bytes = bytes := by
  obtain ⟨space, outlying, others⟩ := fresh
  have same : ∀ j, Phase.Open .idle j ↔ (s.phase t).Open j := fun j =>
    ⟨fun _ => opens j, fun _ => trivial⟩
  have served : (s.pool t).serve supply malloc ⟨s.mem, ()⟩ bytes = _ :=
    ThreadPool.serve_malloc (Nat.not_le.mpr large)
  have answer := ThreadPool.alloc_of_serve info served
  rw [if_neg some_] at answer
  rw [widened_eq bound] at large space outlying others
  have start : (⟨malloc + 48, bytes, .malloc malloc⟩ : Block (Index T)).base = malloc :=
    Block.base_mk ..
  have away : Away kDefaultChunkSize s.ghost.layout malloc (blockSize bytes) := fun k base chunk' => by
    have here : At s base (.chain k) := chunk'
    exact Apart.mono outlying le_rfl le_rfl (inv.chunk_inside here).1 (inv.chunk_inside here).2
  obtain ⟨housing, _, outside⟩ := inv.housing.malloc info large space ⟨away, others⟩
  have next : s.allocWith t supply chunk malloc bytes info = some (s.withBlock t (s.pool t)
      (ThreadPool.dress s.mem malloc bytes info) ⟨malloc + 48, bytes, .malloc malloc⟩
      s.ghost.layout) := by
    unfold State.allocWith
    simp only [answer]
    rfl
  -- no block of a class starts there
  have foreign : ∀ size block, Carved (view s) s.ghost.layout size block → 0 < size →
      block ≠ malloc := fun size block carved positive =>
    inv.housing.family.ne_carved away carved positive (by unfold blockSize; omega)
  have positive : ∀ k : Index T, 0 < classSize k.2 := fun k => by
    have bounds := classSize_bounds k.2
    omega
  have hands : ∀ u, ((s.withBlock t (s.pool t) (ThreadPool.dress s.mem malloc bytes info)
      ⟨malloc + 48, bytes, .malloc malloc⟩ s.ghost.layout).phase u).hand = (s.phase u).hand :=
    forall_update (P := fun (u : T) (phase : Phase) => phase.hand = (s.phase u).hand) hand.symm
      fun _ _ => rfl
  refine ⟨_, _, next, ?_, ⟨rfl, rfl, fun k origin => (by cases origin), fun _ _ member => member,
    fun _ _ member => .inl member⟩, rfl⟩
  refine ⟨inv.reserved, inv.located.congr (fun _ => Iff.rfl) (at_congr rfl (fun _ => rfl) hands),
    inv.nodup, ?_, ?_, ?_, fun u => ?_, ?_⟩
  · refine inv.stack_frame outside fun c stacked x within inside => ?_
    have there : At s c .stack := stacked
    exact (Apart.mono outlying le_rfl le_rfl (inv.chunk_inside there).1
      (inv.chunk_inside there).2).not_within inside within
  · rw [show view (s.withBlock t _ _ _ _) = view s from view_same (Function.update_eq_self ..) rfl same]
    exact housing
  · intro b member p origin
    rcases List.mem_cons.mp member with rfl | older
    · rw [start]
      exact outlying
    · exact inv.heap b older p origin
  · show Stands (Function.update s.pool t (s.pool t) u) _ _
    rw [Function.update_eq_self]
    exact forall_update (P := fun (u : T) (phase : Phase) =>
      Stands (s.pool u) (fun j => s.ghost.layout (u, j)) phase) .idle (fun u _ => inv.stands u) u
  · refine inv.history.change malloc none (by rw [← start]; rfl) rfl same
      (by simp) (fun k block member => ?_) (fun k block member _ => ⟨k, member⟩)
      (fun k block member => ?_) (fun k block member => ?_) (by simp)
    · exact .inr ⟨foreign _ _ ⟨k, inv.size k, member⟩ (positive k), member⟩
    · have carved := inv.housing.family.carved_free member
      rw [inv.size] at carved
      exact .inr ⟨foreign _ _ carved (positive k), member⟩
    · have carved := inv.housing.family.carved_live member
      rw [inv.size] at carved
      exact .inr ⟨foreign _ _ carved (positive k), member⟩

/-! ### `np_free` -/

/-- **What freeing a block changes.** -/
structure Frees (s s' : State T) (t : T) (b : Block (Index T)) : Prop where
  live : s'.live = s.live.erase b
  phase : s'.phase = s.phase
  carved : ∀ k, (s'.ghost.layout k).carved (classSize k.2) = (s.ghost.layout k).carved (classSize k.2)
  blocks : ∀ k, ∀ block ∈ (s'.ghost.layout k).blocks, block ∈ (s.ghost.layout k).blocks ∨
    ∃ l, b.origin = .pool l ∧ block ∈ (s.ghost.layout l).blocks ∧ k = (t, l.2)

/-- **A block of a class is freed**, by any thread between two calls. -/
theorem Inv.freePool (inv : Inv n s) (idle : s.phase t = .idle) (build : Build)
    {b : Block (Index T)} (member : b ∈ s.live) (origin : b.origin = .pool k) :
    ∃ s', s.freeWith build t b = some s' ∧ Inv n s' ∧ Frees s s' t b := by
  obtain ⟨here, class_, small, _⟩ := inv.housing.in_pool member origin
  obtain ⟨ptr, fits⟩ := inv.housing.shape b member
  have opens : ∀ j, (s.phase t).Open j := fun j => by
    rw [idle]
    trivial
  have own : view s (t, k.2) = (s.pool t).tlsPool k.2 := view_open (opens k.2)
  have result := ThreadPool.dealloc_pool build (s.pool t)
    (inv.housing.intact b member) fits small
  rw [← ptr, ← class_, ← own] at result
  obtain ⟨housing, _, outside⟩ := inv.housing.dealloc member origin (j := (t, k.2)) rfl
  have next : s.freeWith build t b = some (s.withoutBlock t
      ((s.pool t).set k.2 ((view s (t, k.2)).dealloc s.mem b.base).1)
      ((view s (t, k.2)).dealloc s.mem b.base).2 b) := by
    unfold State.freeWith
    simp only [result]
  have phases : s.phase = Function.update s.phase t (s.phase t) := (Function.update_eq_self ..).symm
  have layouts : s.returned t b.base b.origin = Family.moved s.ghost.layout k (t, k.2) b.base := by
    rw [origin]
    rfl
  have bases : ∀ l, (Family.moved s.ghost.layout k (t, k.2) b.base l).bases
      = (s.ghost.layout l).bases := fun l => by
    unfold Layout.bases
    rw [Family.moved_chunks]
  have frees : Frees s (s.withoutBlock t ((s.pool t).set k.2 ((view s (t, k.2)).dealloc s.mem b.base).1)
      ((view s (t, k.2)).dealloc s.mem b.base).2 b) t b := by
    refine ⟨rfl, rfl, fun l => ?_, fun l block used => ?_⟩
    · show (s.returned t b.base b.origin l).carved _ = _
      rw [layouts]
      unfold Layout.carved
      rw [Family.moved_chunks]
    · change block ∈ (s.returned t b.base b.origin l).blocks at used
      rw [layouts] at used
      rcases List.mem_append.mp used with free | live
      · rw [Family.moved_frees] at free
        split at free
        · rename_i mine
          rcases List.mem_cons.mp free with rfl | older
          · exact .inr ⟨k, origin, List.mem_append_right _ here, mine⟩
          · exact .inl (List.mem_append_left _ older)
        · exact .inl (List.mem_append_left _ free)
      · rw [Family.mem_moved_live (inv.housing.family.once k).of_append_right] at live
        exact .inl (List.mem_append_right _ live.1)
  refine ⟨_, next, ?_, frees⟩
  refine ⟨inv.reserved, inv.located.congr (fun _ => Iff.rfl) (at_congr rfl (fun l => ?_) fun _ => rfl),
    fun l => ?_, ?_, ?_, ?_, fun u => ?_, ?_⟩
  · show (s.returned t b.base b.origin l).bases = _
    rw [layouts, bases]
  · show (s.returned t b.base b.origin l).bases.Nodup
    rw [layouts, bases]
    exact inv.nodup l
  · refine inv.stack_frame outside fun c stacked x within inside => ?_
    refine ((inv.stack_unused stacked).2 b member).not_within within ?_
    unfold Within blockSize at *
    omega
  · rw [show view (s.withoutBlock t _ _ b) = _ from view_set rfl phases (fun _ => Iff.rfl) (opens k.2)]
    show Housing Prod.snd _ (s.returned t b.base b.origin) _ _
    rw [layouts]
    exact housing
  · exact fun c left => inv.heap c (List.mem_of_mem_erase left)
  · show Stands (Function.update s.pool t _ u) (fun j => s.returned t b.base b.origin (u, j)) (s.phase u)
    by_cases mine : u = t
    · subst mine
      rw [idle]
      exact .idle
    · rw [Function.update_of_ne mine, layouts]
      refine (inv.stands u).congr fun j size C => ?_
      have other : (u, j) ≠ (t, k.2) := fun same => mine (congrArg Prod.fst same)
      unfold Layout.hungry Layout.full
      rw [Family.moved_frees, if_neg other, Family.moved_chunks]
  · have family := inv.housing.family
    refine inv.history.change b.base (some t) rfl phases (fun _ => Iff.rfl)
      (by rw [idle]; simp) ?_ ?_ ?_ ?_ (by rintro u ⟨⟩; rw [idle]; simp)
    · intro l block carved
      change block ∈ (s.returned t b.base b.origin l).carved (classSize l.2) at carved
      rw [layouts] at carved
      unfold Layout.carved at carved
      rw [Family.moved_chunks] at carved
      by_cases same : block = b.base
      · refine .inl ⟨same, (t, k.2), List.mem_append_left _ ?_⟩
        show b.base ∈ (s.returned t b.base b.origin (t, k.2)).frees
        rw [layouts, Family.moved_frees, if_pos rfl]
        exact List.mem_cons_self
      · exact .inr ⟨same, carved⟩
    · intro l block used other
      refine ⟨l, ?_⟩
      show block ∈ (s.returned t b.base b.origin l).blocks
      rw [layouts]
      rcases List.mem_append.mp used with free | live
      · refine List.mem_append_left _ ?_
        rw [Family.moved_frees]
        split
        · exact .tail _ free
        · exact free
      · refine List.mem_append_right _ ?_
        rw [Family.mem_moved_live (family.once k).of_append_right]
        exact ⟨live, fun same => other same.1⟩
    · intro l block free
      change block ∈ (s.returned t b.base b.origin l).frees at free
      rw [layouts, Family.moved_frees] at free
      split at free
      · rename_i mine
        rcases List.mem_cons.mp free with rfl | older
        · exact .inl ⟨rfl, by rw [mine]⟩
        · exact .inr ⟨(family.live_ne_free here older).symm, older⟩
      · exact .inr ⟨(family.live_ne_free here free).symm, free⟩
    · intro l block live
      change block ∈ (s.returned t b.base b.origin l).live at live
      rw [layouts, Family.mem_moved_live (family.once k).of_append_right] at live
      refine .inr ⟨fun same => live.2 ⟨same, ?_⟩, live.1⟩
      by_contra other
      rw [same] at live
      exact family.only l k other (List.mem_append_right _ live.1) (List.mem_append_right _ here)

/-- **A `malloc`ed block is freed.** -/
theorem Inv.freeMalloc (inv : Inv n s) (idle : s.phase t = .idle) (build : Build)
    {b : Block (Index T)} {p : Nat} (member : b ∈ s.live) (origin : b.origin = .malloc p) :
    ∃ s', s.freeWith build t b = some s' ∧ Inv n s' ∧ Frees s s' t b := by
  obtain ⟨ptr, fits⟩ := inv.housing.shape b member
  have housed := inv.housing.housed b member
  unfold Housed at housed
  rw [origin] at housed
  obtain ⟨_, large, away⟩ := housed
  have result := ThreadPool.dealloc_malloc build (s.pool t)
    (inv.housing.intact b member) fits large
  rw [← ptr] at result
  obtain ⟨housing, _⟩ := inv.housing.free member origin
  have next : s.freeWith build t b = some (s.withoutBlock t (s.pool t) s.mem b) := by
    unfold State.freeWith
    simp only [result]
  have phases : s.phase = Function.update s.phase t (s.phase t) := (Function.update_eq_self ..).symm
  have layouts : s.returned t b.base b.origin = s.ghost.layout := by
    rw [origin]
    rfl
  -- no block of a class starts there
  have foreign : ∀ size block, Carved (view s) s.ghost.layout size block → 0 < size →
      block ≠ b.base := fun size block carved positive =>
    inv.housing.family.ne_carved away carved positive (by unfold blockSize; omega)
  have positive : ∀ k : Index T, 0 < classSize k.2 := fun k => by
    have bounds := classSize_bounds k.2
    omega
  have frees : Frees s (s.withoutBlock t (s.pool t) s.mem b) t b := by
    refine ⟨rfl, rfl, fun l => ?_, fun l block used => .inl ?_⟩
    · show (s.returned t b.base b.origin l).carved _ = _
      rw [layouts]
    · change block ∈ (s.returned t b.base b.origin l).blocks at used
      rwa [layouts] at used
  refine ⟨_, next, ?_, frees⟩
  refine ⟨inv.reserved, inv.located.congr (fun _ => Iff.rfl) (at_congr rfl (fun l => ?_) fun _ => rfl),
    fun l => ?_, inv.stack, ?_, ?_, fun u => ?_, ?_⟩
  · show (s.returned t b.base b.origin l).bases = _
    rw [layouts]
  · show (s.returned t b.base b.origin l).bases.Nodup
    rw [layouts]
    exact inv.nodup l
  · rw [show view (s.withoutBlock t _ _ b) = view s from
      view_same (Function.update_eq_self ..) phases fun _ => Iff.rfl]
    show Housing Prod.snd _ (s.returned t b.base b.origin) _ _
    rw [layouts]
    exact housing
  · exact fun c left => inv.heap c (List.mem_of_mem_erase left)
  · show Stands (Function.update s.pool t _ u) (fun j => s.returned t b.base b.origin (u, j)) (s.phase u)
    rw [Function.update_eq_self, layouts]
    exact inv.stands u
  · have same : (s.withoutBlock t (s.pool t) s.mem b).ghost.layout = s.ghost.layout := layouts
    refine inv.history.change b.base (some t) rfl phases (fun _ => Iff.rfl)
      (by rw [idle]; simp) ?_ ?_ ?_ ?_ (by rintro u ⟨⟩; rw [idle]; simp) <;> rw [same]
    · exact fun l block carved => .inr ⟨foreign _ _ ⟨l, inv.size l, carved⟩ (positive l), carved⟩
    · exact fun l block used _ => ⟨l, used⟩
    · intro l block free
      have carved := inv.housing.family.carved_free free
      rw [inv.size] at carved
      exact .inr ⟨foreign _ _ carved (positive l), free⟩
    · intro l block live
      have carved := inv.housing.family.carved_live live
      rw [inv.size] at carved
      exact .inr ⟨foreign _ _ carved (positive l), live⟩

/-- **A live block is freed.** -/
theorem Inv.freeWith (inv : Inv n s) (idle : s.phase t = .idle) (build : Build)
    {b : Block (Index T)} (member : b ∈ s.live) :
    ∃ s', s.freeWith build t b = some s' ∧ Inv n s' ∧ Frees s s' t b := by
  cases origin : b.origin with
  | pool k => exact inv.freePool idle build member origin
  | malloc p => exact inv.freeMalloc idle build member origin

/-- It is a step. -/
theorem Inv.frees_live (inv : Inv n s) (idle : s.phase t = .idle) (build : Build)
    {b : Block (Index T)} (member : b ∈ s.live) :
    ∃ s', s.step build (.free t b.ptr) = some s' ∧ s.freeWith build t b = some s' ∧ Inv n s' ∧
      Frees s s' t b := by
  obtain ⟨s', freed, after, frees⟩ := inv.freeWith idle build member
  exact ⟨s', Moves.step (.free idle (inv.housing.find member) freed), freed, after, frees⟩

/-! ### Every step -/

/-- No block of the head chunk of a class is in use. -/
def Unclaimed (s : State T) (t : T) (i : SizeClass) : Prop :=
  ∀ chunk rest, (s.ghost.layout (t, i)).chunks = chunk :: rest →
    ∀ k, ∀ block ∈ (s.ghost.layout k).blocks, block ∉ chunk.blocks (classSize i)

/-- What the code tests before it asks for a chunk. -/
theorem Inv.starved_iff (inv : Inv n s) (here : (s.phase t).Open i) :
    ((s.pool t).tlsPool i).Starved s.mem ↔
      (s.ghost.layout (t, i)).hungry (classSize i) kDefaultChunkSize = true := by
  rw [← view_open here, (inv.represents (t, i)).starved_iff (by
    rw [inv.housing.family.chunk]
    exact inv.housing.family.small), inv.size, inv.housing.family.chunk]

variable {build : Build} {bytes malloc : Nat} {info : Meta}

/-- **A supplied request that needs no chunk is served**, or `malloc` failed. -/
theorem Inv.alloc (inv : Inv n s) (idle : s.phase t = .idle) (build : Build)
    (spare : ¬ NeedsChunk (s.pool t) s.mem bytes)
    (supplied : Supplied n s (.alloc t bytes info malloc)) :
    s.step build (.alloc t bytes info malloc) = none ∨
      ∃ s' b, s.step build (.alloc t bytes info malloc) = some s' ∧ Inv n s' ∧ Serves s s' t b := by
  obtain ⟨bound, fresh⟩ := supplied
  have opens : ∀ j, (s.phase t).Open j := fun j => by
    rw [idle]
    trivial
  have hand : (s.phase t).hand = none := by
    rw [idle]
    rfl
  unfold State.step
  simp only [idle, if_neg spare]
  by_cases small : widened bytes ≤ maxAllocSize getAllocSizeList
  · have fed : (s.ghost.layout (t, classOf (widened bytes))).hungry
        (classSize (classOf (widened bytes))) kDefaultChunkSize ≠ true := fun hungry =>
      spare ⟨small, (inv.starved_iff (opens _)).mpr hungry⟩
    obtain ⟨s', b, next, after, serves, _⟩ := inv.allocPool opens (fun _ => .error .aborted) 0
      malloc info bound small (fun hungry => absurd hungry fed) fun _ => hand
    exact .inr ⟨s', b, next, after, serves⟩
  · by_cases null : malloc = 0
    · have served : (s.pool t).serve (fun _ => .error .aborted) malloc ⟨s.mem, ()⟩ bytes = _ :=
        ThreadPool.serve_malloc small
      have answer := ThreadPool.alloc_of_serve info served
      rw [if_pos null] at answer
      refine .inl ?_
      unfold State.allocWith
      simp only [answer]
    · obtain ⟨s', b, next, after, serves, _⟩ := inv.allocMalloc opens hand
        (fun _ => .error .aborted) 0 info bound (by omega) null (fresh (by omega) null)
      exact .inr ⟨s', b, next, after, serves⟩

/-- **A request that was given a chunk is served.** -/
theorem Inv.finish (inv : Inv n s) (granted : s.phase t = .granted bytes info c) (build : Build) :
    ∃ s' b, s.step build (.finish t) = some s' ∧ Inv n s' ∧ Serves s s' t b ∧
      b.bytes = bytes ∧ b.origin = .pool (t, classOf (widened bytes)) ∧
      s'.ghost.layout = s.served t c (.pool (classOf (widened bytes))) := by
  obtain ⟨bound, small, hungry⟩ := (inv.stands t).starving bytes (by rw [granted]; rfl)
  have opens : ∀ j, (s.phase t).Open j := fun j => by
    rw [granted]
    trivial
  have hand : (s.phase t).hand = some c := by
    rw [granted]
    rfl
  unfold State.step
  simp only [granted]
  exact inv.allocPool opens (fun _ => .ok (c, ())) c 0 info bound small (fun _ => ⟨rfl, hand⟩)
    fun fed => absurd hungry (by rw [fed]; simp)

/-- **Every step keeps the invariant**, if the chunks that are handed over are not in use. -/
theorem Inv.step {act : Act T} (inv : Inv n s) (supplied : Supplied n s act)
    (unclaimed : ∀ t i later, act = .unlink t → s.phase t = .closing i later →
      ((s.pool t).tlsPool i).head_ ≠ 0 → Unclaimed s t i)
    (next : s.step build act = some s') : Inv n s' := by
  cases moves_of_step next with
  | start here => exact inv.start here
  | alloc here spare served =>
    rcases inv.alloc here build spare supplied with fails | ⟨after, _, result, holds, _⟩
    · rw [fails] at next
      cases next
    · obtain rfl := Option.some.inj (result.symm.trans next)
      exact holds
  | starved here need empty =>
    have hungry := (inv.starved_iff (by rw [here]; trivial)).mp need.2
    refine inv.goto (fun j => by rw [here]; exact Iff.rfl) (by rw [here]; rfl) (by simp) ?_
    exact .starved supplied need.1 hungry
  | popped here need some_ =>
    have hungry := (inv.starved_iff (by rw [here]; trivial)).mp need.2
    exact inv.popped here some_ _ supplied need.1 hungry
  | advance here => exact inv.advanced here supplied
  | finish here served =>
    obtain ⟨after, _, result, holds, _⟩ := inv.finish here build
    obtain rfl := Option.some.inj (result.symm.trans next)
    exact holds
  | free here found freed =>
    obtain ⟨after, result, holds, _⟩ := inv.freeWith here build (List.mem_of_find?_eq_some found)
    obtain rfl := Option.some.inj (result.symm.trans freed)
    exact holds
  | write member within => exact inv.write member _ within
  | elsewhere => exact inv.elsewhere _ supplied.1 supplied.2
  | @exit t order here perm =>
    have every : ∀ i, i ∈ order := fun i => perm.mem_iff.mpr (List.mem_finRange i)
    refine inv.close (fun i => ?_) (fun i missing => absurd (every i) missing)
      (perm.nodup_iff.mpr (List.nodup_finRange 25)) (by rw [here]; rfl)
    rw [here]
    exact ⟨fun _ => every i, fun _ => trivial⟩
  | @close t i later here null =>
    have stands := inv.stands t
    rw [here] at stands
    refine inv.close (fun j => by rw [here]; exact Iff.rfl) (fun j missing => ?_)
      (List.nodup_cons.mp stands.ordered).2 (by rw [here]; rfl)
    by_cases own : j = i
    · rw [own]
      exact null
    · exact stands.done j ⟨own, missing⟩
  | @unlink t i later here some_ =>
    cases chunks : (s.ghost.layout (t, i)).chunks with
    | nil =>
      have null := (inv.represents (t, i)).head_null.mpr chunks
      rw [view_head] at null
      exact absurd null some_
    | cons chunk rest =>
      exact inv.unlinkHead here chunks (unclaimed t i later rfl here some_ chunk rest chunks)
  | push here => exact inv.pushed here

end NpAlloc.Threads
