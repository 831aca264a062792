/-
**How far the program eats into its reservation.**

`head_` only ever moves up, and a thread moves it when it has seen the free stack empty. At that moment
every chunk issued so far is in a chain or in the hand of a call, and every thread that is going to move
`head_` is in a call as well. What the chains hold follows from what the threads have done, so `head_` is
bounded by a demand that can be read off the calls of the clients.

* `demand` — the chunks the threads have use for, after a run: what their tallies come to, and one for
  every call in progress;
* `Inv.census` — what is issued is on the free stack, in a chain, or in a hand;
* **`reservation_bounded`** — `head_` never stands behind more chunks than the demand was at a moment of
  the run at which the free stack was empty.
-/

import NpAlloc.Mmap.Accounting
import NpAlloc.Threads.Deinit
import NpAlloc.Threads.Footprint

set_option linter.unusedSectionVars false

namespace NpAlloc.Threads

open Mmap Pool

variable {T : Type} [DecidableEq T] {s s' : State T} {n : Nat} {t u : T} {i : SizeClass}
  {build : Build} {act : Act T}

/-! ### Demand -/

/-- A call is under way that has a chunk in hand, or is going to. -/
def Phase.calls : Phase → Nat
  | .starved _ _ | .granted _ _ _ | .handing _ _ _ => 1
  | _ => 0

/-- A call is going to move `head_`. -/
def Phase.decided : Phase → Nat
  | .starved _ _ => 1
  | _ => 0

/-- The thread has a pool. -/
def Phase.Attached : Phase → Prop
  | .absent | .exited => False
  | _ => True

instance : (phase : Phase) → Decidable phase.Attached
  | .absent | .exited => .isFalse not_false
  | .idle | .starved _ _ | .granted _ _ _ | .closing _ _ | .handing _ _ _ => .isTrue trivial

/-- The chunks a thread has use for, after a run that ends in `s`. -/
def need (build : Build) (n : Nat) (start : State T) (acts : List (Act T)) (s : State T) (t : T) : Nat :=
  if (s.phase t).Attached then
    ∑ i, (tallied build n t i start acts).2 ⌈/⌉ blocksPerChunk i + (s.phase t).calls
  else 0

/-- **The chunks the threads have use for**, after a run that ends in `s`. -/
def demand [Fintype T] (build : Build) (n : Nat) (start : State T) (acts : List (Act T)) (s : State T) :
    Nat :=
  ∑ t, need build n start acts s t

/-- The chunks issued so far. -/
def State.issued (s : State T) : Nat := (s.head_ - s.ptr_) / kDefaultChunkSize

theorem issued_eq {m : Nat} (head : s.head_ = chunkAt s.ptr_ m) : s.issued = m := by
  unfold State.issued
  rw [head, chunkAt, Nat.add_sub_cancel_left, Nat.mul_div_cancel _ (by decide)]

/-! ### Where the chunks are -/

/-- What a thread has: the chunks in its chains, and the one in its hand. -/
def share (s : State T) (t : T) : Nat :=
  ∑ i, (s.ghost.layout (t, i)).bases.length + (s.phase t).hand.toFinset.card

/-- **What is issued is on the free stack, in a chain, or in a hand.** -/
theorem Inv.census [Fintype T] (inv : Inv n s) :
    s.issued ≤ s.ghost.stack.length + ∑ t, share s t := by
  obtain ⟨m, _, head⟩ := inv.reserved.frontier
  let chains (t : T) : Finset Nat := Finset.univ.biUnion fun i => (s.ghost.layout (t, i)).bases.toFinset
  let parts (t : T) : Finset Nat := chains t ∪ (s.phase t).hand.toFinset
  have cover : (Finset.range m).image (chunkAt s.ptr_) ⊆ s.ghost.stack.toFinset ∪ Finset.univ.biUnion parts := by
    intro c member
    obtain ⟨j, below, rfl⟩ := Finset.mem_image.mp member
    obtain ⟨p, here⟩ := inv.located.some _ ((issued_iff head _).mpr ⟨j, Finset.mem_range.mp below, rfl⟩)
    cases p with
    | stack => exact Finset.mem_union_left _ (List.mem_toFinset.mpr here)
    | chain k =>
      refine Finset.mem_union_right _ (Finset.mem_biUnion.mpr ⟨k.1, Finset.mem_univ _, ?_⟩)
      refine Finset.mem_union_left _ (Finset.mem_biUnion.mpr ⟨k.2, Finset.mem_univ _, ?_⟩)
      exact List.mem_toFinset.mpr here
    | hand t =>
      refine Finset.mem_union_right _ (Finset.mem_biUnion.mpr ⟨t, Finset.mem_univ _, ?_⟩)
      exact Finset.mem_union_right _ (Option.mem_toFinset.mpr here)
  have chained (t : T) : (chains t).card ≤ ∑ i, (s.ghost.layout (t, i)).bases.length :=
    Finset.card_biUnion_le.trans (Finset.sum_le_sum fun i _ => List.toFinset_card_le _)
  have each (t : T) : (parts t).card ≤ share s t :=
    (Finset.card_union_le _ _).trans (Nat.add_le_add_right (chained t) _)
  calc s.issued = ((Finset.range m).image (chunkAt s.ptr_)).card := by
        rw [issued_eq head, Finset.card_image_of_injective _ (chunkAt_injective _), Finset.card_range]
    _ ≤ (s.ghost.stack.toFinset ∪ Finset.univ.biUnion parts).card := Finset.card_le_card cover
    _ ≤ s.ghost.stack.toFinset.card + (Finset.univ.biUnion parts).card := Finset.card_union_le _ _
    _ ≤ s.ghost.stack.length + ∑ t, share s t :=
        Nat.add_le_add (List.toFinset_card_le _)
          (Finset.card_biUnion_le.trans (Finset.sum_le_sum fun t _ => each t))

/-! ### What the chains hold -/

/-- A request that is placed adds to no chain that is given up. -/
theorem Placed.bases_le {b : Block (Index T)} {bytes malloc chunk : Nat} {info : Meta}
    (placed : Placed s s' u chunk malloc bytes info b) (given : ¬ Usable s' t i) :
    (s'.ghost.layout (t, i)).bases.length ≤ (s.ghost.layout (t, i)).bases.length := by
  by_cases small : widened bytes ≤ maxAllocSize getAllocSizeList
  · obtain ⟨_, _, layout⟩ := placed.small small
    rw [layout]
    refine le_of_eq (congrArg (fun L : Layout => L.bases.length) (Function.update_of_ne ?_ _ _))
    intro mine
    obtain ⟨rfl, rfl⟩ := Prod.mk.inj mine
    refine given (.inl ?_)
    rw [placed.phase, Function.update_self]
    trivial
  · rw [(placed.large (by omega)).2]

/-- **A chain that is given up only gets shorter.** -/
theorem Inv.bases_le (inv : Inv n s) (supplied : Supplied n s act) (next : s.step build act = some s')
    (given : ¬ Usable s' t i) :
    (s'.ghost.layout (t, i)).bases.length ≤ (s.ghost.layout (t, i)).bases.length := by
  cases moves_of_step next with
  | alloc here spare served =>
    obtain ⟨b, placed⟩ := inv.placed_alloc supplied next
    exact placed.bases_le given
  | finish here served =>
    obtain ⟨b, placed⟩ := inv.placed_finish here next
    exact placed.bases_le given
  | @free u ptr b s' here found freed =>
    obtain ⟨c, member, rfl, _, released⟩ := inv.released next
    rw [released.bases_same]
  | exit | close => rw [close_bases]
  | @unlink u k later here some_ =>
    by_cases mine : (t, i) = (u, k)
    · obtain ⟨rfl, rfl⟩ := Prod.mk.inj mine
      show (Function.update s.ghost.layout (t, i) _ (t, i)).bases.length ≤ _
      rw [Function.update_self]
      unfold Layout.bases
      rw [List.length_map, List.length_map, List.length_tail]
      exact Nat.sub_le _ _
    · refine le_of_eq (congrArg (fun L : Layout => L.bases.length) (Function.update_of_ne mine _ _))
  | start | starved | popped | advance | write | elsewhere | push => exact le_rfl

/-- The blocks of a chunk. -/
theorem blocksPerChunk_pos (i : SizeClass) : 0 < blocksPerChunk i :=
  Layout.capacity_pos (Nat.lt_of_lt_of_le (by decide) (classSize_bounds i).1) (class_large i)

/-- **No chain is longer than the tally of its class says.** -/
theorem bases_le_tally {start : State T} {acts : List (Act T)} (initial : State.Init n start)
    (run : (machine T build n).Exec (fun s act => Supplied n s act ∧ Orderly s act) start acts s) (t : T)
    (i : SizeClass) :
    (s.ghost.layout (t, i)).bases.length ≤ (tallied build n t i start acts).2 ⌈/⌉ blocksPerChunk i := by
  refine run.snoc_induction (P := fun acts s => (s.ghost.layout (t, i)).bases.length
    ≤ (tallied build n t i start acts).2 ⌈/⌉ blocksPerChunk i) ?_ ?_
  · rw [initial.layout]
    exact Nat.zero_le _
  · intro acts s act s' front before admitted next
    have run' := front.snoc admitted next
    by_cases usable : Usable s' t i
    · obtain ⟨inv, counts⟩ := counted_run initial run'
      have counted := counts t i usable
      unfold Layout.bases
      rw [List.length_map, (inv.shape t i).chunks_length (class_large i) counted.used, counted.carved]
      rfl
    · have inv := (counted_run initial front).1
      have more : (tallied build n t i start acts).2 ≤ (tallied build n t i start (acts ++ [act])).2 := by
        rw [tallied_snoc front next]
        exact le_max_left _ _
      exact (inv.bases_le admitted.1 next usable).trans (before.trans
        ((gc_mul_ceilDiv (blocksPerChunk_pos i)).monotone_l more))

/-- **What a thread has, and is going to get, it has use for.** -/
theorem share_le_need {start : State T} {acts : List (Act T)} (initial : State.Init n start)
    (run : (machine T build n).Exec (fun s act => Supplied n s act ∧ Orderly s act) start acts s) (t : T) :
    share s t + (s.phase t).decided ≤ need build n start acts s t := by
  have inv := (counted_run initial run).1
  have chains := Finset.sum_le_sum fun i (_ : i ∈ Finset.univ) => bases_le_tally initial run t i
  have done (ended : ∀ i, (s.phase t).Done i) : ∑ i, (s.ghost.layout (t, i)).bases.length = 0 :=
    Finset.sum_eq_zero fun i _ => by
      rw [inv.bases_nil (ended i)]
      rfl
  unfold share need
  cases here : s.phase t with
  | absent | exited =>
    rw [done fun i => by rw [here]; trivial]
    exact le_rfl
  | idle | closing | starved | granted | handing =>
    rw [if_pos (by trivial)]
    simp only [Phase.hand, Phase.decided, Phase.calls, Option.toFinset_none, Option.toFinset_some,
      Finset.card_empty, Finset.card_singleton]
    omega

/-! ### Every step -/

/-- A change of one phase. -/
theorem sum_decided [Fintype T] {phase : Phase} (phases : s'.phase = Function.update s.phase t phase) :
    ∑ u, (s'.phase u).decided + (s.phase t).decided = ∑ u, (s.phase u).decided + phase.decided := by
  have total := sum_step (t := t) (fun u => (s.phase u).decided) (fun u => (s'.phase u).decided)
    fun u other => by rw [phases, Function.update_of_ne other]
  have mine : (s'.phase t).decided = phase.decided := by rw [phases, Function.update_self]
  omega

/-- The advance of `head_` issues one chunk. -/
theorem Inv.advanced_issued (inv : Inv n s) (t : T) (bytes : Nat) (info : Meta)
    (more : s.head_ ≠ s.ptr_ + n * kDefaultChunkSize) :
    (s.advanced t bytes info).issued = s.issued + 1 := by
  obtain ⟨m, _, head⟩ := inv.reserved.frontier
  rw [issued_eq head, issued_eq (inv.advanced_head head t bytes info more)]

/-- **A step issues no more chunks than were decided on**, and only decides on one when the free stack is
empty. -/
theorem Inv.issues [Fintype T] (inv : Inv n s) (supplied : Supplied n s act) (after : Inv n s')
    (next : s.step build act = some s') :
    s'.issued + ∑ u, (s'.phase u).decided ≤ s.issued + ∑ u, (s.phase u).decided ∨ s'.freeHead = 0 := by
  -- a step that moves one phase, and not `head_`
  have moves (t : T) (phase : Phase) (phases : s'.phase = Function.update s.phase t phase)
      (less : phase.decided ≤ (s.phase t).decided) (still : s'.issued = s.issued) :
      s'.issued + ∑ u, (s'.phase u).decided ≤ s.issued + ∑ u, (s.phase u).decided := by
    have total := sum_decided phases
    omega
  cases moves_of_step next with
  | starved here need empty => exact .inr empty
  | start here => exact .inl (moves _ _ rfl (Nat.zero_le _) rfl)
  | alloc here spare served =>
    obtain ⟨b, placed⟩ := inv.placed_alloc supplied next
    obtain ⟨_, head, ptr, _⟩ := allocWith_shared served
    exact .inl (moves _ _ placed.phase (Nat.zero_le _) (by unfold State.issued; rw [head, ptr]))
  | finish here served =>
    obtain ⟨b, placed⟩ := inv.placed_finish here next
    obtain ⟨_, head, ptr, _⟩ := allocWith_shared served
    exact .inl (moves _ _ placed.phase (Nat.zero_le _) (by unfold State.issued; rw [head, ptr]))
  | popped here need some_ => exact .inl (moves _ _ rfl (Nat.zero_le _) rfl)
  | @advance t bytes info here =>
    have phases : (s.advanced t bytes info).phase
        = Function.update s.phase t (.granted bytes info s.head_) := rfl
    have total := sum_decided phases
    rw [here] at total
    have one := inv.advanced_issued t bytes info supplied
    have before : (Phase.starved bytes info).decided = 1 := rfl
    have now : (Phase.granted bytes info s.head_).decided = 0 := rfl
    exact .inl (by omega)
  | @free t ptr b s' here found freed =>
    obtain ⟨c, _, rfl, _, released⟩ := inv.released next
    obtain ⟨_, head, ptr, _⟩ := freeWith_shared freed
    refine .inl (le_of_eq ?_)
    unfold State.issued
    rw [head, ptr, released.phase]
  | write | elsewhere => exact .inl le_rfl
  | @exit t order here perm =>
    refine .inl (moves t (nextClass order) rfl ?_ rfl)
    cases order <;> exact Nat.zero_le _
  | @close t i later here null =>
    refine .inl (moves t (nextClass later) rfl ?_ rfl)
    cases later <;> exact Nat.zero_le _
  | unlink here some_ => exact .inl (moves _ _ rfl (Nat.zero_le _) rfl)
  | push here => exact .inl (moves _ _ rfl (Nat.zero_le _) rfl)

/-! ### Runs -/

/-- **The demand of a moment of the run**, when the free stack was empty, covers `m` chunks. -/
def Covered [Fintype T] (build : Build) (n : Nat) (start : State T) (acts : List (Act T)) (s : State T)
    (m : Nat) : Prop :=
  ∃ before after middle, acts = before ++ after ∧
    (machine T build n).Exec (fun s act => Supplied n s act ∧ Orderly s act) start before middle ∧
    (machine T build n).Exec (fun s act => Supplied n s act ∧ Orderly s act) middle after s ∧
    middle.freeHead = 0 ∧ m ≤ demand build n start before middle

/-- The demand of the state that is reached, if its free stack is empty. -/
theorem covered_now [Fintype T] {start : State T} {acts : List (Act T)} (initial : State.Init n start)
    (run : (machine T build n).Exec (fun s act => Supplied n s act ∧ Orderly s act) start acts s)
    (empty : s.freeHead = 0) :
    Covered build n start acts s (s.issued + ∑ u, (s.phase u).decided) := by
  have inv := (counted_run initial run).1
  have stack := inv.stack
  rw [empty] at stack
  have nothing : s.ghost.stack = [] := Linked.eq_nil stack
  have census := inv.census
  rw [nothing, List.length_nil, Nat.zero_add] at census
  refine ⟨acts, [], s, (List.append_nil _).symm, run, .nil s, empty, ?_⟩
  calc s.issued + ∑ u, (s.phase u).decided
      ≤ ∑ u, share s u + ∑ u, (s.phase u).decided := Nat.add_le_add_right census _
    _ = ∑ u, (share s u + (s.phase u).decided) := Finset.sum_add_distrib.symm
    _ ≤ demand build n start acts s := Finset.sum_le_sum fun u _ => share_le_need initial run u

/-- **The reservation is used up to the demand.** In every run of any threads, whose chunks are handed
over settled, there was a moment when the free stack was empty and the threads had use for as many chunks
as have been issued by the end: for each class of a thread that had started and not ended, `⌈P / m⌉`,
where `P` is the most by which the requests of the class that were served to it had exceeded the blocks
of the class it had freed, and `m` the blocks of a chunk; and one for each call on its way to a chunk, or
with one in hand. -/
theorem reservation_bounded [Fintype T] (build : Build) (n : Nat) (start s : State T) (acts : List (Act T))
    (initial : State.Init n start)
    (run : (machine T build n).Exec (fun s act => Supplied n s act ∧ Orderly s act) start acts s) :
    Covered build n start acts s ((s.head_ - s.ptr_) / kDefaultChunkSize) := by
  have covered : Covered build n start acts s (s.issued + ∑ u, (s.phase u).decided) := by
    refine run.snoc_induction (P := fun acts s =>
      Covered build n start acts s (s.issued + ∑ u, (s.phase u).decided)) ?_ ?_
    · exact covered_now initial (.nil start) initial.freeHead
    · intro acts s act s' front ih admitted next
      have inv := (counted_run initial front).1
      have run' := front.snoc admitted next
      rcases inv.issues admitted.1 (inv.keeps build n s act s' admitted next) next with less | empty
      · obtain ⟨before, after, middle, rfl, first, second, empty, bound⟩ := ih
        exact ⟨before, after ++ [act], middle, (List.append_assoc ..), first,
          second.snoc admitted next, empty, less.trans bound⟩
      · exact covered_now initial run' empty
  obtain ⟨before, after, middle, split, first, second, empty, bound⟩ := covered
  exact ⟨before, after, middle, split, first, second, empty, (Nat.le_add_right _ _).trans bound⟩

/-- One chunk is issued, for two threads that hold it one after the other. -/
theorem reservation_bounded_pair : ∃ s : State Bool,
    (machine Bool .debug 1).Exec (fun s act => Supplied 1 s act ∧ Orderly s act) State.pair pairCalls s ∧
    s.phase true = .exited ∧ s.live.map Block.bytes = [100] ∧
    Covered .debug 1 State.pair pairCalls s ((s.head_ - s.ptr_) / kDefaultChunkSize) := by
  obtain ⟨s, b, run, _, exited, _, live, bytes, _⟩ := pair_orderly .debug
  exact ⟨s, run, exited, by rw [live]; simp [bytes],
    reservation_bounded .debug 1 State.pair s pairCalls State.pair_init run⟩

end NpAlloc.Threads
