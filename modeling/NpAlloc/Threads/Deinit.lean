/-
**What a thread that exits hands back, and in how many steps.**

`deinit` runs while the other threads allocate, free and exit. Its loop reads `head_` of its own chain
and writes the link of a chunk that nobody else holds, so neither the order in which it hands back its
chunks nor the number of its steps depends on the others.

* `pending` — the chunks a thread that exits has yet to push, in the order in which it will;
* `Handed.step` — a step pushes the first of them, or leaves them as they are;
* **`deinit_hands_back`** — from `exit` on, in any interleaving, the thread pushes the chunks of its
  classes, each once, class by class and head first, and is done after two steps for each chunk and one
  for each class.
-/

import NpAlloc.General.Progress
import NpAlloc.Threads.Frames

set_option linter.unusedSectionVars false

namespace NpAlloc.Threads

open Mmap Pool

variable {T : Type} [DecidableEq T] {s s' : State T} {n : Nat} {t u : T} {i j : SizeClass}
  {build : Build}

/-! ### What is left to do -/

/-- The chunks of a thread's classes, head first. -/
def chunksOf (s : State T) (t : T) (order : List SizeClass) : List Nat :=
  order.flatMap fun i => (s.ghost.layout (t, i)).bases

/-- **The chunks a thread that exits has yet to push.** -/
def pending (s : State T) (t : T) : List Nat :=
  match s.phase t with
  | .closing i later => chunksOf s t (i :: later)
  | .handing i later chunk => chunk :: chunksOf s t (i :: later)
  | _ => []

/-- The steps it has yet to take. -/
def dueSteps (s : State T) (t : T) : Nat :=
  match s.phase t with
  | .closing i later => 2 * (pending s t).length + (i :: later).length
  | .handing i later _ => 2 * (pending s t).length - 1 + (i :: later).length
  | _ => 0

/-- A step of the exit of a thread. -/
def deinits (t : T) : Act T → Bool
  | .unlink u | .push u => u = t
  | _ => false

/-- The chunk that a thread pushes in a step. -/
def pushes (t : T) : State T × Act T → List Nat
  | (s, .push u) =>
    match s.phase u with
    | .handing _ _ chunk => if u = t then [chunk] else []
    | _ => []
  | _ => []

/-! ### One step -/

/-- The chunks of a thread stay where the layouts do. -/
theorem chunksOf_congr (order : List SizeClass)
    (same : ∀ j ∈ order, (s'.ghost.layout (t, j)).bases = (s.ghost.layout (t, j)).bases) :
    chunksOf s' t order = chunksOf s t order :=
  List.flatMap_congr same

/-- What is left depends on the phase and the chains of the thread alone. -/
theorem pending_congr (phase : s'.phase t = s.phase t)
    (same : ∀ j, (s'.ghost.layout (t, j)).bases = (s.ghost.layout (t, j)).bases) :
    pending s' t = pending s t ∧ dueSteps s' t = dueSteps s t := by
  have chunks : ∀ order, chunksOf s' t order = chunksOf s t order := fun order =>
    chunksOf_congr order fun j _ => same j
  have left : pending s' t = pending s t := by
    unfold pending
    rw [phase]
    simp only [chunks]
  refine ⟨left, ?_⟩
  unfold dueSteps
  rw [phase, left]

/-- A request leaves the chains of the other threads alone. -/
theorem Placed.bases_same {chunk malloc bytes : Nat} {info : Meta} {b : Block (Index T)}
    (placed : Placed s s' u chunk malloc bytes info b) (other : u ≠ t) (j : SizeClass) :
    (s'.ghost.layout (t, j)).bases = (s.ghost.layout (t, j)).bases := by
  by_cases small : widened bytes ≤ maxAllocSize getAllocSizeList
  · obtain ⟨_, _, layout⟩ := placed.small small
    rw [layout]
    refine congrArg Layout.bases (Function.update_of_ne ?_ _ _)
    intro same
    exact other (Prod.mk.inj same).1.symm
  · obtain ⟨_, layout⟩ := placed.large (by omega)
    rw [layout]

/-- A block that is freed leaves every chain alone. -/
theorem Released.bases_same {b : Block (Index T)} (released : Released s s' u b) (k : Index T) :
    (s'.ghost.layout k).bases = (s.ghost.layout k).bases := by
  rw [released.layout]
  cases b.origin with
  | pool l =>
    show (Family.moved s.ghost.layout l (u, l.2) b.base k).bases = _
    unfold Layout.bases
    rw [Family.moved_chunks]
  | malloc p => rfl

/-- Giving up a free list leaves every chain alone. -/
theorem close_bases (order : List SizeClass) (k : Index T) :
    ((s.close u order).ghost.layout k).bases = (s.ghost.layout k).bases := by
  cases order with
  | nil => rfl
  | cons i later =>
    show (Function.update s.ghost.layout (u, i) _ k).bases = _
    by_cases own : k = (u, i)
    · subst own
      rw [Function.update_self]
      rfl
    · rw [Function.update_of_ne own]

/-- **The steps of others leave the exit of a thread alone.** -/
theorem Inv.exit_undisturbed (inv : Inv n s) {act : Act T} (supplied : Supplied n s act)
    (next : s.step build act = some s') (leaves : (s.phase t).Leaving) (foreign : deinits t act = false) :
    s'.phase t = s.phase t ∧
      ∀ j, (s'.ghost.layout (t, j)).bases = (s.ghost.layout (t, j)).bases := by
  -- a thread elsewhere is another one
  have elsewhere : ∀ (u : T) (phase : Phase), s.phase u = phase → ¬ phase.Leaving → u ≠ t := by
    intro u phase here stays same
    rw [same] at here
    rw [here] at leaves
    exact stays leaves
  have another : ∀ u, (decide (u = t)) = false → u ≠ t := fun u => of_decide_eq_false
  cases moves_of_step next with
  | @start u here =>
    have other := elsewhere u _ here id
    exact ⟨Function.update_of_ne other.symm _ _, fun _ => rfl⟩
  | @alloc u bytes malloc info s' here spare served =>
    have other := elsewhere u _ here id
    obtain ⟨b, placed⟩ := inv.placed_alloc supplied next
    refine ⟨?_, placed.bases_same other⟩
    rw [placed.phase, Function.update_of_ne other.symm]
  | @starved u bytes info here need empty =>
    have other := elsewhere u _ here id
    exact ⟨Function.update_of_ne other.symm _ _, fun _ => rfl⟩
  | @popped u bytes info here need some_ =>
    have other := elsewhere u _ here id
    exact ⟨Function.update_of_ne other.symm _ _, fun _ => rfl⟩
  | @advance u bytes info here =>
    have other := elsewhere u _ here id
    exact ⟨Function.update_of_ne other.symm _ _, fun _ => rfl⟩
  | @finish u bytes chunk info s' here served =>
    have other := elsewhere u _ here id
    obtain ⟨b, placed⟩ := inv.placed_finish here next
    refine ⟨?_, placed.bases_same other⟩
    rw [placed.phase, Function.update_of_ne other.symm]
  | @free u ptr b s' here found freed =>
    obtain ⟨c, _, _, _, released⟩ := inv.released next
    exact ⟨by rw [released.phase], fun j => released.bases_same (t, j)⟩
  | write member within => exact ⟨rfl, fun _ => rfl⟩
  | elsewhere => exact ⟨rfl, fun _ => rfl⟩
  | @exit u order here perm =>
    have other := elsewhere u _ here id
    exact ⟨Function.update_of_ne other.symm _ _, fun j => close_bases order (t, j)⟩
  | @close u i later here null =>
    have other := another u foreign
    exact ⟨Function.update_of_ne other.symm _ _, fun j => close_bases later (t, j)⟩
  | @unlink u i later here some_ =>
    have other := another u foreign
    refine ⟨Function.update_of_ne other.symm _ _, fun j => ?_⟩
    refine congrArg Layout.bases (Function.update_of_ne ?_ _ _)
    intro same
    exact other (Prod.mk.inj same).1.symm
  | @push u i later chunk here =>
    have other := another u foreign
    exact ⟨Function.update_of_ne other.symm _ _, fun _ => rfl⟩

/-- **What a step does to the exit of a thread.** -/
structure Handed (t : T) (step : State T × Act T) (s' : State T) : Prop where
  leaves : (s'.phase t).Leaving
  chunks : pushes t step ++ pending s' t = pending step.1 t
  steps : (deinits t step.2).toNat + dueSteps s' t = dueSteps step.1 t

/-- What is left at the next class. -/
theorem pending_close (order : List SizeClass) :
    ((s.close t order).phase t).Leaving ∧ pending (s.close t order) t = chunksOf s t order ∧
      dueSteps (s.close t order) t = 2 * (chunksOf s t order).length + order.length := by
  have phase : (s.close t order).phase t = nextClass order := Function.update_self ..
  have chunks : chunksOf (s.close t order) t order = chunksOf s t order :=
    chunksOf_congr order fun j _ => close_bases order (t, j)
  have left : pending (s.close t order) t = chunksOf s t order := by
    rw [← chunks]
    unfold pending
    rw [phase]
    cases order <;> rfl
  refine ⟨?_, left, ?_⟩
  · rw [phase]
    cases order <;> trivial
  · unfold dueSteps
    rw [phase, left]
    cases order <;> rfl

/-- **Every step hands back the next chunk, or leaves what is pending as it is.** -/
theorem Handed.step {act : Act T} (inv : Inv n s) (supplied : Supplied n s act)
    (next : s.step build act = some s') (leaves : (s.phase t).Leaving) : Handed t (s, act) s' := by
  by_cases mine : deinits t act = true
  · cases moves_of_step next with
    | @close u i later here null =>
      obtain rfl : u = t := of_decide_eq_true mine
      obtain ⟨after, left, steps⟩ := pending_close (s := s) (t := u) later
      have none_ : (s.ghost.layout (u, i)).bases = [] := by
        rw [← view_head s (u, i), (inv.represents (u, i)).head_null] at null
        unfold Layout.bases
        rw [null]
        rfl
      have before : pending s u = chunksOf s u later := by
        unfold pending
        rw [here]
        show (s.ghost.layout (u, i)).bases ++ chunksOf s u later = _
        rw [none_, List.nil_append]
      refine ⟨after, left.trans before.symm, ?_⟩
      rw [steps, mine]
      unfold dueSteps
      simp only [here, before, List.length_cons, Bool.toNat_true]
      omega
    | @unlink u i later here some_ =>
      obtain rfl : u = t := of_decide_eq_true mine
      have phase : (s.unlinkHead u i later).phase u
          = .handing i later ((s.pool u).tlsPool i).head_ := Function.update_self ..
      obtain ⟨chunk, rest, chunks⟩ : ∃ chunk rest, (s.ghost.layout (u, i)).chunks = chunk :: rest := by
        cases chunks : (s.ghost.layout (u, i)).chunks with
        | nil =>
          rw [← view_head s (u, i), Ne, (inv.represents (u, i)).head_null] at some_
          exact absurd chunks some_
        | cons chunk rest => exact ⟨chunk, rest, rfl⟩
      have first : ((s.pool u).tlsPool i).head_ = chunk.base := by
        rw [← view_head s (u, i)]
        exact (inv.represents (u, i)).head chunks
      -- the classes that are destroyed later are others
      have ordered := (inv.stands u).ordered
      rw [here] at ordered
      have others : chunksOf (s.unlinkHead u i later) u later = chunksOf s u later := by
        refine chunksOf_congr later fun j member => ?_
        refine congrArg Layout.bases (Function.update_of_ne ?_ _ _)
        intro same
        rw [(Prod.mk.inj same).2] at member
        exact (List.nodup_cons.mp ordered).1 member
      have own : ((s.unlinkHead u i later).ghost.layout (u, i)).bases = rest.map Chunk.base := by
        show (Function.update s.ghost.layout (u, i) _ (u, i)).bases = _
        rw [Function.update_self]
        unfold Layout.bases
        rw [chunks, List.tail_cons]
      have before : pending s u = chunk.base :: (rest.map Chunk.base ++ chunksOf s u later) := by
        unfold pending
        rw [here]
        show (s.ghost.layout (u, i)).bases ++ chunksOf s u later = _
        unfold Layout.bases
        rw [chunks]
        rfl
      have after : pending (s.unlinkHead u i later) u = pending s u := by
        rw [before]
        unfold pending
        rw [phase, first]
        show chunk.base :: (((s.unlinkHead u i later).ghost.layout (u, i)).bases
          ++ chunksOf (s.unlinkHead u i later) u later) = _
        rw [own, others]
      refine ⟨by rw [phase]; trivial, after, ?_⟩
      rw [mine]
      unfold dueSteps
      simp only [here, phase, after, before, List.length_cons, Bool.toNat_true]
      omega
    | @push u i later chunk here =>
      obtain rfl : u = t := of_decide_eq_true mine
      have phase : (s.pushed u i later chunk).phase u = .closing i later := Function.update_self ..
      have after : pending (s.pushed u i later chunk) u = chunksOf s u (i :: later) := by
        unfold pending
        rw [phase]
        rfl
      have before : pending s u = chunk :: chunksOf s u (i :: later) := by
        unfold pending
        rw [here]
      refine ⟨by rw [phase]; trivial, ?_, ?_⟩
      · unfold pushes
        simp only [here, if_true]
        rw [after, before]
        rfl
      · rw [mine]
        unfold dueSteps
        simp only [here, phase, after, before, List.length_cons, Bool.toNat_true]
        omega
    | _ => cases mine
  · have foreign : deinits t act = false := Bool.eq_false_of_not_eq_true mine
    obtain ⟨phase, same⟩ := inv.exit_undisturbed supplied next leaves foreign
    obtain ⟨left, steps⟩ := pending_congr phase same
    refine ⟨by rwa [phase], ?_, ?_⟩
    · rw [left]
      refine List.append_left_eq_self.mpr ?_
      cases act with
      | push u =>
        unfold pushes
        have other : u ≠ t := of_decide_eq_false foreign
        simp only [if_neg other]
        split <;> rfl
      | _ => rfl
    · rw [foreign, steps]
      exact Nat.zero_add _

/-! ### Runs -/

/-- **What a thread hands back along a run.** -/
def handedBack (build : Build) (n : Nat) (t : T) (s : State T) (acts : List (Act T)) : List Nat :=
  ((machine T build n).trail s acts).flatMap (pushes t)

/-- What is handed back and what is pending make up what was pending. -/
theorem handed_run {acts : List (Act T)} (inv : Inv n s)
    (run : (machine T build n).Exec (fun s act => Supplied n s act ∧ Orderly s act) s acts s')
    (leaves : (s.phase t).Leaving) : Inv n s' ∧ (s'.phase t).Leaving ∧
      handedBack build n t s acts ++ pending s' t = pending s t ∧
      acts.countP (deinits t) + dueSteps s' t = dueSteps s t := by
  induction run with
  | nil => exact ⟨inv, leaves, rfl, Nat.zero_add _⟩
  | @cons s middle last act acts admitted next rest ih =>
    have stepped : s.step build act = some middle := next
    have handed := Handed.step (t := t) inv admitted.1 stepped leaves
    obtain ⟨after, left, chunks, steps⟩ :=
      ih (inv.orderly_step admitted.1 admitted.2 stepped) handed.leaves
    refine ⟨after, left, ?_, ?_⟩
    · have split : (machine T build n).trail s (act :: acts)
          = (s, act) :: (machine T build n).trail middle acts := Machine.along_cons next acts
      unfold handedBack at chunks ⊢
      rw [split, List.flatMap_cons, List.append_assoc, chunks, handed.chunks]
    · have first : (deinits t act).toNat + dueSteps middle t = dueSteps s t := handed.steps
      rw [List.countP_cons, ← first, ← steps]
      cases deinits t act
      · simp only [Bool.false_eq_true, if_false, Bool.toNat_false]
        omega
      · simp only [if_true, Bool.toNat_true]
        omega

/-- **The exit of a thread**, that had these chunks, after a run. -/
structure HandsBack (build : Build) (n : Nat) (t : T) (chunks : List Nat) (s : State T)
    (acts : List (Act T)) (s' : State T) : Prop where
  /-- It pushes its chunks in their order, each once, and no others. -/
  order : handedBack build n t s acts <+: chunks
  /-- It takes two steps for each chunk and one for each of the 25 classes, -/
  bound : acts.countP (deinits t) ≤ 2 * chunks.length + 25
  /-- and is done after these, with every chunk pushed. -/
  done : s'.phase t = .exited ↔ acts.countP (deinits t) = 2 * chunks.length + 25
  all : s'.phase t = .exited → handedBack build n t s acts = chunks
  /-- Until then its next step is possible. -/
  able : s'.phase t ≠ .exited → (s'.step build (.unlink t)).isSome ∨ (s'.step build (.push t)).isSome

/-- **The exit of a thread.** In every run of any threads, whose chunks are handed over settled: a thread
that exits with the chains `chain i` pushes their chunks on the free stack in the order in which its
classes are destroyed, each once and head first, whatever the others do meanwhile; it never waits, and is
done after `2 c + 25` steps of its own, for `c` chunks. -/
theorem deinit_hands_back (build : Build) (n : Nat) (s s₁ s' : State T)
    (reached : (machine T build n).Reachable (fun s act => Supplied n s act ∧ Orderly s act) s) (t : T)
    (order : List SizeClass) (exits : s.step build (.exit t order) = some s₁) (chain : SizeClass → List Nat)
    (linked : ∀ i, Linked (linkOf s.mem) (toPtr ((s.pool t).tlsPool i).head_) (chain i))
    (acts : List (Act T))
    (run : (machine T build n).Exec (fun s act => Supplied n s act ∧ Orderly s act) s₁ acts s') :
    HandsBack build n t (order.flatMap chain) s₁ acts s' := by
  have inv : Inv n s := Machine.invariant (fun _ => .init)
    (fun _ _ _ before admitted next => before.orderly_step admitted.1 admitted.2 next) reached
  have chains : order.flatMap chain = chunksOf s t order := by
    refine List.flatMap_congr fun i _ => ?_
    have same := (inv.represents (t, i)).chain
    rw [view_head] at same
    exact (linked i).unique same
  have allowed : Supplied n s (.exit t order) ∧ Orderly s (.exit t order) := ⟨trivial, trivial⟩
  have inv₁ : Inv n s₁ := inv.keeps build n _ _ _ allowed exits
  cases moves_of_step exits with
  | exit here perm =>
    obtain ⟨leaves, left, steps⟩ := pending_close (s := s) (t := t) order
    have classes : order.length = 25 := by
      rw [perm.length_eq, List.length_finRange]
    rw [← chains] at left steps
    rw [classes] at steps
    obtain ⟨inv', leaves', chunks, count⟩ := handed_run inv₁ run leaves
    rw [left] at chunks
    rw [steps] at count
    -- the thread is done when nothing is due
    have ended : s'.phase t = .exited ↔ dueSteps s' t = 0 := by
      unfold dueSteps
      cases phase : s'.phase t <;> simp only [reduceCtorEq, false_iff, List.length_cons] <;>
        first
        | omega
        | (rw [phase] at leaves'; exact leaves'.elim)
    refine ⟨⟨_, chunks⟩, by omega, by rw [ended]; omega, fun exited => ?_, fun unfinished => ?_⟩
    · have none_ : pending s' t = [] := by
        unfold pending
        rw [exited]
      rwa [none_, List.append_nil] at chunks
    · cases phase : s'.phase t with
      | closing i later =>
        refine .inl ?_
        unfold State.step
        simp only [phase]
        split <;> rfl
      | handing i later chunk =>
        rw [Moves.step (.push phase)]
        exact .inr rfl
      | exited => exact absurd phase unfinished
      | _ =>
        rw [phase] at leaves'
        exact leaves'.elim

/-- A thread exits with one chunk: it pushes it, and another thread is given it. -/
theorem deinit_hands_back_pair : ∃ (freed s : State Bool) (chain : SizeClass → List Nat),
    freed.step .debug (.exit true exitOrder) = some (freed.close true exitOrder) ∧
    (machine Bool .debug 1).Exec (fun s act => Supplied 1 s act ∧ Orderly s act)
      (freed.close true exitOrder) (retiring true ++ taking false) s ∧
    s.phase true = .exited ∧ s.live.map Block.bytes = [100] ∧ exitOrder.flatMap chain = [2 ^ 30] ∧
    HandsBack .debug 1 true (exitOrder.flatMap chain) (freed.close true exitOrder)
      (retiring true ++ taking false) s := by
  obtain ⟨freed, gone, s, b, recycles⟩ := pair_recycles .debug
  have orderly : ∀ (s : State Bool) act, Tidy 1 s act → Supplied 1 s act ∧ Orderly s act :=
    fun s act tidy => ⟨tidy.1, tidy.2.1⟩
  have borrows := recycles.borrows.mono orderly
  have leaves := (recycles.retires.append recycles.takes).mono orderly
  have inv : Inv 1 freed := borrows.preserves (Inv.keeps .debug 1) (.init State.pair_init)
  let chain := fun i => (freed.ghost.layout (true, i)).bases
  have own : ∀ i, chain i = if i = classOf 164 then [2 ^ 30] else [] := fun i => by
    show (freed.ghost.layout (true, i)).chunks.map Chunk.base = _
    rw [recycles.chunk]
    by_cases here : i = classOf 164
    · rw [if_pos here, if_pos (congrArg (Prod.mk true) here)]
      rfl
    · rw [if_neg here, if_neg fun same => here (Prod.mk.inj same).2]
      rfl
  have chunks : exitOrder.flatMap chain = [2 ^ 30] := by
    have others : ((List.finRange 25).erase (classOf 164)).flatMap chain = [] := by
      refine List.flatMap_eq_nil_iff.mpr fun i member => ?_
      rw [own, if_neg fun same => ?_]
      subst same
      exact (List.nodup_finRange 25).not_mem_erase member
    unfold exitOrder
    rw [List.flatMap_cons, others, own, if_pos rfl]
    rfl
  refine ⟨freed, s, chain, recycles.exits, leaves, recycles.exited,
    by rw [recycles.live]; simp [recycles.bytes], chunks, ?_⟩
  refine deinit_hands_back .debug 1 freed _ s ⟨State.pair, _, State.pair_init, borrows⟩ true exitOrder
    recycles.exits chain (fun i => ?_) _ leaves
  rw [← view_head freed (true, i)]
  exact (inv.represents (true, i)).chain

end NpAlloc.Threads
