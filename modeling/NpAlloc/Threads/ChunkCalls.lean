/-
**The program is a client of the chunk pool.**

The model of all threads moves the free stack and the frontier in single steps of its own. Here these are
the steps of `Mmap.Atomic`, which `alloc_chunk` and `free_chunk` implement under any interleaving: the
program calls them in order, and hands to `free_chunk` only chunks it holds. So what is shown of the
chunk pool, whose clients are assumed to do so, applies to the program.

* `calls` — what a step does to the chunk pool;
* `Uses` — an atomic pool that stands where the program does;
* **`chunk_calls_accepted`** — the pool accepts the calls of every run. At its end its free chunks are
  those linked in memory, `head_` stands after its issued chunks, and a thread holds the chunks of its
  chains.
-/

import NpAlloc.Mmap.Atomic
import NpAlloc.Threads.Deinit

set_option linter.unusedSectionVars false

namespace NpAlloc.Threads

open Mmap Pool

variable {T : Type} [DecidableEq T] {s s' : State T} {n : Nat} {t u : T} {i : SizeClass}
  {build : Build} {act : Act T} {a : Atomic.State T} {base : Nat}

/-! ### The calls of a step -/

/-- **What a step does to the chunk pool.** -/
def calls (s : State T) (act : Act T) (_ : State T) : Option (List (Atomic.Event T)) :=
  match act with
  | .pop t _ _ => some [.callAlloc t, .take t]
  | .advance t => some [.advance t]
  | .finish t =>
    match s.phase t with
    | .granted _ _ chunk => some [.retAlloc t chunk]
    | _ => none
  | .unlink t =>
    match s.phase t with
    | .closing i _ =>
      if ((s.pool t).tlsPool i).head_ = 0 then none
      else some [.callFree t ((s.pool t).tlsPool i).head_]
    | _ => none
  | .push t => some [.put t, .retFree t]
  | _ => none

/-- Where a thread stands in its call. -/
def Phase.status : Phase → Atomic.Status
  | .starved _ _ => .starved
  | .granted _ _ chunk => .given chunk
  | .handing _ _ chunk => .giving chunk
  | _ => .idle

/-- **An atomic pool that stands where the program does.** -/
structure Uses (base : Nat) (s : State T) (a : Atomic.State T) : Prop where
  base : s.ptr_ = base
  free : a.free = s.ghost.stack
  frontier : s.head_ = chunkAt s.ptr_ a.issued
  held : ∀ t, (a.held t).Perm (chunksOf s t (List.finRange 25))
  status : ∀ t, a.status t = (s.phase t).status

/-! ### Chains -/

/-- A chunk more in one of the chains. -/
theorem flatMap_cons_at {α β : Type} {f g : α → List β} {c : β} {list : List α} {a : α}
    (nodup : list.Nodup) (member : a ∈ list) (here : g a = c :: f a)
    (others : ∀ b, b ≠ a → g b = f b) : (list.flatMap g).Perm (c :: list.flatMap f) := by
  induction list with
  | nil => cases member
  | cons b rest ih =>
    obtain ⟨fresh, nodup⟩ := List.nodup_cons.mp nodup
    rw [List.flatMap_cons, List.flatMap_cons]
    by_cases same : b = a
    · subst same
      have rest_same : rest.flatMap g = rest.flatMap f := List.flatMap_congr fun x later =>
        others x fun again => fresh (again ▸ later)
      rw [here, rest_same]
      exact .refl _
    · have later : a ∈ rest := (List.mem_cons.mp member).resolve_left (Ne.symm same)
      rw [others b same]
      exact ((ih nodup later).append_left _).trans List.perm_middle

/-- The chunks of a thread after one was added to a chain. -/
theorem chunksOf_cons {c : Nat} (here : (s'.ghost.layout (t, i)).bases = c :: (s.ghost.layout (t, i)).bases)
    (others : ∀ j, j ≠ i → (s'.ghost.layout (t, j)).bases = (s.ghost.layout (t, j)).bases) :
    (chunksOf s' t (List.finRange 25)).Perm (c :: chunksOf s t (List.finRange 25)) :=
  flatMap_cons_at (List.nodup_finRange 25) (List.mem_finRange i) here others

/-- A pool whose chains, stack and frontier stay, and whose threads stand where they stood. -/
theorem Uses.still (uses : Uses base s a) (shared : Shared s s')
    (bases : ∀ t i, (s'.ghost.layout (t, i)).bases = (s.ghost.layout (t, i)).bases)
    (status : ∀ t, (s'.phase t).status = (s.phase t).status) : Uses base s' a where
  base := shared.ptr.trans uses.base
  free := uses.free.trans shared.stack.symm
  frontier := by rw [shared.head, shared.ptr, uses.frontier]
  held t := by
    rw [chunksOf_congr _ fun j _ => bases t j]
    exact uses.held t
  status t := (uses.status t).trans (status t).symm

/-! ### The calls -/

/-- Only the last status of a call is seen. -/
theorem goto_goto (a : Atomic.State T) (t : T) (first second : Atomic.Status) :
    (a.goto t first).goto t second = a.goto t second := by
  unfold Atomic.State.goto
  rw [Function.update_idem]

/-- The pool after a call of a thread. -/
theorem Uses.goes (uses : Uses base s a) (s' : State T) {phase : Phase}
    (phases : s'.phase = Function.update s.phase t phase)
    (ptr : s'.ptr_ = s.ptr_) {free : List Nat} (stack : free = s'.ghost.stack) {issued : Nat}
    (head : s'.head_ = chunkAt s.ptr_ issued) {held : T → List Nat}
    (holds : ∀ u, (held u).Perm (chunksOf s' u (List.finRange 25))) :
    Uses base s' ⟨free, issued, held, (a.goto t phase.status).status⟩ where
  base := ptr.trans uses.base
  free := stack
  frontier := by rw [head, ptr]
  held := holds
  status u := by
    show Function.update a.status t phase.status u = _
    rw [phases]
    by_cases same : u = t
    · rw [same, Function.update_self, Function.update_self]
    · rw [Function.update_of_ne same, Function.update_of_ne same]
      exact uses.status u

/-- What the threads hold stays where the chains do. -/
theorem Uses.holds (uses : Uses base s a)
    (bases : ∀ j, (s'.ghost.layout (u, j)).bases = (s.ghost.layout (u, j)).bases) :
    (a.held u).Perm (chunksOf s' u (List.finRange 25)) := by
  rw [chunksOf_congr _ fun j _ => bases j]
  exact uses.held u

/-- **The pop of the free stack**, with what it finds. -/
theorem Uses.pop (uses : Uses base s a) (here : s.phase t = .idle) {phase : Phase}
    (phases : s'.phase = Function.update s.phase t phase) (ptr : s'.ptr_ = s.ptr_) (head : s'.head_ = s.head_)
    (stack : s'.ghost.stack = s.ghost.stack.tail) (layout : s'.ghost.layout = s.ghost.layout)
    (found : phase.status = popStatus (.done s.ghost.stack.head?)) :
    ∃ a', replay (Atomic.step base) a [.callAlloc t, .take t] = some a' ∧ Uses base s' a' := by
  have idle : a.status t = .idle := by
    rw [uses.status, here]
    rfl
  have called : Atomic.step base a (.callAlloc t) = some (a.goto t .asking) := if_pos idle
  have asking : (a.goto t .asking).status t = .asking := Function.update_self ..
  have left : a.free.tail = s'.ghost.stack := by rw [uses.free, stack]
  refine ⟨_, ?_, uses.goes s' phases ptr left (head.trans uses.frontier) fun u =>
    uses.holds fun j => by rw [layout]⟩
  unfold replay replay replay
  rw [called, Option.bind_some, Atomic.step_take asking, Option.bind_some, goto_goto, found, ← uses.free]
  rfl

/-- **The advance of the frontier.** -/
theorem Uses.advance (uses : Uses base s a) (inv : Inv n s) {bytes : Nat} {info : Meta}
    (here : s.phase t = .starved bytes info) (more : s.head_ ≠ s.ptr_ + n * kDefaultChunkSize) :
    ∃ a', replay (Atomic.step base) a [.advance t] = some a' ∧ Uses base (s.advanced t bytes info) a' := by
  have starved : a.status t = .starved := by
    rw [uses.status, here]
    rfl
  refine ⟨_, ?_, uses.goes (s.advanced t bytes info) rfl rfl uses.free
    (inv.advanced_head uses.frontier t bytes info more) fun u => uses.holds fun _ => rfl⟩
  unfold replay replay
  rw [Atomic.step_advance starved, ← uses.base, ← uses.frontier]
  rfl

/-- **A request takes the chunk it was given.** -/
theorem Uses.takes {chunk bytes : Nat} {info : Meta} {b : Block (Index T)} (uses : Uses base s a)
    (inv : Inv n s) (here : s.phase t = .granted bytes info chunk)
    (placed : Placed s s' t chunk 0 bytes info b) (shared : Shared s s') :
    ∃ a', replay (Atomic.step base) a [.retAlloc t chunk] = some a' ∧ Uses base s' a' := by
  have given : a.status t = .given chunk := by
    rw [uses.status, here]
    rfl
  obtain ⟨_, small, hungry⟩ := (inv.stands t).starving bytes (by rw [here]; rfl)
  obtain ⟨_, _, layout⟩ := placed.small small
  have more : (chunksOf s' t (List.finRange 25)).Perm (chunk :: chunksOf s t (List.finRange 25)) := by
    refine chunksOf_cons (i := classOf (widened bytes)) ?_ fun j other => ?_
    · rw [layout]
      show (Function.update s.ghost.layout _ _ _).bases = _
      rw [Function.update_self, Layout.take_bases, if_pos hungry]
    · rw [layout]
      refine congrArg Layout.bases (Function.update_of_ne ?_ _ _)
      intro same
      exact other (Prod.mk.inj same).2
  refine ⟨_, congrArg (Option.bind · some) (if_pos given), uses.goes s' placed.phase shared.ptr
    (uses.free.trans shared.stack.symm) (shared.head.trans uses.frontier) fun u => ?_⟩
  by_cases same : u = t
  · subst same
    rw [Function.update_self]
    exact ((uses.held u).cons chunk).trans more.symm
  · rw [Function.update_of_ne same]
    exact uses.holds (placed.bases_same (Ne.symm same))

/-- **A round of `deinit` gives `free_chunk` a chunk of its own.** -/
theorem Uses.unlink (uses : Uses base s a) (inv : Inv n s) {later : List SizeClass}
    (here : s.phase t = .closing i later) (some_ : ((s.pool t).tlsPool i).head_ ≠ 0) :
    ∃ a', replay (Atomic.step base) a [.callFree t ((s.pool t).tlsPool i).head_] = some a' ∧
      Uses base (s.unlinkHead t i later) a' := by
  obtain ⟨chunk, rest, chunks, first⟩ := inv.head_chunk some_
  have idle : a.status t = .idle := by
    rw [uses.status, here]
    rfl
  have less : (chunksOf s t (List.finRange 25)).Perm (((s.pool t).tlsPool i).head_ ::
      chunksOf (s.unlinkHead t i later) t (List.finRange 25)) := by
    refine chunksOf_cons (i := i) ?_ fun j other => ?_
    · show _ = _ :: (Function.update s.ghost.layout (t, i) _ (t, i)).bases
      rw [Function.update_self, first]
      unfold Layout.bases
      rw [chunks]
      rfl
    · refine congrArg Layout.bases (Function.update_of_ne ?_ _ _).symm
      intro same
      exact other (Prod.mk.inj same).2
  have mine := (uses.held t).trans less
  have holds : ((s.pool t).tlsPool i).head_ ∈ a.held t := mine.mem_iff.mpr List.mem_cons_self
  refine ⟨_, congrArg (Option.bind · some) (if_pos ⟨idle, holds⟩),
    uses.goes (s.unlinkHead t i later) rfl rfl uses.free uses.frontier fun u => ?_⟩
  by_cases same : u = t
  · subst same
    rw [Function.update_self]
    have erased := mine.erase ((s.pool u).tlsPool i).head_
    rwa [List.erase_cons_head] at erased
  · rw [Function.update_of_ne same]
    refine uses.holds fun j => congrArg Layout.bases (Function.update_of_ne ?_ _ _)
    intro mine
    exact same (Prod.mk.inj mine).1

/-- **The push of `free_chunk`**, which returns. -/
theorem Uses.push (uses : Uses base s a) {later : List SizeClass} {chunk : Nat}
    (here : s.phase t = .handing i later chunk) :
    ∃ a', replay (Atomic.step base) a [.put t, .retFree t] = some a' ∧
      Uses base (s.pushed t i later chunk) a' := by
  have giving : a.status t = .giving chunk := by
    rw [uses.status, here]
    rfl
  have gave : (a.goto t .gave).status t = .gave := Function.update_self ..
  have pushed : chunk :: a.free = (s.pushed t i later chunk).ghost.stack :=
    congrArg (chunk :: ·) uses.free
  refine ⟨_, ?_, uses.goes (s.pushed t i later chunk) rfl rfl pushed uses.frontier fun u =>
    uses.holds fun _ => rfl⟩
  unfold replay replay replay
  rw [Atomic.step_put giving, Option.bind_some]
  refine (congrArg (Option.bind · some) (if_pos gave)).trans ?_
  refine congrArg (fun status => some (Atomic.State.mk _ _ _ status)) ?_
  exact Function.update_idem ..

/-! ### Every step -/

/-- A request that carves no chunk leaves every chain alone. -/
theorem Placed.bases_fed {chunk malloc bytes : Nat} {info : Meta} {b : Block (Index T)}
    (placed : Placed s s' u chunk malloc bytes info b)
    (fed : widened bytes ≤ maxAllocSize getAllocSizeList →
      ¬ (s.ghost.layout (u, classOf (widened bytes))).hungry (classSize (classOf (widened bytes)))
        kDefaultChunkSize = true) (k : Index T) :
    (s'.ghost.layout k).bases = (s.ghost.layout k).bases := by
  by_cases small : widened bytes ≤ maxAllocSize getAllocSizeList
  · obtain ⟨_, _, layout⟩ := placed.small small
    rw [layout]
    by_cases own : k = (u, classOf (widened bytes))
    · subst own
      show (Function.update s.ghost.layout _ _ _).bases = _
      rw [Function.update_self, Layout.take_bases, if_neg (fed small)]
    · exact congrArg Layout.bases (Function.update_of_ne own _ _)
  · rw [(placed.large (by omega)).2]

/-- A phase that stands where the other stood. -/
theorem status_same {phase : Phase} (phases : s'.phase = Function.update s.phase t phase)
    (same : phase.status = (s.phase t).status) (u : T) : (s'.phase u).status = (s.phase u).status := by
  rw [phases]
  by_cases own : u = t
  · rw [own, Function.update_self, same]
  · rw [Function.update_of_ne own]

/-- The exit of a class changes no status. -/
theorem nextClass_status (order : List SizeClass) : (nextClass order).status = .idle := by
  cases order <;> rfl

/-- **The pool accepts the calls of every step**, and stands where the program does. -/
theorem Uses.step (uses : Uses base s a) (inv : Inv n s) (supplied : Supplied n s act)
    (next : s.step build act = some s') :
    ∃ a', Machine.Follows (replay (Atomic.step base)) a (calls s act s') a' ∧ Uses base s' a' := by
  have silent (none_ : calls s act s' = none) (after : Uses base s' a) :
      ∃ a', Machine.Follows (replay (Atomic.step base)) a (calls s act s') a' ∧ Uses base s' a' :=
    ⟨a, .inl ⟨none_, rfl⟩, after⟩
  have called {events : List (Atomic.Event T)} (shown : calls s act s' = some events)
      (taken : ∃ a', replay (Atomic.step base) a events = some a' ∧ Uses base s' a') :
      ∃ a', Machine.Follows (replay (Atomic.step base)) a (calls s act s') a' ∧ Uses base s' a' := by
    obtain ⟨a', accepted, after⟩ := taken
    rw [shown]
    exact ⟨a', Machine.Follows.taken accepted, after⟩
  have stays : Shared s s' → s'.ghost.layout = s.ghost.layout → (∀ u, (s'.phase u).status = (s.phase u).status) →
      Uses base s' a := fun shared layout status => uses.still shared (fun t i => by rw [layout]) status
  cases moves_of_step next with
  | start here =>
    exact silent rfl (stays ⟨rfl, rfl, rfl, rfl⟩ rfl (status_same rfl (by rw [here]; rfl)))
  | @alloc t bytes malloc info s' here spare served =>
    obtain ⟨b, placed⟩ := inv.placed_alloc supplied next
    have bases := placed.bases_fed fun small hungry =>
      spare ⟨small, (inv.starved_iff (by rw [here]; trivial)).mpr hungry⟩
    exact silent rfl (uses.still (allocWith_shared served) (fun t i => bases (t, i))
      (status_same placed.phase (by rw [here])))
  | starved here need empty =>
    have head := inv.stack.head_eq
    rw [show toPtr s.freeHead = none from if_pos empty] at head
    have nothing := List.head?_eq_none_iff.mp head.symm
    exact called rfl (uses.pop here rfl rfl rfl (by rw [nothing]; exact nothing) rfl (by rw [← head]; rfl))
  | popped here need some_ =>
    have head := inv.stack.head_eq
    rw [show toPtr s.freeHead = some s.freeHead from if_neg some_] at head
    exact called rfl (uses.pop here rfl rfl rfl rfl rfl (by rw [← head]; rfl))
  | advance here => exact called rfl (uses.advance inv here supplied)
  | finish here served =>
    obtain ⟨b, placed⟩ := inv.placed_finish here next
    exact called (by simp only [calls, here]) (uses.takes inv here placed (allocWith_shared served))
  | @free u ptr b s' here found freed =>
    obtain ⟨c, _, _, _, released⟩ := inv.released next
    exact silent rfl (uses.still (freeWith_shared freed) (fun t i => released.bases_same (t, i))
      fun u => by rw [released.phase])
  | write member within => exact silent rfl (stays ⟨rfl, rfl, rfl, rfl⟩ rfl fun _ => rfl)
  | elsewhere => exact silent rfl (stays ⟨rfl, rfl, rfl, rfl⟩ rfl fun _ => rfl)
  | @exit t order here perm =>
    exact silent rfl (uses.still ⟨rfl, rfl, rfl, rfl⟩ (fun t i => close_bases order (t, i))
      (status_same rfl (by rw [here]; exact nextClass_status order)))
  | @close t i later here null =>
    exact silent (by simp only [calls, here, if_pos null])
      (uses.still ⟨rfl, rfl, rfl, rfl⟩ (fun t i => close_bases later (t, i))
        (status_same rfl (by rw [here]; exact nextClass_status later)))
  | unlink here some_ =>
    exact called (by simp only [calls, here, if_neg some_]) (uses.unlink inv here some_)
  | push here => exact called rfl (uses.push here)

/-! ### Runs -/

/-- A new program uses a new pool. -/
theorem Uses.init {start : State T} (initial : State.Init n start) : Uses start.ptr_ start .new where
  base := rfl
  free := initial.stack.symm
  frontier := by
    rw [initial.head]
    exact (chunkAt_zero _).symm
  held t := by
    have none_ : chunksOf start t (List.finRange 25) = [] := by
      refine List.flatMap_eq_nil_iff.mpr fun i _ => ?_
      rw [initial.layout]
      rfl
    rw [none_]
    exact .refl _
  status t := by
    rw [initial.phase]
    rfl

/-- **The program keeps to the rules of the chunk pool.** In every run of any threads, whose chunks are
handed over settled, the calls of `alloc_chunk` and `free_chunk` are accepted by the atomic pool: no
thread starts one inside another, and `deinit` gives back only chunks the thread holds. Where the run
ends, the free chunks of the pool are those linked from `free_head_`, `head_` stands after its issued
chunks, and it has each thread hold the chunks of its 25 chains. -/
theorem chunk_calls_accepted (build : Build) (n : Nat) (start s : State T) (acts : List (Act T))
    (initial : State.Init n start)
    (run : (machine T build n).Exec (fun s act => Supplied n s act ∧ Orderly s act) start acts s) :
    ∃ final, replay (Atomic.step start.ptr_) .new
        ((machine T build n).history calls start acts).flatten = some final ∧
      Linked (linkOf s.mem) (toPtr s.freeHead) final.free ∧ s.head_ = chunkAt start.ptr_ final.issued ∧
      ∀ t, ∃ chain : SizeClass → List Nat,
        (∀ i, Linked (linkOf s.mem) (toPtr ((s.pool t).tlsPool i).head_) (chain i)) ∧
          (final.held t).Perm ((List.finRange 25).flatMap chain) := by
  obtain ⟨final, accepted, inv, uses⟩ := Machine.Exec.replays (replay (Atomic.step start.ptr_)) calls
    (fun s a => Inv n s ∧ Uses start.ptr_ s a)
    (fun s act s' a ⟨inv, uses⟩ admitted next => by
      obtain ⟨a', followed, after⟩ := uses.step inv admitted.1 next
      exact ⟨a', followed, inv.keeps build n s act s' admitted next, after⟩)
    run ⟨Inv.init initial, Uses.init initial⟩
  rw [replay_flatten] at accepted
  refine ⟨final, accepted, ?_, uses.base ▸ uses.frontier, fun t =>
    ⟨fun i => (s.ghost.layout (t, i)).bases, fun i => ?_, uses.held t⟩⟩
  · rw [uses.free]
    exact inv.stack
  · have chain := (inv.represents (t, i)).chain
    rwa [view_head] at chain

/-- A chunk that is handed out, given back at an exit, and handed out again. -/
theorem chunk_calls_accepted_pair : ∃ (s : State Bool) (final : Atomic.State Bool),
    (machine Bool .debug 1).Exec (fun s act => Supplied 1 s act ∧ Orderly s act) State.pair pairCalls s ∧
    s.phase true = .exited ∧ s.live.map Block.bytes = [100] ∧
    replay (Atomic.step (2 ^ 30)) .new
      ((machine Bool .debug 1).history calls State.pair pairCalls).flatten = some final ∧
    2 ^ 30 ∈ final.held false := by
  obtain ⟨s, b, run, inv, exited, idle, live, bytes, _, sole⟩ := pair_orderly .debug
  obtain ⟨final, accepted, _, _, held⟩ :=
    chunk_calls_accepted .debug 1 State.pair s pairCalls State.pair_init run
  refine ⟨s, final, run, exited, by rw [live]; simp [bytes], accepted, ?_⟩
  obtain ⟨chain, linked, holds⟩ := held false
  have own := (inv.represents (false, classOf 164)).chain
  rw [view_head] at own
  have first : chain (classOf 164) = [2 ^ 30] := by
    rw [(linked (classOf 164)).unique own]
    unfold Layout.bases
    rw [sole.own]
    rfl
  exact holds.mem_iff.mpr (List.mem_flatMap_of_mem (List.mem_finRange (classOf 164)) (by rw [first]; simp))

end NpAlloc.Threads
