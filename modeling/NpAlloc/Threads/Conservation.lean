/-
**Chunks are conserved when every thread frees its own blocks.**

A program is domestic if every block is freed by the thread that allocated it, before that thread
exits. Then the blocks of a pool stay in its own chunks (`Home`), so what a thread hands over at its
exit is not in use, and the invariant of all threads holds without a condition on the hand-overs.

* **`chunks_conserved`** — in every reachable state each chunk issued so far is in exactly one place;
  no two blocks in use overlap, whichever threads and classes they belong to; and when no thread is
  left, every chunk is on the free stack, once.
-/

import NpAlloc.Threads.Exit

set_option linter.unusedSectionVars false

namespace NpAlloc.Threads

open Mmap Pool

variable {T : Type} [DecidableEq T] {s s' : State T} {n : Nat} {t u : T} {i j : SizeClass}
  {k l : Index T} {b c d : Nat} {build : Build}

/-! ### Domestic programs -/

/-- **Blocks stay at home.** -/
structure Home (s : State T) : Prop where
  home : ∀ k, ∀ block ∈ (s.ghost.layout k).blocks, block ∈ (s.ghost.layout k).carved (classSize k.2)
  left : ∀ t, (s.phase t).Leaving → ∀ b ∈ s.live, ∀ k, b.origin = .pool k → k.1 ≠ t

/-- **What a thread that exits hands over is not in use.** -/
theorem Home.unclaimed (homely : Home s) (inv : Inv n s) {later : List SizeClass}
    (closing : s.phase t = .closing i later) : Unclaimed s t i := by
  intro chunk rest chunks k block used member
  have inside := Inv.carved_head chunks member
  -- the block is of this class of this thread
  have own : k = (t, i) := by
    have first : block ∈ (s.ghost.layout k).carved (view s k).allocSize_ := by
      rw [inv.size]
      exact homely.home k block used
    have second : block ∈ (s.ghost.layout (t, i)).carved (view s (t, i)).allocSize_ := by
      rw [inv.size]
      exact inside
    exact inv.housing.family.carved_owner first second
  subst own
  rcases List.mem_append.mp used with free | live
  · rw [inv.frees_nil (inv.closing_closed closing)] at free
    exact absurd free List.not_mem_nil
  · obtain ⟨b, held, _, origin⟩ := inv.housing.listed (t, i) block live
    exact homely.left t (by rw [closing]; trivial) b held (t, i) origin rfl

/-! ### Every step -/

/-- Blocks that stay where they are, and a thread that was leaving if it is now. -/
theorem Home.same {phase : Phase} (homely : Home s) (layout : s'.ghost.layout = s.ghost.layout)
    (live : s'.live = s.live) (phases : s'.phase = Function.update s.phase t phase)
    (leaving : phase.Leaving → (s.phase t).Leaving) : Home s' := by
  refine ⟨by rw [layout]; exact homely.home, ?_⟩
  rw [live, phases]
  exact forall_update (P := fun (u : T) (phase : Phase) =>
    phase.Leaving → ∀ b ∈ s.live, ∀ k, b.origin = .pool k → k.1 ≠ u)
    (fun gone => homely.left t (leaving gone)) fun u _ => homely.left u

/-- A request is served. -/
theorem Home.serves {b : Block (Index T)} (homely : Home s) (serves : Serves s s' t b) : Home s' := by
  refine ⟨fun k block used => ?_, ?_⟩
  · rcases serves.blocks k block used with older | carved
    · exact serves.carved k block (homely.home k block older)
    · exact carved
  · rw [serves.phase, serves.live]
    refine forall_update (P := fun (u : T) (phase : Phase) =>
      phase.Leaving → ∀ c ∈ b :: s.live, ∀ k, c.origin = .pool k → k.1 ≠ u) (fun gone => gone.elim) ?_
    intro u other gone c member k origin
    rcases List.mem_cons.mp member with rfl | older
    · rw [serves.owner k origin]
      exact other.symm
    · exact homely.left u gone c older k origin

/-- A thread frees a block of its own. -/
theorem Home.frees {b : Block (Index T)} (homely : Home s) (frees : Frees s s' t b)
    (own : ∀ k, b.origin = .pool k → k.1 = t) : Home s' := by
  refine ⟨fun k block used => ?_, fun u gone c member => ?_⟩
  · rw [frees.carved]
    rcases frees.blocks k block used with older | ⟨l, origin, older, rfl⟩
    · exact homely.home k block older
    · have same : l = (t, l.2) := Prod.ext (own l origin) rfl
      rw [← same]
      exact homely.home l block older
  · rw [frees.phase] at gone
    rw [frees.live] at member
    exact homely.left u gone c (List.mem_of_mem_erase member)

/-- `deinit` of the next class begins. -/
theorem Home.close (homely : Home s) (order : List SizeClass)
    (none_ : ∀ b ∈ s.live, ∀ k, b.origin = .pool k → k.1 ≠ t) : Home (s.close t order) := by
  refine ⟨?_, ?_⟩
  · cases order with
    | nil => exact homely.home
    | cons i later =>
      intro k block used
      change block ∈ (Function.update s.ghost.layout (t, i) _ k).blocks at used
      show block ∈ (Function.update s.ghost.layout (t, i) _ k).carved (classSize k.2)
      by_cases own : k = (t, i)
      · subst own
        rw [Function.update_self] at used ⊢
        exact homely.home (t, i) block (List.mem_append_right _ used)
      · rw [Function.update_of_ne own] at used ⊢
        exact homely.home k block used
  · exact forall_update (P := fun (u : T) (phase : Phase) =>
      phase.Leaving → ∀ b ∈ s.live, ∀ k, b.origin = .pool k → k.1 ≠ u) (fun _ => none_)
      fun u _ => homely.left u

/-- A chunk that is not in use leaves its chain. -/
theorem Home.unlinkHead (homely : Home s) {later : List SizeClass} (closing : s.phase t = .closing i later)
    (unclaimed : Unclaimed s t i) : Home (s.unlinkHead t i later) := by
  refine ⟨fun k block used => ?_, ?_⟩
  · change block ∈ (Function.update s.ghost.layout (t, i) _ k).blocks at used
    show block ∈ (Function.update s.ghost.layout (t, i) _ k).carved (classSize k.2)
    by_cases own : k = (t, i)
    · subst own
      rw [Function.update_self] at used ⊢
      have carved := homely.home (t, i) block used
      unfold Layout.carved at carved ⊢
      cases chunks : (s.ghost.layout (t, i)).chunks with
      | nil =>
        rw [chunks] at carved
        exact absurd carved List.not_mem_nil
      | cons chunk rest =>
        rw [chunks] at carved
        exact (List.mem_append.mp carved).resolve_left (unclaimed chunk rest chunks (t, i) block used)
    · rw [Function.update_of_ne own] at used ⊢
      exact homely.home k block used
  · refine forall_update (P := fun (u : T) (phase : Phase) =>
      phase.Leaving → ∀ b ∈ s.live, ∀ k, b.origin = .pool k → k.1 ≠ u) (fun _ => ?_)
      fun u _ => homely.left u
    exact homely.left t (by rw [closing]; trivial)

/-- **Every step of a domestic program keeps its blocks at home.** -/
theorem Home.step {act : Act T} (homely : Home s) (inv : Inv n s) (supplied : Supplied n s act)
    (domestic : Domestic s act) (next : s.step build act = some s') : Home s' := by
  cases moves_of_step next with
  | @start t | @starved t | @popped t | @advance t =>
    exact homely.same (t := t) rfl rfl rfl fun gone => gone.elim
  | alloc here spare served =>
    rcases inv.alloc here build spare supplied with fails | ⟨after, b, result, _, serves⟩
    · rw [fails] at next
      cases next
    · obtain rfl := Option.some.inj (result.symm.trans next)
      exact homely.serves serves
  | finish here served =>
    obtain ⟨after, b, result, _, serves, _⟩ := inv.finish here build
    obtain rfl := Option.some.inj (result.symm.trans next)
    exact homely.serves serves
  | @free t ptr b s' here found freed =>
    have member := List.mem_of_find?_eq_some found
    obtain ⟨after, result, _, frees⟩ := inv.freeWith here build member
    obtain rfl := Option.some.inj (result.symm.trans freed)
    exact homely.frees frees (domestic b member (by simpa using List.find?_some found))
  | write | elsewhere => exact ⟨homely.home, homely.left⟩
  | @exit t order here perm => exact homely.close order domestic
  | @close t i later here null => exact homely.close later (homely.left t (by rw [here]; trivial))
  | unlink here some_ => exact homely.unlinkHead here (homely.unclaimed inv here)
  | @push t i later chunk here =>
    exact homely.same (t := t) rfl rfl rfl fun _ => by rw [here]; trivial

/-- **What a domestic program hands over is settled.** -/
theorem Home.orderly (homely : Home s) (inv : Inv n s) (act : Act T) : Orderly s act := by
  cases act with
  | unlink t =>
    intro i later closing some_
    obtain ⟨chunk, rest, chunks, head⟩ := inv.head_chunk some_
    rw [head]
    exact (inv.settled_iff chunks).mpr (homely.unclaimed inv closing)
  | _ => trivial

/-- What every step of a domestic run keeps. -/
theorem Inv.domestic_step (build : Build) (n : Nat) (s : State T) (act : Act T) (s' : State T)
    (kept : Inv n s ∧ Home s) (admitted : Supplied n s act ∧ Domestic s act)
    (next : (machine T build n).step s act = some s') : Inv n s' ∧ Home s' :=
  ⟨kept.1.orderly_step admitted.1 (kept.2.orderly kept.1 act) next,
    kept.2.step kept.1 admitted.1 admitted.2 next⟩

theorem Inv.domestic_init (start : State.Init n s) : Inv n s ∧ Home s := by
  refine ⟨.init start, fun k block used => ?_, fun t _ b member => ?_⟩
  · rw [start.layout] at used
    exact absurd used List.not_mem_nil
  · rw [start.live] at member
    exact absurd member List.not_mem_nil

/-- **Every state of a domestic run** meets the invariant, with its blocks at home. -/
theorem Inv.domestic (reached : (machine T build n).Reachable
    (fun s act => Supplied n s act ∧ Domestic s act) s) : Inv n s ∧ Home s :=
  Machine.invariant (fun _ => Inv.domestic_init) (Inv.domestic_step build n) reached

/-- **A domestic run is settled.** -/
theorem orderly_of_domestic {start : State T} {acts : List (Act T)} (kept : Inv n start ∧ Home start)
    (run : (machine T build n).Exec (fun s act => Supplied n s act ∧ Domestic s act) start acts s) :
    (machine T build n).Exec (fun s act => Supplied n s act ∧ Orderly s act) start acts s :=
  run.mono_of_inv (Inv.domestic_step build n)
    (fun _ act inside admitted => ⟨admitted.1, inside.2.orderly inside.1 act⟩) kept

/-! ### The result -/

/-- **Where the memory shows a chunk**: on the list of the free stack, on the list of a pool, or in the
hand of a call. -/
def Found (s : State T) (c : Nat) : Place T → Prop
  | .stack => OnList s.mem s.freeHead c
  | .chain k => OnList s.mem ((s.pool k.1).tlsPool k.2).head_ c
  | .hand t => (s.phase t).hand = some c

/-- What a block of a pool is in use for. -/
inductive Use
  | live
  | free

/-- A block of a pool that is live, or on its free list. -/
def InUse (s : State T) (k : Index T) (b : Nat) : Use → Prop
  | .live => ∃ block ∈ s.live, block.base = b ∧ block.origin = .pool k
  | .free => (s.phase k.1).Open k.2 ∧ OnList s.mem ((s.pool k.1).tlsPool k.2).free_ b

namespace Inv

/-- **The lists in memory are the places of the chunks.** -/
theorem found_iff (inv : Inv n s) (c : Nat) (p : Place T) : Found s c p ↔ At s c p := by
  have list : ∀ {start : Nat} {l : List Nat}, Linked (linkOf s.mem) (toPtr start) l →
      (OnList s.mem start c ↔ c ∈ l) := fun chain =>
    ⟨fun ⟨_, other, member⟩ => chain.unique other ▸ member, fun member => ⟨_, chain, member⟩⟩
  cases p with
  | stack => exact list inv.stack
  | chain k =>
    have chain := (inv.represents k).chain
    rw [view_head] at chain
    exact list chain
  | hand t => exact Iff.rfl

theorem inUse_iff (inv : Inv n s) (use : Use) : InUse s k b use ↔
    match use with
    | .live => b ∈ (s.ghost.layout k).live
    | .free => b ∈ (s.ghost.layout k).frees := by
  cases use with
  | live =>
    constructor
    · rintro ⟨block, held, rfl, origin⟩
      exact (inv.housing.in_pool held origin).1
    · intro live
      exact inv.housing.listed k b live
  | free =>
    constructor
    · rintro ⟨opened, listed⟩
      exact (inv.onFreeList_iff opened).mp listed
    · intro free
      have opened : (s.phase k.1).Open k.2 := by
        by_contra shut
        have none_ := inv.frees_nil (t := k.1) (i := k.2) shut
        rw [none_] at free
        exact absurd free List.not_mem_nil
      exact ⟨opened, (inv.onFreeList_iff opened).mpr free⟩

/-- **Blocks in use do not overlap**, whichever threads and classes they belong to. -/
theorem inUse_apart (inv : Inv n s) {first second : Use} (one : InUse s k b first)
    (two : InUse s l d second) (different : (k, b, first) ≠ (l, d, second)) :
    Apart b (classSize k.2) d (classSize l.2) := by
  have family := inv.housing.family
  rw [inv.inUse_iff] at one two
  have member : ∀ {k b} {use : Use}, (match use with
      | .live => b ∈ (s.ghost.layout k).live
      | .free => b ∈ (s.ghost.layout k).frees) → b ∈ (s.ghost.layout k).blocks := by
    intro k b use here
    cases use with
    | live => exact List.mem_append_right _ here
    | free => exact List.mem_append_left _ here
  have apart := family.block_apart (member one) (member two) ?_
  · rwa [inv.size, inv.size] at apart
  · rintro rfl rfl
    -- one block, in use for two things
    cases first <;> cases second
    · exact different rfl
    · exact family.live_ne_free one two rfl
    · exact family.live_ne_free two one rfl
    · exact different rfl

/-- A pool with a chunk belongs to a thread that is there. -/
theorem chain_alive (inv : Inv n s) (here : At s c (.chain k)) :
    s.phase k.1 ≠ .absent ∧ s.phase k.1 ≠ .exited := by
  have empty : (s.phase k.1).Done k.2 → False := fun ended => by
    have none_ := inv.bases_nil (t := k.1) (i := k.2) ended
    rw [at_chain] at here
    rw [none_] at here
    exact absurd here List.not_mem_nil
  refine ⟨fun absent => empty ?_, fun exited => empty ?_⟩
  · rw [absent]
    trivial
  · rw [exited]
    trivial

end Inv

/-- **What a domestic program promises in a state.** -/
structure Conserved (s : State T) : Prop where
  /-- Each chunk issued so far is in exactly one place. -/
  place : ∀ c, Issued s c → ∃! p, Found s c p
  /-- Nothing else is in a place. -/
  only : ∀ c p, Found s c p → Issued s c
  /-- A chunk of a chain belongs to a thread that is there. -/
  alive : ∀ c k, Found s c (.chain k) → s.phase k.1 ≠ .absent ∧ s.phase k.1 ≠ .exited
  /-- Blocks of pools, live and free, do not overlap. -/
  apart : ∀ k l b d first second, InUse s k b first → InUse s l d second →
    (k, b, first) ≠ (l, d, second) → Apart b (classSize k.2) d (classSize l.2)
  /-- A live block lies in the block of its class. -/
  fits : ∀ b ∈ s.live, ∀ k, b.origin = .pool k → blockSize b.bytes ≤ classSize k.2
  /-- A `malloc`ed block meets none of these, and no other live block. -/
  malloc : ∀ b ∈ s.live, ∀ p, b.origin = .malloc p →
    (∀ k d use, InUse s k d use → Apart b.base (blockSize b.bytes) d (classSize k.2)) ∧
    ∀ c ∈ s.live, b ≠ c → Apart b.base (blockSize b.bytes) c.base (blockSize c.bytes)
  /-- When no thread is left, the free stack has every chunk, once. -/
  returned : (∀ t, s.phase t = .absent ∨ s.phase t = .exited) →
    ∃ list, Linked (linkOf s.mem) (toPtr s.freeHead) list ∧ list.Nodup ∧
      ∀ c, c ∈ list ↔ Issued s c

/-- **Chunks are conserved and threads are isolated**, in every state the runs of a domestic program
reach. -/
theorem chunks_conserved (build : Build) (n : Nat) (s : State T)
    (reached : (machine T build n).Reachable (fun s act => Supplied n s act ∧ Domestic s act) s) :
    Conserved s := by
  obtain ⟨inv, _⟩ := Inv.domestic reached
  refine ⟨fun c issued => ?_, fun c p found => inv.located.only c p ((inv.found_iff c p).mp found),
    fun c k found => inv.chain_alive ((inv.found_iff c (.chain k)).mp found),
    fun k l b d first second one two => inv.inUse_apart one two, fun b held k origin => ?_,
    fun b held p origin => ⟨fun k d use used => ?_, fun c other different =>
      inv.housing.blocks_apart held other different⟩, fun gone => ?_⟩
  · obtain ⟨p, here, unique⟩ := inv.located.existsUnique issued
    exact ⟨p, (inv.found_iff c p).mpr here, fun q there => unique q ((inv.found_iff c q).mp there)⟩
  · obtain ⟨_, _, _, fits⟩ := inv.housing.in_pool held origin
    rwa [inv.size] at fits
  · have housed := inv.housing.housed b held
    unfold Housed at housed
    rw [origin] at housed
    have carved : Carved (view s) s.ghost.layout (view s k).allocSize_ d := by
      rw [inv.inUse_iff] at used
      cases use with
      | live => exact inv.housing.family.carved_live used
      | free => exact inv.housing.family.carved_free used
    obtain ⟨l, base, chunk, low, high⟩ := inv.housing.family.inside carved
    rw [inv.size] at high
    exact (housed.2.2 l base chunk).mono le_rfl le_rfl (by omega) high
  · refine ⟨s.ghost.stack, inv.stack, inv.stack.nodup, fun c =>
      ⟨fun member => inv.located.only c .stack member, fun issued => ?_⟩⟩
    obtain ⟨p, here⟩ := inv.located.some c issued
    cases p with
    | stack => exact here
    | chain k =>
      have alive := inv.chain_alive here
      exact absurd (gone k.1) (by simp [alive.1, alive.2])
    | hand t =>
      rw [at_hand] at here
      rcases gone t with absent | exited
      · rw [absent] at here
        cases here
      · rw [exited] at here
        cases here

/-- A chunk that changed hands, after the thread that had it exited. -/
theorem chunks_conserved_pair : ∃ s : State Bool,
    (machine Bool .debug 1).Exec (fun s act => Supplied 1 s act ∧ Domestic s act) State.pair pairCalls s ∧
    s.phase true = .exited ∧ (∃ b, s.live = [b] ∧ b.origin = .pool (false, classOf 164)) ∧
    Conserved s := by
  obtain ⟨_, _, s, b, recycles⟩ := pair_recycles .debug
  have domestic : (machine Bool .debug 1).Exec (fun s act => Supplied 1 s act ∧ Domestic s act) State.pair
      pairCalls s := recycles.run.mono fun s act tidy => ⟨tidy.1, tidy.2.2⟩
  exact ⟨s, domestic, recycles.exited, ⟨b, recycles.live, recycles.origin⟩,
    chunks_conserved .debug 1 s ⟨State.pair, pairCalls, State.pair_init, domestic⟩⟩

end NpAlloc.Threads
