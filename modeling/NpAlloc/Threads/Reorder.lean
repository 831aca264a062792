/-
**Calls of different threads may be taken in another order.**

`np_alloc` and `np_free` are not synchronised: the pools they work on belong to their thread. What the
order of two calls of different threads changes is which of two new blocks is listed first, and nothing
that is in memory. A call here is an `np_alloc` that needs no chunk, the rest of one that was given its
chunk, or an `np_free`: where two take chunks, the order says who gets which.

* `Alike` — two states of the program are the same but for the order in which the live blocks are listed;
* `Inv.calls_commute` — two calls of different threads, each possible first, end alike in either order;
* **`calls_reorder`** — in a run of any threads, calls of different threads that follow one another may
  change places, any number of times: the run goes on as before, and ends alike.
-/

import NpAlloc.General.Reorder
import NpAlloc.Threads.Local

set_option linter.unusedSectionVars false

namespace NpAlloc.Threads

open Mmap Pool

variable {T : Type} [DecidableEq T] {s s' r : State T} {n : Nat} {t u : T} {build : Build} {act : Act T}
  {b c : Block (Index T)}

/-! ### The same state, listed in another order -/

/-- **The states are the same**, whichever way their live blocks are listed. -/
structure Alike (s s' : State T) : Prop where
  phase : s'.phase = s.phase
  pool : s'.pool = s.pool
  mem : s'.mem = s.mem
  ptr : s'.ptr_ = s.ptr_
  head : s'.head_ = s.head_
  freeHead : s'.freeHead = s.freeHead
  freedBy : s'.freedBy = s.freedBy
  live : s'.live.Perm s.live

namespace Alike

theorem refl (s : State T) : Alike s s := ⟨rfl, rfl, rfl, rfl, rfl, rfl, rfl, .refl _⟩

theorem trans {s s' r : State T} (first : Alike s s') (second : Alike s' r) : Alike s r :=
  ⟨second.phase.trans first.phase, second.pool.trans first.pool, second.mem.trans first.mem,
    second.ptr.trans first.ptr, second.head.trans first.head, second.freeHead.trans first.freeHead,
    second.freedBy.trans first.freedBy, second.live.trans first.live⟩

/-- One is the other with another list. -/
theorem relisted (alike : Alike s s') :
    ∃ live ghost, s' = { s with live := live, ghost := ghost } ∧ live.Perm s.live := by
  obtain ⟨phase', pool', mem', ptr', head', freeHead', live', freedBy', ghost'⟩ := s'
  obtain ⟨rfl, rfl, rfl, rfl, rfl, rfl, rfl, live⟩ := alike
  exact ⟨live', ghost', rfl, live⟩

/-- The environment admits the same in both. -/
theorem admits (alike : Alike s s') (admitted : Supplied n s act ∧ Orderly s act) :
    Supplied n s' act ∧ Orderly s' act := by
  obtain ⟨live, ghost, rfl, perm⟩ := alike.relisted
  obtain ⟨supplied, orderly⟩ := admitted
  refine ⟨?_, by cases act <;> exact orderly⟩
  cases act with
  | alloc t bytes info malloc =>
    refine ⟨supplied.1, fun large some_ => ?_⟩
    obtain ⟨space, outlying, others⟩ := supplied.2 large some_
    exact ⟨space, outlying, fun b member => others b (perm.mem_iff.mp member)⟩
  | elsewhere address value => exact ⟨supplied.1, fun b member => supplied.2 b (perm.mem_iff.mp member)⟩
  | _ => exact supplied

/-- A request is served alike. -/
theorem allocWith (alike : Alike s s') {supply : Supply Unit} {chunk malloc bytes : Nat} {info : Meta}
    (served : s.allocWith t supply chunk malloc bytes info = some r) :
    ∃ r', s'.allocWith t supply chunk malloc bytes info = some r' ∧ Alike r r' := by
  obtain ⟨live, ghost, rfl, perm⟩ := alike.relisted
  unfold State.allocWith at *
  simp only at *
  split at served
  · cases served
  · cases served
    exact ⟨_, rfl, rfl, rfl, rfl, rfl, rfl, rfl, rfl, perm.cons _⟩

/-- A block is freed alike. -/
theorem freeWith (alike : Alike s s') (freed : s.freeWith build t b = some r) :
    ∃ r', s'.freeWith build t b = some r' ∧ Alike r r' := by
  obtain ⟨live, ghost, rfl, perm⟩ := alike.relisted
  unfold State.freeWith at *
  simp only at *
  split at freed
  · cases freed
  · cases freed
    exact ⟨_, rfl, rfl, rfl, rfl, rfl, rfl, rfl, rfl, perm.erase b⟩

/-- **Every step is taken alike.** -/
theorem step (alike : Alike s s') (inv : Inv n s') (next : s.step build act = some r) :
    ∃ r', s'.step build act = some r' ∧ Alike r r' := by
  obtain ⟨live, ghost, rfl, perm⟩ := alike.relisted
  cases moves_of_step next with
  | start here =>
    simp only [State.step, here]
    exact ⟨_, rfl, rfl, rfl, rfl, rfl, rfl, rfl, rfl, perm⟩
  | alloc here spare served =>
    simp only [State.step, here, if_neg spare]
    exact alike.allocWith served
  | starved here need empty =>
    simp only [State.step, here, if_pos need, if_pos empty]
    exact ⟨_, rfl, rfl, rfl, rfl, rfl, rfl, rfl, rfl, perm⟩
  | popped here need some_ =>
    simp only [State.step, here, if_pos need, if_neg some_]
    exact ⟨_, rfl, rfl, rfl, rfl, rfl, rfl, rfl, rfl, perm⟩
  | advance here =>
    simp only [State.step, here]
    exact ⟨_, rfl, rfl, rfl, rfl, rfl, rfl, rfl, rfl, perm⟩
  | finish here served =>
    simp only [State.step, here]
    exact alike.allocWith served
  | @free t ptr b _ here found freed =>
    have member := List.mem_of_find?_eq_some found
    have ptr_ : b.ptr = ptr := by simpa using List.find?_some found
    have answer := inv.housing.find (perm.mem_iff.mpr member)
    rw [ptr_] at answer
    simp only [State.step, here, answer]
    exact alike.freeWith freed
  | @write address value b member within =>
    have inside : ∃ b ∈ live, NpAlloc.Within b.ptr b.bytes address := ⟨b, perm.mem_iff.mpr member, within⟩
    exact ⟨_, if_pos inside, rfl, rfl, rfl, rfl, rfl, rfl, rfl, perm⟩
  | elsewhere => exact ⟨_, rfl, rfl, rfl, rfl, rfl, rfl, rfl, rfl, perm⟩
  | exit here permuted =>
    simp only [State.step, here, if_pos permuted]
    exact ⟨_, rfl, rfl, rfl, rfl, rfl, rfl, rfl, rfl, perm⟩
  | close here null =>
    simp only [State.step, here, if_pos null]
    exact ⟨_, rfl, rfl, rfl, rfl, rfl, rfl, rfl, rfl, perm⟩
  | unlink here some_ =>
    simp only [State.step, here, if_neg some_]
    exact ⟨_, rfl, rfl, rfl, rfl, rfl, rfl, rfl, rfl, perm⟩
  | push here =>
    simp only [State.step, here]
    exact ⟨_, rfl, rfl, rfl, rfl, rfl, rfl, rfl, rfl, perm⟩

end Alike

/-! ### Two edits -/

section Edits

variable {pool pool' : ThreadPool} {mem mem' last : Memory}
  {layout layout' layout₁ layout₂ : Index T → Layout} {edit edit' : Edit T}

@[simp] theorem edited_live : (s.edited t pool mem layout edit).live = edit.live s.live := by
  cases edit <;> rfl

@[simp] theorem edited_mem : (s.edited t pool mem layout edit).mem = mem := by
  cases edit <;> rfl

@[simp] theorem edited_ptr : (s.edited t pool mem layout edit).ptr_ = s.ptr_ := by
  cases edit <;> rfl

/-- A block that is only listed after an edit was added by it. -/
theorem Edit.adds_of_mem {live : List (Block (Index T))} (member : c ∈ edit.live live) (new : c ∉ live) :
    edit = .adds c := by
  cases edit with
  | adds b =>
    rcases List.mem_cons.mp member with rfl | old
    · rfl
    · exact absurd old new
  | drops b => exact absurd (List.mem_of_mem_erase member) new

/-- What adds to the list is an addition. -/
theorem Edit.adds_of_cons {live : List (Block (Index T))} (adds : edit.live live = b :: live) :
    edit = .adds b := by
  cases edit with
  | adds c =>
    obtain rfl := (List.cons.inj adds).1
    rfl
  | drops c =>
    have shorter : (live.erase c).length ≤ live.length := List.length_erase_le
    have longer := congrArg List.length (show live.erase c = b :: live from adds)
    rw [List.length_cons] at longer
    omega

/-- Different blocks are listed and taken off in either order. -/
theorem Edit.live_comm (different : edit.block ≠ edit'.block) (live : List (Block (Index T))) :
    (edit.live (edit'.live live)).Perm (edit'.live (edit.live live)) := by
  cases edit with
  | adds b =>
    cases edit' with
    | adds c => exact .swap c b live
    | drops c =>
      show (b :: live.erase c).Perm ((b :: live).erase c)
      rw [List.erase_cons_tail (by simpa [Edit.block] using different)]
  | drops b =>
    cases edit' with
    | adds c =>
      show ((c :: live).erase b).Perm (c :: live.erase b)
      rw [List.erase_cons_tail (by simpa [Edit.block] using different.symm)]
    | drops c =>
      show ((live.erase c).erase b).Perm ((live.erase b).erase c)
      rw [List.erase_comm]

/-- **The edits of two threads, in either order.** -/
theorem Alike.edits (other : t ≠ u) (different : edit.block.base ≠ edit'.block.base) :
    Alike ((s.edited t pool mem layout edit).edited u pool' last layout₁ edit')
      ((s.edited u pool' mem' layout' edit').edited t pool last layout₂ edit) := by
  have blocks : edit.block ≠ edit'.block := fun same => different (congrArg Block.base same)
  have pools := Function.update_comm other pool pool' s.pool
  have phases := Function.update_comm other Phase.idle Phase.idle s.phase
  have live := Edit.live_comm blocks s.live
  cases edit <;> cases edit'
  · exact ⟨phases.symm, pools.symm, rfl, rfl, rfl, rfl, (Function.update_comm different ..).symm, live⟩
  · exact ⟨rfl, pools.symm, rfl, rfl, rfl, rfl, (Function.update_comm different ..).symm, live⟩
  · exact ⟨rfl, pools.symm, rfl, rfl, rfl, rfl, (Function.update_comm different ..).symm, live⟩
  · exact ⟨rfl, pools.symm, rfl, rfl, rfl, rfl, (Function.update_comm different ..).symm, live⟩

end Edits

/-! ### Two calls -/

/-- A block that is put in front of the live ones is none of them. -/
theorem Inv.fresh (inv : Inv n s') {live : List (Block (Index T))} (same : s'.live = b :: live) :
    b ∉ live := by
  have nodup := inv.housing.nodup
  rw [same] at nodup
  exact (List.nodup_cons.mp nodup).1

/-- **Two calls are about different blocks**, and each finds the block it frees after the other. -/
theorem Inv.edits_apart {s₁ s₂ : State T} {edit edit' : Edit T} (inv : Inv n s) (inv₁ : Inv n s₁)
    (inv₂ : Inv n s₂) (inv' : Inv n s') (live₁ : s₁.live = edit.live s.live)
    (live₂ : s₂.live = edit'.live s.live) (live' : s'.live = edit'.live s₁.live)
    (drops : ∀ b, edit = .drops b → b ∈ s.live)
    (drops' : ∀ c, edit' = .drops c → c ∈ s.live ∧ c ∈ s₁.live) :
    edit.block.base ≠ edit'.block.base ∧ (∀ b, edit = .adds b → b ∈ s'.live) ∧
      ∀ b, edit = .drops b → b ∈ s₂.live := by
  have bases {r : State T} {b c : Block (Index T)} (here : Inv n r) (first : b ∈ r.live)
      (second : c ∈ r.live) (different : b ≠ c) : b.base ≠ c.base :=
      fun same => different (here.housing.base_injective first second same)
  cases edit with
  | adds b =>
    have first : b ∈ s₁.live := by
      rw [live₁]
      exact List.mem_cons_self
    cases edit' with
    | adds c =>
      have old : b ∈ s'.live := by
        rw [live']
        exact List.mem_cons_of_mem c first
      have new : c ∈ s'.live := by
        rw [live']
        exact List.mem_cons_self
      have different : b ≠ c := fun same => inv'.fresh live' (same ▸ first)
      refine ⟨bases inv' old new different, ?_, fun _ same => nomatch same⟩
      rintro _ ⟨⟩
      exact old
    | drops c =>
      obtain ⟨before, after⟩ := drops' c rfl
      have different : b ≠ c := fun same => inv₁.fresh live₁ (same ▸ before)
      refine ⟨bases inv₁ first after different, ?_, fun _ same => nomatch same⟩
      rintro _ ⟨⟩
      rw [live']
      exact (List.mem_erase_of_ne different).mpr first
  | drops b =>
    have member := drops b rfl
    cases edit' with
    | adds c =>
      have old : b ∈ s₂.live := by
        rw [live₂]
        exact List.mem_cons_of_mem c member
      have new : c ∈ s₂.live := by
        rw [live₂]
        exact List.mem_cons_self
      have different : b ≠ c := fun same => inv₂.fresh live₂ (same ▸ member)
      refine ⟨bases inv₂ old new different, fun _ same => (nomatch same), ?_⟩
      rintro _ ⟨⟩
      exact old
    | drops c =>
      obtain ⟨before, after⟩ := drops' c rfl
      have different : b ≠ c := by
        rintro rfl
        rw [live₁] at after
        exact inv.housing.nodup.not_mem_erase after
      refine ⟨bases inv member before different, fun _ same => (nomatch same), ?_⟩
      rintro _ ⟨⟩
      rw [live₂]
      exact (List.mem_erase_of_ne different).mpr member

/-- **Two calls write to different bytes.** -/
theorem Inv.writes_apart {s₁ : State T} {edit edit' : Edit T} (inv' : Inv n s') (other : t ≠ u)
    (kept : ∀ i x, Footprint (s'.ghost.layout (t, i)) x ↔ Footprint (s₁.ghost.layout (t, i)) x)
    (different : edit.block.base ≠ edit'.block.base) (live : ∀ b, edit = .adds b → b ∈ s'.live)
    (live' : ∀ c, edit' = .adds c → c ∈ s'.live) {x : Nat} (first : Owned s₁ t edit x) :
    ¬ Owned s' u edit' x := by
  intro second
  rcases first with ⟨i, mine⟩ | ⟨b, rfl, within⟩
  · exact inv'.owned_apart live' other second ((kept i x).mpr mine)
  · rcases second with ⟨j, theirs⟩ | ⟨c, rfl, within'⟩
    · exact inv'.housing.unread (live b rfl) within _ theirs
    · have apart := inv'.housing.blocks_apart (live b rfl) (live' c rfl)
        fun same => different (congrArg Block.base same)
      exact apart.not_within within within'

/-- What the first call may need from `malloc` is still fresh after the second. -/
theorem Inv.supplied_after (inv : Inv n s) {s₁ s₂ s' : State T} (supplied : Supplied n s act)
    (mine : caller act = some t) (next : s.step build act = some s₁) (inv₁ : Inv n s₁) (inv' : Inv n s')
    (ptr : s₂.ptr_ = s.ptr_)
    (listed : ∀ c ∈ s₂.live, c ∉ s.live → ∀ b, s₁.live = b :: s.live → b ∈ s'.live ∧ c ∈ s'.live ∧ b ≠ c) :
    Supplied n s₂ act := by
  cases act with
  | alloc t bytes info malloc =>
    refine ⟨supplied.1, fun large some_ => ?_⟩
    obtain ⟨space, outlying, others⟩ := supplied.2 large some_
    rw [ptr]
    refine ⟨space, outlying, fun c member => ?_⟩
    by_cases old : c ∈ s.live
    · exact others c old
    · obtain ⟨b, placed⟩ := inv.placed_alloc supplied next
      obtain ⟨here, there, different⟩ := listed c member old b placed.live
      have first : b ∈ s₁.live := by
        rw [placed.live]
        exact List.mem_cons_self
      have housed := inv₁.housing.housed b first
      unfold Housed at housed
      rw [(placed.large large).1] at housed
      have apart := inv'.housing.blocks_apart here there different
      rwa [housed.1, placed.size, ← widened_eq supplied.1] at apart
  | finish | free => trivial
  | _ => cases mine

/-- **Calls of different threads commute.** -/
theorem Inv.calls_commute (inv : Inv n s) {a b : Act T} {s₁ s₂ : State T} (mine : caller a = some t)
    (theirs : caller b = some u) (other : t ≠ u) (first : Supplied n s a ∧ Orderly s a)
    (step_a : s.step build a = some s₁) (second : Supplied n s₁ b ∧ Orderly s₁ b)
    (step_b : s₁.step build b = some s') (early : Supplied n s b ∧ Orderly s b)
    (possible : s.step build b = some s₂) :
    (Supplied n s₂ a ∧ Orderly s₂ a) ∧ ∃ r, s₂.step build a = some r ∧ Alike s' r := by
  have inv₁ := inv.keeps build n s a s₁ first step_a
  have inv' := inv₁.keeps build n s₁ b s' second step_b
  have inv₂ := inv.keeps build n s b s₂ early possible
  have seen := inv.looks inv₁ step_a mine other.symm (open_of_call possible theirs)
  have seen' := inv.looks inv₂ possible theirs other (open_of_call step_a mine)
  have kept (i : SizeClass) (x : Nat) := call_footprint (x := x) step_b theirs other i
  obtain ⟨pool, mem, layout, edit, rfl, drops, again⟩ := inv.call_local inv₁ step_a mine
  obtain ⟨pool', mem', layout', edit', rfl, drops', again'⟩ := inv₁.call_local inv' step_b theirs
  have early_drops : ∀ c, edit' = .drops c → c ∈ s.live := by
    intro c same
    obtain ⟨member, rfl⟩ := drops' c same
    obtain ⟨found, old, ptr, _⟩ := inv.released possible
    cases edit with
    | adds b =>
      -- it is found before the call, and it is not the block the call serves
      have there : found ∈ (s.edited t pool mem layout (.adds b)).live := List.mem_cons_of_mem b old
      have bases : found.base = c.base := by
        unfold Block.base
        rw [ptr]
      exact inv₁.housing.base_injective there member bases ▸ old
    | drops b => exact List.mem_of_mem_erase member
  obtain ⟨mem₂', layout₂', Q, possible', writes', inside'⟩ := again' s inv seen.symm early_drops
  obtain rfl := Option.some.inj (possible.symm.trans possible')
  have live' : ∀ c, edit' = .adds c →
      c ∈ ((s.edited t pool mem layout edit).edited u pool' mem' layout' edit').live := by
    rintro c rfl
    exact List.mem_cons_self
  obtain ⟨different, live, late⟩ := inv.edits_apart inv₁ inv₂ inv' edited_live edited_live edited_live
    (fun b same => (drops b same).1) fun c same => ⟨early_drops c same, (drops' c same).1⟩
  obtain ⟨mem₂, layout₂, P, last, writes, inside⟩ := again _ inv₂ seen' late
  rw [edited_mem] at writes writes'
  have same : mem' = mem₂ := writes.commute writes'.symm fun x here there =>
    inv'.writes_apart other (fun i x => kept i x) different live live' (inside x here) (inside' x there)
  refine ⟨⟨?_, ?_⟩, _, last, ?_⟩
  · refine inv.supplied_after first.1 mine step_a inv₁ inv' edited_ptr fun c member new b adds => ?_
    rw [edited_live] at member adds
    obtain rfl := Edit.adds_of_mem member new
    obtain rfl := Edit.adds_of_cons adds
    exact ⟨live b rfl, live' c rfl, fun same => different (congrArg Block.base same)⟩
  · cases a <;> trivial
  · rw [← same]
    exact .edits other different

/-! ### Runs -/

/-- Calls of different threads. -/
def Unrelated (a b : Act T) : Prop := ∃ t u, caller a = some t ∧ caller b = some u ∧ t ≠ u

/-- What a run of the threads is admitted by. -/
def Lawful (n : Nat) (s : State T) (act : Act T) : Prop := Supplied n s act ∧ Orderly s act

/-- **Calls of different threads may change places.** In any run of any threads whose chunks are handed over
settled, two calls of different threads that follow one another (neither of which takes a chunk), the second
of which was possible before the first, may be taken in the other order, and so on any number of times. What
is left is a run, and it ends in the same state: the same memory, pools, chunks and live blocks. -/
theorem calls_reorder (build : Build) (n : Nat) (start s : State T) (acts acts' : List (Act T))
    (initial : State.Init n start) (run : (machine T build n).Exec (Lawful n) start acts s)
    (exchanged : Relation.ReflTransGen ((machine T build n).Exchange (Lawful n) Unrelated start)
      acts acts') :
    ∃ s', (machine T build n).Exec (Lawful n) start acts' s' ∧ Alike s s' := by
  refine run.reorder (I := Inv n) (R := Alike) ?_ ?_ (Inv.keeps build n) Alike.refl
    (fun _ _ _ => Alike.trans) exchanged (.init initial)
  · intro s t act s' _ there alike admitted next
    exact ⟨alike.admits admitted, alike.step there next⟩
  · rintro s a b s₁ s₂ s' inv ⟨t, u, mine, theirs, other⟩ first step_a second step_b early possible
    exact inv.calls_commute mine theirs other first step_a second step_b early possible

/-- An idle thread asks for 100000 bytes. -/
theorem Inv.ask (inv : Inv n s) (build : Build) (t : T) (malloc : Nat) (here : s.phase t = .idle)
    (some_ : malloc ≠ 0) (fresh : malloc + widened 100000 < 2 ^ 64 ∧ Outlying n s.ptr_ malloc (widened 100000) ∧
      ∀ b ∈ s.live, Apart malloc (widened 100000) b.base (blockSize b.bytes)) :
    Lawful n s (.alloc t 100000 ⟨1, 0, 0⟩ malloc) ∧ ∃ s' b,
      s.step build (.alloc t 100000 ⟨1, 0, 0⟩ malloc) = some s' ∧ Inv n s' ∧ s'.live = b :: s.live ∧
        b.base = malloc ∧ b.bytes = 100000 ∧ s'.phase = Function.update s.phase t .idle ∧
        s'.ptr_ = s.ptr_ := by
  have large : maxAllocSize getAllocSizeList < widened 100000 := by decide
  have spare : ¬ NeedsChunk (s.pool t) s.mem 100000 := fun need => by
    have small := need.1
    omega
  have supplied : Supplied n s (.alloc t 100000 ⟨1, 0, 0⟩ malloc) := ⟨by decide, fun _ _ => fresh⟩
  obtain ⟨s', _, served, after, _⟩ := inv.allocMalloc (t := t) (fun _ => by rw [here]; trivial)
    (by rw [here]; rfl) (fun _ => .error .aborted) 0 ⟨1, 0, 0⟩ (by decide) large some_ fresh
  have next : s.step build (.alloc t 100000 ⟨1, 0, 0⟩ malloc) = some s' :=
    Moves.step (.alloc here spare served)
  obtain ⟨b, placed⟩ := inv.placed_alloc supplied next
  have member : b ∈ s'.live := by
    rw [placed.live]
    exact List.mem_cons_self
  have housed := after.housing.housed b member
  unfold Housed at housed
  rw [(placed.large large).1] at housed
  exact ⟨⟨supplied, trivial⟩, s', b, next, after, placed.live, housed.1, placed.size, placed.phase,
    (allocWith_shared served).ptr⟩

/-- Two threads ask for 100000 bytes each, in either order. -/
theorem calls_reorder_two : ∃ start s s' : State Bool, Alike s s' ∧ s.live.map Block.base = [2 ^ 41, 2 ^ 40] ∧
    (machine Bool .debug 1).Exec (Lawful 1) start [.start true, .start false,
      .alloc true 100000 ⟨1, 0, 0⟩ (2 ^ 40), .alloc false 100000 ⟨1, 0, 0⟩ (2 ^ 41)] s ∧
    (machine Bool .debug 1).Exec (Lawful 1) start [.start true, .start false,
      .alloc false 100000 ⟨1, 0, 0⟩ (2 ^ 41), .alloc true 100000 ⟨1, 0, 0⟩ (2 ^ 40)] s' := by
  let start : State Bool := ⟨fun _ => .absent, fun _ => .init, fun _ => 0, 2 ^ 30, 2 ^ 30, 0, [],
    fun _ => none, ⟨fun _ => .empty, []⟩⟩
  have initial : State.Init 1 start :=
    ⟨by decide, by decide, rfl, rfl, fun _ => rfl, fun _ => rfl, rfl, fun _ => rfl, fun _ => rfl, rfl⟩
  let idle := (start.goto true .idle).goto false .idle
  have front : (machine Bool .debug 1).Exec (Lawful 1) start [.start true, .start false] idle :=
    .cons ⟨trivial, trivial⟩ rfl (.single ⟨trivial, trivial⟩ rfl)
  have inv : Inv 1 idle := front.preserves (Inv.keeps .debug 1) (.init initial)
  have outlying (a : Nat) (far : 2 ^ 40 ≤ a) : Outlying 1 idle.ptr_ a (widened 100000) := by
    have same : idle.ptr_ = 2 ^ 30 := rfl
    unfold Outlying Apart kDefaultChunkSize
    rw [same]
    omega
  have none_ (a : Nat) : ∀ b ∈ idle.live, Apart a (widened 100000) b.base (blockSize b.bytes) :=
    fun b member => absurd member List.not_mem_nil
  obtain ⟨first, s₁, b, step₁, inv₁, live₁, base, bytes, phase, ptr⟩ := inv.ask .debug true (2 ^ 40) rfl
    (by decide) ⟨by decide, outlying _ le_rfl, none_ _⟩
  obtain ⟨early, _, _, possible, _⟩ := inv.ask .debug false (2 ^ 41) rfl
    (by decide) ⟨by decide, outlying _ (by decide), none_ _⟩
  have apart : ∀ c ∈ s₁.live, Apart (2 ^ 41) (widened 100000) c.base (blockSize c.bytes) := by
    intro c member
    rw [live₁] at member
    obtain rfl : c = b := by simpa [idle, start, State.goto] using member
    rw [base, bytes]
    unfold Apart
    decide
  obtain ⟨second, s, c, step₂, _, live, base', _⟩ := inv₁.ask .debug false (2 ^ 41) (by rw [phase]; rfl)
    (by decide) ⟨by decide, ptr ▸ outlying _ (by decide), apart⟩
  have run := front.append (.cons first step₁ (.single second step₂))
  have unrelated : Unrelated (.alloc true 100000 ⟨1, 0, 0⟩ (2 ^ 40))
      (.alloc false 100000 ⟨1, 0, 0⟩ (2 ^ 41)) := ⟨true, false, rfl, rfl, by decide⟩
  obtain ⟨s', run', alike⟩ := calls_reorder .debug 1 start s _ _ initial run
    (.single (.swap front unrelated early possible))
  refine ⟨start, s, s', alike, ?_, run, run'⟩
  rw [live, live₁]
  simp [base, base', idle, start, State.goto]

end NpAlloc.Threads
