/-
**Thread exit and the blocks that are still in use.**

`deinit` hands every chunk of a thread to `free_chunk`, whoever holds the blocks carved from it. It
reports the blocks that were not freed, but it does not keep their chunks back.

* `Retired` — what the exit of a thread should have made sure of: no block carved from the chunk is
  live, or on the free list of another thread.
* `Settled` — what the clients have to make sure of: every block carved from the chunk was freed, the
  last time by a thread that destroyed its own list of that class first.
* **`exit_reclaims`** — the first holds exactly when the second does. In runs whose hand-overs are
  settled no chunk in use is ever handed over, and live blocks do not overlap.
* **`exit_reclaims_live`** — without the condition a live block goes with its chunk.
-/

import NpAlloc.Threads.Calls

set_option linter.unusedSectionVars false

namespace NpAlloc.Threads

open Mmap Pool

variable {T : Type} [DecidableEq T] {s s' : State T} {n : Nat} {t u : T} {i j : SizeClass}
  {k l : Index T} {b c d : Nat} {build : Build}

/-! ### What the memory says -/

/-- An address on the list that starts at a pointer. -/
def OnList (mem : Memory) (start a : Nat) : Prop :=
  ∃ list, Linked (linkOf mem) (toPtr start) list ∧ a ∈ list

/-- A block carved from a chunk of a class: it lies below `pool_curr`. -/
def CarvedFrom (mem : Memory) (chunk : Nat) (i : SizeClass) (b : Nat) : Prop :=
  ∃ j, b = blockAt (classSize i) chunk j ∧ b < load mem (chunk + 8) 8

/-- **No block carved from the chunk is live, or on the free list of another thread.** -/
def Retired (s : State T) (t : T) (chunk : Nat) (i : SizeClass) : Prop :=
  ∀ b, CarvedFrom s.mem chunk i b →
    (∀ block ∈ s.live, block.base ≠ b) ∧
    ∀ u, u ≠ t → ∀ j, (s.phase u).Open j → ¬ OnList s.mem ((s.pool u).tlsPool j).free_ b

/-- **Every block carved from the chunk was freed**, the last time by a thread whose own list of that
class is not used any more. -/
def Settled (s : State T) (chunk : Nat) (i : SizeClass) : Prop :=
  ∀ b, CarvedFrom s.mem chunk i b → ∃ u, s.freedBy b = some u ∧ ¬ (s.phase u).Open i

/-- Chunks are handed over settled. -/
def Orderly (s : State T) : Act T → Prop
  | .unlink t => ∀ i later, s.phase t = .closing i later → ((s.pool t).tlsPool i).head_ ≠ 0 →
      Settled s ((s.pool t).tlsPool i).head_ i
  | _ => True

/-- Blocks of the pools are freed by the thread that allocated them, before it exits. -/
def Domestic (s : State T) : Act T → Prop
  | .free t ptr => ∀ b ∈ s.live, b.ptr = ptr → ∀ k, b.origin = .pool k → k.1 = t
  | .exit t _ => ∀ b ∈ s.live, ∀ k, b.origin = .pool k → k.1 ≠ t
  | _ => True

/-- Chunks are handed over retired. -/
def Retires (s : State T) : Act T → Prop
  | .unlink t => ∀ i later, s.phase t = .closing i later → ((s.pool t).tlsPool i).head_ ≠ 0 →
      Retired s t ((s.pool t).tlsPool i).head_ i
  | _ => True

namespace Inv

/-- **The free list in memory is the one of the layout.** -/
theorem onFreeList_iff (inv : Inv n s) (here : (s.phase t).Open i) :
    OnList s.mem ((s.pool t).tlsPool i).free_ b ↔ b ∈ (s.ghost.layout (t, i)).frees := by
  have free := (inv.represents (t, i)).free
  rw [view_open here] at free
  constructor
  · rintro ⟨list, chain, member⟩
    rwa [chain.unique free] at member
  · exact fun member => ⟨_, free, member⟩

/-- **The blocks below `pool_curr` are the ones of the layout.** -/
theorem carvedFrom_iff (inv : Inv n s) {chunk : Chunk}
    (member : chunk ∈ (s.ghost.layout (t, i)).chunks) :
    CarvedFrom s.mem chunk.base i b ↔ b ∈ chunk.blocks (classSize i) := by
  have curr := (inv.represents (t, i)).curr chunk member
  have bounds := classSize_bounds i
  rw [inv.size] at curr
  unfold CarvedFrom Chunk.blocks
  rw [curr]
  have below : ∀ j, blockAt (classSize i) chunk.base j < blockAt (classSize i) chunk.base chunk.count ↔
      j < chunk.count := by
    intro j
    unfold blockAt
    rw [Nat.add_lt_add_iff_left, Nat.mul_lt_mul_right (by omega)]
  simp only [List.mem_map, List.mem_range]
  constructor
  · rintro ⟨j, rfl, less⟩
    exact ⟨j, (below j).mp less, rfl⟩
  · rintro ⟨j, less, rfl⟩
    exact ⟨j, rfl, (below j).mpr less⟩

variable {chunk : Chunk} {rest : List Chunk}

/-- Carved from the head chunk. -/
theorem carved_head (chunks : (s.ghost.layout (t, i)).chunks = chunk :: rest)
    (member : b ∈ chunk.blocks (classSize i)) : b ∈ (s.ghost.layout (t, i)).carved (classSize i) := by
  unfold Layout.carved
  rw [chunks]
  exact List.mem_append_left _ member

/-- **A settled chunk is not in use**, and conversely. -/
theorem settled_iff (inv : Inv n s) (chunks : (s.ghost.layout (t, i)).chunks = chunk :: rest) :
    Settled s chunk.base i ↔ Unclaimed s t i := by
  have here : chunk ∈ (s.ghost.layout (t, i)).chunks := by
    rw [chunks]
    exact List.mem_cons_self
  constructor
  · intro settled chunk' rest' head k block used member
    rw [chunks] at head
    cases head
    obtain ⟨u, freed, closed⟩ := settled block ((inv.carvedFrom_iff here).mpr member)
    have class_ : i = k.2 := inv.class_eq (k := (t, i)) (carved_head chunks member) used
    rcases List.mem_append.mp used with free | live
    · -- the list it is on belongs to the thread that freed it
      have by_ := inv.history.frees k block free
      rw [freed] at by_
      cases by_
      rw [class_] at closed
      have none_ := inv.frees_nil (t := k.1) (i := k.2) closed
      rw [none_] at free
      exact absurd free List.not_mem_nil
    · rw [inv.history.live k block live] at freed
      cases freed
  · intro unclaimed b carved
    have member := (inv.carvedFrom_iff here).mp carved
    rcases inv.history.carved (t, i) b (carved_head chunks member) with ⟨l, used⟩ | freed
    · exact absurd member (unclaimed chunk rest chunks l b used)
    · exact freed

/-- **A retired chunk is not in use**, and conversely, once the thread has given up its free list. -/
theorem retired_iff (inv : Inv n s) (closed : ¬ (s.phase t).Open i)
    (chunks : (s.ghost.layout (t, i)).chunks = chunk :: rest) :
    Retired s t chunk.base i ↔ Unclaimed s t i := by
  have here : chunk ∈ (s.ghost.layout (t, i)).chunks := by
    rw [chunks]
    exact List.mem_cons_self
  have positive : 0 < classSize i := by
    have bounds := classSize_bounds i
    omega
  constructor
  · intro retired chunk' rest' head k block used member
    rw [chunks] at head
    cases head
    obtain ⟨dead, unlisted⟩ := retired block ((inv.carvedFrom_iff here).mpr member)
    have class_ : i = k.2 := inv.class_eq (k := (t, i)) (carved_head chunks member) used
    rcases List.mem_append.mp used with free | live
    · have opened : (s.phase k.1).Open k.2 := by
        by_contra shut
        have none_ := inv.frees_nil (t := k.1) (i := k.2) shut
        rw [none_] at free
        exact absurd free List.not_mem_nil
      refine unlisted k.1 ?_ k.2 opened ((inv.onFreeList_iff opened).mpr free)
      rintro rfl
      rw [class_] at closed
      exact closed opened
    · obtain ⟨blk, held, base, _⟩ := inv.housing.listed k block live
      exact dead blk held base
  · intro unclaimed b carved
    have member := (inv.carvedFrom_iff here).mp carved
    have inside := carved_head chunks member
    refine ⟨fun block held base => ?_, fun u _ j opened listed => ?_⟩
    · cases origin : block.origin with
      | pool k =>
        obtain ⟨live, _⟩ := inv.housing.in_pool held origin
        rw [base] at live
        exact unclaimed chunk rest chunks k b (List.mem_append_right _ live) member
      | malloc p =>
        have housed := inv.housing.housed block held
        unfold Housed at housed
        rw [origin] at housed
        exact inv.housing.family.ne_carved housed.2.2 ⟨(t, i), inv.size (t, i), inside⟩ positive
          (by unfold blockSize; omega) base.symm
    · have free := (inv.onFreeList_iff opened).mp listed
      exact unclaimed chunk rest chunks (u, j) b (List.mem_append_left _ free) member

/-- The head chunk of a class. -/
theorem head_chunk (inv : Inv n s) (some_ : ((s.pool t).tlsPool i).head_ ≠ 0) :
    ∃ chunk rest, (s.ghost.layout (t, i)).chunks = chunk :: rest ∧
      ((s.pool t).tlsPool i).head_ = chunk.base := by
  cases chunks : (s.ghost.layout (t, i)).chunks with
  | nil =>
    have null := (inv.represents (t, i)).head_null.mpr chunks
    rw [view_head] at null
    exact absurd null some_
  | cons chunk rest =>
    have first := (inv.represents (t, i)).head chunks
    rw [view_head] at first
    exact ⟨chunk, rest, rfl, first⟩

/-- The class `deinit` works on has given up its free list. -/
theorem closing_closed (inv : Inv n s) {later : List SizeClass} (closing : s.phase t = .closing i later) :
    ¬ (s.phase t).Open i := by
  have stands := inv.stands t
  rw [closing] at stands ⊢
  exact (List.nodup_cons.mp stands.ordered).1

/-- **A step that hands over what is settled keeps the invariant.** -/
theorem orderly_step {act : Act T} (inv : Inv n s) (supplied : Supplied n s act)
    (ready : Orderly s act) (next : s.step build act = some s') : Inv n s' := by
  refine inv.step supplied (fun t i later unlink closing some_ => ?_) next
  obtain ⟨chunk, rest, chunks, head⟩ := inv.head_chunk some_
  rw [unlink] at ready
  have settled := ready i later closing some_
  rw [head] at settled
  exact (inv.settled_iff chunks).mp settled

/-- **A hand-over retires its chunk exactly when the chunk is settled.** -/
theorem retires_iff (inv : Inv n s) (act : Act T) : Retires s act ↔ Orderly s act := by
  cases act with
  | unlink t =>
    show (∀ i later, _ → _ → _) ↔ (∀ i later, _ → _ → _)
    refine forall₂_congr fun i later => forall₂_congr fun closing some_ => ?_
    obtain ⟨chunk, rest, chunks, head⟩ := inv.head_chunk some_
    rw [head, inv.retired_iff (inv.closing_closed closing) chunks, inv.settled_iff chunks]
  | _ => exact Iff.rfl

/-- Nothing in a chunk in hand is in use. -/
theorem handed (inv : Inv n s) (here : At s c (.hand t)) (within : Within c kDefaultChunkSize b) :
    (∀ block ∈ s.live, block.base ≠ b) ∧
      ∀ u j, (s.phase u).Open j → ¬ OnList s.mem ((s.pool u).tlsPool j).free_ b := by
  have unused := inv.unused here fun k => by simp
  refine ⟨fun block held base => ?_, fun u j opened listed => ?_⟩
  · refine (unused.2 block held).not_within within ?_
    rw [← base]
    unfold Within blockSize
    omega
  · have free := (inv.onFreeList_iff opened).mp listed
    obtain ⟨k, base, chunk, low, high⟩ := inv.housing.family.inside
      (inv.housing.family.carved_free free)
    have apart := unused.1 k base chunk
    rw [inv.size] at high
    have bounds := classSize_bounds j
    unfold Within Apart at *
    simp only at high
    omega

end Inv

/-! ### One thread, one request -/

/-- The only chunk in a chain, with one block carved from it. -/
def Sole (t : T) (i : SizeClass) (c : Nat) (s : State T) : Prop :=
  ∀ k, (s.ghost.layout k).chunks = if k = (t, i) then [⟨c, 1⟩] else []

theorem Sole.own (sole : Sole t i c s) : (s.ghost.layout (t, i)).chunks = [⟨c, 1⟩] := by
  rw [sole, if_pos rfl]

/-- A request that needed the only chunk was served. -/
theorem Sole.served (none_ : ∀ k, (s.ghost.layout k).chunks = []) (empty : (s.ghost.layout (t, i)).frees = [])
    (layout : s'.ghost.layout = s.served t c (.pool i)) : Sole t i c s' := by
  have result : ((s.ghost.layout (t, i)).take (classSize i) kDefaultChunkSize c).2.chunks = [⟨c, 1⟩] := by
    unfold Layout.take Layout.full Layout.grow Layout.carve
    simp only [empty, none_, if_true]
  intro k
  rw [layout]
  show (Function.update s.ghost.layout (t, i) _ k).chunks = _
  by_cases own : k = (t, i)
  · rw [own, Function.update_self, if_pos rfl]
    exact result
  · rw [Function.update_of_ne own, if_neg own]
    exact none_ k

/-- The calls a first request of a thread takes. -/
def firstRequest (t : T) : List (Act T) :=
  [.start t, .pop t 100 ⟨1, 0, 0⟩, .advance t, .finish t]

/-- **The first request of a process** carves its block from the first chunk. -/
theorem State.Init.request {start : State T} (initial : State.Init n start) (positive : 0 < n) (t : T)
    (build : Build) (ok : State T → Act T → Prop)
    (admits : ∀ s act, act ∈ firstRequest t → Supplied n s act → ok s act) :
    ∃ s b, (machine T build n).Exec ok start (firstRequest t) s ∧ Inv n s ∧
      s.phase = Function.update start.phase t .idle ∧ s.live = [b] ∧ b.bytes = 100 ∧
      b.origin = .pool (t, classOf 164) ∧
      Sole t (classOf 164) start.ptr_ s := by
  have width : widened 100 = 164 := by decide
  let s₁ := start.goto t .idle
  let s₂ := s₁.goto t (.starved 100 ⟨1, 0, 0⟩)
  let s₃ := s₂.advanced t 100 ⟨1, 0, 0⟩
  have here₁ : s₁.phase t = .idle := Function.update_self ..
  have here₂ : s₂.phase t = .starved 100 ⟨1, 0, 0⟩ := Function.update_self ..
  -- the pools are new, and so is the free stack
  have need : NeedsChunk (s₁.pool t) s₁.mem 100 := by
    show NeedsChunk (start.pool t) start.mem 100
    rw [initial.pool]
    exact ⟨by decide, rfl, .inl rfl⟩
  have first : start.step build (.start t) = some s₁ := Moves.step (.start (initial.phase t))
  have second : s₁.step build (.pop t 100 ⟨1, 0, 0⟩) = some s₂ :=
    Moves.step (.starved here₁ need initial.freeHead)
  have third : s₂.step build (.advance t) = some s₃ := Moves.step (.advance here₂)
  have supplied : Supplied n s₂ (.advance t) := by
    have head := initial.head
    show start.head_ ≠ start.ptr_ + n * kDefaultChunkSize
    unfold kDefaultChunkSize
    omega
  have free : ∀ s : State T, Supplied n s (.start t) := fun _ => trivial
  have done : ∀ s : State T, Supplied n s (.finish t) := fun _ => trivial
  have inv₁ : Inv n s₁ := (Inv.init initial).step (free _) (by simp) first
  have bound : Supplied n s₁ (.pop t 100 ⟨1, 0, 0⟩) := by
    show (100 : Nat) ≤ 2 ^ 64 - 65
    decide
  have inv₂ : Inv n s₂ := inv₁.step bound (by simp) second
  have inv₃ : Inv n s₃ := inv₂.step supplied (by simp) third
  obtain ⟨s, b, last, inv, serves, bytes, origin, layout⟩ :=
    inv₃.finish (t := t) (c := start.head_) (Function.update_self ..) build
  rw [width] at origin layout
  refine ⟨s, b, ?_, inv, ?_, ?_, bytes, origin, ?_⟩
  · refine .cons (admits _ _ (by simp [firstRequest]) (free _)) first ?_
    refine .cons (admits _ _ (by simp [firstRequest]) bound) second ?_
    refine .cons (admits _ _ (by simp [firstRequest]) supplied) third ?_
    exact .single (admits _ _ (by simp [firstRequest]) (done _)) last
  · rw [serves.phase]
    show Function.update (Function.update (Function.update (Function.update start.phase _ _) _ _) _ _) _ _
      = _
    rw [Function.update_idem, Function.update_idem, Function.update_idem]
  · rw [serves.live]
    show b :: start.live = [b]
    rw [initial.live]
  · have empty : ∀ k, s₃.ghost.layout k = .empty := initial.layout
    rw [initial.head] at layout
    exact Sole.served (fun k => by rw [empty]; rfl) (by rw [empty]; rfl) layout

/-- A process of one thread, with a reservation of one chunk at `2 ^ 30`. -/
def State.first : State Unit :=
  ⟨fun _ => .absent, fun _ => .init, fun _ => 0, 2 ^ 30, 2 ^ 30, 0, [], fun _ => none,
    ⟨fun _ => .empty, []⟩⟩

theorem State.first_init : State.Init 1 State.first := by
  refine ⟨by decide, by decide, rfl, rfl, fun _ => rfl, fun _ => rfl, rfl, fun _ => rfl, fun _ => rfl, rfl⟩

/-- The calls a first request takes. -/
def firstCalls : List (Act Unit) :=
  [.start (), .pop () 100 ⟨1, 0, 0⟩, .advance (), .finish ()]

theorem first_request (build : Build) (ok : State Unit → Act Unit → Prop)
    (admits : ∀ s act, act ∈ firstCalls → Supplied 1 s act → ok s act) :
    ∃ s b, (machine Unit build 1).Exec ok State.first firstCalls s ∧ Inv 1 s ∧
      s.phase () = .idle ∧ s.live = [b] ∧ b.bytes = 100 ∧
      b.origin = .pool ((), classOf 164) ∧
      (s.ghost.layout ((), classOf 164)).chunks = [⟨2 ^ 30, 1⟩] := by
  obtain ⟨s, b, run, inv, phase, live, bytes, origin, sole⟩ :=
    State.first_init.request Nat.one_pos () build ok admits
  exact ⟨s, b, run, inv, by rw [phase, Function.update_self], live, bytes, origin, sole.own⟩

/-! ### A chunk changes hands -/

/-- Chunks are handed over settled, and blocks are freed at home. -/
def Tidy (n : Nat) (s : State T) (act : Act T) : Prop :=
  Supplied n s act ∧ Orderly s act ∧ Domestic s act

/-- **The only block of a process is freed** by its own thread. -/
theorem Inv.frees_only (inv : Inv n s) (idle : s.phase t = .idle) (build : Build) {b : Block (Index T)}
    (live : s.live = [b]) (origin : b.origin = .pool (t, i)) (sole : Sole t i c s) :
    b.base = blockAt (classSize i) c 0 ∧ ∃ s', s.step build (.free t b.ptr) = some s' ∧
      Tidy n s (.free t b.ptr) ∧ Inv n s' ∧ s'.phase = s.phase ∧ s'.live = [] ∧
      s'.freedBy (blockAt (classSize i) c 0) = some t ∧ Sole t i c s' := by
  have member : b ∈ s.live := by
    rw [live]
    exact List.mem_singleton_self b
  obtain ⟨here, _⟩ := inv.housing.in_pool member origin
  -- the block is the one that was carved from the chunk
  have base : b.base = blockAt (classSize i) c 0 := by
    obtain ⟨k, _, carved⟩ := inv.housing.family.carved_live here
    rw [inv.size] at carved
    unfold Layout.carved at carved
    rw [sole] at carved
    split at carved
    · simpa [Chunk.blocks] using carved
    · exact absurd carved List.not_mem_nil
  refine ⟨base, ?_⟩
  obtain ⟨s', next, freed, after, frees⟩ := inv.frees_live idle build member
  refine ⟨s', next, ⟨trivial, trivial, fun d held _ k from_ => ?_⟩, after, frees.phase, ?_, ?_, ?_⟩
  · rw [live, List.mem_singleton] at held
    rw [held, origin] at from_
    cases from_
    rfl
  · rw [frees.live, live, List.erase_cons_head]
  all_goals
    unfold State.freeWith at freed
    split at freed <;> cases freed
  · show Function.update s.freedBy b.base (some t) _ = _
    rw [base, Function.update_self]
  · intro k
    rw [← sole k]
    show (s.returned t b.base b.origin k).chunks = _
    rw [origin]
    exact Family.moved_chunks ..

/-- **A thread exits** whose blocks were freed. -/
theorem Inv.leaves (inv : Inv n s) (idle : s.phase t = .idle) (build : Build) (live : s.live = [])
    {order : List SizeClass} (perm : order.Perm (List.finRange 25)) :
    s.step build (.exit t order) = some (s.close t order) ∧ Tidy n s (.exit t order) ∧
      Inv n (s.close t order) := by
  have exits : s.step build (.exit t order) = some (s.close t order) :=
    Moves.step (.exit idle perm)
  have tidy : Tidy n s (.exit t order) := ⟨trivial, trivial, fun b held => by
    rw [live] at held
    exact absurd held List.not_mem_nil⟩
  exact ⟨exits, tidy, inv.orderly_step tidy.1 tidy.2.1 exits⟩

/-- The walk of a free list takes no chunk. -/
theorem Sole.close (sole : Sole t i c s) (later : List SizeClass) :
    Sole t i c (s.close t (i :: later)) := fun k => by
  rw [← sole k]
  show (Function.update s.ghost.layout (t, i) _ k).chunks = _
  by_cases own : k = (t, i)
  · rw [own, Function.update_self]
  · rw [Function.update_of_ne own]

/-- **A thread hands over the only chunk**: its block was freed. -/
theorem Inv.hands_only (inv : Inv n s) (build : Build) {later : List SizeClass}
    (closing : s.phase t = .closing i later) (sole : Sole t i c s)
    (freed : s.freedBy (blockAt (classSize i) c 0) = some t) :
    ∃ s', (machine T build n).Exec (Tidy n) s [.unlink t, .push t] s' ∧ Inv n s' ∧
      s'.phase = s.phase ∧ s'.live = s.live ∧ s'.freeHead = c ∧
      ∀ k, (s'.ghost.layout k).chunks = [] := by
  have head : ((s.pool t).tlsPool i).head_ = c := by
    have first := (inv.represents (t, i)).head sole.own
    rwa [view_head] at first
  have positive : c ≠ 0 := by
    have here : At s c (.chain (t, i)) := by
      rw [at_chain]
      unfold Layout.bases
      rw [sole.own]
      exact List.mem_singleton_self c
    have space := inv.chunk_space here
    omega
  -- what was carved from the chunk was freed by the thread, which is leaving
  have settled : Settled s c i := by
    intro b carved
    have here : (⟨c, 1⟩ : Chunk) ∈ (s.ghost.layout (t, i)).chunks := by
      rw [sole.own]
      exact List.mem_singleton_self _
    have member := (inv.carvedFrom_iff here).mp carved
    have only : b = blockAt (classSize i) c 0 := by simpa [Chunk.blocks] using member
    exact ⟨t, by rw [only]; exact freed, inv.closing_closed closing⟩
  let s₁ := s.unlinkHead t i later
  have unlinks : s.step build (.unlink t) = some s₁ :=
    Moves.step (.unlink closing (by rw [head]; exact positive))
  have tidy : Tidy n s (.unlink t) := by
    refine ⟨trivial, fun j others here _ => ?_, trivial⟩
    rw [closing] at here
    cases here
    rw [head]
    exact settled
  have inv₁ : Inv n s₁ := inv.orderly_step tidy.1 tidy.2.1 unlinks
  have handing : s₁.phase t = .handing i later c := by
    show Function.update s.phase t _ t = _
    rw [Function.update_self, head]
  have pushes : s₁.step build (.push t) = some (s₁.pushed t i later c) :=
    Moves.step (.push handing)
  have tidy₁ : Tidy n s₁ (.push t) := ⟨trivial, trivial, trivial⟩
  refine ⟨_, .cons tidy unlinks (.single tidy₁ pushes), inv₁.orderly_step tidy₁.1 tidy₁.2.1 pushes,
    ?_, rfl, rfl, fun k => ?_⟩
  · show Function.update (Function.update s.phase t _) t _ = _
    rw [Function.update_idem, ← closing, Function.update_eq_self]
  · show (Function.update s.ghost.layout (t, i) _ k).chunks = []
    by_cases own : k = (t, i)
    · rw [own, Function.update_self]
      show (s.ghost.layout (t, i)).chunks.tail = []
      rw [sole.own]
      rfl
    · rw [Function.update_of_ne own, sole, if_neg own]

/-- A class without chunks is destroyed. -/
theorem Inv.closes_empty (inv : Inv n s) (build : Build) {later : List SizeClass}
    (closing : s.phase t = .closing i later) (none_ : ∀ k, (s.ghost.layout k).chunks = []) :
    s.step build (.unlink t) = some (s.close t later) ∧ Tidy n s (.unlink t) ∧
      Inv n (s.close t later) ∧ ∀ k, ((s.close t later).ghost.layout k).chunks = [] := by
  have null : ((s.pool t).tlsPool i).head_ = 0 := by
    have empty := (inv.represents (t, i)).head_null.mpr (none_ (t, i))
    rwa [view_head] at empty
  have closes : s.step build (.unlink t) = some (s.close t later) :=
    Moves.step (.close closing null)
  have tidy : Tidy n s (.unlink t) := by
    refine ⟨trivial, fun j others here some_ => ?_, trivial⟩
    rw [closing] at here
    cases here
    exact absurd null some_
  refine ⟨closes, tidy, inv.orderly_step tidy.1 tidy.2.1 closes, fun k => ?_⟩
  cases later with
  | nil => exact none_ k
  | cons j rest =>
    show (Function.update s.ghost.layout (t, j) _ k).chunks = []
    by_cases own : k = (t, j)
    · rw [own, Function.update_self]
      exact none_ (t, j)
    · rw [Function.update_of_ne own]
      exact none_ k

/-- **The classes that are left are destroyed**: none of them has a chunk. -/
theorem Inv.leaves_rest (build : Build) (later : List SizeClass) : ∀ {s : State T} {i : SizeClass},
    Inv n s → s.phase t = .closing i later → (∀ k, (s.ghost.layout k).chunks = []) →
    ∃ s', (machine T build n).Exec (Tidy n) s (List.replicate (later.length + 1) (.unlink t)) s' ∧
      Inv n s' ∧ s'.phase = Function.update s.phase t .exited ∧ s'.live = s.live ∧
      s'.freeHead = s.freeHead ∧ ∀ k, (s'.ghost.layout k).chunks = [] := by
  induction later with
  | nil =>
    intro s i inv closing none_
    obtain ⟨closes, tidy, after, empty⟩ := inv.closes_empty build closing none_
    exact ⟨_, .single tidy closes, after, rfl, rfl, rfl, empty⟩
  | cons j later ih =>
    intro s i inv closing none_
    obtain ⟨closes, tidy, after, empty⟩ := inv.closes_empty build closing none_
    obtain ⟨s', run, inv', phase, live, freeHead, empty'⟩ := ih after (Function.update_self ..) empty
    refine ⟨s', .cons tidy closes run, inv', ?_, live, freeHead, empty'⟩
    rw [phase]
    show Function.update (Function.update s.phase t _) t _ = _
    rw [Function.update_idem]

/-- A thread starts and requests 100 bytes, with a chunk on the free stack. -/
def taking (u : T) : List (Act T) := [.start u, .pop u 100 ⟨1, 0, 0⟩, .finish u]

/-- **A thread that starts is given the chunk of the free stack** for its first request. -/
theorem Inv.takes_over (inv : Inv n s) (absent : s.phase u = .absent) (build : Build)
    (live : s.live = []) (freeHead : s.freeHead = c) (positive : 0 < c)
    (none_ : ∀ k, (s.ghost.layout k).chunks = []) :
    ∃ s' b, (machine T build n).Exec (Tidy n) s (taking u) s' ∧
      Inv n s' ∧ s'.phase = Function.update s.phase u .idle ∧ s'.live = [b] ∧ b.bytes = 100 ∧
      b.origin = .pool (u, classOf 164) ∧ Sole u (classOf 164) c s' := by
  have width : widened 100 = 164 := by decide
  let s₁ := s.goto u .idle
  let s₂ := s₁.popped u 100 ⟨1, 0, 0⟩
  have here₁ : s₁.phase u = .idle := Function.update_self ..
  have here₂ : s₂.phase u = .granted 100 ⟨1, 0, 0⟩ c := by
    show Function.update s₁.phase u _ u = _
    rw [Function.update_self]
    exact congrArg _ freeHead
  have need : NeedsChunk (s₁.pool u) s₁.mem 100 := by
    show NeedsChunk (s.pool u) s.mem 100
    rw [(inv.stands u).absent absent]
    exact ⟨by decide, rfl, .inl rfl⟩
  have first : s.step build (.start u) = some s₁ := Moves.step (.start absent)
  have some_ : s₁.freeHead ≠ 0 := by
    show s.freeHead ≠ 0
    omega
  have second : s₁.step build (.pop u 100 ⟨1, 0, 0⟩) = some s₂ :=
    Moves.step (.popped here₁ need some_)
  have tidy : Tidy n s (.start u) := ⟨trivial, trivial, trivial⟩
  have tidy₁ : Tidy n s₁ (.pop u 100 ⟨1, 0, 0⟩) := by
    refine ⟨?_, trivial, trivial⟩
    show (100 : Nat) ≤ 2 ^ 64 - 65
    decide
  have tidy₂ : Tidy n s₂ (.finish u) := ⟨trivial, trivial, trivial⟩
  have inv₁ : Inv n s₁ := inv.orderly_step tidy.1 tidy.2.1 first
  have inv₂ : Inv n s₂ := inv₁.orderly_step tidy₁.1 tidy₁.2.1 second
  obtain ⟨s', b, third, after, serves, bytes, origin, layout⟩ := inv₂.finish here₂ build
  rw [width] at origin layout
  refine ⟨s', b, .cons tidy first (.cons tidy₁ second (.single tidy₂ third)), after, ?_, ?_, bytes,
    origin, ?_⟩
  · rw [serves.phase]
    show Function.update (Function.update (Function.update s.phase _ _) _ _) _ _ = _
    rw [Function.update_idem, Function.update_idem]
  · rw [serves.live]
    show b :: s.live = [b]
    rw [live]
  · refine Sole.served none_ ?_ layout
    have shut : ¬ (s.phase u).Open (classOf 164) := by
      rw [absent]
      exact id
    exact inv.frees_nil shut

/-- The order in which a thread destroys its classes: the one that has a chunk first. -/
def exitOrder : List SizeClass := classOf 164 :: (List.finRange 25).erase (classOf 164)

theorem exitOrder_perm : exitOrder.Perm (List.finRange 25) :=
  (List.perm_cons_erase (List.mem_finRange (classOf 164))).symm

/-- A thread requests 100 bytes and frees them. -/
def borrowing (t : T) (c : Nat) : List (Act T) := firstRequest t ++ [.free t (c + 64)]

/-- Its classes are destroyed, and its chunk goes to the free stack. -/
def retiring (t : T) : List (Act T) := [.unlink t, .push t] ++ List.replicate 25 (.unlink t)

/-- A thread borrows a block and exits, and another thread is given its chunk. -/
def recycling (t u : T) (c : Nat) : List (Act T) :=
  borrowing t c ++ .exit t exitOrder :: (retiring t ++ taking u)

/-- **A chunk changes hands.** -/
structure Recycles (build : Build) (n : Nat) (t u : T) (start freed gone s : State T)
    (b : Block (Index T)) : Prop where
  borrows : (machine T build n).Exec (Tidy n) start (borrowing t start.ptr_) freed
  idle : freed.phase t = .idle
  chunk : Sole t (classOf 164) start.ptr_ freed
  exits : freed.step build (.exit t exitOrder) = some (freed.close t exitOrder)
  tidy : Tidy n freed (.exit t exitOrder)
  retires : (machine T build n).Exec (Tidy n) (freed.close t exitOrder) (retiring t) gone
  absent : gone.phase u = .absent
  freeHead : gone.freeHead = start.ptr_
  takes : (machine T build n).Exec (Tidy n) gone (taking u) s
  inv : Inv n s
  exited : s.phase t = .exited
  taker : s.phase u = .idle
  live : s.live = [b]
  bytes : b.bytes = 100
  origin : b.origin = .pool (u, classOf 164)
  sole : Sole u (classOf 164) start.ptr_ s

theorem Recycles.run {start freed gone s : State T} {b : Block (Index T)}
    (recycles : Recycles build n t u start freed gone s b) :
    (machine T build n).Exec (Tidy n) start (recycling t u start.ptr_) s :=
  recycles.borrows.append (.cons recycles.tidy recycles.exits (recycles.retires.append recycles.takes))

theorem State.Init.recycles {start : State T} (initial : State.Init n start) (positive : 0 < n)
    (apart : t ≠ u) (build : Build) :
    ∃ freed gone s b, Recycles build n t u start freed gone s b := by
  obtain ⟨s₁, b₁, run₁, inv₁, phase₁, live₁, _, origin₁, sole₁⟩ :=
    initial.request positive t build (Tidy n) fun s act member supplied => by
      simp only [firstRequest, List.mem_cons, List.not_mem_nil, or_false] at member
      rcases member with rfl | rfl | rfl | rfl <;> exact ⟨supplied, trivial, trivial⟩
  have idle₁ : s₁.phase t = .idle := by rw [phase₁, Function.update_self]
  obtain ⟨base, s₂, frees, tidy, inv₂, phase₂, live₂, freed, sole₂⟩ :=
    inv₁.frees_only idle₁ build live₁ origin₁ sole₁
  have ptr : b₁.ptr = start.ptr_ + 64 := by
    have shape := (inv₁.housing.shape b₁ (by rw [live₁]; exact List.mem_singleton_self b₁)).1
    rw [base] at shape
    unfold blockAt poolHeader at shape
    omega
  rw [ptr] at frees tidy
  have idle₂ : s₂.phase t = .idle := by rw [phase₂, idle₁]
  obtain ⟨exits, allowed, left⟩ := inv₂.leaves idle₂ build live₂ exitOrder_perm
  have closing : (s₂.close t exitOrder).phase t
      = .closing (classOf 164) ((List.finRange 25).erase (classOf 164)) := Function.update_self ..
  obtain ⟨s₃, run₃, inv₃, phase₃, live₃, freeHead₃, none₃⟩ :=
    left.hands_only build closing (sole₂.close _) freed
  obtain ⟨s₄, run₄, inv₄, phase₄, live₄, freeHead₄, none₄⟩ :=
    Inv.leaves_rest build _ inv₃ (by rw [phase₃]; exact closing) none₃
  have absent : s₄.phase u = .absent := by
    rw [phase₄, phase₃, Function.update_of_ne apart.symm]
    show Function.update s₂.phase t _ u = .absent
    rw [Function.update_of_ne apart.symm, phase₂, phase₁, Function.update_of_ne apart.symm]
    exact initial.phase u
  obtain ⟨s₅, b, run₅, inv₅, phase₅, live₅, bytes, origin, sole⟩ := inv₄.takes_over absent build
    (live₄.trans (live₃.trans live₂)) (freeHead₄.trans freeHead₃) initial.base none₄
  have length : ((List.finRange 25).erase (classOf 164)).length + 1 = 25 := by
    rw [List.length_erase_of_mem (List.mem_finRange _), List.length_finRange]
  rw [length] at run₄
  exact ⟨s₂, s₄, s₅, b, {
    borrows := run₁.snoc tidy frees
    idle := idle₂
    chunk := sole₂
    exits := exits
    tidy := allowed
    retires := run₃.append run₄
    absent := absent
    freeHead := freeHead₄.trans freeHead₃
    takes := run₅
    inv := inv₅
    exited := by rw [phase₅, Function.update_of_ne apart, phase₄, Function.update_self]
    taker := by rw [phase₅, Function.update_self]
    live := live₅
    bytes := bytes
    origin := origin
    sole := sole }⟩

/-- A process of two threads, with a reservation of one chunk at `2 ^ 30`. -/
def State.pair : State Bool :=
  ⟨fun _ => .absent, fun _ => .init, fun _ => 0, 2 ^ 30, 2 ^ 30, 0, [], fun _ => none,
    ⟨fun _ => .empty, []⟩⟩

theorem State.pair_init : State.Init 1 State.pair := by
  refine ⟨by decide, by decide, rfl, rfl, fun _ => rfl, fun _ => rfl, rfl, fun _ => rfl, fun _ => rfl, rfl⟩

/-- The one thread requests 100 bytes, frees them and exits; the other one is given its chunk. -/
def pairCalls : List (Act Bool) := recycling true false (2 ^ 30)

theorem pair_recycles (build : Build) :
    ∃ freed gone s b, Recycles build 1 true false State.pair freed gone s b :=
  State.pair_init.recycles Nat.one_pos (by decide) build

/-! ### The result -/

/-- **What thread exit promises in a state.** -/
structure ExitSafe (s : State T) : Prop where
  /-- Nothing in a chunk in the hand of `free_chunk` is live, or on a free list. -/
  handed : ∀ t i later c, s.phase t = .handing i later c → ∀ b, Within c kDefaultChunkSize b →
    (∀ block ∈ s.live, block.base ≠ b) ∧
    ∀ u j, (s.phase u).Open j → ¬ OnList s.mem ((s.pool u).tlsPool j).free_ b
  /-- Live blocks do not overlap. -/
  apart : s.live.Pairwise fun b c => Apart b.base (blockSize b.bytes) c.base (blockSize c.bytes)

/-- **Thread exit hands over only what is not in use exactly when its chunks are settled**: for every
run of any threads, each hand-over retires its chunk if and only if each finds it settled. In the state
such a run reaches, nothing in a chunk in the hand of `free_chunk` is in use, and no two live blocks
overlap. -/
theorem exit_reclaims (build : Build) (n : Nat) (start s : State T) (acts : List (Act T))
    (initial : State.Init n start) :
    ((machine T build n).Exec (fun s act => Supplied n s act ∧ Retires s act) start acts s ↔
      (machine T build n).Exec (fun s act => Supplied n s act ∧ Orderly s act) start acts s) ∧
    ((machine T build n).Exec (fun s act => Supplied n s act ∧ Orderly s act) start acts s →
      ExitSafe s) := by
  have base := Inv.init initial
  have step : ∀ s act s', Inv n s → Supplied n s act ∧ Orderly s act →
      (machine T build n).step s act = some s' → Inv n s' :=
    fun s act s' inv admitted next => inv.orderly_step admitted.1 admitted.2 next
  refine ⟨?_, fun run => ?_⟩
  · exact (Machine.Exec.congr (I := Inv n) step
      (fun s act inv => and_congr_right fun _ => (inv.retires_iff act).symm) base).symm
  · have inv := run.preserves step base
    refine ⟨fun t i later c handing b within => ?_, inv.housing.apart⟩
    refine inv.handed (t := t) ?_ within
    rw [at_hand, handing]
    rfl

/-- A thread frees its block and exits, and another one is given the chunk: what such a run promises. -/
theorem exit_reclaims_pair : ∃ s : State Bool, s.phase true = .exited ∧
    (∃ b, s.live = [b] ∧ b.origin = .pool (false, classOf 164)) ∧
    (machine Bool .debug 1).Exec (fun s act => Supplied 1 s act ∧ Orderly s act) State.pair pairCalls s ∧
    ((machine Bool .debug 1).Exec (fun s act => Supplied 1 s act ∧ Retires s act) State.pair pairCalls s ↔
      (machine Bool .debug 1).Exec (fun s act => Supplied 1 s act ∧ Orderly s act) State.pair
        pairCalls s) ∧ ExitSafe s := by
  obtain ⟨_, _, s, b, recycles⟩ := pair_recycles .debug
  have orderly : (machine Bool .debug 1).Exec (fun s act => Supplied 1 s act ∧ Orderly s act) State.pair
      pairCalls s := recycles.run.mono fun s act tidy => ⟨tidy.1, tidy.2.1⟩
  obtain ⟨same, safe⟩ := exit_reclaims .debug 1 State.pair s pairCalls State.pair_init
  exact ⟨s, recycles.exited, ⟨b, recycles.live, recycles.origin⟩, orderly, same, safe orderly⟩

/-- **A live block goes with its chunk**: a thread requests 100 bytes and exits, and at the first
hand-over the block is still live. -/
theorem exit_reclaims_live : ¬ ∀ s : State Unit,
    (machine Unit .release 1).Reachable (Supplied 1) s → ∀ act, Retires s act := by
  intro claim
  obtain ⟨s, b, run, inv, idle, live, _, origin, chunks⟩ :=
    first_request .release (Supplied 1) fun _ _ _ supplied => supplied
  -- the class of the block is destroyed first
  let i := classOf 164
  let later := (List.finRange 25).erase i
  have perm : (i :: later).Perm (List.finRange 25) :=
    (List.perm_cons_erase (List.mem_finRange i)).symm
  have exits : s.step .release (.exit () (i :: later)) = some (s.close () (i :: later)) :=
    Moves.step (.exit idle perm)
  have free : Supplied 1 s (.exit () (i :: later)) := trivial
  have reached : (machine Unit .release 1).Reachable (Supplied 1) (s.close () (i :: later)) :=
    ⟨State.first, _, State.first_init, run.snoc free exits⟩
  have after := inv.step free (by simp) exits
  have closing : (s.close () (i :: later)).phase () = .closing i later := by
    show Function.update s.phase () _ () = _
    rw [Function.update_self]
    rfl
  have chunks' : ((s.close () (i :: later)).ghost.layout ((), i)).chunks = [⟨2 ^ 30, 1⟩] := by
    show (Function.update s.ghost.layout ((), i) _ ((), i)).chunks = _
    rw [Function.update_self]
    exact chunks
  have head : (((s.close () (i :: later)).pool ()).tlsPool i).head_ = 2 ^ 30 := by
    have first := (after.represents ((), i)).head chunks'
    rwa [view_head] at first
  have retired := claim _ reached (.unlink ()) i later closing (by rw [head]; decide)
  rw [head] at retired
  have unclaimed := (after.retired_iff (after.closing_closed closing) chunks').mp retired
  -- the block is the only one of the chunk, and it is live
  have held : b ∈ (s.close () (i :: later)).live := by
    show b ∈ s.live
    rw [live]
    exact List.mem_singleton.mpr rfl
  obtain ⟨here, _⟩ := after.housing.in_pool held origin
  obtain ⟨k, size, carved⟩ := after.housing.family.carved_live here
  rw [after.size, after.size] at size
  have class_ : k = ((), i) := Prod.ext rfl (classSize_injective size)
  rw [class_, after.size] at carved
  unfold Layout.carved at carved
  rw [chunks'] at carved
  refine unclaimed _ _ chunks' ((), i) b.base (List.mem_append_right _ here) ?_
  simpa using carved

end NpAlloc.Threads
