/-
**One thread allocates, another frees.**

A block goes to the free list of the thread that frees it, and stays there: `dealloc` gives nothing back
to the global pool. A thread that allocates what another one frees finds its own list empty every time,
and carves a new block.

* `Rounds` — after so many rounds of one request and one `np_free`;
* `Rounds.request`, `Rounds.round` — a round more;
* **`handoff_grows`** — with never more than one live block, the chunks in the chain of the one thread,
  and the list of the other, grow with the number of rounds, as long as the reservation lasts.
-/

import NpAlloc.Threads.Footprint

set_option linter.unusedSectionVars false

namespace NpAlloc.Threads

open Mmap Pool

variable {T : Type} [DecidableEq T] {s s' : State T} {n : Nat} {t u : T} {i : SizeClass}
  {build : Build} {bytes : Nat} {info : Meta}

theorem two_le_blocksPerChunk (i : SizeClass) : 2 ≤ blocksPerChunk i := by
  have bounds := classSize_bounds i
  unfold blocksPerChunk poolHeader kDefaultChunkSize
  rw [Nat.le_div_iff_mul_le (by omega)]
  omega

/-- Chunks are handed over settled, and at most one block is live. -/
def Thrifty (n : Nat) (s : State T) (act : Act T) : Prop :=
  (Supplied n s act ∧ Orderly s act) ∧ s.live.length ≤ 1

/-! ### Rounds -/

/-- **After `r` rounds**: every chunk is in the chain of `t`, every block on the list of `u`. -/
structure Rounds (n : Nat) (t u : T) (i : SizeClass) (r : Nat) (s : State T) : Prop where
  inv : Inv n s
  producer : s.phase t = .idle
  consumer : s.phase u = .idle
  live : s.live = []
  stack : s.freeHead = 0
  frontier : s.head_ = chunkAt s.ptr_ (s.ghost.layout (t, i)).chunks.length
  counted : Counted i (s.ghost.layout (t, i)) (r, r)
  freed : (s.ghost.layout (u, i)).frees.length = r

/-- The request of a round is out. -/
structure Lent (n : Nat) (t u : T) (i : SizeClass) (r : Nat) (s : State T) : Prop where
  inv : Inv n s
  producer : s.phase t = .idle
  consumer : s.phase u = .idle
  live : ∃ b, s.live = [b] ∧ b.origin = .pool (t, i)
  stack : s.freeHead = 0
  frontier : s.head_ = chunkAt s.ptr_ (s.ghost.layout (t, i)).chunks.length
  counted : Counted i (s.ghost.layout (t, i)) (r + 1, r + 1)
  freed : (s.ghost.layout (u, i)).frees.length = r

theorem Counted.frees_nil {L : Layout} {r : Nat} (counted : Counted i L (r, r)) : L.frees = [] := by
  have balance := counted.balance
  simp only at balance
  exact List.length_eq_zero_iff.mp (by omega)

/-- **A chunk that is wanted is there**: all the chunks of the chain are full. -/
theorem Rounds.room {r : Nat} (rounds : Rounds n t u i r s) (fewer : r < n * blocksPerChunk i)
    (hungry : (s.ghost.layout (t, i)).hungry (classSize i) kDefaultChunkSize = true) :
    (s.ghost.layout (t, i)).chunks.length < n := by
  have shape := rounds.inv.shape t i
  have full : ∀ c ∈ (s.ghost.layout (t, i)).chunks, c.count = capacity (classSize i) kDefaultChunkSize := by
    have spent := shape.spent
    unfold Layout.hungry at hungry
    rw [Bool.and_eq_true] at hungry
    cases head : (s.ghost.layout (t, i)).chunks with
    | nil => exact fun c member => absurd member List.not_mem_nil
    | cons c rest =>
      rw [head] at spent
      have test := hungry.2
      unfold Layout.full at test
      simp only [head] at test
      intro d member
      rcases List.mem_cons.mp member with rfl | later
      · exact of_decide_eq_true test
      · exact spent d later
  have blocks := Layout.full_blocks full
  have carved : ((s.ghost.layout (t, i)).carved (classSize i)).length = r := rounds.counted.carved
  unfold Layout.carved at carved
  rw [carved] at blocks
  by_contra many
  have le : n ≤ (s.ghost.layout (t, i)).chunks.length := by omega
  have more := Nat.mul_le_mul_right (blocksPerChunk i) le
  have same : capacity (classSize i) kDefaultChunkSize = blocksPerChunk i := rfl
  rw [same] at blocks
  omega

/-- **The block of a round is served**, whatever chunk it comes from. -/
theorem Rounds.lent {r : Nat} (rounds : Rounds n t u i r s) (apart : t ≠ u) {act : Act T} {before : State T}
    {chunk malloc : Nat} {b : Block (Index T)} (inv : Inv n before) (after : Inv n s')
    (pools : before.ghost = s.ghost) (phases : before.phase = Function.update s.phase t (before.phase t))
    (placed : Placed before s' t chunk malloc bytes info b)
    (supplied : Supplied n before act) (next : before.step build act = some s')
    (small : widened bytes ≤ maxAllocSize getAllocSizeList) (class_ : classOf (widened bytes) = i)
    (takes_ : takes t i (before, act) = true) (lives : before.live = [])
    (stack : s'.freeHead = 0)
    (frontier : s'.head_ = chunkAt s'.ptr_ (s'.ghost.layout (t, i)).chunks.length) :
    Lent n t u i r s' := by
  obtain ⟨origin, _, layout⟩ := placed.small small
  rw [class_] at origin layout
  have producer : s'.phase t = .idle := by
    rw [placed.phase, Function.update_self]
  have usable : Usable s' t i := by
    refine .inl ?_
    rw [producer]
    trivial
  obtain ⟨_, moved⟩ := moved_step inv supplied after next usable
  have counted : Counted i (before.ghost.layout (t, i)) (r, r) := by
    rw [pools]
    exact rounds.counted
  have tallied := moved.counted (inv.shape t i) (class_large i) counted
  have step : tally t i ((r : Int), r) (before, act) = (((r + 1 : Nat) : Int), r + 1) := by
    unfold tally drift
    rw [if_pos takes_]
    ext
    · rfl
    · show max r ((r : Int) + 1).toNat = r + 1
      omega
  rw [step] at tallied
  refine ⟨after, producer, ?_, ⟨b, ?_, origin⟩, stack, frontier, tallied, ?_⟩
  · rw [placed.phase, Function.update_of_ne apart.symm, phases, Function.update_of_ne apart.symm]
    exact rounds.consumer
  · rw [placed.live, lives]
  · have other : s'.ghost.layout (u, i) = before.ghost.layout (u, i) := by
      rw [layout]
      refine Function.update_of_ne ?_ _ _
      intro same
      exact apart (Prod.mk.inj same).1.symm
    rw [other, pools]
    exact rounds.freed

/-- The chunks of a class after a block was served from it. -/
theorem served_chunks (s : State T) (t : T) (chunk : Nat) (i : SizeClass) :
    (s.served t chunk (.pool i) (t, i)).chunks.length
      = (s.ghost.layout (t, i)).chunks.length
        + ((s.ghost.layout (t, i)).hungry (classSize i) kDefaultChunkSize).toNat := by
  have bases := Layout.take_bases (s.ghost.layout (t, i)) (classSize i) kDefaultChunkSize chunk
  have served : s.served t chunk (.pool i) (t, i)
      = ((s.ghost.layout (t, i)).take (classSize i) kDefaultChunkSize chunk).2 :=
    Function.update_self ..
  rw [served]
  have lengths := congrArg List.length bases
  unfold Layout.bases at lengths
  rw [List.length_map] at lengths
  rw [lengths]
  cases (s.ghost.layout (t, i)).hungry (classSize i) kDefaultChunkSize with
  | false => exact List.length_map ..
  | true => exact congrArg (· + 1) (List.length_map ..)

/-- **A round begins**: the request is served, with a new chunk if the last one is full. -/
theorem Rounds.request {r : Nat} (rounds : Rounds n t u i r s) (apart : t ≠ u)
    (fewer : r < n * blocksPerChunk i) (build : Build) (info : Meta) (bound : bytes ≤ 2 ^ 64 - 65)
    (small : widened bytes ≤ maxAllocSize getAllocSizeList) (class_ : classOf (widened bytes) = i) :
    ∃ acts s', (machine T build n).Exec (Thrifty n) s acts s' ∧ Lent n t u i r s' := by
  have inv := rounds.inv
  have idle := rounds.producer
  have opens : ∀ j, (s.phase t).Open j := fun j => by
    rw [idle]
    trivial
  have none_ : s.live.length ≤ 1 := by
    rw [rounds.live]
    exact Nat.zero_le 1
  have ofClass : OfClass bytes i := ⟨small, class_⟩
  have lengths := served_chunks s t
  by_cases hungry : (s.ghost.layout (t, i)).hungry (classSize i) kDefaultChunkSize = true
  · -- a new chunk: the free stack is empty, and the frontier moves
    have few := rounds.room fewer hungry
    have need : NeedsChunk (s.pool t) s.mem bytes := by
      refine ⟨small, ?_⟩
      rw [class_]
      exact (inv.starved_iff (opens i)).mpr hungry
    let s₁ := s.goto t (.starved bytes info)
    let s₂ := s₁.advanced t bytes info
    have here₁ : s₁.phase t = .starved bytes info := Function.update_self ..
    have here₂ : s₂.phase t = .granted bytes info s.head_ := Function.update_self ..
    have first : s.step build (.pop t bytes info) = some s₁ :=
      Moves.step (.starved idle need rounds.stack)
    have second : s₁.step build (.advance t) = some s₂ := Moves.step (.advance here₁)
    have inside : s.head_ ≠ s.ptr_ + n * kDefaultChunkSize := by
      rw [rounds.frontier]
      unfold chunkAt kDefaultChunkSize
      omega
    have supplied₁ : Supplied n s (.pop t bytes info) := bound
    have supplied₂ : Supplied n s₁ (.advance t) := inside
    have inv₁ : Inv n s₁ := inv.orderly_step supplied₁ trivial first
    have inv₂ : Inv n s₂ := inv₁.orderly_step supplied₂ trivial second
    obtain ⟨s', _, third, after, _, _, _, layout⟩ := inv₂.finish here₂ build
    obtain ⟨b, placed⟩ := inv₂.placed_finish here₂ third
    have supplied₃ : Supplied n s₂ (.finish t) := trivial
    have shared : Shared s₂ s' := by
      cases moves_of_step third with
      | finish _ served => exact allocWith_shared served
    refine ⟨[.pop t bytes info, .advance t, .finish t], s', ?_, ?_⟩
    · exact .cons ⟨⟨supplied₁, trivial⟩, none_⟩ first (.cons ⟨⟨supplied₂, trivial⟩, none_⟩ second
        (.single ⟨⟨supplied₃, trivial⟩, none_⟩ third))
    · refine rounds.lent apart inv₂ after rfl ?_ placed supplied₃ third small class_ ?_ rounds.live ?_ ?_
      · show Function.update (Function.update s.phase t _) t (.granted bytes info s.head_)
          = Function.update s.phase t (s₂.phase t)
        rw [Function.update_idem, here₂]
      · simp only [takes, here₂]
        exact decide_eq_true ⟨trivial, ofClass⟩
      · rw [shared.freeHead]
        exact rounds.stack
      · have fits : chunkAt s.ptr_ ((s.ghost.layout (t, i)).chunks.length + 1) < 2 ^ 64 := by
          have space := inv.reserved.space
          have less : ((s.ghost.layout (t, i)).chunks.length + 1) * kDefaultChunkSize
              ≤ n * kDefaultChunkSize := Nat.mul_le_mul_right _ few
          unfold chunkAt
          omega
        rw [shared.head, shared.ptr, layout, class_]
        show getChunkPtr s.ptr_ (getChunkIndex s.ptr_ s.head_ + 1) = chunkAt s.ptr_ _
        rw [rounds.frontier, next_chunkAt fits]
        refine congrArg (chunkAt s.ptr_) ?_
        have grown := lengths (chunkAt s.ptr_ (s.ghost.layout (t, i)).chunks.length) i
        rw [hungry] at grown
        exact grown.symm
  · -- the last chunk has room
    have fed : (s.ghost.layout (t, i)).hungry (classSize i) kDefaultChunkSize = false :=
      Bool.eq_false_of_not_eq_true hungry
    have spare : ¬ NeedsChunk (s.pool t) s.mem bytes := by
      rintro ⟨_, starved⟩
      rw [class_, inv.starved_iff (opens i)] at starved
      exact hungry starved
    obtain ⟨s', _, served, after, _, _, _, layout⟩ := inv.allocPool opens (fun _ => .error .aborted) 0 0
      info bound small (fun starving => by rw [class_] at starving; exact absurd starving hungry)
      fun _ => by rw [idle]; rfl
    have next : s.step build (.alloc t bytes info 0) = some s' :=
      Moves.step (.alloc idle spare served)
    have supplied : Supplied n s (.alloc t bytes info 0) := ⟨bound, fun large => by omega⟩
    obtain ⟨b, placed⟩ := inv.placed_alloc supplied next
    have shared := allocWith_shared served
    refine ⟨[.alloc t bytes info 0], s', .single ⟨⟨supplied, trivial⟩, none_⟩ next, ?_⟩
    refine rounds.lent apart inv after rfl (Function.update_eq_self t s.phase).symm placed supplied next
      small class_ ?_ rounds.live ?_ ?_
    · exact decide_eq_true ⟨rfl, ofClass⟩
    · rw [shared.freeHead]
      exact rounds.stack
    · rw [shared.head, shared.ptr, layout, class_, rounds.frontier]
      refine congrArg (chunkAt s.ptr_) ?_
      have same := lengths 0 i
      rw [fed] at same
      exact same.symm

/-- **A round ends**: the block goes to the list of the thread that frees it. -/
theorem Lent.returned {r : Nat} (lent : Lent n t u i r s) (apart : t ≠ u) (build : Build) :
    ∃ acts s', (machine T build n).Exec (Thrifty n) s acts s' ∧ Rounds n t u i (r + 1) s' := by
  obtain ⟨b, live, origin⟩ := lent.live
  have inv := lent.inv
  have member : b ∈ s.live := by
    rw [live]
    exact List.mem_cons_self
  obtain ⟨s', next, freed, after, _⟩ := inv.frees_live lent.consumer build member
  obtain ⟨c, member', ptr, _, released⟩ := inv.released next
  have same : c = b := by
    rw [live] at member'
    exact List.mem_singleton.mp member'
  subst same
  have shared := freeWith_shared freed
  have layout := released.layout
  rw [origin] at layout
  change s'.ghost.layout = Family.moved s.ghost.layout (t, i) (u, i) c.base at layout
  have chunks := Family.moved_chunks s.ghost.layout (t, i) (u, i) c.base (t, i)
  have own := Family.moved_frees s.ghost.layout (t, i) (u, i) c.base (t, i)
  have theirs := Family.moved_frees s.ghost.layout (t, i) (u, i) c.base (u, i)
  have different : (t, i) ≠ (u, i) := fun same => apart (Prod.mk.inj same).1
  rw [if_neg different, ← layout] at own
  rw [if_pos rfl, ← layout] at theirs
  rw [← layout] at chunks
  obtain ⟨carved, balance, used⟩ := lent.counted
  refine ⟨[.free u c.ptr], s', .single ⟨⟨trivial, trivial⟩, by rw [live]; exact le_rfl⟩ next, after,
    ?_, ?_, ?_, ?_, ?_, ⟨?_, ?_, ?_⟩, ?_⟩
  · rw [released.phase]
    exact lent.producer
  · rw [released.phase]
    exact lent.consumer
  · rw [released.live, live, List.erase_cons_head]
  · rw [shared.freeHead]
    exact lent.stack
  · rw [shared.head, shared.ptr, chunks]
    exact lent.frontier
  · unfold Layout.carved at carved ⊢
    rw [chunks]
    exact carved
  · rw [own]
    exact balance
  · rw [chunks]
    exact used
  · rw [theirs, List.length_cons, lent.freed]

/-- Both threads start. -/
theorem Rounds.zero {start : State T} (initial : State.Init n start) (apart : t ≠ u) (build : Build)
    (i : SizeClass) :
    ∃ acts s, (machine T build n).Exec (Thrifty n) start acts s ∧ Rounds n t u i 0 s := by
  let s₁ := start.goto t .idle
  let s₂ := s₁.goto u .idle
  have none_ : start.live.length ≤ 1 := by
    rw [initial.live]
    exact Nat.zero_le 1
  have first : start.step build (.start t) = some s₁ := Moves.step (.start (initial.phase t))
  have absent : s₁.phase u = .absent := by
    show Function.update start.phase t _ u = _
    rw [Function.update_of_ne apart.symm]
    exact initial.phase u
  have second : s₁.step build (.start u) = some s₂ := Moves.step (.start absent)
  have starts (s : State T) (t : T) : Supplied n s (.start t) ∧ Orderly s (.start t) := ⟨trivial, trivial⟩
  have inv₁ : Inv n s₁ := (Inv.init initial).keeps build n _ _ _ (starts start t) first
  have inv₂ : Inv n s₂ := inv₁.keeps build n _ _ _ (starts s₁ u) second
  have empty : ∀ k, s₂.ghost.layout k = .empty := initial.layout
  refine ⟨[.start t, .start u], s₂, .cons ⟨starts start t, none_⟩ first
    (.single ⟨starts s₁ u, none_⟩ second), inv₂, ?_, Function.update_self .., initial.live,
    initial.freeHead, ?_, ⟨?_, ?_, ?_⟩, ?_⟩
  · show Function.update s₁.phase u _ t = _
    rw [Function.update_of_ne apart]
    exact Function.update_self ..
  · rw [empty]
    show start.head_ = chunkAt start.ptr_ 0
    rw [initial.head, chunkAt_zero]
  · rw [empty]
    rfl
  · rw [empty]
    rfl
  · rw [empty]
    exact fun c member => absurd member List.not_mem_nil
  · rw [empty]
    rfl

/-- **Any number of rounds**, as long as the reservation lasts. -/
theorem Rounds.many {start : State T} (initial : State.Init n start) (apart : t ≠ u) (build : Build)
    (info : Meta) (bound : bytes ≤ 2 ^ 64 - 65) (small : widened bytes ≤ maxAllocSize getAllocSizeList)
    (class_ : classOf (widened bytes) = i) (r : Nat) (room : r ≤ n * blocksPerChunk i) :
    ∃ acts s, (machine T build n).Exec (Thrifty n) start acts s ∧ Rounds n t u i r s := by
  induction r with
  | zero => exact Rounds.zero initial apart build i
  | succ r ih =>
    obtain ⟨front, s, run, rounds⟩ := ih (by omega)
    obtain ⟨request, middle, asked, lent⟩ := rounds.request apart room build info bound small class_
    obtain ⟨reply, last, answered, more⟩ := lent.returned apart build
    exact ⟨front ++ request ++ reply, last, (run.append asked).append answered, more⟩

/-- **The footprint of a producer.** For any two threads and any small request there are runs, as long
as the reservation lasts, with at most one live block at every step and none at the end, after which the
one thread holds `⌈r / m⌉` chunks, all the chunks that were ever issued, and the list of the other `r`
blocks: one for each of the `r` requests. -/
theorem handoff_grows (build : Build) (n : Nat) (start : State T) (initial : State.Init n start) (t u : T)
    (apart : t ≠ u) (bytes : Nat) (info : Meta) (bound : bytes ≤ 2 ^ 64 - 65)
    (small : widened bytes ≤ maxAllocSize getAllocSizeList) (r : Nat)
    (room : r ≤ n * blocksPerChunk (classOf (widened bytes))) :
    ∃ acts s, (machine T build n).Exec (Thrifty n) start acts s ∧ s.live = [] ∧
      ∃ chain list,
        Linked (linkOf s.mem) (toPtr ((s.pool t).tlsPool (classOf (widened bytes))).head_) chain ∧
        chain.length = r ⌈/⌉ blocksPerChunk (classOf (widened bytes)) ∧
        s.head_ = chunkAt s.ptr_ chain.length ∧
        Linked (linkOf s.mem) (toPtr ((s.pool u).tlsPool (classOf (widened bytes))).free_) list ∧
        list.length = r := by
  obtain ⟨acts, s, run, rounds⟩ := Rounds.many initial apart build info bound small rfl r room
  have inv := rounds.inv
  have length : ∀ L : Layout, L.bases.length = L.chunks.length := fun L => List.length_map ..
  refine ⟨acts, s, run, rounds.live, (s.ghost.layout (t, classOf (widened bytes))).bases, _, ?_, ?_, ?_,
    ?_, rounds.freed⟩
  · rw [← view_head s (t, classOf (widened bytes))]
    exact (inv.represents (t, _)).chain
  · rw [length, (inv.shape t _).chunks_length (class_large _) rounds.counted.used, rounds.counted.carved]
    rfl
  · rw [length]
    exact rounds.frontier
  · have free := (inv.represents (u, classOf (widened bytes))).free
    rwa [view_open (by rw [rounds.consumer]; trivial)] at free

/-- Two threads on a reservation of one chunk: two requests of 100 bytes, handed over. -/
theorem handoff_grows_two : ∃ (start : State Bool) (acts : List (Act Bool)) (s : State Bool),
    (machine Bool .debug 1).Exec (Thrifty 1) start acts s ∧ s.live = [] ∧
    ∃ chain list, Linked (linkOf s.mem) (toPtr ((s.pool true).tlsPool (classOf (widened 100))).head_) chain ∧
      chain.length = 2 ⌈/⌉ blocksPerChunk (classOf (widened 100)) ∧
      s.head_ = chunkAt s.ptr_ chain.length ∧
      Linked (linkOf s.mem) (toPtr ((s.pool false).tlsPool (classOf (widened 100))).free_) list ∧
      list.length = 2 := by
  let start : State Bool := ⟨fun _ => .absent, fun _ => .init, fun _ => 0, 2 ^ 30, 2 ^ 30, 0, [],
    fun _ => none, ⟨fun _ => .empty, []⟩⟩
  have initial : State.Init 1 start :=
    ⟨by decide, by decide, rfl, rfl, fun _ => rfl, fun _ => rfl, rfl, fun _ => rfl, fun _ => rfl, rfl⟩
  have room : 2 ≤ 1 * blocksPerChunk (classOf (widened 100)) := by
    rw [Nat.one_mul]
    exact two_le_blocksPerChunk _
  exact ⟨start, handoff_grows .debug 1 start initial true false (by decide) 100 ⟨1, 0, 0⟩ (by decide)
    (by decide) 2 room⟩

end NpAlloc.Threads
