/-
**Where every chunk of `np::mmap` is.**

`Places s` is the structural invariant of the chunk pool: the frontier `head_` stands after exactly
the chunks issued so far, each issued to one call; and every issued chunk is owned by exactly one
party — the free stack or one thread, which has it among what its client holds, in the hand of its
call, or in what its walk has still to push back (`belongings`).

Most steps move no chunk, or move one between two lists of the same thread; `Places.shuffle` is the
rule for all of these. The three that are left are a step inside `free_head_` (`Places.internal`),
the issue of a new chunk (`Places.issue`), and a client's write (`Places.write`).
-/

import NpAlloc.Mmap.Concurrent

set_option linter.unusedSectionVars false

namespace NpAlloc.Mmap

variable {T : Type} [DecidableEq T] {s s' : State T} {t u : T}

/-! ### The invariant -/

/-- The function of `lf_stack` a program counter is inside. -/
def Pc.kind : Pc → LfStack.Kind
  | .allocPop => .pop
  | .freePush | .countPush _ _ => .push
  | .countDetach => .detach
  | _ => .idle

/-- The chunk a call has in hand outside `free_head_`. -/
def Pc.hand : Pc → List Nat
  | .allocReuse ptr | .newCommit ptr | .newCount ptr => [ptr]
  | .allocRet ptr => if ptr = 0 then [] else [ptr]
  | _ => []

/-- Where a walk of `for_each` goes on. -/
def Pc.cursor : Pc → Option Nat
  | .countWalk ptr _ => ptr
  | .countPush next _ => next
  | _ => none

/-- What a thread owns outside `free_head_`. -/
def outside (s : State T) (t : T) : List Nat :=
  s.ghost.held t ++ ((s.pc t).hand ++ s.ghost.rest t)

/-- **Everything a thread owns**: what its client holds and what its call has on the way. -/
def belongings (s : State T) (t : T) : List Nat :=
  outside s t ++ LfStack.hand s.freeHead t

/-- **The structural invariant.** -/
structure Places (s : State T) : Prop where
  stack : LfStack.Inv s.freeHead
  base : 0 < s.ptr_
  space : s.ptr_ + s.size_ < 2 ^ 64
  frontier : s.head_ = chunkAt s.ptr_ s.ghost.issued.length
  inside : s.head_ ≤ s.ptr_ + s.size_
  issued : s.ghost.issued.map Prod.snd = (List.range s.ghost.issued.length).map (chunkAt s.ptr_)
  born : ∀ chunk, s.freeHead.ghost.owner chunk ≠ .nobody ↔
    ∃ i < s.ghost.issued.length, chunk = chunkAt s.ptr_ i
  owned : ∀ t chunk, s.freeHead.ghost.owner chunk = .client t ↔ chunk ∈ belongings s t
  nodup : ∀ t, (belongings s t).Nodup
  kind : ∀ t, (s.freeHead.pc t).kind = (s.pc t).kind
  walk : ∀ t, Linked s.freeHead.next (s.pc t).cursor (s.ghost.rest t)
  next : ∀ t head next, s.pc t = .newCas head next →
    next = getChunkPtr s.ptr_ (getChunkIndex s.ptr_ head + 1)

namespace Places

/-- Outside a walk there is nothing left to push back. -/
theorem rest_nil (places : Places s) (here : (s.pc t).cursor = none) : s.ghost.rest t = [] := by
  have walk := places.walk t
  rw [here] at walk
  exact walk.eq_nil

/-- Outside `lf_stack` there is nothing in its hand. -/
theorem hand_nil (places : Places s) (idle : (s.pc t).kind = .idle) :
    LfStack.hand s.freeHead t = [] := by
  have kind := places.kind t
  rw [idle] at kind
  unfold LfStack.hand
  cases here : s.freeHead.pc t <;> simp_all [LfStack.Pc.kind, LfStack.Pc.hand]

theorem inner_idle (places : Places s) (idle : (s.pc t).kind = .idle) :
    s.freeHead.pc t = .idle := by
  have kind := places.kind t
  rw [idle] at kind
  cases here : s.freeHead.pc t <;> simp_all [LfStack.Pc.kind]

/-- Every chunk a thread owns is a chunk of the reservation, so it is not null. -/
theorem owned_pos (places : Places s) {chunk : Nat} (member : chunk ∈ belongings s t) :
    0 < chunk := by
  have client := (places.owned t chunk).mpr member
  obtain ⟨i, _, rfl⟩ := (places.born chunk).mp (by rw [client]; simp)
  have base := places.base
  unfold chunkAt
  omega

/-- The chunk in a call's hand is not null. -/
theorem hand_pos (places : Places s) {chunk : Nat} (member : chunk ∈ (s.pc t).hand) : chunk ≠ 0 := by
  have owned : 0 < chunk := places.owned_pos (t := t) (by simp [belongings, outside, member])
  omega

end Places

/-! ### What other threads can change -/

/-- What a step of another thread leaves alone of thread `u`. -/
structure Others (u : T) (s s' : State T) : Prop where
  inner : LfStack.Untouched u s.freeHead s'.freeHead
  back : ∀ chunk, s'.freeHead.ghost.owner chunk = .client u →
    s.freeHead.ghost.owner chunk = .client u
  pc : s'.pc u = s.pc u
  held : s'.ghost.held u = s.ghost.held u
  rest : s'.ghost.rest u = s.ghost.rest u

theorem Others.belongings_eq (same : Others u s s') : belongings s' u = belongings s u := by
  unfold belongings outside LfStack.hand
  rw [same.held, same.pc, same.rest, same.inner.pc, same.inner.taken]

theorem others_goto (pc : Pc) (other : u ≠ t) : Others u s (s.goto t pc) :=
  ⟨LfStack.Untouched.refl _, fun _ theirs => theirs, Function.update_of_ne other _ _, rfl, rfl⟩

theorem others_inner {freeHead : LfStack.State T Nat} (pc : Pc)
    (inner : LfStack.Untouched u s.freeHead freeHead)
    (owner : freeHead.ghost.owner = s.freeHead.ghost.owner) (other : u ≠ t) :
    Others u s (s.inner freeHead t pc) := by
  refine ⟨inner, ?_, Function.update_of_ne other _ _, rfl, rfl⟩
  intro chunk theirs
  rwa [← owner]

theorem Others.hold (same : Others u s s') (other : u ≠ t) (held : List Nat) :
    Others u s (s'.hold t held) :=
  ⟨same.inner, same.back, same.pc, (Function.update_of_ne other _ _).trans same.held, same.rest⟩

theorem Others.keep (same : Others u s s') (other : u ≠ t) (rest : List Nat) :
    Others u s (s'.keep t rest) :=
  ⟨same.inner, same.back, same.pc, same.held, (Function.update_of_ne other _ _).trans same.rest⟩

/-! ### The rules -/

/-- **The rule for one step.** The shared words and the stepping thread's part are given; the parts
of the other threads follow from `Others`. -/
theorem Places.of_step (places : Places s) (ptr : s'.ptr_ = s.ptr_) (size : s'.size_ = s.size_)
    (stack : LfStack.Inv s'.freeHead)
    (frontier : s'.head_ = chunkAt s'.ptr_ s'.ghost.issued.length)
    (inside : s'.head_ ≤ s'.ptr_ + s'.size_)
    (issued : s'.ghost.issued.map Prod.snd
      = (List.range s'.ghost.issued.length).map (chunkAt s'.ptr_))
    (born : ∀ chunk, s'.freeHead.ghost.owner chunk ≠ .nobody ↔
      ∃ i < s'.ghost.issued.length, chunk = chunkAt s'.ptr_ i)
    (others : ∀ u, u ≠ t → Others u s s')
    (mine : ∀ chunk, s'.freeHead.ghost.owner chunk = .client t ↔ chunk ∈ belongings s' t)
    (nodup : (belongings s' t).Nodup) (kind : (s'.freeHead.pc t).kind = (s'.pc t).kind)
    (walk : Linked s'.freeHead.next (s'.pc t).cursor (s'.ghost.rest t))
    (next : ∀ head next, s'.pc t = .newCas head next →
      next = getChunkPtr s'.ptr_ (getChunkIndex s'.ptr_ head + 1)) : Places s' := by
  refine ⟨stack, by rw [ptr]; exact places.base, by rw [ptr, size]; exact places.space, frontier,
    inside, issued, born, ?_, ?_, ?_, ?_, ?_⟩
  · intro u chunk
    by_cases same : u = t
    · rw [same]
      exact mine chunk
    · have frame := others u same
      rw [frame.belongings_eq, ← places.owned]
      exact ⟨frame.back chunk, frame.inner.owner chunk⟩
  · intro u
    by_cases same : u = t
    · rw [same]
      exact nodup
    · rw [(others u same).belongings_eq]
      exact places.nodup u
  · intro u
    by_cases same : u = t
    · rw [same]
      exact kind
    · rw [(others u same).inner.pc, (others u same).pc]
      exact places.kind u
  · intro u
    by_cases same : u = t
    · rw [same]
      exact walk
    · have frame := others u same
      rw [frame.pc, frame.rest]
      refine (places.walk u).congr fun chunk member => frame.inner.link chunk ?_
      refine (places.owned u chunk).mpr ?_
      unfold belongings outside
      simp only [List.mem_append]
      exact .inl (.inr (.inr member))
  · intro u head next' there
    by_cases same : u = t
    · rw [same] at there
      exact next head next' there
    · rw [(others u same).pc] at there
      rw [ptr]
      exact places.next u head next' there

/-- **The rule for a step that only moves chunks between the lists of one thread.** -/
theorem Places.shuffle (places : Places s) (ptr : s'.ptr_ = s.ptr_) (size : s'.size_ = s.size_)
    (head : s'.head_ = s.head_) (issued : s'.ghost.issued = s.ghost.issued)
    (stack : LfStack.Inv s'.freeHead) (owner : s'.freeHead.ghost.owner = s.freeHead.ghost.owner)
    (others : ∀ u, u ≠ t → Others u s s') (perm : (belongings s' t).Perm (belongings s t))
    (kind : (s'.freeHead.pc t).kind = (s'.pc t).kind)
    (walk : Linked s'.freeHead.next (s'.pc t).cursor (s'.ghost.rest t))
    (next : ∀ head next, s'.pc t = .newCas head next →
      next = getChunkPtr s'.ptr_ (getChunkIndex s'.ptr_ head + 1)) : Places s' := by
  refine places.of_step (t := t) ptr size stack ?_ ?_ ?_ ?_ others ?_ ?_ kind walk next
  · rw [head, ptr, issued]
    exact places.frontier
  · rw [head, ptr, size]
    exact places.inside
  · rw [ptr, issued]
    exact places.issued
  · intro chunk
    rw [owner, ptr, issued]
    exact places.born chunk
  · intro chunk
    rw [owner, places.owned, perm.mem_iff]
  · exact perm.nodup_iff.mpr (places.nodup t)

/-- A step of the program counter alone. -/
theorem Places.goto (places : Places s) (pc : Pc) (kind : pc.kind = (s.pc t).kind)
    (hand : pc.hand = (s.pc t).hand) (cursor : pc.cursor = (s.pc t).cursor)
    (next : ∀ head next, pc = .newCas head next →
      next = getChunkPtr s.ptr_ (getChunkIndex s.ptr_ head + 1)) : Places (s.goto t pc) := by
  have here : (s.goto t pc).pc t = pc := Function.update_self ..
  refine places.shuffle (t := t) rfl rfl rfl rfl places.stack rfl (fun u => others_goto pc) ?_ ?_ ?_ ?_
  · unfold belongings outside
    rw [here, hand]
    rfl
  · rw [here, kind]
    exact places.kind t
  · rw [here, cursor]
    exact places.walk t
  · rw [here]
    exact next

/-- The counters are no part of the structure. -/
theorem Places.counters (places : Places s) (alloc dealloc fromFree : BitVec 64) :
    Places { s with perfAlloc := alloc, perfDealloc := dealloc, perfAllocFromFree := fromFree } where
  __ := places

/-- **A step inside `free_head_`.** -/
theorem Places.internal (places : Places s) {freeHead : LfStack.State T Nat}
    (moved : LfStack.Internal s.freeHead t freeHead) : Places { s with freeHead := freeHead } := by
  have inv := places.stack
  have stack := inv.internal moved
  have apart := List.disjoint_of_nodup_append (places.nodup t)
  -- what the thread owns outside `free_head_` is not in its hand there
  have kept : ∀ chunk ∈ outside s t, s.freeHead.ghost.owner chunk = .client t ∧
      chunk ∉ LfStack.hand s.freeHead t := fun chunk member =>
    ⟨(places.owned t chunk).mpr (List.mem_append_left _ member), fun inHand => apart member inHand⟩
  have mine : ∀ chunk, freeHead.ghost.owner chunk = .client t ↔
      chunk ∈ outside s t ∨ chunk ∈ LfStack.hand freeHead t := by
    intro chunk
    rw [moved.owner_iff inv, places.owned, belongings, List.mem_append]
    constructor
    · rintro (⟨member | inHand, notHand⟩ | inHand)
      · exact .inl member
      · exact absurd inHand notHand
      · exact .inr inHand
    · rintro (member | inHand)
      · exact .inl ⟨.inl member, (kept chunk member).2⟩
      · exact .inr inHand
  refine places.of_step (t := t) rfl rfl stack places.frontier places.inside places.issued ?_ ?_ ?_
    ?_ ?_ ?_ (places.next t)
  · intro chunk
    rw [ne_eq, moved.nobody_iff inv]
    exact places.born chunk
  · intro u other
    exact ⟨moved.untouched inv other, fun _ theirs => moved.owner_other other theirs, rfl, rfl, rfl⟩
  · intro chunk
    rw [mine, belongings, List.mem_append]
    rfl
  · refine List.nodup_append.mpr ⟨(List.nodup_append.mp (places.nodup t)).1,
      LfStack.hand_nodup stack, ?_⟩
    rintro chunk member _ inHand rfl
    obtain ⟨client, notHand⟩ := kept chunk member
    rcases moved.hand_from inv inHand with before | free
    · exact notHand before
    · rw [client] at free
      cases free
  · rw [moved.kind]
    exact places.kind t
  · refine (places.walk t).congr fun chunk member => moved.next_eq ?_
    refine (kept chunk ?_).2
    unfold outside
    simp only [List.mem_append]
    exact .inr (.inr member)

/-- **A new chunk is issued** to the thread whose compare-exchange advances the frontier. -/
theorem Places.issue (places : Places s) {next : Nat} (here : s.pc t = .newCas s.head_ next)
    (bound : s.head_ + kDefaultChunkSize ≤ s.ptr_ + s.size_) : Places (s.issue t next) := by
  have inv := places.stack
  have space := places.space
  have count := chunkAt_succ s.ptr_ s.ghost.issued.length
  rw [← places.frontier] at count
  have after : next = chunkAt s.ptr_ (s.ghost.issued.length + 1) := by
    rw [places.next t _ next here, places.frontier]
    exact next_chunkAt (by omega)
  have idle := places.inner_idle (t := t) (by rw [here]; rfl)
  have unborn : s.freeHead.ghost.owner s.head_ = .nobody := by
    by_contra bornAlready
    obtain ⟨i, small, same⟩ := (places.born _).mp bornAlready
    rw [places.frontier] at same
    exact absurd (chunkAt_injective _ same) (by omega)
  have pc' : (s.issue t next).pc t = .newCommit s.head_ := Function.update_self ..
  have length : (s.issue t next).ghost.issued.length = s.ghost.issued.length + 1 := by
    simp [State.issue]
  have fresh : s.head_ ∉ belongings s t := by
    intro member
    rw [← places.owned, unborn] at member
    cases member
  have more : (belongings (s.issue t next) t).Perm (s.head_ :: belongings s t) := by
    unfold belongings outside
    rw [pc', here]
    show (s.ghost.held t ++ s.head_ :: s.ghost.rest t ++ LfStack.hand s.freeHead t).Perm
      (s.head_ :: (s.ghost.held t ++ s.ghost.rest t ++ LfStack.hand s.freeHead t))
    exact List.perm_middle.append_right _
  refine places.of_step (t := t) rfl rfl (inv.own idle (.inr unborn) (by simp)) ?_ ?_ ?_ ?_ ?_ ?_ ?_
    ?_ ?_ ?_
  · rw [length]
    exact after
  · show next ≤ s.ptr_ + s.size_
    omega
  · rw [length, List.range_succ, List.map_append]
    show (s.ghost.issued ++ [(t, s.head_)]).map Prod.snd = (List.range s.ghost.issued.length).map
      (chunkAt s.ptr_) ++ [chunkAt s.ptr_ s.ghost.issued.length]
    rw [← places.issued, ← places.frontier, List.map_append]
    rfl
  · intro chunk
    show Function.update s.freeHead.ghost.owner s.head_ (.client t) chunk ≠ .nobody ↔ _
    rw [length]
    by_cases same : chunk = s.head_
    · subst same
      rw [Function.update_self]
      exact ⟨fun _ => ⟨s.ghost.issued.length, by omega, places.frontier⟩, fun _ => by simp⟩
    · rw [Function.update_of_ne same, places.born]
      constructor
      · rintro ⟨i, small, rfl⟩
        exact ⟨i, by omega, rfl⟩
      · rintro ⟨i, small, rfl⟩
        refine ⟨i, ?_, rfl⟩
        rcases Nat.lt_succ_iff_lt_or_eq.mp small with lt | eq
        · exact lt
        · rw [eq] at same
          exact absurd places.frontier.symm same
  · intro u other
    refine ⟨LfStack.untouched_own (.inr unborn) other, ?_, Function.update_of_ne other _ _, rfl, rfl⟩
    intro chunk theirs
    change Function.update s.freeHead.ghost.owner s.head_ (.client t) chunk = .client u at theirs
    by_cases same : chunk = s.head_
    · subst same
      rw [Function.update_self, LfStack.Owner.client.injEq] at theirs
      exact absurd theirs.symm other
    · rwa [Function.update_of_ne same] at theirs
  · intro chunk
    show Function.update s.freeHead.ghost.owner s.head_ (.client t) chunk = .client t ↔ _
    rw [more.mem_iff, List.mem_cons]
    by_cases same : chunk = s.head_
    · subst same
      simp
    · rw [Function.update_of_ne same, places.owned]
      simp [same]
  · exact more.nodup_iff.mpr (List.nodup_cons.mpr ⟨fresh, places.nodup t⟩)
  · rw [pc']
    show (s.freeHead.pc t).kind = .idle
    rw [idle]
    rfl
  · have nothing := places.rest_nil (t := t) (by rw [here]; rfl)
    rw [pc']
    show Linked _ none (s.ghost.rest t)
    rw [nothing]
    rfl
  · rw [pc']
    intro head next' impossible
    cases impossible

/-- **A client's write to a chunk it holds.** -/
theorem Places.write (places : Places s) {chunk : Nat} {link : Option Nat} (here : s.pc t = .idle)
    (holds : chunk ∈ s.ghost.held t) :
    Places { s with freeHead := s.freeHead.link chunk link } := by
  have inv := places.stack
  have idle := places.inner_idle (t := t) (by rw [here]; rfl)
  have owner : s.freeHead.ghost.owner chunk = .client t := by
    rw [places.owned, belongings, outside]
    simp [holds]
  refine places.shuffle (t := t) rfl rfl rfl rfl (inv.link owner (by rw [idle]; trivial)) rfl ?_
    (List.Perm.refl _) (places.kind t) ?_ (places.next t)
  · intro u other
    exact ⟨LfStack.untouched_link inv owner other, fun _ theirs => theirs, rfl, rfl, rfl⟩
  · have nothing := places.rest_nil (t := t) (by rw [here]; rfl)
    show Linked _ _ (s.ghost.rest t)
    rw [nothing, here]
    rfl

/-- **A step that enters or leaves a function of `free_head_`**: the inner program counter moves, and
chunks move between the lists of the thread. -/
theorem Places.relay (places : Places s) {inner : LfStack.Pc Nat} {pc : Pc} {held rest : List Nat}
    (own : LfStack.PcInv s.freeHead t inner) (kind : inner.kind = pc.kind)
    (perm : (held ++ (pc.hand ++ rest) ++ inner.hand (s.freeHead.ghost.taken t)).Perm
      (belongings s t))
    (walk : Linked s.freeHead.next pc.cursor rest) (next : ∀ head next, pc ≠ .newCas head next) :
    Places (((s.inner (s.freeHead.goto t inner) t pc).hold t held).keep t rest) := by
  have here : (((s.inner (s.freeHead.goto t inner) t pc).hold t held).keep t rest).pc t = pc :=
    Function.update_self ..
  refine places.shuffle (t := t) rfl rfl rfl rfl (places.stack.goto inner own) rfl ?_ ?_ ?_ ?_ ?_
  · intro u other
    have frame : Others u s (s.inner (s.freeHead.goto t inner) t pc) :=
      others_inner pc (LfStack.untouched_goto inner other) rfl other
    exact (frame.hold other held).keep other rest
  · unfold belongings outside
    rw [here]
    simp only [State.keep, State.hold, State.inner, Function.update_self, LfStack.hand_goto]
    exact perm
  · rw [here]
    simp only [State.keep, State.hold, State.inner, LfStack.State.goto, Function.update_self]
    exact kind
  · rw [here]
    simp only [State.keep, Function.update_self]
    exact walk
  · rw [here]
    exact fun head next' same => absurd same (next head next')

/-! ### Every step -/

theorem belongings_at {pc : Pc} {inner : LfStack.Pc Nat} (here : s.pc t = pc)
    (there : s.freeHead.pc t = inner) :
    belongings s t = s.ghost.held t ++ (pc.hand ++ s.ghost.rest t)
      ++ inner.hand (s.freeHead.ghost.taken t) := by
  unfold belongings outside LfStack.hand
  rw [here, there]

theorem inner_hold {freeHead : LfStack.State T Nat} {pc : Pc} {held : List Nat} :
    ((s.inner freeHead t pc).hold t held).keep t (s.ghost.rest t)
      = (s.inner freeHead t pc).hold t held := by
  simp [State.keep, State.hold, State.inner]

theorem inner_keep {freeHead : LfStack.State T Nat} {pc : Pc} {rest : List Nat} :
    ((s.inner freeHead t pc).hold t (s.ghost.held t)).keep t rest
      = (s.inner freeHead t pc).keep t rest := by
  simp [State.keep, State.hold, State.inner]

theorem inner_same {freeHead : LfStack.State T Nat} {pc : Pc} :
    ((s.inner freeHead t pc).hold t (s.ghost.held t)).keep t (s.ghost.rest t)
      = s.inner freeHead t pc := by
  simp [State.keep, State.hold, State.inner]

/-- A finished `pop` is at its return. -/
theorem Places.at_popRet (places : Places s) {result : Option Nat} (here : s.pc t = .allocPop)
    (done : (s.freeHead.pc t).result = some result) : s.freeHead.pc t = .popRet result := by
  have kind := places.kind t
  rw [here] at kind
  exact (LfStack.Pc.eq_of_result done).1 kind

/-- A finished `push` is at its return. -/
theorem Places.at_pushRet (places : Places s) {result : Option Nat}
    (here : (s.pc t).kind = .push) (done : (s.freeHead.pc t).result = some result) :
    s.freeHead.pc t = .pushRet := by
  have kind := places.kind t
  rw [here] at kind
  exact (LfStack.Pc.eq_of_result done).2.1 kind

/-- A finished detach is at its return. -/
theorem Places.at_detachRet (places : Places s) {result : Option Nat} (here : s.pc t = .countDetach)
    (done : (s.freeHead.pc t).result = some result) : s.freeHead.pc t = .detachRet result := by
  have kind := places.kind t
  rw [here] at kind
  exact (LfStack.Pc.eq_of_result done).2.2 kind

/-- **Every admitted step keeps the structure.** -/
theorem Places.moves (places : Places s) (moved : Moves s t s') : Places s' := by
  have inner := places.stack.pcs t
  have walk := places.walk t
  cases moved with
  | callAlloc here =>
    have idle := places.inner_idle (t := t) (by rw [here]; rfl)
    rw [here] at walk
    rw [← inner_same]
    refine places.relay trivial rfl ?_ walk (by simp)
    rw [belongings_at here idle]
    rfl
  | callFree ptr here holds =>
    have idle := places.inner_idle (t := t) (by rw [here]; rfl)
    rw [here] at walk
    rw [← inner_hold]
    refine places.relay ?_ rfl ?_ walk (by simp)
    · show s.freeHead.ghost.owner ptr = .client t
      rw [places.owned, belongings_at here idle]
      simp [holds]
    · rw [belongings_at here idle, places.rest_nil (t := t) (by rw [here]; rfl)]
      show (((s.ghost.held t).erase ptr ++ []) ++ [ptr]).Perm ((s.ghost.held t ++ []) ++ [])
      rw [List.append_nil, List.append_nil, List.append_nil]
      exact (List.perm_append_singleton ptr _).trans (List.perm_cons_erase holds).symm
  | callCount here =>
    have idle := places.inner_idle (t := t) (by rw [here]; rfl)
    rw [here] at walk
    rw [← inner_same]
    refine places.relay trivial rfl ?_ walk (by simp)
    rw [belongings_at here idle]
    rfl
  | internal freeHead moved => exact places.internal moved
  | popped ptr here done =>
    rw [here] at walk
    rw [← inner_same]
    refine places.relay trivial rfl ?_ walk (by simp)
    rw [belongings_at here (places.at_popRet here done),
      places.rest_nil (t := t) (by rw [here]; rfl)]
    simp [Pc.hand, LfStack.Pc.hand]
  | poppedNull here done =>
    rw [here] at walk
    rw [← inner_same]
    refine places.relay trivial rfl ?_ walk (by simp)
    rw [belongings_at here (places.at_popRet here done)]
    rfl
  | reuse ptr here =>
    have counted := places.counters s.perfAlloc s.perfDealloc (s.perfAllocFromFree + 1)
    refine counted.goto _ (by rw [here]; rfl) ?_ (by rw [here]; rfl) (by simp)
    rw [here]
    exact if_neg (places.hand_pos (t := t) (by rw [here]; exact List.mem_singleton_self ptr))
  | load here =>
    refine places.goto _ ?_ ?_ ?_ (by simp) <;> rcases here with here | ⟨head, next, here⟩ <;>
      rw [here] <;> rfl
  | null here => exact places.goto _ (by rw [here]; rfl) (by rw [here]; rfl) (by rw [here]; rfl) (by simp)
  | next head here some_ =>
    refine places.goto _ (by rw [here]; rfl) (by rw [here]; rfl) (by rw [here]; rfl) ?_
    rintro _ _ same
    cases same
    rfl
  | issue next here bound => exact places.issue here bound
  | commit head here =>
    exact places.goto _ (by rw [here]; rfl) (by rw [here]; rfl) (by rw [here]; rfl) (by simp)
  | count head here => 
    have counted := places.counters (s.perfAlloc + 1) s.perfDealloc s.perfAllocFromFree
    refine counted.goto _ (by rw [here]; rfl) ?_ (by rw [here]; rfl) (by simp)
    rw [here]
    exact if_neg (places.hand_pos (t := t) (by rw [here]; exact List.mem_singleton_self head))
  | pushed here result done =>
    rw [here] at walk
    rw [← inner_same]
    refine places.relay trivial rfl ?_ walk (by simp)
    rw [belongings_at here (places.at_pushRet (by rw [here]; rfl) done)]
    rfl
  | dealloc here =>
    have counted := places.counters s.perfAlloc (s.perfDealloc + 1) s.perfAllocFromFree
    exact counted.goto _ (by rw [here]; rfl) (by rw [here]; rfl) (by rw [here]; rfl) (by simp)
  | detached result here done =>
    have there := places.at_detachRet here done
    have nothing := places.rest_nil (t := t) (by rw [here]; rfl)
    rw [there] at inner
    rw [← inner_keep]
    refine places.relay trivial rfl ?_ inner.1 (by simp)
    rw [belongings_at here there, nothing]
    simp [Pc.hand, LfStack.Pc.hand]
  | walkEnd c here =>
    exact places.goto _ (by rw [here]; rfl) (by rw [here]; rfl) (by rw [here]; rfl) (by simp)
  | walk ptr c here =>
    have idle := places.inner_idle (t := t) (by rw [here]; rfl)
    rw [here] at walk
    obtain ⟨rest, split, tail⟩ := Linked.exists_cons walk
    rw [← inner_keep]
    refine places.relay ?_ rfl ?_ ?_ (by simp)
    · show s.freeHead.ghost.owner ptr = .client t
      rw [places.owned, belongings_at here idle, split]
      simp
    · rw [belongings_at here idle, split]
      show ((s.ghost.held t ++ rest) ++ [ptr]).Perm ((s.ghost.held t ++ ptr :: rest) ++ [])
      rw [List.append_nil]
      exact (List.perm_append_singleton ptr _).trans List.perm_middle.symm
    · rw [split]
      exact tail
  | walked next c here result done =>
    rw [here] at walk
    rw [← inner_same]
    refine places.relay trivial rfl ?_ walk (by simp)
    rw [belongings_at here (places.at_pushRet (by rw [here]; rfl) done)]
    rfl
  | retAlloc ptr here =>
    have idle := places.inner_idle (t := t) (by rw [here]; rfl)
    rw [here] at walk
    refine places.shuffle (t := t) rfl rfl rfl rfl places.stack rfl ?_ ?_ ?_ ?_ ?_
    · exact fun u other => (others_goto .idle other).hold other _
    · have after : ((s.goto t .idle).hold t (if ptr = 0 then s.ghost.held t
          else ptr :: s.ghost.held t)).pc t = .idle := Function.update_self ..
      rw [belongings_at here idle, belongings_at after idle]
      by_cases null : ptr = 0
      · simp [null, State.hold, State.goto, Pc.hand]
      · simp only [null, State.hold, State.goto, Pc.hand, if_false, Function.update_self]
        exact List.perm_middle.symm.append_right _
    · show (s.freeHead.pc t).kind = (Function.update s.pc t .idle t).kind
      rw [idle, Function.update_self]
      rfl
    · simp only [State.hold, State.goto, Function.update_self]
      exact walk
    · simp [State.hold, State.goto]
  | ret here =>
    refine places.goto _ ?_ ?_ ?_ (by simp) <;> rcases here with here | ⟨c, here⟩ <;>
      rw [here] <;> rfl
  | write chunk link here holds => exact places.write here holds

/-- A new reservation meets the structure. -/
theorem Places.init (start : Init s) : Places s := by
  have idle : ∀ t, s.freeHead.pc t = .idle := start.freeHead.1.pc
  have nothing : ∀ t, belongings s t = [] := fun t => by
    rw [belongings_at (start.pc t) (idle t), start.held, start.rest]
    rfl
  have base := start.base
  have space := start.space
  refine ⟨.init start.freeHead, base, space, ?_, ?_, ?_, fun chunk => ?_, fun t chunk => ?_,
    fun t => ?_, fun t => ?_, fun t => ?_, fun t => ?_⟩
  · rw [start.head, start.issued]
    exact (chunkAt_zero _).symm
  · rw [start.head]
    omega
  · rw [start.issued]
    rfl
  · rw [start.unissued, start.issued]
    simp
  · rw [start.unissued, nothing]
    simp
  · rw [nothing]
    exact List.nodup_nil
  · rw [idle, start.pc]
    rfl
  · rw [start.pc, start.rest]
    rfl
  · rw [start.pc]
    intro head next impossible
    cases impossible

/-- The environment of the accounting: the frontier stays inside, commits succeed, tags are fresh. -/
def Admitted (s : State T) (act : T × Act) : Prop := Inside s act ∧ TagFresh s act

end NpAlloc.Mmap
