/-
**A commit that fails.**

`alloc_chunk_from_new` advances `head_` before it calls `virtual_alloc`. When that fails, `head` is null,
`perf_alloc` is counted all the same, and null is returned; nothing takes `head_` back, so the chunk is
behind the frontier and with nobody.

* `Lossy`: a state with lost chunks, seen as a state of the run without failures in which the clients
  whose calls failed hold them for ever. Every step keeps it, a failed commit adds one lost chunk
  (`Lossy.moves`, `Lossy.fail`), and the invariants of that other state are those of `Places` and
  `Counters`;
* **`failed_commit`**: the call returns null and raises `get_total_allocated`, the chunk is never again
  anywhere, and the accounting of a run is right if and only if none of its commits has failed.
-/

import NpAlloc.Mmap.ChunkAccounting

set_option linter.unusedSectionVars false

namespace NpAlloc.Mmap

variable {T : Type} [DecidableEq T] {s s' : State T} {t u : T}

/-- The frontier stays inside the reservation, and tags are fresh; commits may fail. -/
def Fits (s : State T) (act : T × Act) : Prop :=
  (act.2 = .run → ∀ head next, s.pc act.1 = .newCas head next → s.head_ = head →
    s.head_ + kDefaultChunkSize ≤ s.ptr_ + s.size_) ∧ TagFresh s act

/-! ### The call that fails -/

theorem innerStep_pc {done : Option Nat → State T}
    (finishes : ∀ result, (done result).pc t = s.pc t) (ran : innerStep s u done = some s') :
    s'.pc t = s.pc t := by
  unfold innerStep at ran
  split at ran
  · cases ran
    exact finishes _
  · obtain ⟨freeHead, _, rfl⟩ := Option.map_eq_some_iff.mp ran
    rfl

/-- What the other threads do leaves a call where it is. -/
theorem step_pc {act : Act} (other : t ≠ u) (next : step s (u, act) = some s') :
    s'.pc t = s.pc t := by
  have moves : ∀ pc, Function.update s.pc u pc t = s.pc t := fun pc => Function.update_of_ne other _ _
  cases act with
  | callAlloc | callFree ptr | callCount | write chunk link =>
    simp only [step, Option.ite_none_right_eq_some, Option.some.injEq] at next
    obtain ⟨_, rfl⟩ := next
    first | exact moves _ | rfl
  | run =>
    simp only [step, runStep] at next
    cases here : s.pc u with
    | allocPop =>
      simp only [here] at next
      exact innerStep_pc (fun result => by cases result <;> exact moves _) next
    | freePush | countDetach | countPush saved c =>
      simp only [here] at next
      exact innerStep_pc (fun result => moves _) next
    | newTest head | newCas head saved =>
      simp only [here] at next
      split at next <;> cases next <;> exact moves _
    | countWalk ptr c =>
      cases ptr <;> simp only [here, Option.some.injEq] at next <;> subst next <;> exact moves _
    | idle | allocRet ptr | freeRet | countRet c => simp [here] at next
    | _ =>
      simp only [here, Option.some.injEq] at next
      subst next
      exact moves _
  | spurious =>
    simp only [step, spuriousStep] at next
    split at next
    · cases next
      exact moves _
    · obtain ⟨freeHead, _, rfl⟩ := Option.map_eq_some_iff.mp next
      rfl
  | commitFail =>
    simp only [step, commitFailStep] at next
    split at next <;> cases next
    exact moves _
  | ret =>
    simp only [step, retStep] at next
    split at next <;> cases next <;> exact moves _

/-- **A call whose commit failed**: whatever the others do in between, its next step raises
`get_total_allocated`, and it is then at its return, with null. -/
theorem fail_counts {ok : State T → T × Act → Prop} {after last : State T} {acts : List (T × Act)}
    (failed : step s (t, .commitFail) = some after) (run : (machine T).Exec ok after acts last)
    (others : ∀ act ∈ acts, act.1 ≠ t) :
    ∃ counted, step last (t, .run) = some counted ∧
      counted.getTotalAllocated = last.getTotalAllocated + 1 ∧ counted.pc t = .allocRet 0 := by
  have here : after.pc t = .newCount 0 := by
    simp only [step, commitFailStep] at failed
    split at failed <;> cases failed
    exact Function.update_self ..
  have there : last.pc t = .newCount 0 := by
    clear failed
    induction run with
    | nil => exact here
    | @cons _ _ _ act _ _ next _ ih =>
      obtain ⟨u, act⟩ := act
      have other : u ≠ t := others (u, act) List.mem_cons_self
      have next : step _ (u, act) = _ := next
      exact ih (fun act member => others act (.tail _ member)) ((step_pc other.symm next).trans here)
  refine ⟨{ last with perfAlloc := last.perfAlloc + 1 }.goto t (.allocRet 0), ?_, rfl,
    Function.update_self ..⟩
  simp only [step, runStep, there]

/-! ### Lost chunks -/

/-- A state with the program counters and the holdings of the run without failures. -/
def State.cover (s : State T) (pc : T → Pc) (held : T → List Nat) : State T :=
  { s with pc := pc, ghost := { s.ghost with held := held } }

/-- How one thread looks in the run without failures: its client holds the lost chunks as well, but for
the one its call has lost and has still to return. -/
def Covers (lost : List Nat) (pc : Pc) (held : List Nat) (pc' : Pc) (held' : List Nat) : Prop :=
  pc' = pc ∧ held'.Perm (lost ++ held) ∨
    ∃ chunk, chunk ≠ 0 ∧ (pc = .newCount 0 ∧ pc' = .newCount chunk ∨
      pc = .allocRet 0 ∧ pc' = .allocRet chunk) ∧ (chunk :: held').Perm (lost ++ held)

/-- **A state with lost chunks.** -/
structure Lossy [Fintype T] (lost : T → List Nat) (pc : T → Pc) (held : T → List Nat) (s : State T) :
    Prop where
  places : Places (s.cover pc held)
  counters : Counters (s.cover pc held)
  covers : ∀ t, Covers (lost t) (s.pc t) (s.ghost.held t) (pc t) (held t)

section Lossy

variable [Fintype T] {lost : T → List Nat} {pc : T → Pc} {held : T → List Nat}

/-- **The rule for one step**: it is a step of the run without failures, and it keeps what the stepping
thread looks like there. -/
theorem Lossy.of_moves (lossy : Lossy lost pc held s) {pc' : T → Pc} {held' : T → List Nat}
    (moved : Moves (s.cover pc held) t (s'.cover pc' held'))
    (others : ∀ u, u ≠ t → s'.pc u = s.pc u ∧ s'.ghost.held u = s.ghost.held u ∧ pc' u = pc u ∧
      held' u = held u)
    (covers : Covers (lost t) (s'.pc t) (s'.ghost.held t) (pc' t) (held' t)) :
    Lossy lost pc' held' s' := by
  refine ⟨lossy.places.moves moved, lossy.counters.moves lossy.places moved, fun u => ?_⟩
  by_cases own : u = t
  · subst own
    exact covers
  · obtain ⟨pcs, helds, pcs', helds'⟩ := others u own
    rw [pcs, helds, pcs', helds']
    exact lossy.covers u

/-- A thread that is not behind a failed commit looks the same in the run without failures. -/
theorem Covers.plain {lost held held' : List Nat} {pc pc' : Pc} (covers : Covers lost pc held pc' held')
    (counting : pc ≠ .newCount 0) (returning : pc ≠ .allocRet 0) :
    pc' = pc ∧ held'.Perm (lost ++ held) := by
  rcases covers with same | ⟨chunk, _, behind | behind, _⟩
  · exact same
  · exact absurd behind.1 counting
  · exact absurd behind.1 returning

/-- A step that moves a thread on and leaves what its client holds. -/
theorem Lossy.goto (lossy : Lossy lost pc held s) (next : Pc) (counting : s.pc t ≠ .newCount 0)
    (returning : s.pc t ≠ .allocRet 0)
    (moved : pc t = s.pc t → Moves (s.cover pc held) t (s'.cover (Function.update pc t next) held))
    (pcs : s'.pc = Function.update s.pc t next) (helds : s'.ghost.held = s.ghost.held) :
    ∃ pc' held', Lossy lost pc' held' s' := by
  obtain ⟨same, perm⟩ := (lossy.covers t).plain counting returning
  refine ⟨_, _, lossy.of_moves (moved same) (fun u other => ?_) (.inl ⟨?_, ?_⟩)⟩
  · rw [pcs, helds, Function.update_of_ne other, Function.update_of_ne other]
    exact ⟨rfl, rfl, rfl, rfl⟩
  · rw [pcs, Function.update_self, Function.update_self]
  · rw [helds]
    exact perm

/-- **Every step but a failed commit keeps it.** -/
theorem Lossy.moves (lossy : Lossy lost pc held s) (moved : Moves s t s') :
    ∃ pc' held', Lossy lost pc' held' s' := by
  have elsewhere : ∀ {α : Type} (f : T → α) (v : α) (u : T), u ≠ t → Function.update f t v u = f u :=
    fun f v u other => Function.update_of_ne other v f
  cases moved with
  | callAlloc here =>
    exact lossy.goto _ (by simp [here]) (by simp [here]) (fun same => .callAlloc (same.trans here)) rfl rfl
  | callCount here =>
    exact lossy.goto _ (by simp [here]) (by simp [here]) (fun same => .callCount (same.trans here)) rfl rfl
  | popped ptr here done =>
    exact lossy.goto _ (by simp [here]) (by simp [here]) (fun same => .popped ptr (same.trans here) done)
      rfl rfl
  | poppedNull here done =>
    exact lossy.goto _ (by simp [here]) (by simp [here]) (fun same => .poppedNull (same.trans here) done)
      rfl rfl
  | reuse ptr here =>
    exact lossy.goto _ (by simp [here]) (by simp [here]) (fun same => .reuse ptr (same.trans here)) rfl rfl
  | load here =>
    refine lossy.goto _ ?_ ?_ (fun same => .load ?_) rfl rfl
    · rcases here with here | ⟨_, _, here⟩ <;> simp [here]
    · rcases here with here | ⟨_, _, here⟩ <;> simp [here]
    · rcases here with here | ⟨head, next, here⟩
      · exact .inl (same.trans here)
      · exact .inr ⟨head, next, same.trans here⟩
  | null here =>
    exact lossy.goto _ (by simp [here]) (by simp [here]) (fun same => .null (same.trans here)) rfl rfl
  | next head here some_ =>
    exact lossy.goto _ (by simp [here]) (by simp [here]) (fun same => .next head (same.trans here) some_)
      rfl rfl
  | issue next here bound =>
    exact lossy.goto _ (by simp [here]) (by simp [here]) (fun same => .issue next (same.trans here) bound)
      rfl rfl
  | commit head here =>
    exact lossy.goto _ (by simp [here]) (by simp [here]) (fun same => .commit head (same.trans here))
      rfl rfl
  | pushed here result done =>
    exact lossy.goto _ (by simp [here]) (by simp [here])
      (fun same => .pushed (same.trans here) result done) rfl rfl
  | dealloc here =>
    exact lossy.goto _ (by simp [here]) (by simp [here]) (fun same => .dealloc (same.trans here)) rfl rfl
  | detached result here done =>
    exact lossy.goto _ (by simp [here]) (by simp [here])
      (fun same => .detached result (same.trans here) done) rfl rfl
  | walkEnd c here =>
    exact lossy.goto _ (by simp [here]) (by simp [here]) (fun same => .walkEnd c (same.trans here)) rfl rfl
  | walk ptr c here =>
    exact lossy.goto _ (by simp [here]) (by simp [here]) (fun same => .walk ptr c (same.trans here))
      rfl rfl
  | walked next c here result done =>
    exact lossy.goto _ (by simp [here]) (by simp [here])
      (fun same => .walked next c (same.trans here) result done) rfl rfl
  | ret here =>
    refine lossy.goto _ ?_ ?_ (fun same => .ret ?_) rfl rfl
    · rcases here with here | ⟨_, here⟩ <;> simp [here]
    · rcases here with here | ⟨_, here⟩ <;> simp [here]
    · rcases here with here | ⟨c, here⟩
      · exact .inl (same.trans here)
      · exact .inr ⟨c, same.trans here⟩
  | internal freeHead moved =>
    exact ⟨pc, held, lossy.of_moves (t := t) (.internal freeHead moved) (fun _ _ => ⟨rfl, rfl, rfl, rfl⟩)
      (lossy.covers t)⟩
  | write chunk link here holds =>
    obtain ⟨same, perm⟩ := (lossy.covers t).plain (by simp [here]) (by simp [here])
    have holds' : chunk ∈ held t := perm.mem_iff.mpr (List.mem_append_right _ holds)
    exact ⟨pc, held, lossy.of_moves (t := t) (.write chunk link (same.trans here) holds')
      (fun _ _ => ⟨rfl, rfl, rfl, rfl⟩) (lossy.covers t)⟩
  | callFree ptr here holds =>
    obtain ⟨same, perm⟩ := (lossy.covers t).plain (by simp [here]) (by simp [here])
    have holds' : ptr ∈ held t := perm.mem_iff.mpr (List.mem_append_right _ holds)
    refine ⟨_, _, lossy.of_moves (.callFree ptr (same.trans here) holds')
      (fun u other => ⟨elsewhere _ _ u other, elsewhere _ _ u other, elsewhere _ _ u other,
        elsewhere _ _ u other⟩) (.inl ⟨?_, ?_⟩)⟩
    · simp [State.hold, State.inner, State.cover]
    · have erased : (s.ghost.held t ++ lost t).erase ptr = (s.ghost.held t).erase ptr ++ lost t :=
        List.erase_append_left _ holds
      have swapped : (lost t ++ s.ghost.held t).Perm (s.ghost.held t ++ lost t) := List.perm_append_comm
      have both := (perm.trans swapped).erase ptr
      rw [erased] at both
      simpa [State.hold, State.inner, State.cover] using both.trans List.perm_append_comm
  | count head here =>
    rcases lossy.covers t with ⟨same, perm⟩ | ⟨chunk, some_, behind | behind, perm⟩
    · refine ⟨_, held, lossy.of_moves (.count head (same.trans here))
        (fun u other => ⟨elsewhere _ _ u other, rfl, elsewhere _ _ u other, rfl⟩) (.inl ⟨?_, perm⟩)⟩
      simp [State.goto, State.cover]
    · obtain rfl : head = 0 := by simpa using here.symm.trans behind.1
      refine ⟨_, held, lossy.of_moves (.count chunk behind.2)
        (fun u other => ⟨elsewhere _ _ u other, rfl, elsewhere _ _ u other, rfl⟩)
        (.inr ⟨chunk, some_, .inr ⟨?_, ?_⟩, perm⟩)⟩ <;> simp [State.goto, State.cover]
    · exact absurd (here.symm.trans behind.1) (by simp)
  | retAlloc ptr here =>
    rcases lossy.covers t with ⟨same, perm⟩ | ⟨chunk, some_, behind | behind, perm⟩
    · refine ⟨_, _, lossy.of_moves (.retAlloc ptr (same.trans here))
        (fun u other => ⟨elsewhere _ _ u other, elsewhere _ _ u other, elsewhere _ _ u other,
          elsewhere _ _ u other⟩) (.inl ⟨?_, ?_⟩)⟩
      · simp [State.hold, State.goto, State.cover]
      · by_cases null : ptr = 0
        · simpa [State.hold, State.goto, State.cover, null] using perm
        · simpa [State.hold, State.goto, State.cover, null] using
            (perm.cons ptr).trans List.perm_middle.symm
    · exact absurd (here.symm.trans behind.1) (by simp)
    · obtain rfl : ptr = 0 := by simpa using here.symm.trans behind.1
      refine ⟨_, _, lossy.of_moves (.retAlloc chunk behind.2)
        (fun u other => ⟨elsewhere _ _ u other, elsewhere _ _ u other, elsewhere _ _ u other,
          elsewhere _ _ u other⟩) (.inl ⟨?_, ?_⟩)⟩
      · simp [State.hold, State.goto, State.cover]
      · simpa [State.hold, State.goto, State.cover, some_] using perm

theorem Lossy.start (start : Init s) : Lossy (fun _ => []) s.pc s.ghost.held s :=
  ⟨.init start, .init start, fun _ => .inl ⟨rfl, .refl _⟩⟩

/-- **A failed commit loses its chunk.** -/
theorem Lossy.fail (lossy : Lossy lost pc held s) {chunk : Nat} (here : s.pc t = .newCommit chunk) :
    ∃ pc', Lossy (Function.update lost t (chunk :: lost t)) pc' held (s.goto t (.newCount 0)) := by
  obtain ⟨same, perm⟩ := (lossy.covers t).plain (by simp [here]) (by simp [here])
  have there : (s.cover pc held).pc t = .newCommit chunk := same.trans here
  have some_ : chunk ≠ 0 := lossy.places.hand_pos (t := t) (by
    rw [there]
    exact List.mem_singleton_self chunk)
  have moved : Moves (s.cover pc held) t
      ((s.goto t (.newCount 0)).cover (Function.update pc t (.newCount chunk)) held) :=
    .commit chunk there
  refine ⟨_, lossy.places.moves moved, lossy.counters.moves lossy.places moved, fun u => ?_⟩
  by_cases own : u = t
  · subst own
    simp only [State.goto, Function.update_self]
    exact .inr ⟨chunk, some_, .inl ⟨rfl, rfl⟩, perm.cons chunk⟩
  · simp only [State.goto, Function.update_of_ne own]
    exact lossy.covers u

/-- How many commits of a run fail. -/
def failures (acts : List (T × Act)) : Nat := acts.countP fun act => act.2 == .commitFail

/-- **A run loses the chunks of its failed commits**, and none that was lost comes back. -/
theorem Lossy.run (lossy : Lossy lost pc held s) {acts : List (T × Act)}
    (run : (machine T).Exec Fits s acts s') :
    ∃ lost' pc' held', Lossy lost' pc' held' s' ∧ (∀ t, lost t ⊆ lost' t) ∧
      ∑ t, (lost' t).length = ∑ t, (lost t).length + failures acts := by
  induction run generalizing lost pc held with
  | nil => exact ⟨lost, pc, held, lossy, fun _ => List.Subset.refl _, rfl⟩
  | @cons s middle last act acts admitted next _ ih =>
    obtain ⟨t, act⟩ := act
    by_cases fails : act = .commitFail
    · subst fails
      have next : commitFailStep s t = some middle := next
      unfold commitFailStep at next
      cases here : s.pc t <;> simp only [here, Option.some.injEq, reduceCtorEq] at next
      next chunk =>
      subst next
      obtain ⟨pc', lossy'⟩ := lossy.fail here
      obtain ⟨lost', pc'', held'', final, grown, total⟩ := ih lossy'
      have added := sum_step (t := t) (fun u => (lost u).length)
        (fun u => (Function.update lost t (chunk :: lost t) u).length)
        fun u other => by rw [Function.update_of_ne other]
      simp only [Function.update_self, List.length_cons] at added
      refine ⟨lost', pc'', held'', final, fun u => ?_, ?_⟩
      · refine List.Subset.trans ?_ (grown u)
        by_cases own : u = t
        · subst own
          rw [Function.update_self]
          exact List.subset_cons_self _ _
        · rw [Function.update_of_ne own]
          exact List.Subset.refl _
      · rw [total]
        simp only [failures, List.countP_cons, beq_self_eq_true, if_true]
        omega
    · obtain ⟨pc', held', lossy'⟩ := lossy.moves (moves_of_step ⟨fails, admitted.1⟩ admitted.2 next)
      obtain ⟨lost', pc'', held'', final, grown, total⟩ := ih lossy'
      refine ⟨lost', pc'', held'', final, grown, ?_⟩
      rw [total, failures, failures, List.countP_cons_of_neg]
      simpa using fails

/-- What a thread owns in the run without failures is what it has lost and what it owns. -/
theorem Lossy.belongings (lossy : Lossy lost pc held s) (t : T) :
    ∃ real, (belongings (s.cover pc held) t).Perm (lost t ++ real) ∧
      ∀ chunk ∈ Mmap.belongings s t, chunk = 0 ∨ chunk ∈ real := by
  have perms : ∀ {lost held held' hand rest inner : List Nat}, held'.Perm (lost ++ held) →
      ((held' ++ (hand ++ rest)) ++ inner).Perm (lost ++ ((held ++ (hand ++ rest)) ++ inner)) := by
    intro lost held held' hand rest inner perm
    rw [← List.append_assoc lost, ← List.append_assoc lost]
    exact (perm.append_right _).append_right _
  show ∃ real, ((held t ++ ((pc t).hand ++ s.ghost.rest t)) ++ LfStack.hand s.freeHead t).Perm
      (lost t ++ real) ∧ ∀ chunk ∈ (s.ghost.held t ++ ((s.pc t).hand ++ s.ghost.rest t))
        ++ LfStack.hand s.freeHead t, chunk = 0 ∨ chunk ∈ real
  rcases lossy.covers t with ⟨same, perm⟩ | ⟨chunk, some_, behind, perm⟩
  · rw [same]
    exact ⟨_, perms perm, fun chunk member => .inr member⟩
  · have hand : (pc t).hand = [chunk] := by
      rcases behind with ⟨_, behind⟩ | ⟨_, behind⟩ <;> rw [behind] <;> simp [Pc.hand, some_]
    have null : ∀ c ∈ (s.pc t).hand, c = 0 := by
      rcases behind with ⟨behind, _⟩ | ⟨behind, _⟩ <;> rw [behind] <;> simp [Pc.hand]
    refine ⟨(s.ghost.held t ++ ([] ++ s.ghost.rest t)) ++ LfStack.hand s.freeHead t, ?_,
      fun c member => ?_⟩
    · rw [hand]
      have front : ((held t ++ ([chunk] ++ s.ghost.rest t))).Perm
          ((chunk :: held t) ++ ([] ++ s.ghost.rest t)) := by simp [List.perm_middle]
      exact (front.append_right _).trans (perms perm)
    · simp only [List.mem_append] at member ⊢
      rcases member with (held | hand | rest) | inner
      · exact .inr (.inl (.inl held))
      · exact .inl (null c hand)
      · exact .inr (.inl (.inr (.inr rest)))
      · exact .inr (.inr inner)

/-- **A lost chunk is with nobody.** -/
theorem Lossy.nowhere (lossy : Lossy lost pc held s) {chunk : Nat} (gone : chunk ∈ lost t) :
    chunk ∉ s.freeHead.ghost.stack ∧ ∀ u, chunk ∉ Mmap.belongings s u := by
  have places := lossy.places
  obtain ⟨real, perm, _⟩ := lossy.belongings t
  have mine : chunk ∈ Mmap.belongings (s.cover pc held) t :=
    perm.mem_iff.mpr (List.mem_append_left _ gone)
  have some_ := places.owned_pos mine
  refine ⟨fun free => places.not_free (t := t) free mine, fun u member => ?_⟩
  obtain ⟨real', perm', split⟩ := lossy.belongings u
  have kept : chunk ∈ real' := (split chunk member).resolve_left (by omega)
  have theirs : chunk ∈ Mmap.belongings (s.cover pc held) u :=
    perm'.mem_iff.mpr (List.mem_append_right _ kept)
  by_cases own : u = t
  · subst own
    have nodup := perm'.nodup_iff.mp (places.nodup u)
    exact (List.nodup_append.mp nodup).2.2 chunk gone chunk kept rfl
  · exact places.disjoint own theirs mine

end Lossy

/-! ### `count_free_list` does not look at what the clients hold -/

/-- The state with other holdings. -/
def State.holding (s : State T) (held : T → List Nat) : State T :=
  { s with ghost := { s.ghost with held := held } }

theorem innerStep_holding (held : T → List Nat) (done : Option Nat → State T) :
    innerStep (s.holding held) t (fun result => (done result).holding held)
      = (innerStep s t done).map fun s => s.holding held := by
  unfold innerStep
  rw [show (s.holding held).freeHead = s.freeHead from rfl]
  cases (s.freeHead.pc t).result with
  | some result => rfl
  | none => cases LfStack.runStep s.freeHead t <;> rfl

theorem runStep_holding (held : T → List Nat) :
    runStep (s.holding held) t = (runStep s t).map fun s => s.holding held := by
  unfold runStep
  rw [show (s.holding held).pc t = s.pc t from rfl]
  cases here : s.pc t with
  | allocPop =>
    refine Eq.trans (congrArg (innerStep (s.holding held) t) ?_) (innerStep_holding held _)
    funext result
    cases result <;> rfl
  | freePush => exact innerStep_holding held fun _ => s.inner (s.returned t) t .freeCount
  | countDetach =>
    exact innerStep_holding held fun result =>
      (s.inner (s.returned t) t (.countWalk result 0)).keep t (s.freeHead.ghost.taken t)
  | countPush next c =>
    exact innerStep_holding held fun _ => s.inner (s.returned t) t (.countWalk next c)
  | newTest head =>
    by_cases null : head = 0 <;> simp [null, State.holding, State.goto]
  | newCas head next =>
    by_cases equal : s.head_ = head <;> simp [equal, State.holding, State.goto, State.issue]
  | countWalk ptr c => cases ptr <;> rfl
  | _ => rfl

theorem step_holding (held : T → List Nat) {act : Act}
    (inside : act = .callCount ∨ act = .run ∨ act = .spurious) :
    step (s.holding held) (t, act) = (step s (t, act)).map fun s => s.holding held := by
  rcases inside with rfl | rfl | rfl
  · by_cases idle : s.pc t = .idle <;> simp [step, idle, State.holding, State.inner]
  · exact runStep_holding held
  · show spuriousStep (s.holding held) t = (spuriousStep s t).map _
    unfold spuriousStep
    rw [show (s.holding held).pc t = s.pc t from rfl]
    cases here : s.pc t with
    | newCas head next => rfl
    | _ => cases spurious : LfStack.spuriousStep s.freeHead t <;> simp [spurious, State.holding]

theorem CountsFree.holding {c : Nat} (held : T → List Nat) (counts : CountsFree s t c) :
    CountsFree (s.holding held) t c := by
  obtain ⟨acts, last, run, alone, here⟩ := counts
  refine ⟨acts, last.holding held, ?_, alone, here⟩
  have lift : ∀ {s last : State T} {acts : List (T × Act)},
      (∀ act ∈ acts, act.1 = t ∧ (act.2 = .callCount ∨ act.2 = .run ∨ act.2 = .spurious)) →
      (machine T).Exec Admitted s acts last →
      (machine T).Exec Admitted (s.holding held) acts (last.holding held) := by
    intro s last acts inside run
    induction run with
    | nil => exact .nil _
    | @cons s middle last act acts admitted next _ ih =>
      obtain ⟨own, kind⟩ := inside act List.mem_cons_self
      have lifted : step (s.holding held) act = some (middle.holding held) := by
        obtain ⟨u, act⟩ := act
        have next : step s (u, act) = some middle := next
        rw [step_holding held kind, next]
        rfl
      exact .cons admitted lifted (ih fun act member => inside act (.tail _ member))
  refine lift (fun act member => ?_) run
  rcases List.mem_cons.mp member with rfl | later
  · exact ⟨rfl, .inl rfl⟩
  · rcases alone act later with rfl | rfl
    · exact ⟨rfl, .inr (.inl rfl)⟩
    · exact ⟨rfl, .inr (.inr rfl)⟩

theorem countsFree_holding_iff {c : Nat} (held : T → List Nat) :
    CountsFree (s.holding held) t c ↔ CountsFree s t c :=
  ⟨fun counts => counts.holding s.ghost.held, fun counts => counts.holding held⟩

/-! ### The result -/

/-- **The accounting of a run**: with no operation in progress, `get_total_allocated` is what is free and
what is held, and one more for each commit that has failed. -/
theorem Lossy.balance [Fintype T] {lost : T → List Nat} {pc : T → Pc} {held : T → List Nat}
    (lossy : Lossy lost pc held s) (quiescent : s.Quiescent) (t : T) (c : Nat) :
    (CountsFree s t c ↔ c = s.freeHead.ghost.stack.length) ∧
      s.getTotalAllocated.toNat
        = s.freeHead.ghost.stack.length + ∑ u, (s.ghost.held u).length + ∑ u, (lost u).length := by
  have plain : ∀ u, pc u = s.pc u ∧ (held u).Perm (lost u ++ s.ghost.held u) := fun u =>
    (lossy.covers u).plain (by simp [quiescent u]) (by simp [quiescent u])
  obtain rfl : pc = s.pc := funext fun u => (plain u).1
  have places : Places (s.holding held) := lossy.places
  have counters : Counters (s.holding held) := lossy.counters
  have quiescent' : (s.holding held).Quiescent := quiescent
  refine ⟨?_, ?_⟩
  · rw [← countsFree_holding_iff held]
    exact countsFree_iff places (quiescent t) c
  · have total : s.getTotalAllocated.toNat = s.ghost.issued.length :=
      counters.quiescent_perfAlloc places quiescent'
    have census : s.ghost.issued.length
        = s.freeHead.ghost.stack.length + ∑ u, (held u).length :=
      places.quiescent_census quiescent'
    have lengths : ∑ u, (held u).length = ∑ u, (lost u).length + ∑ u, (s.ghost.held u).length := by
      rw [← Finset.sum_add_distrib]
      exact Finset.sum_congr rfl fun u _ => by rw [(plain u).2.length_eq, List.length_append]
    omega

/-- **No failed commit leaves `mmap` unchanged.**

In any state, a call whose commit fails raises `get_total_allocated` with its next step, and then returns
null. In every run, with the frontier inside the reservation and fresh tags, the chunk it tried is from
then on not free, not held, and in no call, so that no later `alloc_chunk` returns it; and with no
operation in progress `get_total_allocated` is the number of free chunks and of chunks held if and only if
no commit of the run has failed. -/
theorem failed_commit [Fintype T] :
    (∀ (s after last : State T) (t : T) (acts : List (T × Act)),
      step s (t, .commitFail) = some after → (machine T).Exec Machine.anyStep after acts last →
      (∀ act ∈ acts, act.1 ≠ t) → ∃ counted, step last (t, .run) = some counted ∧
        counted.getTotalAllocated = last.getTotalAllocated + 1 ∧ counted.pc t = .allocRet 0) ∧
    (∀ (s after last : State T) (t : T) (chunk : Nat) (acts : List (T × Act)),
      (machine T).Reachable Fits s → s.pc t = .newCommit chunk →
      step s (t, .commitFail) = some after → (machine T).Exec Fits after acts last →
      chunk ∉ last.freeHead.ghost.stack ∧ ∀ u, chunk ∉ belongings last u) ∧
    ∀ (start last : State T) (acts : List (T × Act)), Init start →
      (machine T).Exec Fits start acts last → last.Quiescent → ∀ t, ∃ c, CountsFree last t c ∧
        (last.getTotalAllocated.toNat = c + ∑ u, (last.ghost.held u).length ↔
          ∀ act ∈ acts, act.2 ≠ .commitFail) := by
  refine ⟨fun s after last t acts failed run others => fail_counts failed run others,
    fun s after last t chunk acts reached here failed rest => ?_,
    fun start last acts initial run quiescent t => ?_⟩
  · obtain ⟨start, before, initial, run⟩ := reached
    obtain ⟨lost, pc, held, lossy, _, _⟩ := (Lossy.start initial).run run
    obtain ⟨pc', lossy'⟩ := lossy.fail here
    have made : after = s.goto t (.newCount 0) := by
      simp only [step, commitFailStep, here, Option.some.injEq] at failed
      exact failed.symm
    rw [made] at rest
    obtain ⟨lost', pc'', held'', final, grown, _⟩ := lossy'.run rest
    exact final.nowhere (grown t (by rw [Function.update_self]; exact List.mem_cons_self))
  · obtain ⟨lost, pc, held, lossy, _, total⟩ := (Lossy.start initial).run run
    obtain ⟨counts, balance⟩ := lossy.balance quiescent t _
    refine ⟨_, counts.mpr rfl, ?_⟩
    have none_ : (∀ act ∈ acts, act.2 ≠ .commitFail) ↔ failures acts = 0 := by
      rw [failures, List.countP_eq_zero]
      simp
    rw [none_, balance, total]
    simp only [List.length_nil, Finset.sum_const_zero]
    omega

instance (s : State T) (act : T × Act) : Decidable (Fits s act) :=
  decidable_of_iff ((act.2 = .run → (s.pc act.1).compared = some s.head_ →
    s.head_ + kDefaultChunkSize ≤ s.ptr_ + s.size_) ∧ TagFresh s act) <| by
  unfold Fits
  refine and_congr_left fun _ => forall_congr' fun _ => ?_
  cases here : s.pc act.1 <;> simp [Pc.compared, eq_comm]

/-- An `alloc_chunk` that finds no free chunk, up to its commit. -/
def commitActs (t : T) : List (T × Act) :=
  [(t, .callAlloc), (t, .run), (t, .run), (t, .run), (t, .run), (t, .run), (t, .run)]

/-- What is left of it when the commit fails. -/
def failActs (t : T) : List (T × Act) := [(t, .commitFail), (t, .run), (t, .ret)]

theorem failed_commit_first : ∃ before after last : State Bool,
    (machine Bool).Exec Fits fourChunks (commitActs true) before ∧
    step before (true, .commitFail) = some after ∧
    (∃ counted, step after (true, .run) = some counted ∧
      counted.getTotalAllocated = after.getTotalAllocated + 1 ∧ counted.pc true = .allocRet 0) ∧
    (∀ u, chunkA ∉ belongings after u) ∧
    (machine Bool).Exec Fits fourChunks (commitActs true ++ failActs true) last ∧
    ∃ c, CountsFree last true c ∧
      last.getTotalAllocated.toNat ≠ c + ∑ u, (last.ghost.held u).length := by
  have start : ((machine Bool).runFrom Fits fourChunks (commitActs true)).map (fun s => s.pc true)
      = some (.newCommit chunkA) := by
    decide +kernel
  obtain ⟨before, run, here⟩ := Option.map_eq_some_iff.mp start
  have first := Machine.exec_of_runFrom run
  have failed : step before (true, .commitFail) = some (before.goto true (.newCount 0)) := by
    simp only [step, commitFailStep, here]
  have whole : ((machine Bool).runFrom Fits fourChunks (commitActs true ++ failActs true)).map
      (fun s => decide (s.pc true = .idle ∧ s.pc false = .idle)) = some true := by
    decide +kernel
  obtain ⟨last, run, idle⟩ := Option.map_eq_some_iff.mp whole
  obtain ⟨mine, other⟩ := of_decide_eq_true idle
  have exec := Machine.exec_of_runFrom run
  obtain ⟨counted, lost, balance⟩ := failed_commit (T := Bool)
  obtain ⟨c, counts, right⟩ := balance fourChunks last _ fourChunks_init exec
    (fun u => by cases u <;> assumption) true
  refine ⟨before, _, last, first, failed, ?_, ?_, exec, c, counts, fun equal => ?_⟩
  · exact counted before _ _ true [] failed (.nil _) (fun _ member => absurd member List.not_mem_nil)
  · exact (lost before _ _ true chunkA [] ⟨_, _, fourChunks_init, first⟩ here failed (.nil _)).2
  · exact right.mp equal (true, .commitFail) (by decide) rfl

/-- **The first commit of a reservation fails**: one chunk is allocated, says `get_total_allocated`; none
is held and none is free. -/
theorem failed_commit_counted : ∃ s : State Bool, (machine Bool).Reachable Fits s ∧ s.Quiescent ∧
    s.getTotalAllocated = 1 ∧ (∀ u, s.ghost.held u = []) ∧ CountsFree s true 0 := by
  have reached : ((machine Bool).runFrom Fits fourChunks (commitActs true ++ failActs true)).map
      (fun s => decide (s.pc true = .idle ∧ s.pc false = .idle ∧ s.perfAlloc = 1 ∧
        s.ghost.held true = [] ∧ s.ghost.held false = [] ∧ s.freeHead.ghost.stack = []))
      = some true := by
    decide +kernel
  obtain ⟨s, run, view⟩ := Option.map_eq_some_iff.mp reached
  obtain ⟨mine, other, total, none_, none', empty⟩ := of_decide_eq_true view
  have quiescent : s.Quiescent := fun u => by cases u <;> assumption
  have exec := Machine.exec_of_runFrom run
  obtain ⟨lost, pc, held, lossy, _, _⟩ := (Lossy.start fourChunks_init).run exec
  refine ⟨s, ⟨fourChunks, _, fourChunks_init, exec⟩, quiescent, total,
    fun u => by cases u <;> assumption, ?_⟩
  rw [(lossy.balance quiescent true 0).1, empty]
  rfl

end NpAlloc.Mmap
