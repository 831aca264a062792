/-
**A call uses what its thread owns.**

A call of `np_alloc` or `np_free` reads the bytes that the pools of its thread own, and the header of the
block it frees. It writes to the former, and to the block it serves. So it does the same in any two states
that agree on its thread and on these bytes (`Inv.call_local`), and the calls of one thread are not seen by
the calls of the others (`Inv.looks`).
-/

import NpAlloc.Pool.Locality
import NpAlloc.Threads.Frames

set_option linter.unusedSectionVars false

namespace NpAlloc.Threads

open Mmap Pool

variable {T : Type} [DecidableEq T] {s s' s₂ : State T} {n : Nat} {t u : T} {i : SizeClass}
  {build : Build} {act : Act T} {x : Nat}

/-! ### Calls -/

/-- The thread that calls `np_alloc` without need of a chunk, goes on with the chunk it was given, or calls
`np_free`. -/
def caller : Act T → Option T
  | .alloc t _ _ _ | .finish t | .free t _ => some t
  | _ => none

/-- What a call does to the live blocks. -/
inductive Edit (T : Type)
  | adds (b : Block (Index T))
  | drops (b : Block (Index T))

def Edit.block : Edit T → Block (Index T)
  | .adds b | .drops b => b

def Edit.live : Edit T → List (Block (Index T)) → List (Block (Index T))
  | .adds b, live => b :: live
  | .drops b, live => live.erase b

/-- The state after a call. -/
def State.edited (s : State T) (t : T) (pool : ThreadPool) (mem : Memory) (layout : Index T → Layout) :
    Edit T → State T
  | .adds b => s.withBlock t pool mem b layout
  | .drops b => { s.withoutBlock t pool mem b with ghost := { s.ghost with layout := layout } }

/-- **The bytes a call of a thread may write to**: those its pools own, and the block it serves. -/
def Owned (s' : State T) (t : T) (edit : Edit T) (x : Nat) : Prop :=
  (∃ i, Footprint (s'.ghost.layout (t, i)) x) ∨
    ∃ b, edit = .adds b ∧ Within b.base (blockSize b.bytes) x

/-- **Another state looks the same to a thread.** -/
structure Looks (t : T) (s s₂ : State T) : Prop where
  pool : s₂.pool t = s.pool t
  phase : s₂.phase t = s.phase t
  reads : ∀ i, Reads ((s.pool t).tlsPool i) s.mem s₂.mem

theorem Looks.refl (t : T) (s : State T) : Looks t s s := ⟨rfl, rfl, fun _ => ⟨fun _ => rfl, fun _ => rfl⟩⟩

theorem Looks.symm (looks : Looks t s s₂) : Looks t s₂ s := by
  refine ⟨looks.pool.symm, looks.phase.symm, fun i => ?_⟩
  rw [looks.pool]
  exact ⟨fun some_ => ((looks.reads i).free some_).symm, fun some_ => ((looks.reads i).head some_).symm⟩

/-- Both need a chunk, or none does. -/
theorem Looks.needsChunk (looks : Looks t s s₂) (bytes : Nat) :
    NeedsChunk (s₂.pool t) s₂.mem bytes ↔ NeedsChunk (s.pool t) s.mem bytes := by
  unfold NeedsChunk PsPool.Starved
  rw [looks.pool, (looks.reads _).test]

/-- The first chunk of a pool is owned by it. -/
theorem Inv.head_owned (inv : Inv n s) (some_ : ((s.pool t).tlsPool i).head_ ≠ 0)
    (within : Within ((s.pool t).tlsPool i).head_ poolHeader x) : Footprint (s.ghost.layout (t, i)) x := by
  obtain ⟨chunk, rest, chunks, head⟩ := inv.head_chunk some_
  refine .inl ⟨chunk, ?_, head ▸ within⟩
  rw [chunks]
  exact List.mem_cons_self

/-- **A request is served the same.** -/
theorem Inv.allocWith_local (after : Inv n s') {supply : Supply Unit} {chunk malloc bytes : Nat} {info : Meta}
    (served : s.allocWith t supply chunk malloc bytes info = some s') :
    ∃ pool mem b layout, s' = s.withBlock t pool mem b layout ∧
      ∀ s₂, Looks t s s₂ → ∃ mem₂ layout₂ P,
        s₂.allocWith t supply chunk malloc bytes info = some (s₂.withBlock t pool mem₂ b layout₂) ∧
        Writes P s.mem mem s₂.mem mem₂ ∧ ∀ x, P x → Owned s' t (.adds b) x := by
  unfold State.allocWith at served
  split at served
  · cases served
  · rename_i ptr origin pool w result
    cases served
    obtain ⟨mem, ⟨⟩⟩ := w
    have member : (⟨ptr, bytes, originOf t origin⟩ : Block (Index T)) ∈
        (s.withBlock t pool mem ⟨ptr, bytes, originOf t origin⟩ (s.served t chunk origin)).live :=
      List.mem_cons_self
    refine ⟨pool, mem, _, _, rfl, fun s₂ looks => ?_⟩
    obtain ⟨P, mem₂, again, writes, inside⟩ := ThreadPool.alloc_local looks.reads result
      (after.housing.shape _ member).2
    refine ⟨mem₂, s₂.served t chunk origin, P, ?_, writes, fun x here => ?_⟩
    · unfold State.allocWith
      rw [looks.pool, again]
    · rcases inside x here with ⟨i, some_, header⟩ | block
      · have own : (s.withBlock t pool mem ⟨ptr, bytes, originOf t origin⟩ (s.served t chunk origin)).pool t
            = pool := Function.update_self ..
        rw [← own] at some_ header
        exact .inl ⟨i, after.head_owned some_ header⟩
      · exact .inr ⟨_, rfl, block⟩

/-- **A call does the same in every state that looks the same to its thread.** -/
theorem Inv.call_local (inv : Inv n s) (after : Inv n s') (next : s.step build act = some s')
    (mine : caller act = some t) :
    ∃ pool mem layout edit, s' = s.edited t pool mem layout edit ∧
      (∀ b, edit = .drops b → b ∈ s.live ∧ act = .free t b.ptr) ∧
      ∀ s₂, Inv n s₂ → Looks t s s₂ → (∀ b, edit = .drops b → b ∈ s₂.live) → ∃ mem₂ layout₂ P,
        s₂.step build act = some (s₂.edited t pool mem₂ layout₂ edit) ∧
        Writes P s.mem mem s₂.mem mem₂ ∧ ∀ x, P x → Owned s' t edit x := by
  cases moves_of_step next with
  | @alloc u bytes malloc info s' here spare served =>
    cases mine
    obtain ⟨pool, mem, b, layout, result, again⟩ := after.allocWith_local served
    refine ⟨pool, mem, layout, .adds b, result, (fun c same => nomatch same), fun s₂ _ looks _ => ?_⟩
    obtain ⟨mem₂, layout₂, P, served₂, rest⟩ := again s₂ looks
    exact ⟨mem₂, layout₂, P, Moves.step (.alloc (looks.phase.trans here)
      (mt (looks.needsChunk bytes).mp spare) served₂), rest⟩
  | @finish u bytes chunk info s' here served =>
    cases mine
    obtain ⟨pool, mem, b, layout, result, again⟩ := after.allocWith_local served
    refine ⟨pool, mem, layout, .adds b, result, (fun c same => nomatch same), fun s₂ _ looks _ => ?_⟩
    obtain ⟨mem₂, layout₂, P, served₂, rest⟩ := again s₂ looks
    exact ⟨mem₂, layout₂, P, Moves.step (.finish (looks.phase.trans here) served₂), rest⟩
  | @free u ptr b s' here found freed =>
    cases mine
    have member := List.mem_of_find?_eq_some found
    have ptr_ : b.ptr = ptr := by simpa using List.find?_some found
    obtain ⟨shape, fits⟩ := inv.housing.shape b member
    unfold State.freeWith at freed
    -- the block is found in every state in which it is live
    have again {s₂ : State T} (inv₂ : Inv n s₂) (looks : Looks t s s₂) (live : b ∈ s₂.live) :
        s₂.step build (.free t ptr) = s₂.freeWith build t b := by
      have answer := inv₂.housing.find live
      rw [ptr_] at answer
      unfold State.step
      simp only [looks.phase, here, answer]
    cases origin : b.origin with
    | pool k =>
      obtain ⟨_, class_, small, _⟩ := inv.housing.in_pool member origin
      have result := ThreadPool.dealloc_pool build (s.pool t) (inv.housing.intact b member) fits small
      rw [← shape] at result
      simp only [result, Option.some.injEq] at freed
      subst freed
      refine ⟨_, _, s.returned t b.base b.origin, .drops b, rfl, fun c same => ?_,
        fun s₂ inv₂ looks live => ?_⟩
      · cases same
        exact ⟨member, by rw [ptr_]⟩
      · have live := live b rfl
        have result₂ := ThreadPool.dealloc_pool build (s₂.pool t) (inv₂.housing.intact b live) fits small
        rw [← shape, looks.pool] at result₂
        refine ⟨_, s₂.returned t b.base b.origin, _, ?_, .store s.mem s₂.mem b.base 8 _,
          fun x within => .inl ⟨k.2, .inr ⟨b.base, ?_, within⟩⟩⟩
        · rw [again inv₂ looks live]
          unfold State.freeWith
          rw [looks.pool, result₂]
          rfl
        · show b.base ∈ (s.returned t b.base b.origin (t, k.2)).frees
          rw [origin]
          show b.base ∈ (Family.moved s.ghost.layout k (t, k.2) b.base (t, k.2)).frees
          rw [Family.moved_frees, if_pos rfl]
          exact List.mem_cons_self
    | malloc p =>
      have housed := inv.housing.housed b member
      unfold Housed at housed
      rw [origin] at housed
      have result := ThreadPool.dealloc_malloc build (s.pool t) (inv.housing.intact b member) fits housed.2.1
      rw [← shape] at result
      simp only [result, Option.some.injEq] at freed
      subst freed
      refine ⟨_, _, s.returned t b.base b.origin, .drops b, rfl, fun c same => ?_,
        fun s₂ inv₂ looks live => ?_⟩
      · cases same
        exact ⟨member, by rw [ptr_]⟩
      · have live := live b rfl
        have result₂ := ThreadPool.dealloc_malloc build (s₂.pool t) (inv₂.housing.intact b live) fits housed.2.1
        rw [← shape, looks.pool] at result₂
        refine ⟨_, s₂.returned t b.base b.origin, _, ?_, .nothing s.mem s₂.mem, fun x none_ => none_.elim⟩
        rw [again inv₂ looks live]
        unfold State.freeWith
        rw [looks.pool, result₂]
        rfl
  | _ => cases mine

/-! ### What the others see -/

/-- A thread calls with its free lists open. -/
theorem open_of_call (next : s.step build act = some s') (mine : caller act = some t) (i : SizeClass) :
    (s.phase t).Open i := by
  cases moves_of_step next with
  | alloc here | finish here | free here =>
    cases mine
    rw [here]
    trivial
  | _ => cases mine

/-- A call moves only what its thread owns. -/
theorem call_moves (next : s.step build act = some s') (theirs : caller act = some u) (other : t ≠ u)
    (i : SizeClass) : (s'.ghost.layout (t, i)).chunks = (s.ghost.layout (t, i)).chunks ∧
      (s'.ghost.layout (t, i)).frees = (s.ghost.layout (t, i)).frees := by
  have served {supply : Supply Unit} {chunk malloc bytes : Nat} {info : Meta} {s' : State T}
      (served : s.allocWith u supply chunk malloc bytes info = some s') :
      (s'.ghost.layout (t, i)).chunks = (s.ghost.layout (t, i)).chunks ∧
        (s'.ghost.layout (t, i)).frees = (s.ghost.layout (t, i)).frees := by
    unfold State.allocWith at served
    split at served
    · cases served
    · rename_i origin _ _ _
      cases served
      cases origin with
      | pool j =>
        have apart : (t, i) ≠ (u, j) := fun same => other (congrArg Prod.fst same)
        have same : s.served u chunk (.pool j) (t, i) = s.ghost.layout (t, i) :=
          Function.update_of_ne apart _ _
        exact ⟨congrArg Layout.chunks same, congrArg Layout.frees same⟩
      | malloc p => exact ⟨rfl, rfl⟩
  cases moves_of_step next with
  | alloc _ _ result | finish _ result =>
    cases theirs
    exact served result
  | @free _ _ b _ _ _ freed =>
    cases theirs
    unfold State.freeWith at freed
    split at freed
    · cases freed
    · cases freed
      cases origin : b.origin with
      | pool k =>
        have apart : (t, i) ≠ (u, k.2) := fun same => other (congrArg Prod.fst same)
        have same : (s.returned u b.base b.origin (t, i))
            = Family.moved s.ghost.layout k (u, k.2) b.base (t, i) := by rw [origin]; rfl
        refine ⟨(congrArg Layout.chunks same).trans (Family.moved_chunks ..),
          (congrArg Layout.frees same).trans ?_⟩
        rw [Family.moved_frees, if_neg apart]
      | malloc p =>
        have same : s.returned u b.base b.origin = s.ghost.layout := by rw [origin]; rfl
        show (s.returned u b.base b.origin (t, i)).chunks = _ ∧
          (s.returned u b.base b.origin (t, i)).frees = _
        rw [same]
        exact ⟨rfl, rfl⟩
  | _ => cases theirs

/-- What a thread owns is not changed by the calls of the others. -/
theorem call_footprint (next : s.step build act = some s') (theirs : caller act = some u) (other : t ≠ u)
    (i : SizeClass) : Footprint (s'.ghost.layout (t, i)) x ↔ Footprint (s.ghost.layout (t, i)) x := by
  obtain ⟨chunks, frees⟩ := call_moves next theirs other i
  unfold Footprint
  rw [chunks, frees]

/-- What a call writes to is no part of another thread's pools. -/
theorem Inv.owned_apart (after : Inv n s') {edit : Edit T} (live : ∀ b, edit = .adds b → b ∈ s'.live)
    (other : t ≠ u) (owned : Owned s' u edit x) : ¬ Footprint (s'.ghost.layout (t, i)) x := by
  rcases owned with ⟨j, theirs⟩ | ⟨b, adds, within⟩
  · exact after.housing.family.footprints_apart (fun same => other (congrArg Prod.fst same).symm) theirs
  · exact after.housing.unread (live b adds) within _

/-- **The calls of a thread are not seen by the others.** -/
theorem Inv.looks (inv : Inv n s) (after : Inv n s') (next : s.step build act = some s')
    (theirs : caller act = some u) (other : t ≠ u) (opens : ∀ i, (s.phase t).Open i) : Looks t s s' := by
  obtain ⟨pool, mem, layout, edit, rfl, member, again⟩ := inv.call_local after next theirs
  obtain ⟨mem₂, layout₂, P, _, writes, inside⟩ := again s inv (.refl u s) fun b drops => (member b drops).1
  have live : ∀ b, edit = .adds b → b ∈ (s.edited u pool mem layout edit).live := by
    rintro b rfl
    exact List.mem_cons_self
  have outside : Outside P s.mem (s.edited u pool mem layout edit).mem := by
    cases edit <;> exact writes.first
  refine ⟨?_, ?_, fun i => ?_⟩
  · cases edit <;> exact Function.update_of_ne other _ _
  · cases edit
    · exact Function.update_of_ne other _ _
    · rfl
  · have holds := inv.represents (t, i)
    rw [view_open (opens i)] at holds
    refine holds.reads fun y mine => outside y fun here => ?_
    exact after.owned_apart live other (inside y here) ((call_footprint next theirs other i).mpr mine)

end NpAlloc.Threads
