/-
**What a step of the program does to one pool.**

A pool is a thread's list of free blocks and chain of chunks for one class. Only two kinds of steps
touch it while it is in use: a request of the class by its thread (`takes`), and an `np_free` by its
thread of a block of the class, whoever allocated it (`gives`).

* **`moved_step`** — a step takes from the pool, gives to it, or leaves it as it is.
-/

import NpAlloc.Threads.Frames

set_option linter.unusedSectionVars false

namespace NpAlloc.Threads

open Mmap Pool

variable {T : Type} [DecidableEq T] {s s' : State T} {n : Nat} {t u : T} {i j : SizeClass}
  {build : Build} {bytes malloc chunk : Nat} {info : Meta} {b : Block (Index T)}

/-- Requests of this size are served by the class. -/
def OfClass (bytes : Nat) (i : SizeClass) : Prop :=
  widened bytes ≤ maxAllocSize getAllocSizeList ∧ classOf (widened bytes) = i

instance (bytes : Nat) (i : SizeClass) : Decidable (OfClass bytes i) := by
  unfold OfClass
  infer_instance

/-- The step serves a request of the class to the thread. -/
def takes (t : T) (i : SizeClass) : State T × Act T → Bool
  | (_, .alloc u bytes _ _) => u = t ∧ OfClass bytes i
  | (s, .finish u) =>
    match s.phase u with
    | .granted bytes _ _ => u = t ∧ OfClass bytes i
    | _ => false
  | _ => false

/-- The pointer of the class that the thread frees in the step. -/
def gives (t : T) (i : SizeClass) : State T × Act T → Option Nat
  | (s, .free u ptr) =>
    if u = t ∧ ∃ b ∈ s.live, b.ptr = ptr ∧ OfClass b.bytes i then some ptr else none
  | _ => none

/-- The lists of a class are in use, or the thread has not started. -/
def Usable (s : State T) (t : T) (i : SizeClass) : Prop := (s.phase t).Open i ∨ s.phase t = .absent

/-- **What becomes of a pool in a step.** -/
inductive Moved (t : T) (i : SizeClass) (step : State T × Act T) (L L' : Layout) : Prop
  | taken (chunk : Nat) (take : takes t i step = true) (give : gives t i step = none)
      (fresh : L.hungry (classSize i) kDefaultChunkSize = true → L.Fresh kDefaultChunkSize chunk)
      (took : L' = (L.take (classSize i) kDefaultChunkSize chunk).2)
  | given (base : Nat) (take : takes t i step = false) (give : gives t i step = some (base + 48))
      (frees : L'.frees = base :: L.frees) (chunks : L'.chunks = L.chunks)
  | still (take : takes t i step = false) (give : gives t i step = none) (frees : L'.frees = L.frees)
      (chunks : L'.chunks = L.chunks)

/-- **A request takes from the pool of its class**, and from no other. -/
theorem Placed.moved {step : State T × Act T} (placed : Placed s s' u chunk malloc bytes info b)
    (take : takes t i step = decide (u = t ∧ OfClass bytes i)) (give : gives t i step = none)
    (fresh : u = t → OfClass bytes i →
      (s.ghost.layout (t, i)).hungry (classSize i) kDefaultChunkSize = true →
        (s.ghost.layout (t, i)).Fresh kDefaultChunkSize chunk) :
    Moved t i step (s.ghost.layout (t, i)) (s'.ghost.layout (t, i)) := by
  by_cases mine : u = t ∧ OfClass bytes i
  · obtain ⟨rfl, small, rfl⟩ := mine
    obtain ⟨_, _, layout⟩ := placed.small small
    refine .taken chunk (take.trans (decide_eq_true ⟨rfl, small, rfl⟩)) give
      (fresh rfl ⟨small, rfl⟩) ?_
    rw [layout]
    exact Function.update_self ..
  · have same : s'.ghost.layout (t, i) = s.ghost.layout (t, i) := by
      by_cases small : widened bytes ≤ maxAllocSize getAllocSizeList
      · obtain ⟨_, _, layout⟩ := placed.small small
        rw [layout]
        refine Function.update_of_ne ?_ _ _
        rintro ⟨⟩
        exact mine ⟨rfl, small, rfl⟩
      · obtain ⟨_, layout⟩ := placed.large (by omega)
        rw [layout]
    exact .still (take.trans (decide_eq_false mine)) give (by rw [same]) (by rw [same])

/-- **A block that is freed comes first on the list of the thread that frees it.** -/
theorem Released.moved {step : State T × Act T} (released : Released s s' u b) (inv : Inv n s)
    (member : b ∈ s.live) (take : takes t i step = false)
    (give : gives t i step = if u = t ∧ OfClass b.bytes i then some b.ptr else none) :
    Moved t i step (s.ghost.layout (t, i)) (s'.ghost.layout (t, i)) := by
  obtain ⟨shape, fits⟩ := inv.housing.shape b member
  have width : widened b.bytes = blockSize b.bytes :=
    widened_eq (by unfold blockSize at fits; omega)
  have layout := released.layout
  cases origin : b.origin with
  | pool k =>
    obtain ⟨_, class_, small, _⟩ := inv.housing.in_pool member origin
    rw [origin] at layout
    change s'.ghost.layout = Family.moved s.ghost.layout k (u, k.2) b.base at layout
    rw [layout]
    have chunks := Family.moved_chunks s.ghost.layout k (u, k.2) b.base (t, i)
    have frees := Family.moved_frees s.ghost.layout k (u, k.2) b.base (t, i)
    by_cases mine : (t, i) = (u, k.2)
    · obtain ⟨rfl, rfl⟩ := Prod.mk.inj mine
      rw [if_pos rfl] at frees
      refine .given b.base take ?_ frees chunks
      rw [give, if_pos ⟨rfl, by rw [width]; exact small, by rw [width]; exact class_.symm⟩, shape]
    · rw [if_neg mine] at frees
      refine .still take ?_ frees chunks
      rw [give, if_neg]
      rintro ⟨rfl, _, rfl⟩
      rw [width] at mine
      exact mine (by rw [class_])
  | malloc p =>
    have housed := inv.housing.housed b member
    unfold Housed at housed
    rw [origin] at housed layout
    change s'.ghost.layout = s.ghost.layout at layout
    refine .still take ?_ (by rw [layout]) (by rw [layout])
    rw [give, if_neg]
    rintro ⟨_, small, _⟩
    rw [width] at small
    omega

/-- What an `np_free` gives is the block at the pointer. -/
theorem Inv.gives_free (inv : Inv n s) (member : b ∈ s.live) :
    gives t i (s, .free u b.ptr) = if u = t ∧ OfClass b.bytes i then some b.ptr else none := by
  have same : (u = t ∧ ∃ c ∈ s.live, c.ptr = b.ptr ∧ OfClass c.bytes i) ↔ (u = t ∧ OfClass b.bytes i) := by
    refine and_congr_right fun _ => ⟨?_, fun ofClass => ⟨b, member, rfl, ofClass⟩⟩
    rintro ⟨c, live, ptr, ofClass⟩
    have one : c = b := inv.housing.base_injective live member (by unfold Block.base; rw [ptr])
    rwa [one] at ofClass
  unfold gives
  simp only [same]

/-- A step that leaves every pool alone. -/
theorem moved_of_same {step : State T × Act T} (take : takes t i step = false)
    (give : gives t i step = none) (layout : s'.ghost.layout = s.ghost.layout) :
    Moved t i step (s.ghost.layout (t, i)) (s'.ghost.layout (t, i)) :=
  .still take give (by rw [layout]) (by rw [layout])

/-- **A list that stays in use is not the one that is given up.** -/
theorem Inv.close_same {order : List SizeClass} (after : Inv n (s.close u order))
    (usable : Usable (s.close u order) t i) :
    (s.close u order).ghost.layout (t, i) = s.ghost.layout (t, i) := by
  cases order with
  | nil => rfl
  | cons k later =>
    by_cases mine : (t, i) = (u, k)
    · obtain ⟨rfl, rfl⟩ := Prod.mk.inj mine
      have here : (s.close t (i :: later)).phase t = .closing i later := Function.update_self ..
      have ordered := (after.stands t).ordered
      unfold Usable at usable
      rw [here] at ordered usable
      rcases usable with opens | absent
      · exact ((List.nodup_cons.mp ordered).1 opens).elim
      · cases absent
    · exact Function.update_of_ne mine _ _

/-- The pool whose chunks are handed over is not in use. -/
theorem Inv.unlink_same (inv : Inv n s) {k : SizeClass} {later : List SizeClass}
    (here : s.phase u = .closing k later) (usable : Usable (s.unlinkHead u k later) t i) :
    (s.unlinkHead u k later).ghost.layout (t, i) = s.ghost.layout (t, i) := by
  refine Function.update_of_ne ?_ _ _
  intro mine
  obtain ⟨rfl, rfl⟩ := Prod.mk.inj mine
  have ordered := (inv.stands t).ordered
  have phase : (s.unlinkHead t i later).phase t
      = .handing i later ((s.pool t).tlsPool i).head_ := Function.update_self ..
  unfold Usable at usable
  rw [here] at ordered
  rw [phase] at usable
  rcases usable with opens | absent
  · exact (List.nodup_cons.mp ordered).1 opens
  · cases absent

/-- **The steps of the program, seen by one pool**: while it is in use, a step takes from it, gives to
it, or leaves it as it is. -/
theorem moved_step {act : Act T} (inv : Inv n s) (supplied : Supplied n s act) (after : Inv n s')
    (next : s.step build act = some s') (usable : Usable s' t i) :
    Usable s t i ∧ Moved t i (s, act) (s.ghost.layout (t, i)) (s'.ghost.layout (t, i)) := by
  -- a phase of one thread changes
  have phase : ∀ (u : T) (phase : Phase), s'.phase = Function.update s.phase u phase →
      (phase.Open i ∨ phase = .absent → (s.phase u).Open i ∨ s.phase u = .absent) → Usable s t i := by
    intro u phase phases same
    unfold Usable at usable ⊢
    rw [phases] at usable
    by_cases own : t = u
    · subst own
      rw [Function.update_self] at usable
      exact same usable
    · rwa [Function.update_of_ne own] at usable
  cases moves_of_step next with
  | @start u here => exact ⟨phase _ _ rfl fun _ => .inr here, moved_of_same rfl rfl rfl⟩
  | @alloc u bytes malloc info s' here spare served =>
    obtain ⟨b, placed⟩ := inv.placed_alloc supplied next
    refine ⟨phase _ _ placed.phase fun _ => .inl (by rw [here]; trivial),
      placed.moved rfl rfl fun mine ofClass hungry => ?_⟩
    subst mine
    obtain ⟨small, rfl⟩ := ofClass
    exact absurd ⟨small, (inv.starved_iff (by rw [here]; trivial)).mpr hungry⟩ spare
  | @starved u bytes info here need empty =>
    exact ⟨phase _ _ rfl fun _ => .inl (by rw [here]; trivial), moved_of_same rfl rfl rfl⟩
  | @popped u bytes info here need some_ =>
    exact ⟨phase _ _ rfl fun _ => .inl (by rw [here]; trivial), moved_of_same rfl rfl rfl⟩
  | @advance u bytes info here =>
    exact ⟨phase _ _ rfl fun _ => .inl (by rw [here]; trivial), moved_of_same rfl rfl rfl⟩
  | @finish u bytes chunk info s' here served =>
    obtain ⟨b, placed⟩ := inv.placed_finish here next
    have held : At s chunk (.hand u) := by
      rw [at_hand, here]
      rfl
    refine ⟨phase _ _ placed.phase fun _ => .inl (by rw [here]; trivial),
      placed.moved (by simp only [takes, here]) rfl fun mine _ _ => ?_⟩
    obtain ⟨some_, space⟩ := inv.chunk_space held
    exact ⟨some_, space, fun c member =>
      (inv.unused held fun k => by simp).1 (t, i) c.base (List.mem_map_of_mem member)⟩
  | @free u ptr b s' here found freed =>
    obtain ⟨c, member, rfl, _, released⟩ := inv.released next
    refine ⟨?_, released.moved inv member rfl (inv.gives_free member)⟩
    unfold Usable at usable ⊢
    rwa [released.phase] at usable
  | write member within => exact ⟨usable, moved_of_same rfl rfl rfl⟩
  | elsewhere => exact ⟨usable, moved_of_same rfl rfl rfl⟩
  | @exit u order here perm =>
    have same := Inv.close_same after usable
    exact ⟨phase _ _ rfl fun _ => .inl (by rw [here]; trivial),
      .still rfl rfl (by rw [same]) (by rw [same])⟩
  | @close u k later here null =>
    have same := Inv.close_same after usable
    refine ⟨phase _ _ rfl fun opens => .inl ?_, .still rfl rfl (by rw [same]) (by rw [same])⟩
    rw [here]
    cases later with
    | nil => exact (opens.elim id fun absent => by cases absent).elim
    | cons next rest => exact List.mem_cons_of_mem _ (opens.elim id fun absent => by cases absent)
  | @unlink u k later here some_ =>
    have same := inv.unlink_same here usable
    refine ⟨phase _ _ rfl fun opens => .inl ?_, .still rfl rfl (by rw [same]) (by rw [same])⟩
    rw [here]
    exact opens.elim id fun absent => by cases absent
  | @push u k later chunk here =>
    refine ⟨phase _ _ rfl fun opens => .inl ?_, moved_of_same rfl rfl rfl⟩
    rw [here]
    exact opens.elim id fun absent => by cases absent

end NpAlloc.Threads
