/-
**`np_alloc` and `np_free`, from any threads, are a heap.**

The specification is `General.Heap`: separate arrays of bytes, each with the record of its request. The
program keeps its blocks in one memory, between headers, fences and the links of its lists; it hands them
from thread to thread, and gives chunks back when threads exit. What a client sees of it is a heap:

* `seen` — the event of a step: a block served, a block freed, a byte written;
* `heapOf` — the live blocks, with what `get_alloc_header` and the user bytes say in memory;
* **`heap_refined`** — the heap accepts the events of every run, and is in `heapOf` after it: a block
  that is served meets no live one, every byte of a live block is the one last written to it, and its
  record is that of the request it was served for.
-/

import NpAlloc.General.Heap
import NpAlloc.Pool.Header
import NpAlloc.Threads.Frames

set_option linter.unusedSectionVars false

namespace NpAlloc.Threads

open Mmap Pool

variable {T : Type} [DecidableEq T] {s s' : State T} {n : Nat} {t u : T} {build : Build}
  {bytes malloc chunk : Nat} {info : Meta} {b c : Block (Index T)} {mem mem' : Memory}

/-! ### What is seen -/

/-- The user bytes of a block. -/
def userBytes (mem : Memory) (ptr bytes : Nat) : List (BitVec 8) :=
  (List.range bytes).map fun i => mem (ptr + i)

/-- A block as it stands in memory. -/
def cellOf (mem : Memory) (b : Block (Index T)) : Cell AllocHeader (BitVec 8) :=
  ⟨b.ptr, getAllocHeader mem b.ptr, userBytes mem b.ptr b.bytes⟩

/-- **The live blocks of the program as a heap.** -/
def heapOf (s : State T) : Heap AllocHeader (BitVec 8) := s.live.map (cellOf s.mem)

/-- A request that was served: its pointer, the record it asked for, and what the memory holds there. -/
def served (s' : State T) (bytes : Nat) (info : Meta) : Option (Heap.Event AllocHeader (BitVec 8)) :=
  s'.live.head?.map fun b => .alloc ⟨b.ptr, recorded bytes info, userBytes s'.mem b.ptr bytes⟩

/-- **The event of a step.** -/
def seen (s : State T) (act : Act T) (s' : State T) : Option (Heap.Event AllocHeader (BitVec 8)) :=
  match act with
  | .alloc _ bytes info _ => served s' bytes info
  | .finish t =>
    match s.phase t with
    | .granted bytes info _ => served s' bytes info
    | _ => none
  | .free _ ptr => some (.free ptr)
  | .write address value =>
    (s.live.find? fun b => Within b.ptr b.bytes address).map fun b =>
      .write b.ptr (address - b.ptr) value
  | _ => none

/-! ### One block -/

/-- **A block whose bytes stay is the same cell.** -/
theorem cellOf_congr (shape : b.ptr = b.base + 48)
    (same : SameOn mem mem' b.base (blockSize b.bytes)) : cellOf mem' b = cellOf mem b := by
  have header : getAllocHeader mem' b.ptr = getAllocHeader mem b.ptr :=
    getAllocHeader_congr (same.mono le_rfl (by
      show b.base + 24 ≤ _
      unfold blockSize
      omega))
  have user : userBytes mem' b.ptr b.bytes = userBytes mem b.ptr b.bytes := by
    unfold userBytes
    refine List.map_congr_left fun i member => ?_
    have inside := List.mem_range.mp member
    refine same _ (by omega) ?_
    unfold blockSize
    omega
  unfold cellOf
  rw [header, user]

/-- Blocks that do not meet are separate cells. -/
theorem separate_of_apart {first second : Cell AllocHeader (BitVec 8)} {base base' bytes bytes' : Nat}
    (apart : Apart base (blockSize bytes) base' (blockSize bytes'))
    (one : first.ptr = base + 48 ∧ first.contents.length = bytes)
    (two : second.ptr = base' + 48 ∧ second.contents.length = bytes') : Heap.Separate first second := by
  unfold Apart blockSize at apart
  unfold Heap.Separate
  omega

theorem userBytes_length (mem : Memory) (ptr bytes : Nat) : (userBytes mem ptr bytes).length = bytes := by
  unfold userBytes
  rw [List.length_map, List.length_range]

/-- **A byte written inside a block** is written in its cell. -/
theorem cellOf_write (shape : b.ptr = b.base + 48) {address : Nat} (value : BitVec 8)
    (within : Within b.ptr b.bytes address) :
    cellOf (Function.update mem address value) b
      = (cellOf mem b).write b.ptr (address - b.ptr) value := by
  obtain ⟨low, high⟩ := within
  have header : getAllocHeader (Function.update mem address value) b.ptr = getAllocHeader mem b.ptr := by
    refine getAllocHeader_congr fun x from_ to_ => Function.update_of_ne ?_ _ _
    change b.base ≤ x at from_
    change x < b.base + 24 at to_
    omega
  have user : userBytes (Function.update mem address value) b.ptr b.bytes
      = (userBytes mem b.ptr b.bytes).set (address - b.ptr) value := by
    apply List.ext_getElem
    · rw [List.length_set, userBytes_length, userBytes_length]
    · intro i here there
      rw [List.getElem_set]
      simp only [userBytes, List.getElem_map, List.getElem_range]
      split
      · rename_i same
        rw [show b.ptr + i = address by omega, Function.update_self]
      · rename_i other
        exact Function.update_of_ne (by omega) _ _
  unfold cellOf Cell.write
  rw [header, user, if_pos rfl]

/-- Removing the one element that passes a test. -/
theorem eraseP_eq_erase {α : Type} [DecidableEq α] {p : α → Bool} {a : α} {list : List α}
    (only : ∀ x ∈ list, p x = true ↔ x = a) : list.eraseP p = list.erase a := by
  induction list with
  | nil => rfl
  | cons x rest ih =>
    have here := only x List.mem_cons_self
    by_cases same : x = a
    · rw [List.eraseP_cons_of_pos (here.mpr same), same, List.erase_cons_head]
    · rw [List.eraseP_cons_of_neg (mt here.mp same), List.erase_cons_tail (by simpa using same),
        ih fun y member => only y (.tail _ member)]

/-! ### Every step -/

/-- **A request that was placed is an allocation.** -/
theorem Placed.event (placed : Placed s s' t chunk malloc bytes info b) (after : Inv n s')
    (inv : Inv n s) : ∃ event, served s' bytes info = some event ∧
      Heap.step (heapOf s) event = some (heapOf s') := by
  have member : b ∈ s'.live := by
    rw [placed.live]
    exact List.mem_cons_self
  obtain ⟨shape, fits⟩ := after.housing.shape b member
  obtain ⟨mem, dressed⟩ := placed.dressed
  have header : getAllocHeader s'.mem b.ptr = recorded bytes info := by
    rw [dressed, shape]
    exact dress_header mem info (by rw [← placed.size]; exact fits)
  have apart := after.housing.apart
  rw [placed.live] at apart
  have others := (List.pairwise_cons.mp apart).1
  refine ⟨.alloc (cellOf s'.mem b), ?_, ?_⟩
  · unfold served cellOf
    rw [placed.live, header, placed.size]
    rfl
  · have fresh : ∀ c ∈ heapOf s, Heap.Separate (cellOf s'.mem b) c := by
      intro cell found
      obtain ⟨c, live, rfl⟩ := List.mem_map.mp found
      exact separate_of_apart (others c live) ⟨shape, userBytes_length ..⟩
        ⟨(inv.housing.shape c live).1, userBytes_length ..⟩
    have kept : s.live.map (cellOf s'.mem) = s.live.map (cellOf s.mem) :=
      List.map_congr_left fun c live =>
        cellOf_congr (inv.housing.shape c live).1 (placed.kept c live)
    rw [Heap.step_alloc fresh]
    unfold heapOf
    rw [placed.live, List.map_cons, kept]

/-- **A block that was released leaves the heap.** -/
theorem Released.event (released : Released s s' t b) (inv : Inv n s) (member : b ∈ s.live) :
    Heap.step (heapOf s) (.free b.ptr) = some (heapOf s') := by
  have present : cellOf s.mem b ∈ heapOf s := List.mem_map_of_mem member
  have only : s.live.eraseP (fun c => decide (c.ptr = b.ptr)) = s.live.erase b := by
    refine eraseP_eq_erase fun c live => ?_
    rw [decide_eq_true_eq]
    constructor
    · intro same
      refine inv.housing.base_injective live member ?_
      unfold Block.base
      rw [same]
    · rintro rfl
      rfl
  have kept : (s.live.erase b).map (cellOf s'.mem) = (s.live.erase b).map (cellOf s.mem) := by
    refine List.map_congr_left fun c left => ?_
    obtain ⟨different, live⟩ := inv.housing.nodup.mem_erase_iff.mp left
    exact cellOf_congr (inv.housing.shape c live).1 (released.kept c live different)
  calc Heap.step (heapOf s) (.free b.ptr)
      = some ((heapOf s).eraseP fun c => c.ptr = b.ptr) := Heap.step_free present
    _ = some ((s.live.eraseP fun c => decide (c.ptr = b.ptr)).map (cellOf s.mem)) := by
        unfold heapOf
        rw [List.eraseP_map]
        rfl
    _ = some (heapOf s') := by
        unfold heapOf
        rw [only, released.live, kept]

/-- **A client's write** changes one byte of one cell. -/
theorem Inv.write_event (inv : Inv n s) (member : b ∈ s.live) {address : Nat} (value : BitVec 8)
    (within : Within b.ptr b.bytes address) :
    Heap.step (heapOf s) (.write b.ptr (address - b.ptr) value)
      = some (heapOf { s with mem := Function.update s.mem address value }) := by
  have present : cellOf s.mem b ∈ heapOf s := List.mem_map_of_mem member
  have inside : address - b.ptr < (cellOf s.mem b).contents.length := by
    show _ < (userBytes _ _ _).length
    rw [userBytes_length]
    unfold Within at within
    omega
  refine (Heap.step_write present inside value).trans ?_
  unfold heapOf
  rw [List.map_map]
  refine congrArg some (List.map_congr_left fun c live => ?_)
  obtain ⟨shape, _⟩ := inv.housing.shape b member
  obtain ⟨shape', _⟩ := inv.housing.shape c live
  show (cellOf s.mem c).write b.ptr (address - b.ptr) value = _
  by_cases same : c = b
  · subst same
    exact (cellOf_write shape value within).symm
  · have apart := inv.housing.blocks_apart live member same
    have other : c.ptr ≠ b.ptr := by
      unfold Apart blockSize at apart
      omega
    have skipped : (cellOf s.mem c).write b.ptr (address - b.ptr) value = cellOf s.mem c := if_neg other
    rw [skipped]
    have kept : SameOn s.mem (Function.update s.mem address value) c.base (blockSize c.bytes) := by
      intro x from_ to_
      refine Function.update_of_ne ?_ _ _
      rintro rfl
      refine apart.not_within ⟨from_, to_⟩ ?_
      unfold Within blockSize at *
      omega
    exact (cellOf_congr shape' kept).symm

/-- A step that serves no request, frees nothing and is no client's write leaves the heap alone. -/
theorem Inv.heap_aside {act : Act T} (inv : Inv n s) (supplied : Supplied n s act) (aside : Aside act)
    (next : s.step build act = some s') : heapOf s' = heapOf s := by
  obtain ⟨live, same⟩ := inv.undisturbed supplied aside next
  unfold heapOf
  rw [live]
  exact List.map_congr_left fun c member =>
    cellOf_congr (inv.housing.shape c member).1 (same c member)

/-- **The heap follows every step.** -/
theorem Inv.heap_step {act : Act T} (inv : Inv n s) (supplied : Supplied n s act) (after : Inv n s')
    (next : s.step build act = some s') :
    Machine.Follows Heap.step (heapOf s) (seen s act s') (heapOf s') := by
  cases moves_of_step next with
  | @alloc t bytes malloc info s' here spare done =>
    obtain ⟨b, placed⟩ := inv.placed_alloc supplied next
    exact .inr (placed.event after inv)
  | @finish t bytes chunk info s' here done =>
    obtain ⟨b, placed⟩ := inv.placed_finish here next
    unfold seen
    simp only [here]
    exact .inr (placed.event after inv)
  | @free t ptr b s' here found freed =>
    obtain ⟨c, member, rfl, _, released⟩ := inv.released next
    exact .taken (released.event inv member)
  | @write address value b member within =>
    cases found : s.live.find? fun b => Within b.ptr b.bytes address with
    | none => exact absurd within (by simpa using List.find?_eq_none.mp found b member)
    | some c =>
      have inside : Within c.ptr c.bytes address := by simpa using List.find?_some found
      unfold seen
      simp only [found]
      exact .taken (inv.write_event (List.mem_of_find?_eq_some found) value inside)
  | start | starved | popped | advance | elsewhere | exit | close | unlink | push =>
    exact .inl ⟨rfl, inv.heap_aside supplied trivial next⟩

/-- **The program refines a heap.** In every run of any threads, whose chunks are handed over settled,
the heap accepts what the clients see, and ends with the live blocks as they stand in memory; no two of
them share an address. -/
theorem heap_refined (build : Build) (n : Nat) (start s : State T) (acts : List (Act T))
    (initial : State.Init n start)
    (run : (machine T build n).Exec (fun s act => Supplied n s act ∧ Orderly s act) start acts s) :
    replay Heap.step [] ((machine T build n).history seen start acts) = some (heapOf s) ∧
      (heapOf s).Pairwise Heap.Separate := by
  have empty : heapOf start = [] := by
    unfold heapOf
    rw [initial.live]
    rfl
  have accepted := (Machine.Exec.replays_abs Heap.step seen heapOf (Inv.keeps build n)
    (fun s act s' inv admitted next => inv.heap_step admitted.1 (inv.keeps build n s act s' admitted next)
      next) run (.init initial)).1
  rw [empty] at accepted
  exact ⟨accepted, Heap.replay_separate .nil accepted⟩

/-- A block is given and taken back, its thread exits, and another one is given a block of its chunk. -/
theorem heap_refined_pair : ∃ s : State Bool, s.phase true = .exited ∧ s.live.map Block.bytes = [100] ∧
    (machine Bool .debug 1).Exec (fun s act => Supplied 1 s act ∧ Orderly s act) State.pair pairCalls s ∧
    replay Heap.step [] ((machine Bool .debug 1).history seen State.pair pairCalls) = some (heapOf s) ∧
    (heapOf s).Pairwise Heap.Separate := by
  obtain ⟨s, b, run, _, exited, _, live, bytes, _⟩ := pair_orderly .debug
  exact ⟨s, exited, by rw [live]; simp [bytes], run,
    heap_refined .debug 1 State.pair s pairCalls State.pair_init run⟩

end NpAlloc.Threads
