/-
**What `deinit` does before it hands back its chunks: it walks its free list, and prints.**

The walk reads the link of every block on the list, while the other threads go on; a link that was
overwritten leads it astray. The message is printed after `std::hex`, which stays: both counts in it are
hexadecimal, and so is the size from the second message on.

* `walkFree`, `Report`, `message` — the walk and the text, for whatever the memory answers;
* **`walkFree_ends`** — the walk ends exactly if the links it reads lead to null;
* **`Inv.walk_ends`** — they do so if all hand-overs were settled, whatever the others do during the walk;
* **`message_right`** — the message is right exactly if the counter is what the decimal numeral of the
  blocks says in base 16.
-/

import NpAlloc.General.Numerals
import NpAlloc.Threads.Lists

set_option linter.unusedSectionVars false

namespace NpAlloc.Threads

open Mmap Pool

/-! ### The walk -/

/-- What the reads of a walk return: the number of the read, and the address. No answer is a fault. -/
abbrev Reads := Nat → Nat → Option Nat

/-- `while (f) { ++c; f = f->next; }`, for so many rounds. -/
def walkFree (read : Reads) : Nat → Nat → Nat → Option Nat
  | 0, c, f => if f = 0 then some c else none
  | rounds + 1, c, f =>
    if f = 0 then some c else (read c f).bind fun next => walkFree read rounds (c + 1) next

/-- **The links that are read lead to null.** -/
inductive Leads (read : Reads) : Nat → Nat → Prop
  | null (c : Nat) : Leads read c 0
  | link {c f next : Nat} (some_ : f ≠ 0) (found : read c f = some next) (rest : Leads read (c + 1) next) :
      Leads read c f

/-- **The walk ends exactly if its links lead to null.** -/
theorem walkFree_ends (read : Reads) (c f : Nat) :
    (∃ rounds count, walkFree read rounds c f = some count) ↔ Leads read c f := by
  constructor
  · rintro ⟨rounds, count, ends⟩
    induction rounds generalizing c f with
    | zero =>
      unfold walkFree at ends
      obtain ⟨rfl, _⟩ := Option.ite_none_right_eq_some.mp ends
      exact .null c
    | succ rounds ih =>
      unfold walkFree at ends
      by_cases null : f = 0
      · rw [null]
        exact .null c
      · rw [if_neg null, Option.bind_eq_some_iff] at ends
        obtain ⟨next, found, ends⟩ := ends
        exact .link null found (ih _ _ ends)
  · intro leads
    induction leads with
    | null c => exact ⟨0, c, if_pos rfl⟩
    | link some_ found _ ih =>
      obtain ⟨rounds, count, ends⟩ := ih
      refine ⟨rounds + 1, count, ?_⟩
      unfold walkFree
      rw [if_neg some_, found]
      exact ends

/-! ### The message -/

/-- A number as the stream prints it. -/
def numeral (base x : Nat) : String := String.ofList (Nat.toDigits base x)

/-- What `deinit` prints of a class. -/
structure Report where
  allocSize : String
  thread : String
  units : String
  freeCount : String

def Report.text (r : Report) : String :=
  "tls_ps_pool[" ++ r.allocSize ++ "]::thread [" ++ r.thread ++ "] has allocated and not freed: "
    ++ r.units ++ " units. free_count: " ++ r.freeCount ++ " units\n"

/-- A message with other units reads differently. -/
theorem Report.text_units (r : Report) (units : String) :
    { r with units := units }.text = r.text ↔ units = r.units := by
  unfold Report.text
  simp only [String.append_left_inj, String.append_right_inj]

/-- The message, on a stream that prints in the given base before `std::hex`. -/
def report (base : Nat) (thread : String) (p : PsPool) (c : Nat) : Option Report :=
  if p.allocated_ ≠ 0 then
    some ⟨numeral base p.allocSize_, thread, numeral 16 p.allocated_.toNat, numeral 16 c⟩
  else none

/-- **`deinit` up to `while (head_)`**, for so many rounds of its walk. -/
def message (read : Reads) (base : Nat) (thread : String) (rounds : Nat) (p : PsPool) :
    Option (Option Report) :=
  (walkFree read rounds 0 p.free_).map (report base thread p)

theorem numeral_eq_iff (a u : Nat) : numeral 16 a = toString u ↔ a = reread 10 16 u := by
  unfold numeral
  rw [Nat.toString_eq_ofList_toDigits, String.ofList_inj]
  exact toDigits_eq_iff (by decide) (by decide) le_rfl

/-- The message after a walk is right exactly when the counter reads as the number of blocks. -/
theorem report_right (base : Nat) (thread : String) (p : PsPool) (c u : Nat) :
    (((report base thread p c).isSome ↔ 0 < u) ∧
      ∀ r, report base thread p c = some r → r.units = toString u) ↔
    p.allocated_.toNat = reread 10 16 u := by
  have zero : p.allocated_ ≠ 0 ↔ 0 < p.allocated_.toNat := by bv_omega
  have positive : 0 < reread 10 16 u ↔ 0 < u := by
    refine ⟨fun more => ?_, reread_pos (by decide) (by decide)⟩
    by_contra none_
    have null : u = 0 := by omega
    subst null
    exact absurd more (by decide)
  unfold report
  by_cases silent : p.allocated_ = 0
  · rw [if_neg (not_not.mpr silent)]
    have null : p.allocated_.toNat = 0 := by rw [silent]; rfl
    rw [null]
    simp only [Option.isSome_none, Bool.false_eq_true, false_iff, reduceCtorEq, false_implies,
      implies_true, and_true]
    omega
  · rw [if_pos silent, ← numeral_eq_iff]
    simp only [Option.isSome_some, true_iff, Option.some.injEq, forall_eq']
    refine ⟨And.right, fun same => ⟨?_, same⟩⟩
    rw [← positive, ← (numeral_eq_iff _ _).mp same, ← zero]
    exact silent

/-- **The message of a class is right exactly when its walk ends and its counter reads as the number of
blocks.** -/
theorem message_right (read : Reads) (base : Nat) (thread : String) (p : PsPool) (u : Nat) :
    (∃ rounds said, message read base thread rounds p = some said ∧ (said.isSome ↔ 0 < u) ∧
      ∀ r, said = some r → r.units = toString u) ↔
    Leads read 0 p.free_ ∧ p.allocated_.toNat = reread 10 16 u := by
  constructor
  · rintro ⟨rounds, said, printed, right⟩
    obtain ⟨c, ends, rfl⟩ := Option.map_eq_some_iff.mp printed
    exact ⟨(walkFree_ends read 0 p.free_).mp ⟨rounds, c, ends⟩,
      (report_right base thread p c u).mp right⟩
  · rintro ⟨leads, same⟩
    obtain ⟨rounds, c, ends⟩ := (walkFree_ends read 0 p.free_).mpr leads
    refine ⟨rounds, report base thread p c, ?_, (report_right base thread p c u).mpr same⟩
    unfold message
    rw [ends]
    rfl

/-! ### The walk in a run -/

variable {T : Type} [DecidableEq T] {s s' : State T} {n : Nat} {t u : T} {i : SizeClass}
  {build : Build} {act : Act T}

/-- A step of the thread. -/
def actsFor (t : T) : Act T → Bool
  | .start u | .alloc u _ _ _ | .pop u _ _ | .advance u | .finish u | .free u _ | .exit u _ | .unlink u
  | .push u => u = t
  | .write _ _ | .elsewhere _ _ => false

/-- What the others do leaves the phase of a thread alone. -/
theorem Inv.phase_alone (inv : Inv n s) (supplied : Supplied n s act) (next : s.step build act = some s')
    (other : actsFor t act = false) : s'.phase t = s.phase t := by
  have another : ∀ {u : T} {phase : Phase}, decide (u = t) = false →
      Function.update s.phase u phase t = s.phase t := fun different =>
    Function.update_of_ne (Ne.symm (of_decide_eq_false different)) _ _
  cases moves_of_step next with
  | start | starved | popped | advance | exit | close | unlink | push => exact another other
  | alloc =>
    obtain ⟨b, placed⟩ := inv.placed_alloc supplied next
    rw [placed.phase]
    exact another other
  | finish here =>
    obtain ⟨b, placed⟩ := inv.placed_finish here next
    rw [placed.phase]
    exact another other
  | free =>
    obtain ⟨b, _, _, _, released⟩ := inv.released next
    rw [released.phase]
  | write | elsewhere => rfl

/-- **What the others do leaves a free list alone.** -/
theorem Inv.frees_alone (inv : Inv n s) (supplied : Supplied n s act) (after : Inv n s')
    (next : s.step build act = some s') (other : actsFor t act = false) (opens : (s.phase t).Open i) :
    (s'.ghost.layout (t, i)).frees = (s.ghost.layout (t, i)).frees := by
  have opens' : (s'.phase t).Open i := by
    rwa [inv.phase_alone supplied next other]
  have notGiven : gives t i (s, act) = none := by
    cases act with
    | free u ptr =>
      have another : u ≠ t := of_decide_eq_false other
      exact if_neg fun both => another both.1
    | _ => rfl
  have notTaken : takes t i (s, act) = false := by
    cases act with
    | alloc u bytes info malloc =>
      have another : u ≠ t := of_decide_eq_false other
      exact decide_eq_false fun both => another both.1
    | finish u =>
      have another : u ≠ t := of_decide_eq_false other
      unfold takes
      simp only [another, false_and, decide_false]
      split <;> rfl
    | _ => rfl
  cases (moved_step inv supplied after next (.inl opens')).2 with
  | taken _ take => rw [notTaken] at take; cases take
  | given _ _ give => rw [notGiven] at give; cases give
  | still _ _ frees => exact frees

/-- **Every read of a committed word returns what it held at some moment of the walk**: in some state since
the last step of the thread. -/
def Watches (build : Build) (n : Nat) (t : T) (s : State T) (read : Reads) : Prop :=
  ∀ c f, ∃ acts m, (machine T build n).Exec (fun s act => Supplied n s act ∧ Orderly s act) s acts m ∧
    (∀ act ∈ acts, actsFor t act = false) ∧
    (m.ptr_ ≤ f → f + 8 ≤ m.head_ → read c f = some (load m.mem f 8))

/-- While the others go on, the thread stands where it stood. -/
theorem Inv.phase_run {acts : List (Act T)}
    (run : (machine T build n).Exec (fun s act => Supplied n s act ∧ Orderly s act) s acts s') :
    Inv n s → (∀ act ∈ acts, actsFor t act = false) → Inv n s' ∧ s'.phase t = s.phase t := by
  induction run with
  | nil => exact fun inv _ => ⟨inv, rfl⟩
  | cons admitted next _ ih =>
    intro inv others
    obtain ⟨last, same⟩ := ih (inv.keeps build n _ _ _ admitted next) fun act member =>
      others act (.tail _ member)
    exact ⟨last, same.trans (inv.phase_alone admitted.1 next (others _ List.mem_cons_self))⟩

/-- And its list stays. -/
theorem Inv.frees_run {acts : List (Act T)}
    (run : (machine T build n).Exec (fun s act => Supplied n s act ∧ Orderly s act) s acts s') :
    Inv n s → (s.phase t).Open i → (∀ act ∈ acts, actsFor t act = false) →
    (s'.ghost.layout (t, i)).frees = (s.ghost.layout (t, i)).frees := by
  induction run with
  | nil => exact fun _ _ _ => rfl
  | cons admitted next _ ih =>
    intro inv opens others
    have after := inv.keeps build n _ _ _ admitted next
    have other := others _ List.mem_cons_self
    have same := inv.frees_alone admitted.1 after next other opens
    rw [← inv.phase_alone admitted.1 next other] at opens
    exact (ih after opens fun act member => others act (.tail _ member)).trans same

/-- A chunk was committed when it was issued. -/
theorem Inv.chunk_committed (inv : Inv n s) {c : Nat} {p : Place T} (here : At s c p) :
    s.ptr_ ≤ c ∧ c + kDefaultChunkSize ≤ s.head_ := by
  obtain ⟨m, _, head⟩ := inv.reserved.frontier
  obtain ⟨j, below, rfl⟩ := (issued_iff head c).mp (inv.located.only c p here)
  rw [head]
  unfold chunkAt kDefaultChunkSize
  omega

theorem Inv.free_committed (inv : Inv n s) {f : Nat} (free : f ∈ (s.ghost.layout (t, i)).frees) :
    s.ptr_ ≤ f ∧ f + 8 ≤ s.head_ := by
  obtain ⟨k, base, chunk, low, high⟩ := inv.housing.family.inside (inv.housing.family.carved_free free)
  have here : At s base (.chain k) := chunk
  have committed := inv.chunk_committed here
  have bounds := classSize_bounds i
  rw [inv.size] at high
  simp only at high
  omega

/-- The links that a walk reads are those of the list as it stood when the walk began. -/
theorem Inv.leads {read : Reads} (inv : Inv n s) (opens : (s.phase t).Open i)
    (watches : Watches build n t s read) : ∀ (list before : List Nat) (p c : Nat),
    (s.ghost.layout (t, i)).frees = before ++ list → toPtr p = list.head? → Leads read c p := by
  intro list
  induction list with
  | nil =>
    intro before p c _ head
    have null : p = 0 := by
      by_contra some_
      unfold toPtr at head
      rw [if_neg some_] at head
      cases head
    rw [null]
    exact .null c
  | cons f rest ih =>
    intro before p c split head
    have some_ : p ≠ 0 := by
      rintro rfl
      cases head
    have same : p = f := by
      unfold toPtr at head
      rw [if_neg some_] at head
      exact Option.some.inj head
    subst same
    -- the block is on the list in the state whose memory is read
    obtain ⟨acts, m, run, others, reads⟩ := watches c p
    have inv' := (Inv.phase_run run inv others).1
    have frees := Inv.frees_run run inv opens others
    have chain := (inv'.represents (t, i)).free
    rw [frees, split] at chain
    have link := chain.suffix
    have member : p ∈ (m.ghost.layout (t, i)).frees := by
      rw [frees, split]
      exact List.mem_append_right _ List.mem_cons_self
    obtain ⟨low, high⟩ := inv'.free_committed member
    refine .link some_ (reads low high) (ih (before ++ [p]) _ (c + 1) ?_ link.2.head_eq)
    rw [split, List.append_cons]

/-- **The walk of a free list ends**, whatever the others do meanwhile. -/
theorem Inv.walk_ends {read : Reads} {acts : List (Act T)} (inv : Inv n s)
    (run : (machine T build n).Exec (fun s act => Supplied n s act ∧ Orderly s act) s acts s')
    (others : ∀ act ∈ acts, actsFor t act = false) (opens : (s'.phase t).Open i)
    (watches : Watches build n t s read) : Leads read 0 ((s'.pool t).tlsPool i).free_ := by
  obtain ⟨inv', phase⟩ := Inv.phase_run run inv others
  have chain := (inv'.represents (t, i)).free
  rw [view_open opens] at chain
  rw [phase] at opens
  rw [Inv.frees_run run inv opens others] at chain
  exact inv.leads opens watches _ [] _ 0 rfl chain.head_eq

end NpAlloc.Threads
