/-
**The inductive invariant of `lf_stack`.**

`Inv s` ties the shared chain to the abstract stack, and every thread's stale locals to the shared
chain:

* the chain from `head_.ptr` is the abstract stack, and exactly the stack's nodes are owned by it;
* `head_.aba` is the number of successful compare-exchanges modulo `2 ^ 64`;
* a thread holding a loaded `curr` has the tag of its stamp, and **if no compare-exchange succeeded
  since, `curr` is still `head_`** — and then the `next` a pop has read is still the link of the top.

Everything one thread can do is seen by the others only through `Untouched`: what they own keeps its
owner and its link, and as long as the count has not moved neither `head_` nor any link in the stack
has. `PcInv.frame` derives from it once that no thread's part of the invariant is broken by another;
each atomic step then has only its own thread to look after.
-/

import NpAlloc.LfStack.Model

set_option linter.unusedSectionVars false

namespace NpAlloc.LfStack

variable {T N : Type}

/-! ### The invariant -/

/-- What a thread knows of a `head_` it has loaded. -/
structure Loaded (ghost : Ghost T N) (head : Head N) (t : T) (curr : Head N) : Prop where
  tag : curr.aba = BitVec.ofNat 64 (ghost.stamp t)
  fresh : ghost.stamp t = ghost.casCount → curr = head

/-- What holds of a thread at each program counter. -/
def PcInv (s : State T N) (t : T) : Pc N → Prop
  | .idle | .popLoad | .pushRet | .detachLoad => True
  | .popRead curr => Loaded s.ghost s.head t curr
  | .popCas curr next => Loaded s.ghost s.head t curr ∧ next.aba = curr.aba + 1 ∧
      ∃ node, curr.ptr = some node ∧
        (s.ghost.stamp t = s.ghost.casCount → next.ptr = s.next node)
  | .popRet result => ∀ node, result = some node → s.ghost.owner node = .client t
  | .pushLoad ptr => s.ghost.owner ptr = .client t
  | .pushWrite ptr curr => Loaded s.ghost s.head t curr ∧ s.ghost.owner ptr = .client t
  | .pushCas ptr curr next => Loaded s.ghost s.head t curr ∧ s.ghost.owner ptr = .client t ∧
      s.next ptr = curr.ptr ∧ next = ⟨curr.aba + 1, some ptr⟩
  | .detachTest curr => Loaded s.ghost s.head t curr
  | .detachCas curr next => Loaded s.ghost s.head t curr ∧ next = ⟨curr.aba + 1, none⟩
  | .detachRet result => Linked s.next result (s.ghost.taken t) ∧
      ∀ node ∈ s.ghost.taken t, s.ghost.owner node = .client t

/-- **The invariant.** -/
structure Inv (s : State T N) : Prop where
  chain : Linked s.next s.head.ptr s.ghost.stack
  owned : ∀ node, node ∈ s.ghost.stack ↔ s.ghost.owner node = .stack
  tag : s.head.aba = BitVec.ofNat 64 s.ghost.casCount
  stamp : ∀ t, s.ghost.stamp t ≤ s.ghost.casCount
  pcs : ∀ t, PcInv s t (s.pc t)

/-! ### What other threads can change -/

/-- **The most a step of another thread changes, as thread `u` sees it.** -/
structure Untouched (u : T) (s s' : State T N) : Prop where
  pc : s'.pc u = s.pc u
  stamp : s'.ghost.stamp u = s.ghost.stamp u
  taken : s'.ghost.taken u = s.ghost.taken u
  count : s.ghost.casCount ≤ s'.ghost.casCount
  head : s'.ghost.casCount = s.ghost.casCount → s'.head = s.head
  links : s'.ghost.casCount = s.ghost.casCount → ∀ node ∈ s.ghost.stack, s'.next node = s.next node
  owner : ∀ node, s.ghost.owner node = .client u → s'.ghost.owner node = .client u
  link : ∀ node, s.ghost.owner node = .client u → s'.next node = s.next node

variable {s s' : State T N} {t u : T}

theorem Untouched.refl (s : State T N) : Untouched u s s :=
  ⟨rfl, rfl, rfl, le_rfl, fun _ => rfl, fun _ _ _ => rfl, fun _ owner => owner, fun _ _ => rfl⟩

theorem Untouched.still (same : Untouched u s s') (inv : Inv s)
    (now : s'.ghost.stamp u = s'.ghost.casCount) :
    s'.ghost.casCount = s.ghost.casCount ∧ s.ghost.stamp u = s.ghost.casCount := by
  have before := inv.stamp u
  have after := same.count
  have stamp := same.stamp
  omega

theorem Loaded.frame {curr : Head N} (loaded : Loaded s.ghost s.head u curr) (inv : Inv s)
    (same : Untouched u s s') : Loaded s'.ghost s'.head u curr := by
  refine ⟨by rw [same.stamp]; exact loaded.tag, fun now => ?_⟩
  obtain ⟨count, before⟩ := same.still inv now
  rw [same.head count]
  exact loaded.fresh before

/-- **A thread's part of the invariant survives the steps of the others.** -/
theorem PcInv.frame {pc : Pc N} (holds : PcInv s u pc) (inv : Inv s) (same : Untouched u s s') :
    PcInv s' u pc := by
  cases pc with
  | idle | popLoad | pushRet | detachLoad => trivial
  | popRead curr => exact Loaded.frame holds inv same
  | popCas curr next =>
    obtain ⟨loaded, aba, node, top, link⟩ := holds
    refine ⟨loaded.frame inv same, aba, node, top, fun now => ?_⟩
    obtain ⟨count, before⟩ := same.still inv now
    -- no compare-exchange since the load, so the node read is still the top of the stack
    have member : node ∈ s.ghost.stack := by
      have chain := inv.chain
      rw [← loaded.fresh before, top] at chain
      obtain ⟨rest, split, _⟩ := chain.exists_cons
      rw [split]
      exact List.mem_cons_self
    rw [same.links count node member]
    exact link before
  | popRet result => exact fun node found => same.owner node (holds node found)
  | pushLoad ptr => exact same.owner ptr holds
  | pushWrite ptr curr => exact ⟨holds.1.frame inv same, same.owner ptr holds.2⟩
  | pushCas ptr curr next =>
    obtain ⟨loaded, owner, link, shape⟩ := holds
    exact ⟨loaded.frame inv same, same.owner ptr owner, by rw [same.link ptr owner, link], shape⟩
  | detachTest curr => exact Loaded.frame holds inv same
  | detachCas curr next => exact ⟨holds.1.frame inv same, holds.2⟩
  | detachRet result =>
    obtain ⟨chain, owner⟩ := holds
    unfold PcInv
    rw [same.taken]
    exact ⟨chain.congr fun node member => same.link node (owner node member),
      fun node member => same.owner node (owner node member)⟩

/-- **The rule for one step**: the shared part, the stepping thread's own part, and the frame. -/
theorem Inv.of_step (inv : Inv s) (chain : Linked s'.next s'.head.ptr s'.ghost.stack)
    (owned : ∀ node, node ∈ s'.ghost.stack ↔ s'.ghost.owner node = .stack)
    (tag : s'.head.aba = BitVec.ofNat 64 s'.ghost.casCount)
    (stamp : s'.ghost.stamp t ≤ s'.ghost.casCount) (own : PcInv s' t (s'.pc t))
    (others : ∀ u, u ≠ t → Untouched u s s') : Inv s' := by
  refine ⟨chain, owned, tag, fun u => ?_, fun u => ?_⟩
  · by_cases same : u = t
    · rw [same]
      exact stamp
    · have frame := others u same
      rw [frame.stamp]
      exact le_trans (inv.stamp u) frame.count
  · by_cases same : u = t
    · rw [same]
      exact own
    · have frame := others u same
      rw [frame.pc]
      exact (inv.pcs u).frame inv frame

/-! ### The five kinds of step -/

variable [DecidableEq T] [DecidableEq N]

theorem untouched_goto (pc : Pc N) (other : u ≠ t) : Untouched u s (s.goto t pc) :=
  ⟨Function.update_of_ne other _ _, rfl, rfl, le_rfl, fun _ => rfl, fun _ _ _ => rfl,
    fun _ owner => owner, fun _ _ => rfl⟩

theorem untouched_load (pc : Pc N) (other : u ≠ t) : Untouched u s (s.load t pc) :=
  ⟨Function.update_of_ne other _ _, Function.update_of_ne other _ _, rfl, le_rfl, fun _ => rfl,
    fun _ _ _ => rfl, fun _ owner => owner, fun _ _ => rfl⟩

theorem untouched_install {next : Head N} {pc : Pc N} {stack taken : List N} {owner : N → Owner T}
    (kept : ∀ node, s.ghost.owner node = .client u → owner node = .client u) (other : u ≠ t) :
    Untouched u s (s.install t next pc stack owner taken) := by
  have counted : (s.install t next pc stack owner taken).ghost.casCount = s.ghost.casCount + 1 := rfl
  exact ⟨Function.update_of_ne other _ _, rfl, Function.update_of_ne other _ _, by omega,
    fun still => by omega, fun still => by omega, kept, fun _ _ => rfl⟩

theorem untouched_link {node : N} {next : Option N} (inv : Inv s)
    (owner : s.ghost.owner node = .client t) (other : u ≠ t) :
    Untouched u s (s.link node next) := by
  refine ⟨rfl, rfl, rfl, le_rfl, fun _ => rfl, ?_, fun _ owner => owner, ?_⟩
  · intro _ m member
    refine Function.update_of_ne ?_ _ _
    rintro rfl
    rw [(inv.owned m).mp member] at owner
    cases owner
  · intro m theirs
    refine Function.update_of_ne ?_ _ _
    rintro rfl
    rw [owner, Owner.client.injEq] at theirs
    exact other theirs.symm

theorem untouched_own {node : N} {owner : Owner T}
    (before : s.ghost.owner node = .client t ∨ s.ghost.owner node = .nobody) (other : u ≠ t) :
    Untouched u s (s.own node owner) := by
  refine ⟨rfl, rfl, rfl, le_rfl, fun _ => rfl, fun _ _ _ => rfl, ?_, fun _ _ => rfl⟩
  intro m theirs
  refine (Function.update_of_ne ?_ _ _).trans theirs
  rintro rfl
  rcases before with before | before <;> rw [before] at theirs
  · exact other (Owner.client.inj theirs).symm
  · cases theirs

theorem Inv.goto (inv : Inv s) (pc : Pc N) (own : PcInv s t pc) : Inv (s.goto t pc) := by
  refine inv.of_step (t := t) inv.chain inv.owned inv.tag (inv.stamp t) ?_ fun u =>
    untouched_goto pc
  simp only [State.goto, Function.update_self]
  cases pc <;> exact own

theorem loaded_load (inv : Inv s) (pc : Pc N) :
    Loaded (s.load t pc).ghost (s.load t pc).head t s.head := by
  refine ⟨?_, fun _ => rfl⟩
  simp only [State.load, Function.update_self]
  exact inv.tag

theorem Inv.load {pc : Pc N} (inv : Inv s) (own : PcInv (s.load t pc) t pc) :
    Inv (s.load t pc) := by
  refine inv.of_step (t := t) inv.chain inv.owned inv.tag ?_ ?_ fun u => untouched_load pc
  · simp [State.load]
  · have here : (s.load t pc).pc t = pc := Function.update_self ..
    rw [here]
    exact own

theorem Inv.install {next : Head N} {pc : Pc N} {stack taken : List N} {owner : N → Owner T}
    (inv : Inv s) (aba : next.aba = s.head.aba + 1) (chain : Linked s.next next.ptr stack)
    (owned : ∀ node, node ∈ stack ↔ owner node = .stack)
    (kept : ∀ u, u ≠ t → ∀ node, s.ghost.owner node = .client u → owner node = .client u)
    (own : PcInv (s.install t next pc stack owner taken) t pc) :
    Inv (s.install t next pc stack owner taken) := by
  refine inv.of_step (t := t) chain owned ?_ ?_ ?_ fun u other =>
    untouched_install (kept u other) other
  · show next.aba = BitVec.ofNat 64 (s.ghost.casCount + 1)
    rw [aba, inv.tag, BitVec.ofNat_add]
    rfl
  · exact le_trans (inv.stamp t) (Nat.le_succ _)
  · have here : (s.install t next pc stack owner taken).pc t = pc := Function.update_self ..
    rw [here]
    exact own

theorem Inv.link {node : N} {next : Option N} (inv : Inv s)
    (owner : s.ghost.owner node = .client t) (own : PcInv (s.link node next) t (s.pc t)) :
    Inv (s.link node next) := by
  have outside : node ∉ s.ghost.stack := by
    intro member
    rw [(inv.owned node).mp member] at owner
    cases owner
  exact inv.of_step (t := t) (inv.chain.update outside next) inv.owned inv.tag (inv.stamp t) own
    fun u => untouched_link inv owner

theorem Inv.own {node : N} {owner : Owner T} (inv : Inv s) (idle : s.pc t = .idle)
    (before : s.ghost.owner node = .client t ∨ s.ghost.owner node = .nobody)
    (after : owner ≠ .stack) : Inv (s.own node owner) := by
  have outside : node ∉ s.ghost.stack := by
    intro member
    rw [(inv.owned node).mp member] at before
    rcases before with before | before <;> cases before
  refine inv.of_step (t := t) inv.chain ?_ inv.tag (inv.stamp t) ?_ fun u => untouched_own before
  · intro m
    show m ∈ s.ghost.stack ↔ Function.update s.ghost.owner node owner m = .stack
    by_cases same : m = node
    · subst same
      rw [Function.update_self]
      exact ⟨fun member => absurd member outside, fun stack => absurd stack after⟩
    · rw [Function.update_of_ne same]
      exact inv.owned m
  · show PcInv _ t (s.pc t)
    rw [idle]
    trivial

end NpAlloc.LfStack
