/-
**Every step of `lf_stack` keeps the invariant.**

`Loaded.sync` is where the tag pays: a compare-exchange that finds `head_` equal to its `curr`, with
fewer than `2 ^ 64` successes since its load, has had none. The three lemmas after it say what a
successful compare-exchange installs: `popCas_installs` the node below the top, `pushCas_installs`
the pushed node over the whole stack, `detachCas_installs` nothing.
-/

import NpAlloc.LfStack.Invariant

set_option linter.unusedSectionVars false

namespace NpAlloc.LfStack

variable {T N : Type} [DecidableEq T] [DecidableEq N] {s s' : State T N} {t : T}

/-! ### What a successful compare-exchange finds -/

/-- **Equal tags mean no success in between.** -/
theorem Loaded.sync {curr : Head N} (loaded : Loaded s.ghost s.head t curr) (inv : Inv s)
    (equal : s.head = curr) (bound : s.ghost.casCount < s.ghost.stamp t + 2 ^ 64) :
    s.ghost.stamp t = s.ghost.casCount := by
  have tags : BitVec.ofNat 64 s.ghost.casCount = BitVec.ofNat 64 (s.ghost.stamp t) := by
    rw [← inv.tag, equal, loaded.tag]
  have residues := congrArg BitVec.toNat tags
  rw [BitVec.toNat_ofNat, BitVec.toNat_ofNat] at residues
  have stamp := inv.stamp t
  omega

/-- **A successful pop installs the node that is below the top now.** -/
theorem popCas_installs {curr next : Head N} (inv : Inv s) (here : s.pc t = .popCas curr next)
    (equal : s.head = curr) (bound : s.ghost.casCount < s.ghost.stamp t + 2 ^ 64) :
    ∃ node rest, s.ghost.stack = node :: rest ∧ curr.ptr = some node ∧
      next.aba = curr.aba + 1 ∧ next.ptr = rest.head? ∧ Linked s.next next.ptr rest := by
  have own := inv.pcs t
  rw [here] at own
  obtain ⟨loaded, aba, node, top, link⟩ := own
  have chain := inv.chain
  rw [equal, top] at chain
  obtain ⟨rest, split, tail⟩ := chain.exists_cons
  have now := link (loaded.sync inv equal bound)
  rw [← now] at tail
  exact ⟨node, rest, split, top, aba, tail.head_eq, tail⟩

/-- **A successful push puts its node over the whole stack.** -/
theorem pushCas_installs {ptr : N} {curr next : Head N} (inv : Inv s)
    (here : s.pc t = .pushCas ptr curr next) (equal : s.head = curr) :
    next = ⟨curr.aba + 1, some ptr⟩ ∧ ptr ∉ s.ghost.stack ∧
      Linked s.next (some ptr) (ptr :: s.ghost.stack) := by
  have own := inv.pcs t
  rw [here] at own
  obtain ⟨_, owner, link, shape⟩ := own
  refine ⟨shape, fun member => ?_, rfl, ?_⟩
  · rw [(inv.owned ptr).mp member] at owner
    cases owner
  · rw [link, ← equal]
    exact inv.chain

/-- **A successful detach empties the stack.** -/
theorem detachCas_installs {curr next : Head N} (inv : Inv s)
    (here : s.pc t = .detachCas curr next) : next = ⟨curr.aba + 1, none⟩ := by
  have own := inv.pcs t
  rw [here] at own
  exact own.2

/-! ### Preservation -/

theorem mem_takeAll {owner : N → Owner T} {nodes : List N} {node : N} (member : node ∈ nodes) :
    takeAll owner t nodes node = .client t :=
  if_pos member

theorem not_mem_takeAll {owner : N → Owner T} {nodes : List N} {node : N}
    (outside : node ∉ nodes) : takeAll owner t nodes node = owner node :=
  if_neg outside

/-- Taking nodes of the stack takes nothing from another client. -/
theorem takeAll_kept (inv : Inv s) {nodes : List N} (inside : ∀ node ∈ nodes, node ∈ s.ghost.stack)
    {u : T} {node : N} (theirs : s.ghost.owner node = .client u) :
    takeAll s.ghost.owner t nodes node = .client u := by
  rw [not_mem_takeAll fun member => ?_, theirs]
  rw [(inv.owned node).mp (inside node member)] at theirs
  cases theirs

/-- The nodes left in the stack are the nodes left to the stack. -/
theorem takeAll_owned (inv : Inv s) {nodes rest : List N} (split : s.ghost.stack = nodes ++ rest)
    (node : N) : node ∈ rest ↔ takeAll s.ghost.owner t nodes node = .stack := by
  have distinct := inv.chain.nodup
  rw [split] at distinct
  have apart := List.disjoint_of_nodup_append distinct
  by_cases member : node ∈ nodes
  · rw [mem_takeAll member]
    exact ⟨fun inRest => absurd inRest (apart member), fun impossible => by cases impossible⟩
  · rw [not_mem_takeAll member, ← inv.owned, split, List.mem_append]
    exact ⟨Or.inr, fun either => either.resolve_left member⟩

theorem Inv.popCas {curr next : Head N} (inv : Inv s) (here : s.pc t = .popCas curr next)
    (equal : s.head = curr) (bound : s.ghost.casCount < s.ghost.stamp t + 2 ^ 64) :
    Inv (s.install t next (.popRet curr.ptr) s.ghost.stack.tail
      (takeAll s.ghost.owner t curr.ptr.toList) (s.ghost.taken t)) := by
  obtain ⟨node, rest, split, top, aba, -, tail⟩ := popCas_installs inv here equal bound
  have taken : curr.ptr.toList = [node] := by rw [top]; rfl
  rw [taken, split]
  refine inv.install (by rw [aba, equal]) tail ?_ ?_ ?_
  · exact takeAll_owned inv split
  · exact fun u _ m theirs => takeAll_kept inv (by rw [split]; simp) theirs
  · intro m found
    rw [top] at found
    cases found
    exact mem_takeAll (List.mem_singleton_self _)

theorem Inv.pushCas {ptr : N} {curr next : Head N} (inv : Inv s)
    (here : s.pc t = .pushCas ptr curr next) (equal : s.head = curr) :
    Inv (s.install t next .pushRet (ptr :: s.ghost.stack)
      (Function.update s.ghost.owner ptr .stack) (s.ghost.taken t)) := by
  obtain ⟨rfl, _, chain⟩ := pushCas_installs inv here equal
  have own := inv.pcs t
  rw [here] at own
  obtain ⟨_, owner, _, _⟩ := own
  refine inv.install (by rw [equal]) chain (fun m => ?_) (fun u other m theirs => ?_) trivial
  · by_cases same : m = ptr
    · subst same
      simp
    · rw [List.mem_cons, Function.update_of_ne same, ← inv.owned]
      simp [same]
  · rw [Function.update_of_ne, theirs]
    rintro rfl
    rw [owner] at theirs
    exact other (Owner.client.inj theirs).symm

theorem Inv.detachCas {curr next : Head N} (inv : Inv s) (here : s.pc t = .detachCas curr next)
    (equal : s.head = curr) :
    Inv (s.install t next (.detachRet curr.ptr) [] (takeAll s.ghost.owner t s.ghost.stack)
      s.ghost.stack) := by
  have shape := detachCas_installs inv here
  refine inv.install (by rw [shape, equal]) (by rw [shape]; rfl) ?_ ?_ ⟨?_, ?_⟩
  · exact takeAll_owned inv (List.append_nil _).symm
  · exact fun u _ m theirs => takeAll_kept inv (fun _ member => member) theirs
  · simp only [State.install, Function.update_self]
    rw [← equal]
    exact inv.chain
  · simp only [State.install, Function.update_self]
    exact fun node member => mem_takeAll member

/-- A detach that finds nothing writes only its own ghost. -/
theorem untouched_detachNull {u : T} (other : u ≠ t) :
    Untouched u s ({ s with
      ghost := { s.ghost with taken := Function.update s.ghost.taken t [] } }.goto t
        (.detachRet none)) :=
  ⟨Function.update_of_ne other _ _, rfl, Function.update_of_ne other _ _, le_rfl, fun _ => rfl,
    fun _ _ _ => rfl, fun _ owner => owner, fun _ _ => rfl⟩

/-- **An internal step keeps the invariant.** -/
theorem Inv.internal (inv : Inv s) (moved : Internal s t s') : Inv s' := by
  have own := inv.pcs t
  cases moved with
  | popLoad | detachLoad => exact inv.load (loaded_load inv _)
  | popNull => exact inv.goto (.popRet none) fun _ found => by cases found
  | popNext curr node here top =>
    rw [here] at own
    exact inv.goto _ ⟨own, rfl, node, top, fun _ => rfl⟩
  | popCas curr next here equal bound => exact inv.popCas here equal bound
  | pushLoad ptr entered =>
    refine inv.load ⟨loaded_load inv _, ?_⟩
    rcases entered with here | ⟨curr, next, here⟩ <;> rw [here] at own
    · exact own
    · exact own.2.1
  | pushWrite ptr curr here =>
    rw [here] at own
    have linked : Inv (s.link ptr curr.ptr) := inv.link own.2 (by rw [here]; exact own)
    exact linked.goto _ ⟨own.1, own.2, Function.update_self .., rfl⟩
  | pushCas ptr curr next here equal => exact inv.pushCas here equal
  | detachNull =>
    refine inv.of_step (t := t) inv.chain inv.owned inv.tag (inv.stamp t) ?_ fun u =>
      untouched_detachNull
    simp only [State.goto, Function.update_self]
    refine ⟨?_, ?_⟩ <;> simp
  | detachNext curr node here =>
    rw [here] at own
    exact inv.goto _ ⟨own, rfl⟩
  | detachCas curr next here equal => exact inv.detachCas here equal

/-- **What an internal step leaves alone.** -/
theorem Internal.untouched {u : T} (moved : Internal s t s') (inv : Inv s) (other : u ≠ t) :
    Untouched u s s' := by
  have own := inv.pcs t
  cases moved with
  | popLoad | detachLoad | pushLoad => exact untouched_load _ other
  | popNull | popNext | detachNext => exact untouched_goto _ other
  | popCas curr next here equal bound =>
    obtain ⟨node, rest, split, top, -⟩ := popCas_installs inv here equal bound
    refine untouched_install (fun m theirs => takeAll_kept inv ?_ theirs) other
    rw [top, split]
    simp
  | pushWrite ptr curr here =>
    rw [here] at own
    have linked : Untouched u s (s.link ptr curr.ptr) := untouched_link inv own.2 other
    exact ⟨Function.update_of_ne other _ _, rfl, rfl, linked.count, linked.head, linked.links,
      linked.owner, linked.link⟩
  | pushCas ptr curr next here equal =>
    rw [here] at own
    refine untouched_install (fun m theirs => ?_) other
    rw [Function.update_of_ne, theirs]
    rintro rfl
    rw [own.2.1] at theirs
    exact other (Owner.client.inj theirs).symm
  | detachNull => exact untouched_detachNull other
  | detachCas curr next here equal =>
    exact untouched_install (fun m theirs => takeAll_kept inv (fun _ member => member) theirs) other

/-! ### What a call has in hand -/

/-- The nodes a call owns on the way: a popped one, the one being pushed, a detached stack. -/
def Pc.hand (taken : List N) : Pc N → List N
  | .popRet result => result.toList
  | .pushLoad ptr | .pushWrite ptr _ | .pushCas ptr _ _ => [ptr]
  | .detachRet _ => taken
  | _ => []

/-- What the thread's call has in hand. -/
def hand (s : State T N) (t : T) : List N := (s.pc t).hand (s.ghost.taken t)

theorem hand_owned (inv : Inv s) {node : N} (member : node ∈ hand s t) :
    s.ghost.owner node = .client t := by
  have own := inv.pcs t
  unfold hand at member
  cases here : s.pc t <;> simp only [here, Pc.hand, List.not_mem_nil] at member <;> rw [here] at own
  case popRet result => exact own node (Option.mem_toList.mp member)
  case pushLoad ptr => rwa [List.mem_singleton.mp member]
  case pushWrite ptr curr => rw [List.mem_singleton.mp member]; exact own.2
  case pushCas ptr curr next => rw [List.mem_singleton.mp member]; exact own.2.1
  case detachRet result => exact own.2 node member

theorem hand_nodup (inv : Inv s) : (hand s t).Nodup := by
  have own := inv.pcs t
  unfold hand
  cases here : s.pc t <;> simp only [Pc.hand, List.nodup_nil, List.nodup_singleton] <;>
    rw [here] at own
  case popRet result => cases result <;> simp
  case detachRet result => exact own.1.nodup

/-- A call writes only the link of a node in its hand. -/
theorem Internal.next_eq (moved : Internal s t s') {node : N} (outside : node ∉ hand s t) :
    s'.next node = s.next node := by
  cases moved with
  | pushWrite ptr curr here =>
    have one : hand s t = [ptr] := by rw [hand, here]; rfl
    rw [one, List.mem_singleton] at outside
    exact Function.update_of_ne outside _ _
  | _ => rfl

theorem hand_goto (pc : Pc N) : hand (s.goto t pc) t = pc.hand (s.ghost.taken t) := by
  simp only [hand, State.goto, Function.update_self]

theorem hand_load (pc : Pc N) : hand (s.load t pc) t = pc.hand (s.ghost.taken t) := by
  simp only [hand, State.load, Function.update_self]

theorem hand_install (next : Head N) (pc : Pc N) (stack taken : List N) (owner : N → Owner T) :
    hand (s.install t next pc stack owner taken) t = pc.hand taken := by
  simp only [hand, State.install, Function.update_self]

/-- **A call gains what comes into its hand and loses what leaves it.** -/
theorem Internal.owner_iff (moved : Internal s t s') (inv : Inv s) (node : N) :
    s'.ghost.owner node = .client t ↔
      (s.ghost.owner node = .client t ∧ node ∉ hand s t) ∨ node ∈ hand s' t := by
  -- a step that moves no node and keeps its hand
  have still (owner : s'.ghost.owner = s.ghost.owner) (same : hand s' t = hand s t) :
      s'.ghost.owner node = .client t ↔
        (s.ghost.owner node = .client t ∧ node ∉ hand s t) ∨ node ∈ hand s' t := by
    rw [owner, same]
    by_cases member : node ∈ hand s t
    · simp [member, hand_owned inv member]
    · simp [member]
  cases moved with
  | popLoad entered | detachLoad entered =>
    refine still rfl ?_
    rw [hand_load, hand]
    rcases entered with here | ⟨curr, next, here⟩ <;> rw [here] <;> rfl
  | popNull curr here | popNext curr _ here | detachNext curr _ here =>
    exact still rfl (by rw [hand_goto, hand, here]; rfl)
  | detachNull curr here => exact still rfl (by rw [hand_goto, hand, here]; simp [Pc.hand])
  | pushLoad ptr entered =>
    refine still rfl ?_
    rw [hand_load, hand]
    rcases entered with here | ⟨curr, next, here⟩ <;> rw [here] <;> rfl
  | pushWrite ptr curr here =>
    refine still rfl ?_
    rw [hand_goto, hand, here]
    rfl
  | popCas curr next here =>
    have before : hand s t = [] := by rw [hand, here]; rfl
    rw [before, hand_install]
    by_cases member : node ∈ curr.ptr.toList <;> simp [State.install, takeAll, Pc.hand, member]
  | pushCas ptr curr next here =>
    have before : hand s t = [ptr] := by rw [hand, here]; rfl
    rw [before, hand_install]
    by_cases same : node = ptr <;> simp [State.install, Pc.hand, same]
  | detachCas curr next here =>
    have before : hand s t = [] := by rw [hand, here]; rfl
    rw [before, hand_install]
    by_cases member : node ∈ s.ghost.stack <;> simp [State.install, takeAll, Pc.hand, member]

/-- **What comes into a call's hand comes from the stack.** -/
theorem Internal.hand_from (moved : Internal s t s') (inv : Inv s) {node : N}
    (member : node ∈ hand s' t) : node ∈ hand s t ∨ s.ghost.owner node = .stack := by
  cases moved with
  | popLoad | detachLoad => simp [hand_load, Pc.hand] at member
  | popNull | popNext | detachNull | detachNext => simp [hand_goto, Pc.hand] at member
  | popCas curr next here equal bound =>
    obtain ⟨top, rest, split, ptr, -⟩ := popCas_installs inv here equal bound
    rw [hand_install, Pc.hand, ptr, Option.toList_some, List.mem_singleton] at member
    refine .inr ((inv.owned node).mp ?_)
    rw [split, member]
    exact List.mem_cons_self
  | pushLoad ptr entered =>
    rw [hand_load] at member
    left
    unfold hand
    rcases entered with here | ⟨curr, next, here⟩ <;> rw [here] <;> exact member
  | pushWrite ptr curr here =>
    rw [hand_goto] at member
    left
    rw [hand, here]
    exact member
  | pushCas => simp [hand_install, Pc.hand] at member
  | detachCas curr next here =>
    rw [hand_install] at member
    exact .inr ((inv.owned node).mp member)

/-- No node is created or deleted inside a call. -/
theorem Internal.nobody_iff (moved : Internal s t s') (inv : Inv s) (node : N) :
    s'.ghost.owner node = .nobody ↔ s.ghost.owner node = .nobody := by
  have taken : ∀ nodes : List N, (∀ m ∈ nodes, s.ghost.owner m = .stack) →
      (takeAll s.ghost.owner t nodes node = .nobody ↔ s.ghost.owner node = .nobody) := by
    intro nodes inside
    by_cases member : node ∈ nodes
    · rw [mem_takeAll member, inside node member]
      simp
    · rw [not_mem_takeAll member]
  cases moved with
  | popCas curr next here equal bound =>
    obtain ⟨top, rest, split, ptr, -⟩ := popCas_installs inv here equal bound
    refine taken _ fun m member => (inv.owned m).mp ?_
    rw [ptr, Option.toList_some, List.mem_singleton] at member
    rw [split, member]
    exact List.mem_cons_self
  | pushCas ptr curr next here =>
    have own := inv.pcs t
    rw [here] at own
    change Function.update s.ghost.owner ptr .stack node = .nobody ↔ _
    by_cases same : node = ptr
    · simp [same, own.2.1]
    · rw [Function.update_of_ne same]
  | detachCas => exact taken _ fun m member => (inv.owned m).mp member
  | _ => exact Iff.rfl

/-- A call gives nothing to another client. -/
theorem Internal.owner_other {u : T} (moved : Internal s t s') (other : u ≠ t) {node : N}
    (theirs : s'.ghost.owner node = .client u) : s.ghost.owner node = .client u := by
  have taken : ∀ nodes : List N, takeAll s.ghost.owner t nodes node = .client u →
      s.ghost.owner node = .client u := by
    intro nodes found
    unfold takeAll at found
    split at found
    · exact absurd (Owner.client.inj found).symm other
    · exact found
  cases moved with
  | popCas | detachCas => exact taken _ theirs
  | pushCas ptr curr next here =>
    change Function.update s.ghost.owner ptr .stack node = .client u at theirs
    by_cases same : node = ptr
    · simp [same] at theirs
    · rwa [Function.update_of_ne same] at theirs
  | _ => exact theirs

/-! ### Which function a thread is in -/

/-- The three functions, and none. -/
inductive Kind
  | idle
  | pop
  | push
  | detach
deriving DecidableEq

def Pc.kind : Pc N → Kind
  | .idle => .idle
  | .popLoad | .popRead _ | .popCas _ _ | .popRet _ => .pop
  | .pushLoad _ | .pushWrite _ _ | .pushCas _ _ _ | .pushRet => .push
  | .detachLoad | .detachTest _ | .detachCas _ _ | .detachRet _ => .detach

/-- An internal step stays inside its function. -/
theorem Internal.kind (moved : Internal s t s') : (s'.pc t).kind = (s.pc t).kind := by
  cases moved <;> simp only [State.goto, State.load, State.install, Function.update_self] <;>
    first
      | (rename_i entered; rcases entered with here | ⟨curr, next, here⟩ <;> rw [here] <;> rfl)
      | simp_all [Pc.kind]

/-- A finished call is at the return of its function. -/
theorem Pc.eq_of_result {pc : Pc N} {result : Option N} (finished : pc.result = some result) :
    (pc.kind = .pop → pc = .popRet result) ∧ (pc.kind = .push → pc = .pushRet) ∧
      (pc.kind = .detach → pc = .detachRet result) := by
  cases pc <;> simp_all [Pc.result, Pc.kind]

/-- **Every admitted step keeps the invariant.** -/
theorem Inv.step {act : T × Act T N} (inv : Inv s) (fresh : TagFresh s act)
    (next : step s act = some s') : Inv s' := by
  obtain ⟨t, act⟩ := act
  cases act with
  | call op =>
    simp only [LfStack.step, Option.ite_none_right_eq_some, Option.some.injEq] at next
    obtain ⟨⟨_, allowed⟩, rfl⟩ := next
    refine inv.goto _ ?_
    cases op with
    | pop | detach => trivial
    | push ptr => exact allowed
  | run => exact inv.internal (internal_of_run fresh next)
  | spurious => exact inv.internal (internal_of_spurious next)
  | ret result =>
    simp only [LfStack.step, Option.ite_none_right_eq_some, Option.some.injEq] at next
    obtain ⟨_, rfl⟩ := next
    exact inv.goto .idle trivial
  | write node link =>
    simp only [LfStack.step, Option.ite_none_right_eq_some, Option.some.injEq] at next
    obtain ⟨⟨idle, owner⟩, rfl⟩ := next
    exact inv.link owner (by rw [idle]; trivial)
  | give node other =>
    simp only [LfStack.step, Option.ite_none_right_eq_some, Option.some.injEq] at next
    obtain ⟨⟨idle, owner⟩, rfl⟩ := next
    exact inv.own idle (.inl owner) (by simp)
  | create node =>
    simp only [LfStack.step, Option.ite_none_right_eq_some, Option.some.injEq] at next
    obtain ⟨⟨idle, owner⟩, rfl⟩ := next
    exact inv.own idle (.inr owner) (by simp)
  | delete node =>
    simp only [LfStack.step, Option.ite_none_right_eq_some, Option.some.injEq] at next
    obtain ⟨⟨idle, owner⟩, rfl⟩ := next
    exact inv.own idle (.inl owner) (by simp)

/-- **What a step leaves alone of another thread.** -/
theorem step_untouched {act : Act T N} {u : T} (inv : Inv s) (fresh : TagFresh s (t, act))
    (next : step s (t, act) = some s') (other : u ≠ t) : Untouched u s s' := by
  cases act with
  | run => exact (internal_of_run fresh next).untouched inv other
  | spurious => exact (internal_of_spurious next).untouched inv other
  | call op | ret result =>
    simp only [LfStack.step, Option.ite_none_right_eq_some, Option.some.injEq] at next
    obtain ⟨_, rfl⟩ := next
    exact untouched_goto _ other
  | write node link =>
    simp only [LfStack.step, Option.ite_none_right_eq_some, Option.some.injEq] at next
    obtain ⟨⟨_, owner⟩, rfl⟩ := next
    exact untouched_link inv owner other
  | give node other' | delete node =>
    simp only [LfStack.step, Option.ite_none_right_eq_some, Option.some.injEq] at next
    obtain ⟨⟨_, owner⟩, rfl⟩ := next
    exact untouched_own (.inl owner) other
  | create node =>
    simp only [LfStack.step, Option.ite_none_right_eq_some, Option.some.injEq] at next
    obtain ⟨⟨_, owner⟩, rfl⟩ := next
    exact untouched_own (.inr owner) other

/-- A new stack meets the invariant. -/
theorem Inv.init (start : (machine T N).init s) : Inv s := by
  obtain ⟨⟨head, pc, stack, owner, count⟩, stamp⟩ := start
  refine ⟨?_, fun node => ?_, ?_, fun t => ?_, fun t => ?_⟩
  · rw [head, stack]
    rfl
  · rw [stack]
    exact ⟨fun member => absurd member List.not_mem_nil, fun bad => absurd bad (owner node)⟩
  · rw [head, count]
    rfl
  · rw [stamp, count]
  · rw [pc]
    trivial

/-- **The invariant holds in every reachable state.** -/
theorem Inv.reachable (reached : (machine T N).Reachable TagFresh s) : Inv s :=
  Machine.invariant (fun _ start => .init start) (fun _ _ _ inv fresh next => inv.step fresh next)
    reached

/-! ### A thread that runs alone -/

/-- The thread holds a loaded `head_`. -/
def Pc.loaded : Pc N → Bool
  | .popRead _ | .popCas _ _ | .pushWrite _ _ | .pushCas _ _ _ | .detachTest _ | .detachCas _ _ => true
  | _ => false

/-- No compare-exchange has succeeded since the thread's load. -/
def Synced (s : State T N) (t : T) : Prop :=
  (s.pc t).loaded = true → s.ghost.stamp t = s.ghost.casCount

/-- A thread that runs alone stays synced. -/
theorem Synced.internal (synced : Synced s t) (moved : Internal s t s') : Synced s' t := by
  unfold Synced at synced ⊢
  cases moved with
  | popLoad | pushLoad | detachLoad => simp [State.load]
  | popNull | popCas | pushCas | detachNull | detachCas =>
    simp [State.goto, State.install, Pc.loaded]
  | popNext curr node here | detachNext curr node here | pushWrite ptr curr here =>
    intro _
    exact synced (by rw [here]; rfl)

/-- What a synced thread has loaded is `head_`. -/
theorem Synced.detach {curr : Head N} (synced : Synced s t) (inv : Inv s)
    (here : s.pc t = .detachTest curr ∨ ∃ next, s.pc t = .detachCas curr next) : s.head = curr := by
  have own := inv.pcs t
  rcases here with here | ⟨next, here⟩ <;> rw [here] at own
  · exact (own.fresh (synced (by rw [here]; rfl))).symm
  · exact (own.1.fresh (synced (by rw [here]; rfl))).symm

theorem Synced.push {ptr : N} {curr next : Head N} (synced : Synced s t) (inv : Inv s)
    (here : s.pc t = .pushCas ptr curr next) : s.head = curr := by
  have own := inv.pcs t
  rw [here] at own
  exact (own.1.fresh (synced (by rw [here]; rfl))).symm

/-- Only a step of a call needs it. -/
theorem tagFresh_of_ne {act : T × Act T N} (other : act.2 ≠ .run) : TagFresh s act := by
  intro runs
  exact absurd runs other

/-- A synced thread meets the tag assumption. -/
theorem Synced.tagFresh (synced : Synced s t) : TagFresh s (t, .run) := by
  intro _ atCas
  have now : s.ghost.stamp t = s.ghost.casCount := by
    refine synced ?_
    cases here : s.pc t <;> simp_all [Pc.AtCas, Pc.loaded]
  show s.ghost.casCount < s.ghost.stamp t + 2 ^ 64
  omega

end NpAlloc.LfStack
