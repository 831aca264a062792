/-
**What is in a live block stays there.**

A `Session` is one thread's pool with its memory and the blocks its client holds; the client
allocates, frees what it holds, and writes into the user bytes of what it holds. `Supplied` is the
environment: chunks and `malloc`ed memory are fresh and meet nothing in use.

* **`live_blocks_survive`** — no call changes a byte of a live block it is not about; every live
  block has its size and its fences; and freeing it returns it to where it came from.
-/

import NpAlloc.General.Machine
import NpAlloc.Pool.Blocks

set_option linter.unusedSectionVars false

namespace NpAlloc.Pool

open Mmap (kDefaultChunkSize)

/-! ### Sessions -/

/-- One thread's pool, its memory, and the blocks its client holds. -/
structure Session where
  pool : ThreadPool
  mem : Memory
  live : List (Block SizeClass)
  /-- The layouts of the classes. -/
  layout : SizeClass → Layout

/-- What a client does next, with what the environment gives to an `alloc`. -/
inductive Act
  | alloc (bytes : Nat) (info : Meta) (chunk malloc : Nat)
  | dealloc (ptr : Nat)
  /-- A client writes a byte. -/
  | write (address : Nat) (value : BitVec 8)
  /-- The rest of the program writes a byte. -/
  | elsewhere (address : Nat) (value : BitVec 8)

namespace Session

/-- The layouts after a block was served. -/
def served (s : Session) (chunk : Nat) : Origin SizeClass → SizeClass → Layout
  | .pool i => Function.update s.layout i
      ((s.layout i).take (classSize i) kDefaultChunkSize chunk).2
  | .malloc _ => s.layout

/-- The layouts after a block was given back. -/
def returned (s : Session) (base : Nat) : Origin SizeClass → SizeClass → Layout
  | .pool i => Function.update s.layout i ((s.layout i).give base)
  | .malloc _ => s.layout

/-- **One step of the client.** -/
def step (build : Build) (s : Session) : Act → Option Session
  | .alloc bytes info chunk malloc =>
    match s.pool.alloc (fun _ => .ok (chunk, ())) malloc ⟨s.mem, ()⟩ bytes info with
    | .ok (ptr, origin, pool, w) =>
      some ⟨pool, w.mem, ⟨ptr, bytes, origin⟩ :: s.live, s.served chunk origin⟩
    | .error _ => none
  | .dealloc ptr =>
    match s.live.find? fun b => b.ptr = ptr with
    | none => none
    | some b =>
      match s.pool.dealloc build s.mem ptr with
      | .ok (_, pool, mem) => some ⟨pool, mem, s.live.erase b, s.returned b.base b.origin⟩
      | .error _ => none
  | .write address value =>
    if ∃ b ∈ s.live, Within b.ptr b.bytes address then
      some { s with mem := Function.update s.mem address value }
    else none
  | .elsewhere address value => some { s with mem := Function.update s.mem address value }

/-- A new pool; its memory is arbitrary. -/
structure Init (s : Session) : Prop where
  pool : s.pool = .init
  live : s.live = []
  layout : ∀ i, s.layout i = .empty

end Session

/-- The machine of one client. -/
def sessions (build : Build) : Machine Session Act where
  init := Session.Init
  step := Session.step build

/-- **The environment**: requests do not wrap, chunks and `malloc`ed memory are fresh, and the rest
of the program writes to nothing in use. -/
def Supplied (s : Session) : Act → Prop
  | .alloc bytes _ chunk malloc => bytes ≤ 2 ^ 64 - 65 ∧
      (widened bytes ≤ maxAllocSize getAllocSizeList →
        (s.layout (classOf (widened bytes))).hungry (classSize (classOf (widened bytes)))
          kDefaultChunkSize = true →
        0 < chunk ∧ chunk + kDefaultChunkSize < 2 ^ 64 ∧
          Unused s.layout s.live chunk kDefaultChunkSize) ∧
      (maxAllocSize getAllocSizeList < widened bytes →
        0 < malloc ∧ malloc + widened bytes < 2 ^ 64 ∧
          Unused s.layout s.live malloc (widened bytes))
  | .elsewhere address _ => Unused s.layout s.live address 1
  | _ => True

/-- **The invariant of a session.** -/
def Inv (s : Session) : Prop := Housing id s.pool.tlsPool s.layout s.mem s.live

/-- Where a request is served from. -/
def source (bytes malloc : Nat) : Origin SizeClass :=
  if widened bytes ≤ maxAllocSize getAllocSizeList then .pool (classOf (widened bytes)) else .malloc malloc

/-! ### Every step -/

variable {build : Build} {s s' : Session}

/-- **A supplied request is served**, with a block that fits, and no other block changes. -/
theorem Inv.serve {bytes chunk malloc : Nat} {info : Meta} (inv : Inv s)
    (supplied : Supplied s (.alloc bytes info chunk malloc)) :
    ∃ base origin pool mem,
      s.pool.serve (fun _ => .ok (chunk, ())) malloc ⟨s.mem, ()⟩ bytes
        = .ok (base, origin, pool, ⟨mem, ()⟩) ∧ base ≠ 0 ∧ origin = source bytes malloc ∧
      Inv ⟨pool, ThreadPool.dress mem base bytes info, ⟨base + 48, bytes, origin⟩ :: s.live,
        s.served chunk origin⟩ ∧
      ∀ b ∈ s.live,
        SameOn s.mem (ThreadPool.dress mem base bytes info) b.base (blockSize b.bytes) := by
  obtain ⟨bound, fresh, large⟩ := supplied
  have width := widened_eq bound
  by_cases small : widened bytes ≤ maxAllocSize getAllocSizeList
  · obtain ⟨base, pool, w', L, took, result, some_, after, same, _⟩ :=
      Housing.alloc (fun _ => .ok (chunk, ())) chunk () (w := ⟨s.mem, ()⟩) inv
        (classOf (widened bytes)) info (by rw [width]; rfl) (width ▸ small)
        fun hungry => ⟨rfl, fresh small hungry⟩
    refine ⟨_, _, _, _, ThreadPool.serve_pool _ small result, some_, (if_pos small).symm, ?_, same⟩
    have layouts : s.served chunk (.pool (classOf (widened bytes)))
        = Function.update s.layout (classOf (widened bytes)) L :=
      congrArg (Function.update s.layout (classOf (widened bytes))) (congrArg Prod.snd took)
    unfold Inv
    rw [layouts]
    exact after
  · obtain ⟨some_, space, unused⟩ := large (by omega)
    have notSmall := small
    rw [width] at small space unused
    obtain ⟨after, same, _⟩ := Housing.malloc inv info (by omega) space unused
    exact ⟨_, _, _, _, ThreadPool.serve_malloc notSmall, by omega, (if_neg notSmall).symm, after, same⟩

/-- **An `alloc` never fails**, keeps the invariant, and changes no byte of a live block. -/
theorem Inv.alloc {bytes chunk malloc : Nat} {info : Meta} (build : Build) (inv : Inv s)
    (supplied : Supplied s (.alloc bytes info chunk malloc)) :
    ∃ s' ptr origin, s.step build (.alloc bytes info chunk malloc) = some s' ∧
      s'.live = ⟨ptr, bytes, origin⟩ :: s.live ∧ Inv s' ∧
      (∀ b ∈ s.live, b ∈ s'.live ∧ SameOn s.mem s'.mem b.base (blockSize b.bytes)) ∧
      s'.layout = s.served chunk origin ∧ origin = source bytes malloc := by
  obtain ⟨base, origin, pool, mem, result, some_, from_, after, same⟩ := inv.serve supplied
  refine ⟨_, base + 48, origin, ?_, rfl, after, fun b old => ⟨.tail _ old, same b old⟩, rfl, from_⟩
  have answer := ThreadPool.alloc_of_serve info result
  rw [if_neg some_] at answer
  unfold Session.step
  simp only [answer]
  rfl

/-- **Freeing a live block passes its checks and returns it to where it came from.** -/
theorem Inv.dealloc_eq {b : Block SizeClass} (build : Build) (inv : Inv s) (live : b ∈ s.live) :
    s.pool.dealloc build s.mem b.ptr = .ok (b.origin,
      match b.origin with
      | .pool i => (s.pool.set i ((s.pool.tlsPool i).dealloc s.mem b.base).1,
          ((s.pool.tlsPool i).dealloc s.mem b.base).2)
      | .malloc _ => (s.pool, s.mem)) := by
  have intact := inv.intact b live
  obtain ⟨ptr, fits⟩ := inv.shape b live
  rw [ptr]
  cases origin : b.origin with
  | pool i =>
    obtain ⟨_, class_, small, _⟩ := inv.in_pool live origin
    rw [ThreadPool.dealloc_pool build s.pool intact fits small, ← class_]
    rfl
  | malloc p =>
    have housed := inv.housed b live
    unfold Housed at housed
    rw [origin] at housed
    rw [ThreadPool.dealloc_malloc build s.pool intact fits housed.2.1, housed.1]

/-- **A `dealloc`** keeps the invariant, and changes no byte of another live block. -/
theorem Inv.dealloc {b : Block SizeClass} (build : Build) (inv : Inv s) (live : b ∈ s.live) :
    ∃ s', s.step build (.dealloc b.ptr) = some s' ∧ Inv s' ∧
      ∀ c ∈ s.live, c ≠ b → c ∈ s'.live ∧ SameOn s.mem s'.mem c.base (blockSize c.bytes) := by
  have result := inv.dealloc_eq build live
  unfold Session.step
  simp only [inv.find live, result]
  cases origin : b.origin with
  | pool i =>
    obtain ⟨after, same, _⟩ := Housing.dealloc inv live origin (j := i) rfl
    refine ⟨_, rfl, ?_, same⟩
    rw [Family.moved_self] at after
    exact after
  | malloc p =>
    obtain ⟨after, same⟩ := Housing.free inv live origin
    exact ⟨_, rfl, after, same⟩

theorem Inv.step {act : Act} (inv : Inv s) (supplied : Supplied s act)
    (next : s.step build act = some s') : Inv s' := by
  cases act with
  | alloc bytes info chunk malloc =>
    obtain ⟨after, _, _, result, _, holds, _⟩ := inv.alloc build supplied
    rw [result] at next
    cases next
    exact holds
  | dealloc ptr =>
    cases found : s.live.find? (fun b => b.ptr = ptr) with
    | none => simp [Session.step, found] at next
    | some b =>
      have same : b.ptr = ptr := by simpa using List.find?_some found
      subst same
      obtain ⟨after, result, holds, _⟩ := inv.dealloc build (List.mem_of_find?_eq_some found)
      rw [result] at next
      cases next
      exact holds
  | write address value =>
    simp only [Session.step, Option.ite_none_right_eq_some, Option.some.injEq] at next
    obtain ⟨⟨b, live, within⟩, rfl⟩ := next
    exact Housing.write inv live value within
  | elsewhere address value =>
    cases next
    exact (Housing.elsewhere inv value supplied).1

/-- A new pool meets the invariant. -/
theorem Inv.init (start : Session.Init s) : Inv s := by
  obtain ⟨pool, live, layout⟩ := start
  unfold Inv
  rw [pool, live, show s.layout = fun _ => .empty from funext layout]
  exact Housing.init id s.mem

/-- **The invariant holds in every reachable state.** -/
theorem Inv.reachable (reached : (sessions build).Reachable Supplied s) : Inv s :=
  Machine.invariant (I := Inv) (fun _ start => .init start)
    (fun _ _ _ inv supplied next => inv.step supplied next) reached

/-- **What a session promises in a state.** -/
structure Survives (build : Build) (s : Session) : Prop where
  /-- No call changes the header, the fences or the user bytes of a live block it is not about. -/
  bytes : ∀ act s', (∀ address value, act ≠ .write address value) → Supplied s act →
    s.step build act = some s' → ∀ b ∈ s.live, act ≠ .dealloc b.ptr →
      b ∈ s'.live ∧ SameOn s.mem s'.mem b.base (blockSize b.bytes)
  /-- Every live block has the size it was asked for, and its fences. -/
  intact : ∀ b ∈ s.live, Intact s.mem b.base b.bytes
  /-- Freeing it passes the assertions and returns it to where it came from. -/
  returns : ∀ b ∈ s.live, ∃ pool mem, s.pool.dealloc build s.mem b.ptr = .ok (b.origin, pool, mem)
  /-- No request faults. -/
  serves : ∀ bytes info chunk malloc, Supplied s (.alloc bytes info chunk malloc) →
    ∃ s' ptr origin, s.step build (.alloc bytes info chunk malloc) = some s' ∧
      s'.live = ⟨ptr, bytes, origin⟩ :: s.live

/-- **Live blocks survive every call.** In every state a sequence of `alloc`s, `dealloc`s of live
pointers and writes to live blocks reaches, with requests up to `2 ^ 64 - 65` bytes and fresh chunks
and `malloc`ed memory. -/
theorem live_blocks_survive (build : Build) (s : Session)
    (reached : (sessions build).Reachable Supplied s) :
    Survives build s := by
  have inv := Inv.reachable reached
  refine ⟨?_, inv.intact, ?_, ?_⟩
  · intro act s' call supplied next b live other
    cases act with
    | alloc bytes info chunk malloc =>
      obtain ⟨after, _, _, result, _, _, same, _⟩ := inv.alloc build supplied
      rw [result] at next
      cases next
      exact same b live
    | dealloc ptr =>
      cases found : s.live.find? (fun b => b.ptr = ptr) with
      | none => simp [Session.step, found] at next
      | some c =>
        have same : c.ptr = ptr := by simpa using List.find?_some found
        subst same
        obtain ⟨after, result, _, others⟩ := inv.dealloc build (List.mem_of_find?_eq_some found)
        rw [result] at next
        cases next
        exact others b live fun same => other (by rw [same])
    | write address value => exact absurd rfl (call address value)
    | elsewhere address value =>
      cases next
      exact ⟨live, (Housing.elsewhere inv value supplied).2 b live⟩
  · intro b live
    exact ⟨_, _, inv.dealloc_eq build live⟩
  · intro bytes info chunk malloc supplied
    obtain ⟨after, ptr, origin, result, live, _⟩ := inv.alloc build supplied
    exact ⟨after, ptr, origin, result, live⟩

/-! ### Memory handed out upwards -/

/-- Everything in use lies below an address. -/
structure Session.Below (s : Session) (a : Nat) : Prop where
  chunks : ∀ i, ∀ base ∈ (s.layout i).bases, base + kDefaultChunkSize ≤ a
  blocks : ∀ b ∈ s.live, b.base + blockSize b.bytes ≤ a

variable {a n : Nat}

theorem Session.Below.init (start : Session.Init s) : s.Below a := by
  refine ⟨fun i base member => ?_, fun b member => ?_⟩
  · rw [start.layout] at member
    exact absurd member List.not_mem_nil
  · rw [start.live] at member
    exact absurd member List.not_mem_nil

theorem Session.Below.mono {a' : Nat} (below : s.Below a) (higher : a ≤ a') : s.Below a' :=
  ⟨fun i base member => (below.chunks i base member).trans higher,
    fun b live => (below.blocks b live).trans higher⟩

/-- **What is handed out upwards is fresh.** -/
theorem Session.Below.supplied (below : s.Below a) (bytes : Nat) (info : Meta)
    (some_ : 0 < a) (chunk : a + kDefaultChunkSize < 2 ^ 64) (bound : a + (bytes + 64) < 2 ^ 64) :
    Supplied s (.alloc bytes info a a) := by
  have width : widened bytes = bytes + 64 := widened_eq (by omega)
  have unused : ∀ n, Unused s.layout s.live a n := fun n =>
    ⟨fun i base member => .inr (below.chunks i base member), fun b live => .inr (below.blocks b live)⟩
  exact ⟨by omega, fun _ _ => ⟨some_, chunk, unused _⟩, fun _ => ⟨some_, by omega, unused _⟩⟩

/-- **A request** takes what it was given. -/
theorem Inv.alloc_below {bytes : Nat} {info : Meta} (inv : Inv s) (below : s.Below a)
    (supplied : Supplied s (.alloc bytes info a a)) (build : Build) :
    ∃ s' ptr, s.step build (.alloc bytes info a a) = some s' ∧
      s'.live = ⟨ptr, bytes, source bytes a⟩ :: s.live ∧ Inv s' ∧
      s'.Below (a + kDefaultChunkSize + (bytes + 64)) := by
  obtain ⟨s', ptr, origin, next, live, after, _, layout, from_⟩ := inv.alloc build supplied
  have chunks : ∀ i, ∀ base ∈ (s'.layout i).bases, base + kDefaultChunkSize ≤ a + kDefaultChunkSize := by
    intro i base member
    have old : base ∈ (s.layout i).bases → base + kDefaultChunkSize ≤ a + kDefaultChunkSize := fun old =>
      (below.chunks i base old).trans (Nat.le_add_right _ _)
    rw [layout] at member
    cases origin with
    | malloc p => exact old member
    | pool j =>
      change base ∈ (Function.update s.layout j _ i).bases at member
      by_cases own : i = j
      · subst own
        rw [Function.update_self, Layout.take_bases] at member
        split at member
        · rcases List.mem_cons.mp member with rfl | there
          · exact Nat.le_refl _
          · exact old there
        · exact old member
      · rw [Function.update_of_ne own] at member
        exact old member
  refine ⟨s', ptr, next, from_ ▸ live, after, fun i base member => ?_, fun b member => ?_⟩
  · exact (chunks i base member).trans (Nat.le_add_right _ _)
  · rw [live] at member
    rcases List.mem_cons.mp member with rfl | older
    · have here : (⟨ptr, bytes, origin⟩ : Block SizeClass) ∈ s'.live := by
        rw [live]
        exact List.mem_cons_self
      cases origin with
      | pool i =>
        obtain ⟨served, _, _, fits⟩ := Housing.in_pool after here rfl
        obtain ⟨j, base, chunk, _, high⟩ := after.family.inside (after.family.carved_live served)
        exact (Nat.add_le_add_left fits _).trans
          ((high.trans (chunks j base chunk)).trans (Nat.le_add_right _ _))
      | malloc p =>
        have housed : (⟨ptr, bytes, .malloc p⟩ : Block SizeClass).base = p := (after.housed _ here).1
        have own : p = a := by
          unfold source at from_
          split at from_ <;> cases from_
          rfl
        rw [housed, own]
        show a + (bytes + 64) ≤ _
        exact Nat.add_le_add_right (Nat.le_add_right _ _) _
    · have low := below.blocks b older
      omega

/-- **A block given back** stays where it is. -/
theorem Inv.dealloc_below {b : Block SizeClass} (inv : Inv s) (below : s.Below a) (held : b ∈ s.live)
    (build : Build) : ∃ s', s.step build (.dealloc b.ptr) = some s' ∧ s'.live = s.live.erase b ∧
      Inv s' ∧ s'.Below a := by
  obtain ⟨s', next, after, _⟩ := inv.dealloc build held
  have shape := next
  unfold Session.step at shape
  simp only [inv.find held, inv.dealloc_eq build held, Option.some.injEq] at shape
  subst shape
  refine ⟨_, next, rfl, after, fun i base member => ?_, fun c live => ?_⟩
  · refine below.chunks i base ?_
    cases origin : b.origin with
    | malloc p =>
      simp only [origin] at member
      exact member
    | pool j =>
      simp only [origin, Session.returned] at member
      by_cases own : i = j
      · subst own
        rw [Function.update_self] at member
        exact member
      · rwa [Function.update_of_ne own] at member
  · exact below.blocks c (List.mem_of_mem_erase live)

/-- A new pool over a memory of zeros. -/
def Session.first : Session := ⟨.init, fun _ => 0, [], fun _ => .empty⟩

/-- Requests of two classes and one to `malloc`; the first block is freed, and its class asked again. -/
theorem live_blocks_survive_three : ∃ s, (sessions .debug).Reachable Supplied s ∧
    s.live.map (fun b => (b.bytes, b.origin)) = [(100, .pool (classOf 164)),
      (9000, .malloc (2 ^ 42)), (10, .pool (classOf 74))] ∧ Survives .debug s := by
  have start : (sessions .debug).init Session.first := ⟨rfl, rfl, fun _ => rfl⟩
  have below : Session.first.Below (2 ^ 40) := .init start
  have inv := Inv.init start
  have first := below.supplied 100 ⟨1, 0, 0⟩ (by decide) (by decide) (by decide)
  obtain ⟨s₁, p₁, step₁, live₁, inv₁, below₁⟩ := inv.alloc_below below first .debug
  have second := (below₁.mono (show _ ≤ 2 ^ 41 by decide)).supplied 10 ⟨2, 0, 0⟩ (by decide) (by decide)
    (by decide)
  obtain ⟨s₂, p₂, step₂, live₂, inv₂, below₂⟩ := inv₁.alloc_below (below₁.mono (by decide)) second .debug
  have third := (below₂.mono (show _ ≤ 2 ^ 42 by decide)).supplied 9000 ⟨3, 0, 0⟩ (by decide) (by decide)
    (by decide)
  obtain ⟨s₃, p₃, step₃, live₃, inv₃, below₃⟩ := inv₂.alloc_below (below₂.mono (by decide)) third .debug
  have held : (⟨p₁, 100, source 100 (2 ^ 40)⟩ : Block SizeClass) ∈ s₃.live := by
    rw [live₃, live₂, live₁]
    simp
  obtain ⟨s₄, step₄, live₄, inv₄, below₄⟩ := inv₃.dealloc_below below₃ held .debug
  have fifth := (below₄.mono (show _ ≤ 2 ^ 43 by decide)).supplied 100 ⟨4, 0, 0⟩ (by decide) (by decide)
    (by decide)
  obtain ⟨s₅, p₅, step₅, live₅, inv₅, below₅⟩ := inv₄.alloc_below (below₄.mono (by decide)) fifth .debug
  have three : (sessions .debug).Reachable Supplied s₃ :=
    (((Machine.Reachable.init start).step first step₁).step second step₂).step third step₃
  have four : (sessions .debug).Reachable Supplied s₄ :=
    three.step (show Supplied s₃ (.dealloc p₁) from trivial) step₄
  have reached : (sessions .debug).Reachable Supplied s₅ := four.step fifth step₅
  refine ⟨s₅, reached, ?_, live_blocks_survive .debug s₅ reached⟩
  have small : ∀ malloc, source 100 malloc = .pool (classOf 164) := fun _ => if_pos (by decide)
  have smaller : ∀ malloc, source 10 malloc = .pool (classOf 74) := fun _ => if_pos (by decide)
  have large : ∀ malloc, source 9000 malloc = .malloc malloc := fun _ => if_neg (by decide)
  rw [live₅, live₄, live₃, live₂, live₁]
  simp [Session.first, small, smaller, large]

end NpAlloc.Pool
