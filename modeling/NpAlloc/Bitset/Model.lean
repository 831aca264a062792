/-
**`np::bitset`: the specialization for 64 positions and the general template.**

`Bitset64` is one word. `Bitset TSize` has a word for every 64 positions, and a word over these, with a
position for each that is not zero. Positions are counted from the most significant bit of a word.

An operation fails where the code asserts (in a Debug build), shifts by more than a word has bits, or
leaves the array of words. `Instantiation` is what the two classes have in common, for the statements
about every size, and `bitset` chooses between them as the compiler does.
-/

import NpAlloc.Build
import NpAlloc.General.Words
import Mathlib.Data.Vector.Basic

namespace NpAlloc

/-- What ends an operation. -/
inductive Bitset.Fault
  /-- `assert(pos <= kIndexSize)` of `get_subpos`. -/
  | aborted
  /-- A shift by 64 or more. -/
  | shift
  /-- An index behind the end of `sub_index_`. -/
  | bounds
deriving DecidableEq

open Bitset (Fault)

/-- `np::clz(x)`. -/
def clz (x : BitVec 64) : Nat := if x ≠ 0 then x.clz.toNat else 64

/-- `np::popcnt(x)`. -/
def popcnt (x : BitVec 64) : Nat := x.cpop.toNat

/-! ### `bitset<64>` -/

structure Bitset64 where
  bits_ : BitVec 64
deriving DecidableEq

namespace Bitset64

def kIndexSize : Nat := 64

def new : Bitset64 := ⟨0⟩

/-- `1ll << (63 - pos)`; the difference wraps if `pos` is larger. -/
def mask (pos : Nat) : Except Fault (BitVec 64) :=
  if pos ≤ 63 then .ok (1#64 <<< (63 - pos)) else .error .shift

def getFrist (b : Bitset64) : Nat := if b.bits_ = 0 then kIndexSize else clz b.bits_

def get (b : Bitset64) (pos : Nat) : Except Fault Bool := do
  let mask ← mask pos
  pure (decide (b.bits_ &&& mask > 0))

def set (b : Bitset64) (pos : Nat) : Except Fault Bitset64 := do
  let mask ← mask pos
  pure ⟨b.bits_ ||| mask⟩

/-- `clear(pos)`, which returns whether no position is left. -/
def clear (b : Bitset64) (pos : Nat) : Except Fault (Bitset64 × Bool) := do
  let mask ← mask pos
  let bits := b.bits_ &&& ~~~ mask
  pure (⟨bits⟩, decide (bits = 0))

def count (b : Bitset64) : Nat := popcnt b.bits_

def setAll (_ : Bitset64) : Bitset64 := ⟨-1⟩

def clearAll (_ : Bitset64) : Bitset64 := ⟨0⟩

/-- `iterator::next()`: where an iterator at a position goes. Its position is a byte. -/
def next (b : Bitset64) (pos_ : Nat) : Except Fault Nat := do
  let pos := (pos_ + 1) % 2 ^ 8
  if pos = kIndexSize then pure pos
  else if 64 ≤ pos then throw .shift
  else
    let t : Bitset64 := ⟨(b.bits_ <<< pos) >>> pos⟩
    pure (t.getFrist % 2 ^ 8)

end Bitset64

/-! ### `bitset<TSize>` -/

def kSubIndexSize : Nat := 64

def kSubIndexCount (TSize : Nat) : Nat := (TSize + (kSubIndexSize - 1)) / kSubIndexSize

/-- `subpos_t`: a word and a position in it. -/
structure Subpos where
  idx : Nat
  pos : Nat

structure Bitset (TSize : Nat) where
  index_ : Bitset64
  sub_index_ : Vector Bitset64 (kSubIndexCount TSize)

namespace Bitset

variable {TSize : Nat}

def new : Bitset TSize := ⟨.new, .replicate _ .new⟩

def getSubpos (build : Build) (TSize pos : Nat) : Except Fault Subpos :=
  if build = .debug ∧ ¬ pos ≤ TSize then .error .aborted
  else .ok ⟨pos / kSubIndexSize, pos % kSubIndexSize⟩

/-- `sub_index_[idx]`. -/
def sub (b : Bitset TSize) (idx : Nat) : Except Fault Bitset64 :=
  match b.sub_index_[idx]? with
  | some word => .ok word
  | none => .error .bounds

def getFrist (b : Bitset TSize) : Except Fault Nat := do
  let idx := b.index_.getFrist
  if kSubIndexCount TSize ≤ idx then pure TSize
  else
    let sub ← b.sub idx
    pure (idx * kSubIndexSize + sub.getFrist)

def get (build : Build) (b : Bitset TSize) (pos : Nat) : Except Fault Bool := do
  let subpos ← getSubpos build TSize pos
  let sub ← b.sub subpos.idx
  sub.get subpos.pos

def set (build : Build) (b : Bitset TSize) (pos : Nat) : Except Fault (Bitset TSize) := do
  let subpos ← getSubpos build TSize pos
  let index ← b.index_.set subpos.idx
  let sub ← b.sub subpos.idx
  let word ← sub.set subpos.pos
  pure ⟨index, b.sub_index_.setIfInBounds subpos.idx word⟩

/-- `clear(pos)`, which returns whether the words are known to be zero. -/
def clear (build : Build) (b : Bitset TSize) (pos : Nat) : Except Fault (Bitset TSize × Bool) := do
  let subpos ← getSubpos build TSize pos
  let sub ← b.sub subpos.idx
  let (word, zero) ← sub.clear subpos.pos
  let words := b.sub_index_.setIfInBounds subpos.idx word
  if zero then
    let (index, none_) ← b.index_.clear subpos.idx
    pure (⟨index, words⟩, none_)
  else pure (⟨b.index_, words⟩, false)

def count (b : Bitset TSize) : Nat := b.sub_index_.foldl (fun c sub => c + sub.count) 0

def setAll (b : Bitset TSize) : Bitset TSize := ⟨b.index_.setAll, b.sub_index_.map Bitset64.setAll⟩

def clearAll (b : Bitset TSize) : Bitset TSize :=
  ⟨b.index_.clearAll, b.sub_index_.map Bitset64.clearAll⟩

/-- The loop of `iterator::next()`. -/
def scan (build : Build) (b : Bitset TSize) (pos_ : Nat) : Except Fault Nat :=
  if pos_ < TSize then do
    if ← b.get build pos_ then pure pos_ else scan build b (pos_ + 1)
  else pure pos_
termination_by TSize - pos_

/-- `iterator::next()`: where an iterator at a position goes. -/
def next (build : Build) (b : Bitset TSize) (pos_ : Nat) : Except Fault Nat :=
  let pos := (pos_ + 1) % 2 ^ 64
  if pos = TSize then pure pos else b.scan build pos

end Bitset

/-! ### What the two have in common -/

/-- A class that `bitset<TSize>` stands for. -/
structure Instantiation where
  State : Type
  /-- `size()`. -/
  size : Nat
  new : State
  getFrist : State → Except Fault Nat
  get : State → Nat → Except Fault Bool
  set : State → Nat → Except Fault State
  clear : State → Nat → Except Fault (State × Bool)
  count : State → Nat
  setAll : State → State
  clearAll : State → State
  /-- The conversion of a position to the type of `pos_`. -/
  toPos : Nat → Nat
  next : State → Nat → Except Fault Nat

/-- `bitset<64>`. -/
def bitset64 : Instantiation where
  State := Bitset64
  size := Bitset64.kIndexSize
  new := .new
  getFrist b := .ok b.getFrist
  get := Bitset64.get
  set := Bitset64.set
  clear := Bitset64.clear
  count := Bitset64.count
  setAll := Bitset64.setAll
  clearAll := Bitset64.clearAll
  toPos pos := pos % 2 ^ 8
  next := Bitset64.next

/-- The general template. -/
def bitsetOf (build : Build) (TSize : Nat) : Instantiation where
  State := Bitset TSize
  size := TSize
  new := .new
  getFrist := Bitset.getFrist
  get := Bitset.get build
  set := Bitset.set build
  clear := Bitset.clear build
  count := Bitset.count
  setAll := Bitset.setAll
  clearAll := Bitset.clearAll
  toPos pos := pos % 2 ^ 64
  next := Bitset.next build

/-- `bitset<TSize>`. -/
def bitset (build : Build) (TSize : Nat) : Instantiation :=
  if TSize = 64 then bitset64 else bitsetOf build TSize

/-! ### Histories -/

/-- An operation that changes a `bitset`. -/
inductive Op
  | set (pos : Nat)
  | clear (pos : Nat)
  | setAll
  | clearAll
deriving DecidableEq

namespace Op

/-- The positions an operation is called with are below the size. -/
def Within (size : Nat) : Op → Prop
  | set pos | clear pos => pos < size
  | setAll | clearAll => True

instance (size : Nat) (op : Op) : Decidable (op.Within size) := by
  cases op <;> unfold Within <;> infer_instance

/-- The operation is about a position. -/
def affects (pos : Nat) : Op → Bool
  | set p | clear p => decide (p = pos)
  | setAll | clearAll => true

/-- What it makes of the positions it is about. -/
def leaves : Op → Bool
  | set _ | setAll => true
  | clear _ | clearAll => false

/-- `set_all` or `clear_all`. -/
def bulk : Op → Bool
  | setAll | clearAll => true
  | set _ | clear _ => false

end Op

/-- What the last operation of a kind made of its positions. -/
def lastIn (kind : Op → Bool) (ops : List Op) : Bool :=
  match (ops.filter kind).getLast? with
  | some op => op.leaves
  | none => false

/-- What the last operation that is about a position made of it. -/
def lastOf (ops : List Op) (pos : Nat) : Bool := lastIn (Op.affects pos) ops

/-- `set_all` was called, and `clear_all` not after it. -/
def filled (ops : List Op) : Bool := lastIn Op.bulk ops

namespace Instantiation

def apply (I : Instantiation) (s : I.State) : Op → Except Fault I.State
  | .set pos => I.set s pos
  | .clear pos => do
    let (s, _) ← I.clear s pos
    pure s
  | .setAll => .ok (I.setAll s)
  | .clearAll => .ok (I.clearAll s)

/-- The operations, on a new `bitset`. -/
def run (I : Instantiation) (ops : List Op) : Except Fault I.State := ops.foldlM I.apply I.new

end Instantiation

end NpAlloc
