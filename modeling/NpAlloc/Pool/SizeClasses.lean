/-
**The size classes and the table from sizes to classes.**

`getAllocSizeList` is the list `get_alloc_size_list` returns, and `mappingPool sizes` the table that
`init` fills from a list of class sizes.

* `getAllocSizeList_eq` — the loop over doublings ends, with 25 classes of 64 to 8256 bytes.
* **`mappingPool_getElem`** — for any list of sizes, entry `t` of the table is the first class with
  at least `t` bytes, and the table ends at the largest one.
-/

import Mathlib.Data.List.Basic
import Mathlib.Data.List.GetD

namespace NpAlloc.Pool

def kUse32And48AllocSize : Bool := false

def kDefaultAlignSize : Nat := 16

def kL1CacheAlignSize : Nat := 64

def kMaxBlockSize : Nat := 8192 + kL1CacheAlignSize - kDefaultAlignSize

/-! ### The list of sizes -/

/-- The inner loop over `j`: the sizes pushed, and whether it jumped to `done`. -/
def sizesOf (i : Nat) : List Nat → List Nat × Bool
  | [] => ([], false)
  | j :: rest =>
    let allocSize := (j <<< i) * kL1CacheAlignSize + kL1CacheAlignSize
    if allocSize ≥ kMaxBlockSize + kDefaultAlignSize then ([allocSize], true)
    else (allocSize :: (sizesOf i rest).1, (sizesOf i rest).2)

/-- The outer loop from `i` on, if it ends within the given number of rounds. -/
def sizesFrom : Nat → Nat → Option (List Nat)
  | 0, _ => none
  | rounds + 1, i =>
    match sizesOf i [4, 5, 6, 7] with
    | (sizes, true) => some sizes
    | (sizes, false) => (sizesFrom rounds (i + 1)).map (sizes ++ ·)

/-- `get_alloc_size_list()`. -/
def getAllocSizeList : List Nat :=
  (if kUse32And48AllocSize then [32, 48] else [])
    ++ (List.range 4).map (fun i => kL1CacheAlignSize * (i + 1))
    ++ (sizesFrom 6 0).getD []

/-- Six rounds are enough. -/
theorem sizesFrom_ends : (sizesFrom 6 0).isSome = true := by decide

/-- **The 25 classes.** -/
theorem getAllocSizeList_eq : getAllocSizeList =
    [64, 128, 192, 256, 320, 384, 448, 512, 576, 704, 832, 960, 1088, 1344, 1600, 1856, 2112, 2624,
      3136, 3648, 4160, 5184, 6208, 7232, 8256] := by
  decide

/-! ### The table -/

/-- `while (alloc_size >= cur_size) mapping_pool_[cur_size++] = &pool;` -/
def fill (pool allocSize : Nat) (table : List Nat) : List Nat :=
  if table.length ≤ allocSize then fill pool allocSize (table ++ [pool]) else table
termination_by allocSize + 1 - table.length
decreasing_by
  simp only [List.length_append, List.length_singleton]
  omega

/-- The loop over the pools from the given one on. -/
def mappingFrom : List Nat → Nat → List Nat → List Nat
  | [], _, table => table
  | allocSize :: rest, pool, table => mappingFrom rest (pool + 1) (fill pool allocSize table)

/-- `mapping_pool_` for a list of class sizes. -/
def mappingPool (sizes : List Nat) : List Nat := mappingFrom sizes 0 []

/-- `max_alloc_size_`: the loop that keeps the larger size. -/
def maxAllocSize (sizes : List Nat) : Nat :=
  sizes.foldl (fun largest size => if largest < size then size else largest) 0

/-- A round of the loop fills the table up to the pool's size. -/
theorem fill_eq (pool allocSize : Nat) (table : List Nat) :
    fill pool allocSize table
      = table ++ List.replicate (allocSize + 1 - table.length) pool := by
  induction table using fill.induct pool allocSize with
  | case1 table room ih =>
    have one : allocSize + 1 - table.length = allocSize + 1 - (table ++ [pool]).length + 1 := by
      simp only [List.length_append, List.length_singleton]
      omega
    unfold fill
    rw [if_pos room, ih, one, List.replicate_succ, List.append_assoc]
    rfl
  | case2 table room =>
    have none_ : allocSize + 1 - table.length = 0 := by omega
    unfold fill
    rw [if_neg room, none_, List.replicate_zero, List.append_nil]

theorem mappingFrom_getElem (sizes : List Nat) (pool : Nat) (table : List Nat) (t : Nat) :
    (mappingFrom sizes pool table)[t]?
      = if t < table.length then table[t]?
        else (sizes.findIdx? (fun size => t ≤ size)).map (· + pool) := by
  induction sizes generalizing pool table with
  | nil =>
    unfold mappingFrom
    split
    · rfl
    · rename_i after
      rw [List.getElem?_eq_none (by omega)]
      rfl
  | cons size rest ih =>
    unfold mappingFrom
    rw [ih, fill_eq, List.length_append, List.length_replicate, List.findIdx?_cons]
    by_cases before : t < table.length
    · rw [if_pos (by omega), if_pos before, List.getElem?_append_left before]
    · rw [if_neg before]
      by_cases inside : t ≤ size
      · rw [if_pos (by omega), List.getElem?_append_right (by omega), List.getElem?_replicate,
          if_pos (by omega), decide_eq_true inside]
        simp
      · rw [if_neg (by omega), decide_eq_false inside]
        simp only [Bool.false_eq_true, if_false, Option.map_map]
        congr 1
        funext i
        show i + (pool + 1) = i + 1 + pool
        omega

/-- **Entry `t` is the first class with at least `t` bytes.** -/
theorem mappingPool_getElem (sizes : List Nat) (t : Nat) :
    (mappingPool sizes)[t]? = sizes.findIdx? (fun size => t ≤ size) := by
  unfold mappingPool
  rw [mappingFrom_getElem]
  simp

theorem maxAllocSize_eq : maxAllocSize getAllocSizeList = 8256 := by decide

/-- An index of `tls_pool_`. -/
abbrev SizeClass := Fin 25

/-- `mapping_pool_[t]`. -/
def classOf (t : Nat) : SizeClass := Fin.ofNat 25 ((mappingPool getAllocSizeList).getD t 0)

/-- **The class of a size is the first that is large enough**, without the table. -/
theorem classOf_eq (t : Nat) :
    classOf t = Fin.ofNat 25 ((getAllocSizeList.findIdx? fun size => t ≤ size).getD 0) := by
  unfold classOf
  rw [List.getD_eq_getElem?_getD, mappingPool_getElem]

/-- The size of the blocks of a class. -/
def classSize (i : SizeClass) : Nat := getAllocSizeList.getD i 0

/-- **A size of the table is served from a class that is large enough.** -/
theorem classOf_fits {t : Nat} (small : t ≤ maxAllocSize getAllocSizeList) :
    t ≤ classSize (classOf t) := by
  have found : ∃ size ∈ getAllocSizeList, decide (t ≤ size) = true := by
    rw [maxAllocSize_eq] at small
    exact ⟨8256, by decide, decide_eq_true small⟩
  obtain ⟨i, first⟩ :=
    Option.isSome_iff_exists.mp (List.findIdx?_isSome.trans (List.any_eq_true.mpr found))
  obtain ⟨inside, large, _⟩ := List.findIdx?_eq_some_iff_getElem.mp first
  have same : (classOf t : Nat) = i := by
    rw [classOf_eq, first]
    exact Nat.mod_eq_of_lt inside
  unfold classSize
  rw [same, List.getD_eq_getElem _ _ inside]
  exact of_decide_eq_true large

/-- The classes have different sizes. -/
theorem classSize_injective : Function.Injective classSize := by
  have different : ∀ i j : SizeClass, i ≠ j → classSize i ≠ classSize j := by decide
  exact fun i j same => not_not.mp fun other => different i j other same

/-- Every class holds a link and fits many times into a chunk. -/
theorem classSize_bounds : ∀ i : SizeClass, 64 ≤ classSize i ∧ classSize i ≤ 8256 := by decide

end NpAlloc.Pool
