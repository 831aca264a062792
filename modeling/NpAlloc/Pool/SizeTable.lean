/-
**The loop that fills `mapping_pool_`, and the class a request is served from.**

`fillTable sizes` is the second loop of `init`, with the index it writes to; `mappingPool` of
`Pool.SizeClasses` is the list of what it wrote (`fillTable_eq`).

* `mappingPool_length` — the table ends at the largest size;
* `ThreadPool.alloc_eq`, `ThreadPool.dealloc_eq` — a request of the table goes to the class of its size;
* **`sizeTable_exact`** — the table of any list of classes, and what it means for `alloc` and `dealloc`.
-/

import NpAlloc.Pool.ThreadPool

set_option linter.unusedSectionVars false

namespace NpAlloc.Pool

/-- `mapping_pool_`, with the indices that nothing was written to yet, and `cur_size`. -/
structure Table where
  mappingPool_ : Nat → Option Nat
  curSize : Nat

/-- `aligned_alloc` and `cur_size = 0`. -/
def Table.new : Table := ⟨fun _ => none, 0⟩

/-- `mapping_pool_[cur_size++] = &pool;` -/
def Table.write (table : Table) (pool : Nat) : Table :=
  ⟨Function.update table.mappingPool_ table.curSize (some pool), table.curSize + 1⟩

/-- `while (alloc_size >= cur_size)`. -/
def fillWhile (pool allocSize : Nat) (table : Table) : Table :=
  if allocSize ≥ table.curSize then fillWhile pool allocSize (table.write pool) else table
termination_by allocSize + 1 - table.curSize
decreasing_by
  show allocSize + 1 - (table.curSize + 1) < allocSize + 1 - table.curSize
  omega

/-- `for (auto& pool : tls_pool_)` from the given pool on. -/
def fillFrom : List Nat → Nat → Table → Table
  | [], _, table => table
  | allocSize :: rest, pool, table => fillFrom rest (pool + 1) (fillWhile pool allocSize table)

/-- The table `init` builds for a list of class sizes. The numbers are those of `size_t` as long as the
bytes of the table, `sizeof(tls_pool*) * (max_alloc_size_ + 1)`, do not wrap, which is up to a largest
size of `2 ^ 61 - 2`; `cur_size` would wrap only at `2 ^ 64 - 1`. -/
def fillTable (sizes : List Nat) : Table := fillFrom sizes 0 .new

/-! ### The list of what was written -/

/-- The table that has a list written to it. -/
def Table.of (entries : List Nat) : Table := ⟨fun t => entries[t]?, entries.length⟩

theorem Table.of_write (entries : List Nat) (pool : Nat) :
    (Table.of entries).write pool = .of (entries ++ [pool]) := by
  unfold Table.of Table.write
  congr 1
  · funext t
    show Function.update (fun t => entries[t]?) entries.length (some pool) t = (entries ++ [pool])[t]?
    rcases Nat.lt_trichotomy t entries.length with before | rfl | after
    · rw [Function.update_of_ne before.ne, List.getElem?_append_left before]
    · rw [Function.update_self, List.getElem?_concat_length]
    · have outside : (entries ++ [pool]).length ≤ t := by
        rw [List.length_append, List.length_singleton]
        exact after
      rw [Function.update_of_ne after.ne', List.getElem?_eq_none after.le, List.getElem?_eq_none outside]
  · rw [List.length_append, List.length_singleton]

theorem fillWhile_of (pool allocSize : Nat) (entries : List Nat) :
    fillWhile pool allocSize (.of entries) = .of (fill pool allocSize entries) := by
  induction entries using fill.induct pool allocSize with
  | case1 entries room ih =>
    unfold fillWhile fill
    rw [if_pos (show allocSize ≥ (Table.of entries).curSize from room), if_pos room, Table.of_write, ih]
  | case2 entries room =>
    unfold fillWhile fill
    rw [if_neg (show ¬ allocSize ≥ (Table.of entries).curSize from room), if_neg room]

theorem fillFrom_of (sizes : List Nat) (pool : Nat) (entries : List Nat) :
    fillFrom sizes pool (.of entries) = .of (mappingFrom sizes pool entries) := by
  induction sizes generalizing pool entries with
  | nil => rfl
  | cons allocSize rest ih =>
    unfold fillFrom mappingFrom
    rw [fillWhile_of, ih]

/-- **The loop writes `mappingPool`**, one index after the other. -/
theorem fillTable_eq (sizes : List Nat) : fillTable sizes = .of (mappingPool sizes) :=
  fillFrom_of sizes 0 []

/-! ### Where it ends -/

theorem le_largest_iff (sizes : List Nat) (largest t : Nat) :
    t ≤ sizes.foldl (fun largest size => if largest < size then size else largest) largest ↔
      t ≤ largest ∨ ∃ size ∈ sizes, t ≤ size := by
  induction sizes generalizing largest with
  | nil => simp
  | cons size rest ih =>
    rw [List.foldl_cons, ih]
    simp only [List.mem_cons, exists_eq_or_imp]
    split
    all_goals
      constructor
      · rintro (small | member)
        · omega
        · exact .inr (.inr member)
      · rintro (small | small | member)
        · exact .inl (by omega)
        · first | exact .inl small | exact .inl (by omega)
        · exact .inr member

/-- The sizes up to the largest class are those that some class serves. -/
theorem le_maxAllocSize_iff {sizes : List Nat} (nonempty : sizes ≠ []) (t : Nat) :
    t ≤ maxAllocSize sizes ↔ ∃ size ∈ sizes, t ≤ size := by
  unfold maxAllocSize
  rw [le_largest_iff]
  constructor
  · rintro (zero | found)
    · obtain ⟨size, member⟩ := List.exists_mem_of_ne_nil sizes nonempty
      exact ⟨size, member, zero.trans (Nat.zero_le size)⟩
    · exact found
  · exact .inr

/-- An index is written exactly when some class serves it. -/
theorem mappingPool_isSome (sizes : List Nat) (t : Nat) :
    ((mappingPool sizes)[t]?).isSome ↔ ∃ size ∈ sizes, t ≤ size := by
  rw [mappingPool_getElem, List.findIdx?_isSome, List.any_eq_true]
  simp only [decide_eq_true_eq]

/-- **The table ends at the largest size.** -/
theorem mappingPool_length {sizes : List Nat} (nonempty : sizes ≠ []) :
    (mappingPool sizes).length = maxAllocSize sizes + 1 := by
  have inside (t : Nat) : t < (mappingPool sizes).length ↔ t ≤ maxAllocSize sizes := by
    rw [le_maxAllocSize_iff nonempty, ← mappingPool_isSome, isSome_getElem?]
  have last := inside (maxAllocSize sizes)
  have after := inside (maxAllocSize sizes + 1)
  omega

/-- **What the loop leaves** for a list of classes: entry `t` is the first class of at least `t` bytes, up
to the largest class, and nothing is written after it. -/
structure Filled (sizes : List Nat) (table : Table) : Prop where
  curSize : table.curSize = maxAllocSize sizes + 1
  first : ∀ t ≤ maxAllocSize sizes, ∃ i size, table.mappingPool_ t = some i ∧ sizes[i]? = some size ∧
    t ≤ size ∧ ∀ j < i, ∀ earlier, sizes[j]? = some earlier → earlier < t
  unwritten : ∀ t, maxAllocSize sizes < t → table.mappingPool_ t = none

theorem fillTable_filled {sizes : List Nat} (nonempty : sizes ≠ []) : Filled sizes (fillTable sizes) := by
  rw [fillTable_eq]
  refine ⟨mappingPool_length nonempty, ?_, ?_⟩
  · intro t small
    have found := (mappingPool_isSome sizes t).mpr ((le_maxAllocSize_iff nonempty t).mp small)
    obtain ⟨i, entry⟩ := Option.isSome_iff_exists.mp found
    have first := entry
    rw [mappingPool_getElem] at first
    obtain ⟨inside, large, earlier⟩ := List.findIdx?_eq_some_iff_getElem.mp first
    refine ⟨i, sizes[i], entry, List.getElem?_eq_getElem inside, of_decide_eq_true large, ?_⟩
    intro j before size' found'
    obtain ⟨_, rfl⟩ := List.getElem?_eq_some_iff.mp found'
    have small' := earlier j before
    exact Nat.lt_of_not_le fun fits => small' (decide_eq_true fits)
  · intro t large
    refine List.getElem?_eq_none ?_
    rw [mappingPool_length nonempty]
    exact large

/-! ### The class of a request -/

/-- **The smallest class** of at least `t` bytes. -/
structure Smallest (t : Nat) (i : SizeClass) : Prop where
  fits : t ≤ classSize i
  least : ∀ j, t ≤ classSize j → classSize i ≤ classSize j

theorem getAllocSizeList_increasing : getAllocSizeList.Pairwise (· < ·) := by decide

/-- In an increasing list the first class that fits is the smallest. -/
theorem smallest_of_first {t : Nat} {i : SizeClass} (fits : t ≤ classSize i)
    (earlier : ∀ j < i, classSize j < t) : Smallest t i := by
  refine ⟨fits, fun j fits' => ?_⟩
  rcases lt_trichotomy i j with before | rfl | after
  · have increasing := List.pairwise_iff_getElem.mp getAllocSizeList_increasing i j (by
      rw [getAllocSizeList_eq]; exact i.isLt) (by rw [getAllocSizeList_eq]; exact j.isLt) before
    unfold classSize
    rw [List.getD_eq_getElem _ _, List.getD_eq_getElem _ _]
    exact increasing.le
  · exact le_rfl
  · have small := earlier j after
    omega

namespace ThreadPool

variable {G : Type}

/-- A request of `bytes` that the pool of class `i` serves. -/
def allocFrom (i : SizeClass) (supply : Supply G) (t : ThreadPool) (w : World G) (bytes : Nat)
    (info : Meta) : Except Fault (Nat × Origin SizeClass × ThreadPool × World G) := do
  let (h, pool, w) ← (t.tlsPool i).alloc supply w
  if h = 0 then
    throw .nullWrite
  else
    pure (h + headerSize + 16, .pool i, t.set i pool, { w with mem := dress w.mem h bytes info })

/-- A block that goes back to the pool of class `i`. -/
def deallocTo (i : SizeClass) (build : Build) (t : ThreadPool) (mem : Memory) (ptr : Nat) :
    Except Fault (Origin SizeClass × ThreadPool × Memory) :=
  let h := ptr - headerSize - 16
  if build = .debug ∧ fencesHold mem (h + headerSize) (load mem h 8) = false then
    .error .aborted
  else
    let (pool, mem) := (t.tlsPool i).dealloc mem h
    .ok (.pool i, t.set i pool, mem)

theorem alloc_eq {supply : Supply G} {malloc bytes : Nat} {t : ThreadPool} {w : World G} {info : Meta}
    (small : widened bytes ≤ maxAllocSize getAllocSizeList) :
    t.alloc supply malloc w bytes info = t.allocFrom (classOf (widened bytes)) supply w bytes info := by
  unfold allocFrom
  cases found : (t.tlsPool (classOf (widened bytes))).alloc supply w with
  | error fault =>
    rw [alloc_fault (serve_fault small found)]
    rfl
  | ok result =>
    obtain ⟨h, pool, w'⟩ := result
    rw [alloc_of_serve info (serve_pool malloc small found)]
    rfl

theorem dealloc_eq {build : Build} {t : ThreadPool} {mem : Memory} {ptr : Nat}
    (small : widened (load mem (ptr - headerSize - 16) 8) ≤ maxAllocSize getAllocSizeList) :
    t.dealloc build mem ptr
      = t.deallocTo (classOf (widened (load mem (ptr - headerSize - 16) 8))) build mem ptr := by
  unfold dealloc deallocTo
  simp only [if_pos small]

end ThreadPool

/-- **The table sends a size to the smallest class that fits.** -/
theorem classOf_smallest {t : Nat} (small : t ≤ maxAllocSize getAllocSizeList) :
    (fillTable getAllocSizeList).mappingPool_ t = some (classOf t).val ∧ Smallest t (classOf t) := by
  have nonempty : getAllocSizeList ≠ [] := by decide
  obtain ⟨i, size, entry, found, fits, earlier⟩ := (fillTable_filled nonempty).first t small
  obtain ⟨inside, rfl⟩ := List.getElem?_eq_some_iff.mp found
  have same : (classOf t).val = i := by
    have entry' : (mappingPool getAllocSizeList)[t]? = some i := by
      rw [fillTable_eq] at entry
      exact entry
    unfold classOf
    rw [List.getD_eq_getElem?_getD, entry']
    exact Nat.mod_eq_of_lt inside
  have size_eq (j : SizeClass) : getAllocSizeList[j.val]? = some (classSize j) := by
    unfold classSize
    have inside : j.val < getAllocSizeList.length := j.isLt
    rw [List.getD_eq_getElem _ _ inside, List.getElem?_eq_getElem inside]
  refine ⟨same ▸ entry, smallest_of_first ?_ ?_⟩
  · exact classOf_fits small
  · intro j before
    exact earlier j (same ▸ before) (classSize j) (size_eq j)

/-- **The size-class table.** For any classes the loop fills every entry up to the largest size with the
first class that fits, and writes no other. The classes of the program increase, and `alloc` and `dealloc`
take the smallest that fits the widened size. -/
theorem sizeTable_exact {G : Type} (sizes : List Nat) (nonempty : sizes ≠ []) :
    Filled sizes (fillTable sizes) ∧ getAllocSizeList.Pairwise (· < ·) ∧
      ∀ t ≤ maxAllocSize getAllocSizeList, ∃ i : SizeClass,
        (fillTable getAllocSizeList).mappingPool_ t = some i.val ∧ Smallest t i ∧
        (∀ (supply : Supply G) (malloc : Nat) (pools : ThreadPool) (w : World G) (bytes : Nat) (info : Meta),
          widened bytes = t →
            pools.alloc supply malloc w bytes info = pools.allocFrom i supply w bytes info) ∧
        ∀ (build : Build) (pools : ThreadPool) (mem : Memory) (ptr : Nat),
          widened (load mem (ptr - headerSize - 16) 8) = t →
            pools.dealloc build mem ptr = pools.deallocTo i build mem ptr := by
  refine ⟨fillTable_filled nonempty, getAllocSizeList_increasing, fun t small => ?_⟩
  obtain ⟨entry, smallest⟩ := classOf_smallest small
  refine ⟨classOf t, entry, smallest, ?_, ?_⟩
  · rintro supply malloc pools w bytes info rfl
    exact ThreadPool.alloc_eq small
  · rintro build pools mem ptr rfl
    exact ThreadPool.dealloc_eq small

/-- Two classes of 64 and 128 bytes: 129 entries, and a request of 32 bytes. -/
theorem sizeTable_exact_two :
    (fillTable [64, 128]).curSize = 129 ∧ (fillTable [64, 128]).mappingPool_ 129 = none ∧
      ∃ i : SizeClass, (fillTable getAllocSizeList).mappingPool_ 96 = some i.val ∧ Smallest 96 i ∧
        ∀ (pools : ThreadPool) (w : World Unit) (info : Meta),
          pools.alloc (fun g => .ok (0, g)) 0 w 32 info
            = pools.allocFrom i (fun g => .ok (0, g)) w 32 info := by
  obtain ⟨filled, _, requests⟩ := sizeTable_exact (G := Unit) [64, 128] (by decide)
  obtain ⟨i, entry, smallest, served, _⟩ := requests 96 (by rw [maxAllocSize_eq]; decide)
  refine ⟨filled.curSize, filled.unwritten 129 (by decide), i, entry, smallest, ?_⟩
  intro pools w info
  exact served _ 0 pools w 32 info (by decide)

end NpAlloc.Pool
