/-
**Calls that write the same into different memories.**

* `Writes P m a m' a'` — two calls, from `m` to `a` and from `m'` to `a'`, leave the same bytes at the
  addresses of `P` and touch nothing else;
* `Writes.trans`, `Writes.restrict` — calls in sequence, and calls known to write less;
* **`Writes.commute`** — two calls that write to disjoint addresses, each the same before and after the
  other, end in the same memory in either order.
-/

import NpAlloc.General.Bytes

namespace NpAlloc

variable {P Q : Nat → Prop} {m m' a a' b b' : Memory}

/-- **The same bytes are written**, whatever was there before. -/
structure Writes (P : Nat → Prop) (m a m' a' : Memory) : Prop where
  first : Outside P m a
  second : Outside P m' a'
  same : ∀ x, P x → a' x = a x

namespace Writes

/-- A call that writes nothing. -/
theorem nothing (m m' : Memory) : Writes (fun _ => False) m m m' m' :=
  ⟨.refl _ m, .refl _ m', fun _ none_ => none_.elim⟩

/-- A store writes the same everywhere. -/
theorem store (m m' : Memory) (a w v : Nat) :
    Writes (Within a w) m (NpAlloc.store m a w v) m' (NpAlloc.store m' a w v) := by
  refine ⟨store_outside m a w v, store_outside m' a w v, fun x within => ?_⟩
  unfold NpAlloc.store
  unfold Within at within
  rw [if_pos within, if_pos within]

/-- Seen from the other side. -/
theorem symm (writes : Writes P m a m' a') : Writes P m' a' m a :=
  ⟨writes.second, writes.first, fun x member => (writes.same x member).symm⟩

/-- The same addresses, said in another way. -/
theorem congr (writes : Writes P m a m' a') (same : ∀ x, P x ↔ Q x) : Writes Q m a m' a' :=
  ⟨writes.first.mono fun x => (same x).mp, writes.second.mono fun x => (same x).mp,
    fun x member => writes.same x ((same x).mpr member)⟩

/-- Calls in sequence. -/
theorem trans (left : Writes P m a m' a') (right : Writes Q a b a' b') :
    Writes (fun x => P x ∨ Q x) m b m' b' := by
  refine ⟨?_, ?_, fun x member => ?_⟩
  · exact (left.first.mono fun _ => .inl).trans (right.first.mono fun _ => .inr)
  · exact (left.second.mono fun _ => .inl).trans (right.second.mono fun _ => .inr)
  · by_cases later : Q x
    · exact right.same x later
    · rw [right.first x later, right.second x later]
      exact left.same x (member.resolve_right later)

/-- What is known to be written only inside a set. -/
theorem restrict (writes : Writes P m a m' a') (first : Outside Q m a) (second : Outside Q m' a') :
    Writes (fun x => P x ∧ Q x) m a m' a' := by
  refine ⟨fun x outside => ?_, fun x outside => ?_, fun x member => writes.same x member.1⟩
  · by_cases inside : P x
    · exact first x fun member => outside ⟨inside, member⟩
    · exact writes.first x inside
  · by_cases inside : P x
    · exact second x fun member => outside ⟨inside, member⟩
    · exact writes.second x inside

/-- A word that was written is the same. -/
theorem load_eq {address width : Nat} (writes : Writes P m a m' a')
    (inside : ∀ x, Within address width x → P x) : load a' address width = load a address width :=
  load_congr fun x low high => writes.same x (inside x ⟨low, high⟩)

/-- **Calls that write to disjoint addresses commute.** -/
theorem commute {ab ba : Memory} (left : Writes P m a b ba) (right : Writes Q m b a ab)
    (disjoint : ∀ x, P x → ¬ Q x) : ab = ba := by
  funext x
  by_cases mine : P x
  · rw [right.second x (disjoint x mine), left.same x mine]
  · rw [left.second x mine]
    by_cases theirs : Q x
    · exact right.same x theirs
    · rw [right.second x theirs, right.first x theirs, left.first x mine]

end Writes

end NpAlloc
