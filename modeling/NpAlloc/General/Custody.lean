/-
**Items that are each in exactly one place.**

`Located issued At`: the items issued so far are in exactly one place each, and only they are anywhere.
A step of a system keeps it if it moves one item (`Located.move`) or issues a new one
(`Located.issue`).
-/

import Mathlib.Logic.ExistsUnique

namespace NpAlloc

variable {α P : Type*} {issued issued' : α → Prop} {At At' : α → P → Prop} {a : α} {p q : P}

/-- **Every issued item is in exactly one place.** -/
structure Located (issued : α → Prop) (At : α → P → Prop) : Prop where
  only : ∀ a p, At a p → issued a
  some : ∀ a, issued a → ∃ p, At a p
  one : ∀ a p q, At a p → At a q → p = q

namespace Located

theorem existsUnique (located : Located issued At) (member : issued a) : ∃! p, At a p := by
  obtain ⟨p, here⟩ := located.some a member
  exact ⟨p, here, fun q there => located.one a q p there here⟩

/-- An item is not in two places. -/
theorem ne (located : Located issued At) {b : α} (here : At a p) (there : At b q)
    (different : p ≠ q) : a ≠ b := by
  rintro rfl
  exact different (located.one a p q here there)

theorem congr (located : Located issued At) (same : ∀ a, issued' a ↔ issued a)
    (places : ∀ a p, At' a p ↔ At a p) : Located issued' At' := by
  refine ⟨fun a p here => (same a).mpr (located.only a p ((places a p).mp here)), fun a member => ?_,
    fun a p q here there => located.one a p q ((places a p).mp here) ((places a q).mp there)⟩
  obtain ⟨p, here⟩ := located.some a ((same a).mp member)
  exact ⟨p, (places a p).mpr here⟩

/-- **An item moves.** -/
theorem move (located : Located issued At) (here : At a p) (same : ∀ b, issued' b ↔ issued b)
    (moves : ∀ b r, At' b r ↔ b = a ∧ r = q ∨ b ≠ a ∧ At b r) : Located issued' At' := by
  refine ⟨fun b r there => ?_, fun b member => ?_, fun b r r' there there' => ?_⟩
  · rcases (moves b r).mp there with ⟨rfl, _⟩ | ⟨_, old⟩
    · exact (same b).mpr (located.only b p here)
    · exact (same b).mpr (located.only b r old)
  · by_cases own : b = a
    · exact ⟨q, (moves b q).mpr (.inl ⟨own, rfl⟩)⟩
    · obtain ⟨r, old⟩ := located.some b ((same b).mp member)
      exact ⟨r, (moves b r).mpr (.inr ⟨own, old⟩)⟩
  · rcases (moves b r).mp there with ⟨own, rfl⟩ | ⟨other, old⟩ <;>
      rcases (moves b r').mp there' with ⟨own', rfl⟩ | ⟨other', old'⟩
    · rfl
    · exact absurd own other'
    · exact absurd own' other
    · exact located.one b r r' old old'

/-- **A new item is issued.** -/
theorem issue (located : Located issued At) (new : ¬ issued a)
    (more : ∀ b, issued' b ↔ b = a ∨ issued b)
    (adds : ∀ b r, At' b r ↔ b = a ∧ r = q ∨ At b r) : Located issued' At' := by
  have unplaced : ∀ r, ¬ At a r := fun r here => new (located.only a r here)
  refine ⟨fun b r there => ?_, fun b member => ?_, fun b r r' there there' => ?_⟩
  · rcases (adds b r).mp there with ⟨rfl, _⟩ | old
    · exact (more b).mpr (.inl rfl)
    · exact (more b).mpr (.inr (located.only b r old))
  · rcases (more b).mp member with rfl | old
    · exact ⟨q, (adds b q).mpr (.inl ⟨rfl, rfl⟩)⟩
    · obtain ⟨r, here⟩ := located.some b old
      exact ⟨r, (adds b r).mpr (.inr here)⟩
  · rcases (adds b r).mp there with ⟨rfl, rfl⟩ | old <;>
      rcases (adds b r').mp there' with ⟨own', rfl⟩ | old'
    · rfl
    · exact absurd old' (unplaced r')
    · subst own'
      exact absurd old (unplaced r)
    · exact located.one b r r' old old'

end Located

end NpAlloc
