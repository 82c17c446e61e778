import Mathlib.Data.Fintype.Card

/-!
# The word of a reader-writer lock

A lock is held exclusively by one thread, its word is then `-1`, or shared by as many as the word says. The rules say
how the word changes when one thread joins, leaves, takes or gives.
-/

namespace Newosp.Lib
open Finset (mem_singleton notMem_empty)

section

variable {τ : Type}

/-- The word of a lock and its holders. -/
inductive WordOk : Int → Finset τ → Finset τ → Prop
  | owned (t : τ) : WordOk (-1) ∅ {t}
  | shared (S : Finset τ) : WordOk S.card S ∅

variable {v : Int} {S O : Finset τ} {t : τ}

namespace WordOk

section

variable (h : WordOk v S O)
include h

theorem noOwner (readable : 0 ≤ v) : O = ∅ := by
  cases h with
  | owned t => exact absurd readable (by decide)
  | shared S => rfl

theorem pos_of_sharer (member : t ∈ S) : 0 < v := by
  cases h with
  | owned t => exact absurd member (notMem_empty _)
  | shared S => exact_mod_cast Finset.card_pos.2 ⟨t,member⟩

theorem eq_card (none : O = ∅) : v = S.card := by
  cases h with
  | owned t => exact absurd none (Finset.singleton_ne_empty t)
  | shared S => rfl

theorem owner_eq {u : τ} (mine : t ∈ O) (other : u ∈ O) : u = t := by
  cases h with
  | owned o => rw [mem_singleton.1 mine, mem_singleton.1 other]
  | shared S => exact absurd mine (notMem_empty _)

theorem noSharer (mine : t ∈ O) : S = ∅ := by
  cases h with
  | owned o => rfl
  | shared S => exact absurd mine (notMem_empty _)

theorem eq_neg_one_iff : v = -1 ↔ ∃ t, t ∈ O := by
  cases h with
  | owned o => exact ⟨fun _ => ⟨o,Finset.mem_singleton_self o⟩,fun _ => rfl⟩
  | shared S =>
    constructor
    · intro negative
      have : (0 : Int) ≤ S.card := Int.natCast_nonneg _
      omega
    · rintro ⟨t,member⟩
      exact absurd member (notMem_empty _)

end

variable [DecidableEq τ]

theorem join (h : WordOk v S O) (readable : 0 ≤ v) (fresh : t ∉ S) : WordOk (v + 1) (insert t S) O := by
  cases h with
  | owned t => exact absurd readable (by decide)
  | shared S =>
    have count : ((insert t S).card : Int) = S.card + 1 := by
      rw [Finset.card_insert_of_notMem fresh]
      rfl
    rw [← count]
    exact .shared _

theorem leave (h : WordOk v S O) (member : t ∈ S) : WordOk (v - 1) (S.erase t) O := by
  cases h with
  | owned t => exact absurd member (notMem_empty _)
  | shared S =>
    have count : ((S.erase t).card : Int) = S.card - 1 := by
      have := Finset.card_erase_add_one member
      omega
    rw [← count]
    exact .shared _

/-- A thread takes a lock that nobody holds. -/
theorem take (h : WordOk 0 S O) (t : τ) : WordOk (-1) S (insert t O) := by
  have none := h.noOwner (Int.le_refl 0)
  subst none
  have empty : S = ∅ := by
    have count := h.eq_card rfl
    exact Finset.card_eq_zero.1 (by omega)
  subst empty
  exact .owned t

/-- The owner gives the lock back. -/
theorem give (h : WordOk v S O) (mine : t ∈ O) : WordOk 0 S (O.erase t) := by
  cases h with
  | owned o =>
    rw [mem_singleton.1 mine, Finset.erase_singleton]
    exact .shared ∅
  | shared S => exact absurd mine (notMem_empty _)

/-- The owner stays as a sharer. -/
theorem downgrade (h : WordOk v S O) (mine : t ∈ O) : WordOk 1 (insert t S) (O.erase t) := by
  have fresh : t ∉ S := by
    rw [h.noSharer mine]
    exact notMem_empty _
  exact (h.give mine).join (Int.le_refl 0) fresh

end WordOk

end

section

variable {τ σ : Type} [Fintype τ]

/-- The threads whose state meets `p`. -/
def threadsWith (p : σ → Bool) (f : τ → σ) : Finset τ := Finset.univ.filter fun t => p (f t) = true

variable {p : σ → Bool} {f : τ → σ} {t : τ} {x : σ}

@[simp] theorem mem_threadsWith {u : τ} : u ∈ threadsWith p f ↔ p (f u) = true := by
  simp [threadsWith]

variable [DecidableEq τ]

theorem threadsWith_insert (now : p x = true) : threadsWith p (Function.update f t x) = insert t (threadsWith p f) := by
  ext u
  by_cases self : u = t
  · subst self
    simp [now]
  · simp [self]

theorem threadsWith_erase (now : p x = false) : threadsWith p (Function.update f t x) = (threadsWith p f).erase t := by
  ext u
  by_cases self : u = t
  · subst self
    simp [now]
  · simp [self]

theorem threadsWith_same (same : p x = p (f t)) : threadsWith p (Function.update f t x) = threadsWith p f := by
  ext u
  by_cases self : u = t
  · subst self
    simp [same]
  · simp [self]

end

end Newosp.Lib
