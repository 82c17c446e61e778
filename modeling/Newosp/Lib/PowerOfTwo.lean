import Mathlib.Data.Nat.Bitwise

/-!
# Rounding down to a power of two by smearing bits

Or-ing a word with itself shifted by 1, 2, 4, … copies its highest bit into every lower place. After
windows of total width `w` bit `i` is set iff one of the `w` bits from `i` on was set.
-/

namespace Newosp.Lib

/-- Every bit of `v` is copied into the `w - 1` places below it. -/
def Smeared (w v u : Nat) : Prop := ∀ i, u.testBit i = true ↔ ∃ j, j < w ∧ v.testBit (i + j) = true

theorem smeared_one (v : Nat) : Smeared 1 v v := by
  intro i
  constructor
  · intro set
    exact ⟨0,Nat.one_pos,set⟩
  · rintro ⟨j,lt,set⟩
    obtain rfl : j = 0 := by omega
    exact set

/-- Or-ing with the word shifted by the width doubles it. -/
theorem Smeared.double {w v u : Nat} (h : Smeared w v u) : Smeared (w + w) v (u ||| u >>> w) := by
  intro i
  rw [Nat.testBit_or, Nat.testBit_shiftRight, Bool.or_eq_true, h i, h (w + i)]
  constructor
  · rintro (⟨j,lt,set⟩ | ⟨j,lt,set⟩)
    · exact ⟨j,by omega,set⟩
    · exact ⟨w + j,by omega,by rwa [show i + (w + j) = w + i + j by omega]⟩
  · rintro ⟨j,lt,set⟩
    by_cases low : j < w
    · exact .inl ⟨j,low,set⟩
    · exact .inr ⟨j - w,by omega,by rwa [show w + i + (j - w) = i + j by omega]⟩

/-- A word smeared over its width is all ones below its highest bit. -/
theorem Smeared.eq_ones {w v u : Nat} (h : Smeared w v u) (pos : v ≠ 0) (fits : v < 2 ^ w) :
    u = 2 ^ (v.log2 + 1) - 1 := by
  have width : v.log2 < w := (Nat.log2_lt pos).2 fits
  apply Nat.eq_of_testBit_eq
  intro i
  rw [Nat.testBit_two_pow_sub_one, Bool.eq_iff_iff, h i, decide_eq_true_iff]
  constructor
  · rintro ⟨j,_,set⟩
    by_contra high
    have small : v < 2 ^ (i + j) :=
      lt_of_lt_of_le Nat.lt_log2_self (Nat.pow_le_pow_right Nat.two_pos (by omega))
    rw [Nat.testBit_lt_two_pow small] at set
    cases set
  · intro low
    refine ⟨v.log2 - i,by omega,?_⟩
    rw [show i + (v.log2 - i) = v.log2 by omega]
    exact Nat.testBit_log2 pos

end Newosp.Lib
