import Mathlib.Data.Nat.ModEq
import Mathlib.Data.Nat.Bitwise

/-!
# Free-running 32-bit counters over a power-of-two ring

`wrap32` reduces modulo `2 ^ 32`, `sub32` is the wrapping difference. A counter is followed by the unbounded number it
stands for; a ring index is the counter modulo the ring's size.
-/

namespace Newosp.Lib

variable {a b : Nat} {K : Nat}

/-- Reduction to 32 bits. -/
def wrap32 (n : Nat) : Nat := n % 4294967296

/-- The wrapping difference of two 32-bit values. -/
def sub32 (a b : Nat) : Nat := (a + 4294967296 - b) % 4294967296

/-- Reduction to 64 bits, for statistics counters. -/
def wrap64 (n : Nat) : Nat := n % 18446744073709551616

theorem wrap32_lt (n : Nat) : wrap32 n < 4294967296 := Nat.mod_lt _ (by decide)

theorem wrap32_of_lt {n : Nat} (h : n < 4294967296) : wrap32 n = n := Nat.mod_eq_of_lt h

theorem wrap32_add_left (a b : Nat) : wrap32 (wrap32 a + b) = wrap32 (a + b) := by
  simp only [wrap32]
  omega

/-- For small values in order it is the plain difference. -/
theorem sub32_of_le (ha : a < 4294967296) (h : b ≤ a) : sub32 a b = a - b := by
  simp only [sub32]
  omega

/-- The wrapping difference is the true one if that fits in 32 bits. -/
theorem sub32_wrap32 (le : b ≤ a) (fits : a - b < 4294967296) : sub32 (wrap32 a) (wrap32 b) = a - b := by
  simp only [sub32, wrap32]
  omega

/-- The wrapping difference is at most the true one. -/
theorem sub32_wrap32_le (le : b ≤ a) : sub32 (wrap32 a) (wrap32 b) ≤ a - b := by
  simp only [sub32, wrap32]
  omega

/-- Counters closer than `2 ^ 32` are told apart. -/
theorem wrap32_inj (near : a < b + 4294967296) (near' : b < a + 4294967296) (h : wrap32 a = wrap32 b) : a = b := by
  simp only [wrap32] at h
  omega

/-- A 32-bit value is positive when read as a signed one. -/
def positive32 (d : Nat) : Prop := 0 < d ∧ d < 2147483648

instance (d : Nat) : Decidable (positive32 d) := inferInstanceAs (Decidable (_ ∧ _))

/-- Counters less than `2 ^ 31` apart: positive iff in this order. -/
theorem positive32_sub32 (near : a < b + 2147483648) (near' : b < a + 2147483648) :
    positive32 (sub32 (wrap32 a) (wrap32 b)) ↔ b < a := by
  simp only [positive32, sub32, wrap32]
  omega

/-- A 32-bit value is negative when read as a signed one. -/
def negative32 (d : Nat) : Prop := 2147483648 ≤ d

instance (d : Nat) : Decidable (negative32 d) := inferInstanceAs (Decidable (_ ≤ _))

/-- Counters less than `2 ^ 31` apart: negative iff in the other order. -/
theorem negative32_sub32 (near : a < b + 2147483648) (near' : b ≤ a + 2147483648) :
    negative32 (sub32 (wrap32 a) (wrap32 b)) ↔ a < b := by
  simp only [negative32, sub32, wrap32]
  omega

/-- Counters less than `2 ^ 32` apart differ by zero only if equal. -/
theorem sub32_wrap32_eq_zero (near : a < b + 4294967296) (near' : b < a + 4294967296) :
    sub32 (wrap32 a) (wrap32 b) = 0 ↔ a = b := by
  simp only [sub32, wrap32]
  omega

/-- The conversion of a 32-bit value to a signed one. -/
def toInt32 (v : Nat) : Int := if v < 2147483648 then v else v - 4294967296

/-- A value that a signed 32-bit number can have. -/
def IsInt32 (d : Int) : Prop := -2147483648 ≤ d ∧ d < 2147483648

theorem isInt32_sub (ha : a < 2147483648) (hb : b < 2147483648) : IsInt32 (toInt32 a - toInt32 b) := by
  rw [toInt32, toInt32, if_pos ha, if_pos hb, IsInt32]
  omega

/-! ## Ring indices -/

/-- Positions less than one ring apart share a slot only if equal. -/
theorem index_inj (near : a < b + K) (near' : b < a + K) (h : a % K = b % K) : a = b := by
  rcases Nat.le_total a b with le | le
  · have := (Nat.modEq_iff_dvd' le).1 h
    have := Nat.eq_zero_of_dvd_of_lt this (by omega)
    omega
  · have := (Nat.modEq_iff_dvd' le).1 h.symm
    have := Nat.eq_zero_of_dvd_of_lt this (by omega)
    omega

theorem index_ne (near : a < b + K) (near' : b < a + K) (ne : a ≠ b) : a % K ≠ b % K := mt (index_inj near near') ne

/-- A position and the next one never share a slot. -/
theorem index_succ_ne (two : 2 ≤ K) : (a + 1) % K ≠ a % K := index_ne (by omega) (by omega) (by omega)

/-- The `K` positions from `r` on show every slot once. -/
theorem cover_mod (pos : 0 < K) (r p : Nat) :
    r ≤ r + (p + K - r % K) % K ∧ r + (p + K - r % K) % K < r + K ∧ (r + (p + K - r % K) % K) % K = p % K := by
  have small := Nat.mod_lt r pos
  refine ⟨Nat.le_add_right ..,Nat.add_lt_add_left (Nat.mod_lt _ pos) r,?_⟩
  rw [Nat.add_mod_mod, ← Nat.mod_add_mod, show r % K + (p + K - r % K) = p + K by omega, Nat.add_mod_right]

/-- The masked counter is its position modulo the size. -/
theorem wrap32_mask {k : Nat} (hk : k ≤ 32) (p : Nat) : wrap32 p &&& (2 ^ k - 1) = p % 2 ^ k := by
  rw [Nat.and_two_pow_sub_one_eq_mod]
  exact Nat.mod_mod_of_dvd p (by simpa using Nat.pow_dvd_pow 2 hk)

/-- The masked number is the one modulo the size. -/
theorem and_mask (k p : Nat) : p &&& (2 ^ k - 1) = p % 2 ^ k := Nat.and_two_pow_sub_one_eq_mod p k

end Newosp.Lib
