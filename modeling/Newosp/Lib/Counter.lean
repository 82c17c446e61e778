import Newosp.Lib.Wrap

/-!
# Free-running counters of any width

The counters of `Newosp.Lib.Wrap` for a word of `w` bits. A wrapped difference is the true one as long as that fits in
the word, and the mask of a ring no larger than the word does not see the wrap.
-/

namespace Newosp.Lib

/-- Reduction to `w` bits. -/
def wrapTo (w n : Nat) : Nat := n % 2 ^ w

/-- The wrapping difference of two `w`-bit values. -/
def subTo (w a b : Nat) : Nat := (a + 2 ^ w - b) % 2 ^ w

variable {w : Nat} {a b : Nat}

theorem wrapTo_of_lt {n : Nat} (h : n < 2 ^ w) : wrapTo w n = n := Nat.mod_eq_of_lt h

@[simp] theorem wrapTo_zero (w : Nat) : wrapTo w 0 = 0 := Nat.zero_mod _

theorem wrapTo_add_left (a b : Nat) : wrapTo w (wrapTo w a + b) = wrapTo w (a + b) := Nat.mod_add_mod ..

/-- For small values in order it is the plain difference. -/
theorem subTo_of_le (ha : a < 2 ^ w) (h : b ≤ a) : subTo w a b = a - b := by
  rw [subTo, Nat.sub_add_comm h, Nat.add_mod_right, Nat.mod_eq_of_lt (lt_of_le_of_lt (Nat.sub_le ..) ha)]

/-- The wrapping difference is the true one if that fits in the word. -/
theorem subTo_wrapTo (le : b ≤ a) (fits : a - b < 2 ^ w) : subTo w (wrapTo w a) (wrapTo w b) = a - b := by
  have low : b % 2 ^ w < 2 ^ w := Nat.mod_lt _ (Nat.two_pow_pos w)
  have split : a % 2 ^ w = (b % 2 ^ w + (a - b)) % 2 ^ w := by
    rw [Nat.mod_add_mod, Nat.add_sub_cancel' le]
  simp only [subTo, wrapTo, split]
  -- the distance carries out of the word at most once
  rcases lt_or_ge (b % 2 ^ w + (a - b)) (2 ^ w) with stays | carries
  · rw [Nat.mod_eq_of_lt stays, show b % 2 ^ w + (a - b) + 2 ^ w - b % 2 ^ w = a - b + 2 ^ w by omega,
      Nat.add_mod_right, Nat.mod_eq_of_lt fits]
  · rw [Nat.mod_eq_sub_mod carries, Nat.mod_eq_of_lt (show b % 2 ^ w + (a - b) - 2 ^ w < 2 ^ w by omega),
      show b % 2 ^ w + (a - b) - 2 ^ w + 2 ^ w - b % 2 ^ w = a - b by omega, Nat.mod_eq_of_lt fits]

/-- Counters closer than the word is wide are told apart. -/
theorem wrapTo_inj (near : a < b + 2 ^ w) (near' : b < a + 2 ^ w) (h : wrapTo w a = wrapTo w b) : a = b :=
  index_inj near near' h

/-- The masked counter is its position modulo the size. -/
theorem wrapTo_mask {k : Nat} (le : k ≤ w) (p : Nat) : wrapTo w p &&& (2 ^ k - 1) = p % 2 ^ k := by
  rw [and_mask]
  exact Nat.mod_mod_of_dvd p (Nat.pow_dvd_pow 2 le)

end Newosp.Lib
