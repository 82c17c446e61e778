import Mathlib.Data.Nat.Bitwise

/-!
# Fields packed into one word

A field is put above a word by a shift and an or, and read back by a shift and a mask.
-/

namespace Newosp.Lib

/-- A field put above the `k` low bits. -/
theorem or_shiftLeft {low k : Nat} (fits : low < 2 ^ k) (high : Nat) : low ||| high <<< k = low + 2 ^ k * high := by
  rw [Nat.or_comm, ← Nat.shiftLeft_add_eq_or_of_lt fits, Nat.shiftLeft_eq, mul_comm, add_comm]

/-- The field of `m` bits above the `k` low bits. -/
theorem shiftRight_and (word k m : Nat) : word >>> k &&& (2 ^ m - 1) = word / 2 ^ k % 2 ^ m := by
  rw [Nat.and_two_pow_sub_one_eq_mod, Nat.shiftRight_eq_div_pow]

end Newosp.Lib
