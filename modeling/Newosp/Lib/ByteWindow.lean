import Mathlib.Data.Finset.Card
import Newosp.Lib.Wrap

/-!
# A stream of elements in a wrapped area

A stream is numbered by unbounded positions; an area of size `K` holds position `p` at index `p % K`. `Shows` says that
the area holds a list from a position on. A copy in any order is followed by the set of elements copied so far:
`CopiedTo` for a copy into the area, `Filled` for one out of it. At the end, a number as a list of bytes.
-/

namespace Newosp.Lib
open List Function

variable {α : Type} {K base i : Nat} {area : Nat → α} {xs : List α} {copied : Finset Nat} {x : α}

section

variable {ys : List α}

/-- The area holds `xs` at the positions from `base` on. -/
def Shows (K : Nat) (area : Nat → α) (base : Nat) (xs : List α) : Prop :=
  ∀ i x, xs[i]? = some x → area ((base + i) % K) = x

theorem shows_nil : Shows K area base [] := by
  intro i x here
  cases here

theorem shows_append : Shows K area base (xs ++ ys) ↔ Shows K area base xs ∧ Shows K area (base + xs.length) ys := by
  constructor
  · intro h
    constructor
    · intro i x here
      exact h i x (getElem?_append_left (List.getElem?_eq_some_iff.1 here).1 ▸ here)
    · intro i y here
      rw [add_assoc]
      apply h
      rw [getElem?_append_right (Nat.le_add_right ..), Nat.add_sub_cancel_left]
      exact here
  · rintro ⟨front,back⟩ i z here
    by_cases lt : i < xs.length
    · exact front i z (by rwa [getElem?_append_left lt] at here)
    · rw [getElem?_append_right (by omega)] at here
      have found := back _ z here
      rwa [show base + xs.length + (i - xs.length) = base + i by omega] at found

/-- A store past the list, less than one lap from its start, keeps it. -/
theorem Shows.update (h : Shows K area base xs) {p : Nat} (past : base + xs.length ≤ p)
    (lap : p < base + K) : Shows K (update area (p % K) x) base xs := by
  intro i y here
  have lt := (List.getElem?_eq_some_iff.1 here).1
  rw [update_of_ne]
  · exact h i y here
  · exact index_ne (by omega) (by omega) (by omega)

end

/-- The elements of `xs` copied so far are at their places. -/
def CopiedTo (K : Nat) (area : Nat → α) (base : Nat) (xs : List α) (copied : Finset Nat) : Prop :=
  ∀ i ∈ copied, ∀ x, xs[i]? = some x → area ((base + i) % K) = x

theorem copiedTo_empty : CopiedTo K area base xs ∅ := by
  intro i member
  exact absurd member (Finset.notMem_empty i)

theorem CopiedTo.insert (h : CopiedTo K area base xs copied) (room : xs.length ≤ K) (here : xs[i]? = some x) :
    CopiedTo K (update area ((base + i) % K) x) base xs (insert i copied) := by
  intro j member y there
  have lt := (List.getElem?_eq_some_iff.1 here).1
  have lt' := (List.getElem?_eq_some_iff.1 there).1
  by_cases same : j = i
  · subst same
    rw [update_self]
    exact Option.some.inj (here.symm.trans there)
  · rw [update_of_ne]
    · exact h j ((Finset.mem_insert.1 member).resolve_left same) y there
    · exact index_ne (by omega) (by omega) (by omega)

/-- A copy of every element shows the list. -/
theorem CopiedTo.shows (h : CopiedTo K area base xs copied) (all : ∀ i < xs.length, i ∈ copied) :
    Shows K area base xs := by
  intro i x here
  exact h i (all i (List.getElem?_eq_some_iff.1 here).1) x here

section

variable {out buffer : List α}

/-- The buffer is `out` with the elements of `xs` copied so far in their places. -/
structure Filled (xs out buffer : List α) (copied : Finset Nat) : Prop where
  inside : ∀ i ∈ copied, i < xs.length
  entry : ∀ i, buffer[i]? = if i ∈ copied then xs[i]? else out[i]?

theorem filled_empty : Filled xs out out ∅ := by
  constructor
  · intro i member
    exact absurd member (Finset.notMem_empty i)
  · intro i
    rw [if_neg (Finset.notMem_empty i)]

section

variable (h : Filled xs out buffer copied)
include h

/-- A buffer with room for the list has room for each element. -/
theorem Filled.lt_length (fits : xs.length ≤ out.length) (lt : i < xs.length) : i < buffer.length := by
  by_contra outside
  have none := h.entry i
  rw [getElem?_eq_none (by omega)] at none
  split at none
  · rw [getElem?_eq_getElem lt] at none
    cases none
  · rw [getElem?_eq_getElem (by omega)] at none
    cases none

theorem Filled.set (fits : xs.length ≤ out.length)
    (here : xs[i]? = some x) : Filled xs out (buffer.set i x) (insert i copied) := by
  have lt := (List.getElem?_eq_some_iff.1 here).1
  constructor
  · intro j member
    rcases Finset.mem_insert.1 member with rfl | before
    · exact lt
    · exact h.inside j before
  · intro j
    by_cases same : j = i
    · subst same
      rw [getElem?_set_self (h.lt_length fits lt), if_pos (Finset.mem_insert_self ..), here]
    · rw [getElem?_set_ne (Ne.symm same), h.entry j]
      simp only [Finset.mem_insert, same, false_or]

/-- A finished copy: the list, then the rest of the buffer. -/
theorem Filled.eq_append (all : ∀ i < xs.length, i ∈ copied) : buffer = xs ++ out.drop xs.length := by
  apply ext_getElem?
  intro i
  rw [h.entry i]
  by_cases lt : i < xs.length
  · rw [if_pos (all i lt), getElem?_append_left lt]
  · rw [if_neg (fun member => lt (h.inside i member)), getElem?_append_right (by omega), getElem?_drop]
    congr 1
    omega

end

/-- How many of the first `n` elements are not copied yet. -/
def missing (n : Nat) (copied : Finset Nat) : Nat := (Finset.range n \ copied).card

theorem copy_left (n : Nat) (copied : Finset Nat) : (∀ i < n, i ∈ copied) ∨ ∃ i < n, i ∉ copied := by
  rw [or_iff_not_imp_left]
  push Not
  exact id

@[simp] theorem missing_empty (n : Nat) : missing n ∅ = n := by simp [missing]

theorem missing_insert_lt {n : Nat} (lt : i < n) (new : i ∉ copied) :
    missing n (insert i copied) < missing n copied := by
  apply Finset.card_lt_card
  rw [Finset.ssubset_iff_of_subset (Finset.sdiff_subset_sdiff (Finset.Subset.refl _) (Finset.subset_insert ..))]
  exact ⟨i,by simp [lt, new],by simp⟩

end

/-- The `k` low bytes of `n`, least significant first. -/
def leBytes : Nat → Nat → List UInt8
  | 0, _ => []
  | k + 1, n => UInt8.ofNat n :: leBytes k (n / 256)

/-- The number a list of bytes stands for, least significant first. -/
def leValue : List UInt8 → Nat
  | [] => 0
  | b :: bs => b.toNat + 256 * leValue bs

@[simp] theorem leBytes_length (k n : Nat) : (leBytes k n).length = k := by
  induction k generalizing n with
  | zero => rfl
  | succ k ih => rw [leBytes, length_cons, ih]

theorem leBytes_get {k i : Nat} (lt : i < k) (n : Nat) : ∃ byte, (leBytes k n)[i]? = some byte :=
  ⟨_,getElem?_eq_getElem (by rwa [leBytes_length])⟩

theorem leValue_leBytes {k n : Nat} (fits : n < 256 ^ k) : leValue (leBytes k n) = n := by
  induction k generalizing n with
  | zero =>
    rw [Nat.pow_zero] at fits
    rw [leBytes, leValue]
    omega
  | succ k ih =>
    rw [leBytes, leValue, ih (by rw [Nat.pow_succ] at fits; omega), UInt8.toNat_ofNat']
    omega

end Newosp.Lib
