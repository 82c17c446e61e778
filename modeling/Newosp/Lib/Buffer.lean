import Mathlib.Logic.Function.Basic

/-!
# Buffers

A buffer is a function from indices to elements; `slice` is the list of the elements from an index on. A list is read
through `ofList` like a buffer. A store behind a slice makes it longer by the element stored.
-/

namespace Newosp.Lib
open List Function

section

variable {α : Type} {buf : Nat → α} {p n m i : Nat}

/-- The `n` elements from index `p` on. -/
def slice (buf : Nat → α) (p n : Nat) : List α := (List.range n).map fun i => buf (p + i)

@[simp] theorem slice_length (buf : Nat → α) (p n : Nat) : (slice buf p n).length = n := by
  rw [slice, length_map, length_range]

@[simp] theorem slice_zero (buf : Nat → α) (p : Nat) : slice buf p 0 = [] := rfl

theorem slice_getElem? (lt : i < n) : (slice buf p n)[i]? = some (buf (p + i)) := by
  rw [slice, getElem?_map, getElem?_range lt, Option.map_some]

theorem slice_getD (lt : i < n) (x : α) : (slice buf p n).getD i x = buf (p + i) := by
  rw [getD_eq_getElem?_getD, slice_getElem? lt, Option.getD_some]

theorem slice_succ (buf : Nat → α) (p n : Nat) : slice buf p (n + 1) = slice buf p n ++ [buf (p + n)] := by
  rw [slice, slice, range_succ, map_append, map_singleton]

theorem slice_add (buf : Nat → α) (p n m : Nat) : slice buf p (n + m) = slice buf p n ++ slice buf (p + n) m := by
  induction m with
  | zero => rw [Nat.add_zero, slice_zero, append_nil]
  | succ m ih => rw [← Nat.add_assoc, slice_succ, ih, slice_succ, append_assoc, Nat.add_assoc p n m]

theorem slice_take (le : m ≤ n) : (slice buf p n).take m = slice buf p m := by
  obtain ⟨k,rfl⟩ := Nat.exists_eq_add_of_le le
  rw [slice_add, take_left' (slice_length ..)]

theorem slice_drop (le : m ≤ n) : (slice buf p n).drop m = slice buf (p + m) (n - m) := by
  obtain ⟨k,rfl⟩ := Nat.exists_eq_add_of_le le
  rw [slice_add, drop_left' (slice_length ..), Nat.add_sub_cancel_left]

theorem slice_congr {buf' : Nat → α} (same : ∀ i, i < n → buf' (p + i) = buf (p + i)) :
    slice buf' p n = slice buf p n := map_congr_left fun i member => same i (mem_range.1 member)

theorem slice_update (buf : Nat → α) (n : Nat) (x : α) :
    slice (update buf n x) 0 (n + 1) = slice buf 0 n ++ [x] := by
  rw [slice_succ, Nat.zero_add, update_self, slice_congr]
  intro i lt
  exact update_of_ne (by omega) ..

def ofList [Inhabited α] (l : List α) : Nat → α := fun i => l.getD i default

variable [Inhabited α]

theorem ofList_slice (lt : i < n) : ofList (slice buf 0 n) i = buf i := by
  rw [ofList, slice_getD lt, Nat.zero_add]

theorem ofList_append_right (l l' : List α) (i : Nat) : ofList (l ++ l') (l.length + i) = ofList l' i := by
  rw [ofList, ofList, getD_eq_getElem?_getD, getD_eq_getElem?_getD,
    getElem?_append_right (Nat.le_add_right ..), Nat.add_sub_cancel_left]

end

end Newosp.Lib
