import Mathlib.Data.List.Infix

/-!
# Forests given by parent numbers

A node is a number, and its parent, if it has one, is a smaller number. The line of a node is the node and its ancestors
from the inside out; the line of no node is empty. Two nodes meet in the node whose line holds their common ancestors.
-/

namespace Newosp.Lib
open List

structure Forest where
  parent : Nat → Option Nat
  before : ∀ {i p}, parent i = some p → p < i

namespace Forest

/-- How many numbers a line can have. -/
def rank : Option Nat → Nat
  | none => 0
  | some i => i + 1

variable (F : Forest)

/-- The first `n` nodes of a line. -/
def lineFrom : Nat → Option Nat → List Nat
  | 0, _ => []
  | _ + 1, none => []
  | n + 1, some i => i :: lineFrom n (F.parent i)

/-- A node and its ancestors. -/
def line (o : Option Nat) : List Nat := F.lineFrom (rank o) o

/-- The part of a line before the node `stop`. -/
def upTo (o stop : Option Nat) : List Nat := (F.line o).takeWhile fun i => some i ≠ stop

/-- The deepest node that is an ancestor of both, if there is one; a node counts as its own ancestor. -/
structure IsMeet (a b m : Option Nat) : Prop where
  left : F.line m <:+ F.line a
  right : F.line m <:+ F.line b
  deepest : ∀ c ∈ F.line a, c ∈ F.line b → c ∈ F.line m

variable {F} {a b m o stop : Option Nat} {i j : Nat}

theorem rank_parent_le (F : Forest) (i : Nat) : rank (F.parent i) ≤ i := by
  cases eq : F.parent i with
  | none => exact Nat.zero_le _
  | some p => exact F.before eq

/-- Induction from a parent to its child. -/
@[elab_as_elim]
theorem lineInduction (F : Forest) {motive : Option Nat → Prop} (absent : motive none)
    (child : ∀ i, motive (F.parent i) → motive (some i)) (o : Option Nat) : motive o := by
  have below : ∀ n o, rank o ≤ n → motive o := by
    intro n
    induction n with
    | zero =>
      intro o small
      cases o with
      | none => exact absent
      | some i => exact absurd small (Nat.not_succ_le_zero i)
    | succ n ih =>
      intro o small
      cases o with
      | none => exact absent
      | some i => exact child i (ih _ ((F.rank_parent_le i).trans (Nat.le_of_succ_le_succ small)))
  exact below _ o le_rfl

@[simp] theorem line_none : F.line none = [] := rfl

theorem lineFrom_eq (n : Nat) (enough : rank o ≤ n) : F.lineFrom n o = F.line o := by
  induction o using F.lineInduction generalizing n with
  | absent => cases n <;> rfl
  | child i ih =>
    obtain ⟨n,rfl⟩ := Nat.exists_eq_add_one_of_ne_zero (ne_of_gt (Nat.zero_lt_of_lt enough))
    have room : i ≤ n := Nat.le_of_succ_le_succ enough
    have parent := F.rank_parent_le i
    rw [line, rank, lineFrom, lineFrom, ih n (parent.trans room), ih i parent]

theorem line_some (F : Forest) (i : Nat) : F.line (some i) = i :: F.line (F.parent i) := by
  rw [line, rank, lineFrom, lineFrom_eq i (F.rank_parent_le i)]

theorem lt_rank_of_mem_line (mem : j ∈ F.line o) : j < rank o := by
  induction o using F.lineInduction with
  | absent => cases mem
  | child i ih =>
    rw [line_some] at mem
    rcases mem_cons.1 mem with rfl | up
    · exact Nat.lt_succ_self _
    · exact Nat.lt_succ_of_lt (lt_of_lt_of_le (ih up) (F.rank_parent_le i))

/-- A node is not among the ancestors of its parent. -/
theorem not_mem_line_parent (F : Forest) (i : Nat) : i ∉ F.line (F.parent i) := by
  intro mem
  exact absurd (lt_rank_of_mem_line mem) (Nat.not_lt.2 (F.rank_parent_le i))

theorem line_injective (same : F.line a = F.line b) : a = b := by
  cases a with
  | none =>
    cases b with
    | none => rfl
    | some j => rw [line_some] at same; cases same
  | some i =>
    cases b with
    | none => rw [line_some] at same; cases same
    | some j =>
      rw [line_some, line_some] at same
      exact congrArg some (List.cons.inj same).1

theorem line_suffix_of_mem (mem : j ∈ F.line o) : F.line (some j) <:+ F.line o := by
  induction o using F.lineInduction with
  | absent => cases mem
  | child i ih =>
    rw [F.line_some i] at mem ⊢
    rcases mem_cons.1 mem with rfl | up
    · rw [← F.line_some]
    · exact (ih up).trans (suffix_cons _ _)

/-! ### The part of a line before an ancestor -/

theorem upTo_self (F : Forest) (o : Option Nat) : F.upTo o o = [] := by
  cases o with
  | none => rfl
  | some i =>
    rw [upTo, line_some, takeWhile_cons_of_neg]
    simp only [ne_eq, not_true, decide_false, Bool.false_eq_true, not_false_eq_true]

theorem upTo_some (other : stop ≠ some i) : F.upTo (some i) stop = i :: F.upTo (F.parent i) stop := by
  rw [upTo, upTo, line_some, takeWhile_cons_of_pos]
  exact decide_eq_true other.symm

/-- A proper ancestor of a node is an ancestor of its parent. -/
theorem line_suffix_parent (ends : F.line stop <:+ F.line (some i)) (other : stop ≠ some i) :
    F.line stop <:+ F.line (F.parent i) := by
  rw [F.line_some i] at ends
  rcases suffix_cons_iff.1 ends with whole | up
  · rw [← F.line_some] at whole
    exact absurd (line_injective whole) other
  · exact up

/-- A line is the part before an ancestor, then the ancestor's. -/
theorem upTo_append (ends : F.line stop <:+ F.line o) : F.upTo o stop ++ F.line stop = F.line o := by
  induction o using F.lineInduction with
  | absent =>
    rw [line_none, suffix_nil] at ends
    rw [ends, append_nil]
    rfl
  | child i ih =>
    by_cases here : stop = some i
    · rw [here, upTo_self, nil_append]
    · rw [upTo_some here, cons_append, F.line_some i, ih (line_suffix_parent ends here)]

theorem upTo_root (F : Forest) (o : Option Nat) : F.upTo o none = F.line o := by
  have whole : F.upTo o none ++ F.line none = F.line o := upTo_append nil_suffix
  rwa [F.line_none, append_nil] at whole

theorem upTo_length_le (F : Forest) (o stop : Option Nat) : (F.upTo o stop).length ≤ (F.line o).length :=
  takeWhile_prefix _ |>.length_le

/-! ### Meeting nodes -/

theorem IsMeet.refl (F : Forest) (a : Option Nat) : F.IsMeet a a a := ⟨suffix_rfl, suffix_rfl, fun _ mem _ => mem⟩

theorem IsMeet.symm (h : F.IsMeet a b m) : F.IsMeet b a m :=
  ⟨h.right, h.left, fun c left right => h.deepest c right left⟩

/-- A node that is no ancestor of the other can be left for its parent. -/
theorem IsMeet.of_parent (h : F.IsMeet (F.parent i) b m) (apart : i ∉ F.line b) : F.IsMeet (some i) b m := by
  refine ⟨?_,h.right,?_⟩
  · rw [line_some]
    exact h.left.trans (suffix_cons _ _)
  · intro c left right
    rw [line_some] at left
    rcases mem_cons.1 left with rfl | up
    · exact absurd right apart
    · exact h.deepest c up right

/-- A node is an ancestor of no other one that is not deeper. -/
theorem not_mem_of_length_le (short : (F.line b).length ≤ (F.line (some i)).length) (differ : b ≠ some i) :
    i ∉ F.line b := by
  intro mem
  have same := (line_suffix_of_mem mem).eq_of_length_le short
  exact differ (line_injective same.symm)

end Forest

end Newosp.Lib
