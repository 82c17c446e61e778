import Newosp.Lib.Forest

/-!
# Walks along the parents of a state

The loops of the two state machines over parent indices: depth, common ancestor and paths. A negative index is no state.
Each loop runs on a count that is large enough; the lemmas give the result in terms of the lines of the forest.
-/

namespace Newosp.Hsm
open Lib List

variable (F : Forest)

def depthLoop : Nat → Option Nat → Nat → Nat
  | 0, _, depth => depth
  | _ + 1, none, depth => depth
  | n + 1, some i, depth => depthLoop n (F.parent i) (depth + 1)

def depth (state : Option Nat) : Nat := depthLoop F (Forest.rank state) state 0

def climb : Nat → Option Nat → Option Nat
  | 0, p => p
  | n + 1, p => climb n (p.bind F.parent)

def walkUp : Nat → Option Nat → Option Nat → Option Nat
  | 0, p1, _ => p1
  | n + 1, p1, p2 => if p1 = p2 then p1 else walkUp n (p1.bind F.parent) (p2.bind F.parent)

/-- `FindLCA`: both states are brought to one depth, then up until they meet. -/
def findLCA (s1 s2 : Option Nat) : Option Nat :=
  let d1 := depth F s1
  let d2 := depth F s2
  let p1 := climb F (d1 - d2) s1
  let p2 := climb F (d2 - d1) s2
  walkUp F (min d1 d2 + 1) p1 p2

/-- The loop of `BuildExitPath` and `BuildEntryPath`; `none` when the assertion on the length fails. -/
def buildPathLoop (maxDepth : Nat) : Nat → Option Nat → Option Nat → List Nat → Option (List Nat)
  | 0, _, _, path => some path
  | _ + 1, none, _, path => some path
  | n + 1, some i, stop, path =>
    if some i = stop then some path
    else if path.length < maxDepth then buildPathLoop maxDepth n (F.parent i) stop (path ++ [i])
    else none

def buildPath (maxDepth : Nat) (state stop : Option Nat) : Option (List Nat) :=
  buildPathLoop F maxDepth (Forest.rank state) state stop []

section

variable {F} {a b m o stop : Option Nat}

theorem depthLoop_eq (n d : Nat) (enough : Forest.rank o ≤ n) : depthLoop F n o d = (F.line o).length + d := by
  induction o using F.lineInduction generalizing n d with
  | absent => cases n <;> exact (Nat.zero_add d).symm
  | child i ih =>
    obtain ⟨n,rfl⟩ := Nat.exists_eq_add_one_of_ne_zero (Nat.ne_of_gt (Nat.zero_lt_of_lt enough))
    rw [depthLoop, ih n (d + 1) ((F.rank_parent_le i).trans (Nat.le_of_succ_le_succ enough)), F.line_some,
      length_cons, Nat.add_assoc, Nat.add_comm 1 d]

theorem depth_eq (F : Forest) (o : Option Nat) : depth F o = (F.line o).length := depthLoop_eq _ 0 le_rfl

theorem climb_spec (n : Nat) (deeper : (F.line a).length = (F.line b).length + n) :
    (F.line (climb F n a)).length = (F.line b).length ∧ (F.IsMeet (climb F n a) b m → F.IsMeet a b m) := by
  induction n generalizing a with
  | zero => exact ⟨deeper,id⟩
  | succ n ih =>
    cases a with
    | none => cases deeper
    | some i =>
      have up : (F.line (F.parent i)).length = (F.line b).length + n := by
        rw [F.line_some, length_cons] at deeper
        omega
      obtain ⟨level,meet⟩ := ih up
      refine ⟨level,fun h => (meet h).of_parent ?_⟩
      refine Forest.not_mem_of_length_le (by omega) ?_
      rintro rfl
      omega

theorem walkUp_spec (n : Nat) (level : (F.line a).length = (F.line b).length) (enough : (F.line a).length ≤ n) :
    F.IsMeet a b (walkUp F (n + 1) a b) := by
  induction n generalizing a b with
  | zero =>
    have left : a = none := Forest.line_injective (length_eq_zero_iff.1 (Nat.le_zero.1 enough))
    subst left
    have right : b = none := Forest.line_injective (length_eq_zero_iff.1 level.symm)
    subst right
    exact .refl F none
  | succ n ih =>
    rw [walkUp]
    split
    · rename_i same
      rw [← same]
      exact .refl F a
    · rename_i differ
      cases a with
      | none => exact absurd (Forest.line_injective (length_eq_zero_iff.1 level.symm)).symm differ
      | some i =>
        cases b with
        | none => cases level
        | some j =>
          have apart : i ∉ F.line (some j) := Forest.not_mem_of_length_le level.ge fun same => differ same.symm
          have apart' : j ∉ F.line (F.parent i) := by
            refine Forest.not_mem_of_length_le ?_ ?_
            · rw [F.line_some i, length_cons] at level
              omega
            · intro same
              rw [F.line_some i, same, length_cons] at level
              omega
          rw [F.line_some, F.line_some, length_cons, length_cons] at level
          rw [F.line_some, length_cons] at enough
          exact ((ih (by omega) (by omega)).symm.of_parent apart').symm.of_parent apart

/-- `FindLCA` finds the deepest common ancestor. -/
theorem findLCA_isMeet (F : Forest) (a b : Option Nat) : F.IsMeet a b (findLCA F a b) := by
  simp only [findLCA, depth_eq]
  rcases Nat.le_total (F.line a).length (F.line b).length with le | le
  · obtain ⟨level,meet⟩ := climb_spec (F := F) (a := b) (b := a) (m := walkUp F ((F.line a).length + 1) a
      (climb F ((F.line b).length - (F.line a).length) b)) _ (Nat.add_sub_cancel' le).symm
    rw [Nat.sub_eq_zero_of_le le, min_eq_left le]
    exact (meet (walkUp_spec _ level.symm le_rfl).symm).symm
  · obtain ⟨level,meet⟩ := climb_spec (F := F) (a := a) (b := b) (m := walkUp F ((F.line b).length + 1)
      (climb F ((F.line a).length - (F.line b).length) a) b) _ (Nat.add_sub_cancel' le).symm
    rw [Nat.sub_eq_zero_of_le le, min_eq_right le]
    exact meet (walkUp_spec _ level level.le)

theorem buildPathLoop_eq (maxDepth n : Nat) (path : List Nat) (enough : Forest.rank o ≤ n)
    (room : path.length + (F.upTo o stop).length ≤ maxDepth) :
    buildPathLoop F maxDepth n o stop path = some (path ++ F.upTo o stop) := by
  induction o using F.lineInduction generalizing n path with
  | absent => cases n <;> exact congrArg some (append_nil path).symm
  | child i ih =>
    obtain ⟨n,rfl⟩ := Nat.exists_eq_add_one_of_ne_zero (Nat.ne_of_gt (Nat.zero_lt_of_lt enough))
    rw [buildPathLoop]
    split
    · rename_i here
      rw [← here, F.upTo_self, append_nil]
    · rename_i other
      rw [Forest.upTo_some (Ne.symm other), length_cons] at room
      rw [if_pos (by omega), ih n _ ((F.rank_parent_le i).trans (Nat.le_of_succ_le_succ enough)), append_assoc,
        singleton_append, ← Forest.upTo_some (Ne.symm other)]
      rw [length_append, length_singleton]
      omega

theorem buildPath_eq {maxDepth : Nat} (shallow : (F.line o).length ≤ maxDepth) (stop : Option Nat) :
    buildPath F maxDepth o stop = some (F.upTo o stop) := by
  have short := (F.upTo_length_le o stop).trans shallow
  rw [buildPath, buildPathLoop_eq _ _ _ le_rfl (by rwa [length_nil, Nat.zero_add]), nil_append]

end

end Newosp.Hsm
