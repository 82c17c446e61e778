import Mathlib.Data.List.Nodup

/-!
# Lists threaded through an array of links

The list is determined by the links, so a finite one visits no node twice. A store into the link of a node outside the
list keeps it; pushing a node links it to the old head.
-/

namespace Newosp.Lib

variable {next : Nat → Nat} {stop h : Nat} {l l' : List Nat} {i : Nat} {next' : Nat → Nat}

/-- The nodes from `h` on, up to `stop`. -/
def Linked (next : Nat → Nat) (stop : Nat) : Nat → List Nat → Prop
  | h, [] => h = stop
  | h, i :: l => h = i ∧ i ≠ stop ∧ Linked next stop (next i) l

theorem linked_nil : Linked next stop h [] ↔ h = stop := Iff.rfl

section

variable (a : Linked next stop h l)
include a

theorem Linked.unique (b : Linked next stop h l') : l = l' := by
  induction l generalizing h l' with
  | nil =>
    cases l' with
    | nil => rfl
    | cons i l' => exact absurd (b.1.symm.trans a) b.2.1
  | cons i l ih =>
    cases l' with
    | nil => exact absurd (a.1.symm.trans b) a.2.1
    | cons j l' =>
      obtain ⟨rfl,_,rest⟩ := a
      obtain ⟨rfl,_,rest'⟩ := b
      rw [ih rest rest']

/-- From a node of the list on, the list is shorter. -/
theorem Linked.suffix (member : i ∈ l) : ∃ rest, Linked next stop (next i) rest ∧ rest.length < l.length := by
  induction l generalizing h with
  | nil => exact absurd member List.not_mem_nil
  | cons j l ih =>
    obtain ⟨rfl,_,rest⟩ := a
    rcases List.mem_cons.1 member with rfl | later
    · exact ⟨l,rest,Nat.lt_succ_self _⟩
    · obtain ⟨tail,linked,short⟩ := ih rest later
      exact ⟨tail,linked,Nat.lt_succ_of_lt short⟩

/-- A finite list visits no node twice. -/
theorem Linked.nodup : l.Nodup := by
  induction l generalizing h with
  | nil => exact List.nodup_nil
  | cons i l ih =>
    obtain ⟨rfl,_,rest⟩ := a
    refine List.nodup_cons.2 ⟨?_,ih rest⟩
    -- a second visit would be followed by the same list, which is longer than what is left
    intro again
    obtain ⟨tail,linked,short⟩ := rest.suffix again
    rw [linked.unique rest] at short
    exact Nat.lt_irrefl _ short

theorem Linked.congr (same : ∀ i ∈ l, next' i = next i) : Linked next' stop h l := by
  induction l generalizing h with
  | nil => exact a
  | cons i l ih =>
    obtain ⟨head,ne,rest⟩ := a
    refine ⟨head,ne,?_⟩
    rw [same i List.mem_cons_self]
    exact ih rest fun j member => same j (List.mem_cons_of_mem _ member)

theorem Linked.push (new : i ∉ l) (ne : i ≠ stop)
    (link : next' i = h) (same : ∀ j, j ≠ i → next' j = next j) : Linked next' stop i (i :: l) := by
  refine ⟨rfl,ne,?_⟩
  rw [link]
  apply a.congr
  intro j member
  apply same
  rintro rfl
  exact new member

end

theorem linked_range {m i n : Nat} (inner : ∀ j, j + 1 < m → next j = j + 1) (last : ∀ j, j + 1 = m → next j = stop)
    (below : m ≤ stop) (ends : i + n + 1 = m) : Linked next stop i (List.range' i (n + 1)) := by
  induction n generalizing i with
  | zero =>
    refine ⟨rfl,by omega,?_⟩
    exact last i (by omega)
  | succ n ih =>
    refine ⟨rfl,by omega,?_⟩
    rw [inner i (by omega)]
    exact ih (by omega)

end Newosp.Lib
