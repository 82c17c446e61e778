import Mathlib.Data.List.Nodup
import Mathlib.Data.List.Perm.Basic

/-!
# Tables of slots

A table is a list of slots, and `f` reads what a slot holds, if anything. The contents are `filterMap f`, up to order:
filling a slot adds one entry, clearing it takes that entry away. A table whose entries have keys of their own forgets
an entry by putting the last one in its place.
-/

namespace Newosp.Lib
open List

variable {α β : Type} {f : α → Option β} {l : List α} {i : Nat} {old new : α} {b : β} {p : α → Bool}

theorem filterMap_fill (here : l[i]? = some old) (free : f old = none) (holds : f new = some b) :
    ((l.set i new).filterMap f).Perm (b :: l.filterMap f) := by
  induction l generalizing i with
  | nil => cases here
  | cons a l ih =>
    cases i with
    | zero =>
      cases here
      rw [set_cons_zero, filterMap_cons_some holds, filterMap_cons_none free]
    | succ i =>
      rw [set_cons_succ]
      cases held : f a with
      | none =>
        rw [filterMap_cons_none held, filterMap_cons_none held]
        exact ih here
      | some c =>
        rw [filterMap_cons_some held, filterMap_cons_some held]
        exact ((ih here).cons c).trans (.swap b c _)

theorem forall_mem_set {p : α → Prop} (others : ∀ a ∈ l, p a) (placed : p new) : ∀ a ∈ l.set i new, p a := by
  intro a member
  rcases mem_or_eq_of_mem_set member with before | rfl
  · exact others a before
  · exact placed

theorem filterMap_keep (here : l[i]? = some old) (same : f new = f old) :
    (l.set i new).filterMap f = l.filterMap f := by
  induction l generalizing i with
  | nil => rfl
  | cons a l ih =>
    cases i with
    | zero =>
      cases here
      rw [set_cons_zero, filterMap_cons, filterMap_cons, same]
    | succ i => rw [set_cons_succ, filterMap_cons, filterMap_cons, ih here]

/-- Clearing a slot is the reverse of filling it. -/
theorem filterMap_clear (here : l[i]? = some old) (held : f old = some b) (free : f new = none) :
    (l.filterMap f).Perm (b :: (l.set i new).filterMap f) := by
  have inside : i < l.length := (List.getElem?_eq_some_iff.1 here).1
  have there : (l.set i new)[i]? = some new := getElem?_set_self inside
  have back : (l.set i new).set i old = l := by
    rw [set_set, ← (List.getElem?_eq_some_iff.1 here).2, set_getElem_self]
  have filled := filterMap_fill there free held
  rw [back] at filled
  exact filled

/-- An entry that the table holds once is in one slot. -/
theorem filterMap_index {j : Nat} {a c : α} (once : (l.filterMap f).Nodup) (here : l[i]? = some a)
    (there : l[j]? = some c) (held : f a = some b) (same : f c = some b) : i = j := by
  induction l generalizing i j with
  | nil => cases here
  | cons x l ih =>
    -- the entry of the first slot is not among the rest
    have first : f x = some b → b ∉ l.filterMap f := by
      intro holds
      rw [filterMap_cons_some holds, nodup_cons] at once
      exact once.1
    have rest : (l.filterMap f).Nodup := by
      cases holds : f x with
      | none => rwa [filterMap_cons_none holds] at once
      | some y =>
        rw [filterMap_cons_some holds, nodup_cons] at once
        exact once.2
    cases i with
    | zero =>
      cases here
      cases j with
      | zero => rfl
      | succ j => exact absurd (mem_filterMap.2 ⟨c,mem_of_getElem? (l := l) there,same⟩) (first held)
    | succ i =>
      cases j with
      | zero =>
        cases there
        exact absurd (mem_filterMap.2 ⟨a,mem_of_getElem? (l := l) here,held⟩) (first same)
      | succ j => rw [ih rest here there]

theorem findIdx?_found (found : l.findIdx? p = some i) : ∃ a, l[i]? = some a ∧ p a = true := by
  obtain ⟨inside,passes,_⟩ := findIdx?_eq_some_iff_getElem.1 found
  exact ⟨l[i],getElem?_eq_getElem inside,passes⟩

/-- A table that is not full has a free slot. -/
theorem exists_free (taken : ∀ a ∈ l, p a = false → (f a).isSome = true)
    (room : (l.filterMap f).length < l.length) : ∃ i, l.findIdx? p = some i := by
  cases found : l.findIdx? p with
  | some i => exact ⟨i,rfl⟩
  | none =>
    have none_ := findIdx?_eq_none_iff.1 found
    have full : (l.filterMap f).length = l.length :=
      filterMap_length_eq_length.2 fun a member => taken a member (none_ a member)
    omega

/-- A table with a free slot is not full. -/
theorem filterMap_length_lt (here : l[i]? = some old) (free : f old = none) : (l.filterMap f).length < l.length := by
  apply Nat.lt_of_le_of_ne (length_filterMap_le f l)
  intro full
  have held := filterMap_length_eq_length.1 full old (mem_of_getElem? here)
  rw [free] at held
  cases held

section

variable {κ : Type} [DecidableEq κ] {key : α → κ} {k : κ} {a last : α}

section

theorem filter_of_missing (missing : ∀ i last, l.findIdx? (key · = k) = some i → l.getLast? = some last → False) :
    l.filter (key · ≠ k) = l := by
  cases found : l.findIdx? (key · = k) with
  | none => exact filter_eq_self.2 fun a member => by simpa using findIdx?_eq_none_iff.1 found a member
  | some i =>
    cases ends : l.getLast? with
    | none => rw [getLast?_eq_none_iff.1 ends, filter_nil]
    | some last => exact (missing i last found ends).elim

variable (once : (l.map key).Nodup)
include once

theorem eraseIdx_perm_filter (found : l.findIdx? (key · = k) = some i) :
    i < l.length ∧ (l.eraseIdx i).Perm (l.filter (key · ≠ k)) := by
  obtain ⟨lt,same,-⟩ := findIdx?_eq_some_iff_getElem.1 found
  have split : (l[i] :: l.eraseIdx i).Perm l := getElem_cons_eraseIdx_perm lt
  have fresh := (nodup_cons.1 ((split.map key).nodup_iff.2 once)).1
  have kept : (l.eraseIdx i).filter (key · ≠ k) = l.eraseIdx i := by
    refine filter_eq_self.2 fun a member => decide_eq_true fun here => fresh ?_
    exact mem_map.2 ⟨a,member,here.trans (of_decide_eq_true same).symm⟩
  have all := split.filter (key · ≠ k)
  rw [filter_cons_of_neg (by simpa using same), kept] at all
  exact ⟨lt,all⟩

/-- The last entry takes the place of the one with the key. -/
theorem swapRemove_perm (found : l.findIdx? (key · = k) = some i)
    (ends : l.getLast? = some last) : (l.set i last).dropLast.Perm (l.filter (key · ≠ k)) := by
  obtain ⟨lt,others⟩ := eraseIdx_perm_filter once found
  have tail : (l.set i last).getLast? = some last := by
    rw [getLast?_eq_getElem?] at ends ⊢
    rw [length_set, getElem?_set]
    grind
  have whole := set_perm_cons_eraseIdx lt last
  rw [← dropLast_append_getLast? last tail] at whole
  exact ((perm_append_singleton ..).symm.trans whole).cons_inv.trans others

theorem find?_key : l.find? (key · = k) = some a ↔ a ∈ l ∧ key a = k := by
  refine ⟨fun found => ⟨mem_of_find?_eq_some found,by simpa using find?_some found⟩,fun ⟨member,same⟩ => ?_⟩
  cases found : l.find? (key · = k) with
  | none => exact absurd (find?_eq_none.1 found a member) (by simpa using same)
  | some b =>
    have named : key b = k := by simpa using find?_some found
    rw [inj_on_of_nodup_map once (mem_of_find?_eq_some found) member (named.trans same.symm)]

theorem perm_cons_filter [DecidableEq α] (member : a ∈ l) :
    l.Perm (a :: l.filter (key · ≠ key a)) := by
  have others : l.filter (key · ≠ key a) = l.erase a := by
    rw [(Nodup.of_map _ once).erase_eq_filter]
    refine filter_congr fun b there => ?_
    rw [Bool.eq_iff_iff]
    simpa using not_congr ⟨inj_on_of_nodup_map once there member,congrArg key⟩
  rw [others]
  exact perm_cons_erase member

end

end

end Newosp.Lib
