import Newosp.Lib.Wrap
import Mathlib.Data.List.Nodup

/-!
# Rings whose positions are handed out in order

A bounded queue with a sequence number per slot hands its positions out one by one: `claims` lists the callers that got
one, and the oldest `popped` of them are taken out again. The positions from `popped` on cover each slot once: unclaimed
ones find it `vacant`, and what the slot of a claimed one holds follows from where its call is (`filled`).
-/

namespace Newosp.Lib
open List
open Function

variable {ι σ π : Type}

structure TicketRing (size : Nat) (vacant : σ → Nat → Prop) (filled : ι → σ → Nat → π → Prop) (owns : π → Bool) (last : π)
    (claims : List ι) (popped : Nat) (slots : Nat → σ) (pc : ι → π) : Prop where
  le : popped ≤ claims.length
  room : claims.length ≤ popped + size
  nodup : claims.Nodup
  claimed : ∀ c, c ∈ claims ↔ owns (pc c) = true
  free : ∀ p, claims.length ≤ p → p < popped + size → vacant (slots (p % size)) p
  held : ∀ p c, popped ≤ p → claims[p]? = some c → filled c (slots (p % size)) p (pc c)
  past : ∀ p c, p < popped → claims[p]? = some c → pc c = last

namespace TicketRing

variable {size : Nat} {vacant : σ → Nat → Prop} {filled : ι → σ → Nat → π → Prop} {owns : π → Bool} {last : π}
  {claims : List ι} {popped : Nat} {slots : Nat → σ} {pc : ι → π} {c : ι} {at' : π}
  {slot : σ}

/-- A new ring, whose slots wait for the first positions. -/
theorem init (free : ∀ p < size, vacant (slots p) p) (nobody : ∀ c, owns (pc c) = false) :
    TicketRing size vacant filled owns last [] 0 slots pc where
  le := Nat.le_refl 0
  room := Nat.zero_le _
  nodup := nodup_nil
  claimed c := by
    rw [nobody]
    exact ⟨fun member => absurd member not_mem_nil,nofun⟩
  free p _ lt := by
    rw [zero_add] at lt
    rw [Nat.mod_eq_of_lt lt]
    exact free p lt
  held := nofun
  past := nofun

variable (h : TicketRing size vacant filled owns last claims popped slots pc)
include h

/-- The position of a call that is filling its slot. -/
theorem position (now : pc c = at') (claimed : owns at' = true) (running : at' ≠ last) :
    ∃ p, popped ≤ p ∧ p < popped + size ∧ claims[p]? = some c ∧ filled c (slots (p % size)) p at' := by
  subst now
  obtain ⟨p,lt,eq⟩ := getElem_of_mem ((h.claimed c).2 claimed)
  have here : claims[p]? = some c := List.getElem?_eq_some_iff.2 ⟨lt,eq⟩
  have late : popped ≤ p := by
    by_contra early
    exact running (h.past p c (by omega) here)
  have room := h.room
  exact ⟨p,late,by omega,here,h.held p c late here⟩

/-- A call that owns no position is not among the claims. -/
theorem other (unclaimed : owns (pc c) = false) {d : ι} (member : d ∈ claims) : d ≠ c := by
  rintro rfl
  rw [(h.claimed d).1 member] at unclaimed
  cases unclaimed

/-- The oldest claim is taken out, and its slot is vacant for the position one turn later. -/
theorem release (oldest : claims[popped]? = some c) (done : pc c = last) (turned : vacant slot (popped + size)) :
    TicketRing size vacant filled owns last claims (popped + 1) (update slots (popped % size) slot) pc := by
  have lt := (List.getElem?_eq_some_iff.1 oldest).1
  have room := h.room
  have apart : ∀ {q}, popped < q → q < popped + size →
      update slots (popped % size) slot (q % size) = slots (q % size) := by
    intro q low high
    exact update_of_ne (index_ne (by omega) (by omega) (by omega)) ..
  refine ⟨lt,by omega,h.nodup,h.claimed,?_,?_,?_⟩
  · intro p low high
    rcases lt_or_ge p (popped + size) with inside | top
    · rw [apart (lt_of_lt_of_le lt low) inside]
      exact h.free p low inside
    · obtain rfl : p = popped + size := by omega
      rw [Nat.add_mod_right, update_self]
      exact turned
  · intro p d late at_p
    have high := (List.getElem?_eq_some_iff.1 at_p).1
    rw [apart late (lt_of_lt_of_le high room)]
    exact h.held p d (by omega) at_p
  · intro p d early at_p
    rcases lt_or_ge p popped with before | now
    · exact h.past p d before at_p
    · obtain rfl : p = popped := by omega
      rw [oldest] at at_p
      cases at_p
      exact done

variable [DecidableEq ι]

/-- A call without a position moves. -/
theorem move (filled' : ι → σ → Nat → π → Prop) (unclaimed : owns (pc c) = false) (unclaimed' : owns at' = false)
    (others : ∀ d, d ≠ c → filled' d = filled d) :
    TicketRing size vacant filled' owns last claims popped slots (update pc c at') := by
  have same : ∀ {p : Nat} {d : ι}, claims[p]? = some d → d ≠ c := fun here =>
    h.other unclaimed (mem_of_getElem? here)
  refine ⟨h.le,h.room,h.nodup,?_,h.free,?_,?_⟩
  · refine (forall_update_iff pc fun d q => d ∈ claims ↔ owns q = true).2 ⟨?_,fun d _ => h.claimed d⟩
    rw [unclaimed']
    exact ⟨fun member => absurd rfl (h.other unclaimed member),nofun⟩
  · intro p d late here
    rw [update_of_ne (same here), others d (same here)]
    exact h.held p d late here
  · intro p d early here
    rw [update_of_ne (same here)]
    exact h.past p d early here

/-- A call claims the next position. -/
theorem claim (at' : π) (unclaimed : owns (pc c) = false) (claimed : owns at' = true)
    (room : claims.length < popped + size) (ok : filled c (slots (claims.length % size)) claims.length at') :
    TicketRing size vacant filled owns last (claims ++ [c]) popped slots (update pc c at') := by
  have same : ∀ {p : Nat} {d : ι}, claims[p]? = some d → d ≠ c := fun here =>
    h.other unclaimed (mem_of_getElem? here)
  have older : ∀ {p : Nat} {d : ι}, (claims ++ [c])[p]? = some d → claims[p]? = some d ∨
      p = claims.length ∧ d = c := by
    intro p d at_p
    rw [getElem?_append] at at_p
    split at at_p
    · exact .inl at_p
    · rename_i late
      obtain ⟨zero,eq⟩ := List.getElem?_eq_some_iff.1 at_p
      rw [getElem_singleton] at eq
      rw [length_singleton] at zero
      exact .inr ⟨by omega,eq.symm⟩
  have le := h.le
  have length : (claims ++ [c]).length = claims.length + 1 := length_append
  refine ⟨by omega,by omega,?_,?_,?_,?_,?_⟩
  · refine nodup_append.2 ⟨h.nodup,nodup_singleton _,?_⟩
    intro d old d' new
    rw [mem_singleton.1 new]
    exact h.other unclaimed old
  · refine (forall_update_iff pc fun d q => d ∈ claims ++ [c] ↔ owns q = true).2 ⟨by simp [claimed],?_⟩
    intro d ne
    rw [mem_append, mem_singleton, or_iff_left ne]
    exact h.claimed d
  · exact fun p late lt => h.free p (by omega) lt
  · intro p d late at_p
    rcases older at_p with old | ⟨rfl,rfl⟩
    · rw [update_of_ne (same old)]
      exact h.held p d late old
    · rw [update_self]
      exact ok
  · intro p d early at_p
    rcases older at_p with old | ⟨rfl,rfl⟩
    · rw [update_of_ne (same old)]
      exact h.past p d early old
    · omega

theorem write {p : Nat} (late : popped ≤ p) (near : p < popped + size) (here : claims[p]? = some c)
    (running : pc c ≠ last) (claimed : owns at' = true) (ok : filled c slot p at') :
    TicketRing size vacant filled owns last claims popped (update slots (p % size) slot) (update pc c at') := by
  have lt := (List.getElem?_eq_some_iff.1 here).1
  have room := h.room
  -- the other positions of the window are in other slots
  have apart : ∀ {q}, q ≠ p → popped ≤ q → q < popped + size →
      update slots (p % size) slot (q % size) = slots (q % size) := by
    intro q ne low high
    apply update_of_ne
    exact fun eq => ne (index_inj (by omega) (by omega) eq)
  refine ⟨h.le,h.room,h.nodup,?_,?_,?_,?_⟩
  · refine (forall_update_iff pc fun d q => d ∈ claims ↔ owns q = true).2 ⟨?_,fun d _ => h.claimed d⟩
    exact iff_of_true (mem_of_getElem? here) claimed
  · intro q unclaimed high
    rw [apart (by omega) (by omega) high]
    exact h.free q unclaimed high
  · intro q d low at_q
    have inside := (List.getElem?_eq_some_iff.1 at_q).1
    by_cases self : d = c
    · subst self
      obtain rfl := (getElem?_inj inside h.nodup).1 (at_q.trans here.symm)
      rw [update_self, update_self]
      exact ok
    · have ne : q ≠ p := by
        rintro rfl
        exact self (Option.some.inj (at_q.symm.trans here))
      rw [update_of_ne self, apart ne low (lt_of_lt_of_le inside room)]
      exact h.held q d low at_q
  · intro q d early at_q
    have self : d ≠ c := by
      rintro rfl
      exact running (h.past q d early at_q)
    rw [update_of_ne self]
    exact h.past q d early at_q

end TicketRing

end Newosp.Lib
