import Newosp.Lib.Machine
import Newosp.Lib.SlotTable

/-!
# `ServiceRegistry`

A call holds the mutex from beginning to end, so a run is a sequence of calls. Names are stored cut to 63 characters
and compared in full.
-/

namespace Newosp.Registry
open Lib List Function

structure Entry where
  name : List UInt8
  host : List UInt8
  port : UInt16
  deriving DecidableEq

/-- `none` is `kBindFailed`. -/
def register (maxServices : Nat) (entries : List Entry) (name host : List UInt8) (port : UInt16) : Option (List Entry) :=
  if name ∈ entries.map Entry.name then none
  else if maxServices ≤ entries.length then none
  else some (entries ++ [⟨name.take 63, host.take 63, port⟩])

/-- `none` is `false`: there is no such entry. -/
def unregister (entries : List Entry) (name : List UInt8) : Option (List Entry) :=
  match entries.findIdx? (·.name = name), entries.getLast? with
  | some i, some last => some (entries.set i last).dropLast
  | _, _ => none

def lookup (entries : List Entry) (name : List UInt8) : Option Entry := entries.find? (·.name = name)

inductive Call
  | register (name host : List UInt8) (port : UInt16)
  | unregister (name : List UInt8)

/-- `held` is kept for the statements: the endpoint that was registered last under a name, until it is unregistered. -/
structure State where
  entries : List Entry
  held : List UInt8 → Option Entry

def next (maxServices : Nat) : Call → State → Option State
  | .register name host port, s => match register maxServices s.entries name host port with
    | none => some s
    | some entries => some ⟨entries, update s.held name (some ⟨name, host.take 63, port⟩)⟩
  | .unregister name, s => some ⟨(unregister s.entries name).getD s.entries, update s.held name none⟩

def machine (maxServices : Nat) : Machine State Call := ⟨⟨[], fun _ => none⟩, next maxServices⟩

/-- The name of the service fits. -/
def fits (_ : State) : Call → Prop
  | .register name _ _ => name.length ≤ 63
  | .unregister _ => True

instance (s : State) : DecidablePred (fits s)
  | .register .. => inferInstanceAs (Decidable (_ ≤ _))
  | .unregister _ => instDecidableTrue

structure Inv (s : State) : Prop where
  once : (s.entries.map Entry.name).Nodup
  held_iff : ∀ name e, s.held name = some e ↔ e ∈ s.entries ∧ e.name = name

variable {maxServices : Nat} {s : State} {entries : List Entry} {name : List UInt8} {e : Entry}

theorem unregister_perm (name : List UInt8) (once : (entries.map Entry.name).Nodup) :
    ((unregister entries name).getD entries).Perm (entries.filter (·.name ≠ name)) := by
  unfold unregister
  split
  · exact swapRemove_perm once ‹_› ‹_›
  · rename_i missing
    rw [filter_of_missing missing]
    rfl

theorem unregister_present (once : (entries.map Entry.name).Nodup) (member : e ∈ entries) :
    ∃ left, unregister entries e.name = some left ∧ entries.Perm (e :: left) := by
  have removed := unregister_perm e.name once
  cases eq : unregister entries e.name with
  | none =>
    rw [eq] at removed
    have there := removed.mem_iff.1 member
    simp at there
  | some left =>
    rw [eq] at removed
    exact ⟨left,rfl,(perm_cons_filter once member).trans (removed.symm.cons e)⟩

theorem Inv.next (h : Inv s) {a : Call} {t : State} (short : fits s a) (step : next maxServices a s = some t) :
    Inv t := by
  cases a with
  | register name host port =>
    rw [Registry.next, register, take_of_length_le short] at step
    split at step <;> cases step
    · exact h
    rename_i entries added
    obtain ⟨new,-,⟨⟩⟩ : name ∉ s.entries.map Entry.name ∧ ¬ maxServices ≤ s.entries.length ∧
        s.entries ++ [⟨name,host.take 63,port⟩] = entries := by simpa using added
    refine ⟨?_,fun other e => ?_⟩
    · rw [map_append]
      exact h.once.append (nodup_singleton _) (disjoint_singleton.2 new)
    · dsimp only
      by_cases same : other = name
      · rw [same, update_self, mem_append, mem_singleton, Option.some_inj]
        refine ⟨?_,fun ⟨there,named⟩ => ?_⟩
        · rintro rfl
          exact ⟨.inr rfl,rfl⟩
        · rcases there with old | rfl
          · exact absurd (mem_map.2 ⟨e,old,named⟩) new
          · rfl
      · rw [update_of_ne same, h.held_iff, mem_append, mem_singleton]
        refine and_congr_left fun named => ⟨.inl,fun there => there.resolve_right ?_⟩
        rintro rfl
        exact same named.symm
  | unregister name =>
    cases step
    have left := unregister_perm name h.once
    refine ⟨?_,fun other e => ?_⟩
    · exact (left.map _).nodup_iff.2 (h.once.sublist (filter_sublist.map _))
    · dsimp only
      rw [left.mem_iff, mem_filter, decide_eq_true_eq]
      by_cases same : other = name
      · rw [same, update_self]
        simp
      · rw [update_of_ne same, h.held_iff]
        refine ⟨fun ⟨member,named⟩ => ⟨⟨member,named ▸ same⟩,named⟩,fun ⟨⟨member,_⟩,named⟩ => ⟨member,named⟩⟩

/-- **The registry is a map** in the runs whose names fit. -/
theorem registry_is_map (reached : Reach (machine maxServices) fits s) :
    (s.entries.map Entry.name).Nodup ∧ ∀ name, lookup s.entries name = s.held name ∧ ∀ e, s.held name = some e →
      (∀ host port, register maxServices s.entries name host port = none) ∧
      ∃ entries, unregister s.entries name = some entries ∧ s.entries.Perm (e :: entries) := by
  have h : Inv s := by
    apply reached.invariant (I := Inv)
    · exact ⟨nodup_nil,by simp [machine]⟩
    · exact fun s t a _ h short step => h.next short step
  refine ⟨h.once,fun name => ⟨?_,fun e held => ⟨fun host port => ?_,?_⟩⟩⟩
  · exact Option.ext fun e => (find?_key h.once).trans (h.held_iff name e).symm
  · obtain ⟨member,rfl⟩ := (h.held_iff name e).1 held
    exact if_pos (mem_map_of_mem member)
  · obtain ⟨member,rfl⟩ := (h.held_iff _ e).1 held
    exact unregister_present h.once member

theorem registry_is_map_reordered : ∃ s, Reach (machine 2) fits s ∧ lookup s.entries [98] = some ⟨[98],[7],80⟩ ∧
    register 2 s.entries [98] [9] 81 = none := by
  obtain ⟨s,reached,held⟩ := reach_of_decided (machine 2) fits
    [.register [97] [7] 70, .register [98] [7] 80, .unregister [97]] (·.held [98] = some ⟨[98],[7],80⟩) (by decide)
  obtain ⟨found,present⟩ := (registry_is_map reached).2 [98]
  exact ⟨s,reached,found.trans held,(present _ held).1 [9] 81⟩

/-- A name of 64 characters is registered twice, and never found. -/
theorem long_name_registered_twice : ∃ s, Reach (machine 4) anyStep s ∧ s.entries.length = 2 ∧
    ¬ (s.entries.map Entry.name).Nodup ∧ (s.held (replicate 64 97)).isSome ∧ lookup s.entries (replicate 64 97) = none := by
  exact reach_of_schedule (machine 4) [.register (replicate 64 97) [7] 80, .register (replicate 64 97) [7] 80] _ (by decide +kernel)

end Newosp.Registry
