import Mathlib.Data.List.Nodup
import Newosp.Lib.Machine
import Newosp.Watchdog.Watchdog

/-!
# The ids of registrations

The owners of registrations call the operations in any order; registration `k` is the `k`-th that succeeded. An id keeps
the low bits of the generation only, but it is compared with the whole of it: an id is good exactly as long as its slot
has been registered fewer than `2 ^ (32 - kSlotBits)` times.
-/

namespace Newosp.Watchdog
open Lib List Function

/-- The watchdog, the ids that it has given out, and the registrations whose owner has called `Unregister`. -/
structure Ledger where
  slots : Slots
  given : List Nat
  back : List Nat

inductive Call
  | register (name : List UInt8) (timeoutMs now : Nat)
  | unregister (k : Nat)
  | feed (k now : Nat)
  | beat (k now : Nat)
  | check (now : Nat)

section

variable (cfg : Config)

/-- One operation; those on registration `k` are called with its id, or through its heartbeat. -/
def call : Call → Ledger → Option Ledger
  | .register name timeoutMs now, s =>
    match register cfg name timeoutMs now s.slots with
    | (slots, .ok result) => some { s with slots, given := s.given ++ [result.id] }
    | (slots, .error _) => some { s with slots }
  | .unregister k, s =>
    s.given[k]?.map fun id => { s with slots := (unregister cfg id s.slots).1, back := k :: s.back }
  | .feed k now, s => s.given[k]?.map fun id => { s with slots := feed cfg id now s.slots }
  | .beat k now, s => s.given[k]?.map fun id => { s with slots := beat (idIndex cfg id) now s.slots }
  | .check now, s => some { s with slots := check cfg now s.slots }

def ledger : Machine Ledger Call := ⟨⟨.init, [], []⟩, call cfg⟩

/-- A registration leaves the generation of its slot below `2 ^ (32 - kSlotBits)`. -/
def few (s : Ledger) : Call → Prop
  | .register _ timeoutMs _ => ∀ i, timeoutMs ≠ 0 → freeSlot cfg s.slots = some i →
      (s.slots i).generation + 1 < 2 ^ (32 - cfg.kSlotBits)
  | _ => True

structure Accepted (slots : Slots) (id : Nat) : Prop where
  unregister : (unregister cfg id slots).2 = .ok ()
  isTimedOut : isTimedOut cfg id slots = (slots (idIndex cfg id)).timedOut
  feed : ∀ now, feed cfg id now slots = beat (idIndex cfg id) now slots

structure Refused (slots : Slots) (id : Nat) : Prop where
  unregister : unregister cfg id slots = (slots, .error .kNotRegistered)
  isTimedOut : isTimedOut cfg id slots = false
  feed : ∀ now, feed cfg id now slots = slots

structure Ids (s : Ledger) : Prop where
  small : ∀ i, (s.slots i).generation < 2 ^ (32 - cfg.kSlotBits)
  shape : ∀ id ∈ s.given, ∃ i generation, i < cfg.maxThreads ∧ generation ≤ (s.slots i).generation ∧
    id = encode cfg generation i
  nodup : s.given.Nodup
  early : ∀ k ∈ s.back, k < s.given.length
  live : ∀ k id, s.given[k]? = some id → (accepts cfg s.slots id = true ↔ k ∉ s.back)

end

section

variable {cfg : Config} {s t : Ledger} {k id : Nat} {slots : Slots} {n : Nat}

theorem accepted_of_accepts (ok : accepts cfg slots id = true) : Accepted cfg slots id := by
  constructor
  case unregister => rw [unregister, if_pos ok]
  case isTimedOut => rw [isTimedOut, if_pos ok]
  case feed => exact fun now => by rw [feed, if_pos ok]

theorem refused_of_not_accepts (no : ¬ accepts cfg slots id = true) : Refused cfg slots id := by
  constructor
  case unregister => rw [unregister, if_neg no]
  case isTimedOut => rw [isTimedOut, if_neg no]
  case feed => exact fun now => by rw [feed, if_neg no]

theorem Ids.keep (h : Ids cfg s) (active : ∀ i, (slots i).active = (s.slots i).active)
    (generation : ∀ i, (slots i).generation = (s.slots i).generation) : Ids cfg { s with slots := slots } := by
  constructor
  case small => exact fun i => generation i ▸ h.small i
  case shape =>
    intro id given
    obtain ⟨i,g,inside,le,eq⟩ := h.shape id given
    exact ⟨i,g,inside,generation i ▸ le,eq⟩
  case nodup => exact h.nodup
  case early => exact h.early
  case live =>
    intro k id given
    rw [← h.live k id given]
    simp only [accepts, active, generation]

theorem beat_active (i now : Nat) (slots : Slots) (j : Nat) : (beat i now slots j).active = (slots j).active ∧
    (beat i now slots j).generation = (slots j).generation :=
  ⟨update_same Slot.active (by rfl) j,update_same Slot.generation (by rfl) j⟩

theorem judge_active (now : Nat) (slot : Slot) : (judge now slot).1.active = slot.active ∧
    (judge now slot).1.generation = slot.generation := by
  unfold judge
  split
  · exact ⟨rfl,rfl⟩
  · split <;> exact ⟨rfl,rfl⟩

section

variable (h : Ids cfg s)
include h

theorem Ids.beat (i now : Nat) : Ids cfg { s with slots := Watchdog.beat i now s.slots } :=
  h.keep (fun j => (beat_active i now s.slots j).1) fun j => (beat_active i now s.slots j).2

theorem Ids.feed (id now : Nat) : Ids cfg { s with slots := Watchdog.feed cfg id now s.slots } := by
  unfold Watchdog.feed
  split
  · exact h.beat _ now
  · exact h

theorem Ids.check (now : Nat) : Ids cfg { s with slots := Watchdog.check cfg now s.slots } := by
  have same : ∀ i, (Watchdog.check cfg now s.slots i).active = (s.slots i).active ∧
      (Watchdog.check cfg now s.slots i).generation = (s.slots i).generation := by
    intro i
    unfold Watchdog.check
    split
    · exact judge_active now _
    · exact ⟨rfl,rfl⟩
  exact h.keep (fun i => (same i).1) fun i => (same i).2

theorem Ids.registered {i now timeoutUs : Nat} {name : List UInt8} (free : freeSlot cfg s.slots = some i)
    (few : (s.slots i).generation + 1 < 2 ^ (32 - cfg.kSlotBits)) :
    Ids cfg { s with
      slots := update s.slots i ⟨true, wrap32 ((s.slots i).generation + 1), now, timeoutUs, false, name⟩
      given := s.given ++ [encode cfg (wrap32 ((s.slots i).generation + 1)) i] } := by
  obtain ⟨inside,inactive⟩ := freeSlot_some free
  have word : wrap32 ((s.slots i).generation + 1) = (s.slots i).generation + 1 := by
    have pow : 2 ^ (32 - cfg.kSlotBits) ≤ 2 ^ 32 := Nat.pow_le_pow_right (by decide) (Nat.sub_le ..)
    exact wrap32_of_lt (lt_of_lt_of_le few pow)
  rw [word]
  let slots := update s.slots i ⟨true,(s.slots i).generation + 1,now,timeoutUs,false,name⟩
  -- the ids given out so far: those of the slot have an older generation
  have older : ∀ id ∈ s.given, id ≠ encode cfg ((s.slots i).generation + 1) i := by
    rintro id given rfl
    obtain ⟨j,g,small,le,eq⟩ := h.shape _ given
    have index := congrArg (idIndex cfg) eq
    rw [idIndex_encode inside, idIndex_encode small] at index
    subst index
    have generation := congrArg (idGeneration cfg) eq
    rw [idGeneration_encode inside, idGeneration_encode inside, Nat.mod_eq_of_lt few,
      Nat.mod_eq_of_lt (lt_of_le_of_lt le (h.small i))] at generation
    omega
  constructor
  case small =>
    intro j
    by_cases same : j = i
    · subst same
      simpa only [update_self] using few
    · simpa only [update_of_ne same] using h.small j
  case shape =>
    intro id given
    rcases mem_append.1 given with old | new
    · obtain ⟨j,g,small,le,eq⟩ := h.shape id old
      refine ⟨j,g,small,?_,eq⟩
      by_cases same : j = i
      · subst same
        simp only [update_self]
        omega
      · simpa only [update_of_ne same] using le
    · refine ⟨i,(s.slots i).generation + 1,inside,?_,mem_singleton.1 new⟩
      simp only [update_self]
      exact le_rfl
  case nodup =>
    refine nodup_append.2 ⟨h.nodup,nodup_singleton _,?_⟩
    intro id old id' new eq
    exact older id old (eq ▸ mem_singleton.1 new)
  case early =>
    intro k back
    rw [length_append]
    exact Nat.lt_add_right _ (h.early k back)
  case live =>
    intro k id given
    rcases Nat.lt_trichotomy k s.given.length with old | rfl | late
    · rw [getElem?_append_left old] at given
      rw [← h.live k id given]
      obtain ⟨j,g,small,le,rfl⟩ := h.shape id (mem_of_getElem? given)
      rw [accepts_encode small, accepts_encode small]
      by_cases same : j = i
      · subst same
        simp only [update_self, inactive, Bool.false_eq_true, false_and, iff_false, not_and]
        rw [Nat.mod_eq_of_lt (lt_of_le_of_lt le (h.small j))]
        omega
      · simp only [update_of_ne same]
    · rw [getElem?_append_right le_rfl, Nat.sub_self] at given
      cases given
      rw [accepts_encode inside]
      simp only [update_self, Nat.mod_eq_of_lt few, true_and, true_iff]
      exact fun back => lt_irrefl _ (h.early _ back)
    · rw [getElem?_eq_none (by rw [length_append]; exact late)] at given
      cases given

theorem Ids.one_accepted {k' id' : Nat} (given : s.given[k]? = some id) (given' : s.given[k']? = some id')
    (ok : accepts cfg s.slots id = true) (ok' : accepts cfg s.slots id' = true) (index : idIndex cfg id = idIndex cfg id') :
    k = k' := by
  obtain ⟨i,g,small,le,rfl⟩ := h.shape id (mem_of_getElem? given)
  obtain ⟨i',g',small',le',rfl⟩ := h.shape id' (mem_of_getElem? given')
  rw [idIndex_encode small, idIndex_encode small'] at index
  subst index
  rw [accepts_encode small, Nat.mod_eq_of_lt (lt_of_le_of_lt le (h.small i))] at ok
  rw [accepts_encode small, Nat.mod_eq_of_lt (lt_of_le_of_lt le' (h.small i))] at ok'
  obtain rfl := ok.2.symm.trans ok'.2
  exact (getElem?_inj (List.getElem?_eq_some_iff.1 given).1 h.nodup).1 (given.trans given'.symm)

theorem Ids.unregister (given : s.given[k]? = some id) :
    Ids cfg { s with slots := (Watchdog.unregister cfg id s.slots).1, back := k :: s.back } := by
  have early : ∀ k' ∈ k :: s.back, k' < s.given.length := by
    intro k' back
    rcases mem_cons.1 back with rfl | old
    · exact (List.getElem?_eq_some_iff.1 given).1
    · exact h.early k' old
  unfold Watchdog.unregister
  split
  · rename_i ok
    have generation : ∀ i, (update s.slots (idIndex cfg id)
        { s.slots (idIndex cfg id) with active := false } i).generation = (s.slots i).generation := by
      intro i
      by_cases same : i = idIndex cfg id
      · rw [same, update_self]
      · rw [update_of_ne same]
    constructor
    case small => exact fun i => generation i ▸ h.small i
    case shape =>
      intro id' old
      obtain ⟨i,g,small,le,eq⟩ := h.shape id' old
      exact ⟨i,g,small,generation i ▸ le,eq⟩
    case nodup => exact h.nodup
    case early => exact early
    case live =>
      intro k' id' given'
      rw [mem_cons, not_or, ← h.live k' id' given']
      simp only [accepts, generation]
      by_cases same : idIndex cfg id' = idIndex cfg id
      · -- the slot is free now; it had accepted the id of `k` alone
        rw [same, update_self, Bool.and_false, Bool.false_and]
        refine ⟨by simp,?_⟩
        rintro ⟨other,accepted⟩
        have ok' : accepts cfg s.slots id' = true := by
          rw [accepts, same]
          exact accepted
        exact absurd (h.one_accepted given given' ok ok' same.symm) (Ne.symm other)
      · rw [update_of_ne same]
        refine ⟨fun accepted => ⟨?_,accepted⟩,And.right⟩
        rintro rfl
        cases given.symm.trans given'
        exact same rfl
  · rename_i refused
    constructor
    case small => exact h.small
    case shape => exact h.shape
    case nodup => exact h.nodup
    case early => exact early
    case live =>
      intro k' id' given'
      rw [mem_cons, not_or, ← h.live k' id' given']
      refine ⟨fun accepted => ⟨?_,accepted⟩,And.right⟩
      rintro rfl
      cases given.symm.trans given'
      exact refused accepted

theorem Ids.call {a : Call} (guard : few cfg s a) (step : call cfg a s = some t) : Ids cfg t := by
  cases a with
  | register name timeoutMs now =>
    simp only [Watchdog.call, register] at step
    by_cases zero : timeoutMs = 0
    · rw [if_pos zero] at step
      cases step
      exact h
    · rw [if_neg zero] at step
      cases free : freeSlot cfg s.slots with
      | none =>
        rw [free] at step
        cases step
        exact h
      | some i =>
        rw [free] at step
        cases step
        exact h.registered free (guard i zero free)
  | unregister k =>
    obtain ⟨id,given,rfl⟩ := Option.map_eq_some_iff.1 step
    exact h.unregister given
  | feed k now =>
    obtain ⟨id,given,rfl⟩ := Option.map_eq_some_iff.1 step
    exact h.feed id now
  | beat k now =>
    obtain ⟨id,given,rfl⟩ := Option.map_eq_some_iff.1 step
    exact h.beat _ now
  | check now =>
    cases step
    exact h.check now

end

theorem reach_ids (h : Reach (ledger cfg) (few cfg) s) : Ids cfg s := by
  have base : Ids cfg ⟨.init,[],[]⟩ := by
    constructor
    case small => exact fun i => Nat.two_pow_pos _
    case shape => nofun
    case nodup => exact nodup_nil
    case early => nofun
    case live => nofun
  apply h.invariant base
  intro s t a _ ih guard step
  exact ih.call guard step

/-- **An id is accepted until its owner gives it back, and never again.** -/
theorem id_accepted_until_back (h : Reach (ledger cfg) (few cfg) s) (given : s.given[k]? = some id) :
    (k ∉ s.back → Accepted cfg s.slots id) ∧ (k ∈ s.back → Refused cfg s.slots id) := by
  have live := (reach_ids h).live k id given
  constructor
  · exact fun here => accepted_of_accepts (live.2 here)
  · intro back
    apply refused_of_not_accepts
    rw [live]
    exact not_not_intro back

def pair : Config := ⟨2, Nat.two_pos, by decide, true, true⟩

/-- A slot is registered, given back and registered again: the old id is refused and the new one accepted. -/
theorem id_accepted_until_back_again : ∃ s, Reach (ledger pair) (few pair) s ∧ s.given = [2, 4] ∧ s.back = [0] ∧
    Refused pair s.slots 2 ∧ Accepted pair s.slots 4 := by
  let check : Ledger → Call → Bool := fun s a => match a with
    | .register _ _ _ => (freeSlot pair s.slots).all fun i => (s.slots i).generation + 1 < 2 ^ (32 - pair.kSlotBits)
    | _ => true
  have sound : ∀ s a, check s a = true → few pair s a := by
    intro s a passes
    cases a with
    | register name timeoutMs now =>
      intro i _ free
      simp only [check, free, Option.all_some] at passes
      exact of_decide_eq_true passes
    | _ => trivial
  obtain ⟨s,reached,given,back⟩ := reach_of_run (ledger pair) sound
      [.register [] 5 100, .unregister 0, .register [] 5 200] (fun s => s.given = [2, 4] ∧ s.back = [0])
      (by decide +kernel)
  refine ⟨s,reached,given,back,?_,?_⟩
  · exact (id_accepted_until_back (k := 0) reached (by rw [given]; rfl)).2 (by rw [back]; decide)
  · exact (id_accepted_until_back (k := 1) reached (by rw [given]; rfl)).1 (by rw [back]; decide)

structure Worn (n : Nat) (s : Ledger) : Prop where
  reached : Reach (ledger pair) (few pair) s
  given : s.given.length = n
  free : (s.slots 0).active = false
  generation : (s.slots 0).generation = n

theorem Worn.freeSlot (h : Worn n s) : freeSlot pair s.slots = some 0 := by
  rw [Watchdog.freeSlot, show range pair.maxThreads = [0, 1] from rfl, find?_cons_of_pos]
  rw [h.free]
  rfl

theorem Worn.register (h : Worn n s) : call pair (.register [] 5 0) s = some { s with
    slots := update s.slots 0 ⟨true, wrap32 (n + 1), 0, 5000, false, []⟩
    given := s.given ++ [encode pair (wrap32 (n + 1)) 0] } := by
  simp only [call, Watchdog.register, h.freeSlot, h.generation]
  rfl

theorem Worn.reached_next (h : Worn n s) : Reach (ledger pair) anyStep { s with
    slots := update s.slots 0 ⟨true, wrap32 (n + 1), 0, 5000, false, []⟩
    given := s.given ++ [encode pair (wrap32 (n + 1)) 0] } :=
  .step (a := Call.register [] 5 0) (h.reached.mono fun _ _ _ => trivial) trivial h.register

theorem worn_reached (n : Nat) (small : n < 2147483648) : ∃ s, Worn n s := by
  induction n with
  | zero => exact ⟨_,.init,rfl,rfl,rfl⟩
  | succ n ih =>
    obtain ⟨s,worn⟩ := ih (by omega)
    have guard : few pair s (.register [] 5 0) := by
      intro i _ free
      cases worn.freeSlot.symm.trans free
      rw [worn.generation]
      exact small
    have reached := Reach.step worn.reached guard worn.register
    have last : (s.given ++ [encode pair (wrap32 (n + 1)) 0])[n]? = some (encode pair (wrap32 (n + 1)) 0) := by
      rw [← worn.given, getElem?_concat_length]
    have word : wrap32 (n + 1) = n + 1 := wrap32_of_lt (by omega)
    have accepted : accepts pair (update s.slots 0 ⟨true,wrap32 (n + 1),0,5000,false,[]⟩)
        (encode pair (wrap32 (n + 1)) 0) = true := by
      rw [accepts_encode pair.pos, update_self, word]
      exact ⟨rfl,(Nat.mod_eq_of_lt small).symm⟩
    refine ⟨_,Reach.step (a := .unregister n) reached trivial (congrArg (Option.map _) last),?_,?_,?_⟩
    · rw [length_append, worn.given]
      rfl
    all_goals simp only [Watchdog.unregister, accepted, if_true, idIndex_encode pair.pos, update_self]
    exact word

/-- The id of the `2 ^ 31`-th registration of one slot is refused at once: its owner cannot give the slot back. -/
theorem worn_id_refused : ∃ s k id, Reach (ledger pair) anyStep s ∧ s.given[k]? = some id ∧ k ∉ s.back ∧
    Refused pair s.slots id := by
  obtain ⟨s,worn⟩ := worn_reached 2147483647 (by decide)
  have ids := reach_ids worn.reached
  refine ⟨_,s.given.length,_,worn.reached_next,getElem?_concat_length,fun back => lt_irrefl _ (ids.early _ back),?_⟩
  apply refused_of_not_accepts
  rw [accepts_encode pair.pos]
  simp only [update_self]
  decide

end

end Newosp.Watchdog
