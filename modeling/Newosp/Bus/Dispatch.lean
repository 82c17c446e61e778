import Newosp.Lib.Machine

/-!
# `DispatchMessage` with callbacks that subscribe and unsubscribe

The lock upgrades inside the dispatch, so a callback may change the entries that the loop walks over. The loop ends when
it has called as many callbacks as are registered then. `turn` is the walk without the early end.
-/

namespace Newosp.Bus.Dispatch
open Lib List
open Function (update update_of_ne update_self)

/-- `CallbackEntry`, without the callback. -/
structure CallbackEntry where
  id : UInt32
  active : Bool

/-- The entries of the type of the message, up to `OSP_BUS_MAX_CALLBACKS_PER_TYPE`. -/
structure CallbackSlot (maxCallbacks : Nat) where
  entries : Nat → CallbackEntry
  count : Nat
  counted : count = (range maxCallbacks).countP fun i => (entries i).active

/-- What happens at an entry; `position` is the entry of the callback that asks for it. -/
inductive Event
  | called (i : Nat)
  | subscribed (i position : Nat)
  | unsubscribed (i position : Nat)
deriving DecidableEq

def Event.position : Event → Nat
  | .called position | .subscribed _ position | .unsubscribed _ position => position

/-- What a callback asks for the type of the message; a new subscription has any id. -/
inductive Request
  | subscribe (callbackId : UInt32)
  | unsubscribe (callbackId : UInt32)

/-- The slot in the course of a dispatch, with `found` of the loop and what has happened. -/
structure State where
  entries : Nat → CallbackEntry
  count : Nat
  found : Nat
  log : List Event

section

variable (maxCallbacks : Nat)

def request (position : Nat) (s : State) : Request → State
  | .subscribe callbackId =>
    match (range maxCallbacks).find? fun i => !(s.entries i).active with
    | some i => { s with entries := update s.entries i ⟨callbackId, true⟩, count := s.count + 1,
                         log := s.log ++ [.subscribed i position] }
    | none => s
  | .unsubscribe callbackId =>
    match (range maxCallbacks).find? fun i => (s.entries i).active && (s.entries i).id = callbackId with
    | some i => { s with entries := update s.entries i { s.entries i with active := false },
                         count := s.count - 1, log := s.log ++ [.unsubscribed i position] }
    | none => s

variable (requests : Nat → List Request)

/-- The loop body at entry `i`; the callback that is called as number `n` makes the requests `requests n`. -/
def visit (i : Nat) (s : State) : State :=
  if (s.entries i).active then
    (requests s.found).foldl (request maxCallbacks i) { s with found := s.found + 1, log := s.log ++ [.called i] }
  else s

/-- The loop, with `left` entries from `i` on. -/
def dispatchLoop : (left i : Nat) → State → State
  | 0, _, s => s
  | left + 1, i, s =>
    if s.found < s.count then dispatchLoop left (i + 1) (visit maxCallbacks requests i s) else s

variable {maxCallbacks} (slot : CallbackSlot maxCallbacks)

def dispatchMessage : State :=
  let s := ⟨slot.entries, slot.count, 0, []⟩
  if slot.count = 0 then s else dispatchLoop maxCallbacks requests maxCallbacks 0 s

/-- The walk without the early end, when it comes to entry `i`. -/
def turn : Nat → State
  | 0 => ⟨slot.entries, slot.count, 0, []⟩
  | i + 1 => visit maxCallbacks requests i (turn i)

end

section

/-- Who is registered, and the entries from which on nobody was called: calls go upwards, to registered callbacks only. -/
def accept (s : (Nat → Bool) × Nat) : Event → Option ((Nat → Bool) × Nat)
  | .called i => if s.1 i = true ∧ s.2 ≤ i then some (s.1, i + 1) else none
  | .subscribed i _ => some (update s.1 i true, s.2)
  | .unsubscribed i _ => some (update s.1 i false, s.2)

variable {maxCallbacks : Nat} (slot : CallbackSlot maxCallbacks)

def replay (log : List Event) : Option ((Nat → Bool) × Nat) := log.foldlM accept (fun i => (slot.entries i).active, 0)

/-- Nobody is called twice or after it was unsubscribed; who was registered is called, or unsubscribed by an earlier
callback. -/
structure Dispatched (log : List Event) : Prop where
  calls : (replay slot log).isSome = true
  all : ∀ x < maxCallbacks, (slot.entries x).active = true →
    .called x ∈ log ∨ ∃ position < x, .unsubscribed x position ∈ log

/-- A callback that was registered before the dispatch, and not unsubscribed since, is at entry `i` or behind it. -/
def Awaits (i : Nat) (s : State) : Prop :=
  ∃ x < maxCallbacks, i ≤ x ∧ (slot.entries x).active = true ∧ ∀ position, .unsubscribed x position ∉ s.log

/-- What holds when the walk comes to entry `i`. -/
structure Inv (i : Nat) (s : State) : Prop where
  replayed : ∃ next ≤ i, replay slot s.log = some (fun j => (s.entries j).active, next)
  earlier : ∀ e ∈ s.log, e.position < i
  kept : ∀ x, (slot.entries x).active = true → (∀ position, .unsubscribed x position ∉ s.log) → (s.entries x).active = true
  all : ∀ x < i, (slot.entries x).active = true → .called x ∈ s.log ∨ ∃ position < x, .unsubscribed x position ∈ s.log

end

section

variable {maxCallbacks i : Nat} {requests : Nat → List Request} {slot : CallbackSlot maxCallbacks} {s : State}
  {e : Event}

theorem update_active (f : Nat → CallbackEntry) (k : Nat) (e : CallbackEntry) :
    (fun j => (update f k e j).active) = update (fun j => (f j).active) k e.active := by
  ext j
  by_cases same : j = k
  · rw [same, update_self, update_self]
  · rw [update_of_ne same, update_of_ne same]

theorem earlier_concat {log : List Event} (earlier : ∀ e ∈ log, e.position < i + 1) (now : e.position = i) :
    ∀ e' ∈ log ++ [e], e'.position < i + 1 := by
  intro e' member
  rcases mem_append.1 member with before | last
  · exact earlier e' before
  · rw [mem_singleton.1 last, now]
    exact Nat.lt_succ_self i

theorem Inv.change (h : Inv slot (i + 1) s) {k count : Nat} {entry : CallbackEntry}
    (effect : ∀ s, accept s e = some (update s.1 k entry.active, s.2)) (now : e.position = i)
    (off : entry.active = true ∨ e = .unsubscribed k i) :
    Inv slot (i + 1) { s with entries := update s.entries k entry, count := count, log := s.log ++ [e] } := by
  obtain ⟨next,le,replayed⟩ := h.replayed
  refine ⟨⟨next,le,?_⟩,earlier_concat h.earlier now,?_,?_⟩
  · rw [update_active]
    exact foldlM_concat replayed (effect _)
  · intro x active clear
    have before := h.kept x active fun position member => clear position (mem_append_left _ member)
    by_cases same : x = k
    · rcases off with on | rfl
      · simp only [same, update_self, on]
      · exact absurd (mem_append_right _ (mem_singleton.2 (by rw [same]))) (clear i)
    · simp only [update_of_ne same, before]
  · intro x behind active
    refine (h.all x behind active).imp (mem_append_left _) fun ⟨position,lt,member⟩ => ?_
    exact ⟨position,lt,mem_append_left _ member⟩

theorem Inv.request (h : Inv slot (i + 1) s) (r : Request) :
    s.log ⊆ (request maxCallbacks i s r).log ∧ Inv slot (i + 1) (request maxCallbacks i s r) := by
  cases r with
  | subscribe callbackId =>
    simp only [Dispatch.request]
    split
    · exact ⟨subset_append_left ..,h.change (fun _ => rfl) rfl (.inl rfl)⟩
    · exact ⟨Subset.refl _,h⟩
  | unsubscribe callbackId =>
    simp only [Dispatch.request]
    split
    · exact ⟨subset_append_left ..,h.change (fun _ => rfl) rfl (.inr rfl)⟩
    · exact ⟨Subset.refl _,h⟩

theorem Inv.asked (h : Inv slot (i + 1) s) (asked : List Request) :
    s.log ⊆ (asked.foldl (Dispatch.request maxCallbacks i) s).log ∧
      Inv slot (i + 1) (asked.foldl (Dispatch.request maxCallbacks i) s) := by
  induction asked generalizing s with
  | nil => exact ⟨Subset.refl _,h⟩
  | cons r asked ih => exact ⟨List.Subset.trans (h.request r).1 (ih (h.request r).2).1,(ih (h.request r).2).2⟩

/-- One turn of the walk. -/
theorem Inv.visit (h : Inv slot i s) :
    s.log ⊆ (visit maxCallbacks requests i s).log ∧ Inv slot (i + 1) (visit maxCallbacks requests i s) := by
  obtain ⟨next,le,replayed⟩ := h.replayed
  have earlier : ∀ e ∈ s.log, e.position < i + 1 := fun e member => Nat.lt_succ_of_lt (h.earlier e member)
  unfold Dispatch.visit
  split
  · rename_i active
    have called : Inv slot (i + 1) { s with found := s.found + 1, log := s.log ++ [.called i] } := by
      refine ⟨⟨i + 1,Nat.le_refl _,foldlM_concat replayed (if_pos ⟨active,le⟩)⟩,earlier_concat earlier rfl,
        by simpa using h.kept, fun x behind active => ?_⟩
      rcases Nat.lt_succ_iff_lt_or_eq.1 behind with before | rfl
      · simpa using (h.all x before active).imp_left .inl
      · exact .inl (mem_append_right _ (mem_singleton_self _))
    have after := called.asked (requests s.found)
    exact ⟨List.Subset.trans (subset_append_left ..) after.1,after.2⟩
  · rename_i passive
    refine ⟨Subset.refl _,⟨next,by omega,replayed⟩,earlier,h.kept,fun x behind active => ?_⟩
    rcases Nat.lt_succ_iff_lt_or_eq.1 behind with before | rfl
    · exact h.all x before active
    · -- it was registered and is not: it was unsubscribed at an earlier entry
      by_contra none_
      exact passive (h.kept x active fun position member => none_ (.inr ⟨position,h.earlier _ member,member⟩))

theorem inv_turn (requests : Nat → List Request) (slot : CallbackSlot maxCallbacks) (i : Nat) :
    Inv slot i (turn requests slot i) := by
  induction i with
  | zero => exact ⟨⟨0,Nat.le_refl _,rfl⟩,nofun,fun x active _ => active,nofun⟩
  | succ i ih => exact ih.visit.2

theorem Awaits.earlier {j : Nat} (le : i ≤ j) (awaits : Awaits slot j (turn requests slot j)) :
    Awaits slot i (turn requests slot i) := by
  obtain ⟨x,inside,behind,active,clear⟩ := awaits
  induction le with
  | refl => exact ⟨x,inside,behind,active,clear⟩
  | step _ ih => exact ih (by omega) fun position member => clear position ((inv_turn ..).visit.1 member)

theorem Inv.log_iff (h : Inv slot i s) : Dispatched slot s.log ↔ ¬ Awaits slot i s := by
  constructor
  · rintro done ⟨x,inside,behind,active,clear⟩
    rcases done.all x inside active with called | ⟨position,-,gone⟩
    · exact absurd (h.earlier _ called) (Nat.not_lt.2 behind)
    · exact clear position gone
  · obtain ⟨next,-,replayed⟩ := h.replayed
    refine fun nobody => ⟨by rw [replayed]; rfl,fun x inside active => ?_⟩
    by_contra none_
    rcases Nat.lt_or_ge x i with behind | ahead
    · exact none_ (h.all x behind active)
    · exact nobody ⟨x,inside,ahead,active,fun position member =>
        none_ (.inr ⟨position,Nat.lt_of_lt_of_le (h.earlier _ member) ahead,member⟩)⟩

theorem dispatchLoop_iff (requests : Nat → List Request) (slot : CallbackSlot maxCallbacks) {left : Nat}
    (total : i + left = maxCallbacks) :
    Dispatched slot (dispatchLoop maxCallbacks requests left i (turn requests slot i)).log ↔
      ∀ j, i ≤ j → Awaits slot j (turn requests slot j) → (turn requests slot j).found < (turn requests slot j).count := by
  have here := inv_turn requests slot i
  induction left generalizing i with
  | zero =>
    have done_ : ∀ j, i ≤ j → ¬ Awaits slot j (turn requests slot j) := by
      rintro j late ⟨x,inside,behind,-⟩
      omega
    exact iff_of_true (here.log_iff.2 (done_ i (Nat.le_refl i))) fun j late awaits => absurd awaits (done_ j late)
  | succ left ih =>
    rw [dispatchLoop]
    split
    · rename_i passes
      refine (ih (i := i + 1) (by omega) (inv_turn ..)).trans ⟨fun later j le => ?_,fun all j le => all j (by omega)⟩
      rcases Nat.eq_or_lt_of_le le with rfl | lt
      · exact fun _ => passes
      · exact later j lt
    · rename_i ends
      rw [here.log_iff]
      exact ⟨fun nobody j le awaits => absurd (awaits.earlier le) nobody,fun all awaits => ends (all i (Nat.le_refl i) awaits)⟩

/-- **A dispatch calls whom it must iff at every turn with somebody still to come, fewer callbacks were called than are
registered.** -/
theorem dispatched_iff (requests : Nat → List Request) (slot : CallbackSlot maxCallbacks) :
    Dispatched slot (dispatchMessage requests slot).log ↔
      ∀ i, Awaits slot i (turn requests slot i) → (turn requests slot i).found < (turn requests slot i).count := by
  have loop := dispatchLoop_iff requests slot (Nat.zero_add maxCallbacks)
  simp only [Nat.zero_le, true_implies] at loop
  rw [← loop, dispatchMessage]
  split
  · rename_i none_
    cases maxCallbacks with
    | zero => rfl
    | succ left => rw [dispatchLoop, if_neg (by rw [turn, none_]; exact Nat.lt_irrefl 0)]; rfl
  · rfl

def pair : CallbackSlot 2 := ⟨fun i => ⟨if i = 0 then 1 else 2, true⟩, 2, by decide⟩

/-- The first of two callbacks unsubscribes itself: the second is not called. -/
theorem next_callback_skipped : ¬ Dispatched pair (dispatchMessage (fun _ => [.unsubscribe 1]) pair).log := by
  intro done
  have log : (dispatchMessage (fun _ => [.unsubscribe 1]) pair).log = [.called 0, .unsubscribed 0 0] := by decide
  have missed := done.all 1 (by decide) rfl
  simp [log] at missed

end

end Newosp.Bus.Dispatch
