import Newosp.Lib.Wrap
import Mathlib.Data.List.FinRange

/-!
# `TimeSynchronizer`

`OnMessage` stores a message of one of `k` types, drops what is further than the window from its timestamp, and fires
when every type is held. Out of order, a late message evicts what is newer. Histories are newest first.
-/

namespace Newosp.Fusion
open Lib List
open Function (update update_self update_of_ne)

structure Msg (k : Nat) (α : Type) where
  idx : Fin k
  ts : Nat
  payload : α

/-- The parallel arrays, the counter of drops, and the tuples the callback was given. -/
structure Sync (k : Nat) (α : Type) where
  data : Fin k → α
  timestamps : Fin k → Nat
  received : Fin k → Bool
  timeoutCount : Nat
  calls : List (Fin k → α)

variable {k : Nat} {α : Type}

def Sync.store (s : Sync k α) (m : Msg k α) : Sync k α :=
  { s with data := update s.data m.idx m.payload, timestamps := update s.timestamps m.idx m.ts,
           received := update s.received m.idx true }

/-- `diff > window_us_` in `DropStaleData`, for data that is held. -/
def Sync.stale (s : Sync k α) (window current : Nat) (i : Fin k) : Bool :=
  s.received i && window < (if s.timestamps i ≤ current then current - s.timestamps i else s.timestamps i - current)

def Sync.dropStaleData (window : Nat) (s : Sync k α) (current : Nat) : Sync k α :=
  { s with received := fun i => s.received i && !s.stale window current i,
           timeoutCount := wrap32 (s.timeoutCount + (finRange k).countP (s.stale window current)) }

/-- `min_ts` and `max_ts`, by their comparison. -/
def Sync.extreme [NeZero k] (s : Sync k α) (better : Nat → Nat → Bool) : Nat :=
  (finRange k).tail.foldl (fun best i => if better (s.timestamps i) best then s.timestamps i else best) (s.timestamps 0)

def Sync.tryFire [NeZero k] (window : Nat) (s : Sync k α) : Sync k α :=
  if ∀ i, s.received i = true then
    let minTs := s.extreme (· < ·)
    if window < s.extreme (· > ·) - minTs then
      match (finRange k).find? (s.timestamps · = minTs) with
      | some i => { s with received := update s.received i false, timeoutCount := wrap32 (s.timeoutCount + 1) }
      | none => s
    else { s with received := fun _ => false, calls := s.data :: s.calls }
  else s

def Sync.onMessage [NeZero k] (window : Nat) (s : Sync k α) (m : Msg k α) : Sync k α :=
  ((s.store m).dropStaleData window m.ts).tryFire window

def run [NeZero k] (window : Nat) (init : Fin k → α) : List (Msg k α) → Sync k α
  | [] => ⟨init, fun _ => 0, fun _ => false, 0, []⟩
  | m :: past => (run window init past).onMessage window m

/-! ## Ordered input -/

/-- The latest message of a type, if its age relative to the newest is at most the window. -/
def held (window : Nat) (since : List (Msg k α)) (i : Fin k) : Option (Msg k α) :=
  match since with
  | [] => none
  | newest :: _ => (since.find? (·.idx = i)).filter fun m => newest.ts - m.ts ≤ window

/-- The messages since the last fire, those up to each fire, and how many held messages were dropped for age. -/
structure Spec (k : Nat) (α : Type) where
  since : List (Msg k α)
  segments : List (List (Msg k α))
  dropped : Nat

def Spec.next (window : Nat) (σ : Spec k α) (m : Msg k α) : Spec k α :=
  let since := m :: σ.since
  let dropped := σ.dropped + (finRange k).countP fun i => (held window σ.since i).isSome && (held window since i).isNone
  if ∀ i, (held window since i).isSome then ⟨[], since :: σ.segments, dropped⟩ else ⟨since, σ.segments, dropped⟩

def spec (window : Nat) : List (Msg k α) → Spec k α
  | [] => ⟨[], [], 0⟩
  | m :: past => (spec window past).next window m

def Stores (s : Sync k α) (i : Fin k) : Option (Msg k α) → Prop
  | none => s.received i = false
  | some m => s.received i = true ∧ s.data i = m.payload ∧ s.timestamps i = m.ts

/-- A fire hands over the latest messages, which are all held and no further apart than the window. -/
def Fires (window : Nat) (tuple : Fin k → α) (segment : List (Msg k α)) : Prop :=
  ∃ latest : Fin k → Msg k α, (∀ i, held window segment i = some (latest i)) ∧ (∀ i, tuple i = (latest i).payload) ∧
    ∀ i j, (latest i).ts - (latest j).ts ≤ window

structure Refines (window : Nat) (s : Sync k α) (σ : Spec k α) : Prop where
  stores : ∀ i, Stores s i (held window σ.since i)
  fires : Forall₂ (Fires window) s.calls σ.segments
  timeouts : s.timeoutCount = wrap32 σ.dropped

variable {window : Nat} {s : Sync k α} {m : Msg k α} {since : List (Msg k α)} {i : Fin k}

theorem held_self : held window (m :: since) m.idx = some m := by
  simp [held]

/-- Another type's message stays held if not too old. -/
theorem held_other (ordered : ∀ x ∈ since, x.ts ≤ m.ts) (other : i ≠ m.idx) :
    held window (m :: since) i = (held window since i).filter fun x => m.ts - x.ts ≤ window := by
  cases since with
  | nil => simp [held, other.symm]
  | cons newest rest =>
    have le := ordered newest mem_cons_self
    have skip : (m :: newest :: rest).find? (·.idx = i) = (newest :: rest).find? (·.idx = i) :=
      find?_cons_of_neg (by simpa using other.symm)
    simp only [held, skip, Option.filter_filter]
    congr 1
    ext x
    grind

theorem held_mem {x : Msg k α} (h : held window since i = some x) : x ∈ since := by
  cases since with
  | nil => cases h
  | cons newest rest =>
    obtain ⟨found,-⟩ := Option.filter_eq_some_iff.1 h
    exact mem_of_find?_eq_some found

theorem store_other (other : i ≠ m.idx) : (s.store m).data i = s.data i ∧
    (s.store m).timestamps i = s.timestamps i ∧ (s.store m).received i = s.received i :=
  ⟨update_of_ne other .., update_of_ne other .., update_of_ne other ..⟩

/-- What `DropStaleData` drops and keeps. -/
theorem dropStaleData_stores (ordered : ∀ x ∈ since, x.ts ≤ m.ts) (h : ∀ i, Stores s i (held window since i))
    (i : Fin k) : Stores ((s.store m).dropStaleData window m.ts) i (held window (m :: since) i) ∧
      (s.store m).stale window m.ts i = ((held window since i).isSome && (held window (m :: since) i).isNone) := by
  by_cases same : i = m.idx
  · subst same
    simp [held_self, Stores, Sync.dropStaleData, Sync.stale, Sync.store]
  · obtain ⟨data,ts,received⟩ := store_other (s := s) same
    have before := h i
    rw [held_other ordered same]
    simp only [Stores, Sync.dropStaleData, Sync.stale, data, ts, received]
    cases here : held window since i with
    | none => simp_all [Stores]
    | some x =>
      rw [here] at before
      obtain ⟨on,value,stamp⟩ := before
      have le := ordered x (held_mem here)
      rw [Option.filter_some]
      by_cases old : m.ts - x.ts ≤ window
      · simp only [old, on, value, stamp, le, Nat.not_lt.2 old, decide_true, decide_false, if_true]
        simp
      · simp only [old, on, stamp, le, Nat.lt_of_not_le old, decide_true, decide_false, if_true, Bool.false_eq_true,
          if_false]
        simp

theorem extreme_mem [NeZero k] (s : Sync k α) (better : Nat → Nat → Bool) : ∃ i, s.extreme better = s.timestamps i := by
  unfold Sync.extreme
  suffices step : ∀ (l : List (Fin k)) best, (∃ i, best = s.timestamps i) → ∃ i,
      l.foldl (fun best i => if better (s.timestamps i) best then s.timestamps i else best) best = s.timestamps i from
    step _ _ ⟨0,rfl⟩
  intro l
  induction l with
  | nil => exact fun _ h => h
  | cons i l ih =>
    intro best h
    rw [foldl_cons]
    apply ih
    split
    · exact ⟨i,rfl⟩
    · exact h

/-- What one message changes, in terms of those since the last fire. -/
theorem Refines.onMessage [NeZero k] {σ : Spec k α} (h : Refines window s σ) (ordered : ∀ x ∈ σ.since, x.ts ≤ m.ts) :
    Refines window (s.onMessage window m) (σ.next window m) := by
  have step := dropStaleData_stores ordered h.stores
  have counted : ((s.store m).dropStaleData window m.ts).timeoutCount = wrap32 (σ.dropped + (finRange k).countP
      fun i => (held window σ.since i).isSome && (held window (m :: σ.since) i).isNone) := by
    simp only [Sync.dropStaleData, funext fun i => (step i).2]
    show wrap32 (s.timeoutCount + _) = _
    rw [h.timeouts, wrap32, wrap32, Nat.mod_add_mod, wrap32]
  have same : ((s.store m).dropStaleData window m.ts).calls = s.calls := rfl
  unfold Sync.onMessage
  generalize (s.store m).dropStaleData window m.ts = t at *
  simp only [Spec.next]
  by_cases all : ∀ i, (held window (m :: σ.since) i).isSome
  · choose latest here using fun i => Option.isSome_iff_exists.1 (all i)
    have stored : ∀ i, t.received i = true ∧ t.data i = (latest i).payload ∧ t.timestamps i = (latest i).ts := by
      intro i
      simpa only [here, Stores] using (step i).1
    have near : ∀ i j, (latest i).ts - (latest j).ts ≤ window := by
      intro i j
      have young : m.ts - (latest j).ts ≤ window := of_decide_eq_true (Option.filter_eq_some_iff.1 (here j)).2
      have newest : (latest i).ts ≤ m.ts := (mem_cons.1 (held_mem (here i))).elim (· ▸ le_refl _) (ordered _)
      omega
    obtain ⟨i,max⟩ := extreme_mem t (· > ·)
    obtain ⟨j,min⟩ := extreme_mem t (· < ·)
    rw [if_pos all, Sync.tryFire, if_pos fun i => (stored i).1]
    simp only [max, min, stored, Nat.not_lt.2 (near i j), if_false]
    exact ⟨fun i => rfl,.cons ⟨latest,here,fun i => (stored i).2.1,near⟩ (same ▸ h.fires),counted⟩
  · rw [if_neg all, Sync.tryFire, if_neg]
    · exact ⟨fun i => (step i).1,same ▸ h.fires,counted⟩
    · refine fun on => all fun i => ?_
      have := (step i).1
      cases here : held window (m :: σ.since) i <;> simp_all [Stores]

/-- The fires cut the history into parts. -/
theorem spec_segments (window : Nat) : ∀ history : List (Msg k α),
    (spec window history).since ++ (spec window history).segments.flatten = history
  | [] => rfl
  | m :: past => by
    simp only [spec, Spec.next]
    split <;> simpa using spec_segments window past

/-- **`TimeSynchronizer` on ordered input**: it holds the latest messages since the last fire that are within the window
of the newest, fires when these are of all types, each time with messages of its own, and `TimeoutCount` counts what was
dropped for age. -/
theorem synchronizes [NeZero k] (window : Nat) (init : Fin k → α) : ∀ (history : List (Msg k α)),
    history.Pairwise (fun newer older => older.ts ≤ newer.ts) →
      Refines window (run window init history) (spec window history) ∧
        (spec window history).since ++ (spec window history).segments.flatten = history
  | [], _ => ⟨⟨fun _ => rfl, .nil, rfl⟩, rfl⟩
  | m :: past, ordered => by
    obtain ⟨newest, before⟩ := pairwise_cons.1 ordered
    refine ⟨(synchronizes window init past before).1.onMessage fun x member => newest x ?_, spec_segments ..⟩
    rw [← spec_segments window past]
    exact mem_append_left _ member

/-- Two types and a window of 10: the first message is too old for the second, which fires with the third. -/
def twoFires : List (Msg 2 Nat) := [⟨0, 120, 3⟩, ⟨1, 115, 2⟩, ⟨0, 100, 1⟩]

theorem synchronizes_two : (run 10 (fun _ => 0) twoFires).timeoutCount = 1 ∧
    (run 10 (fun _ => 0) twoFires).calls.map (· 1) = [2] ∧ Refines 10 (run 10 (fun _ => 0) twoFires) (spec 10 twoFires) :=
  ⟨by decide, by decide, (synchronizes 10 _ twoFires (by decide)).1⟩

/-! ## Late messages -/

/-- Nothing is discarded because of the window but what is older, by more than the window, than a message that stays. -/
def DropsOlder [NeZero k] (window : Nat) (s : Sync k α) (m : Msg k α) : Prop :=
  let t := s.onMessage window m
  t.calls = s.calls → ∀ i, (s.store m).received i = true → t.received i = false →
    ∃ j, t.received j = true ∧ t.timestamps i + window < t.timestamps j

/-- No held message of another type is newer than `m` by more than the window. -/
def NoneNewer (window : Nat) (s : Sync k α) (m : Msg k α) : Prop :=
  ∀ i, i ≠ m.idx → s.received i = true → s.timestamps i ≤ m.ts + window

theorem tryFire_of_missing [NeZero k] (missing : s.received i = false) : s.tryFire window = s :=
  if_neg fun all => by simp [all i] at missing

theorem tryFire_timestamps [NeZero k] (s : Sync k α) : (s.tryFire window).timestamps = s.timestamps := by
  unfold Sync.tryFire
  dsimp only
  repeat' split
  all_goals rfl

/-- `TryFire` drops the oldest of data that is too far apart. -/
theorem tryFire_drops [NeZero k] (silent : (s.tryFire window).calls = s.calls) (before : s.received i = true)
    (after : (s.tryFire window).received i = false) :
    ∃ j, (s.tryFire window).received j = true ∧ s.timestamps i + window < s.timestamps j := by
  unfold Sync.tryFire at *
  dsimp only at *
  split at silent
  · split at silent
    · split at silent
      · rename_i all wide _ oldest found
        obtain ⟨j,max⟩ := extreme_mem s (· > ·)
        have min : s.timestamps oldest = s.extreme (· < ·) := by simpa using find?_some found
        simp only [all, wide, found, implies_true, if_true] at after ⊢
        have same : i = oldest := by
          by_contra other
          simp [update_of_ne other, before] at after
        subst same
        refine ⟨j,?_,by omega⟩
        rw [update_of_ne fun same => ?_]
        · exact all j
        · subst same
          omega
      · simp_all
    · simp at silent
  · simp_all

theorem onMessage_dropsOlder [NeZero k] (window : Nat) (s : Sync k α) (m : Msg k α) :
    DropsOlder window s m ↔ NoneNewer window s m := by
  have own : (s.store m).timestamps m.idx = m.ts := update_self ..
  have kept : ((s.store m).dropStaleData window m.ts).received m.idx = true := by
    simp [Sync.dropStaleData, Sync.stale, Sync.store]
  simp only [DropsOlder, Sync.onMessage, tryFire_timestamps]
  show (_ → ∀ i, _ → _ → ∃ j, _ ∧ (s.store m).timestamps i + window < (s.store m).timestamps j) ↔ _
  constructor
  · intro h i other on
    obtain ⟨-,ts,received⟩ := store_other (s := s) other
    by_contra newer
    have gone : ((s.store m).dropStaleData window m.ts).received i = false := by
      simp only [Sync.dropStaleData, Sync.stale, ts, received, on]
      rw [if_neg (by omega), decide_eq_true (by omega)]
      rfl
    rw [tryFire_of_missing gone] at h
    obtain ⟨j,stays,less⟩ := h rfl i (received.trans on) gone
    simp only [Sync.dropStaleData, Sync.stale, Bool.and_eq_true, Bool.not_eq_true', Bool.and_eq_false_iff,
      decide_eq_false_iff_not] at stays
    obtain ⟨there,near⟩ := stays
    have := near.resolve_left (by simp [there])
    split at this <;> omega
  · intro cond silent i before after
    by_cases gone : ((s.store m).dropStaleData window m.ts).received i = true
    · exact tryFire_drops silent gone after
    · have missing := Bool.eq_false_of_not_eq_true gone
      have other : i ≠ m.idx := fun same => gone (same ▸ kept)
      obtain ⟨-,ts,received⟩ := store_other (s := s) other
      rw [tryFire_of_missing missing]
      refine ⟨m.idx,kept,?_⟩
      have le := cond i other (received.symm.trans before)
      simp only [Sync.dropStaleData, Sync.stale, before, Bool.true_and, Bool.not_eq_false', decide_eq_true_eq] at missing
      rw [own]
      split at missing <;> omega

/-- **What a message evicts** is older than what stays exactly if no held message is newer than it by more than the
window; so for every message of a history. -/
theorem dropsOlder_iff [NeZero k] (window : Nat) :
    (∀ (s : Sync k α) m, DropsOlder window s m ↔ NoneNewer window s m) ∧
    ∀ (init : Fin k → α) history, (∀ m past, m :: past <:+ history → DropsOlder window (run window init past) m) ↔
      ∀ m past, m :: past <:+ history → NoneNewer window (run window init past) m :=
  ⟨onMessage_dropsOlder window, fun _ _ => forall₃_congr fun _ _ _ => onMessage_dropsOlder ..⟩

theorem dropsOlder_ordered : DropsOlder 10 (run 10 (fun _ => 0) twoFires.tail.tail) (⟨1, 115, 2⟩ : Msg 2 Nat) := by
  refine ((dropsOlder_iff 10).1 ..).2 ?_
  unfold NoneNewer
  decide

/-- Window 10: a message of time 50 evicts the one of time 100. -/
theorem late_message_evicts : ¬ DropsOlder 10 (run 10 (fun _ => 0) [⟨0, 100, 1⟩]) (⟨1, 50, 2⟩ : Msg 2 Nat) ∧
    ((run 10 (fun _ => 0) [⟨1, 50, 2⟩, ⟨0, 100, 1⟩] : Sync 2 Nat).received 0 = false) := by
  refine ⟨fun h => ?_,by decide⟩
  obtain ⟨j,stays,less⟩ := h rfl 0 rfl rfl
  revert j
  decide

end Newosp.Fusion
