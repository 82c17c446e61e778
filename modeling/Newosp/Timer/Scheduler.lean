import Newosp.Lib.SlotTable
import Newosp.Lib.Wrap

/-!
# `TimerScheduler`

A fixed array of periodic and one-shot tasks. The scheduler thread collects the due callbacks under its lock and calls
them after it has released it. Here are the calls that take the lock; `φ` are the callbacks and `γ` what a context
points to.
-/

namespace Newosp.Timer
open Lib List

inductive TimerError
  | kSlotsFull
  | kInvalidPeriod
  | kNotRunning
  | kBindFailed
  | kAlreadyRunning
  deriving DecidableEq

/-- `TaskSlot`; a null pointer is `none`. -/
structure TaskSlot (φ γ : Type) where
  fn : Option φ
  ctx : Option γ
  periodNs : Nat
  nextFireNs : Nat
  id : Nat
  active : Bool
  oneShot : Bool
  deriving DecidableEq

structure PendingTask (φ γ : Type) where
  fn : Option φ
  ctx : Option γ
  deriving DecidableEq

structure Scheduler (φ γ : Type) where
  slots : List (TaskSlot φ γ)
  nextId : Nat
  deriving DecidableEq

def kNsPerMs : Nat := 1000000

section

variable {φ γ : Type}

def Scheduler.init (maxTasks : Nat) : Scheduler φ γ := ⟨List.replicate maxTasks ⟨none, none, 0, 0, 0, false, false⟩, 1⟩

/-- What `Add` and `AddOneShot` share. -/
def Scheduler.enroll (oneShot : Bool) (now ms : Nat) (fn : Option φ) (ctx : Option γ) (s : Scheduler φ γ) :
    Scheduler φ γ × Except TimerError Nat :=
  if ms = 0 then (s, .error .kInvalidPeriod)
  else if fn.isNone then (s, .error .kInvalidPeriod)
  else
    match s.slots.findIdx? (!·.active) with
    | none => (s, .error .kSlotsFull)
    | some i =>
      (⟨s.slots.set i ⟨fn, ctx, ms * kNsPerMs, now + ms * kNsPerMs, s.nextId, true, oneShot⟩, wrap32 (s.nextId + 1)⟩,
        .ok s.nextId)

def Scheduler.add (now periodMs : Nat) (fn : Option φ) (ctx : Option γ) (s : Scheduler φ γ) :
    Scheduler φ γ × Except TimerError Nat := s.enroll false now periodMs fn ctx

def Scheduler.addOneShot (now delayMs : Nat) (fn : Option φ) (ctx : Option γ) (s : Scheduler φ γ) :
    Scheduler φ γ × Except TimerError Nat := s.enroll true now delayMs fn ctx

def Scheduler.remove (taskId : Nat) (s : Scheduler φ γ) : Scheduler φ γ × Except TimerError Unit :=
  match s.slots.findIdx? fun slot => slot.active && slot.id = taskId with
  | none => (s, .error .kNotRunning)
  | some i => ({ s with slots := s.slots.modify i fun slot => { slot with active := false } }, .ok ())

/-- The loop that advances a deadline past `now`; `none` if `fuel` rounds are not enough. -/
def catchUp (periodNs now : Nat) : Nat → Nat → Option Nat
  | 0, _ => none
  | fuel + 1, next => if next ≤ now then catchUp periodNs now fuel (next + periodNs) else some next

/-- The new deadline of a periodic task. A loop that is not over after `now + 1` rounds never ends. -/
def rearm (now : Nat) (slot : TaskSlot φ γ) : Option (TaskSlot φ γ) :=
  (catchUp slot.periodNs now (now + 1) (slot.nextFireNs + slot.periodNs)).map fun next => { slot with nextFireNs := next }

def collectSlot (now : Nat) (slot : TaskSlot φ γ) : Option (TaskSlot φ γ × Option (PendingTask φ γ)) :=
  if !slot.active then some (slot, none)
  else if now ≥ slot.nextFireNs then
    if slot.oneShot then some ({ slot with active := false }, some ⟨slot.fn, slot.ctx⟩)
    else (rearm now slot).map fun slot' => (slot', some ⟨slot.fn, slot.ctx⟩)
  else some (slot, none)

/-- Phase 1 of a round of `ScheduleLoop`; `none` if it never ends. -/
def collect (now : Nat) : List (TaskSlot φ γ) → Option (List (TaskSlot φ γ) × List (PendingTask φ γ))
  | [] => some ([], [])
  | slot :: rest =>
    match collectSlot now slot, collect now rest with
    | some (slot', due), some (rest', pending) => some (slot' :: rest', due.toList ++ pending)
    | _, _ => none

end

section

variable {φ γ : Type} {s t : Scheduler φ γ} {slot slot' : TaskSlot φ γ} {now : Nat}

def TaskSlot.claim (slot : TaskSlot φ γ) : Option Nat := if slot.active then some slot.id else none

theorem TaskSlot.claim_of_active (active : slot.active = true) : slot.claim = some slot.id := by
  rw [claim, if_pos active]

theorem TaskSlot.claim_of_free (free : slot.active = false) : slot.claim = none := by
  rw [claim, free]
  rfl

def Scheduler.ids (s : Scheduler φ γ) : List Nat := s.slots.filterMap TaskSlot.claim

def Scheduler.Registered (s : Scheduler φ γ) (slot : TaskSlot φ γ) : Prop := slot ∈ s.slots ∧ slot.active = true

theorem Scheduler.Registered.mem_ids (h : s.Registered slot) : slot.id ∈ s.ids :=
  mem_filterMap.2 ⟨slot, h.1, TaskSlot.claim_of_active h.2⟩

theorem Scheduler.enroll_fills (oneShot : Bool) (now ms : Nat) (fn : Option φ) (ctx : Option γ) (s : Scheduler φ γ) :
    (∃ e, s.enroll oneShot now ms fn ctx = (s, .error e)) ∨ 0 < ms ∧ ∃ i,
      s.slots.findIdx? (!·.active) = some i ∧ s.enroll oneShot now ms fn ctx =
        (⟨s.slots.set i ⟨fn, ctx, ms * kNsPerMs, now + ms * kNsPerMs, s.nextId, true, oneShot⟩, wrap32 (s.nextId + 1)⟩,
          .ok s.nextId) := by
  unfold enroll
  split
  · exact .inl ⟨_,rfl⟩
  · rename_i positive
    split
    · exact .inl ⟨_,rfl⟩
    · split
      · exact .inl ⟨_,rfl⟩
      · rename_i i found
        exact .inr ⟨Nat.pos_of_ne_zero positive,i,found,rfl⟩

theorem Scheduler.enroll_cases (oneShot : Bool) (now ms : Nat) (fn : Option φ) (ctx : Option γ) (s : Scheduler φ γ) :
    (∃ e, s.enroll oneShot now ms fn ctx = (s, .error e)) ∨
    ∃ t slot, s.enroll oneShot now ms fn ctx = (t, .ok s.nextId) ∧ slot.fn = fn ∧ slot.ctx = ctx ∧ slot.id = s.nextId ∧
      (∀ old, t.Registered old → old = slot ∨ s.Registered old) ∧ t.ids.Perm (s.nextId :: s.ids) := by
  rcases s.enroll_fills oneShot now ms fn ctx with refused | ⟨-,i,found,filled⟩
  · exact .inl refused
  · obtain ⟨old,here,free⟩ := findIdx?_found found
    refine .inr ⟨_,⟨fn,ctx,ms * kNsPerMs,now + ms * kNsPerMs,s.nextId,true,oneShot⟩,filled,rfl,rfl,rfl,?_,?_⟩
    · intro old registered
      rcases mem_or_eq_of_mem_set registered.1 with before | new
      · exact .inr ⟨before,registered.2⟩
      · exact .inl new
    · refine filterMap_fill here (TaskSlot.claim_of_free ?_) rfl
      rwa [Bool.not_eq_true'] at free

theorem Scheduler.remove_clears (taskId : Nat) (s : Scheduler φ γ) :
    s.remove taskId = (s, .error .kNotRunning) ∧ (∀ slot ∈ s.slots, slot.active = true → slot.id ≠ taskId) ∨
    ∃ i slot, s.slots[i]? = some slot ∧ slot.active = true ∧ slot.id = taskId ∧
      s.remove taskId = ({ s with slots := s.slots.set i { slot with active := false } }, .ok ()) := by
  unfold remove
  cases found : s.slots.findIdx? fun slot => slot.active && slot.id = taskId with
  | none =>
    refine .inl ⟨rfl,fun slot member active => ?_⟩
    have none_ := findIdx?_eq_none_iff.1 found slot member
    rwa [active, Bool.true_and, decide_eq_false_iff_not] at none_
  | some i =>
    obtain ⟨slot,here,passes⟩ := findIdx?_found found
    rw [Bool.and_eq_true, decide_eq_true_eq] at passes
    refine .inr ⟨i,slot,here,passes.1,passes.2,?_⟩
    dsimp only
    rw [modify_eq_set_getElem?, here]
    rfl

theorem Scheduler.remove_cases (taskId : Nat) (s : Scheduler φ γ) : (s.remove taskId).1 = s ∧ taskId ∉ s.ids ∨
    (∀ slot, (s.remove taskId).1.Registered slot → s.Registered slot) ∧
      s.ids.Perm (taskId :: (s.remove taskId).1.ids) := by
  rcases s.remove_clears taskId with ⟨refused,unknown⟩ | ⟨i,slot,here,active,known,cleared⟩
  · refine .inl ⟨by rw [refused],fun member => ?_⟩
    obtain ⟨slot,there,claim⟩ := mem_filterMap.1 member
    unfold TaskSlot.claim at claim
    split at claim
    · rename_i active
      cases claim
      exact unknown slot there active rfl
    · cases claim
  · rw [cleared]
    refine .inr ⟨fun other registered => ?_,?_⟩
    · rcases mem_or_eq_of_mem_set registered.1 with before | new
      · exact ⟨before,registered.2⟩
      · have free := registered.2
        rw [new] at free
        cases free
    · exact filterMap_clear here (by rw [TaskSlot.claim_of_active active, known]) (TaskSlot.claim_of_free rfl)

theorem collectSlot_spec {due : Option (PendingTask φ γ)} (round : collectSlot now slot = some (slot', due)) :
    slot'.fn = slot.fn ∧ slot'.ctx = slot.ctx ∧ slot'.id = slot.id ∧ (slot'.active = true → slot.active = true) ∧
      ∀ p ∈ due, slot.active = true ∧ p = ⟨slot.fn, slot.ctx⟩ := by
  unfold collectSlot at round
  split at round
  · cases round
    exact ⟨rfl,rfl,rfl,id,nofun⟩
  · rename_i active
    rw [Bool.not_eq_true', Bool.not_eq_false] at active
    have called : ∀ p ∈ some (⟨slot.fn,slot.ctx⟩ : PendingTask φ γ), slot.active = true ∧ p = ⟨slot.fn,slot.ctx⟩ := by
      intro p eq
      cases eq
      exact ⟨active,rfl⟩
    split at round
    · split at round
      · cases round
        exact ⟨rfl,rfl,rfl,nofun,called⟩
      · obtain ⟨armed,eq,pair⟩ := Option.map_eq_some_iff.1 round
        cases pair
        obtain ⟨next,-,rfl⟩ := Option.map_eq_some_iff.1 eq
        exact ⟨rfl,rfl,rfl,id,called⟩
    · cases round
      exact ⟨rfl,rfl,rfl,id,nofun⟩

theorem collect_spec {slots slots' : List (TaskSlot φ γ)} {pending : List (PendingTask φ γ)}
    (round : collect now slots = some (slots', pending)) : (∀ slot' ∈ slots', slot'.active = true →
      ∃ slot ∈ slots, slot.active = true ∧ slot'.fn = slot.fn ∧ slot'.ctx = slot.ctx ∧ slot'.id = slot.id) ∧
    (∀ p ∈ pending, ∃ slot ∈ slots, slot.active = true ∧ p = ⟨slot.fn, slot.ctx⟩) ∧
    (slots'.filterMap TaskSlot.claim).Sublist (slots.filterMap TaskSlot.claim) := by
  induction slots generalizing slots' pending with
  | nil =>
    cases round
    exact ⟨nofun,nofun,.slnil⟩
  | cons slot rest ih =>
    simp only [collect] at round
    split at round
    · rename_i slot' due rest' later one more
      cases round
      obtain ⟨fn,ctx,id_,active,called⟩ := collectSlot_spec one
      obtain ⟨kept,collected,sub⟩ := ih more
      refine ⟨?_,?_,?_⟩
      · intro x member on
        rcases mem_cons.1 member with rfl | member
        · exact ⟨slot,mem_cons_self ..,active on,fn,ctx,id_⟩
        · obtain ⟨y,old,same⟩ := kept x member on
          exact ⟨y,mem_cons_of_mem _ old,same⟩
      · intro p member
        rcases mem_append.1 member with first | member
        · obtain ⟨on,eq⟩ := called p (Option.mem_toList.1 first)
          exact ⟨slot,mem_cons_self ..,on,eq⟩
        · obtain ⟨y,old,same⟩ := collected p member
          exact ⟨y,mem_cons_of_mem _ old,same⟩
      · cases on : slot'.active with
        | false =>
          rw [filterMap_cons_none (TaskSlot.claim_of_free on), filterMap_cons]
          split
          · exact sub
          · exact sub.cons _
        | true =>
          rw [filterMap_cons_some (TaskSlot.claim_of_active on),
            filterMap_cons_some (TaskSlot.claim_of_active (active on)), id_]
          exact sub.cons_cons _
    · cases round

end

end Newosp.Timer
