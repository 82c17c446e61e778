import Newosp.Lib.Machine
import Newosp.Timer.Scheduler

/-!
# When the scheduler collects a task

`Add`, `AddOneShot` and `Remove` run between the rounds of `ScheduleLoop`, and the clock never goes back. A round takes
a due one-shot task out of the table and moves the deadline of a periodic one by whole periods just past the clock.
`start` and `fired` are histories: when the task of a slot was registered, and how often it was collected since.
-/

namespace Newosp.Timer
open Lib List Function

section

variable {φ γ : Type}

structure Timed (φ γ : Type) where
  sched : Scheduler φ γ
  clock : Nat
  start : Nat → Nat
  fired : Nat → Nat

inductive TimedAct (φ γ : Type)
  | add (now periodMs : Nat) (fn : Option φ) (ctx : Option γ)
  | addOneShot (now delayMs : Nat) (fn : Option φ) (ctx : Option γ)
  | remove (taskId : Nat)
  | round (now : Nat)

def TaskSlot.due (now : Nat) (slot : TaskSlot φ γ) : Bool := slot.active && slot.nextFireNs ≤ now

/-- A registration at time `now` has returned `r`. -/
def Timed.enrolled (s : Timed φ γ) (now : Nat) (r : Scheduler φ γ × Except TimerError Nat) : Timed φ γ :=
  match r.2, s.sched.slots.findIdx? (!·.active) with
  | .ok _, some i => ⟨r.1, now, update s.start i now, update s.fired i 0⟩
  | _, _ => { s with sched := r.1, clock := now }

/-- The calls, in the order in which they take the lock; no clock goes back. -/
def timedNext : TimedAct φ γ → Timed φ γ → Option (Timed φ γ)
  | .add now ms fn ctx, s => if s.clock ≤ now then some (s.enrolled now (s.sched.add now ms fn ctx)) else none
  | .addOneShot now ms fn ctx, s =>
    if s.clock ≤ now then some (s.enrolled now (s.sched.addOneShot now ms fn ctx)) else none
  | .remove taskId, s => some { s with sched := (s.sched.remove taskId).1 }
  | .round now, s =>
    if s.clock ≤ now then (collect now s.sched.slots).map fun r =>
      { s with sched := { s.sched with slots := r.1 }, clock := now
               fired := fun i => s.fired i + if s.sched.slots[i]?.any (·.due now) then 1 else 0 }
    else none

def timedMachine (maxTasks : Nat) : Machine (Timed φ γ) (TimedAct φ γ) :=
  ⟨⟨.init maxTasks, 0, fun _ => 0, fun _ => 0⟩, timedNext⟩

/-- What a round at time `now` makes of a slot. -/
inductive AfterRound (now : Nat) : TaskSlot φ γ → TaskSlot φ γ → Prop
  | waits (slot : TaskSlot φ γ) : slot.due now = false → AfterRound now slot slot
  | fires (slot : TaskSlot φ γ) : slot.due now = true → slot.oneShot = true →
      AfterRound now slot { slot with active := false }
  | rearms (slot : TaskSlot φ γ) (k : Nat) : slot.due now = true → slot.oneShot = false →
      slot.nextFireNs + k * slot.periodNs ≤ now → now < slot.nextFireNs + (k + 1) * slot.periodNs →
      AfterRound now slot { slot with nextFireNs := slot.nextFireNs + (k + 1) * slot.periodNs }

/-- The deadline is whole periods after the start, at most one ahead of the clock; a one-shot task is collected once at
most. -/
structure OnTime (start fired clock : Nat) (slot : TaskSlot φ γ) : Prop where
  positive : slot.active = true → 0 < slot.periodNs
  phase : slot.active = true → ∃ k, slot.nextFireNs = start + (k + 1) * slot.periodNs ∧
    start + k * slot.periodNs ≤ clock ∧ fired ≤ k ∧ (slot.oneShot = true → k = 0)
  once : slot.oneShot = true → fired ≤ 1

def AllOnTime (s : Timed φ γ) : Prop :=
  ∀ i slot, s.sched.slots[i]? = some slot → OnTime (s.start i) (s.fired i) s.clock slot

theorem catchUp_window {period now : Nat} (fuel next : Nat) (due : next ≤ now)
    (enough : now < next + (fuel + 1) * period) : ∃ k, catchUp period now (fuel + 1) (next + period) =
      some (next + (k + 1) * period) ∧ next + k * period ≤ now ∧ now < next + (k + 1) * period := by
  induction fuel generalizing next with
  | zero =>
    refine ⟨0,?_,by omega,by omega⟩
    rw [catchUp, if_neg (by omega), Nat.zero_add, Nat.one_mul]
  | succ fuel ih =>
    rw [catchUp]
    by_cases late : next + period ≤ now
    · rw [Nat.succ_mul] at enough
      obtain ⟨k,ends,low,high⟩ := ih (next + period) late (by omega)
      have shift : ∀ n, next + period + n * period = next + (n + 1) * period := by
        intro n
        rw [Nat.succ_mul]
        omega
      rw [shift] at ends low high
      exact ⟨k + 1,by rw [if_pos late, ends],low,high⟩
    · exact ⟨0,by rw [if_neg late, Nat.zero_add, Nat.one_mul],by omega,by omega⟩

variable {now : Nat} {slot slot' : TaskSlot φ γ} {start fired clock : Nat}

def TaskSlot.task (slot : TaskSlot φ γ) : PendingTask φ γ := ⟨slot.fn, slot.ctx⟩

variable (now) in
theorem collectSlot_round (positive : slot.active = true → 0 < slot.periodNs) : ∃ slot',
    collectSlot now slot = some (slot', if slot.due now then some slot.task else none) ∧ AfterRound now slot slot' := by
  unfold collectSlot
  cases active : slot.active with
  | false =>
    have idle : slot.due now = false := by rw [TaskSlot.due, active, Bool.false_and]
    exact ⟨slot,by rw [idle]; rfl,.waits slot idle⟩
  | true =>
    by_cases late : slot.nextFireNs ≤ now
    · have due : slot.due now = true := by rw [TaskSlot.due, active, decide_eq_true late]; rfl
      cases once : slot.oneShot with
      | true => exact ⟨_,by simp [late, due, once, TaskSlot.task],.fires slot due once⟩
      | false =>
        have period := positive active
        have enough : now < slot.nextFireNs + (now + 1) * slot.periodNs := by
          have := Nat.le_mul_of_pos_right (now + 1) period
          omega
        obtain ⟨k,ends,low,high⟩ := catchUp_window now slot.nextFireNs late enough
        refine ⟨_,?_,.rearms slot k due once low high⟩
        simp [late, due, rearm, ends, TaskSlot.task]
    · have early : slot.due now = false := by rw [TaskSlot.due, decide_eq_false late, Bool.and_false]
      exact ⟨slot,by simp [late, early],.waits slot early⟩

variable (now) in
/-- A round collects the due tasks, each once. -/
theorem collect_rounds {slots : List (TaskSlot φ γ)} (positive : ∀ slot ∈ slots, slot.active = true → 0 < slot.periodNs) :
    ∃ slots', collect now slots = some (slots', (slots.filter (·.due now)).map TaskSlot.task) ∧
      ∀ i : Nat, Option.Rel (AfterRound now) slots[i]? slots'[i]? := by
  induction slots with
  | nil => exact ⟨[],rfl,fun _ => .none⟩
  | cons slot rest ih =>
    obtain ⟨slot',one,moved⟩ := collectSlot_round now (positive slot (mem_cons_self ..))
    obtain ⟨rest',more,others⟩ := ih fun old member => positive old (mem_cons_of_mem _ member)
    refine ⟨slot' :: rest',?_,fun i => ?_⟩
    · rw [collect, one, more]
      cases due : slot.due now <;> simp [due]
    · cases i with
      | zero => exact .some moved
      | succ i => exact others i

theorem OnTime.round (h : OnTime start fired clock slot) (later : clock ≤ now) (moved : AfterRound now slot slot') :
    OnTime start (fired + if slot.due now then 1 else 0) now slot' := by
  cases moved with
  | waits early =>
    rw [early]
    refine ⟨h.positive,fun active => ?_,h.once⟩
    obtain ⟨k,next,last,rest⟩ := h.phase active
    exact ⟨k,next,last.trans later,rest⟩
  | fires due once =>
    have active : slot.active = true := (Bool.and_eq_true_iff.1 due).1
    obtain ⟨k,-,-,few,first⟩ := h.phase active
    refine ⟨nofun,nofun,fun _ => ?_⟩
    rw [due, if_pos rfl]
    have := first once
    omega
  | rearms k due periodic low high =>
    refine ⟨h.positive,fun active => ?_,fun once => by rw [periodic] at once; cases once⟩
    obtain ⟨k₀,next,-,few,-⟩ := h.phase active
    refine ⟨k₀ + 1 + k,?_,?_,?_,fun once => by rw [periodic] at once; cases once⟩
    · show slot.nextFireNs + (k + 1) * slot.periodNs = _
      rw [next, add_assoc, ← add_mul]
      congr 2
    · rw [next, add_assoc, ← add_mul] at low
      exact low
    · rw [due, if_pos rfl]
      omega

variable {s t : Timed φ γ}

theorem AllOnTime.enroll (h : AllOnTime s) (later : s.clock ≤ now) (oneShot : Bool) (ms : Nat) (fn : Option φ)
    (ctx : Option γ) : AllOnTime (s.enrolled now (s.sched.enroll oneShot now ms fn ctx)) := by
  have before : ∀ i slot, s.sched.slots[i]? = some slot → OnTime (s.start i) (s.fired i) now slot := by
    intro i slot here
    refine ⟨(h i slot here).positive,fun active => ?_,(h i slot here).once⟩
    obtain ⟨k,next,last,rest⟩ := (h i slot here).phase active
    exact ⟨k,next,last.trans later,rest⟩
  rcases s.sched.enroll_fills oneShot now ms fn ctx with ⟨e,refused⟩ | ⟨positive,i,found,filled⟩
  · rw [refused]
    exact before
  · rw [filled, Timed.enrolled, found]
    intro j slot here
    by_cases same : j = i
    · subst same
      simp only [update_self]
      obtain ⟨inside,-⟩ := List.getElem?_eq_some_iff.1 here
      rw [length_set] at inside
      rw [getElem?_set_self inside] at here
      cases here
      refine ⟨fun _ => Nat.mul_pos positive (by decide),fun _ => ⟨0,?_,?_,Nat.le_refl 0,fun _ => rfl⟩,
        fun _ => Nat.zero_le 1⟩
      · rw [Nat.zero_add, Nat.one_mul]
      · rw [Nat.zero_mul]
        exact le_rfl
    · simp only [update_of_ne same]
      rw [getElem?_set_ne (Ne.symm same)] at here
      exact before j slot here

theorem AllOnTime.next {a : TimedAct φ γ} (h : AllOnTime s) (step : timedNext a s = some t) : AllOnTime t := by
  cases a with
  | add now ms fn ctx =>
    simp only [timedNext, Option.ite_none_right_eq_some, Option.some.injEq] at step
    obtain ⟨later,rfl⟩ := step
    exact h.enroll later false ms fn ctx
  | addOneShot now ms fn ctx =>
    simp only [timedNext, Option.ite_none_right_eq_some, Option.some.injEq] at step
    obtain ⟨later,rfl⟩ := step
    exact h.enroll later true ms fn ctx
  | remove taskId =>
    cases step
    intro i slot here
    rcases s.sched.remove_clears taskId with ⟨refused,-⟩ | ⟨j,old,there,-,-,cleared⟩
    · rw [refused] at here
      exact h i slot here
    · rw [cleared] at here
      by_cases same : i = j
      · subst same
        rw [getElem?_set_self (List.getElem?_eq_some_iff.1 there).1] at here
        cases here
        exact ⟨nofun,nofun,(h i old there).once⟩
      · rw [getElem?_set_ne (Ne.symm same)] at here
        exact h i slot here
  | round now =>
    simp only [timedNext, Option.ite_none_right_eq_some] at step
    obtain ⟨later,step⟩ := step
    obtain ⟨slots,round,moved⟩ := collect_rounds now (fun slot (member : slot ∈ s.sched.slots) => by
      obtain ⟨i,inside,rfl⟩ := getElem_of_mem member
      exact (h i _ (getElem?_eq_getElem inside)).positive)
    rw [round] at step
    cases step
    intro i slot' here
    have rel := moved i
    simp only at here
    rw [here] at rel
    cases there : s.sched.slots[i]? with
    | none => rw [there] at rel; cases rel
    | some slot =>
      rw [there] at rel
      cases rel with
      | some after =>
        have kept := (h i slot there).round later after
        simpa only [there, Option.any_some] using kept

/-- **Every task is on time**: every deadline is on its phase; the next round ends, collects the due tasks once each and
leaves every deadline in its window; and `Remove` finds no task, or takes one out of its slot. -/
theorem rounds_on_time {maxTasks : Nat} (h : Reach (timedMachine maxTasks) anyStep s) : AllOnTime s ∧
    (∀ now, s.clock ≤ now → ∃ slots,
      collect now s.sched.slots = some (slots, (s.sched.slots.filter (·.due now)).map TaskSlot.task) ∧
      ∀ i : Nat, Option.Rel (AfterRound now) s.sched.slots[i]? slots[i]?) ∧
    ∀ taskId, s.sched.remove taskId = (s.sched, .error .kNotRunning) ∧
        (∀ slot ∈ s.sched.slots, slot.active = true → slot.id ≠ taskId) ∨
      ∃ i slot, s.sched.slots[i]? = some slot ∧ slot.active = true ∧ slot.id = taskId ∧ s.sched.remove taskId =
          ({ s.sched with slots := s.sched.slots.set i { slot with active := false } }, .ok ()) := by
  have onTime : AllOnTime s := by
    refine h.invariant ?_ fun s t a _ ih _ step => ih.next step
    intro i slot here
    obtain ⟨-,rfl⟩ := mem_replicate.1 (mem_of_getElem? here)
    exact ⟨nofun,nofun,nofun⟩
  refine ⟨onTime,fun now _ => collect_rounds now ?_,fun taskId => s.sched.remove_clears taskId⟩
  intro slot member
  obtain ⟨i,inside,rfl⟩ := getElem_of_mem member
  exact (onTime i _ (getElem?_eq_getElem inside)).positive

end

/-- A periodic and a one-shot task, and a round that is late by three periods. -/
theorem rounds_on_time_late : ∃ s : Timed Nat Nat, Reach (timedMachine 2) anyStep s ∧
    s.sched.slots.map (fun slot => (slot.active, slot.nextFireNs)) = [(true, 5000000), (false, 2000000)] ∧
    s.fired 0 = 1 ∧ s.fired 1 = 1 ∧ AllOnTime s := by
  obtain ⟨s,reached,slots,first,second⟩ := reach_of_schedule (timedMachine 2)
    [.add 0 1 (some 7) none, .addOneShot 0 2 (some 8) none, .round 4500000]
    (fun s : Timed Nat Nat => s.sched.slots.map (fun slot => (slot.active, slot.nextFireNs)) =
      [(true, 5000000), (false, 2000000)] ∧ s.fired 0 = 1 ∧ s.fired 1 = 1) (by decide +kernel)
  exact ⟨s,reached,slots,first,second,(rounds_on_time reached).1⟩

end Newosp.Timer
