import Newosp.Mpsc.Fifo

/-!
# The signed differences of `TryPush` and `TryPop`

A sequence number and a position are converted to `int32_t` before they are subtracted. Two values below `2 ^ 31` are far
enough from the ends of the range; but `2 ^ 31 - 1` and its successor become the two ends.
-/

namespace Newosp.Mpsc
open Lib List

section

variable {ι : Type} {n : Nat} {β : Type} {cfg : Config} {s t : State ι n β}

variable (cfg) in
/-- The differences that the next steps of the calls compute are values of `int32_t`. -/
structure InRange (s : State ι n β) : Prop where
  push : ∀ c pos, s.pc c = .loadSeq pos → IsInt32 (toInt32 (s.mem.slots (cfg.index pos)).sequence - toInt32 pos)
  pop : ∀ pos out, s.cpc = .loadSeq pos out →
    IsInt32 (toInt32 (s.mem.slots (cfg.index pos)).sequence - toInt32 (wrap32 (pos + 1)))

theorem Inv.sequence_lt (h : Inv cfg s) (early : s.claims.length + cfg.depth ≤ 2147483648) (pos : Nat) :
    (s.mem.slots (pos % cfg.depth)).sequence < 2147483648 := by
  have le := h.le
  have two := cfg.depth_two_le
  obtain ⟨p,-,high,-,eq | ⟨eq,claimed⟩⟩ := h.shown pos
  · rw [eq, wrap32_of_lt (by omega)]
    omega
  · rw [eq, wrap32_of_lt (by omega)]
    omega

variable [DecidableEq ι] {garbage : Nat → Entry n β} {args : ι → Entry n β}

/-- With so few claims nobody is stalled for too long. -/
theorem inv_of_early (reached : Reach (machine cfg garbage args) anyStep s) :
    s.claims.length + cfg.depth ≤ 2147483648 → Inv cfg s := by
  apply reached.invariant (I := fun s => s.claims.length + cfg.depth ≤ 2147483648 → Inv cfg s)
  · exact fun _ => init_inv cfg garbage args
  · intro s t a _ ih _ step early
    have grows := (next_kept step).1.length_le
    refine next_inv (ih (by omega)) ?_ step
    unfold recent
    repeat' split
    all_goals first | trivial | omega

/-- **No difference leaves the range of `int32_t`** before the positions come to `2 ^ 31`. -/
theorem differences_in_range (reached : Reach (machine cfg garbage args) anyStep s)
    (early : s.claims.length + cfg.depth ≤ 2147483648) : InRange cfg s := by
  have inv := inv_of_early reached early
  have le := inv.le
  have two := cfg.depth_two_le
  constructor
  case push =>
    intro c pos here
    have call := inv.calls c
    rw [here] at call
    obtain ⟨rfl,old⟩ := call
    rw [cfg.index_wrap32]
    apply isInt32_sub (inv.sequence_lt early _)
    rw [wrap32_of_lt (by omega)]
    omega
  case pop =>
    intro pos out here
    have consumer := inv.consumer
    rw [here] at consumer
    obtain ⟨-,rfl⟩ := consumer
    rw [cfg.index_wrap32, wrap32_add_left]
    apply isInt32_sub (inv.sequence_lt early _)
    rw [wrap32_of_lt (by omega)]
    omega

end

/-- A push and a pop that are about to compare. -/
theorem differences_in_range_both : ∃ s : State (Fin 2) 2 Nat,
    Reach (machine depth2 (fun _ _ => 9) fun _ _ => 9) anyStep s ∧ s.pc 0 = .loadSeq 0 ∧
    s.claims.length + depth2.depth ≤ 2147483648 ∧ InRange depth2 s := by
  obtain ⟨s,reached,waits,early⟩ := reach_of_schedule (machine (ι := Fin 2) depth2 (fun _ _ => 9) fun _ _ => 9)
    [.push 0 ![0, 5], .producer 0 false, .pop ![9, 9]]
    (fun s => s.pc 0 = .loadSeq 0 ∧ s.claims.length + depth2.depth ≤ 2147483648) (by decide +kernel)
  exact ⟨s,reached,waits,early,differences_in_range reached early⟩

/-- **A pop from an empty queue overflows** after `2 ^ 31 - 1` pushes and pops. -/
theorem empty_pop_overflows : ∃ s, Reach pair anyStep s ∧ s.claims.length = 2147483647 ∧
    s.popped.length = 2147483647 ∧ (∃ out, s.cpc = .loadSeq 2147483647 out) ∧ ¬ InRange depth2 s := by
  obtain ⟨s,h⟩ := exists_round 2147483647
  have inv := reach_inv (h.reached.mono fun _ _ guard => guard.2)
  have stored : s.mem.consumerPos = 2147483647 := by
    rw [inv.consumerPos (ConsumerPC.settled h.rests), h.popped]
    rfl
  have free : (s.mem.slots 1).sequence = 2147483647 := inv.free 2147483647 h.claims.le (by rw [h.popped]; decide)
  have begins : pair.next (.pop fun _ => 9) s = some { s with cpc := .loadSeq 2147483647 fun _ => 9 } := by
    rw [← stored]
    exact (popNext_eq _).trans (if_pos h.rests)
  refine ⟨_,.step (h.reached.mono fun _ _ _ => trivial) trivial begins,h.claims,h.popped,⟨_,rfl⟩,fun range => ?_⟩
  have difference : toInt32 (s.mem.slots 1).sequence - toInt32 2147483648 < 2147483648 := (range.pop _ _ rfl).2
  rw [free] at difference
  exact absurd difference (by decide)

end Newosp.Mpsc
