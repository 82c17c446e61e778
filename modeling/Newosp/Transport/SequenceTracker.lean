import Mathlib.Data.Bool.Count
import Mathlib.Data.UInt

/-!
# `SequenceTracker`

The tracker compares sequence numbers by their wrapping difference. The number it expects is its start plus what it
accepted plus what it counted as lost, however often the numbers wrap; the statistics are 64-bit counters.
-/

namespace Newosp.Transport
open List

structure SequenceTracker where
  expectedSeq : UInt32 := 0
  totalReceived : UInt64 := 0
  lostCount : UInt64 := 0
  reorderedCount : UInt64 := 0
  duplicateCount : UInt64 := 0
  deriving DecidableEq

namespace SequenceTracker

/-- `Track`, with its answer. -/
def track (t : SequenceTracker) (seqNum : UInt32) : Bool × SequenceTracker :=
  let t := { t with totalReceived := t.totalReceived + 1 }
  let diff := seqNum - t.expectedSeq
  if diff = 0 then (true, { t with expectedSeq := t.expectedSeq + 1 })
  else if diff < 2147483648 then
    (true, { t with lostCount := t.lostCount + diff.toUInt64, expectedSeq := seqNum + 1 })
  else
    let gap := t.expectedSeq - seqNum
    (false, if gap ≤ 1000 then { t with reorderedCount := t.reorderedCount + 1 }
      else { t with duplicateCount := t.duplicateCount + 1 })

def trackAll (t : SequenceTracker) : List UInt32 → List Bool × SequenceTracker
  | [] => ([], t)
  | seqNum :: seqNums =>
    let (answer, t) := t.track seqNum
    let (answers, t) := t.trackAll seqNums
    (answer :: answers, t)

/-- The consecutive numbers from `next` on, with as many of them deleted before each one that is delivered as the list
says. -/
def thinned (next : Nat) : List (Fin 2147483648) → List UInt32
  | [] => []
  | gap :: gaps => .ofNat (next + gap) :: thinned (next + gap + 1) gaps

/-- After `accepted` calls that answered true and `refused` that answered false, for a tracker that began to expect
`start`. -/
structure Accounts (start : UInt32) (accepted refused : Nat) (t : SequenceTracker) : Prop where
  expected : t.expectedSeq = start + .ofNat accepted + t.lostCount.toUInt32
  total : t.totalReceived = .ofNat accepted + t.reorderedCount + t.duplicateCount
  late : t.reorderedCount + t.duplicateCount = .ofNat refused

variable {t : SequenceTracker} {seqNum start : UInt32} {accepted refused next : Nat}

theorem Accounts.track (h : Accounts start accepted refused t) (seqNum : UInt32) :
    Accounts start (accepted + [(t.track seqNum).1].count true) (refused + [(t.track seqNum).1].count false)
      (t.track seqNum).2 := by
  obtain ⟨expected,total,late⟩ := h
  unfold SequenceTracker.track
  dsimp only
  split
  · refine ⟨?_,?_,late⟩
    · simp only [expected, count_cons_self, count_nil, UInt32.ofNat_add]
      grind
    · simp only [total, count_cons_self, count_nil, UInt64.ofNat_add]
      grind
  · split
    · refine ⟨?_,?_,late⟩
      · simp only [count_cons_self, count_nil, UInt32.ofNat_add, UInt64.toUInt32_add, UInt32.toUInt32_toUInt64]
        grind
      · simp only [total, count_cons_self, count_nil, UInt64.ofNat_add]
        grind
    · split
      all_goals
        refine ⟨expected,by simp only [total]; grind,?_⟩
        simp only [count_cons_self, count_nil, UInt64.ofNat_add, ← late]
        grind

theorem Accounts.trackAll (h : Accounts start accepted refused t) (seqNums : List UInt32) :
    Accounts start (accepted + (t.trackAll seqNums).1.count true) (refused + (t.trackAll seqNums).1.count false)
      (t.trackAll seqNums).2 := by
  induction seqNums generalizing t accepted refused with
  | nil => exact h
  | cons seqNum seqNums ih =>
    have next := ih (h.track seqNum)
    rwa [add_assoc, add_assoc, ← count_append, ← count_append] at next

theorem trackAll_length (t : SequenceTracker) (seqNums : List UInt32) :
    (t.trackAll seqNums).1.length = seqNums.length := by
  induction seqNums generalizing t with
  | nil => rfl
  | cons seqNum seqNums ih => exact congrArg (· + 1) (ih _)

/-- Every call is counted as received. -/
theorem Accounts.totalReceived (h : Accounts start accepted refused t) :
    t.totalReceived = .ofNat (accepted + refused) := by
  rw [h.total, add_assoc, h.late, UInt64.ofNat_add]

theorem track_refused (refused : (t.track seqNum).1 = false) :
    (t.track seqNum).2.expectedSeq = t.expectedSeq ∧ (t.track seqNum).2.lostCount = t.lostCount := by
  unfold SequenceTracker.track at *
  grind

theorem track_ahead (expects : t.expectedSeq = .ofNat next) (gap : Fin 2147483648) :
    (t.track (.ofNat (next + gap))).1 = true ∧ (t.track (.ofNat (next + gap))).2.expectedSeq = .ofNat (next + gap + 1) ∧
      (t.track (.ofNat (next + gap))).2.lostCount = t.lostCount + .ofNat gap := by
  have diff : UInt32.ofNat (next + gap) - t.expectedSeq = .ofNat gap := by
    rw [expects, UInt32.ofNat_add]
    grind
  have size : (UInt32.ofNat gap).toNat = gap := UInt32.toNat_ofNat_of_lt' (lt_trans gap.2 (by decide))
  have near : UInt32.ofNat gap < 2147483648 := by
    rw [UInt32.lt_iff_toNat_lt, size]
    exact gap.2
  have skipped : (UInt32.ofNat gap).toUInt64 = .ofNat gap := by
    rw [← UInt64.toNat_inj, UInt32.toNat_toUInt64, size, UInt64.toNat_ofNat_of_lt' (lt_trans gap.2 (by decide))]
  unfold SequenceTracker.track
  simp only [diff, near, if_true, skipped]
  split
  · rename_i none
    rw [none] at size
    rw [expects, ← size]
    exact ⟨rfl,(UInt32.ofNat_add ..).symm,(add_zero _).symm⟩
  · exact ⟨rfl,(UInt32.ofNat_add ..).symm,rfl⟩

theorem trackAll_thinned (gaps : List (Fin 2147483648)) (expects : t.expectedSeq = .ofNat next) :
    (∀ answer ∈ (t.trackAll (thinned next gaps)).1, answer = true) ∧
      (t.trackAll (thinned next gaps)).2.lostCount = t.lostCount + .ofNat (gaps.map Fin.val).sum := by
  induction gaps generalizing t next with
  | nil => exact ⟨nofun,(add_zero _).symm⟩
  | cons gap gaps ih =>
    obtain ⟨accepted,expects,lost⟩ := track_ahead expects gap
    obtain ⟨answers,total⟩ := ih expects
    refine ⟨forall_mem_cons.2 ⟨accepted,answers⟩,total.trans ?_⟩
    rw [lost, map_cons, sum_cons, UInt64.ofNat_add, add_assoc]

/-- **The books of the tracker.** -/
theorem tracker_accounts (start : UInt32) (seqNums : List UInt32) (gaps : List (Fin 2147483648)) :
    Accounts start ((trackAll { expectedSeq := start } seqNums).1.count true)
      ((trackAll { expectedSeq := start } seqNums).1.count false) (trackAll { expectedSeq := start } seqNums).2 ∧
    (trackAll { expectedSeq := start } seqNums).2.totalReceived = .ofNat seqNums.length ∧
    (∀ (t : SequenceTracker) seqNum, (t.track seqNum).1 = false →
      (t.track seqNum).2.expectedSeq = t.expectedSeq ∧ (t.track seqNum).2.lostCount = t.lostCount) ∧
    (∀ answer ∈ (trackAll {} (thinned 0 gaps)).1, answer = true) ∧
    (trackAll {} (thinned 0 gaps)).2.lostCount = .ofNat (gaps.map Fin.val).sum := by
  have begun : Accounts start 0 0 { expectedSeq := start } := ⟨by simp,rfl,rfl⟩
  have books := begun.trackAll seqNums
  obtain ⟨answers,lost⟩ := trackAll_thinned (t := {}) gaps rfl
  rw [zero_add, zero_add] at books
  refine ⟨books,?_,fun _ _ => track_refused,answers,lost.trans (zero_add _)⟩
  rw [books.totalReceived, count_true_add_count_false, trackAll_length]

end SequenceTracker
end Newosp.Transport
