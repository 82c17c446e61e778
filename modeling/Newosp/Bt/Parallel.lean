import Mathlib.Data.List.Count

/-!
# The verdict of a parallel node

`TickParallel` ticks all children and counts their results. The failures it allows are an unsigned difference, which
wraps when more successes are asked for than there are children.
-/

namespace Newosp.Bt
open List

inductive NodeStatus
  | kSuccess
  | kFailure
  | kRunning
  | kIdle
  deriving DecidableEq

structure Counts where
  successCount : UInt32
  failureCount : UInt32

def Counts.add (c : Counts) : NodeStatus → Counts
  | .kSuccess => { c with successCount := c.successCount + 1 }
  | .kFailure => { c with failureCount := c.failureCount + 1 }
  | _ => c

/-- `TickParallel` with the results of the children in order. -/
def tickParallel (successThreshold : UInt32) (results : List NodeStatus) : NodeStatus :=
  let counts := results.foldl Counts.add ⟨0, 0⟩
  let maxAllowedFailures := UInt32.ofNat results.length - successThreshold
  if successThreshold ≤ counts.successCount then .kSuccess
  else if maxAllowedFailures < counts.failureCount then .kFailure
  else .kRunning

/-- What the verdict is for. -/
def intendedVerdict (threshold : Nat) (results : List NodeStatus) : NodeStatus :=
  if threshold ≤ results.count .kSuccess then .kSuccess
  else if results.count .kSuccess + results.count .kRunning < threshold then .kFailure
  else .kRunning

variable {threshold : UInt32} {results : List NodeStatus}

theorem foldl_add (c : Counts) : results.foldl Counts.add c =
    ⟨c.successCount + .ofNat (results.count .kSuccess), c.failureCount + .ofNat (results.count .kFailure)⟩ := by
  induction results generalizing c with
  | nil => simp
  | cons status results ih =>
    rw [foldl_cons, ih]
    cases status <;> simp [Counts.add, UInt32.ofNat_add, UInt32.add_assoc, UInt32.add_comm 1]

theorem count_total (ticked : .kIdle ∉ results) :
    results.count .kSuccess + results.count .kFailure + results.count .kRunning = results.length := by
  induction results with
  | nil => rfl
  | cons status results ih =>
    have := ih fun member => ticked (.tail _ member)
    cases status <;> simp at ticked ⊢ <;> omega

theorem tickParallel_eq (word : results.length < 4294967296) : tickParallel threshold results =
    if threshold.toNat ≤ results.count .kSuccess then .kSuccess
    else if (results.length + 4294967296 - threshold.toNat) % 4294967296 < results.count .kFailure then .kFailure
    else .kRunning := by
  have counts : ∀ status, (UInt32.ofNat (results.count status)).toNat = results.count status :=
    fun _ => UInt32.toNat_ofNat_of_lt' (Nat.lt_of_le_of_lt count_le_length word)
  have below := threshold.toNat_lt
  simp only [tickParallel, foldl_add, UInt32.zero_add, UInt32.le_iff_toNat_le, UInt32.lt_iff_toNat_lt, counts,
    UInt32.toNat_sub, UInt32.toNat_ofNat_of_lt' word]
  congr 3
  omega

/-- **The verdict is the intended one**, and settled when no child runs, exactly for thresholds up to the number of
children. -/
theorem parallel_verdict_iff (word : results.length < 4294967296) (ticked : .kIdle ∉ results) :
    (tickParallel threshold results = intendedVerdict threshold.toNat results ∧
      (.kRunning ∉ results → tickParallel threshold results ≠ .kRunning)) ↔ threshold.toNat ≤ results.length := by
  have total := count_total ticked
  have below := threshold.toNat_lt
  rw [tickParallel_eq word, intendedVerdict, ← count_eq_zero]
  by_cases within : threshold.toNat ≤ results.length
  · have allowed : (results.length + 4294967296 - threshold.toNat) % 4294967296 = results.length - threshold.toNat := by
      omega
    rw [allowed]
    refine iff_of_true ⟨?_,fun none => ?_⟩ within <;> split
    · rfl
    · split <;> split <;> first | rfl | omega
    · simp
    · rw [if_pos (by omega)]
      simp
  · rw [if_neg (by omega), if_neg (by omega), if_neg (by omega), if_pos (by omega)]
    exact iff_of_false (fun both => NodeStatus.noConfusion both.1) within

theorem parallel_verdict_iff_mixed : tickParallel 2 [.kSuccess, .kRunning, .kFailure] = .kRunning ∧
    tickParallel 2 [.kSuccess, .kRunning, .kFailure] = intendedVerdict 2 [.kSuccess, .kRunning, .kFailure] :=
  ⟨rfl,((@parallel_verdict_iff 2 [.kSuccess, .kRunning, .kFailure] (by decide) (by decide)).2 (by decide)).1⟩

/-- Two children fail where three have to succeed. -/
theorem failed_node_runs : tickParallel 3 [.kFailure, .kFailure] = .kRunning ∧
    intendedVerdict 3 [.kFailure, .kFailure] = .kFailure := by
  decide

end Newosp.Bt
