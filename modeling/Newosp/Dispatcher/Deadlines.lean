import Newosp.Dispatcher.TimeoutSafety

/-!
# What `ScanTimeout` reclaims

A scan tests the deadline of a block in one step and claims it in a later one. In between the block can be released,
allocated and submitted again: the scan then reclaims an allocation whose deadline it has never seen.
-/

namespace Newosp.Dispatcher.Timeouts
open Lib List
open Function (update update_apply update_of_ne)

variable {ι : Type}

/-- The time of a scan and the block that it found due and has not yet claimed. -/
def ScanPC.found : ScanPC → Option (Nat × Nat)
  | .loadCount (.timeout now) i | .cas (.timeout now) i _ => some (now, i)
  | _ => none

/-- The scan, block and count of a scan by time whose next step is the claim. -/
def ScanPC.reclaims : ScanPC → Option (Nat × Nat × Nat)
  | .cas (.timeout now) i cur => some (now, i, cur)
  | _ => none

/-- The condition on a step: no thread stores the deadline of a block that a scan has found due. -/
def undated (s : State ι) : Act ι → Prop
  | .exec t _ => ∀ b u now, (s.exec t).dates = some b → (s.scan u).found ≠ some (now, b)
  | _ => True

def Precise (s : State ι) : Prop :=
  ∀ t now i cur, (s.scan t).reclaims = some (now, i, cur) → (s.block i).refcount = cur →
    (s.block i).deadline ≠ 0 ∧ (s.block i).deadline < now

def Due (s : State ι) : Prop :=
  ∀ t now i, (s.scan t).found = some (now, i) → (s.block i).deadline ≠ 0 ∧ (s.block i).deadline < now

variable [DecidableEq ι] {g : Pipeline} {s s' : State ι} {t : ι} {maxBlocks : Nat} {spurious : Bool}

omit [DecidableEq ι] in
theorem setBlock_deadline {b : Nat} {blk : DataBlock} (same : blk.deadline = (s.block b).deadline) (c : Nat) :
    ((s.setBlock b blk).block c).deadline = (s.block c).deadline := by
  simp only [State.setBlock, update_apply]
  split
  · rename_i here
    rw [here, same]
  · rfl

theorem Due.execNext (h : Due s) (guard : undated s (.exec t spurious)) (step : execNext g t spurious s = some s') :
    Due s' := by
  intro u now i found
  obtain ⟨scan,block⟩ := execNext_stores step
  rw [scan] at found
  have due := h u now i found
  rcases block with same | ⟨c,blk,eq,deadline | dates,_⟩
  · rwa [same]
  · rwa [eq, setBlock_deadline deadline]
  · have other : i ≠ c := by
      rintro rfl
      exact guard i u now dates found
    simp only [eq, State.setBlock, update_of_ne other]
    exact due

theorem Due.scan (h : Due s) {pc : ScanPC} (deadlines : ∀ c, (s'.block c).deadline = (s.block c).deadline)
    (scans : s'.scan = update s.scan t pc)
    (found : ∀ now i, pc.found = some (now, i) → (s.block i).deadline ≠ 0 ∧ (s.block i).deadline < now) : Due s' := by
  intro u now i eq
  rw [deadlines]
  rw [scans, update_apply] at eq
  split at eq
  · exact found now i eq
  · exact h u now i eq

theorem Due.scanNext (h : Due s) (step : scanNext maxBlocks t spurious s = some s') : Due s' := by
  have mine := h t
  have on : ∀ (s' : State ι) (kind : Kind) (i : Nat), s'.scan = s.scan →
      (∀ c, (s'.block c).deadline = (s.block c).deadline) → Due (s'.scanOn t maxBlocks kind i) := by
    intro s' kind i scan deadlines
    unfold State.scanOn
    split <;> exact h.scan deadlines (congrArg (update · t _) scan) nofun
  unfold Timeouts.scanNext at step
  cases at_ : s.scan t <;> simp only [at_] at step
  case idle => cases step
  case loadState kind i =>
    split at step <;> cases step
    · exact h.scan (fun _ => rfl) rfl nofun
    · exact on s kind i rfl fun _ => rfl
  case check kind i =>
    split at step <;> cases step
    · rename_i due
      refine h.scan (fun _ => rfl) rfl ?_
      intro now j eq
      cases kind <;> cases eq
      simpa [Kind.due] using due
    · exact on s kind i rfl fun _ => rfl
  case loadCount kind i =>
    split at step <;> cases step
    · rw [at_] at mine
      refine h.scan (fun _ => rfl) rfl ?_
      intro now j eq
      cases kind <;> cases eq
      exact mine now i rfl
    · exact on s kind i rfl fun _ => rfl
  case cas kind i cur =>
    rw [at_] at mine
    split at step
    · cases step
      exact h.scan (setBlock_deadline rfl) rfl nofun
    · split at step <;> cases step
      · refine h.scan (fun _ => rfl) rfl ?_
        intro now j eq
        cases kind <;> cases eq
        exact mine now i rfl
      · exact on s kind i rfl fun _ => rfl
  case mark kind i | recycleState kind i =>
    cases step
    exact h.scan (setBlock_deadline rfl) rfl nofun
  case recyclePush kind i =>
    cases step
    exact on (s.push i) kind i rfl fun _ => rfl

/-- **A scan reclaims only what is past its own deadline**, in the runs in which no deadline is stored between the test
and the claim of a scan. -/
theorem reclaims_when_due (reached : Reach (machine g maxBlocks) undated s) : Precise s := by
  have due : Due s := by
    apply reached.invariant (by rintro _ _ _ ⟨⟩)
    intro s s' a _ h guard step
    cases a <;> simp only [machine, next] at step
    case alloc t =>
      split at step
      · unfold allocNext at step
        split at step <;> cases step
        exact h
      · cases step
    case submit =>
      split at step <;> cases step
      exact h
    case exec =>
      split at step
      · exact h.execNext guard step
      · cases step
    case beginScan =>
      split at step
      · obtain ⟨_,step⟩ := enabled step
        cases step
        exact h.scan (fun _ => rfl) rfl (by rintro _ _ ⟨⟩)
      · cases step
    case scan => exact h.scanNext step
  intro t now i cur here _
  refine due t now i ?_
  unfold ScanPC.reclaims at here
  split at here <;> cases here
  rename_i eq
  rw [eq]
  rfl

def submitBy (t : ι) (deadline : Nat) : List (Act ι) :=
  [.alloc t] ++ replicate 2 (.exec t false) ++ [.submit t deadline 0] ++ replicate 4 (.exec t false)

def single : Pipeline := ⟨[⟨true, []⟩], 0, by decide, by decide⟩

/-- A scan at time 10 is about to claim a block whose deadline was 5. -/
def overdue : List (Act Bool) := submitBy false 5 ++ [.beginScan true (.timeout 10)] ++ replicate 3 (.scan true false)

theorem reclaims_when_due_overdue : ∃ s : State Bool, Reach (machine single 1) undated s ∧
    (s.scan true).reclaims = some (10, 0, 1) ∧ (s.block 0).refcount = 1 ∧ Precise s := by
  have sound : ∀ (s : State Bool) (a : Act Bool), (match a with
      | .exec .. => decide ((s.scan true).found = none ∧ (s.scan false).found = none)
      | _ => true) = true → undated s a := by
    intro s a passes
    cases a with
    | exec t spurious =>
      have calm := of_decide_eq_true passes
      rintro b (_ | _) now _
      · rw [calm.2]
        exact nofun
      · rw [calm.1]
        exact nofun
    | _ => trivial
  obtain ⟨s,reached,scan,count⟩ := reach_of_run (machine single 1) sound overdue
    (fun s => (s.scan true).reclaims = some (10, 0, 1) ∧ (s.block 0).refcount = 1) (by decide +kernel)
  exact ⟨s,reached,scan,count,reclaims_when_due reached⟩

/-- While the scan is about to claim it, the block is released, allocated and submitted again with the deadline 20. -/
theorem reclaims_fresh_block : ∃ s : State Bool, Reach (machine single 1) anyStep s ∧ ¬ Precise s := by
  obtain ⟨s,reached,scan,count,deadline⟩ := reach_of_schedule (machine single 1)
    (overdue ++ replicate 5 (.exec false false) ++ submitBy false 20)
    (fun s => (s.scan true).reclaims = some (10, 0, 1) ∧ (s.block 0).refcount = 1 ∧ (s.block 0).deadline = 20)
    (by decide +kernel)
  refine ⟨s,reached,fun precise => ?_⟩
  have late := (precise true 10 0 1 scan count).2
  omega

end Newosp.Dispatcher.Timeouts
