import Newosp.Lib.Machine
import Mathlib.Data.List.Basic

/-!
# The service's accept thread and its workers

The accept thread compares `active_workers_` with `max_concurrent` before it starts a worker, and the worker counts
itself in only once it runs. The limit is kept if no started worker has yet to count itself in when the next connection
is checked.
-/

namespace Newosp.Service
open Lib List

structure Config where
  maxConcurrent : Nat
  maxWorkers : Nat

/-- The next step of a worker thread: the two ends of its `WorkerScope`, the connection, and the flag between. -/
inductive WorkerPC
  | enterScope | handleConnection | storeFinished | leaveScope | over
  deriving DecidableEq

/-- The next step of `AcceptLoop`; `ReapFinishedWorkers` looks at one entry in a step, then joins what it took out. -/
inductive AcceptPC
  | reap (i : Nat) (toJoin : List Nat)
  | join (toJoin : List Nat)
  | accept | check | reserve | start
  deriving DecidableEq

/-- A thread is the number of threads started before it; an entry is the thread it was reserved for. -/
structure State where
  acceptor : AcceptPC
  workers : List WorkerPC
  entries : List Nat
  active : Nat

/-- What `finished` of the thread's entry holds. -/
def State.finished (s : State) (w : Nat) : Bool := s.workers[w]? == some .leaveScope || s.workers[w]? == some .over

def State.acceptTo (s : State) (pc : AcceptPC) : State := { s with acceptor := pc }

def State.workerTo (s : State) (i : Nat) (pc : WorkerPC) : State := { s with workers := s.workers.set i pc }

/-- `ok` is how the accept, the allocation or the start of the thread ends. -/
inductive Act
  | acceptor (ok : Bool)
  | worker (i : Nat)

def acceptNext (cfg : Config) (ok : Bool) (s : State) : AcceptPC → Option State
  | .reap i toJoin => match s.entries[i]? with
    | none => some (s.acceptTo (.join toJoin))
    | some w =>
      if s.finished w then
        some { s with
          entries := (s.entries.set i (s.entries.getLastD w)).dropLast, acceptor := .reap i (toJoin ++ [w]) }
      else some (s.acceptTo (.reap (i + 1) toJoin))
  | .join [] => some (s.acceptTo .accept)
  | .join (w :: rest) => if s.workers[w]? = some .over then some (s.acceptTo (.join rest)) else none
  | .accept => some (s.acceptTo (if ok then .check else .reap 0 []))
  | .check => some (s.acceptTo (if cfg.maxConcurrent ≤ s.active then .reap 0 [] else .reserve))
  | .reserve =>
    if ok ∧ s.entries.length < cfg.maxWorkers then
      some { s with entries := s.entries ++ [s.workers.length], acceptor := .start }
    else some (s.acceptTo (.reap 0 []))
  | .start =>
    if ok then some { s with workers := s.workers ++ [.enterScope], acceptor := .reap 0 [] }
    else some { s with entries := s.entries.dropLast, acceptor := .reap 0 [] }

def workerNext (i : Nat) (s : State) : WorkerPC → Option State
  | .enterScope => some { s.workerTo i .handleConnection with active := s.active + 1 }
  | .handleConnection => some (s.workerTo i .storeFinished)
  | .storeFinished => some (s.workerTo i .leaveScope)
  | .leaveScope => some { s.workerTo i .over with active := s.active - 1 }
  | .over => none

def next (cfg : Config) : Act → State → Option State
  | .acceptor ok, s => acceptNext cfg ok s s.acceptor
  | .worker i, s => s.workers[i]?.bind (workerNext i s)

def machine (cfg : Config) : Machine State Act := ⟨⟨.reap 0 [], [], [], 0⟩, next cfg⟩

def State.handled (s : State) : Nat := s.workers.count .handleConnection

/-- The condition on a step: at the check every started worker has counted itself in. -/
def countedIn (s : State) : Act → Prop
  | .acceptor _ => s.acceptor = .check → .enterScope ∉ s.workers
  | .worker _ => True

instance (s : State) (a : Act) : Decidable (countedIn s a) := by
  cases a <;> unfold countedIn <;> infer_instance

def AcceptPC.passed : AcceptPC → Nat
  | .reserve | .start => 1
  | _ => 0

/-- `active_workers_` counts the workers in their scope, and with those on the way into it they are within the limit. -/
structure Limited (cfg : Config) (s : State) : Prop where
  active : s.active = s.workers.count .handleConnection + s.workers.count .storeFinished + s.workers.count .leaveScope
  limit : s.acceptor.passed + s.workers.count .enterScope + s.active ≤ cfg.maxConcurrent

variable {cfg : Config} {s s' : State}

/-- A step of the accept thread that starts no thread. -/
theorem Limited.acceptTo (h : Limited cfg s) (pc : AcceptPC) (entries : List Nat)
    (fewer : pc.passed ≤ s.acceptor.passed) : Limited cfg { s with acceptor := pc, entries := entries } := by
  have limit := h.limit
  refine ⟨h.active,?_⟩
  show pc.passed + s.workers.count .enterScope + s.active ≤ _
  omega

theorem acceptNext_limited {ok : Bool} (h : Limited cfg s) (guard : countedIn s (.acceptor ok))
    (step : acceptNext cfg ok s s.acceptor = some s') : Limited cfg s' := by
  have limit := h.limit
  cases here : s.acceptor <;> simp only [here, acceptNext] at step
  case reap i toJoin =>
    split at step
    · cases step
      exact h.acceptTo _ _ (Nat.zero_le _)
    · split at step <;> cases step <;> exact h.acceptTo _ _ (Nat.zero_le _)
  case join toJoin =>
    cases toJoin with
    | nil =>
      cases step
      exact h.acceptTo _ _ (Nat.zero_le _)
    | cons w rest =>
      obtain ⟨-,⟨⟩⟩ := enabled step
      exact h.acceptTo _ _ (Nat.zero_le _)
  case accept =>
    cases step
    exact h.acceptTo _ _ (by cases ok <;> exact Nat.zero_le _)
  case check =>
    -- nobody is on the way in, so the counter that was compared counts all
    have nobody : s.workers.count .enterScope = 0 := count_eq_zero.2 (guard here)
    cases step
    by_cases full : cfg.maxConcurrent ≤ s.active
    · rw [if_pos full]
      exact h.acceptTo _ _ (Nat.zero_le _)
    · rw [if_neg full]
      refine ⟨h.active,?_⟩
      show 1 + s.workers.count .enterScope + s.active ≤ _
      omega
  case reserve =>
    split at step <;> cases step <;> exact h.acceptTo _ _ (by rw [here]; decide)
  case start =>
    rw [here] at limit
    split at step <;> cases step
    · refine ⟨?_,?_⟩
      · simpa [count_append] using h.active
      · simp only [AcceptPC.passed, count_append] at limit ⊢
        simpa [Nat.add_comm 1, Nat.add_assoc] using limit
    · exact h.acceptTo _ _ (Nat.zero_le _)

theorem workerNext_limited {i : Nat} {pc : WorkerPC} (h : Limited cfg s) (here : s.workers[i]? = some pc)
    (step : workerNext i s pc = some s') : Limited cfg s' := by
  obtain ⟨active,limit⟩ := h
  obtain ⟨lt,at_i⟩ := List.getElem?_eq_some_iff.1 here
  have seen : 0 < s.workers.count pc := List.count_pos_iff.2 (at_i ▸ List.getElem_mem lt)
  cases pc <;> cases step <;> constructor <;> simp only [State.workerTo, List.count_set lt, at_i] <;> simp <;> omega

theorem limited (reached : Reach (machine cfg) countedIn s) : Limited cfg s := by
  apply reached.invariant (I := Limited cfg)
  · exact ⟨rfl,Nat.zero_le _⟩
  · intro s s' a _ h guard step
    cases a with
    | acceptor ok => exact acceptNext_limited h guard step
    | worker i =>
      obtain ⟨pc,here,moves⟩ := Option.bind_eq_some_iff.1 step
      exact workerNext_limited h here moves

/-- **No more than `max_concurrent` connections are handled at once**, in the runs whose checks find every started
worker counted in. -/
theorem handled_le_maxConcurrent (reached : Reach (machine cfg) countedIn s) : s.handled ≤ cfg.maxConcurrent := by
  obtain ⟨active,limit⟩ := limited reached
  unfold State.handled
  omega

/-- One round of the accept thread up to the started worker, with nothing to reap. -/
def acceptOne : List Act := replicate 6 (.acceptor true)

/-- While the first connection is handled, the second one is refused at the check. -/
theorem handled_le_maxConcurrent_one : ∃ s s', Reach (machine ⟨1, 16⟩) countedIn s ∧ s.acceptor = .check ∧
    next ⟨1, 16⟩ (.acceptor true) s = some s' ∧ s'.acceptor = .reap 0 [] ∧ s'.workers = [.handleConnection] ∧
    s'.handled = 1 ∧ s'.handled ≤ (⟨1, 16⟩ : Config).maxConcurrent := by
  obtain ⟨s,reached,checks,counted,refused⟩ := reach_of_decided (machine ⟨1,16⟩) countedIn
    (acceptOne ++ .worker 0 :: replicate 4 (.acceptor true))
    (fun s => s.acceptor = .check ∧ countedIn s (.acceptor true) ∧ (next ⟨1,16⟩ (.acceptor true) s).any fun s' =>
      s'.acceptor = .reap 0 [] ∧ s'.workers = [.handleConnection]) (by decide)
  obtain ⟨s',step,refused⟩ := (Option.any_eq_true ..).1 refused
  obtain ⟨reaps,alone⟩ := of_decide_eq_true refused
  have one : s'.handled = 1 := by rw [State.handled, alone]; rfl
  exact ⟨s,s',reached,checks,step,reaps,alone,one,handled_le_maxConcurrent (.step reached counted step)⟩

/-- The second connection is checked before the first one's worker has run. -/
theorem two_handled_with_limit_one : ∃ s, Reach (machine ⟨1, 16⟩) anyStep s ∧ s.handled = 2 :=
  reach_of_schedule (machine ⟨1, 16⟩) (acceptOne ++ .acceptor true :: acceptOne ++ [.worker 0, .worker 1]) _ (by decide)

end Newosp.Service
