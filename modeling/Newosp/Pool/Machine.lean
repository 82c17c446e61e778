import Newosp.Bus.Machine

/-!
# `WorkerPool` on top of the bus

The submitters run `Submit`, the dispatcher thread runs `DispatcherLoop` and is the consumer of the bus, the workers run
`WorkerLoop`, and one control thread calls `FlushAndPause`, `Resume` and `Shutdown`. The bus is the machine of
`Newosp.Bus`. A `Push` or `Pop` of a worker queue, a handler's completion and every access to a shared counter or flag
is one step. The fields after `workerQueueFull` are histories.
-/

namespace Newosp.Pool
open Lib Function

structure Config where
  bus : Bus.Config
  workerNum : Nat
  worker_pos : 0 < workerNum
  queueDepth : Nat

abbrev Job (ι α : Type) := Bus.Dispatch ι α

/-- Where a call of `ProcessBatch` returns to: the main loop of the dispatcher, or a round of its
final drain. -/
inductive Caller
  | loop
  | drain (round : Nat)
deriving DecidableEq, Repr

/-- Program counters of `DispatcherLoop`; from `pick` to `overflow` in `DispatchToWorker`. -/
inductive DispatcherPC (ι α : Type)
  | test
  | batch (caller : Caller)
  | pick (job : Job ι α) (caller : Caller)
  | push (job : Job ι α) (start i : Nat) (caller : Caller)
  | count (caller : Caller)
  | overflow (job : Job ι α) (caller : Caller)
  | exited

/-- Program counters of `WorkerLoop`; `final` marks the drain after the loop. -/
inductive WorkerPC (ι α : Type)
  | test
  | pop
  | handling (job : Job ι α) (final : Bool)
  | count (final : Bool)
  | drainPop
  | exited

/-- Program counters of the control thread: `FlushAndPause` from `depthProd` to `flushed`,
`Shutdown` from `joinDispatcher` to `stopped`. -/
inductive ControlPC
  | idle
  | depthProd
  | depthCons (prod : Nat)
  | checkQueue (busEmpty : Bool) (i : Nat)
  | loadDisp (busEmpty workersEmpty : Bool)
  | loadProc (busEmpty workersEmpty : Bool) (disp : Nat)
  | flushed (ok : Bool)
  | joinDispatcher
  | joinWorker (i : Nat)
  | stopped
deriving DecidableEq, Repr

structure State (ι α : Type) where
  bus : Bus.State ι α
  dpc : DispatcherPC ι α
  wpc : Nat → WorkerPC ι α
  cpc : ControlPC
  queue : Nat → List (Job ι α)
  paused : Bool
  shutdown : Bool
  nextWorker : Nat
  dispatched : Nat
  processed : Nat
  workerQueueFull : Nat
  refused : ι → Bool
  pushed : List (Job ι α)
  handled : List (Job ι α)
  dropped : List (Job ι α)

/-- A submitter calls `Submit` or takes a step; the control thread calls `FlushAndPause`, `Resume` or `Shutdown`, or
takes its next step (with `timeout` a flush gives up). -/
inductive Act (ι : Type)
  | submit (c : ι)
  | publish (c : ι) (spurious : Bool)
  | dispatcher
  | worker (w : Nat)
  | flush
  | resume
  | shutdown
  | control (timeout : Bool)

section

variable {ι α : Type} [DecidableEq ι] (cfg : Config) (req : ι → Bus.Request α)
  (registered : α → Bool)

/-- `Submit`: `paused_` is loaded and the publish begins, or the job is refused. -/
def submitNext (c : ι) (s : State ι α) : Option (State ι α) :=
  if s.bus.pc c = .idle ∧ s.refused c = false then
    if s.paused then some { s with refused := update s.refused c true }
    else some { s with bus := s.bus.goto c .loadId }
  else none

def Caller.back (count : Nat) : Caller → DispatcherPC ι α
  | .loop => .test
  | .drain round => if count = 0 then .exited else if round + 1 < 10 then .batch (.drain (round + 1)) else .exited

/-- Where the dispatcher is after a step of `ProcessBatch`: in `DispatchToWorker` after reading an envelope of a
subscribed type, back in its loop after the batch. -/
def afterBatchStep (bus : Bus.State ι α) (caller : Caller) (wasReading : Bool) : DispatcherPC ι α :=
  if wasReading then match bus.dispatched.getLast? with
    | some job => if registered job.envelope.payload then .pick job caller else .batch caller
    | none => .batch caller
  else match bus.cpc with
    | .idle count => caller.back count
    | _ => .batch caller

def dispatcherNext (s : State ι α) : Option (State ι α) := match s.dpc with
  | .exited => none
  | .test => some { s with dpc := .batch (if s.shutdown then .drain 0 else .loop) }
  | .batch caller =>
    let bus := Bus.consumerNext cfg.bus s.bus
    let wasReading := match s.bus.cpc with
      | .readPayload .. => true
      | _ => false
    some { s with bus := bus, dpc := afterBatchStep registered bus caller wasReading }
  | .pick job caller =>
    some { s with nextWorker := wrap32 (s.nextWorker + 1),
                  dpc := .push job (s.nextWorker % cfg.workerNum) 0 caller }
  | .push job start i caller =>
    let wid := (start + i) % cfg.workerNum
    if (s.queue wid).length < cfg.queueDepth then
      some { s with queue := update s.queue wid (s.queue wid ++ [job]),
                    pushed := s.pushed ++ [job], dpc := .count caller }
    else some { s with dpc := if i + 1 < cfg.workerNum then .push job start (i + 1) caller
                              else .overflow job caller }
  | .count caller => some { s with dispatched := wrap64 (s.dispatched + 1), dpc := .batch caller }
  | .overflow job caller =>
    some { s with workerQueueFull := wrap64 (s.workerQueueFull + 1), dropped := s.dropped ++ [job],
                  dpc := .batch caller }

def State.workerGoto (s : State ι α) (w : Nat) (pc : WorkerPC ι α) : State ι α := { s with wpc := update s.wpc w pc }

def popNext (w : Nat) (final : Bool) (empty : WorkerPC ι α) (s : State ι α) : State ι α := match s.queue w with
  | job :: rest => { s with queue := update s.queue w rest }.workerGoto w (.handling job final)
  | [] => s.workerGoto w empty

def workerNext (w : Nat) (s : State ι α) : Option (State ι α) :=
  if w < cfg.workerNum then
    match s.wpc w with
    | .exited => none
    | .test => some <| s.workerGoto w (if s.shutdown then .drainPop else .pop)
    | .pop => some <| popNext w false .test s
    | .handling job final => some <| { s with handled := s.handled ++ [job] }.workerGoto w (.count final)
    | .count final =>
      some <| { s with processed := wrap64 (s.processed + 1) }.workerGoto w (if final then .drainPop else .test)
    | .drainPop => some <| popNext w true .exited s
  else none

def controlNext (timeout : Bool) (s : State ι α) : Option (State ι α) := match s.cpc with
  | .idle | .flushed _ | .stopped => none
  | .depthProd => some { s with cpc := .depthCons s.bus.mem.producerPos }
  | .depthCons prod => some { s with cpc := .checkQueue (sub32 prod s.bus.mem.consumerPos = 0) 0 }
  | .checkQueue busEmpty i =>
    some { s with cpc := if i < cfg.workerNum then
        if s.queue i = [] then .checkQueue busEmpty (i + 1) else .loadDisp busEmpty false
      else .loadDisp busEmpty true }
  | .loadDisp busEmpty workersEmpty =>
    some { s with cpc := .loadProc busEmpty workersEmpty s.dispatched }
  | .loadProc busEmpty workersEmpty disp =>
    some { s with cpc := if busEmpty = true ∧ workersEmpty = true ∧ disp = s.processed then .flushed true
      else if timeout then .flushed false else .depthProd }
  | .joinDispatcher => match s.dpc with
    | .exited => some { s with cpc := .joinWorker 0 }
    | _ => none
  | .joinWorker i =>
    if i < cfg.workerNum then match s.wpc i with
      | .exited => some { s with cpc := .joinWorker (i + 1) }
      | _ => none
    else some { s with cpc := .stopped }

def ControlPC.free : ControlPC → Bool
  | .idle => true
  | .flushed _ => true
  | _ => false

def next : Act ι → State ι α → Option (State ι α)
  | .submit c, s => submitNext c s
  | .publish c spurious, s => (Bus.producerNext cfg.bus req c spurious s.bus).map fun b => { s with bus := b }
  | .dispatcher, s => dispatcherNext cfg registered s
  | .worker w, s => workerNext cfg w s
  | .flush, s => if s.cpc.free then some { s with paused := true, cpc := .depthProd } else none
  | .resume, s => if s.cpc.free then some { s with paused := false, cpc := .idle } else none
  | .shutdown, s => if s.cpc.free then some { s with shutdown := true, cpc := .joinDispatcher } else none
  | .control timeout, s => controlNext cfg timeout s

def State.init [Inhabited α] : State ι α where
  bus := .init
  dpc := .test
  wpc := fun _ => .test
  cpc := .idle
  queue := fun _ => []
  paused := false
  shutdown := false
  nextWorker := 0
  dispatched := 0
  processed := 0
  workerQueueFull := 0
  refused := fun _ => false
  pushed := []
  handled := []
  dropped := []

def machine [Inhabited α] : Machine (State ι α) (Act ι) := ⟨.init, next cfg req registered⟩

end

section

variable {ι α : Type} {cfg : Config} {s s' : State ι α}

theorem controlNext_cpc {timeout : Bool} (step : controlNext cfg timeout s = some s') :
    s' = { s with cpc := s'.cpc } := by
  cases here : s.cpc <;> simp only [controlNext, here] at step
  case idle | flushed | stopped => cases step
  case joinDispatcher =>
    split at step <;> cases step
    rfl
  case joinWorker i =>
    split at step
    · split at step <;> cases step
      rfl
    · cases step
      rfl
  all_goals
    cases step
    rfl

def Act.byControl : Act ι → Bool
  | .flush => true
  | .resume => true
  | .shutdown => true
  | .control _ => true
  | _ => false

variable [DecidableEq ι]

/-- What a step of the pool can do. -/
inductive Moved (cfg : Config) (req : ι → Bus.Request α) (registered : α → Bool) (s : State ι α) :
    Act ι → State ι α → Prop
  | refused (c : ι) (refused : ι → Bool) : Moved cfg req registered s (.submit c) { s with refused := refused }
  | entered {c : ι} (idle : s.bus.pc c = .idle) (running : s.paused = false) :
    Moved cfg req registered s (.submit c) { s with bus := s.bus.goto c .loadId }
  | published {c : ι} {spurious : Bool} {b : Bus.State ι α}
    (moved : Bus.producerNext cfg.bus req c spurious s.bus = some b) :
    Moved cfg req registered s (.publish c spurious) { s with bus := b }
  | dispatched {t : State ι α} (step : dispatcherNext cfg registered s = some t) : Moved cfg req registered s .dispatcher t
  | worked {w : Nat} {t : State ι α} (step : workerNext cfg w s = some t) : Moved cfg req registered s (.worker w) t
  | controlled {a : Act ι} (cpc : ControlPC) (paused shutdown : Bool) (control : a.byControl = true) :
    Moved cfg req registered s a { s with cpc := cpc, paused := paused, shutdown := shutdown }

theorem next_moved {req : ι → Bus.Request α} {registered : α → Bool} {a : Act ι}
    (step : next cfg req registered a s = some s') : Moved cfg req registered s a s' := by
  cases a with
  | submit c =>
    simp only [next, submitNext] at step
    obtain ⟨fresh,step⟩ := enabled step
    split at step <;> cases step
    · exact .refused c _
    · rename_i running
      exact .entered fresh.1 (by simpa using running)
  | publish c spurious =>
    obtain ⟨b,moved,rfl⟩ := Option.map_eq_some_iff.1 step
    exact .published moved
  | dispatcher => exact .dispatched step
  | worker w => exact .worked step
  | control timeout =>
    rw [controlNext_cpc step]
    exact .controlled _ _ _ rfl
  | _ =>
    simp only [next] at step
    split at step <;> cases step
    exact .controlled _ _ _ rfl

end

end Newosp.Pool
