import Newosp.Lib.Machine
import Newosp.Timer.Scheduler

/-!
# Components that are driven by a scheduler

`NodeManager`, `HsmNodeManager` and `MulticastDiscovery` in scheduler mode: `Start` registers their ticks with a
`TimerScheduler` under a pointer to the object, and `Stop` takes them out of it. A tick that the scheduler thread has
collected before is still called, and nothing in `Stop` waits for it. `Stop` of a discovery whose `Start` failed last,
at its receive thread, takes nothing out either.
-/

namespace Newosp.Timer
open Lib Function

/-- The ticks that the components register. -/
inductive Tick
  | heartbeatTick
  | monitorTick
  | announceTick
  | timeoutTick
  deriving DecidableEq

inductive Fn
  | tick (t : Tick)
  | other (k : Nat)
  deriving DecidableEq

inductive Component
  | nodeManager (heartbeatIntervalMs : Nat)
  | hsmNodeManager (heartbeatIntervalMs : Nat)
  | multicastDiscovery (announceIntervalMs timeoutMs : Nat)

namespace Component

def ticks : Component → List Tick
  | nodeManager _ => [.heartbeatTick]
  | hsmNodeManager _ => [.monitorTick]
  | multicastDiscovery _ _ => [.announceTick, .timeoutTick]

def periodMs : Component → Tick → Nat
  | nodeManager ms, _ | hsmNodeManager ms, _ => ms
  | multicastDiscovery announceIntervalMs timeoutMs, t =>
    if t = .announceTick then announceIntervalMs else if timeoutMs / 3 = 0 then 1 else timeoutMs / 3

end Component

/-- How often a callback takes the mutex of its object. `HeartbeatOnce` takes it once more for every heartbeat that it
has sent; between two sections it does nothing here, so two stand for all of them. -/
def Fn.sections : Fn → Nat
  | tick .heartbeatTick => 2
  | tick _ => 1
  | other _ => 0

/-- Who may hold the mutex of an object. -/
inductive Party
  | owner
  | scheduler
  deriving DecidableEq

/-- Where the owner of an object stands; `rest true` from the return of `Stop` to the next call of `Start` or `Stop`. -/
inductive OwnerPC
  | rest (stopped : Bool)
  | startLock
  | startCheck
  | startSocket
  | startAdd (t : Tick)
  | startReceiver
  | stopStore
  | stopLock
  | stopUnlock
  | stopRemove (t : Tick)
  | stopJoin
  deriving DecidableEq

/-- An object: `running_`, the ids of its tasks, the owner of `mutex_`, and whether a discovery's receive thread is
alive. -/
structure Obj where
  running : Bool
  ids : Tick → Nat
  mutex : Option Party
  receiving : Bool
  pc : OwnerPC

def Obj.init : Obj := ⟨false, fun _ => 0, none, false, .rest false⟩

/-- The callbacks of this round not called yet, the one the thread is in, how often that still takes its mutex and
whether it has it. -/
inductive WorkerPC (ω : Type)
  | exited
  | top
  | lock
  | calling (pending : List (PendingTask Fn ω))
  | inTask (p : PendingTask Fn ω) (left : Nat) (holds : Bool) (pending : List (PendingTask Fn ω))
  deriving DecidableEq

def WorkerPC.collected {ω : Type} : WorkerPC ω → List (PendingTask Fn ω)
  | calling pending => pending
  | inTask p _ _ pending => p :: pending
  | _ => []

structure State (ω : Type) where
  sched : Scheduler Fn ω
  running : Bool
  clock : Nat
  worker : WorkerPC ω
  obj : ω → Obj

/-- The owner calls `Start` and `Stop` by turns; `ok` is the system's answer. Other users add and remove tasks at any
time. -/
inductive Act (ω : Type)
  | tick (ns : Nat)
  | schedulerStart
  | schedulerStop
  | worker
  | start (o : ω)
  | stop (o : ω)
  | owner (o : ω) (ok : Bool)
  | receiver (o : ω)
  | add (oneShot : Bool) (ms : Nat) (fn : Option Nat)
  | remove (taskId : Nat)

section

variable {ω : Type} [DecidableEq ω]

def State.set (s : State ω) (o : ω) (x : Obj) : State ω := { s with obj := update s.obj o x }

def State.goto (s : State ω) (o : ω) (pc : OwnerPC) : State ω := s.set o { s.obj o with pc := pc }

def workerNext (s : State ω) : Option (State ω) := match s.worker with
  | .exited => none
  | .top => some { s with worker := if s.running then .lock else .exited }
  | .lock => (collect s.clock s.sched.slots).map fun (slots, pending) =>
      { s with sched := { s.sched with slots := slots }, worker := .calling pending }
  | .calling [] => some { s with worker := .top }
  | .calling (p :: pending) => some { s with worker := .inTask p ((p.fn.map Fn.sections).getD 0) false pending }
  | .inTask p left holds pending =>
    match p.ctx, holds, left with
    | some o, true, left =>
      some { s.set o { s.obj o with mutex := none } with worker := .inTask p left false pending }
    | some o, false, left + 1 =>
      if (s.obj o).mutex = none then
        some { s.set o { s.obj o with mutex := some .scheduler } with worker := .inTask p left true pending }
      else none
    | _, _, _ => some { s with worker := .calling pending }

/-- `scheduler_->Add(…, tick, this)`. -/
def State.enrollTick (comp : ω → Component) (s : State ω) (o : ω) (t : Tick) : Scheduler Fn ω × Except TimerError Nat :=
  s.sched.add s.clock ((comp o).periodMs t) (some (.tick t)) (some o)

/-- The rest of `Start` after the answer of `Add`. -/
def afterAdd (comp : Component) (x : Obj) (t : Tick) (answer : Except TimerError Nat) : Obj :=
  let stored := match answer with
    | .ok taskId => { x with ids := update x.ids t taskId }
    | .error _ => x
  match comp, t with
  | .multicastDiscovery _ _, .announceTick => { stored with pc := .startAdd .timeoutTick }
  | .multicastDiscovery _ _, _ => { stored with pc := .startReceiver }
  | .nodeManager _, _ => match answer with
    | .ok _ => { stored with mutex := none, pc := .rest false }
    | .error _ => { stored with running := false, mutex := none, pc := .rest false }
  | .hsmNodeManager _, _ => match answer with
    | .ok _ => { stored with pc := .rest false }
    | .error _ => { stored with running := false, pc := .rest false }

def ownerNext (comp : ω → Component) (o : ω) (ok : Bool) (s : State ω) : Option (State ω) :=
  let x := s.obj o
  match x.pc, comp o with
  | .rest _, _ => none
  | .startLock, _ =>
    if x.mutex = none then some (s.set o { x with mutex := some .owner, pc := .startCheck }) else none
  | .startCheck, .nodeManager _ =>
    if x.running then some (s.set o { x with mutex := none, pc := .rest false })
    else some (s.set o { x with running := true, pc := .startAdd .heartbeatTick })
  | .startCheck, .hsmNodeManager _ =>
    if x.running then some (s.goto o (.rest false))
    else some (s.set o { x with running := true, pc := .startAdd .monitorTick })
  | .startCheck, .multicastDiscovery _ _ =>
    if x.running then some (s.goto o (.rest false)) else some (s.goto o .startSocket)
  | .startSocket, _ =>
    if ok then some (s.set o { x with running := true, pc := .startAdd .announceTick }) else some (s.goto o (.rest false))
  | .startAdd t, c =>
    let (sched, answer) := s.enrollTick comp o t
    some ({ s with sched := sched }.set o (afterAdd c x t answer))
  | .startReceiver, _ =>
    if ok then some (s.set o { x with receiving := true, pc := .rest false })
    else some (s.set o { x with running := false, pc := .rest false })
  | .stopStore, .nodeManager _ => some (s.set o { x with running := false, pc := .stopRemove .heartbeatTick })
  | .stopStore, .hsmNodeManager _ => some (s.set o { x with running := false, pc := .stopRemove .monitorTick })
  | .stopStore, .multicastDiscovery _ _ =>
    if x.running then some (s.set o { x with running := false, pc := .stopLock }) else some (s.goto o (.rest true))
  | .stopLock, _ =>
    -- under the mutex the sockets are closed
    if x.mutex = none then some (s.set o { x with mutex := some .owner, pc := .stopUnlock }) else none
  | .stopUnlock, .multicastDiscovery _ _ => some (s.set o { x with mutex := none, pc := .stopRemove .announceTick })
  | .stopUnlock, _ => some (s.set o { x with mutex := none, pc := .rest true })
  | .stopRemove t, c =>
    let s' := { s with sched := (s.sched.remove (x.ids t)).1 }
    match c, t with
    | .multicastDiscovery _ _, .announceTick => some (s'.goto o (.stopRemove .timeoutTick))
    | .multicastDiscovery _ _, _ => some (s'.goto o .stopJoin)
    | _, _ => some (s'.goto o .stopLock)
  | .stopJoin, _ => if x.receiving then none else some (s.goto o (.rest true))

def next (comp : ω → Component) : Act ω → State ω → Option (State ω)
  | .tick ns, s => some { s with clock := s.clock + ns }
  | .schedulerStart, s => if s.worker = .exited then some { s with running := true, worker := .top } else none
  | .schedulerStop, s => some { s with running := false }
  | .worker, s => workerNext s
  | .start o, s =>
    match (s.obj o).pc, comp o with
    | .rest _, .nodeManager _ => some (s.goto o .startLock)
    | .rest _, _ => some (s.goto o .startCheck)
    | _, _ => none
  | .stop o, s =>
    match (s.obj o).pc with
    | .rest _ => some (s.goto o .stopStore)
    | _ => none
  | .owner o ok, s => ownerNext comp o ok s
  -- the receive loop ends once it sees `running_` cleared
  | .receiver o, s =>
    if (s.obj o).receiving && !(s.obj o).running then some (s.set o { s.obj o with receiving := false }) else none
  | .add oneShot ms fn, s => some { s with sched := (s.sched.enroll oneShot s.clock ms (fn.map .other) none).1 }
  | .remove taskId, s => some { s with sched := (s.sched.remove taskId).1 }

def machine (comp : ω → Component) (maxTasks : Nat) : Machine (State ω) (Act ω) where
  init := ⟨.init maxTasks, false, 0, .exited, fun _ => .init⟩
  next := next comp

end

end Newosp.Timer
