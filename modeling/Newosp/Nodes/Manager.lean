import Newosp.Lib.Counter
import Newosp.Lib.Machine
import Newosp.Nodes.EventLoop

/-!
# `NodeManager`, one critical section at a time

Everything the manager keeps changes under its mutex, so a run is a sequence of critical sections, of the users' calls
and of the loop thread. What that does outside the mutex (`Recv`, `Send`, the disconnect callback) changes nothing here;
the answers of the system are part of the action, and a call from the callback is one more action.
-/

namespace Newosp.Nodes
open Lib

inductive NodeManagerError
  | tableFull
  | connectionFailed
  | bindFailed
  | notFound
  | alreadyRunning
  | notRunning
  deriving DecidableEq

/-- The template parameter and the part of `NodeManagerConfig` that is read; `wakeFd` is the wake pipe of the loop. -/
structure NodeConfig where
  maxNodes : Nat
  heartbeatIntervalMs : Nat
  heartbeatTimeoutCount : Nat
  wakeFd : Int
  wakes : 0 ≤ wakeFd

structure NodeEntry where
  nodeId : Nat
  socket : Int
  listener : Int
  lastHeartbeatUs : Nat
  active : Bool
  isListener : Bool
  serial : Nat
  deriving DecidableEq

def NodeEntry.empty : NodeEntry := ⟨0, -1, -1, 0, false, false, 0⟩

/-- Where the heartbeat round is: the targets still to be sent to, and a timestamp that is still to be written back. -/
inductive Round
  | idle
  | sending (targets : List (Nat × Int))
  | writing (nodeId : Nat) (fd : Int) (timestamp : Nat) (targets : List (Nat × Int))
  deriving DecidableEq

structure State where
  running : Bool
  nextNodeId : Nat
  nodeCount : Nat
  nodes : List NodeEntry
  loop : EventLoop
  clock : Nat
  results : List PollResult
  round : Round
  created : Nat
  deriving DecidableEq

/-- `AllocNodeId`: the id and the next one. -/
def allocNodeId (next : Nat) : Nat × Nat :=
  let following := (next + 1) % 65536
  (next, if following = 0 then 1 else following)

def findSlot (nodes : List NodeEntry) : Option Nat := nodes.findIdx? (!·.active)

def findNode (nodes : List NodeEntry) (id : Nat) : Option Nat := nodes.findIdx? fun n => n.active && n.nodeId = id

/-- `TcpSocket::Close` and `TcpListener::Close`, as the kernel sees them. -/
def closeFd (l : EventLoop) (fd : Int) : EventLoop := if fd ≥ 0 then l.close fd else l

/-- A new node in slot `i`. The move assignment of its socket closes the one that was there. -/
def State.place (s : State) (i : Nat) (entry : NodeEntry) (loop : EventLoop) : State := { s with
    nextNodeId := (allocNodeId s.nextNodeId).2
    nodeCount := s.nodeCount + 1
    nodes := s.nodes.set i entry
    loop
    created := s.created + 1 }

/-- `CreateListener`. `opened` is the listening socket, or nothing if the system refuses one of the calls, which closes it
again. -/
def createListener (opened : Option Int) (s : State) : Except NodeManagerError Nat × State :=
  match findSlot s.nodes with
  | none => (.error .tableFull, s)
  | some i => match opened, s.nodes[i]? with
    | some fd, some slot =>
      let id := (allocNodeId s.nextNodeId).1
      (.ok id, s.place i { slot with
        nodeId := id, listener := fd, lastHeartbeatUs := s.clock, active := true, isListener := true, serial := s.created }
        (closeFd s.loop slot.listener))
    | _, _ => (.error .bindFailed, s)

/-- `Connect`. `opened` is the connected socket, if any; `accepted`, which the caller does not see, says whether the
kernel registers it. -/
def connect (opened : Option Int) (accepted : Bool) (s : State) : Except NodeManagerError Nat × State :=
  match findSlot s.nodes with
  | none => (.error .tableFull, s)
  | some i => match opened, s.nodes[i]? with
    | some fd, some slot =>
      let id := (allocNodeId s.nextNodeId).1
      (.ok id, s.place i { slot with
        nodeId := id, socket := fd, lastHeartbeatUs := s.clock, active := true, isListener := false, serial := s.created }
        (let loop := closeFd s.loop slot.socket
        loop.ignore (loop.addFd fd id accepted)))
    | _, _ => (.error .connectionFailed, s)

def NodeEntry.shut (n : NodeEntry) : NodeEntry :=
  if n.isListener then { n with listener := -1, active := false } else { n with socket := -1, active := false }

def State.drop (s : State) (i : Nat) (n : NodeEntry) : State := { s with
    nodes := s.nodes.set i n.shut
    nodeCount := s.nodeCount - 1
    loop := if n.isListener then closeFd s.loop n.listener
      else closeFd (s.loop.ignore (s.loop.removeFd n.socket)) n.socket }

def disconnect (id : Nat) (s : State) : Except NodeManagerError Unit × State := match findNode s.nodes id with
  | none => (.error .notFound, s)
  | some i => match s.nodes[i]? with
    | none => (.error .notFound, s)
    | some n => (.ok (), s.drop i n)

def isConnected (id : Nat) (s : State) : Bool := (findNode s.nodes id).isSome

/-- `Start`; `started` is whether the timer and the loop thread could be started. -/
def start (started : Bool) (s : State) : Except NodeManagerError Unit × State :=
  if s.running then (.error .alreadyRunning, s)
  else if started then (.ok (), { s with running := true })
  else (.error .notRunning, s)

/-- The descriptors that `Stop` closes. -/
def NodeEntry.fds (n : NodeEntry) : List Int := if n.active then [if n.isListener then n.listener else n.socket] else []

def stop (s : State) : State := { s with
    running := false
    nodes := s.nodes.map fun n => if n.active then n.shut else n
    nodeCount := 0
    loop := (s.nodes.flatMap NodeEntry.fds).foldl closeFd s.loop }

/-- What `Recv` says in `OnFd`. -/
inductive Received
  | data
  | closed
  | again
  | failed
  deriving DecidableEq

def State.ownerOf (s : State) (nodeId : Nat) (fd : Int) : Option (Nat × NodeEntry) :=
  match findNode s.nodes nodeId with
  | none => none
  | some i => match s.nodes[i]? with
    | none => none
    | some n => if n.socket = fd then some (i, n) else none

def State.refresh (s : State) (nodeId : Nat) (fd : Int) (timestamp : Nat) : State := match s.ownerOf nodeId fd with
  | none => s
  | some (i, n) => { s with nodes := s.nodes.set i { n with lastHeartbeatUs := timestamp } }

def disconnectByNodeId (nodeId : Nat) (fd : Int) (s : State) : State := match s.ownerOf nodeId fd with
  | none => s
  | some (i, n) => { s with
      nodes := s.nodes.set i { n with socket := -1, active := false }
      nodeCount := s.nodeCount - 1
      loop := closeFd (s.loop.ignore (s.loop.removeFd fd)) n.socket }

def onFd (r : PollResult) (answer : Received) (s : State) : State :=
  let nodeId := r.userData % 65536
  if r.events &&& kReadable = 0 then s
  else match answer with
    | .data => s.refresh nodeId r.fd s.clock
    | .closed | .failed => disconnectByNodeId nodeId r.fd s
    | .again => s

def timeoutUs (cfg : NodeConfig) : Nat := wrapTo 64 (cfg.heartbeatIntervalMs * cfg.heartbeatTimeoutCount * 1000)

/-- A connection whose last heartbeat is too old. -/
def overdue (cfg : NodeConfig) (now : Nat) (n : NodeEntry) : Bool :=
  n.active && !n.isListener && timeoutUs cfg < subTo 64 now n.lastHeartbeatUs

/-- `CollectTimeouts`: the sockets are closed, and stay in the table of the loop. -/
def collectTimeouts (cfg : NodeConfig) (s : State) : State := { s with
    nodes := s.nodes.map fun n => if overdue cfg s.clock n then { n with socket := -1, active := false } else n
    nodeCount := s.nodeCount - s.nodes.countP (overdue cfg s.clock)
    loop := ((s.nodes.filter (overdue cfg s.clock)).map NodeEntry.socket).foldl closeFd s.loop }

def targets (nodes : List NodeEntry) : List (Nat × Int) :=
  (nodes.filter fun n => n.active && !n.isListener).map fun n => (n.nodeId, n.socket)

/-- `HeartbeatOnce`, one section after the other; `sent` is whether the whole frame was sent. -/
def heartbeatOnce (cfg : NodeConfig) (sent : Bool) (s : State) : State := match s.round with
  | .idle => { s with round := .sending (targets s.nodes) }
  | .sending ((nodeId, fd) :: rest) =>
    if fd < 0 ∨ sent = false then { s with round := .sending rest }
    else { s with round := .writing nodeId fd s.clock rest }
  | .writing nodeId fd timestamp rest => { s.refresh nodeId fd timestamp with round := .sending rest }
  | .sending [] => { collectTimeouts cfg s with round := .idle }

/-- The calls of the users, the passing of time, and the sections of the loop thread: `Wait`, `OnFd`, the heartbeat
round. -/
inductive Act
  | createListener (opened : Option Int)
  | connect (opened : Option Int) (accepted : Bool)
  | disconnect (nodeId : Nat)
  | start (started : Bool)
  | stop
  | tick (now : Nat)
  | wait (ready : List (Int × Nat))
  | onFd (answer : Received)
  | heartbeat (sent : Bool)

/-- The system hands out a descriptor that is not open. -/
def Fresh (cfg : NodeConfig) (s : State) (fd : Int) : Prop :=
  0 ≤ fd ∧ fd ≠ cfg.wakeFd ∧ ∀ n ∈ s.nodes, n.socket ≠ fd ∧ n.listener ≠ fd

instance (cfg : NodeConfig) (s : State) (fd : Int) : Decidable (Fresh cfg s fd) := inferInstanceAs (Decidable (_ ∧ _))

def next (cfg : NodeConfig) : Act → State → Option State
  | .createListener opened, s => if ∀ fd ∈ opened, Fresh cfg s fd then some (createListener opened s).2 else none
  | .connect opened accepted, s => if ∀ fd ∈ opened, Fresh cfg s fd then some (connect opened accepted s).2 else none
  | .disconnect nodeId, s => some (disconnect nodeId s).2
  | .start started, s => some (start started s).2
  | .stop, s => some (stop s)
  | .tick now, s => if s.clock ≤ now then some { s with clock := now } else none
  | .wait ready, s =>
    if s.results = [] ∧ ∀ r ∈ ready, r.1 ∈ s.loop.poller.watched then
      some { s with results := ready.map fun r => ⟨r.1, r.2, s.loop.poller.lookupTag r.1⟩ }
    else none
  | .onFd answer, s => match s.results with
    | [] => none
    | r :: rest =>
      -- the wake pipe is skipped
      if r.fd = cfg.wakeFd then some { s with results := rest } else some { onFd r answer s with results := rest }
  | .heartbeat sent, s => some (heartbeatOnce cfg sent s)

/-- The manager as it is constructed, with the wake pipe registered. -/
def machine (cfg : NodeConfig) : Machine State Act where
  init := {
    running := false
    nextNodeId := 1
    nodeCount := 0
    nodes := List.replicate cfg.maxNodes .empty
    loop := ⟨List.replicate (cfg.maxNodes + 1) ⟨-1, false⟩, ⟨[cfg.wakeFd], [⟨cfg.wakeFd, 0⟩]⟩⟩
    clock := 0
    results := []
    round := .idle
    created := 0 }
  next := next cfg

/-! ### What the searches find -/

section

variable {s : State} {i : Nat} {n : NodeEntry}

theorem findSlot_found (found : findSlot s.nodes = some i) : ∃ slot, s.nodes[i]? = some slot ∧ slot.active = false := by
  obtain ⟨slot,here,free⟩ := findIdx?_found found
  exact ⟨slot,here,by rwa [Bool.not_eq_true'] at free⟩

theorem findNode_found {id : Nat} (found : findNode s.nodes id = some i) :
    ∃ n, s.nodes[i]? = some n ∧ n.active = true ∧ n.nodeId = id := by
  obtain ⟨n,here,passes⟩ := findIdx?_found found
  rw [Bool.and_eq_true, decide_eq_true_eq] at passes
  exact ⟨n,here,passes.1,passes.2⟩

theorem ownerOf_found {nodeId : Nat} {fd : Int} (found : s.ownerOf nodeId fd = some (i, n)) :
    s.nodes[i]? = some n ∧ n.active = true ∧ n.nodeId = nodeId ∧ n.socket = fd := by
  unfold State.ownerOf at found
  split at found
  · cases found
  · rename_i j located
    obtain ⟨m,here,active,named⟩ := findNode_found located
    simp only [here] at found
    obtain ⟨_,⟨⟩⟩ := enabled found
    exact ⟨here,active,named,‹_›⟩

end

/-- Nodes with a timeout of three seconds; the wake pipe is descriptor 3. -/
def threeSeconds (maxNodes : Nat) : NodeConfig := ⟨maxNodes, 1000, 3, 3, by decide⟩

end Newosp.Nodes
