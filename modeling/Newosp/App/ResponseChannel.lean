import Mathlib.Tactic.Simps.Basic
import Newosp.Lib.Machine

/-!
# `OspSendAndWait` and the application threads

Calls of `OspSendAndWait` and `OspPost` (`ι`) run beside one thread in `ProcessOne` per `Application` (`κ`). Every
atomic access, lock operation and access to a `ResponseChannel` is one step; a channel is named by its call. Failures of
`new`, timeouts and calls of `Reply` are up to the schedule.
-/

namespace Newosp.App
open Lib Function

/-- The `PostError` values `OspSendAndWait` returns. -/
inductive PostError
  | kAppNotFound
  | kTimeout
  | kSendFailed
  | kAllocFailed
deriving DecidableEq, Repr

/-- What a call returns: the `expected` of `OspSendAndWait` or the flag of `OspPost`. -/
inductive Result
  | success (len : Nat)
  | error (e : PostError)
  | posted (ok : Bool)
deriving DecidableEq, Repr

/-- One call: `OspSendAndWait` if `sync`, else `OspPost`; `data` is `none` for a null pointer. -/
structure Request where
  sync : Bool
  dstNode : Nat
  dstIid : Nat
  len : Nat
  ackBuf : Bool
  ackBufSize : Nat
  event : Nat
  data : Option (Nat → UInt8)

def getAppId (iid : Nat) : Nat := (iid >>> 16) % 65536

def getInsId (iid : Nat) : Nat := iid &&& 0xFFFF

def kInsEach : Nat := 0xFFFF

/-- The build constants, the registry and the instances, which no call changes. -/
structure Setup (κ : Type) where
  entries : List (Nat × κ)
  queueDepth : Nat
  depth_pos : 0 < queueDepth
  inlineSize : Nat
  dataSize : Nat
  maxInstances : Nat
  instances : κ → Nat → Bool

/-- `AppMessage`; the payload is the `DataLen()` bytes at `Data()`. -/
structure AppMessage (ι : Type) where
  insId : Nat
  event : Nat
  payload : List UInt8
  responseChannel : Option ι

def kMaxDataLen : Nat := 0x00FFFFFF

/-- The payload after `AppMessage::Store`. -/
def store (inlineSize : Nat) (data : Option (Nat → UInt8)) (len : Nat) : List UInt8 :=
  match data with
  | none => []
  | some bytes =>
    if len = 0 then []
    else
      let len := if len > kMaxDataLen then kMaxDataLen else len
      if len ≤ inlineSize then (List.range len).map bytes else []

/-- `ResponseChannel` and its history. -/
structure ResponseChannel where
  mtx : Bool
  data : Nat → UInt8
  dataLen : Nat
  replied : Bool
  refCount : Int
  born : Bool
  acquired : Bool
  frees : Nat
  misuses : Nat

namespace ResponseChannel

/-- Memory before the call allocates its channel. -/
def unborn : ResponseChannel := ⟨false, fun _ => 0, 0, false, 1, false, false, 0, 0⟩

/-- Any access: it is a misuse once the channel has been deleted. -/
def touch (ch : ResponseChannel) : ResponseChannel := { ch with misuses := ch.misuses + if 0 < ch.frees then 1 else 0 }

def acquire (ch : ResponseChannel) : ResponseChannel := { ch.touch with refCount := ch.refCount + 1, acquired := true }

/-- The `fetch_sub` of `Release`. -/
def drop (ch : ResponseChannel) : ResponseChannel := { ch.touch with refCount := ch.refCount - 1 }

def delete (ch : ResponseChannel) : ResponseChannel := { ch.touch with frees := ch.frees + 1 }

end ResponseChannel

/-- Program counters of `OspSendAndWait` and `OspPost`; from `find` to `unlockPost` in `PostLocal`
and `Application::Post`. -/
inductive PC (κ : Type)
  | idle
  | check
  | alloc
  | find
  | lockPost (k : κ)
  | loadTail (k : κ)
  | loadHead (k : κ) (tail : Nat)
  | writeMsg (k : κ) (tail : Nat)
  | storeTail (k : κ) (tail : Nat)
  | unlockPost (k : κ) (ok : Bool)
  | failRelease
  | failDelete
  | acquire
  | lockCh
  | testReplied
  | waitUnlock
  | blocked
  | wake (timedOut : Bool)
  | readReplied
  | readLen
  | copy (len : Nat)
  | unlockCh (r : Result)
  | release (r : Result)
  | delete (r : Result)
  | done (r : Result)
deriving DecidableEq

/-- Where `ProcessOne` goes on after a handler: the loop over all instances, or its end. -/
inductive After
  | each (i : Nat)
  | last
deriving DecidableEq

/-- Program counters of `ProcessOne`; `head` is its local. -/
inductive AppPC (ι : Type)
  | idle
  | loadTail (head : Nat)
  | each (head i : Nat)
  | single (head : Nat)
  | handler (head : Nat) (ch : Option ι) (after : After)
  | replyLock (head : Nat) (ch : ι) (after : After) (buf : Option (Nat → UInt8)) (len : Nat)
  | replyLen (head : Nat) (ch : ι) (after : After) (buf : Option (Nat → UInt8)) (len : Nat)
  | replyCopy (head : Nat) (ch : ι) (after : After) (buf : Option (Nat → UInt8))
  | replySet (head : Nat) (ch : ι) (after : After)
  | replyUnlock (head : Nat) (ch : ι) (after : After)
  | release (head : Nat)
  | delete (head : Nat) (ch : ι)
  | storeHead (head : Nat)

/-- One `Application` and its thread, with the messages posted so far and how many of them
`ProcessOne` is done with. -/
structure AppState (ι : Type) where
  queue : Nat → AppMessage ι
  queueHead : Nat
  queueTail : Nat
  postMutex : Option ι
  pc : AppPC ι
  posted : List (AppMessage ι)
  processed : Nat

structure State (ι κ : Type) where
  chan : ι → ResponseChannel
  pc : ι → PC κ
  app : κ → AppState ι

/-- Who moves. `flag` decides whether `new` fails and whether a wait times out. -/
inductive Act (ι κ : Type)
  | call (i : ι) (flag : Bool)
  | app (k : κ)
  | reply (k : κ) (buf : Option (Nat → UInt8)) (len : Nat)

section

variable {ι κ : Type} [DecidableEq ι] [DecidableEq κ] (cfg : Setup κ) (req : ι → Request)

def State.goto (s : State ι κ) (i : ι) (pc : PC κ) : State ι κ := { s with pc := update s.pc i pc }

def State.setChan (s : State ι κ) (i : ι) (ch : ResponseChannel) : State ι κ := { s with chan := update s.chan i ch }

def State.setApp (s : State ι κ) (k : κ) (a : AppState ι) : State ι κ := { s with app := update s.app k a }

def Request.message (r : Request) (i : ι) : AppMessage ι :=
  ⟨getInsId r.dstIid, r.event, store cfg.inlineSize r.data r.len, if r.sync then some i else none⟩

def failedPost (r : Request) : PC κ := if r.sync then .failRelease else .done (.posted false)

def callNext (i : ι) (flag : Bool) (s : State ι κ) : Option (State ι κ) :=
  let r := req i
  let ch := s.chan i
  match s.pc i with
  | .done _ => none
  | .idle => some <| s.goto i .check
  | .check =>
    some <| s.goto i <|
      if r.dstNode ≠ 0 then .done (if r.sync then .error .kSendFailed else .posted false)
      else if r.sync then .alloc else .find
  | .alloc =>
    if flag then some <| s.goto i (.done (.error .kAllocFailed))
    else some <| (s.setChan i { ResponseChannel.unborn with born := true }).goto i .find
  | .find =>
    some <| s.goto i <|
      match cfg.entries.find? (fun e => e.1 = getAppId r.dstIid) with
      | none => failedPost r
      | some (_, k) => if cfg.inlineSize < r.len then failedPost r else .lockPost k
  | .lockPost k =>
    let a := s.app k
    if a.postMutex = none then some <| (s.setApp k { a with postMutex := some i }).goto i (.loadTail k)
    else none
  | .loadTail k => some <| s.goto i (.loadHead k (s.app k).queueTail)
  | .loadHead k tail =>
    some <| s.goto i <|
      if (tail + 1) % cfg.queueDepth = (s.app k).queueHead then .unlockPost k false else .writeMsg k tail
  | .writeMsg k tail =>
    let a := s.app k
    some <| (s.setApp k { a with queue := update a.queue tail (r.message cfg i) }).goto i
      (.storeTail k tail)
  | .storeTail k tail =>
    let a := s.app k
    some <| (s.setApp k { a with queueTail := (tail + 1) % cfg.queueDepth,
                                 posted := a.posted ++ [r.message cfg i] }).goto i (.unlockPost k true)
  | .unlockPost k ok =>
    some <| (s.setApp k { s.app k with postMutex := none }).goto i <|
      if ok then if r.sync then .acquire else .done (.posted true) else failedPost r
  | .failRelease =>
    some <| (s.setChan i ch.drop).goto i <|
      if ch.refCount = 1 then .failDelete else .done (.error .kAppNotFound)
  | .failDelete => some <| (s.setChan i ch.delete).goto i (.done (.error .kAppNotFound))
  | .acquire => some <| (s.setChan i ch.acquire).goto i .lockCh
  | .lockCh =>
    if ch.mtx then none else some <| (s.setChan i { ch.touch with mtx := true }).goto i .testReplied
  | .testReplied =>
    some <| (s.setChan i ch.touch).goto i (if ch.replied then .readReplied else .waitUnlock)
  | .waitUnlock => some <| (s.setChan i { ch.touch with mtx := false }).goto i .blocked
  | .blocked =>
    -- notified, woken without cause or timed out: the wait returns with the lock held
    if ch.mtx then none else some <| (s.setChan i { ch.touch with mtx := true }).goto i (.wake flag)
  | .wake timedOut =>
    some <| (s.setChan i ch.touch).goto i <|
      if ch.replied ∨ timedOut = true then .readReplied else .waitUnlock
  | .readReplied =>
    some <| (s.setChan i ch.touch).goto i <|
      if ch.replied then .readLen else .unlockCh (.error .kTimeout)
  | .readLen => some <| (s.setChan i ch.touch).goto i (.copy (min ch.dataLen r.ackBufSize))
  | .copy len =>
    let read := if r.ackBuf ∧ 0 < len then ch.touch else ch
    some <| (s.setChan i read).goto i (.unlockCh (.success len))
  | .unlockCh res => some <| (s.setChan i { ch.touch with mtx := false }).goto i (.release res)
  | .release res =>
    some <| (s.setChan i ch.drop).goto i (if ch.refCount = 1 then .delete res else .done res)
  | .delete res => some <| (s.setChan i ch.delete).goto i (.done res)

/-- The loop head after a handler has returned. -/
def After.next (head : Nat) : After → AppPC ι
  | .each i => .each head (i + 1)
  | .last => .release head

/-- One step of the thread of application `k`; a handler that takes it returns. -/
def appNext (k : κ) (s : State ι κ) : Option (State ι κ) :=
  let a := s.app k
  let at' (pc : AppPC ι) : State ι κ := s.setApp k { a with pc := pc }
  match a.pc with
  | .idle => some <| at' (.loadTail a.queueHead)
  | .loadTail head =>
    some <| at' <|
      if head = a.queueTail then .idle
      else if (a.queue head).insId = kInsEach then .each head 0 else .single head
  | .each head i =>
    some <| at' <|
      if i < cfg.maxInstances then
        if cfg.instances k i then .handler head (a.queue head).responseChannel (.each i)
        else .each head (i + 1)
      else .release head
  | .single head =>
    let insId := (a.queue head).insId
    some <| at' <|
      if insId ≠ 0 ∧ insId ≤ cfg.maxInstances ∧ cfg.instances k (insId - 1) = true then
        .handler head (a.queue head).responseChannel .last
      else .release head
  | .handler head _ after => some <| at' (after.next head)
  | .replyLock head i after buf len =>
    let ch := s.chan i
    if ch.mtx then none
    else some <| (at' (.replyLen head i after buf len)).setChan i { ch.touch with mtx := true }
  | .replyLen head i after buf len =>
    some <| (at' (.replyCopy head i after buf)).setChan i
      { (s.chan i).touch with dataLen := if len ≤ cfg.dataSize then len else cfg.dataSize }
  | .replyCopy head i after buf =>
    let ch := s.chan i
    some <| (at' (.replySet head i after)).setChan i <|
      match buf with
      | some bytes => { ch.touch with data := fun j => if j < ch.dataLen then bytes j else ch.data j }
      | none => ch.touch
  | .replySet head i after =>
    some <| (at' (.replyUnlock head i after)).setChan i { (s.chan i).touch with replied := true }
  | .replyUnlock head i after =>
    some <| (at' (.handler head (some i) after)).setChan i { (s.chan i).touch with mtx := false }
  | .release head =>
    match (a.queue head).responseChannel with
    | none => some <| at' (.storeHead head)
    | some i =>
      some <| (at' (if (s.chan i).refCount = 1 then .delete head i else .storeHead head)).setChan i
        (s.chan i).drop
  | .delete head i => some <| (at' (.storeHead head)).setChan i (s.chan i).delete
  | .storeHead head =>
    some <| s.setApp k { a with queueHead := (head + 1) % cfg.queueDepth, pc := .idle,
                                processed := a.processed + 1 }

/-- The running handler of application `k` calls `Reply`; without a channel that returns false. -/
def replyNext (k : κ) (buf : Option (Nat → UInt8)) (len : Nat) (s : State ι κ) : Option (State ι κ) :=
  match (s.app k).pc with
  | .handler head (some i) after =>
    some <| s.setApp k { s.app k with pc := .replyLock head i after buf len }
  | .handler _ none _ => some s
  | _ => none

def next : Act ι κ → State ι κ → Option (State ι κ)
  | .call i flag, s => callNext cfg req i flag s
  | .app k, s => appNext cfg k s
  | .reply k buf len, s => replyNext k buf len s

/-- Empty queues and no running call. -/
def State.init : State ι κ where
  chan := fun _ => .unborn
  pc := fun _ => .idle
  app := fun _ => ⟨fun _ => ⟨0, 0, [], none⟩, 0, 0, none, .idle, [], 0⟩

/-- The calls and the application threads. -/
def machine : Machine (State ι κ) (Act ι κ) := ⟨.init, next cfg req⟩

end

attribute [simps -fullyApplied] State.goto State.setChan State.setApp

end Newosp.App
