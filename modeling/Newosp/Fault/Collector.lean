import Mathlib.Data.Fin.VecNotation
import Newosp.Breaker.Breaker
import Newosp.Mpsc.EventQueue

/-!
# `FaultCollector` one access at a time

Any number of `ReportFault` calls (`ι`) run beside the consumer thread and one call of `Stop`. Every access to an atomic
word is one step; the four queues take the steps of `Newosp.Mpsc`, with the reports and the escalations as their
callers. The breaker's read-modify-write loop is one step. The timed wait may end at any time, so the semaphore is left
out, and so is the ring of recent faults, which only diagnostics read.
-/

namespace Newosp.Fault
open Lib Function

inductive FaultPriority
  | kCritical
  | kHigh
  | kMedium
  | kLow
  deriving DecidableEq

inductive HookAction
  | kHandled
  | kEscalate
  | kDefer
  | kShutdown
  deriving DecidableEq

inductive FaultCollectorError
  | kQueueFull
  | kInvalidIndex
  deriving DecidableEq

namespace FaultPriority

def code : FaultPriority → Nat
  | kCritical => 0
  | kHigh => 1
  | kMedium => 2
  | kLow => 3

/-- The priority of a value; the values above 3 are never stored. -/
def ofCode : Nat → FaultPriority
  | 0 => kCritical
  | 1 => kHigh
  | 2 => kMedium
  | _ => kLow

/-- `pri - 1U`; nothing above `kCritical`. -/
def higher : FaultPriority → Option FaultPriority
  | kCritical => none
  | kHigh => some kCritical
  | kMedium => some kHigh
  | kLow => some kMedium

/-- `++pri` of the loops over the queues. -/
def lower : FaultPriority → Option FaultPriority
  | kCritical => some kHigh
  | kHigh => some kMedium
  | kMedium => some kLow
  | kLow => none

end FaultPriority

/-- `FaultEntry` without its padding. -/
structure FaultEntry where
  faultIndex : UInt16
  priority : FaultPriority
  detail : UInt32
  timestampUs : UInt64
  deriving DecidableEq

def FaultEntry.words (e : FaultEntry) : Mpsc.Entry 4 UInt64 :=
  ![e.faultIndex.toUInt64, UInt64.ofNat e.priority.code, e.detail.toUInt64, e.timestampUs]

def FaultEntry.ofWords (w : Mpsc.Entry 4 UInt64) : FaultEntry :=
  ⟨(w 0).toUInt16, .ofCode (w 1).toNat, (w 2).toUInt32, w 3⟩

structure FaultEvent where
  faultIndex : UInt16
  priority : FaultPriority
  faultCode : UInt32
  detail : UInt32
  timestampUs : UInt64
  occurrenceCount : Nat
  isFirst : Bool
  deriving DecidableEq

/-- The template arguments and the fault codes of the table. `QueueDepth * kPriorityLevels` is a divisor: a depth of
`2 ^ 30` or more makes it 0. -/
structure Config where
  queue : Mpsc.Config
  capacity : queue.logDepth ≤ 29
  maxFaults : Nat
  one_le : 1 ≤ maxFaults
  le_256 : maxFaults ≤ 256
  faultCode : UInt16 → UInt32

def kCooldownCycles : UInt16 := 100

namespace Config

variable (cfg : Config)

def queueDepth : Nat := cfg.queue.depth

def kLowThreshold : Nat := wrap32 (cfg.queueDepth * 60) / 100
def kMediumThreshold : Nat := wrap32 (cfg.queueDepth * 80) / 100
def kHighThreshold : Nat := wrap32 (cfg.queueDepth * 99) / 100

def admitByPriority (pri : FaultPriority) (currentDepth : Nat) : Bool := match pri with
  | .kCritical => true
  | .kHigh => currentDepth < cfg.kHighThreshold
  | .kMedium => currentDepth < cfg.kMediumThreshold
  | .kLow => currentDepth < cfg.kLowThreshold

/-- The watermark of the consumer loop: the total usage in percent of the total capacity. -/
def watermark (totalUsage : Nat) : UInt8 := UInt8.ofNat (wrap32 (totalUsage * 100) / wrap32 (cfg.queueDepth * 4))

end Config

/-! ### The active bitmap -/

abbrev Bitmap := Nat → BitVec 64

/-- `IsFaultActive`, for an index below `MaxFaults`. -/
def isFaultActive (bitmap : Bitmap) (faultIndex : UInt16) : Bool :=
  bitmap (faultIndex.toNat / 64) &&& 1#64 <<< (faultIndex.toNat % 64) ≠ 0#64

def setFaultActive (bitmap : Bitmap) (faultIndex : UInt16) : Bitmap := update bitmap (faultIndex.toNat / 64)
    (bitmap (faultIndex.toNat / 64) ||| 1#64 <<< (faultIndex.toNat % 64))

def clearFaultActive (bitmap : Bitmap) (faultIndex : UInt16) : Bitmap := update bitmap (faultIndex.toNat / 64)
    (bitmap (faultIndex.toNat / 64) &&& ~~~ (1#64 <<< (faultIndex.toNat % 64)))

/-! ### The threads -/

structure Stats where
  totalReported : Nat
  totalProcessed : Nat
  totalDropped : Nat
  reported : FaultPriority → Nat
  dropped : FaultPriority → Nat

/-- What `ReportFault` returns. -/
inductive Outcome
  | success
  | error (e : FaultCollectorError)
  deriving DecidableEq

inductive ReportPC
  | idle
  | loadProd
  | loadCons (prod : Nat)
  | pushing
  | addDropped
  | addTotalDropped
  | onOverflow
  | addReported
  | addTotalReported
  | setActive
  | done (outcome : Outcome)
  deriving DecidableEq

/-- Where a loop over the queues is: whether it is that of `DrainAll`, the queue, and the entries processed so far. -/
structure Visit where
  final : Bool
  pri : FaultPriority
  processed : Nat
  deriving DecidableEq

/-- Program counters of `ConsumerLoop`. From `popping` on it is in `DrainQueue`, from `count` to `addProcessed` in
`ProcessEntry`. -/
inductive ConsumerPC
  | loadRunning
  | loadShutdown
  | drain (v : Visit)
  | popping (v : Visit)
  | count (v : Visit) (entry : FaultEntry)
  | hook (v : Visit) (entry : FaultEntry) (event : FaultEvent)
  | clear (v : Visit) (entry : FaultEntry)
  | escalate (v : Visit) (entry : FaultEntry)
  | requestShutdown (v : Visit)
  | addProcessed (v : Visit)
  | dispatchCycle (processed : Nat)
  | sampleProd (processed : Nat) (pri : FaultPriority) (usage : Nat)
  | sampleCons (processed : Nat) (pri : FaultPriority) (usage prod : Nat)
  | onWatermark (processed usage : Nat)
  | wait
  | exited
  deriving DecidableEq

inductive StopPC
  | idle
  | loadRunning
  | storeRunning
  | join
  | returned
  deriving DecidableEq

/-- One call of a hook: the queue the entry was popped from, the event and the answer. -/
structure Hooked where
  queue : FaultPriority
  event : FaultEvent
  action : HookAction
  deriving DecidableEq

/-- The callers of the queues: the reports, and the escalations of the consumer by number. -/
abbrev Caller (ι : Type) := ι ⊕ Nat

structure State (ι : Type) where
  queues : FaultPriority → Mpsc.State (Caller ι) 4 UInt64
  bitmap : Bitmap
  occurrenceCount : UInt16 → Nat
  stats : Stats
  breaker : Nat
  running : Bool
  shutdownRequested : Bool
  escalations : Nat
  report : ι → FaultEntry
  pc : ι → ReportPC
  cpc : ConsumerPC
  stop : StopPC
  atStop : ι → ReportPC
  hooked : List Hooked

/-- A report is called with its arguments and time, takes its next step or copies a word; the consumer takes its next
step, copies a word of an entry, or gets a hook's answer; `Stop` is called or goes on. -/
inductive Act (ι : Type)
  | report (c : ι) (entry : FaultEntry)
  | reporter (c : ι) (spurious : Bool)
  | copyIn (c : ι) (i : Fin 4)
  | consumer (spurious : Bool)
  | copyOut (i : Fin 4)
  | copyEscalated (i : Fin 4)
  | answer (action : HookAction)
  | callStop
  | stopper

section

variable {ι : Type} [DecidableEq ι] (cfg : Config)

def State.goto (s : State ι) (c : ι) (pc : ReportPC) : State ι := { s with pc := update s.pc c pc }

def State.onQueue (s : State ι) (p : FaultPriority) (b : Mpsc.Act (Caller ι) 4 UInt64) : Option (State ι) :=
  (Mpsc.next cfg.queue b (s.queues p)).map fun q => { s with queues := update s.queues p q }

def ReportPC.pushed : Mpsc.PC 4 → ReportPC
  | .done true => .addReported
  | .done false => .addDropped
  | _ => .pushing

def reportNext (c : ι) (entry : FaultEntry) (s : State ι) : Option (State ι) :=
  if s.pc c = .idle then
    some <| { s with report := update s.report c entry }.goto c
      (if cfg.maxFaults ≤ entry.faultIndex.toNat then .done (.error .kInvalidIndex) else .loadProd)
  else none

def reporterNext (c : ι) (spurious : Bool) (s : State ι) : Option (State ι) :=
  let entry := s.report c
  let pri := entry.priority
  match s.pc c with
  | .idle | .done _ => none
  | .loadProd => some (s.goto c (.loadCons (s.queues pri).mem.producerPos))
  | .loadCons prod =>
    if cfg.admitByPriority pri (Mpsc.size prod (s.queues pri).mem.consumerPos) then
      (s.onQueue cfg pri (.push (.inl c) entry.words)).map (·.goto c .pushing)
    else some (s.goto c .addDropped)
  | .pushing =>
    (s.onQueue cfg pri (.producer (.inl c) spurious)).map fun s => s.goto c (.pushed ((s.queues pri).pc (.inl c)))
  | .addDropped =>
    let dropped := update s.stats.dropped pri (wrap64 (s.stats.dropped pri + 1))
    some <| { s with stats := { s.stats with dropped } }.goto c .addTotalDropped
  | .addTotalDropped =>
    let totalDropped := wrap64 (s.stats.totalDropped + 1)
    some <| { s with stats := { s.stats with totalDropped } }.goto c .onOverflow
  | .onOverflow =>
    some <| { s with breaker := Breaker.update kCooldownCycles s.breaker .overflow }.goto c (.done (.error .kQueueFull))
  | .addReported =>
    let reported := update s.stats.reported pri (wrap64 (s.stats.reported pri + 1))
    some <| { s with stats := { s.stats with reported } }.goto c .addTotalReported
  | .addTotalReported =>
    let totalReported := wrap64 (s.stats.totalReported + 1)
    some <| { s with stats := { s.stats with totalReported } }.goto c .setActive
  | .setActive => some <| { s with bitmap := setFaultActive s.bitmap entry.faultIndex }.goto c (.done .success)

def copyInNext (c : ι) (i : Fin 4) (s : State ι) : Option (State ι) :=
  if s.pc c = .pushing then s.onQueue cfg (s.report c).priority (.copyIn (.inl c) i) else none

/-- The next queue of a loop, or what follows it. -/
def Visit.leave (v : Visit) : ConsumerPC := match v.pri.lower with
  | some pri => .drain { v with pri }
  | none => if v.final then .exited else .dispatchCycle v.processed

def Visit.more (v : Visit) : ConsumerPC := .drain { v with processed := wrap32 (v.processed + 1) }

/-- Where the consumer goes on after a step of its `TryPop`. -/
def Visit.popped (v : Visit) : Mpsc.ConsumerPC 4 UInt64 → ConsumerPC
  | .done none => v.leave
  | .done (some out) => .count v (.ofWords out)
  | _ => .popping v

/-- Where the consumer goes on after a step of the `TryPush` of an escalation. -/
def Visit.pushed (v : Visit) (entry : FaultEntry) : Mpsc.PC 4 → ConsumerPC
  | .done _ => .addProcessed v
  | _ => .escalate v entry

/-- The event that `ProcessEntry` builds. -/
def eventOf (entry : FaultEntry) (prevCount : Nat) : FaultEvent where
  faultIndex := entry.faultIndex
  priority := entry.priority
  faultCode := cfg.faultCode entry.faultIndex
  detail := entry.detail
  timestampUs := entry.timestampUs
  occurrenceCount := wrap32 (prevCount + 1)
  isFirst := prevCount = 0

def consumerNext (spurious : Bool) (s : State ι) : Option (State ι) := match s.cpc with
  | .loadRunning =>
    some { s with cpc := if s.running then .loadShutdown else .drain ⟨true, .kCritical, 0⟩ }
  | .loadShutdown =>
    some { s with cpc := .drain ⟨s.shutdownRequested, .kCritical, 0⟩ }
  | .drain v => (s.onQueue cfg v.pri (.pop fun _ => 0)).map fun s => { s with cpc := .popping v }
  | .popping v =>
    (s.onQueue cfg v.pri .consumer).map fun s => { s with cpc := v.popped (s.queues v.pri).cpc }
  | .count v entry =>
    if cfg.maxFaults ≤ entry.faultIndex.toNat then some { s with cpc := v.more }
    else
      let prevCount := s.occurrenceCount entry.faultIndex
      some { s with occurrenceCount := update s.occurrenceCount entry.faultIndex (wrap32 (prevCount + 1))
                    cpc := .hook v entry (eventOf cfg entry prevCount) }
  | .hook _ _ _ => none
  | .clear v entry =>
    some { s with bitmap := clearFaultActive s.bitmap entry.faultIndex, cpc := .addProcessed v }
  | .escalate v entry =>
    match entry.priority.higher with
    | some pri => (s.onQueue cfg pri (.producer (.inr (s.escalations - 1)) spurious)).map fun s =>
        { s with cpc := v.pushed entry ((s.queues pri).pc (.inr (s.escalations - 1))) }
    | none => none
  | .requestShutdown v => some { s with shutdownRequested := true, cpc := .addProcessed v }
  | .addProcessed v =>
    let totalProcessed := wrap64 (s.stats.totalProcessed + 1)
    some { s with stats := { s.stats with totalProcessed }, cpc := v.more }
  | .dispatchCycle processed =>
    some { s with breaker := Breaker.update kCooldownCycles s.breaker .dispatchCycle
                  cpc := .sampleProd processed .kCritical 0 }
  | .sampleProd processed pri usage =>
    some { s with cpc := .sampleCons processed pri usage (s.queues pri).mem.producerPos }
  | .sampleCons processed pri usage prod =>
    let usage := wrap32 (usage + Mpsc.size prod (s.queues pri).mem.consumerPos)
    some { s with cpc := match pri.lower with
      | some pri => .sampleProd processed pri usage
      | none => .onWatermark processed usage }
  | .onWatermark processed usage =>
    some { s with breaker := Breaker.update kCooldownCycles s.breaker (.watermark (cfg.watermark usage))
                  cpc := if processed = 0 then .wait else .loadRunning }
  | .wait => some { s with cpc := .loadRunning }
  | .exited => none

def copyOutNext (i : Fin 4) (s : State ι) : Option (State ι) := match s.cpc with
  | .popping v => s.onQueue cfg v.pri (.copyOut i)
  | _ => none

def copyEscalatedNext (i : Fin 4) (s : State ι) : Option (State ι) := match s.cpc with
  | .escalate _ entry =>
    match entry.priority.higher with
    | some pri => s.onQueue cfg pri (.copyIn (.inr (s.escalations - 1)) i)
    | none => none
  | _ => none

def answerNext (action : HookAction) (s : State ι) : Option (State ι) := match s.cpc with
  | .hook v entry event =>
    let s : State ι := { s with hooked := s.hooked ++ [⟨v.pri, event, action⟩] }
    match action with
    | .kHandled => some { s with cpc := .clear v entry }
    | .kEscalate =>
      match entry.priority.higher with
      | none => some { s with cpc := .addProcessed v }
      | some pri =>
        (s.onQueue cfg pri (.push (.inr s.escalations) { entry with priority := pri }.words)).map fun s =>
          { s with escalations := s.escalations + 1, cpc := .escalate v entry }
    | .kDefer => some { s with cpc := .addProcessed v }
    | .kShutdown => some { s with cpc := .requestShutdown v }
  | _ => none

/-- `Stop`; the join waits for the end of the consumer thread. -/
def stopperNext (s : State ι) : Option (State ι) := match s.stop with
  | .idle | .returned => none
  | .loadRunning => some { s with stop := if s.running then .storeRunning else .returned }
  | .storeRunning => some { s with running := false, stop := .join }
  | .join => if s.cpc = .exited then some { s with stop := .returned } else none

def next : Act ι → State ι → Option (State ι)
  | .report c entry, s => reportNext cfg c entry s
  | .reporter c spurious, s => reporterNext cfg c spurious s
  | .copyIn c i, s => copyInNext cfg c i s
  | .consumer spurious, s => consumerNext cfg spurious s
  | .copyOut i, s => copyOutNext cfg i s
  | .copyEscalated i, s => copyEscalatedNext cfg i s
  | .answer action, s => answerNext cfg action s
  | .callStop, s => if s.stop = .idle then some { s with stop := .loadRunning, atStop := s.pc } else none
  | .stopper, s => stopperNext s

def State.init (entry : FaultEntry) : State ι where
  queues := fun _ => .init (fun _ _ => 0) (fun _ _ => 0)
  bitmap := fun _ => 0#64
  occurrenceCount := fun _ => 0
  stats := ⟨0, 0, 0, fun _ => 0, fun _ => 0⟩
  breaker := Breaker.pack Breaker.fresh
  running := true
  shutdownRequested := false
  escalations := 0
  report := fun _ => entry
  pc := fun _ => .idle
  cpc := .loadRunning
  stop := .idle
  atStop := fun _ => .idle
  hooked := []

/-- The collector; `entry` stands for the arguments of the reports that are not called yet. -/
def machine (entry : FaultEntry) : Machine (State ι) (Act ι) := ⟨.init entry, next cfg⟩

end

end Newosp.Fault
