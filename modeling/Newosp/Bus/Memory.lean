import Mathlib.Tactic.IntervalCases
import Newosp.Lib.Wrap

/-!
# The memory of `AsyncBus`

Priorities, headers and envelopes, the ring of nodes with their sequence words, the position words and the statistics.
Positions and message ids are `Nat`, reduced by `wrap32` and `wrap64` where the source computes them.
-/

namespace Newosp.Bus
open Lib

inductive MessagePriority
  | kLow
  | kMedium
  | kHigh
deriving DecidableEq, Repr

/-- The `uint8_t` value of a priority, as stored in `slot_priority`. -/
def MessagePriority.code : MessagePriority → Nat
  | .kLow => 0
  | .kMedium => 1
  | .kHigh => 2

theorem MessagePriority.high_le_code (p : MessagePriority) : MessagePriority.kHigh.code ≤ p.code ↔ p = .kHigh := by
  cases p <;> decide

inductive BusError
  | kQueueFull
  | kOverflowDetected
  | kCallbacksFull
deriving DecidableEq, Repr

structure MessageHeader where
  msgId : Nat
  timestampUs : UInt64
  senderId : UInt32
  topicHash : UInt32
  priority : MessagePriority
deriving DecidableEq, Repr

/-- The default constructor of `MessageHeader`. -/
def MessageHeader.empty : MessageHeader := ⟨0, 0, 0, 0, .kMedium⟩

/-- `MessageEnvelope`. -/
structure Envelope (α : Type) where
  header : MessageHeader
  payload : α
deriving DecidableEq

/-- The arguments of one `PublishInternal` call. -/
structure Request (α : Type) where
  payload : α
  senderId : UInt32
  timestampUs : UInt64
  priority : MessagePriority
  topicHash : UInt32

def Request.header {α : Type} (r : Request α) (msgId : Nat) : MessageHeader :=
  ⟨msgId, r.timestampUs, r.senderId, r.topicHash, r.priority⟩

def Request.envelope {α : Type} (r : Request α) (msgId : Nat) : Envelope α := ⟨r.header msgId, r.payload⟩

/-- What a publish call tells its caller: `true`, or `false` after `ReportError(error, id)`. -/
inductive Outcome
  | accepted
  | rejected (error : BusError) (currentId : Nat)
deriving DecidableEq, Repr

/-- `kMsgIdWrapThreshold`, that is `UINT64_MAX - 10000`. -/
def msgIdWrapThreshold : Nat := 18446744073709551615 - 10000

/-! ## Compile-time configuration -/

/-- `OSP_BUS_QUEUE_DEPTH` as a power of two, at most `0x7FFFFFFF` as the source asserts (one is left out), and
`OSP_BUS_BATCH_SIZE`. -/
structure Config where
  logDepth : Nat
  batchSize : Nat
  two_le : 1 ≤ logDepth
  asserted : logDepth ≤ 30

namespace Config

def queueDepth (cfg : Config) : Nat := 2 ^ cfg.logDepth

def index (cfg : Config) (pos : Nat) : Nat := pos &&& (cfg.queueDepth - 1)

/-- `kLowThreshold`, `kMediumThreshold`, `kHighThreshold`: 32-bit products, then divided. -/
def percent (cfg : Config) (p : Nat) : Nat := wrap32 (cfg.queueDepth * p) / 100

def getThresholdForPriority (cfg : Config) : MessagePriority → Nat
  | .kHigh => cfg.percent 99
  | .kMedium => cfg.percent 80
  | .kLow => cfg.percent 60

variable (cfg : Config)
include cfg

theorem queueDepth_two_le : 2 ≤ cfg.queueDepth := Nat.pow_le_pow_right Nat.two_pos cfg.two_le

theorem queueDepth_le : cfg.queueDepth ≤ 1073741824 := Nat.pow_le_pow_right Nat.two_pos cfg.asserted

@[simp] theorem index_eq (pos : Nat) : cfg.index pos = pos % cfg.queueDepth := and_mask cfg.logDepth pos

theorem wrap32_mod (pos : Nat) : wrap32 pos % cfg.queueDepth = pos % cfg.queueDepth := by
  rw [← index_eq, Config.index, Config.queueDepth, wrap32_mask (by have := cfg.asserted; omega)]

theorem percent_le (p : Nat) : cfg.percent p ≤ cfg.queueDepth * p / 100 := Nat.div_le_div_right (Nat.mod_le _ _)

theorem percent_of_fits {p : Nat} (fits : cfg.queueDepth * p < 4294967296) :
    cfg.percent p = cfg.queueDepth * p / 100 := by
  rw [percent, wrap32_of_lt fits]

theorem threshold_lt (p : MessagePriority) : cfg.getThresholdForPriority p < cfg.queueDepth := by
  have two := cfg.queueDepth_two_le
  cases p with
  | kLow => have := cfg.percent_le 60; simp only [getThresholdForPriority]; omega
  | kMedium => have := cfg.percent_le 80; simp only [getThresholdForPriority]; omega
  | kHigh => have := cfg.percent_le 99; simp only [getThresholdForPriority]; omega

theorem high_pos : 1 ≤ cfg.getThresholdForPriority .kHigh := by
  have lower := cfg.two_le
  have upper := cfg.asserted
  simp only [getThresholdForPriority, percent, queueDepth, wrap32]
  generalize cfg.logDepth = k at lower upper
  interval_cases k <;> decide

end Config

/-! ## Words and nodes -/

/-- `RingBufferNode`. -/
structure Node (α : Type) where
  sequence : Nat
  slotPriority : Nat
  header : MessageHeader
  payload : α

/-- `BusStatistics`. -/
structure Stats where
  messagesPublished : Nat
  messagesDropped : Nat
  messagesProcessed : Nat
  admissionRechecks : Nat
deriving DecidableEq, Repr

namespace Stats

def addPublished (st : Stats) : Stats := { st with messagesPublished := wrap64 (st.messagesPublished + 1) }

def addDropped (st : Stats) : Stats := { st with messagesDropped := wrap64 (st.messagesDropped + 1) }

def addProcessed (st : Stats) (n : Nat) : Stats := { st with messagesProcessed := wrap64 (st.messagesProcessed + n) }

def addRecheck (st : Stats) : Stats := { st with admissionRechecks := wrap64 (st.admissionRechecks + 1) }

end Stats

/-- The shared words of one bus. -/
structure Memory (α : Type) where
  ring : Nat → Node α
  producerPos : Nat
  cachedConsumerPos : Nat
  consumerPos : Nat
  nextMsgId : Nat
  stats : Stats

namespace Memory

variable {α : Type}

/-- The constructor of `AsyncBus`: node `i` starts with sequence `i`. -/
def init [Inhabited α] : Memory α where
  ring := fun i => ⟨i, MessagePriority.kMedium.code, .empty, default⟩
  producerPos := 0
  cachedConsumerPos := 0
  consumerPos := 0
  nextMsgId := 1
  stats := ⟨0, 0, 0, 0⟩

def setNode (m : Memory α) (i : Nat) (n : Node α) : Memory α := { m with ring := Function.update m.ring i n }

def storeSequence (m : Memory α) (i seq : Nat) : Memory α := m.setNode i { m.ring i with sequence := seq }

attribute [simps -fullyApplied ring producerPos cachedConsumerPos consumerPos nextMsgId stats] setNode

end Memory

end Newosp.Bus
