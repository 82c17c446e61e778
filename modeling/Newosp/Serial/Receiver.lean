import Newosp.Serial.Frame

/-!
# The serial receiver

`FeedByte` is a state machine over one buffer. An access outside the buffer and a length that would go below zero have
no meaning in the source, and give `none`. What the receiver does is its statistics, callbacks and acknowledgements.
-/

namespace Newosp.Serial
open Lib

inductive RxState
  | idle
  | waitSync2
  | waitHeader
  | waitPayload
  | waitCrc
  deriving DecidableEq

structure SerialStatistics where
  framesReceived : Nat
  crcErrors : Nat
  syncErrors : Nat
  timeoutErrors : Nat
  oversizeErrors : Nat
  seqGaps : Nat
  deriving DecidableEq

structure Delivery where
  payload : List UInt8
  typeIndex : UInt16
  seq : UInt16
  deriving DecidableEq

/-- The receiver's side of a transport, with the calls of the callback and the acknowledgements so far. -/
structure Receiver where
  rxState : RxState
  rxPos : Nat
  rxMsgLen : Nat
  rxPayloadSize : Nat
  rxBuf : Nat → UInt8
  rxExpectedSeq : UInt16
  stats : SerialStatistics
  lastByteTimeMs : Nat
  delivered : List Delivery
  acks : List UInt8

namespace Receiver

variable (r : Receiver)

/-- `ResetRxState`. -/
def reset : Receiver := { r with rxState := .idle, rxPos := 0 }

def syncError : Receiver := { r with stats := { r.stats with syncErrors := r.stats.syncErrors + 1 } }

def crcError : Receiver := { r with stats := { r.stats with crcErrors := r.stats.crcErrors + 1 } }

def oversizeError : Receiver := { r with stats := { r.stats with oversizeErrors := r.stats.oversizeErrors + 1 } }

def timeoutError : Receiver := { r with stats := { r.stats with timeoutErrors := r.stats.timeoutErrors + 1 } }

/-- `rx_buf_[i] = byte`. -/
def store (cfg : SerialConfig) (i : Nat) (byte : UInt8) : Option Receiver :=
  if i < cfg.maxFrameSize then some { r with rxBuf := Function.update r.rxBuf i byte } else none

/-- `rx_buf_[rx_pos_] = byte; ++rx_pos_`. -/
def collect (cfg : SerialConfig) (byte : UInt8) : Option Receiver :=
  (r.store cfg r.rxPos byte).map fun r => { r with rxPos := r.rxPos + 1 }

def begin (cfg : SerialConfig) (byte : UInt8) : Option Receiver :=
  (r.store cfg 0 byte).map fun r => { r with rxPos := 1, rxState := .waitSync2 }

end Receiver

/-- An unsigned subtraction that must not go below zero. -/
def exactSub (a b : Nat) : Option Nat := if b ≤ a then some (a - b) else none

def seqGap (expected seq : UInt16) : Nat :=
  if expected < seq then (seq - expected).toNat
  else (UInt16.ofNat (65536 - expected.toNat + seq.toNat)).toNat

def handleAckFrame (r : Receiver) : Receiver := if crc16 (slice r.rxBuf 0 6) ≠ readLE16 r.rxBuf 6 then r.crcError else r

/-- The bookkeeping of a valid frame: sequence check, counters, acknowledgement and callback. -/
def Receiver.deliver (cfg : SerialConfig) (r : Receiver) (d : Delivery) : Receiver :=
  let gaps := if cfg.enableSeqCheck ∧ 0 < r.stats.framesReceived ∧ d.seq ≠ r.rxExpectedSeq then
      seqGap r.rxExpectedSeq d.seq
    else 0
  { r with
    stats := { r.stats with seqGaps := r.stats.seqGaps + gaps, framesReceived := r.stats.framesReceived + 1 }
    rxExpectedSeq := d.seq + 1
    acks := if cfg.enableAck then r.acks ++ ackFrame d.seq else r.acks
    delivered := r.delivered ++ [d] }

def validateAndDeliver (cfg : SerialConfig) (r : Receiver) : Option Receiver := do
  guard (r.rxMsgLen < cfg.maxFrameSize)
  if r.rxBuf r.rxMsgLen ≠ kSerialTailByte then return r.syncError.reset
  let crcDataLen ← exactSub r.rxMsgLen kSerialCrcSize
  if crc16 (slice r.rxBuf 0 crcDataLen) ≠ readLE16 r.rxBuf crcDataLen then return r.crcError.reset
  guard (kSerialHeaderSize + r.rxPayloadSize ≤ cfg.maxFrameSize)
  return (r.deliver cfg
    { payload := slice r.rxBuf kSerialHeaderSize r.rxPayloadSize
      typeIndex := readLE16 r.rxBuf 8
      seq := readLE16 r.rxBuf 6 }).reset

def parseHeader (cfg : SerialConfig) (r : Receiver) : Option Receiver :=
  if readLE16 r.rxBuf 2 ≠ kSerialMagic then some r.syncError.reset
  else
    let msgLen := (readLE16 r.rxBuf 4).toNat
    if cfg.frameMaxSize < msgLen + 1 ∨ msgLen < kSerialHeaderSize + kSerialCrcSize then
      some { r.oversizeError.reset with rxMsgLen := msgLen }
    else
      (exactSub msgLen (kSerialHeaderSize + kSerialCrcSize)).map fun payloadSize =>
        { r with
          rxMsgLen := msgLen
          rxPayloadSize := payloadSize
          rxState := if 0 < payloadSize then .waitPayload else .waitCrc }

def feedByte (cfg : SerialConfig) (r : Receiver) (byte : UInt8) : Option Receiver :=
  match r.rxState with
  | .idle => if byte = kSerialSyncByte1 then r.begin cfg byte else some r.syncError
  | .waitSync2 =>
    if byte = kSerialSyncByte2 then (r.collect cfg byte).map fun r => { r with rxState := .waitHeader }
    -- the byte may be the start of a new sync word
    else if byte = kSerialSyncByte1 then r.syncError.reset.begin cfg byte
    else some r.syncError.reset
  | .waitHeader => do
    let r ← r.collect cfg byte
    -- an acknowledgement is shorter than a header
    if kSerialAckFrameSize ≤ r.rxPos ∧ readLE16 r.rxBuf 2 = kSerialAckMagic then return (handleAckFrame r).reset
    if kSerialHeaderSize ≤ r.rxPos then parseHeader cfg r else return r
  | .waitPayload => do
    let r ← r.collect cfg byte
    let payloadCollected ← exactSub r.rxPos kSerialHeaderSize
    if r.rxPayloadSize ≤ payloadCollected then return { r with rxState := .waitCrc } else return r
  | .waitCrc => do
    let r ← r.collect cfg byte
    if r.rxMsgLen + 1 ≤ r.rxPos then validateAndDeliver cfg r else return r

/-- One byte of `Poll` and of `ParseFromRing` that was read at time `now`. -/
def receiveByte (cfg : SerialConfig) (now : Nat) (r : Receiver) (byte : UInt8) : Option Receiver :=
  let late := r.rxState ≠ .idle ∧ r.lastByteTimeMs ≠ 0 ∧ cfg.interByteTimeoutMs < subTo 64 now r.lastByteTimeMs
  let r := if late then r.timeoutError.reset else r
  feedByte cfg { r with lastByteTimeMs := now } byte

/-- The bytes that one `read` or one `PopBatch` gave. -/
def receiveBatch (cfg : SerialConfig) (now : Nat) : List UInt8 → Receiver → Option Receiver
  | [], r => some r
  | byte :: bytes, r => (receiveByte cfg now r byte).bind (receiveBatch cfg now bytes)

def receiveAll (cfg : SerialConfig) : List (Nat × List UInt8) → Receiver → Option Receiver
  | [], r => some r
  | batch :: batches, r => (receiveBatch cfg batch.1 batch.2 r).bind (receiveAll cfg batches)

/-- A transport as it is constructed, with whatever is in its buffer. -/
def newReceiver (rxBuf : Nat → UInt8) : Receiver where
  rxState := .idle
  rxPos := 0
  rxMsgLen := 0
  rxPayloadSize := 0
  rxBuf := rxBuf
  rxExpectedSeq := 0
  stats := ⟨0, 0, 0, 0, 0, 0⟩
  lastByteTimeMs := 0
  delivered := []
  acks := []

end Newosp.Serial
