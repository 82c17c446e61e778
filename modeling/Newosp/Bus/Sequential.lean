import Newosp.Bus.Memory

/-!
# Whole calls of `AsyncBus`

`PublishInternal`, `TryEvictAndPublish` and `ProcessBatch` as functions on the memory, with no other call beside them: a
failed weak compare-exchange repeats its iteration on unchanged words, and a strong one cannot fail.
-/

namespace Newosp.Bus
open Lib

variable {α : Type}

def dropFull (m : Memory α) (currentId : Nat) : Memory α × Outcome :=
  ({ m with stats := m.stats.addDropped }, .rejected .kQueueFull currentId)

/-- Fetch a message id, write envelope and priority of node `pos & kBufferMask`, and publish it with `sequence.store(pos
+ 1)`. -/
def fillNode (cfg : Config) (m : Memory α) (pos : Nat) (priority : MessagePriority) (r : Request α) : Memory α :=
  let node : Node α :=
    ⟨wrap32 (pos + 1), priority.code, { r.header m.nextMsgId with priority := priority }, r.payload⟩
  { m.setNode (cfg.index pos) node with nextMsgId := wrap64 (m.nextMsgId + 1) }

def claimAndPublish (cfg : Config) (m : Memory α) (currentId : Nat) (r : Request α) : Memory α × Outcome :=
  let prodPos := m.producerPos
  if (m.ring (cfg.index prodPos)).sequence ≠ prodPos ∧ cfg.queueDepth ≤ sub32 prodPos m.consumerPos then
    dropFull m currentId
  else
    let m := fillNode cfg { m with producerPos := wrap32 (prodPos + 1) } prodPos r.priority r
    ({ m with stats := m.stats.addPublished }, .accepted)

/-- The scan of `TryEvictAndPublish` over `n` positions from `i`: the first published one with a priority below `kHigh`.
-/
def evictScan (cfg : Config) (m : Memory α) (prod cons : Nat) : Nat → Nat → Option Nat
  | 0, _ => none
  | n + 1, i =>
    let p := wrap32 (cons + i)
    if p = prod then none
    else if (m.ring (cfg.index p)).sequence ≠ wrap32 (p + 1) then evictScan cfg m prod cons n (i + 1)
    else if MessagePriority.kHigh.code ≤ (m.ring (cfg.index p)).slotPriority then
      evictScan cfg m prod cons n (i + 1)
    else some p

def tryEvictAndPublish (cfg : Config) (m : Memory α) (r : Request α) : Option (Memory α) :=
  (evictScan cfg m m.producerPos m.consumerPos (cfg.queueDepth - 1) 1).map fun p =>
    let m := fillNode cfg m p .kHigh r
    { m with stats := m.stats.addDropped.addPublished }

def publishInternal (cfg : Config) (m : Memory α) (r : Request α) : Memory α × Outcome :=
  let currentId := m.nextMsgId
  if msgIdWrapThreshold ≤ currentId then (m, .rejected .kOverflowDetected currentId)
  else
    let threshold := cfg.getThresholdForPriority r.priority
    let prod := m.producerPos
    if threshold ≤ sub32 prod m.cachedConsumerPos then
      let realCons := m.consumerPos
      let m := { m with cachedConsumerPos := realCons, stats := m.stats.addRecheck }
      if threshold ≤ sub32 prod realCons then
        if r.priority = .kHigh then
          match tryEvictAndPublish cfg m r with
          | some m' => (m', .accepted)
          | none => dropFull m currentId
        else dropFull m currentId
      else claimAndPublish cfg m currentId r
    else claimAndPublish cfg m currentId r

/-- The loop of `ProcessBatch` for `n` iterations from `consPos`: the memory, the position and the dispatched envelopes.
-/
def processLoop (cfg : Config) : Nat → Memory α → Nat → Memory α × Nat × List (Envelope α)
  | 0, m, consPos => (m, consPos, [])
  | n + 1, m, consPos =>
    let node := m.ring (cfg.index consPos)
    if node.sequence = wrap32 (consPos + 1) then
      let m := m.storeSequence (cfg.index consPos) (wrap32 (consPos + cfg.queueDepth))
      let (m, last, out) := processLoop cfg n m (wrap32 (consPos + 1))
      (m, last, ⟨node.header, node.payload⟩ :: out)
    else (m, consPos, [])

def processBatch (cfg : Config) (m : Memory α) : Memory α × List (Envelope α) :=
  let (m, consPos, out) := processLoop cfg cfg.batchSize m m.consumerPos
  if 0 < out.length then
    ({ m with consumerPos := consPos, stats := m.stats.addProcessed out.length }, out)
  else (m, out)

/-- One complete call on the bus. -/
inductive Op (α : Type)
  | publish (r : Request α)
  | process

/-- What a call gives back: the outcome of a publish, or the dispatched envelopes. -/
inductive Output (α : Type)
  | outcome (o : Outcome)
  | delivered (out : List (Envelope α))

def apply (cfg : Config) (m : Memory α) : Op α → Memory α × Output α
  | .publish r => let (m, o) := publishInternal cfg m r; (m, .outcome o)
  | .process => let (m, out) := processBatch cfg m; (m, .delivered out)

def runCalls (cfg : Config) (m : Memory α) : List (Op α) → Memory α × List (Output α)
  | [] => (m, [])
  | op :: ops =>
    let (m, o) := apply cfg m op
    let (m, os) := runCalls cfg m ops
    (m, o :: os)

end Newosp.Bus
