import Newosp.Shm.SpmcByteRing

/-!
# `ShmSpmcByteRing` one access at a time

The producer in `Write` runs beside consumers (`ι`), each of which registers, reads with the slot it got and
unregisters. Every access to a word of the header is one step, and a `memcpy` copies its bytes one at a time, in any
order. `events` is a history: a consumer joins when `RegisterConsumer` loads `head` and leaves when `UnregisterConsumer`
clears its flag; a message is written when `head` is stored, and a `Read` takes effect at its last access to a word.
-/

namespace Newosp.Shm.SpmcSteps
open Lib Function

/-- Program counters of `Write`: `WriteableBytes`, `SlowestTail` over the slots, and the two `WriteRaw` with the bytes
written so far. -/
inductive WritePC
  | idle
  | loadHead (msg : List UInt8)
  | loadSlowest (msg : List UInt8) (head : Nat)
  | scan (msg : List UInt8) (head slowest i : Nat)
  | scanTail (msg : List UInt8) (head slowest i : Nat)
  | reload (msg : List UInt8)
  | writeLen (msg : List UInt8) (head : Nat) (written : Finset Nat)
  | writePayload (msg : List UInt8) (head : Nat) (written : Finset Nat)

/-- Program counters of a consumer with slot `i`: `claim` to `addCount` in `RegisterConsumer`, `readTail` to
`readPayload` in `Read`, `leave` and `subCount` in `UnregisterConsumer`. -/
inductive ConsumerPC
  | unregistered
  | claim (i : Nat)
  | loadHead (i : Nat)
  | storeTail (i head : Nat)
  | addCount (i : Nat)
  | idle (i : Nat)
  | readTail (i : Nat) (out : List UInt8)
  | readHead (i : Nat) (out : List UInt8) (tail : Nat)
  | readLen (i : Nat) (out : List UInt8) (tail available : Nat) (buffer : List UInt8) (read : Finset Nat)
  | skip (i : Nat) (out : List UInt8) (tail msgLen : Nat)
  | readPayload (i : Nat) (out : List UInt8) (tail msgLen : Nat) (buffer : List UInt8) (read : Finset Nat)
  | leave (i : Nat)
  | subCount

/-- What happened: a consumer joined or left, a message was written, a `Read` returned. -/
inductive Event (ι : Type)
  | join (c : ι)
  | leave (c : ι)
  | write (msg : List UInt8)
  | read (c : ι) (out : List UInt8) (returned : Nat) (result : List UInt8)
deriving DecidableEq

structure State (ι : Type) where
  mem : Spmc.Memory
  writer : WritePC
  pc : ι → ConsumerPC
  events : List (Event ι)

/-- The producer or a consumer starts a call, takes its next step or copies byte `i`. -/
inductive Act (ι : Type)
  | write (msg : List UInt8)
  | producer
  | copyIn (i : Nat)
  | register (c : ι)
  | read (c : ι) (out : List UInt8)
  | unregister (c : ι)
  | consumer (c : ι)
  | copyOut (c : ι) (i : Nat)

section

variable {ι : Type}

def State.log (s : State ι) (e : Event ι) : State ι := { s with events := s.events ++ [e] }

def State.setTail (s : State ι) (i tail : Nat) : State ι :=
  { s with mem := { s.mem with tails := update s.mem.tails i tail } }

def State.setHead (s : State ι) (head : Nat) : State ι := { s with mem := { s.mem with head := head } }

def State.setCount (s : State ι) (count : Nat) : State ι := { s with mem := { s.mem with consumerCount := count } }

def State.setActive (s : State ι) (i flag : Nat) : State ι :=
  { s with mem := { s.mem with active := update s.mem.active i flag } }

def writeNext (msg : List UInt8) (s : State ι) : Option (State ι) :=
  match s.writer with
  | .idle => some { s with writer := .loadHead msg }
  | _ => none

def producerNext (s : State ι) : Option (State ι) :=
  let m := s.mem
  match s.writer with
  | .idle => none
  | .loadHead msg => some { s with writer := .loadSlowest msg m.head }
  | .loadSlowest msg head => some { s with writer := .scan msg head m.head 0 }
  | .scan msg head slowest i =>
    if i < m.maxConsumers then
      if m.active i ≠ 0 then some { s with writer := .scanTail msg head slowest i }
      else some { s with writer := .scan msg head slowest (i + 1) }
    else
      -- the loop is over: `WriteableBytes` returns and `Write` compares
      let total := wrap32 (msg.length + 4)
      if sub32 m.capacity (sub32 head slowest) < total then some { s with writer := .idle }
      else some { s with writer := .reload msg }
  | .scanTail msg head slowest i =>
    let t := m.tails i
    some { s with writer := .scan msg head (if positive32 (sub32 slowest t) then t else slowest) (i + 1) }
  | .reload msg => some { s with writer := .writeLen msg m.head ∅ }
  | .writeLen msg head written =>
    if ∀ i < (4 : Nat), i ∈ written then some { s with writer := .writePayload msg head ∅ } else none
  | .writePayload msg head written =>
    if ∀ i < msg.length, i ∈ written then
      let total := wrap32 (msg.length + 4)
      some (({ s with writer := .idle }.setHead (wrap32 (head + total))).log (.write msg))
    else none

/-- A `memcpy` of `Write` copies byte `i`. -/
def copyInNext (i : Nat) (s : State ι) : Option (State ι) :=
  let m := s.mem
  match s.writer with
  | .writeLen msg head written => match (leBytes 4 msg.length)[i]? with
    | some byte =>
      let j := rawIndex m.capacity head 4 i
      some { s with mem := { m with data := update m.data j byte },
                    writer := .writeLen msg head (insert i written) }
    | none => none
  | .writePayload msg head written => match msg[i]? with
    | some byte =>
      let j := rawIndex m.capacity (wrap32 (head + 4)) msg.length i
      some { s with mem := { m with data := update m.data j byte },
                    writer := .writePayload msg head (insert i written) }
    | none => none
  | _ => none

end

section

variable {ι : Type} [DecidableEq ι]

def State.goto (s : State ι) (c : ι) (pc : ConsumerPC) : State ι := { s with pc := update s.pc c pc }

def registerNext (c : ι) (s : State ι) : Option (State ι) :=
  match s.pc c with
  | .unregistered => some (s.goto c (.claim 0))
  | _ => none

def readNext (c : ι) (out : List UInt8) (s : State ι) : Option (State ι) :=
  match s.pc c with
  | .idle i => some (s.goto c (.readTail i out))
  | _ => none

def unregisterNext (c : ι) (s : State ι) : Option (State ι) :=
  match s.pc c with
  | .idle i => some (s.goto c (.leave i))
  | _ => none

/-- A call of consumer `c` returns with its entry in the history. -/
def State.finish (s : State ι) (c : ι) (i : Nat) (e : Event ι) : State ι := (s.log e).goto c (.idle i)

def consumerNext (c : ι) (s : State ι) : Option (State ι) :=
  let m := s.mem
  match s.pc c with
  | .unregistered | .idle _ => none
  | .claim i =>
    if i < m.maxConsumers then
      if m.active i = 0 then some ((s.setActive i 1).goto c (.loadHead i))
      else some (s.goto c (.claim (i + 1)))
    else some (s.goto c .unregistered)
  | .loadHead i => some ((s.log (.join c)).goto c (.storeTail i m.head))
  | .storeTail i head => some ((s.setTail i head).goto c (.addCount i))
  | .addCount i =>
    some ((s.setCount (wrap32 (m.consumerCount + 1))).goto c (.idle i))
  | .readTail i out => some (s.goto c (.readHead i out (m.tails i)))
  | .readHead i out tail =>
    let available := sub32 m.head tail
    if available < 4 then some (s.finish c i (.read c out 0 out))
    else some (s.goto c (.readLen i out tail available [0, 0, 0, 0] ∅))
  | .readLen i out tail available buffer read =>
    if ∀ j < (4 : Nat), j ∈ read then
      let msgLen := leValue buffer
      if msgLen = 0 ∨ available < wrap32 (msgLen + 4) then some (s.finish c i (.read c out 0 out))
      else if msgLen > out.length then some (s.goto c (.skip i out tail msgLen))
      else some (s.goto c (.readPayload i out tail msgLen out ∅))
    else none
  | .skip i out tail msgLen =>
    some ((s.setTail i (wrap32 (tail + msgLen + 4))).finish c i (.read c out 0 out))
  | .readPayload i out tail msgLen buffer read =>
    if ∀ j < msgLen, j ∈ read then
      some ((s.setTail i (wrap32 (tail + msgLen + 4))).finish c i (.read c out msgLen buffer))
    else none
  | .leave i =>
    some (((s.setActive i 0).log (.leave c)).goto c (if m.active i = 1 then .subCount else .unregistered))
  | .subCount =>
    some ((s.setCount (sub32 m.consumerCount 1)).goto c .unregistered)

def copyOutNext (c : ι) (j : Nat) (s : State ι) : Option (State ι) :=
  let m := s.mem
  match s.pc c with
  | .readLen i out tail available buffer read =>
    if j < 4 then
      let byte := m.data (rawIndex m.capacity tail 4 j)
      some (s.goto c (.readLen i out tail available (buffer.set j byte) (insert j read)))
    else none
  | .readPayload i out tail msgLen buffer read =>
    if j < msgLen then
      let byte := m.data (rawIndex m.capacity (wrap32 (tail + 4)) msgLen j)
      some (s.goto c (.readPayload i out tail msgLen (buffer.set j byte) (insert j read)))
    else none
  | _ => none

def next : Act ι → State ι → Option (State ι)
  | .write msg, s => writeNext msg s
  | .producer, s => producerNext s
  | .copyIn i, s => copyInNext i s
  | .register c, s => registerNext c s
  | .read c out, s => readNext c out s
  | .unregister c, s => unregisterNext c s
  | .consumer c, s => consumerNext c s
  | .copyOut c j, s => copyOutNext c j s

/-- The ring that `InitAt` makes of `totalSize` bytes, before any consumer has registered. -/
def machine (ι : Type) [DecidableEq ι] (limit : Nat) (data : Nat → UInt8) (totalSize maxConsumers : Nat) :
    Machine (State ι) (Act ι) :=
  ⟨⟨Spmc.initAt limit data totalSize maxConsumers, .idle, fun _ => .unregistered, []⟩, next⟩

end

end Newosp.Shm.SpmcSteps
