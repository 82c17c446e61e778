import Newosp.Lib.Machine
import Newosp.Shm.ByteArea

/-!
# `ShmSpscByteRing` one access at a time

One producer in `Write` runs beside one consumer in `Read`. Every access to `head` and `tail` is one step, and a
`memcpy` copies its bytes one at a time, in any order. `events` is a history: a call is entered with its result when it
takes effect, which is its last access to `head` or `tail`.
-/

namespace Newosp.Shm.Spsc
open Lib Function

def kHeaderSize : Nat := 16

/-- `ShmByteRingHeader` and the data area behind it. -/
structure Memory where
  head : Nat
  tail : Nat
  capacity : Nat
  data : Nat → UInt8

def initAt (data : Nat → UInt8) (totalSize : Nat) : Memory := ⟨0, 0, roundDownPow2 (totalSize - kHeaderSize), data⟩

/-- Program counters of `Write`: the two loads of `WriteableBytes`, the load of `head`, and the two
`WriteRaw` with the bytes written so far. -/
inductive WritePC
  | idle
  | loadHead (msg : List UInt8)
  | loadTail (msg : List UInt8) (head : Nat)
  | reload (msg : List UInt8)
  | writeLen (msg : List UInt8) (head : Nat) (written : Finset Nat)
  | writePayload (msg : List UInt8) (head : Nat) (written : Finset Nat)

/-- Program counters of `Read`: the two loads, the two `ReadRaw` with the bytes read so far, and the store
of `tail` that skips a message. -/
inductive ReadPC
  | idle
  | loadTail (out : List UInt8)
  | loadHead (out : List UInt8) (tail : Nat)
  | readLen (out : List UInt8) (tail available : Nat) (buffer : List UInt8) (read : Finset Nat)
  | skip (out : List UInt8) (tail msgLen : Nat)
  | readPayload (out : List UInt8) (tail msgLen : Nat) (buffer : List UInt8) (read : Finset Nat)

/-- A call that took effect: `Write` with what it returned, `Read` with the caller's buffer, what it
returned and the buffer afterwards. -/
inductive Event
  | write (msg : List UInt8) (ok : Bool)
  | read (out : List UInt8) (returned : Nat) (result : List UInt8)
deriving DecidableEq

structure State where
  mem : Memory
  writer : WritePC
  reader : ReadPC
  events : List Event

/-- The producer starts a `Write`, the consumer a `Read`; each takes its next step or copies byte `i`. -/
inductive Act
  | write (msg : List UInt8)
  | producer
  | copyIn (i : Nat)
  | read (out : List UInt8)
  | consumer
  | copyOut (i : Nat)

def Act.byProducer : Act → Bool
  | .write _ | .producer | .copyIn _ => true
  | .read _ | .consumer | .copyOut _ => false

def writeNext (msg : List UInt8) (s : State) : Option State :=
  match s.writer with
  | .idle => some { s with writer := .loadHead msg }
  | _ => none

def producerNext (s : State) : Option State :=
  let m := s.mem
  match s.writer with
  | .idle => none
  | .loadHead msg => some { s with writer := .loadTail msg m.head }
  | .loadTail msg head =>
    let total := wrap32 (msg.length + 4)
    if sub32 m.capacity (sub32 head m.tail) < total then
      some { s with writer := .idle, events := s.events ++ [.write msg false] }
    else some { s with writer := .reload msg }
  | .reload msg => some { s with writer := .writeLen msg m.head ∅ }
  | .writeLen msg head written =>
    if ∀ i < (4 : Nat), i ∈ written then some { s with writer := .writePayload msg head ∅ } else none
  | .writePayload msg head written =>
    if ∀ i < msg.length, i ∈ written then
      let total := wrap32 (msg.length + 4)
      some { s with mem := { m with head := wrap32 (head + total) }, writer := .idle,
                    events := s.events ++ [.write msg true] }
    else none

/-- A `memcpy` of `Write` copies byte `i`. -/
def copyInNext (i : Nat) (s : State) : Option State :=
  let m := s.mem
  match s.writer with
  | .writeLen msg head written => match (leBytes 4 msg.length)[i]? with
    | some byte =>
      let j := rawIndex m.capacity head 4 i
      some { s with mem := { m with data := update m.data j byte },
                    writer := .writeLen msg head (insert i written) }
    | none => none
  | .writePayload msg head written => match msg[i]? with
    | some byte =>
      let j := rawIndex m.capacity (wrap32 (head + 4)) msg.length i
      some { s with mem := { m with data := update m.data j byte },
                    writer := .writePayload msg head (insert i written) }
    | none => none
  | _ => none

def readNext (out : List UInt8) (s : State) : Option State :=
  match s.reader with
  | .idle => some { s with reader := .loadTail out }
  | _ => none

def consumerNext (s : State) : Option State :=
  let m := s.mem
  match s.reader with
  | .idle => none
  | .loadTail out => some { s with reader := .loadHead out m.tail }
  | .loadHead out tail =>
    let available := sub32 m.head tail
    if available < 4 then some { s with reader := .idle, events := s.events ++ [.read out 0 out] }
    else some { s with reader := .readLen out tail available [0, 0, 0, 0] ∅ }
  | .readLen out tail available buffer read =>
    if ∀ i < (4 : Nat), i ∈ read then
      let msgLen := leValue buffer
      if msgLen = 0 ∨ available < wrap32 (msgLen + 4) then
        some { s with reader := .idle, events := s.events ++ [.read out 0 out] }
      else if msgLen > out.length then some { s with reader := .skip out tail msgLen }
      else some { s with reader := .readPayload out tail msgLen out ∅ }
    else none
  | .skip out tail msgLen =>
    some { s with mem := { m with tail := wrap32 (tail + msgLen + 4) }, reader := .idle,
                  events := s.events ++ [.read out 0 out] }
  | .readPayload out tail msgLen buffer read =>
    if ∀ i < msgLen, i ∈ read then
      some { s with mem := { m with tail := wrap32 (tail + msgLen + 4) }, reader := .idle,
                    events := s.events ++ [.read out msgLen buffer] }
    else none

def copyOutNext (i : Nat) (s : State) : Option State :=
  let m := s.mem
  match s.reader with
  | .readLen out tail available buffer read =>
    if i < 4 then
      let byte := m.data (rawIndex m.capacity tail 4 i)
      some { s with reader := .readLen out tail available (buffer.set i byte) (insert i read) }
    else none
  | .readPayload out tail msgLen buffer read =>
    if i < msgLen then
      let byte := m.data (rawIndex m.capacity (wrap32 (tail + 4)) msgLen i)
      some { s with reader := .readPayload out tail msgLen (buffer.set i byte) (insert i read) }
    else none
  | _ => none

def next : Act → State → Option State
  | .write msg, s => writeNext msg s
  | .producer, s => producerNext s
  | .copyIn i, s => copyInNext i s
  | .read out, s => readNext out s
  | .consumer, s => consumerNext s
  | .copyOut i, s => copyOutNext i s

def machine (data : Nat → UInt8) (totalSize : Nat) : Machine State Act :=
  ⟨⟨initAt data totalSize, .idle, .idle, []⟩, next⟩

end Newosp.Shm.Spsc
