import Newosp.Lib.Machine
import Newosp.Shm.ByteArea

/-!
# `ShmSpmcByteRing` one operation at a time

One producer, up to `max_consumers` consumers with a `tail` each. An operation is one function on the shared memory;
`machine` runs any sequence of them and keeps what they returned in `events`. `limit` is `OSP_SHM_SPMC_MAX_CONSUMERS`.
-/

namespace Newosp.Shm.Spmc
open Lib Function

/-- `sizeof(ShmSpmcByteRingHeader)`: four words and two arrays of words. -/
def kHeaderSize (limit : Nat) : Nat := 16 + 8 * limit

/-- `ShmSpmcByteRingHeader` and the data area behind it. -/
structure Memory where
  head : Nat
  capacity : Nat
  maxConsumers : Nat
  consumerCount : Nat
  tails : Nat → Nat
  active : Nat → Nat
  data : Nat → UInt8

def initAt (limit : Nat) (data : Nat → UInt8) (totalSize maxConsumers : Nat) : Memory where
  head := 0
  capacity := roundDownPow2 (totalSize - kHeaderSize limit)
  maxConsumers := if maxConsumers > limit then limit else maxConsumers
  consumerCount := 0
  tails := fun _ => 0
  active := fun _ => 0
  data := data

/-- `RegisterConsumer`: the first slot whose compare-exchange from 0 succeeds. -/
def registerConsumer (m : Memory) : Int × Memory :=
  match (List.range m.maxConsumers).find? (fun i => m.active i = 0) with
  | some i =>
    (i, { m with active := update m.active i 1, tails := update m.tails i m.head,
                 consumerCount := wrap32 (m.consumerCount + 1) })
  | none => (-1, m)

def unregisterConsumer (id : Int) (m : Memory) : Memory :=
  if id < 0 ∨ id.toNat ≥ m.maxConsumers then m else
    let i := id.toNat
    let m' := { m with active := update m.active i 0 }
    if m.active i = 1 then { m' with consumerCount := sub32 m.consumerCount 1 } else m'

/-- One iteration of the loop of `SlowestTail`. -/
def slower (m : Memory) (slowest i : Nat) : Nat :=
  if m.active i ≠ 0 then
    let t := m.tails i
    if positive32 (sub32 slowest t) then t else slowest
  else slowest

def slowestTail (m : Memory) : Nat := (List.range m.maxConsumers).foldl (slower m) m.head

def writeableBytes (m : Memory) : Nat := sub32 m.capacity (sub32 m.head (slowestTail m))

def write (msg : List UInt8) (m : Memory) : Bool × Memory :=
  let total := wrap32 (msg.length + 4)
  if writeableBytes m < total then (false, m)
  else
    let data := writeRaw m.capacity m.data m.head (leBytes 4 msg.length)
    let data := writeRaw m.capacity data (wrap32 (m.head + 4)) msg
    (true, { m with data := data, head := wrap32 (m.head + total) })

/-- `Read` into the buffer `out` of `max_len` bytes: what it returns, the buffer afterwards, the memory. -/
def read (id : Int) (out : List UInt8) (m : Memory) : (Nat × List UInt8) × Memory :=
  if id < 0 ∨ id.toNat ≥ m.maxConsumers then ((0, out), m)
  else
    let i := id.toNat
    let tail := m.tails i
    let available := sub32 m.head tail
    if available < 4 then ((0, out), m)
    else
      let msgLen := leValue (readRaw m.capacity m.data tail 4)
      if msgLen = 0 ∨ available < wrap32 (msgLen + 4) then ((0, out), m)
      else
        let m' := { m with tails := update m.tails i (wrap32 (tail + msgLen + 4)) }
        if msgLen > out.length then ((0, out), m')
        else ((msgLen, readRaw m.capacity m.data (wrap32 (tail + 4)) msgLen ++ out.drop msgLen), m')

inductive Event
  | register (id : Int)
  | unregister (id : Int)
  | write (msg : List UInt8) (ok : Bool)
  | read (id : Int) (out : List UInt8) (returned : Nat) (result : List UInt8)
deriving DecidableEq

inductive Act
  | register
  | unregister (id : Int)
  | write (msg : List UInt8)
  | read (id : Int) (out : List UInt8)

structure State where
  mem : Memory
  events : List Event

def next : Act → State → State
  | .register, s => ⟨(registerConsumer s.mem).2, s.events ++ [.register (registerConsumer s.mem).1]⟩
  | .unregister id, s => ⟨unregisterConsumer id s.mem, s.events ++ [.unregister id]⟩
  | .write msg, s => ⟨(write msg s.mem).2, s.events ++ [.write msg (write msg s.mem).1]⟩
  | .read id out, s =>
    ⟨(read id out s.mem).2, s.events ++ [.read id out (read id out s.mem).1.1 (read id out s.mem).1.2]⟩

def machine (limit : Nat) (data : Nat → UInt8) (totalSize maxConsumers : Nat) : Machine State Act :=
  ⟨⟨initAt limit data totalSize maxConsumers, []⟩, fun a s => some (next a s)⟩

end Newosp.Shm.Spmc
