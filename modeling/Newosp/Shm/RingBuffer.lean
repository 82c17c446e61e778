import Mathlib.Data.Finset.Insert
import Newosp.Lib.Machine
import Newosp.Lib.Wrap

/-!
# `ShmRingBuffer` one access at a time

Any number of `TryPush` calls (`ι`) run beside one consumer in `TryPop`. Every access to a sequence word, a position or
the size of a slot is one step; a `memcpy` copies its bytes one at a time, in any order and as often as it likes. The
fields after `cpc` are histories.
-/

namespace Newosp.Shm.Ring
open Lib Function

/-- `SlotSize` and the exponent of `SlotCount`. -/
structure Config where
  slotSize : Nat
  logCount : Nat
  two_le : 1 ≤ logCount
  word : logCount ≤ 31

def Config.slotCount (cfg : Config) : Nat := 2 ^ cfg.logCount

/-- The slot index of a position: `pos & kBufferMask`. -/
def Config.index (cfg : Config) (pos : Nat) : Nat := pos &&& (cfg.slotCount - 1)

structure Slot where
  sequence : Nat
  size : Nat
  data : Nat → UInt8

structure Memory where
  producerPos : Nat
  consumerPos : Nat
  slots : Nat → Slot

/-- Program counters of `TryPush`; `copy` is inside the `memcpy`, with the bytes written so far. -/
inductive PC
  | idle
  | loadPos
  | loadSeq (pos : Nat)
  | casPos (pos : Nat)
  | writeSize (pos : Nat)
  | copy (pos : Nat) (written : Finset Nat)
  | done (result : Bool)
deriving DecidableEq

/-- Program counters of `TryPop`; `copy` is inside the `memcpy`, with the caller's buffer and the
bytes read so far. -/
inductive ConsumerPC
  | idle
  | loadSeq (pos : Nat)
  | readSize (pos : Nat)
  | copy (pos size : Nat) (buffer : Nat → UInt8) (read : Finset Nat)
  | storePos (pos : Nat)

/-- The ring with its running calls, and what happened so far: the calls that claimed positions 0, 1, 2, …, the popped
messages, and the claims when each call last loaded `producer_pos_`. -/
structure State (ι : Type) where
  mem : Memory
  pc : ι → PC
  cpc : ConsumerPC
  claims : List ι
  popped : List (List UInt8)
  loaded : ι → Nat

/-- A push starts, takes its next step (if `spurious`, a weak compare-exchange fails) or copies byte `i`; so does the
consumer. -/
inductive Act (ι : Type)
  | push (c : ι)
  | producer (c : ι) (spurious : Bool)
  | copyIn (c : ι) (i : Nat)
  | pop
  | consumer
  | copyOut (i : Nat)

def Memory.setSlot (m : Memory) (j : Nat) (slot : Slot) : Memory := { m with slots := update m.slots j slot }

section

variable {ι : Type} [DecidableEq ι] (cfg : Config) (req : ι → List UInt8)

def State.goto (s : State ι) (c : ι) (pc : PC) : State ι := { s with pc := update s.pc c pc }

/-- `TryPush` is called; a message that does not fit a slot is refused. -/
def pushNext (c : ι) (s : State ι) : Option (State ι) :=
  if s.pc c = .idle then
    some (s.goto c (if cfg.slotSize < (req c).length then .done false else .loadPos))
  else none

def producerNext (c : ι) (spurious : Bool) (s : State ι) : Option (State ι) :=
  let m := s.mem
  match s.pc c with
  | .idle | .done _ => none
  | .loadPos =>
    some <| { s with loaded := update s.loaded c s.claims.length }.goto c (.loadSeq m.producerPos)
  | .loadSeq pos =>
    some <| s.goto c (if (m.slots (cfg.index pos)).sequence ≠ pos then .done false else .casPos pos)
  | .casPos pos =>
    if m.producerPos = pos ∧ spurious = false then
      some <| { s with mem := { m with producerPos := wrap32 (pos + 1) },
                       claims := s.claims ++ [c] }.goto c (.writeSize pos)
    else some <| s.goto c .loadPos
  | .writeSize pos =>
    let j := cfg.index pos
    some <| { s with mem := m.setSlot j { m.slots j with size := (req c).length } }.goto c (.copy pos ∅)
  | .copy pos written =>
    if ∀ i < (req c).length, i ∈ written then
      let j := cfg.index pos
      some <| { s with mem := m.setSlot j { m.slots j with sequence := wrap32 (pos + 1) } }.goto c
        (.done true)
    else none

/-- The `memcpy` of call `c` writes byte `i` of its message. -/
def copyInNext (c : ι) (i : Nat) (s : State ι) : Option (State ι) :=
  match s.pc c, (req c)[i]? with
  | .copy pos written, some byte =>
    let j := cfg.index pos
    let slot := s.mem.slots j
    some <| { s with mem := s.mem.setSlot j { slot with data := update slot.data i byte } }.goto c
      (.copy pos (insert i written))
  | _, _ => none

def consumerNext (s : State ι) : Option (State ι) :=
  let m := s.mem
  match s.cpc with
  | .idle => none
  | .loadSeq pos =>
    let expected := wrap32 (pos + 1)
    some { s with cpc :=
      if (m.slots (cfg.index pos)).sequence ≠ expected then .idle else .readSize pos }
  | .readSize pos =>
    some { s with cpc := .copy pos (m.slots (cfg.index pos)).size (fun _ => 0) ∅ }
  | .copy pos size buffer read =>
    if ∀ i < size, i ∈ read then
      let j := cfg.index pos
      some { s with mem := m.setSlot j { m.slots j with sequence := wrap32 (pos + cfg.slotCount) },
                    popped := s.popped ++ [(List.range size).map buffer], cpc := .storePos pos }
    else none
  | .storePos pos => some { s with mem := { m with consumerPos := wrap32 (pos + 1) }, cpc := .idle }

def copyOutNext (i : Nat) (s : State ι) : Option (State ι) :=
  match s.cpc with
  | .copy pos size buffer read =>
    if i < size then
      let byte := (s.mem.slots (cfg.index pos)).data i
      some { s with cpc := .copy pos size (update buffer i byte) (insert i read) }
    else none
  | _ => none

/-- `TryPop` is called: it loads `consumer_pos_`. -/
def popNext (s : State ι) : Option (State ι) :=
  match s.cpc with
  | .idle => some { s with cpc := .loadSeq s.mem.consumerPos }
  | _ => none

def next : Act ι → State ι → Option (State ι)
  | .push c, s => pushNext cfg req c s
  | .producer c spurious, s => producerNext cfg req c spurious s
  | .copyIn c i, s => copyInNext cfg req c i s
  | .pop, s => popNext s
  | .consumer, s => consumerNext cfg s
  | .copyOut i, s => copyOutNext cfg i s

/-- `InitAt`; the bytes of the slots are what the memory held before. -/
def State.init (garbage : Nat → Nat → UInt8) : State ι where
  mem := ⟨0, 0, fun j => ⟨j, 0, garbage j⟩⟩
  pc := fun _ => .idle
  cpc := .idle
  claims := []
  popped := []
  loaded := fun _ => 0

def machine (garbage : Nat → Nat → UInt8) : Machine (State ι) (Act ι) := ⟨.init garbage, next cfg req⟩

end

end Newosp.Shm.Ring
