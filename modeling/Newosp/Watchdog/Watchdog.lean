import Newosp.Lib.BitField
import Newosp.Lib.Wrap

/-!
# `ThreadWatchdog`

A registration gets a free slot and an id that packs the index of the slot with its generation, a counter of the
registrations of that slot. Here each operation is one function of the slots and of the time that it reads;
`Newosp.Watchdog.Threads` takes them apart.
-/

namespace Newosp.Watchdog
open Lib Function List

variable {i : Nat}

inductive WatchdogError
  | kSlotsFull
  | kInvalidTimeout
  | kNotRegistered
  deriving DecidableEq

/-- The template argument, and whether the callbacks are set. -/
structure Config where
  maxThreads : Nat
  pos : 0 < maxThreads
  le : maxThreads ≤ 256
  onTimeout : Bool
  onRecovered : Bool

def Config.kSlotBits (cfg : Config) : Nat :=
  if cfg.maxThreads ≤ 2 then 1
  else if cfg.maxThreads ≤ 4 then 2
  else if cfg.maxThreads ≤ 8 then 3
  else if cfg.maxThreads ≤ 16 then 4
  else if cfg.maxThreads ≤ 32 then 5
  else if cfg.maxThreads ≤ 64 then 6
  else if cfg.maxThreads ≤ 128 then 7
  else 8

def Config.kSlotMask (cfg : Config) : Nat := 2 ^ cfg.kSlotBits - 1

/-- `Slot`; `lastBeatUs` is the word of its `ThreadHeartbeat`. -/
structure Slot where
  active : Bool
  generation : Nat
  lastBeatUs : Nat
  timeoutUs : Nat
  timedOut : Bool
  name : List UInt8
  deriving DecidableEq

abbrev Slots := Nat → Slot

def Slots.init : Slots := fun _ => ⟨false, 0, 0, 0, false, []⟩

def nameCapacity : Nat := 32

section

variable (cfg : Config)

/-- An index and a generation packed into an id. -/
def encode (generation i : Nat) : Nat := wrap32 (generation <<< cfg.kSlotBits) ||| i

def encodedId (slots : Slots) (i : Nat) : Nat := encode cfg (slots i).generation i

def idIndex (raw : Nat) : Nat := raw &&& cfg.kSlotMask

def idGeneration (raw : Nat) : Nat := raw >>> cfg.kSlotBits

/-- The test that `Unregister`, `Feed` and `IsTimedOut` share. -/
def accepts (slots : Slots) (raw : Nat) : Bool :=
  idIndex cfg raw < cfg.maxThreads && (slots (idIndex cfg raw)).active &&
    (slots (idIndex cfg raw)).generation = idGeneration cfg raw

end

section

variable (cfg : Config)

def freeSlot (slots : Slots) : Option Nat := (range cfg.maxThreads).find? fun i => !(slots i).active

/-- `RegResult`; the heartbeat is that of a slot. -/
structure RegResult where
  id : Nat
  heartbeat : Nat
  deriving DecidableEq

/-- `Register`, with the time that it stores. -/
def register (name : List UInt8) (timeoutMs now : Nat) (slots : Slots) : Slots × Except WatchdogError RegResult :=
  if timeoutMs = 0 then (slots, .error .kInvalidTimeout)
  else
    match freeSlot cfg slots with
    | none => (slots, .error .kSlotsFull)
    | some i =>
      let generation := wrap32 ((slots i).generation + 1)
      (update slots i ⟨true, generation, now, timeoutMs * 1000, false, name.take nameCapacity⟩,
        .ok ⟨encode cfg generation i, i⟩)

def unregister (raw : Nat) (slots : Slots) : Slots × Except WatchdogError Unit :=
  if accepts cfg slots raw then
    let i := idIndex cfg raw
    (update slots i { slots i with active := false }, .ok ())
  else (slots, .error .kNotRegistered)

def beat (i now : Nat) (slots : Slots) : Slots := update slots i { slots i with lastBeatUs := now }

def feed (raw now : Nat) (slots : Slots) : Slots :=
  if accepts cfg slots raw then beat (idIndex cfg raw) now slots else slots

def isTimedOut (raw : Nat) (slots : Slots) : Bool :=
  if accepts cfg slots raw then (slots (idIndex cfg raw)).timedOut else false

/-- What a check finds about a slot. -/
inductive Verdict
  | timeout
  | recovered
  deriving DecidableEq

def late (now : Nat) (slot : Slot) : Bool := now > slot.lastBeatUs && now - slot.lastBeatUs > slot.timeoutUs

def judge (now : Nat) (slot : Slot) : Slot × Option Verdict :=
  if late now slot && !slot.timedOut then ({ slot with timedOut := true }, some .timeout)
  else if !late now slot && slot.timedOut then ({ slot with timedOut := false }, some .recovered)
  else (slot, none)

def check (now : Nat) (slots : Slots) : Slots := fun i =>
  if i < cfg.maxThreads && (slots i).active then (judge now (slots i)).1 else slots i

end

section

variable {cfg : Config}

theorem Config.kSlotBits_le (cfg : Config) : cfg.kSlotBits ≤ 8 := by
  unfold kSlotBits
  split_ifs <;> decide

theorem Config.maxThreads_le (cfg : Config) : cfg.maxThreads ≤ 2 ^ cfg.kSlotBits := by
  have le := cfg.le
  unfold kSlotBits
  split_ifs <;> omega

section

variable (small : i < cfg.maxThreads) (generation : Nat)
include small generation

theorem encode_eq : encode cfg generation i = i + 2 ^ cfg.kSlotBits * (generation % 2 ^ (32 - cfg.kSlotBits)) := by
  have bits := cfg.kSlotBits_le
  have split : 4294967296 = 2 ^ cfg.kSlotBits * 2 ^ (32 - cfg.kSlotBits) := by
    rw [← Nat.pow_add, Nat.add_sub_cancel' (by omega)]
  have shifted : wrap32 (generation <<< cfg.kSlotBits) = (generation % 2 ^ (32 - cfg.kSlotBits)) <<< cfg.kSlotBits := by
    rw [wrap32, Nat.shiftLeft_eq, Nat.shiftLeft_eq, mul_comm, split, Nat.mul_mod_mul_left, mul_comm]
  rw [encode, shifted, Nat.or_comm, or_shiftLeft (lt_of_lt_of_le small cfg.maxThreads_le)]

theorem idIndex_encode : idIndex cfg (encode cfg generation i) = i := by
  rw [idIndex, Config.kSlotMask, Nat.and_two_pow_sub_one_eq_mod, encode_eq small, Nat.add_mul_mod_self_left]
  exact Nat.mod_eq_of_lt (lt_of_lt_of_le small cfg.maxThreads_le)

theorem idGeneration_encode : idGeneration cfg (encode cfg generation i) = generation % 2 ^ (32 - cfg.kSlotBits) := by
  rw [idGeneration, Nat.shiftRight_eq_div_pow, encode_eq small, Nat.add_mul_div_left _ _ (Nat.two_pow_pos _),
    Nat.div_eq_of_lt (lt_of_lt_of_le small cfg.maxThreads_le), zero_add]

theorem accepts_encode (slots : Slots) : accepts cfg slots (encode cfg generation i) = true ↔
      (slots i).active = true ∧ (slots i).generation = generation % 2 ^ (32 - cfg.kSlotBits) := by
  simp only [accepts, idIndex_encode small, idGeneration_encode small, small, decide_true, Bool.true_and, Bool.and_eq_true,
    decide_eq_true_eq]

end

theorem freeSlot_some {slots : Slots} (free : freeSlot cfg slots = some i) :
    i < cfg.maxThreads ∧ (slots i).active = false := by
  have inside := mem_range.1 (mem_of_find?_eq_some free)
  have inactive := find?_some free
  simp only [Bool.not_eq_true'] at inactive
  exact ⟨inside,inactive⟩

end

end Newosp.Watchdog
