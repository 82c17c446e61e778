import Newosp.Lib.BitField

/-!
# `Breaker`

The level, the cooldown, five small counters and a flag are packed into one word, which every event reads, changes and
writes back in one step. Nothing is lost: the counters saturate at 3 and the cooldown has 16 bits.
-/

namespace Newosp.Breaker
open Lib

/-- Recovering leads back to Normal. -/
inductive BreakerLevel
  | normal
  | brokenL1
  | brokenL2
  | safe
  | recovering
  deriving DecidableEq

def kDirectTimeoutThreshold : Nat := 3
def kRtcTimeoutThreshold : Nat := 3
/-- Above this percentage a sample is high. -/
def kWatermarkViolationPct : UInt8 := 80
/-- Below this percentage a sample is low. -/
def kLowWatermarkPct : UInt8 := 50
def kHighWatermarkPersist : Nat := 3
def kLowWatermarkPersist : Nat := 3
def kHealthyWindowsRequired : Nat := 3

/-- Where the fields begin. -/
def kLevelShift : Nat := 0
def kCooldownShift : Nat := 3
def kDirectTimeoutShift : Nat := 19
def kRtcTimeoutShift : Nat := 21
def kHighWatermarkShift : Nat := 23
def kLowWatermarkShift : Nat := 25
def kHealthyWindowShift : Nat := 27
def kProbeSuccessShift : Nat := 29
def kLevelMask : Nat := 0x7
def kCooldownMask : Nat := 0xffff
def kCounterMask : Nat := 0x3

structure State where
  level : BreakerLevel
  cooldownRemaining : Nat
  directTimeoutConsec : Nat
  rtcTimeoutConsec : Nat
  highWatermarkConsec : Nat
  lowWatermarkConsec : Nat
  healthyWindowCount : Nat
  probeSuccess : Bool
  deriving DecidableEq

/-- The value of a level in the word. -/
def BreakerLevel.code : BreakerLevel → Nat
  | normal => 0
  | brokenL1 => 1
  | brokenL2 => 2
  | safe => 3
  | recovering => 4

/-- The level of a value; the values above 4 are never packed. -/
def BreakerLevel.ofCode : Nat → BreakerLevel
  | 0 => normal
  | 1 => brokenL1
  | 2 => brokenL2
  | 3 => safe
  | _ => recovering

/-- `Pack`. -/
def pack (s : State) : Nat :=
  s.level.code <<< kLevelShift ||| s.cooldownRemaining <<< kCooldownShift |||
    s.directTimeoutConsec <<< kDirectTimeoutShift ||| s.rtcTimeoutConsec <<< kRtcTimeoutShift |||
    s.highWatermarkConsec <<< kHighWatermarkShift ||| s.lowWatermarkConsec <<< kLowWatermarkShift |||
    s.healthyWindowCount <<< kHealthyWindowShift ||| s.probeSuccess.toNat <<< kProbeSuccessShift

/-- `Unpack`. -/
def unpack (packed : Nat) : State := {
  level := .ofCode (packed >>> kLevelShift &&& kLevelMask)
  cooldownRemaining := packed >>> kCooldownShift &&& kCooldownMask
  directTimeoutConsec := packed >>> kDirectTimeoutShift &&& kCounterMask
  rtcTimeoutConsec := packed >>> kRtcTimeoutShift &&& kCounterMask
  highWatermarkConsec := packed >>> kHighWatermarkShift &&& kCounterMask
  lowWatermarkConsec := packed >>> kLowWatermarkShift &&& kCounterMask
  healthyWindowCount := packed >>> kHealthyWindowShift &&& kCounterMask
  probeSuccess := packed >>> kProbeSuccessShift &&& 0x1 ≠ 0 }

/-- A counter that saturates. -/
def increment (counter : Nat) : Nat := if counter < kCounterMask then counter + 1 else counter

/-- `ResetMetrics`. -/
def resetMetrics (s : State) : State := {
  s with
  directTimeoutConsec := 0
  rtcTimeoutConsec := 0
  highWatermarkConsec := 0
  lowWatermarkConsec := 0
  healthyWindowCount := 0
  probeSuccess := false }

/-- What `EnterL1`, `EnterL2` and `EnterSafe` share. -/
def enterBroken (level : BreakerLevel) (cooldownCycles : UInt16) (s : State) : State :=
  resetMetrics { s with level, cooldownRemaining := cooldownCycles.toNat }

def enterL1 : UInt16 → State → State := enterBroken .brokenL1
def enterL2 : UInt16 → State → State := enterBroken .brokenL2
def enterSafe : UInt16 → State → State := enterBroken .safe

/-- `EnterRecovering`; the cooldown is left as it is. -/
def enterRecovering (s : State) : State := resetMetrics { s with level := .recovering }

section

variable (cooldownCycles : UInt16) (s : State)

/-- Breaks Normal at the threshold, a recovery at once. -/
def onDirectTimeout : State :=
  let s := { s with directTimeoutConsec := increment s.directTimeoutConsec }
  match s.level with
  | .normal => if kDirectTimeoutThreshold ≤ s.directTimeoutConsec then enterL1 cooldownCycles s else s
  | .brokenL1 | .brokenL2 | .safe => s
  | .recovering => enterL2 cooldownCycles s

/-- As a direct timeout, but to L2, and also from L1. -/
def onRtcTimeout : State :=
  let s := { s with rtcTimeoutConsec := increment s.rtcTimeoutConsec }
  match s.level with
  | .normal | .brokenL1 => if kRtcTimeoutThreshold ≤ s.rtcTimeoutConsec then enterL2 cooldownCycles s else s
  | .brokenL2 | .safe => s
  | .recovering => enterL2 cooldownCycles s

/-- The counters of high and low samples in a row. -/
def sample (percent : UInt8) : State :=
  if percent > kWatermarkViolationPct then
    { s with highWatermarkConsec := increment s.highWatermarkConsec, lowWatermarkConsec := 0 }
  else if percent < kLowWatermarkPct then
    { s with highWatermarkConsec := 0, lowWatermarkConsec := increment s.lowWatermarkConsec }
  else { s with highWatermarkConsec := 0, lowWatermarkConsec := 0 }

/-- High samples in a row break, low ones begin a recovery. -/
def onWatermark (percent : UInt8) : State :=
  let s := sample s percent
  match s.level with
  | .normal => if kHighWatermarkPersist ≤ s.highWatermarkConsec then enterL2 cooldownCycles s else s
  | .brokenL1 =>
    if kHighWatermarkPersist ≤ s.highWatermarkConsec then enterL2 cooldownCycles s
    else if s.cooldownRemaining = 0 ∧ kLowWatermarkPersist ≤ s.lowWatermarkConsec then enterRecovering s
    else s
  | .brokenL2 => if s.cooldownRemaining = 0 ∧ kLowWatermarkPersist ≤ s.lowWatermarkConsec then enterRecovering s else s
  | .safe => s
  | .recovering => if kLowWatermarkPct ≤ percent then enterL2 cooldownCycles s else s

def onWatermarkViolation : State := onWatermark cooldownCycles s (kWatermarkViolationPct + 1)

/-- Leads to L2, except from Safe. -/
def onOverflow : State :=
  match s.level with
  | .normal | .brokenL1 | .recovering => enterL2 cooldownCycles s
  | .brokenL2 | .safe => s

/-- Leads to Safe. -/
def onKeyReserveExhausted : State := if s.level ≠ .safe then enterSafe cooldownCycles s else s

def onWatchdog : State := onKeyReserveExhausted cooldownCycles s

/-- The cooldown runs down; then the probed cycles of a recovery count. -/
def onDispatchCycle : State :=
  let s := if 0 < s.cooldownRemaining then { s with cooldownRemaining := s.cooldownRemaining - 1 } else s
  if s.level = .recovering ∧ s.cooldownRemaining = 0 ∧ s.probeSuccess = true then
    let s := { s with healthyWindowCount := increment s.healthyWindowCount, probeSuccess := false }
    if kHealthyWindowsRequired ≤ s.healthyWindowCount then { s with level := .normal, healthyWindowCount := 0 } else s
  else s

def onProbeSuccess : State := if s.level = .recovering then { s with probeSuccess := true } else s

def onProbeFailure : State := if s.level = .recovering then enterL2 cooldownCycles s else s

/-- The only way out of Safe. -/
def onExternalSafeRestore : State := if s.level = .safe then enterRecovering s else s

def onRtcOk : State := { s with directTimeoutConsec := 0, rtcTimeoutConsec := 0 }

end

/-- The calls of the breaker. -/
inductive Event
  | directTimeout
  | rtcTimeout
  | rtcOk
  | watermark (percent : UInt8)
  | watermarkViolation
  | overflow
  | keyReserveExhausted
  | watchdog
  | dispatchCycle
  | probeSuccess
  | probeFailure
  | externalSafeRestore
  deriving DecidableEq

/-- What an event does to the state. -/
def transition (cooldownCycles : UInt16) : Event → State → State
  | .directTimeout, s => onDirectTimeout cooldownCycles s
  | .rtcTimeout, s => onRtcTimeout cooldownCycles s
  | .rtcOk, s => onRtcOk s
  | .watermark percent, s => onWatermark cooldownCycles s percent
  | .watermarkViolation, s => onWatermarkViolation cooldownCycles s
  | .overflow, s => onOverflow cooldownCycles s
  | .keyReserveExhausted, s => onKeyReserveExhausted cooldownCycles s
  | .watchdog, s => onWatchdog cooldownCycles s
  | .dispatchCycle, s => onDispatchCycle s
  | .probeSuccess, s => onProbeSuccess s
  | .probeFailure, s => onProbeFailure cooldownCycles s
  | .externalSafeRestore, s => onExternalSafeRestore s

/-- A new breaker. -/
def fresh : State := {
  level := .normal
  cooldownRemaining := 0
  directTimeoutConsec := 0
  rtcTimeoutConsec := 0
  highWatermarkConsec := 0
  lowWatermarkConsec := 0
  healthyWindowCount := 0
  probeSuccess := false }

/-- `Update`: the word after an event. -/
def update (cooldownCycles : UInt16) (word : Nat) (e : Event) : Nat := pack (transition cooldownCycles e (unpack word))

/-- The word after a history of events, oldest first. -/
def run (cooldownCycles : UInt16) (history : List Event) : Nat := history.foldl (update cooldownCycles) (pack fresh)

def level (word : Nat) : BreakerLevel := (unpack word).level

/-! ### The packed word -/

/-- The fields fit their widths. -/
structure Valid (s : State) : Prop where
  cooldown : s.cooldownRemaining < 2 ^ 16
  direct : s.directTimeoutConsec ≤ 3
  rtc : s.rtcTimeoutConsec ≤ 3
  high : s.highWatermarkConsec ≤ 3
  low : s.lowWatermarkConsec ≤ 3
  healthy : s.healthyWindowCount ≤ 3

theorem BreakerLevel.code_le (l : BreakerLevel) : l.code ≤ 4 := by
  cases l <;> decide

theorem BreakerLevel.ofCode_code (l : BreakerLevel) : ofCode l.code = l := by
  cases l <;> rfl

section

variable {s : State}

theorem pack_eq (v : Valid s) : pack s = s.level.code + 2 ^ 3 * s.cooldownRemaining + 2 ^ 19 * s.directTimeoutConsec +
    2 ^ 21 * s.rtcTimeoutConsec + 2 ^ 23 * s.highWatermarkConsec + 2 ^ 25 * s.lowWatermarkConsec +
    2 ^ 27 * s.healthyWindowCount + 2 ^ 29 * s.probeSuccess.toNat := by
  obtain ⟨cooldown,direct,rtc,high,low,healthy⟩ := v
  have code := s.level.code_le
  simp only [pack, kLevelShift, kCooldownShift, kDirectTimeoutShift, kRtcTimeoutShift, kHighWatermarkShift,
    kLowWatermarkShift, kHealthyWindowShift, kProbeSuccessShift, Nat.shiftLeft_zero]
  -- from the lowest field up, so that each field meets a word that ends below it
  rw [or_shiftLeft (k := 3) (by omega), or_shiftLeft (k := 19) (by omega), or_shiftLeft (k := 21) (by omega),
    or_shiftLeft (k := 23) (by omega), or_shiftLeft (k := 25) (by omega), or_shiftLeft (k := 27) (by omega),
    or_shiftLeft (k := 29) (by omega)]

theorem unpack_pack (v : Valid s) : unpack (pack s) = s := by
  have word := pack_eq v
  obtain ⟨cooldown,direct,rtc,high,low,healthy⟩ := v
  have code := s.level.code_le
  have flag := s.probeSuccess.toNat_le
  generalize pack s = w at word
  have read : ∀ k m, w >>> k &&& (2 ^ m - 1) = w / 2 ^ k % 2 ^ m := shiftRight_and w
  have level : w >>> kLevelShift &&& kLevelMask = s.level.code := (read 0 3).trans (by omega)
  have cooldown' : w >>> kCooldownShift &&& kCooldownMask = s.cooldownRemaining := (read 3 16).trans (by omega)
  have direct' : w >>> kDirectTimeoutShift &&& kCounterMask = s.directTimeoutConsec := (read 19 2).trans (by omega)
  have rtc' : w >>> kRtcTimeoutShift &&& kCounterMask = s.rtcTimeoutConsec := (read 21 2).trans (by omega)
  have high' : w >>> kHighWatermarkShift &&& kCounterMask = s.highWatermarkConsec := (read 23 2).trans (by omega)
  have low' : w >>> kLowWatermarkShift &&& kCounterMask = s.lowWatermarkConsec := (read 25 2).trans (by omega)
  have healthy' : w >>> kHealthyWindowShift &&& kCounterMask = s.healthyWindowCount := (read 27 2).trans (by omega)
  have flag' : w >>> kProbeSuccessShift &&& 0x1 = s.probeSuccess.toNat := (read 29 1).trans (by omega)
  rw [unpack, level, cooldown', direct', rtc', high', low', healthy', flag', BreakerLevel.ofCode_code]
  cases s with
  | mk l c d r h lo w p => cases p <;> rfl

end

end Newosp.Breaker
