import Newosp.Serial.Receiver

/-!
# The receiver against arbitrary input

Whatever arrives and when, the collected part of the buffer is the end of the stream, and the state says how much of a
frame it is. So every access is inside the buffer, and a payload that is handed on is that of a complete frame in the
stream.
-/

namespace Newosp.Serial
open Lib List Function
open Option (bind_eq_bind bind_some map_some)

/-- A complete frame, field by field, and the delivery that it stands for. -/
structure WellFormed (frameMaxSize : Nat) (frame : List UInt8) (d : Delivery) : Prop where
  sync : frame.take 2 = [kSerialSyncByte1, kSerialSyncByte2]
  magic : readLE16 (ofList frame) 2 = kSerialMagic
  msgLen : (readLE16 (ofList frame) 4).toNat + 1 = frame.length
  size : frame.length = kSerialMinFrameSize + d.payload.length
  fits : frame.length ≤ frameMaxSize
  seq : readLE16 (ofList frame) 6 = d.seq
  typeIndex : readLE16 (ofList frame) 8 = d.typeIndex
  payload : (frame.drop kSerialHeaderSize).take d.payload.length = d.payload
  crc : readLE16 (ofList frame) (kSerialHeaderSize + d.payload.length) =
    crc16 (frame.take (kSerialHeaderSize + d.payload.length))
  tail : ofList frame (kSerialHeaderSize + d.payload.length + kSerialCrcSize) = kSerialTailByte

structure HeaderOk (cfg : SerialConfig) (r : Receiver) : Prop where
  sync : slice r.rxBuf 0 2 = [kSerialSyncByte1, kSerialSyncByte2]
  magic : readLE16 r.rxBuf 2 = kSerialMagic
  msgLen : (readLE16 r.rxBuf 4).toNat = r.rxMsgLen
  least : kSerialHeaderSize + kSerialCrcSize ≤ r.rxMsgLen
  fits : r.rxMsgLen + 1 ≤ cfg.frameMaxSize
  payloadSize : r.rxMsgLen = kSerialHeaderSize + kSerialCrcSize + r.rxPayloadSize

/-- How much of a frame is collected. -/
def Shape (cfg : SerialConfig) (r : Receiver) : Prop :=
  match r.rxState with
  | .idle => r.rxPos = 0
  | .waitSync2 => r.rxPos = 1 ∧ r.rxBuf 0 = kSerialSyncByte1
  | .waitHeader => 2 ≤ r.rxPos ∧ r.rxPos < kSerialHeaderSize ∧
      slice r.rxBuf 0 2 = [kSerialSyncByte1, kSerialSyncByte2]
  | .waitPayload => HeaderOk cfg r ∧ kSerialHeaderSize ≤ r.rxPos ∧ r.rxPos < kSerialHeaderSize + r.rxPayloadSize
  | .waitCrc => HeaderOk cfg r ∧ kSerialHeaderSize + r.rxPayloadSize ≤ r.rxPos ∧ r.rxPos ≤ r.rxMsgLen

def Backed (cfg : SerialConfig) (stream : List UInt8) (ds : List Delivery) : Prop :=
  ∀ d ∈ ds, ∃ frame, frame <:+: stream ∧ WellFormed cfg.frameMaxSize frame d

/-- The receiver between two bytes, after `stream`. -/
structure Inv (cfg : SerialConfig) (stream : List UInt8) (r : Receiver) : Prop where
  suffix : slice r.rxBuf 0 r.rxPos <:+ stream
  shape : Shape cfg r
  backed : Backed cfg stream r.delivered

variable {cfg : SerialConfig} {stream : List UInt8} {r : Receiver}

section

variable {byte : UInt8}

theorem Backed.append (h : Backed cfg stream r.delivered) (byte : UInt8) : Backed cfg (stream ++ [byte]) r.delivered := by
  intro d member
  obtain ⟨frame,inside,ok⟩ := h d member
  exact ⟨frame,inside.trans (prefix_append ..).isInfix,ok⟩

theorem Inv.reset (backed : Backed cfg stream r.delivered) : Inv cfg stream r.reset where
  suffix := nil_suffix
  shape := rfl
  backed := backed

theorem Receiver.store_eq {i : Nat} (inside : i < cfg.maxFrameSize) (byte : UInt8) :
    r.store cfg i byte = some { r with rxBuf := update r.rxBuf i byte } := if_pos inside

def Receiver.grown (r : Receiver) (byte : UInt8) : Receiver :=
  { r with rxBuf := update r.rxBuf r.rxPos byte, rxPos := r.rxPos + 1 }

theorem Receiver.collect_eq (inside : r.rxPos < cfg.maxFrameSize) (byte : UInt8) :
    r.collect cfg byte = some (r.grown byte) := by
  rw [Receiver.collect, Receiver.store_eq inside, map_some]
  rfl

theorem Receiver.grown_slice (r : Receiver) (byte : UInt8) :
    slice (r.grown byte).rxBuf 0 (r.grown byte).rxPos = slice r.rxBuf 0 r.rxPos ++ [byte] := slice_update ..

theorem Inv.grown_suffix (h : Inv cfg stream r) (byte : UInt8) :
    slice (r.grown byte).rxBuf 0 (r.grown byte).rxPos <:+ stream ++ [byte] := by
  rw [Receiver.grown_slice]
  obtain ⟨front,eq⟩ := h.suffix
  exact ⟨front,by rw [← append_assoc, eq]⟩

theorem grown_readLE16 {p : Nat} (before : p + 1 < r.rxPos) : readLE16 (r.grown byte).rxBuf p = readLE16 r.rxBuf p :=
  readLE16_congr (update_of_ne (by omega) ..) (update_of_ne (by omega) ..)

theorem grown_sync (two : 2 ≤ r.rxPos) : slice (r.grown byte).rxBuf 0 2 = slice r.rxBuf 0 2 := by
  apply slice_congr
  intro i lt
  exact update_of_ne (by omega) ..

theorem HeaderOk.grown (h : HeaderOk cfg r) (byte : UInt8) (whole : kSerialHeaderSize ≤ r.rxPos) :
    HeaderOk cfg (r.grown byte) := by
  have ten : 10 ≤ r.rxPos := whole
  constructor
  case sync => rw [grown_sync (by omega)]; exact h.sync
  case magic => rw [grown_readLE16 (by omega)]; exact h.magic
  case msgLen => rw [grown_readLE16 (by omega)]; exact h.msgLen
  case least => exact h.least
  case fits => exact h.fits
  case payloadSize => exact h.payloadSize

def Receiver.begun (r : Receiver) (byte : UInt8) : Receiver :=
  { r with rxBuf := update r.rxBuf 0 byte, rxPos := 1, rxState := .waitSync2 }

theorem Receiver.begin_eq (r : Receiver) (byte : UInt8) : r.begin cfg byte = some (r.begun byte) := by
  have room : 0 < cfg.maxFrameSize := lt_of_lt_of_le (by decide) cfg.holdsMinimum
  rw [Receiver.begin, Receiver.store_eq room, map_some]
  rfl

theorem Inv.begun (backed : Backed cfg (stream ++ [byte]) r.delivered) (sync : byte = kSerialSyncByte1) :
    Inv cfg (stream ++ [byte]) (r.begun byte) := by
  have first : update r.rxBuf 0 byte 0 = kSerialSyncByte1 := (update_self ..).trans sync
  have one : slice (update r.rxBuf 0 byte) 0 1 = [byte] := slice_update r.rxBuf 0 byte
  constructor
  case suffix =>
    simp only [Receiver.begun, one]
    exact suffix_append ..
  case shape => exact ⟨rfl,first⟩
  case backed => exact backed

theorem exactSub_eq {a b : Nat} (le : b ≤ a) : exactSub a b = some (a - b) := if_pos le

theorem parseHeader_inv (suffix : slice r.rxBuf 0 r.rxPos <:+ stream) (whole : r.rxPos = kSerialHeaderSize)
    (sync : slice r.rxBuf 0 2 = [kSerialSyncByte1, kSerialSyncByte2]) (backed : Backed cfg stream r.delivered) :
    ∃ r', parseHeader cfg r = some r' ∧ Inv cfg stream r' := by
  unfold parseHeader
  dsimp only
  split
  · exact ⟨_,rfl,Inv.reset backed⟩
  rename_i magic
  split
  · exact ⟨_,rfl,{ suffix := nil_suffix, shape := rfl, backed := backed }⟩
  rename_i sane
  obtain ⟨fits,least⟩ := not_or.1 sane
  rw [exactSub_eq (Nat.le_of_not_lt least), map_some]
  refine ⟨_,rfl,{ suffix := suffix, shape := ?_, backed := backed }⟩
  have header : ∀ state, HeaderOk cfg { r with
      rxMsgLen := (readLE16 r.rxBuf 4).toNat
      rxPayloadSize := (readLE16 r.rxBuf 4).toNat - (kSerialHeaderSize + kSerialCrcSize)
      rxState := state } := by
    intro state
    exact {
      sync := sync
      magic := Decidable.not_not.1 magic
      msgLen := rfl
      least := Nat.le_of_not_lt least
      fits := Nat.le_of_not_lt fits
      payloadSize := (Nat.add_sub_cancel' (Nat.le_of_not_lt least)).symm }
  simp only [Shape]
  by_cases some_ : 0 < (readLE16 r.rxBuf 4).toNat - (kSerialHeaderSize + kSerialCrcSize)
  · rw [if_pos some_]
    exact ⟨header _,whole.ge,by rw [whole]; exact Nat.lt_add_of_pos_right some_⟩
  · rw [if_neg some_]
    refine ⟨header _,by rw [whole]; omega,?_⟩
    rw [whole]
    exact (Nat.le_add_right ..).trans (Nat.le_of_not_lt least)

theorem readLE16_slice {buf : Nat → UInt8} {p n : Nat} (inside : p + 1 < n) :
    readLE16 (ofList (slice buf 0 n)) p = readLE16 buf p :=
  readLE16_congr (ofList_slice (by omega)) (ofList_slice inside)

theorem wellFormed_of_checks (header : HeaderOk cfg r) (tail : r.rxBuf r.rxMsgLen = kSerialTailByte)
    (crc : crc16 (slice r.rxBuf 0 (r.rxMsgLen - kSerialCrcSize)) = readLE16 r.rxBuf (r.rxMsgLen - kSerialCrcSize)) :
    WellFormed cfg.frameMaxSize (slice r.rxBuf 0 (r.rxMsgLen + 1))
      { payload := slice r.rxBuf kSerialHeaderSize r.rxPayloadSize
        typeIndex := readLE16 r.rxBuf 8
        seq := readLE16 r.rxBuf 6 } := by
  have size : r.rxMsgLen = 12 + r.rxPayloadSize := header.payloadSize
  have len : r.rxMsgLen - kSerialCrcSize = 10 + r.rxPayloadSize := by
    rw [size]
    simp only [kSerialCrcSize]
    omega
  rw [len] at crc
  constructor
  case sync => rw [slice_take (by omega)]; exact header.sync
  case magic => rw [readLE16_slice (by omega)]; exact header.magic
  case msgLen => rw [readLE16_slice (by omega), header.msgLen, slice_length]
  case size =>
    rw [slice_length, slice_length, size]
    simp only [kSerialMinFrameSize, kSerialHeaderSize, kSerialTrailerSize]
    omega
  case fits => rw [slice_length]; exact header.fits
  case seq => rw [readLE16_slice (by omega)]
  case typeIndex => rw [readLE16_slice (by omega)]
  case payload =>
    simp only [slice_length, kSerialHeaderSize]
    rw [slice_drop (by omega), slice_take (by omega)]
  case crc =>
    simp only [slice_length, kSerialHeaderSize]
    rw [readLE16_slice (by omega), slice_take (by omega)]
    exact crc.symm
  case tail =>
    simp only [slice_length, kSerialHeaderSize, kSerialCrcSize]
    rw [ofList_slice (by omega), show 10 + r.rxPayloadSize + 2 = r.rxMsgLen by omega]
    exact tail

theorem validateAndDeliver_inv (small : cfg.frameMaxSize ≤ cfg.maxFrameSize)
    (suffix : slice r.rxBuf 0 r.rxPos <:+ stream) (header : HeaderOk cfg r) (whole : r.rxPos = r.rxMsgLen + 1)
    (backed : Backed cfg stream r.delivered) : ∃ r', validateAndDeliver cfg r = some r' ∧ Inv cfg stream r' := by
  have fits := header.fits
  have size : r.rxMsgLen = 12 + r.rxPayloadSize := header.payloadSize
  have two : kSerialCrcSize ≤ r.rxMsgLen := by
    rw [size]
    simp only [kSerialCrcSize]
    omega
  have inside : r.rxMsgLen < cfg.maxFrameSize := by omega
  have payload : kSerialHeaderSize + r.rxPayloadSize ≤ cfg.maxFrameSize := by
    simp only [kSerialHeaderSize]
    omega
  unfold validateAndDeliver
  simp only [guard, if_pos inside, if_pos payload, exactSub_eq two, Option.pure_def, bind_eq_bind,
    bind_some]
  split
  · exact ⟨_,rfl,Inv.reset backed⟩
  rename_i tail
  split
  · exact ⟨_,rfl,Inv.reset backed⟩
  rename_i crc
  refine ⟨_,rfl,Inv.reset ?_⟩
  intro d member
  simp only [Receiver.deliver] at member
  rcases mem_append.1 member with old | new
  · exact backed d old
  · rw [mem_singleton.1 new]
    rw [whole] at suffix
    exact ⟨_,suffix.isInfix,wellFormed_of_checks header (Decidable.not_not.1 tail) (Decidable.not_not.1 crc)⟩

theorem Inv.below (h : Inv cfg stream r) {limit : Nat} (room : 13 ≤ limit) (small : cfg.frameMaxSize ≤ limit) :
    r.rxPos < limit := by
  have shape := h.shape
  unfold Shape at shape
  cases state : r.rxState <;> simp only [state] at shape
  case idle => omega
  case waitSync2 => omega
  case waitHeader =>
    have short : r.rxPos < 10 := shape.2.1
    omega
  case waitPayload =>
    obtain ⟨header,_,less⟩ := shape
    have fits := header.fits
    have size : r.rxMsgLen = 12 + r.rxPayloadSize := header.payloadSize
    have short : r.rxPos < 10 + r.rxPayloadSize := less
    omega
  case waitCrc =>
    obtain ⟨header,_,most⟩ := shape
    have fits := header.fits
    omega

theorem Inv.inside (h : Inv cfg stream r) (small : cfg.frameMaxSize ≤ cfg.maxFrameSize) : r.rxPos < cfg.maxFrameSize :=
  h.below cfg.holdsMinimum small

/-- One byte is taken without a fault and keeps the invariant. -/
theorem Inv.feedByte (h : Inv cfg stream r) (small : cfg.frameMaxSize ≤ cfg.maxFrameSize) (byte : UInt8) :
    ∃ r', feedByte cfg r byte = some r' ∧ Inv cfg (stream ++ [byte]) r' := by
  have inside := h.inside small
  have backed := h.backed.append byte
  have suffix := h.grown_suffix byte
  have shape := h.shape
  unfold Shape at shape
  unfold Serial.feedByte
  cases state : r.rxState <;> simp only [state] at shape ⊢
  case idle =>
    split
    · rename_i sync
      exact ⟨_,Receiver.begin_eq r byte,Inv.begun backed sync⟩
    · refine ⟨_,rfl,{ suffix := ?_, shape := ?_, backed := backed }⟩
      · simp only [Receiver.syncError, shape, slice_zero]
        exact nil_suffix
      · simp only [Shape, Receiver.syncError, state]
        exact shape
  case waitSync2 =>
    split
    · rename_i sync
      rw [Receiver.collect_eq inside, map_some]
      refine ⟨_,rfl,{ suffix := suffix, shape := ?_, backed := backed }⟩
      have two : (r.grown byte).rxPos = 2 := congrArg (· + 1) shape.1
      have bytes : slice (r.grown byte).rxBuf 0 2 = [kSerialSyncByte1, kSerialSyncByte2] := by
        have grown := r.grown_slice byte
        rw [two, shape.1] at grown
        rw [grown, sync, ← shape.2]
        rfl
      exact ⟨two.ge,by rw [two]; decide,bytes⟩
    · split
      · rename_i sync
        exact ⟨_,Receiver.begin_eq _ byte,Inv.begun backed sync⟩
      · exact ⟨_,rfl,Inv.reset backed⟩
  case waitHeader =>
    obtain ⟨two,short,sync⟩ := shape
    rw [Receiver.collect_eq inside]
    simp only [bind_eq_bind, bind_some, Option.pure_def]
    have bytes : slice (r.grown byte).rxBuf 0 2 = [kSerialSyncByte1, kSerialSyncByte2] := (grown_sync two).trans sync
    have pos : (r.grown byte).rxPos = r.rxPos + 1 := rfl
    split
    · refine ⟨_,rfl,Inv.reset ?_⟩
      unfold handleAckFrame
      split <;> exact backed
    · split
      · rename_i whole
        exact parseHeader_inv suffix (by rw [pos] at whole ⊢; omega) bytes backed
      · rename_i more
        refine ⟨_,rfl,{ suffix := suffix, shape := ?_, backed := backed }⟩
        simp only [Shape, Receiver.grown, state]
        exact ⟨by omega,Nat.lt_of_not_le more,bytes⟩
  case waitPayload =>
    obtain ⟨header,whole,less⟩ := shape
    have pos : (r.grown byte).rxPos = r.rxPos + 1 := rfl
    have size : (r.grown byte).rxPayloadSize = r.rxPayloadSize := rfl
    have total : r.rxMsgLen = 12 + r.rxPayloadSize := header.payloadSize
    have ten : kSerialHeaderSize ≤ (r.grown byte).rxPos := by rw [pos]; omega
    have header' := header.grown byte whole
    rw [Receiver.collect_eq inside]
    simp only [bind_eq_bind, bind_some, Option.pure_def, exactSub_eq ten]
    split
    · rename_i done
      refine ⟨_,rfl,{ suffix := suffix, shape := ?_, backed := backed }⟩
      refine ⟨{ header' with },?_,?_⟩
      · rw [size] at done
        change kSerialHeaderSize + r.rxPayloadSize ≤ (r.grown byte).rxPos
        omega
      · change r.rxPos + 1 ≤ r.rxMsgLen
        simp only [kSerialHeaderSize] at less
        omega
    · rename_i more
      refine ⟨_,rfl,{ suffix := suffix, shape := ?_, backed := backed }⟩
      simp only [Shape, Receiver.grown, state]
      refine ⟨{ header' with },ten,?_⟩
      rw [size] at more
      change (r.grown byte).rxPos < kSerialHeaderSize + r.rxPayloadSize
      omega
  case waitCrc =>
    obtain ⟨header,whole,most⟩ := shape
    have ten : kSerialHeaderSize ≤ r.rxPos := (Nat.le_add_right ..).trans whole
    have header' := header.grown byte ten
    rw [Receiver.collect_eq inside]
    simp only [bind_eq_bind, bind_some, Option.pure_def]
    split
    · rename_i done
      refine validateAndDeliver_inv small suffix header' ?_ backed
      change r.rxPos + 1 = r.rxMsgLen + 1
      change r.rxMsgLen + 1 ≤ r.rxPos + 1 at done
      omega
    · rename_i more
      refine ⟨_,rfl,{ suffix := suffix, shape := ?_, backed := backed }⟩
      simp only [Shape, Receiver.grown, state]
      refine ⟨{ header' with },?_,?_⟩
      · omega
      · change ¬ r.rxMsgLen + 1 ≤ r.rxPos + 1 at more
        omega

end

/-- What happens to a receiver: a byte is read at time `now`, or the parser is reset. -/
inductive Event
  | byte (now : Nat) (b : UInt8)
  | reset

def Event.bytes : Event → List UInt8
  | .byte _ b => [b]
  | .reset => []

def Event.step (cfg : SerialConfig) (r : Receiver) : Event → Option Receiver
  | .byte now b => receiveByte cfg now r b
  | .reset => some r.reset

def Event.run (cfg : SerialConfig) : List Event → Receiver → Option Receiver
  | [], r => some r
  | e :: es, r => (e.step cfg r).bind (Event.run cfg es)

section

variable (small : cfg.frameMaxSize ≤ cfg.maxFrameSize)
include small

theorem Inv.receiveByte (h : Inv cfg stream r) (now : Nat) (byte : UInt8) :
    ∃ r', receiveByte cfg now r byte = some r' ∧ Inv cfg (stream ++ [byte]) r' := by
  unfold Serial.receiveByte
  dsimp only
  split
  · have fresh : Inv cfg stream { r.timeoutError.reset with lastByteTimeMs := now } :=
      { suffix := nil_suffix, shape := rfl, backed := h.backed }
    exact fresh.feedByte small byte
  · have same : Inv cfg stream { r with lastByteTimeMs := now } :=
      { suffix := h.suffix
        shape := by
          have shape := h.shape
          unfold Shape at shape ⊢
          cases state : r.rxState <;> simp only [state] at shape ⊢
          case waitPayload | waitCrc => exact ⟨{ shape.1 with },shape.2⟩
          all_goals exact shape
        backed := h.backed }
    exact same.feedByte small byte

theorem Inv.run (events : List Event) : ∀ {stream r}, Inv cfg stream r →
      ∃ r', Event.run cfg events r = some r' ∧ Inv cfg (stream ++ events.flatMap Event.bytes) r' := by
  induction events with
  | nil =>
    intro stream r h
    exact ⟨r,rfl,by rw [flatMap_nil, append_nil]; exact h⟩
  | cons e events ih =>
    intro stream r h
    have one : ∃ r', e.step cfg r = some r' ∧ Inv cfg (stream ++ e.bytes) r' := by
      cases e with
      | byte now b => exact h.receiveByte small now b
      | reset =>
        refine ⟨r.reset,rfl,?_⟩
        rw [Event.bytes, append_nil]
        exact Inv.reset h.backed
    obtain ⟨r',step,kept⟩ := one
    obtain ⟨last,rest,holds⟩ := ih kept
    refine ⟨last,?_,?_⟩
    · rw [Event.run, step]
      exact rest
    · rw [flatMap_cons, ← append_assoc]
      exact holds

theorem run_inv (rxBuf : Nat → UInt8) (events : List Event) :
    ∃ r, Event.run cfg events (newReceiver rxBuf) = some r ∧ Inv cfg (events.flatMap Event.bytes) r := by
  have start : Inv cfg [] (newReceiver rxBuf) :=
    { suffix := nil_suffix, shape := rfl, backed := fun d member => absurd member not_mem_nil }
  exact start.run small events

/-- **Soundness**: from any buffer content and for any bytes, times and resets, the receiver never faults, its write
index stays inside the buffer, and every payload that it hands on belongs to a complete frame in the stream. -/
theorem receiver_sound (rxBuf : Nat → UInt8) (events : List Event) :
    ∃ r, Event.run cfg events (newReceiver rxBuf) = some r ∧ r.rxPos < cfg.maxFrameSize ∧
      ∀ d ∈ r.delivered, ∃ frame, frame <:+: events.flatMap Event.bytes ∧ WellFormed cfg.frameMaxSize frame d := by
  obtain ⟨r,run,inv⟩ := run_inv small rxBuf events
  exact ⟨r,run,inv.inside small,inv.backed⟩

end

def smallConfig : SerialConfig where
  maxFrameSize := 32
  holdsMinimum := by decide
  fitsWord := by decide
  frameMaxSize := 32
  interByteTimeoutMs := 50
  enableAck := false
  enableSeqCheck := true
  maxFramesPerSecond := 1000

/-- Noise, half a frame that times out, and a frame with a sync word in its payload. -/
def noisy : List Event :=
  [.byte 1 0xAA, .byte 1 0xAA, .byte 1 0x55, .byte 2 0x53, .byte 2 0x4F] ++
    (frameBytes 14 3 7 [0xAA, 0x55]).map (Event.byte 90)

theorem receiver_sound_noisy : ∃ r, Event.run smallConfig noisy (newReceiver fun _ => 0) = some r ∧
    r.delivered = [⟨[0xAA, 0x55], 7, 3⟩] ∧ r.stats.timeoutErrors = 1 ∧ r.rxPos < 32 ∧
    ∀ d ∈ r.delivered, ∃ frame, frame <:+: noisy.flatMap Event.bytes ∧ WellFormed 32 frame d := by
  obtain ⟨r,run,inside,backed⟩ := @receiver_sound smallConfig (by decide) (fun _ => 0) noisy
  have outcome : (Event.run smallConfig noisy (newReceiver fun _ => 0)).map
      (fun r => (r.delivered, r.stats.timeoutErrors)) = some ([⟨[0xAA, 0x55],7,3⟩], 1) := by
    decide +kernel
  rw [run, map_some] at outcome
  obtain ⟨delivered,late⟩ := Prod.mk.inj (Option.some.inj outcome)
  exact ⟨r,run,delivered,late,inside,backed⟩

end Newosp.Serial
