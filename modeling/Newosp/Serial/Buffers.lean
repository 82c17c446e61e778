import Newosp.Serial.RoundTrip

/-!
# The buffers of both directions

`Send` compares the size of its frame with `frame_max_size` in 32 bits, and builds it in a buffer of
`OSP_SERIAL_MAX_FRAME_SIZE` bytes; the receiver has one of the same size.
-/

namespace Newosp.Serial
open Lib List

/-- The bytes of a field are stored behind those in the buffer. -/
def put (cfg : SerialConfig) (buf bytes : List UInt8) : Option (List UInt8) :=
  if buf.length + bytes.length ≤ cfg.maxFrameSize then some (buf ++ bytes) else none

/-- `Send` fills its buffer; the result is what it hands to `WriteAll`. -/
def fill (cfg : SerialConfig) (msgLen seq typeIndex : UInt16) (payload : List UInt8) : Option (List UInt8) := do
  let buf ← put cfg [] [kSerialSyncByte1, kSerialSyncByte2]
  let buf ← put cfg buf (writeLE16 kSerialMagic)
  let buf ← put cfg buf (writeLE16 msgLen)
  let buf ← put cfg buf (writeLE16 seq)
  let buf ← put cfg buf (writeLE16 typeIndex)
  let buf ← put cfg buf payload
  let buf ← put cfg buf (writeLE16 (crc16 buf))
  put cfg buf [kSerialTailByte]

/-- `Send` once the rate limiter has let it pass: the size check and the frame. A null payload is not copied. -/
def buildFrame (cfg : SerialConfig) (seq typeIndex : UInt16) (payload : Option (Nat → UInt8)) (size : UInt32) :
    Except SerialError (Option (List UInt8)) :=
  let msgLen := wrapTo 32 (kSerialHeaderSize + size.toNat + kSerialCrcSize)
  let total := wrapTo 32 (msgLen + 1)
  if cfg.frameMaxSize < total then .error .frameOversize
  else .ok (fill cfg (UInt16.ofNat msgLen) seq typeIndex (payload.elim [] (slice · 0 size.toNat)))

/-- No index is out of range, neither in a call of `Send` nor in the receiver, and the call is refused if its frame is too
large. -/
structure MemorySafe (cfg : SerialConfig) (payload : Option (Nat → UInt8)) (size : UInt32) : Prop where
  transmit : ∀ seq typeIndex, buildFrame cfg seq typeIndex payload size ≠ .ok none
  oversize : cfg.frameMaxSize < size.toNat + kSerialMinFrameSize → ∀ seq typeIndex,
    buildFrame cfg seq typeIndex payload size = .error .frameOversize
  receive : ∀ rxBuf events, Event.run cfg events (newReceiver rxBuf) ≠ none

section

variable {cfg : SerialConfig}

theorem put_bind (buf bytes : List UInt8) (k : List UInt8 → Option (List UInt8)) : (put cfg buf bytes).bind k =
    if buf.length + bytes.length ≤ cfg.maxFrameSize then k (buf ++ bytes) else none := by
  unfold put
  split <;> rfl

theorem fill_eq (msgLen seq typeIndex : UInt16) (payload : List UInt8) : fill cfg msgLen seq typeIndex payload =
    if kSerialMinFrameSize + payload.length ≤ cfg.maxFrameSize then some (frameBytes msgLen seq typeIndex payload)
    else none := by
  have room : 13 ≤ cfg.maxFrameSize := cfg.holdsMinimum
  have size : kSerialMinFrameSize = 13 := rfl
  simp only [fill, Option.bind_eq_bind, put_bind, length_append, writeLE16_length, length_cons, length_nil, size]
  rw [if_pos (by omega), if_pos (by omega), if_pos (by omega), if_pos (by omega), if_pos (by omega)]
  by_cases fits : 13 + payload.length ≤ cfg.maxFrameSize
  · rw [if_pos fits, if_pos (by omega), if_pos (by omega)]
    simp only [put, length_append, writeLE16_length, length_cons, length_nil]
    rw [if_pos (by omega)]
    simp only [frameBytes, frameBody, nil_append, append_assoc]
  · rw [if_neg fits]
    split
    · split
      · rw [put, if_neg]
        simp only [length_append, writeLE16_length, length_cons, length_nil]
        omega
      · rfl
    · rfl

theorem buildFrame_error_iff {seq typeIndex : UInt16} {payload : Option (Nat → UInt8)} {size : UInt32}
    (word : cfg.frameMaxSize < 2 ^ 32) :
    buildFrame cfg seq typeIndex payload size = .error .frameOversize ↔ cfg.frameMaxSize < size.toNat + 13 ∧
      ¬ (2 ^ 32 ≤ size.toNat + 13 ∧ size.toNat + 13 ≤ 2 ^ 32 + cfg.frameMaxSize) := by
  have lt := size.toNat_lt
  have check : cfg.frameMaxSize < wrapTo 32 (wrapTo 32 (kSerialHeaderSize + size.toNat + kSerialCrcSize) + 1) ↔
      cfg.frameMaxSize < size.toNat + 13 ∧
        ¬ (2 ^ 32 ≤ size.toNat + 13 ∧ size.toNat + 13 ≤ 2 ^ 32 + cfg.frameMaxSize) := by
    simp only [wrapTo, kSerialHeaderSize, kSerialCrcSize]
    omega
  rw [← check, buildFrame]
  split
  · exact iff_of_true rfl ‹_›
  · exact iff_of_false (by simp) ‹_›

end

section

variable {cfg : SerialConfig} {f : List UInt8} {r₀ : Receiver}

theorem At.full {r : Receiver} (h : At f cfg.maxFrameSize r₀ r) (long : f.length = cfg.maxFrameSize + 1) {byte : UInt8} :
    feedByte cfg r byte = none := by
  have room : 13 ≤ cfg.maxFrameSize := cfg.holdsMinimum
  have waiting : r.rxState = .waitCrc := h.state.trans (stateAt_crc (by omega) (by omega))
  have outside : ¬ r.rxPos < cfg.maxFrameSize := by
    rw [h.pos]
    exact lt_irrefl _
  simp only [feedByte, waiting, Receiver.collect, Receiver.store, if_neg outside]
  rfl

theorem At.overrun (ok : Announced cfg f) (long : f.length = cfg.maxFrameSize + 1) (bytes : List UInt8) :
    ∀ {n r}, At f n r₀ r → r.lastByteTimeMs = 0 → n ≤ cfg.maxFrameSize → bytes = f.drop n →
      Event.run cfg (bytes.map (.byte 0)) r = none := by
  induction bytes with
  | nil =>
    intro n r _ _ le rest
    have := congrArg length rest
    rw [length_nil, length_drop] at this
    omega
  | cons byte bytes ih =>
    intro n r h never le rest
    have here : f[n]? = some byte := by
      have := congrArg head? rest
      rwa [head?_cons, head?_drop, eq_comm] at this
    have moved : At f n r₀ { r with lastByteTimeMs := 0 } := { h with }
    have fed : Event.step cfg r (.byte 0 byte) = feedByte cfg { r with lastByteTimeMs := 0 } byte :=
      receiveByte_eq (.inl never)
    rw [map_cons, Event.run, fed]
    rcases Nat.lt_or_eq_of_le le with lt | rfl
    · obtain ⟨r',step,next,time⟩ := moved.next ok (h.pos ▸ lt) here (by omega)
      rw [step]
      refine ih next time lt ?_
      have := congrArg tail rest
      rwa [tail_cons, tail_drop] at this
    · rw [moved.full long]
      rfl

theorem receiver_overruns (big : cfg.maxFrameSize < cfg.frameMaxSize) (rxBuf : Nat → UInt8) :
    ∃ events, Event.run cfg events (newReceiver rxBuf) = none := by
  have room : 13 ≤ cfg.maxFrameSize := cfg.holdsMinimum
  have word := cfg.fitsWord
  have length : (replicate (cfg.maxFrameSize - 12) (0 : UInt8)).length = cfg.maxFrameSize - 12 := length_replicate
  have ok := @wellFormed_frameBytes cfg (replicate (cfg.maxFrameSize - 12) 0)
    (by rw [length]; simp only [kSerialMinFrameSize, kSerialHeaderSize, kSerialTrailerSize]; omega)
    (by rw [length]; omega) 0 0
  have idle : (newReceiver rxBuf).Idle := ⟨rfl,rfl⟩
  refine ⟨_,At.overrun ok.announced ?_ _ (idle.start _) rfl (Nat.zero_le _) rfl⟩
  rw [ok.length_eq, length]
  omega

end

/-- **The condition for memory safety**: `frame_max_size` is no larger than the buffers, and the size of the frame does not
wrap to one that `frame_max_size` admits. -/
theorem memory_safe_iff (cfg : SerialConfig) (payload : Option (Nat → UInt8)) (size : UInt32) :
    MemorySafe cfg payload size ↔ cfg.frameMaxSize ≤ cfg.maxFrameSize ∧
      ¬ (2 ^ 32 ≤ size.toNat + kSerialMinFrameSize ∧ size.toNat + kSerialMinFrameSize ≤ 2 ^ 32 + cfg.frameMaxSize) := by
  have word := cfg.fitsWord
  constructor
  · intro safe
    have small : cfg.frameMaxSize ≤ cfg.maxFrameSize := by
      by_contra big
      obtain ⟨events,overrun⟩ := receiver_overruns (Nat.lt_of_not_le big) fun _ => 0
      exact safe.receive _ events overrun
    refine ⟨small,fun wraps => ?_⟩
    have refused := safe.oversize (lt_of_lt_of_le (by omega) wraps.1) 0 0
    exact ((buildFrame_error_iff (by omega)).1 refused).2 wraps
  · rintro ⟨small,plain⟩
    have oversize : cfg.frameMaxSize < size.toNat + kSerialMinFrameSize → ∀ seq typeIndex,
        buildFrame cfg seq typeIndex payload size = .error .frameOversize :=
      fun large _ _ => (buildFrame_error_iff (by omega)).2 ⟨large,plain⟩
    refine ⟨fun seq typeIndex fault => ?_,oversize,fun rxBuf events fault => ?_⟩
    · by_cases large : cfg.frameMaxSize < size.toNat + kSerialMinFrameSize
      · rw [oversize large] at fault
        cases fault
      · have copied : (payload.elim [] (slice · 0 size.toNat)).length ≤ size.toNat := by
          cases payload with
          | none => exact Nat.zero_le _
          | some data => exact (slice_length ..).le
        simp only [buildFrame, fill_eq] at fault
        split at fault
        · cases fault
        · rw [if_pos (by omega)] at fault
          cases fault
    · obtain ⟨r,run,-⟩ := run_inv small rxBuf events
      rw [run] at fault
      cases fault

/-- `Send` with a size of `2 ^ 32 - 13`: the frame has size 0 in 32 bits, and the copy leaves the buffer. -/
theorem oversized_frame_built : buildFrame smallConfig 0 7 (some fun _ => 0) 4294967283 = .ok none ∧
    ¬ MemorySafe smallConfig (some fun _ => 0) 4294967283 := by
  have built : buildFrame smallConfig 0 7 (some fun _ => 0) 4294967283 = .ok none := by
    simp only [buildFrame, fill_eq]
    rw [if_neg (by decide), if_neg]
    rw [Option.elim, slice_length]
    decide
  exact ⟨built,fun safe => safe.transmit 0 7 built⟩

end Newosp.Serial
