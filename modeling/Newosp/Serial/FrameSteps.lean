import Newosp.Serial.Soundness

/-!
# A frame, byte by byte

The receiver takes a well-formed frame byte by byte: after `n` bytes its buffer holds the first `n` bytes and its state
is the one of that place in a frame. At the last byte the frame is delivered and the receiver is idle again.
-/

namespace Newosp.Serial
open Lib List
open Receiver (collect_eq deliver)
open Option (bind_eq_bind bind_some map_some some.inj)

def Receiver.core (r : Receiver) : UInt16 × SerialStatistics × List Delivery × List UInt8 :=
  (r.rxExpectedSeq, r.stats, r.delivered, r.acks)

theorem Receiver.deliver_core {cfg : SerialConfig} {r r₀ : Receiver} {d : Delivery} (same : r.core = r₀.core) :
    (r.deliver cfg d).core = (r₀.deliver cfg d).core := by
  simp only [Receiver.core, Prod.mk.injEq] at same
  obtain ⟨expected,stats,delivered,acks⟩ := same
  simp only [Receiver.core, deliver, expected, stats, delivered, acks]

theorem Receiver.foldl_core {cfg : SerialConfig} {ds : List Delivery} : ∀ {r r₀ : Receiver}, r.core = r₀.core →
    (ds.foldl (deliver cfg) r).core = (ds.foldl (deliver cfg) r₀).core := by
  induction ds with
  | nil => exact id
  | cons d ds ih => exact fun same => ih (Receiver.deliver_core same)

/-- The state after the first `n` bytes of a frame of `len` bytes. -/
def stateAt (len n : Nat) : RxState :=
  if n = 0 then .idle else if n = 1 then .waitSync2
  else if n < kSerialHeaderSize then .waitHeader
  else if n + kSerialTrailerSize < len then .waitPayload
  else .waitCrc

theorem stateAt_payload {len n : Nat} (whole : 10 ≤ n) (more : n + 3 < len) : stateAt len n = .waitPayload := by
  have header : ¬ n < kSerialHeaderSize := Nat.not_lt.2 whole
  have body : n + kSerialTrailerSize < len := more
  rw [stateAt, if_neg (by omega), if_neg (by omega), if_neg header, if_pos body]

theorem stateAt_crc {len n : Nat} (whole : 10 ≤ n) (last : len ≤ n + 3) : stateAt len n = .waitCrc := by
  have header : ¬ n < kSerialHeaderSize := Nat.not_lt.2 whole
  have body : ¬ n + kSerialTrailerSize < len := Nat.not_lt.2 last
  rw [stateAt, if_neg (by omega), if_neg (by omega), if_neg header, if_neg body]

/-- The receiver has taken the first `n` bytes of `f`, and nothing else has happened since `r₀`. -/
structure At (f : List UInt8) (n : Nat) (r₀ r : Receiver) : Prop where
  state : r.rxState = stateAt f.length n
  pos : r.rxPos = n
  bytes : slice r.rxBuf 0 n = f.take n
  core : r.core = r₀.core
  sizes : kSerialHeaderSize ≤ n → r.rxMsgLen + 1 = f.length ∧ kSerialMinFrameSize + r.rxPayloadSize = f.length

/-- The receiver takes the byte, and has then taken the first `n` bytes of `f` since `r₀`. -/
abbrev Feeds (cfg : SerialConfig) (r : Receiver) (byte : UInt8) (f : List UInt8) (n : Nat) (r₀ : Receiver) : Prop :=
  ∃ r', feedByte cfg r byte = some r' ∧ At f n r₀ r' ∧ r'.lastByteTimeMs = r.lastByteTimeMs

section

variable {cfg : SerialConfig} {f : List UInt8} {n : Nat} {r₀ r : Receiver} {byte : UInt8} {buf : Nat → UInt8}

theorem At.of_reset (core : r.core = r₀.core) : At f 0 r₀ r.reset where
  state := rfl
  pos := rfl
  bytes := rfl
  core := core
  sizes := fun le => absurd le (by decide)

theorem buf_of_bytes (bytes : slice buf 0 n = f.take n) {i : Nat} (lt : i < n) : buf i = ofList f i := by
  have here := congrArg (fun l => l[i]?) bytes
  simp only [slice_getElem? lt, zero_add, getElem?_take_of_lt lt] at here
  rw [ofList, getD_eq_getElem?_getD, ← here, Option.getD_some]

theorem front_of_bytes (bytes : slice buf 0 n = f.take n) {m : Nat} (le : m ≤ n) : slice buf 0 m = f.take m := by
  have cut := congrArg (take m) bytes
  rwa [slice_take le, take_take, min_eq_left le] at cut

theorem read_of_bytes (bytes : slice buf 0 n = f.take n) {p : Nat} (lt : p + 1 < n) :
    readLE16 buf p = readLE16 (ofList f) p := readLE16_congr (buf_of_bytes bytes (by omega)) (buf_of_bytes bytes lt)

theorem At.grown_bytes (h : At f n r₀ r) (here : f[n]? = some byte) :
    slice (r.grown byte).rxBuf 0 (n + 1) = f.take (n + 1) := by
  have grown := r.grown_slice byte
  rw [show (r.grown byte).rxPos = n + 1 from congrArg (· + 1) h.pos, h.pos, h.bytes] at grown
  rw [grown, take_add_one, here, Option.toList_some]

theorem sync_bytes (sync : f.take 2 = [kSerialSyncByte1, kSerialSyncByte2]) :
    f[0]? = some kSerialSyncByte1 ∧ f[1]? = some kSerialSyncByte2 := by
  constructor
  · rw [← getElem?_take_of_lt (show 0 < 2 by decide), sync]
    rfl
  · rw [← getElem?_take_of_lt (show 1 < 2 by decide), sync]
    rfl

theorem At.header_step (cfg : SerialConfig) (h : At f n r₀ r) (sync : f.take 2 = [kSerialSyncByte1, kSerialSyncByte2])
    (here : f[n]? = some byte) (short : n + 1 < kSerialHeaderSize)
    (notAck : kSerialAckFrameSize ≤ n + 1 → readLE16 (ofList f) 2 ≠ kSerialAckMagic) :
    Feeds cfg r byte f (n + 1) r₀ := by
  have room : 13 ≤ cfg.maxFrameSize := cfg.holdsMinimum
  have few : n + 1 < 10 := short
  have inside : r.rxPos < cfg.maxFrameSize := by
    rw [h.pos]
    omega
  obtain ⟨first,second⟩ := sync_bytes sync
  have state := h.state
  unfold Feeds feedByte
  match n, few with
  | 0, _ =>
    have same : byte = kSerialSyncByte1 := some.inj (here.symm.trans first)
    simp only [state, stateAt, if_true, same, Receiver.begin_eq]
    refine ⟨_,rfl,{ state := rfl, pos := rfl, bytes := ?_, core := h.core, sizes := ?_ },rfl⟩
    · have taken := h.grown_bytes here
      have pos : r.rxPos = 0 := h.pos
      rw [Receiver.grown, pos, same] at taken
      exact taken
    · exact fun le => absurd le (by decide)
  | 1, _ =>
    have same : byte = kSerialSyncByte2 := some.inj (here.symm.trans second)
    rw [state, ← same]
    simp only [stateAt, Nat.one_ne_zero, if_false, if_true, collect_eq inside, map_some]
    exact ⟨_,rfl,{
      state := rfl
      pos := congrArg (· + 1) h.pos
      bytes := h.grown_bytes here
      core := h.core
      sizes := fun le => absurd le (by decide) }, rfl⟩
  | n + 2, few =>
    have waiting : r.rxState = .waitHeader := by
      rw [state, stateAt, if_neg (by omega), if_neg (by omega), if_pos (Nat.lt_of_succ_lt short)]
    have pos : (r.grown byte).rxPos = n + 2 + 1 := congrArg (· + 1) h.pos
    have next : At f (n + 2 + 1) r₀ (r.grown byte) := by
      refine { state := ?_, pos := pos, bytes := h.grown_bytes here, core := h.core, sizes := ?_ }
      · change r.rxState = _
        rw [waiting, stateAt, if_neg (by omega), if_neg (by omega), if_pos short]
      · exact fun le => absurd short (Nat.not_lt.2 le)
    have ack : ¬ (kSerialAckFrameSize ≤ (r.grown byte).rxPos ∧
        readLE16 (r.grown byte).rxBuf 2 = kSerialAckMagic) := by
      rintro ⟨enough,magic⟩
      rw [pos] at enough
      have eight : 8 ≤ n + 2 + 1 := enough
      rw [read_of_bytes next.bytes (by omega)] at magic
      exact notAck enough magic
    simp only [waiting, collect_eq inside, bind_eq_bind, bind_some, Option.pure_def, if_neg ack]
    rw [if_neg (by rw [pos]; omega)]
    exact ⟨_,rfl,next,rfl⟩

theorem At.ack_last (cfg : SerialConfig) (h : At f 7 r₀ r) (here : f[7]? = some byte)
    (magic : readLE16 (ofList f) 2 = kSerialAckMagic) (crc : crc16 (f.take 6) = readLE16 (ofList f) 6) :
    Feeds cfg r byte f 0 r₀ := by
  have room : 13 ≤ cfg.maxFrameSize := cfg.holdsMinimum
  have inside : r.rxPos < cfg.maxFrameSize := by
    rw [h.pos]
    omega
  have waiting : r.rxState = .waitHeader := h.state
  have pos : (r.grown byte).rxPos = 8 := congrArg (· + 1) h.pos
  -- the eight bytes in the buffer are the frame
  have bytes := h.grown_bytes here
  have ack : kSerialAckFrameSize ≤ (r.grown byte).rxPos ∧ readLE16 (r.grown byte).rxBuf 2 = kSerialAckMagic := by
    refine ⟨pos.ge,?_⟩
    rw [read_of_bytes bytes (by decide), magic]
  have valid : handleAckFrame (r.grown byte) = r.grown byte := by
    rw [handleAckFrame, if_neg]
    rw [front_of_bytes bytes (by decide), crc, read_of_bytes bytes (by decide)]
    exact not_not_intro rfl
  unfold Feeds feedByte
  simp only [waiting, collect_eq inside, bind_eq_bind, bind_some, Option.pure_def, if_pos ack, valid]
  exact ⟨_,rfl,.of_reset h.core,rfl⟩

/-- The header of `f` is one that the receiver accepts, and announces what `f` is long. -/
structure Announced (cfg : SerialConfig) (f : List UInt8) : Prop where
  sync : f.take 2 = [kSerialSyncByte1, kSerialSyncByte2]
  magic : readLE16 (ofList f) 2 = kSerialMagic
  msgLen : (readLE16 (ofList f) 4).toNat + 1 = f.length
  least : kSerialMinFrameSize ≤ f.length
  fits : f.length ≤ cfg.frameMaxSize

theorem Announced.notAck (ok : Announced cfg f) : readLE16 (ofList f) 2 ≠ kSerialAckMagic := by
  rw [ok.magic]
  decide

theorem Announced.room (ok : Announced cfg f) (small : cfg.frameMaxSize ≤ cfg.maxFrameSize) (here : f[n]? = some byte) :
    n < cfg.maxFrameSize := (List.getElem?_eq_some_iff.1 here).1.trans_le (ok.fits.trans small)

theorem At.header_last (h : At f 9 r₀ r) (ok : Announced cfg f) (here : f[9]? = some byte) :
    Feeds cfg r byte f 10 r₀ := by
  have room : 13 ≤ cfg.maxFrameSize := cfg.holdsMinimum
  have inside : r.rxPos < cfg.maxFrameSize := by
    rw [h.pos]
    omega
  have waiting : r.rxState = .waitHeader := h.state
  have pos : (r.grown byte).rxPos = 10 := congrArg (· + 1) h.pos
  have whole : kSerialHeaderSize ≤ (r.grown byte).rxPos := pos.ge
  have bytes := h.grown_bytes here
  have read : ∀ p, p + 1 < 10 → readLE16 (r.grown byte).rxBuf p = readLE16 (ofList f) p :=
    fun p lt => read_of_bytes bytes lt
  have ack : ¬ (kSerialAckFrameSize ≤ (r.grown byte).rxPos ∧ readLE16 (r.grown byte).rxBuf 2 = kSerialAckMagic) := by
    rintro ⟨_,magic⟩
    rw [read 2 (by decide)] at magic
    exact ok.notAck magic
  have magic : ¬ readLE16 (r.grown byte).rxBuf 2 ≠ kSerialMagic := by
    rw [read 2 (by decide), ok.magic]
    exact not_not_intro rfl
  obtain ⟨size,length⟩ : ∃ size, f.length = 13 + size := Nat.exists_eq_add_of_le ok.least
  have len : (readLE16 (ofList f) 4).toNat = 12 + size := by
    have := ok.msgLen
    omega
  have fits := ok.fits
  have sane : ¬ (cfg.frameMaxSize < 12 + size + 1 ∨ 12 + size < kSerialHeaderSize + kSerialCrcSize) := by
    simp only [kSerialHeaderSize, kSerialCrcSize]
    omega
  unfold Feeds feedByte
  simp only [waiting, collect_eq inside, bind_eq_bind, bind_some, Option.pure_def, if_neg ack]
  rw [if_pos whole]
  unfold parseHeader
  rw [if_neg magic]
  simp only [read 4 (by decide), len, if_neg sane]
  have left : 12 + size - (kSerialHeaderSize + kSerialCrcSize) = size := by
    simp only [kSerialHeaderSize, kSerialCrcSize]
    omega
  rw [exactSub_eq (by simp only [kSerialHeaderSize, kSerialCrcSize]; omega), map_some, left]
  refine ⟨_,rfl,{ state := ?_, pos := pos, bytes := bytes, core := h.core, sizes := ?_ },rfl⟩
  · rw [length]
    by_cases some_ : 0 < size
    · rw [stateAt_payload (by omega) (by omega)]
      exact if_pos some_
    · rw [stateAt_crc (by omega) (by omega)]
      exact if_neg some_
  · intro _
    rw [length]
    exact ⟨show 12 + size + 1 = _ by omega,rfl⟩

section

variable (h : At f n r₀ r) (inside : r.rxPos < cfg.maxFrameSize) (here : f[n]? = some byte) (whole : 10 ≤ n)
include h inside here whole

theorem At.payload_step (more : n + 3 < f.length) :
    Feeds cfg r byte f (n + 1) r₀ := by
  have waiting : r.rxState = .waitPayload := h.state.trans (stateAt_payload whole more)
  have pos : (r.grown byte).rxPos = n + 1 := congrArg (· + 1) h.pos
  have sizes := h.sizes whole
  have payload : 13 + r.rxPayloadSize = f.length := sizes.2
  unfold Feeds feedByte
  simp only [waiting, collect_eq inside, bind_eq_bind, bind_some, Option.pure_def, pos]
  rw [exactSub_eq (show kSerialHeaderSize ≤ n + 1 by simp only [kSerialHeaderSize]; omega), bind_some]
  have collected : (r.grown byte).rxPayloadSize ≤ n + 1 - kSerialHeaderSize ↔ f.length ≤ n + 1 + 3 := by
    change r.rxPayloadSize ≤ n + 1 - 10 ↔ _
    omega
  by_cases done : f.length ≤ n + 1 + 3
  · rw [if_pos (collected.2 done)]
    exact ⟨_,rfl,{
      state := (stateAt_crc (by omega) done).symm
      pos := rfl
      bytes := h.grown_bytes here
      core := h.core
      sizes := fun _ => sizes }, rfl⟩
  · rw [if_neg (mt collected.1 done)]
    exact ⟨_,rfl,{
      state := waiting.trans (stateAt_payload (by omega) (by omega)).symm
      pos := pos
      bytes := h.grown_bytes here
      core := h.core
      sizes := fun _ => sizes }, rfl⟩

theorem At.crc_step (late : f.length ≤ n + 3) (more : n + 1 < f.length) :
    Feeds cfg r byte f (n + 1) r₀ := by
  have waiting : r.rxState = .waitCrc := h.state.trans (stateAt_crc whole late)
  have pos : (r.grown byte).rxPos = n + 1 := congrArg (· + 1) h.pos
  have sizes := h.sizes whole
  unfold Feeds feedByte
  simp only [waiting, collect_eq inside, bind_eq_bind, bind_some, Option.pure_def, pos]
  rw [if_neg (show ¬ (r.grown byte).rxMsgLen + 1 ≤ n + 1 by change ¬ r.rxMsgLen + 1 ≤ n + 1; omega)]
  exact ⟨_,rfl,{
    state := waiting.trans (stateAt_crc (by omega) (by omega)).symm
    pos := pos
    bytes := h.grown_bytes here
    core := h.core
    sizes := fun _ => sizes }, rfl⟩

end

/-- Every byte of an announced frame but the last is collected. -/
theorem At.next (h : At f n r₀ r) (ok : Announced cfg f) (inside : r.rxPos < cfg.maxFrameSize)
    (here : f[n]? = some byte) (more : n + 1 < f.length) :
    Feeds cfg r byte f (n + 1) r₀ := by
  by_cases header : n + 1 < 10
  · exact h.header_step cfg ok.sync here header fun _ => ok.notAck
  by_cases whole : n = 9
  · subst whole
    exact h.header_last ok here
  by_cases body : n + 3 < f.length
  · exact h.payload_step inside here (by omega) body
  · exact h.crc_step inside here (by omega) (by omega) more

variable {d : Delivery}

theorem WellFormed.length_eq (ok : WellFormed cfg.frameMaxSize f d) : f.length = 13 + d.payload.length := ok.size

theorem WellFormed.announced (ok : WellFormed cfg.frameMaxSize f d) : Announced cfg f :=
  { ok with least := ok.size.symm ▸ Nat.le_add_right .. }

/-- At its last byte a frame is validated, and the buffer holds all of it. -/
theorem At.last_step (h : At f n r₀ r) (inside : r.rxPos < cfg.maxFrameSize) (here : f[n]? = some byte)
    (least : 13 ≤ f.length) (last : n + 1 = f.length) :
    feedByte cfg r byte = validateAndDeliver cfg (r.grown byte) ∧ (r.grown byte).rxMsgLen = n ∧
      13 + (r.grown byte).rxPayloadSize = f.length ∧ slice (r.grown byte).rxBuf 0 (n + 1) = f.take (n + 1) := by
  have whole : 10 ≤ n := by omega
  have waiting : r.rxState = .waitCrc := h.state.trans (stateAt_crc whole (by omega))
  have pos : (r.grown byte).rxPos = n + 1 := congrArg (· + 1) h.pos
  have sizes := h.sizes whole
  have msgLen : (r.grown byte).rxMsgLen = n := by
    change r.rxMsgLen = n
    omega
  refine ⟨?_,msgLen,sizes.2,h.grown_bytes here⟩
  unfold feedByte
  simp only [waiting, collect_eq inside, bind_eq_bind, bind_some, Option.pure_def, pos, msgLen]
  rw [if_pos le_rfl]

theorem At.tail_step (h : At f n r₀ r) (ok : WellFormed cfg.frameMaxSize f d) (inside : r.rxPos < cfg.maxFrameSize)
    (here : f[n]? = some byte) (last : n + 1 = f.length) :
    Feeds cfg r byte f 0 (r₀.deliver cfg d) := by
  have size := ok.length_eq
  have room : n < cfg.maxFrameSize := h.pos ▸ inside
  obtain ⟨fed,msgLen,sizes,bytes⟩ := h.last_step inside here (by omega) last
  have payloadSize : (r.grown byte).rxPayloadSize = d.payload.length := by omega
  have index : n = 10 + d.payload.length + 2 := by omega
  have front := front_of_bytes bytes (show 10 + d.payload.length ≤ n + 1 by omega)
  have payload : slice (r.grown byte).rxBuf 10 d.payload.length = d.payload := by
    have cut := congrArg (drop 10) front
    rw [slice_drop (by omega), zero_add, Nat.add_sub_cancel_left, drop_take, Nat.add_sub_cancel_left] at cut
    exact cut.trans ok.payload
  have tail : (r.grown byte).rxBuf n = kSerialTailByte := by
    rw [buf_of_bytes bytes (Nat.lt_succ_self n), index]
    exact ok.tail
  have crc : crc16 (slice (r.grown byte).rxBuf 0 (n - kSerialCrcSize)) =
      readLE16 (r.grown byte).rxBuf (n - kSerialCrcSize) := by
    rw [show n - kSerialCrcSize = 10 + d.payload.length by simp only [kSerialCrcSize]; omega, front,
      read_of_bytes bytes (by omega)]
    exact ok.crc.symm
  have same : (⟨slice (r.grown byte).rxBuf kSerialHeaderSize (r.grown byte).rxPayloadSize,
      readLE16 (r.grown byte).rxBuf 8, readLE16 (r.grown byte).rxBuf 6⟩ : Delivery) = d := by
    rw [payloadSize, read_of_bytes bytes (by omega), read_of_bytes bytes (by omega), ok.typeIndex, ok.seq]
    exact congrArg (fun p => Delivery.mk p d.typeIndex d.seq) payload
  rw [Feeds, fed]
  unfold validateAndDeliver
  rw [msgLen, same]
  simp only [guard, tail, payloadSize]
  rw [if_pos room, exactSub_eq (show kSerialCrcSize ≤ n by simp only [kSerialCrcSize]; omega),
    if_pos (show kSerialHeaderSize + d.payload.length ≤ cfg.maxFrameSize by simp only [kSerialHeaderSize]; omega)]
  simp only [Option.pure_def, bind_eq_bind, bind_some, ne_eq, not_true_eq_false, if_false]
  rw [if_neg (not_not_intro crc)]
  exact ⟨_,rfl,.of_reset (Receiver.deliver_core h.core),rfl⟩

theorem At.frame_step (h : At f n r₀ r) (ok : WellFormed cfg.frameMaxSize f d)
    (small : cfg.frameMaxSize ≤ cfg.maxFrameSize) (here : f[n]? = some byte) :
    ∃ r', feedByte cfg r byte = some r' ∧ r'.lastByteTimeMs = r.lastByteTimeMs ∧
      if n + 1 = f.length then At f 0 (r₀.deliver cfg d) r' else At f (n + 1) r₀ r' := by
  have lt : n < f.length := (List.getElem?_eq_some_iff.1 here).1
  have inside : r.rxPos < cfg.maxFrameSize := h.pos ▸ ok.announced.room small here
  by_cases last : n + 1 = f.length
  · obtain ⟨r',step,at_,time⟩ := h.tail_step ok inside here last
    exact ⟨r',step,time,by rw [if_pos last]; exact at_⟩
  · obtain ⟨r',step,at_,time⟩ := h.next ok.announced inside here (by omega)
    exact ⟨r',step,time,by rw [if_neg last]; exact at_⟩

end

end Newosp.Serial
