import Newosp.Serial.RoundTrip
import Mathlib.Data.BitVec

/-!
# What the checksum detects

The table is the bit-by-bit checksum of a byte, and one bit is linear over exclusive or: the lowest bit of every step
tells the bit that entered. A burst in the length of a frame moves the place where the checksum is looked for.
-/

namespace Newosp.Serial
open Lib List

/-- One bit of the checksum: the polynomial `0x1021` is subtracted if the bit that leaves differs from the one that
enters. -/
def crcBit (crc : BitVec 16) (bit : Bool) : BitVec 16 := if crc.msb ^^ bit then crc <<< 1 ^^^ 0x1021#16 else crc <<< 1

/-- The most significant bit first. -/
def bits (byte : UInt8) : List Bool := (range 8).map byte.toBitVec.getMsbD

/-- The messages differ in at most 16 consecutive bits, and in one at least. -/
def Burst (sent received : List UInt8) : Prop :=
  ∃ before left right after, sent.flatMap bits = before ++ left ++ after ∧
    received.flatMap bits = before ++ right ++ after ∧ left.length = right.length ∧ left.length ≤ 16 ∧ left ≠ right

theorem crcBit_xor (a b : BitVec 16) (x y : Bool) : crcBit (a ^^^ b) (x ^^ y) = crcBit a x ^^^ crcBit b y := by
  have leaves : ((a ^^^ b).msb ^^ (x ^^ y)) = ((a.msb ^^ x) ^^ (b.msb ^^ y)) := by
    simp only [BitVec.msb_xor, Bool.xor_assoc, Bool.xor_left_comm]
  simp only [crcBit, leaves, BitVec.shiftLeft_xor_distrib]
  generalize 0x1021#16 = poly
  cases a.msb ^^ x <;> cases b.msb ^^ y <;> grind

theorem foldl_xor (places : List Nat) (f g : Nat → Bool) (a b : BitVec 16) :
    (places.map fun i => f i ^^ g i).foldl crcBit (a ^^^ b) =
      (places.map f).foldl crcBit a ^^^ (places.map g).foldl crcBit b := by
  induction places generalizing a b with
  | nil => rfl
  | cons i places ih => simp only [map_cons, foldl_cons, crcBit_xor, ih]

theorem table_eq : ∀ q : BitVec 8, ((range 8).map q.getMsbD).foldl crcBit 0#16 = (kTable.getD q.toNat 0).toBitVec := by
  decide +kernel

theorem high_bits : ∀ high : BitVec 8, ((range 8).map high.getMsbD).foldl crcBit (high.setWidth 16 <<< 8) = 0#16 := by
  decide +kernel

theorem low_bits : ∀ low : BitVec 8, ((range 8).map fun _ => false).foldl crcBit (low.setWidth 16) =
    low.setWidth 16 <<< 8 := by
  decide +kernel

theorem crcStep_eq (crc : UInt16) (byte : UInt8) :
    (crcStep crc byte).toBitVec = (bits byte).foldl crcBit crc.toBitVec := by
  generalize high_eq : (crc.toBitVec >>> 8).setWidth 8 = high
  generalize low_eq : crc.toBitVec.setWidth 8 = low
  have whole : crc.toBitVec = 0#16 ^^^ (high.setWidth 16 <<< 8 ^^^ low.setWidth 16) := by
    subst high_eq low_eq
    apply BitVec.eq_of_getLsbD_eq
    intro i lt
    by_cases upper : i < 8
    · simp [upper, lt]
    · simp [upper, lt]
      grind
  have places : bits byte = (range 8).map fun i => (high ^^^ byte.toBitVec).getMsbD i ^^ (high.getMsbD i ^^ false) := by
    apply map_congr_left
    intro i _
    simp only [BitVec.getMsbD_xor]
    cases high.getMsbD i <;> cases byte.toBitVec.getMsbD i <;> rfl
  have index : ((crc >>> 8) ^^^ byte.toUInt16).toUInt8.toBitVec = high ^^^ byte.toBitVec := by
    subst high_eq
    simp
  have shifted : (crc <<< 8).toBitVec = low.setWidth 16 <<< 8 := by
    subst low_eq
    apply BitVec.eq_of_getLsbD_eq
    intro i lt
    simp
    grind
  rw [places, whole, foldl_xor, foldl_xor, table_eq, high_bits, low_bits, BitVec.zero_xor, ← index, ← shifted]
  exact BitVec.xor_comm ..

section

variable {a b : BitVec 16} {x y : Bool}

theorem crcBit_zero (a : BitVec 16) (x : Bool) : (crcBit a x).getLsbD 0 = (a.msb ^^ x) := by
  unfold crcBit
  split <;> simp_all

theorem crcBit_succ {i : Nat} (inside : i < 15) :
    (crcBit a x).getLsbD (i + 1) = (a.getLsbD i ^^ ((a.msb ^^ x) && (0x1021#16).getLsbD (i + 1))) := by
  have lt : i + 1 < 16 := Nat.succ_lt_succ inside
  unfold crcBit
  split <;> simp [*] <;> rfl

theorem crcBit_agree {n : Nat} (few : n < 16) (same : ∀ i ≤ n, (crcBit a x).getLsbD i = (crcBit b y).getLsbD i) :
    (a.msb ^^ x) = (b.msb ^^ y) ∧ ∀ i < n, a.getLsbD i = b.getLsbD i := by
  have leaves := same 0 (Nat.zero_le _)
  rw [crcBit_zero, crcBit_zero] at leaves
  refine ⟨leaves,fun i lt => ?_⟩
  have there := same (i + 1) lt
  rwa [crcBit_succ (by omega), crcBit_succ (by omega), leaves, Bool.xor_left_inj] at there

theorem crcBit_injective (same : crcBit a x = crcBit b x) : a = b := by
  obtain ⟨leaves,rest⟩ := crcBit_agree (n := 15) (by decide) fun i _ => congrArg (BitVec.getLsbD · i) same
  apply BitVec.eq_of_getLsbD_eq
  intro i lt
  rcases Nat.lt_or_eq_of_le (Nat.le_of_lt_succ lt) with below | rfl
  · exact rest i below
  · simpa [BitVec.msb_eq_getLsbD_last] using leaves

theorem foldl_injective (after : List Bool) (same : after.foldl crcBit a = after.foldl crcBit b) : a = b := by
  induction after generalizing a b with
  | nil => exact same
  | cons x after ih => exact crcBit_injective (ih same)

theorem foldl_burst {left right : List Bool} (length : left.length = right.length) (few : left.length ≤ 16)
    (same : left.foldl crcBit a = right.foldl crcBit b) :
    (∀ i < 16 - left.length, a.getLsbD i = b.getLsbD i) ∧ (a = b → left = right) := by
  induction left generalizing a b right with
  | nil =>
    cases eq_nil_of_length_eq_zero length.symm
    exact ⟨fun i _ => congrArg (BitVec.getLsbD · i) same,fun _ => rfl⟩
  | cons x left ih =>
    obtain _ | ⟨y,right⟩ := right
    · cases length
    · rw [length_cons] at few ⊢
      obtain ⟨agree,rest⟩ := ih (Nat.succ.inj length) (by omega) same
      obtain ⟨leaves,below⟩ := crcBit_agree (n := 16 - (left.length + 1)) (by omega) fun i le => agree i (by omega)
      refine ⟨below,?_⟩
      rintro rfl
      cases Bool.xor_right_inj.1 leaves
      rw [rest rfl]

end

theorem crc16_eq (data : List UInt8) : (crc16 data).toBitVec = (data.flatMap bits).foldl crcBit 0xFFFF#16 := by
  have from_ : ∀ crc : UInt16, (data.foldl crcStep crc).toBitVec = (data.flatMap bits).foldl crcBit crc.toBitVec := by
    induction data with
    | nil => exact fun _ => rfl
    | cons byte data ih =>
      intro crc
      rw [foldl_cons, ih, crcStep_eq, flatMap_cons, foldl_append]
  exact from_ 0xFFFF

theorem Burst.crc16_ne {sent received : List UInt8} (burst : Burst sent received) : crc16 sent ≠ crc16 received := by
  obtain ⟨before,left,right,after,eq,eq',length,few,differ⟩ := burst
  intro same
  have same := congrArg UInt16.toBitVec same
  rw [crc16_eq, crc16_eq, eq, eq', foldl_append, foldl_append, foldl_append, foldl_append] at same
  exact differ ((foldl_burst length few (foldl_injective after same)).2 rfl)

section

variable {cfg : SerialConfig} {sent received f : List UInt8} {d d' : Delivery} {n : Nat} {r r₀ : Receiver} {byte : UInt8}
  {bytes : List (Nat × UInt8)}

theorem validateAndDeliver_refused (long : kSerialCrcSize ≤ r.rxMsgLen) (inside : r.rxMsgLen < cfg.maxFrameSize)
    (wrong : crc16 (slice r.rxBuf 0 (r.rxMsgLen - kSerialCrcSize)) ≠ readLE16 r.rxBuf (r.rxMsgLen - kSerialCrcSize)) :
    validateAndDeliver cfg r =
      some (if r.rxBuf r.rxMsgLen = kSerialTailByte then r.crcError.reset else r.syncError.reset) := by
  simp only [validateAndDeliver, guard, if_pos inside, exactSub, if_pos long, Option.bind_eq_bind, Option.pure_def]
  by_cases tail : r.rxBuf r.rxMsgLen = kSerialTailByte
  · simp [tail, wrong]
  · simp [tail]

/-- The tail byte after a wrong checksum: a CRC error. -/
theorem At.crc_refused (h : At f n r₀ r) (ok : Announced cfg f) (inside : r.rxPos < cfg.maxFrameSize)
    (here : f[n]? = some byte) (last : n + 1 = f.length) (tail : ofList f n = kSerialTailByte)
    (wrong : crc16 (f.take (n - 2)) ≠ readLE16 (ofList f) (n - 2)) :
    ∃ r', feedByte cfg r byte = some r' ∧ r'.lastByteTimeMs = r.lastByteTimeMs ∧ At f 0 r₀.crcError r' := by
  have least : 13 ≤ f.length := ok.least
  have room : n < cfg.maxFrameSize := h.pos ▸ inside
  obtain ⟨fed,msgLen,-,bytes⟩ := h.last_step inside here least last
  have refused : validateAndDeliver cfg (r.grown byte) = some (r.grown byte).crcError.reset := by
    rw [validateAndDeliver_refused, msgLen, if_pos ((buf_of_bytes bytes (Nat.lt_succ_self n)).trans tail)]
    · exact msgLen.symm ▸ show 2 ≤ n by omega
    · exact msgLen.symm ▸ room
    · rw [msgLen]
      change crc16 (slice _ 0 (n - 2)) ≠ readLE16 _ (n - 2)
      rwa [front_of_bytes bytes (by omega), read_of_bytes bytes (by omega)]
  rw [fed, refused]
  have core := h.core
  simp only [Receiver.core, Prod.mk.injEq] at core
  refine ⟨_,rfl,rfl,.of_reset ?_⟩
  change (r.rxExpectedSeq, { r.stats with crcErrors := r.stats.crcErrors + 1 }, r.delivered, r.acks) = _
  simp only [core, Receiver.core, Receiver.crcError]

/-- What arrives of the frame `sent` when a burst hits its body: the checksum and the tail byte are as sent. -/
structure Damaged (sent received : List UInt8) : Prop where
  length : received.length = sent.length
  burst : Burst (sent.take (sent.length - kSerialTrailerSize)) (received.take (sent.length - kSerialTrailerSize))
  trailer : received.drop (sent.length - kSerialTrailerSize) = sent.drop (sent.length - kSerialTrailerSize)

section

variable (h : Damaged sent received) (ok : WellFormed cfg.frameMaxSize sent d)
include h

theorem Damaged.trailer_eq {i : Nat} (le : sent.length - kSerialTrailerSize ≤ i) : ofList received i = ofList sent i := by
  obtain ⟨j,rfl⟩ := Nat.exists_eq_add_of_le le
  rw [ofList, ofList, getD_eq_getElem?_getD, getD_eq_getElem?_getD, ← getElem?_drop, ← getElem?_drop, h.trailer]

include ok

theorem Damaged.crc_ne : crc16 (received.take (10 + d.payload.length)) ≠
    readLE16 (ofList received) (10 + d.payload.length) := by
  have size := ok.length_eq
  have place : sent.length - kSerialTrailerSize = 10 + d.payload.length := by
    simp only [kSerialTrailerSize]
    omega
  have burst := h.burst
  rw [place] at burst
  have carried : readLE16 (ofList received) (10 + d.payload.length) = readLE16 (ofList sent) (10 + d.payload.length) :=
    readLE16_congr (h.trailer_eq (by omega)) (h.trailer_eq (by omega))
  rw [carried]
  exact fun same => burst.crc16_ne (ok.crc.symm.trans same.symm)

/-- No frame begins where the damaged one does. -/
theorem Damaged.not_wellFormed (msgLen : readLE16 (ofList received) 4 = readLE16 (ofList sent) 4)
    (front : f <+: received) : ¬ WellFormed cfg.frameMaxSize f d' := by
  intro ok'
  have size := ok.length_eq
  have size' := ok'.length_eq
  have read : readLE16 (ofList f) 4 = readLE16 (ofList received) 4 := by
    obtain ⟨rest,rfl⟩ := front
    apply readLE16_congr
    all_goals
      rw [ofList, ofList, getD_append]
      omega
  have length := ok.msgLen
  rw [← msgLen, ← read, ok'.msgLen] at length
  cases front.eq_of_length (length.trans h.length.symm)
  have same : d.payload.length = d'.payload.length := by omega
  exact h.crc_ne ok (same ▸ ok'.crc.symm)

/-- A frame that is damaged behind its length leads to one CRC error. -/
theorem Damaged.run (front : received.take 6 = sent.take 6) (small : cfg.frameMaxSize ≤ cfg.maxFrameSize)
    (idle : r.Idle) (frame : bytes.map Prod.snd = received) (inTime : InTime cfg 0 bytes) :
    ∃ r', receiveTimed cfg bytes r = some r' ∧ r'.Idle ∧ r'.core = r.crcError.core := by
  have size := ok.length_eq
  have length := h.length
  have same : ∀ i < 6, ofList received i = ofList sent i := by
    intro i lt
    rw [ofList, ofList, getD_eq_getElem?_getD, getD_eq_getElem?_getD, ← getElem?_take_of_lt lt, front,
      getElem?_take_of_lt lt]
  have announced : Announced cfg received := {
    sync := by
      have cut := congrArg (List.take 2) front
      rw [take_take, take_take] at cut
      exact cut.trans ok.sync
    magic := (readLE16_congr (same 2 (by decide)) (same 3 (by decide))).trans ok.magic
    msgLen := by
      rw [readLE16_congr (same 4 (by decide)) (same 5 (by decide)), ok.msgLen, length]
    least := length ▸ ok.announced.least
    fits := length ▸ ok.fits }
  refine idle.run ?_ (by omega) frame inTime
  intro n byte r' at_ here
  have lt : n < received.length := (List.getElem?_eq_some_iff.1 here).1
  have inside : r'.rxPos < cfg.maxFrameSize := at_.pos ▸ announced.room small here
  by_cases last : n + 1 = received.length
  · have index : n = 10 + d.payload.length + 2 := by omega
    have tail : ofList received n = kSerialTailByte := by
      rw [h.trailer_eq (by simp only [kSerialTrailerSize]; omega), index]
      exact ok.tail
    simp only [if_pos last]
    refine at_.crc_refused announced inside here last tail ?_
    rw [index]
    exact h.crc_ne ok
  · obtain ⟨r'',step,next,time⟩ := at_.next announced inside here (by omega)
    exact ⟨r'',step,time,by rw [if_neg last]; exact next⟩

end

/-- **The checksum is the bit-by-bit one**, and it differs after a burst: a frame with the checksum of what was sent is
not delivered. So a burst that does not hit the length of a frame is detected: no frame begins there, and behind the
length it leads to one CRC error and nothing else. -/
theorem crc_detects_bursts : (∀ data, (crc16 data).toBitVec = (data.flatMap bits).foldl crcBit 0xFFFF#16) ∧
    (∀ sent received, Burst sent received → crc16 sent ≠ crc16 received) ∧
    (∀ cfg (r : Receiver) sent, kSerialCrcSize ≤ r.rxMsgLen → r.rxMsgLen < cfg.maxFrameSize →
      Burst sent (slice r.rxBuf 0 (r.rxMsgLen - kSerialCrcSize)) →
      readLE16 r.rxBuf (r.rxMsgLen - kSerialCrcSize) = crc16 sent →
      validateAndDeliver cfg r =
        some (if r.rxBuf r.rxMsgLen = kSerialTailByte then r.crcError.reset else r.syncError.reset)) ∧
    ∀ cfg sent received d, cfg.frameMaxSize ≤ cfg.maxFrameSize → WellFormed cfg.frameMaxSize sent d →
      Damaged sent received →
      (readLE16 (ofList received) 4 = readLE16 (ofList sent) 4 → ∀ rxBuf events,
        events.flatMap Event.bytes = received → ∃ r, Event.run cfg events (newReceiver rxBuf) = some r ∧
        ∀ d' ∈ r.delivered, ∃ f, f <:+: received.tail ∧ WellFormed cfg.frameMaxSize f d') ∧
      (received.take 6 = sent.take 6 → ∀ r bytes, Receiver.Idle r → bytes.map Prod.snd = received → InTime cfg 0 bytes →
        ∃ r', receiveTimed cfg bytes r = some r' ∧ r'.Idle ∧ r'.core = r.crcError.core) := by
  refine ⟨crc16_eq,fun _ _ => Burst.crc16_ne,fun cfg r sent long inside burst carried => ?_,?_⟩
  · exact validateAndDeliver_refused long inside fun same => burst.crc16_ne (carried.symm.trans same.symm)
  · intro cfg sent received d small ok damaged
    refine ⟨fun msgLen rxBuf events stream => ?_,fun front r bytes idle => damaged.run ok front small idle⟩
    obtain ⟨r,run,inv⟩ := run_inv small rxBuf events
    refine ⟨r,run,fun d' member => ?_⟩
    obtain ⟨f,⟨before,after,eq⟩,ok'⟩ := inv.backed d' member
    rw [stream] at eq
    cases before with
    | nil => exact absurd ok' (damaged.not_wellFormed ok msgLen ⟨after,eq⟩)
    | cons b before =>
      rw [← eq]
      exact ⟨f,⟨before,after,rfl⟩,ok'⟩

end

/-- A burst of five bits that makes the length of a frame 14 instead of 17: in the payload stand the checksum and the tail
byte of the shorter frame, and that one is delivered. -/
theorem shorter_frame_delivered :
    Damaged (frameBytes 17 0 7 [1, 2, 221, 137, 13]) ((frameBytes 17 0 7 [1, 2, 221, 137, 13]).set 4 14) ∧
    (receiveAll smallConfig [(9, (frameBytes 17 0 7 [1, 2, 221, 137, 13]).set 4 14)] (newReceiver fun _ => 0)).map
      Receiver.delivered = some [⟨[1, 2], 7, 0⟩] := by
  refine ⟨⟨by decide +kernel,?_,by decide +kernel⟩,by decide +kernel⟩
  refine ⟨((frameBytes 17 0 7 [1, 2, 221, 137, 13]).take 4).flatMap bits ++ replicate 3 false,
    [true, false, false, false, true],[false, true, true, true, false],
    (((frameBytes 17 0 7 [1, 2, 221, 137, 13]).take 15).drop 5).flatMap bits,?_⟩
  decide +kernel

end Newosp.Serial
