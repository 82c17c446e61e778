import Mathlib.Data.List.Forall2
import Newosp.Serial.FrameSteps

/-!
# The round trip of a serial link

Frame follows frame through the receiver, with acknowledgements in between that change nothing, and however the bytes
come in batches. The frames that `Send` builds are well-formed and numbered one after another.
-/

namespace Newosp.Serial
open Lib List
open UInt16 (ofNat)

/-- The bytes of a stream, each with the time at which it was read. -/
def receiveTimed (cfg : SerialConfig) : List (Nat × UInt8) → Receiver → Option Receiver
  | [], r => some r
  | byte :: bytes, r => (receiveByte cfg byte.1 r byte.2).bind (receiveTimed cfg bytes)

/-- Every byte of a batch has the batch's time. -/
def timed (batches : List (Nat × List UInt8)) : List (Nat × UInt8) :=
  batches.flatMap fun batch => batch.2.map fun byte => (batch.1, byte)

/-- No byte is later than the timeout after the one before it; `last` is 0 if there is none. -/
def InTime (cfg : SerialConfig) : Nat → List (Nat × UInt8) → Prop
  | _, [] => True
  | last, byte :: bytes =>
    (last = 0 ∨ subTo 64 byte.1 last ≤ cfg.interByteTimeoutMs) ∧ InTime cfg byte.1 bytes

instance decidableInTime (cfg : SerialConfig) : ∀ last bytes, Decidable (InTime cfg last bytes)
  | _, [] => inferInstanceAs (Decidable True)
  | _, byte :: bytes =>
    have := decidableInTime cfg byte.1 bytes
    inferInstanceAs (Decidable (_ ∧ _))

/-- What stands between two frame boundaries of a stream. -/
inductive Item
  | data (bytes : List UInt8)
  | ack (seq : UInt16)

def Item.bytes : Item → List UInt8
  | .data bytes => bytes
  | .ack seq => ackFrame seq

def Item.data? : Item → Option (List UInt8)
  | .data bytes => some bytes
  | .ack _ => none

/-- No byte comes late after the one before it in its own frame; before a frame the line may pause. -/
def InTimeWithin (cfg : SerialConfig) : List Item → List (Nat × UInt8) → Prop
  | [], _ => True
  | item :: items, bytes =>
    InTime cfg 0 (bytes.take item.bytes.length) ∧ InTimeWithin cfg items (bytes.drop item.bytes.length)

/-- Between two frames. -/
def Receiver.Idle (r : Receiver) : Prop := r.rxState = .idle ∧ r.rxPos = 0

variable {cfg : SerialConfig}

section

variable {r r₀ : Receiver} {d : Delivery} {bytes : List (Nat × UInt8)}

theorem receiveTimed_append (xs ys : List (Nat × UInt8)) (r : Receiver) :
    receiveTimed cfg (xs ++ ys) r = (receiveTimed cfg xs r).bind (receiveTimed cfg ys) := by
  induction xs generalizing r with
  | nil => rfl
  | cons x xs ih =>
    rw [cons_append, receiveTimed, receiveTimed, Option.bind_assoc]
    congr 1
    funext r
    exact ih r

theorem receiveAll_eq (batches : List (Nat × List UInt8)) (r : Receiver) :
    receiveAll cfg batches r = receiveTimed cfg (timed batches) r := by
  have one : ∀ (now : Nat) (bytes : List UInt8) (r : Receiver),
      receiveBatch cfg now bytes r = receiveTimed cfg (bytes.map fun byte => (now, byte)) r := by
    intro now bytes
    induction bytes with
    | nil => exact fun _ => rfl
    | cons byte bytes ih =>
      intro r
      rw [receiveBatch, map_cons, receiveTimed]
      congr 1
      funext r
      exact ih r
  induction batches generalizing r with
  | nil => rfl
  | cons batch batches ih =>
    rw [receiveAll, timed, flatMap_cons, receiveTimed_append, one]
    congr 1
    funext r
    exact ih r

theorem receiveByte_eq {now : Nat} {byte : UInt8}
    (inTime : r.lastByteTimeMs = 0 ∨ subTo 64 now r.lastByteTimeMs ≤ cfg.interByteTimeoutMs) :
    receiveByte cfg now r byte = feedByte cfg { r with lastByteTimeMs := now } byte := by
  rw [receiveByte, if_neg]
  rintro ⟨_,before,late⟩
  rcases inTime with never | soon
  · exact before never
  · omega

/-- An idle receiver forgets how long it has waited. -/
theorem Receiver.Idle.forget (idle : r.Idle) (byte : Nat × UInt8) :
    receiveTimed cfg (byte :: bytes) r = receiveTimed cfg (byte :: bytes) { r with lastByteTimeMs := 0 } := by
  rw [receiveTimed, receiveTimed, receiveByte, receiveByte]
  simp only [idle.1, ne_eq, not_true_eq_false, false_and, if_false]

theorem Receiver.Idle.start (idle : r.Idle) (f : List UInt8) : At f 0 r r where
  state := idle.1
  pos := idle.2
  bytes := rfl
  core := rfl
  sizes := fun le => absurd le (by decide)

section

variable {f : List UInt8} {r₁ : Receiver} (step : ∀ {n byte r}, At f n r₀ r → f[n]? = some byte →
  ∃ r', feedByte cfg r byte = some r' ∧ r'.lastByteTimeMs = r.lastByteTimeMs ∧
    if n + 1 = f.length then At f 0 r₁ r' else At f (n + 1) r₀ r')
include step

/-- The rest of a frame, byte by byte. -/
theorem At.run : ∀ {n r}, At f n r₀ r → n < f.length → bytes.map Prod.snd = f.drop n →
    InTime cfg r.lastByteTimeMs bytes → ∃ r', receiveTimed cfg bytes r = some r' ∧ At f 0 r₁ r' := by
  induction bytes with
  | nil =>
    intro n r _ lt rest
    have := congrArg length rest
    rw [map_nil, length_nil, length_drop] at this
    omega
  | cons byte bytes ih =>
    intro n r h lt rest inTime
    have here : f[n]? = some byte.2 := by
      have := congrArg head? rest
      rwa [map_cons, head?_cons, head?_drop, eq_comm] at this
    have later : bytes.map Prod.snd = f.drop (n + 1) := by
      have := congrArg tail rest
      rwa [map_cons, tail_cons, tail_drop] at this
    have moved : At f n r₀ { r with lastByteTimeMs := byte.1 } := { h with }
    obtain ⟨r',fed,time,next⟩ := step moved here
    rw [receiveTimed, receiveByte_eq inTime.1, fed, Option.bind_some]
    split at next
    · rename_i whole
      have none_ : bytes = [] := by
        rw [whole, drop_length] at later
        exact map_eq_nil_iff.1 later
      rw [none_]
      exact ⟨r',rfl,next⟩
    · refine ih next (by omega) later ?_
      rw [time]
      exact inTime.2

/-- A frame from its first byte on, however long that one takes to come. -/
theorem Receiver.Idle.run (idle : r₀.Idle) (long : 0 < f.length) (frame : bytes.map Prod.snd = f)
    (inTime : InTime cfg 0 bytes) : ∃ r', receiveTimed cfg bytes r₀ = some r' ∧ r'.Idle ∧ r'.core = r₁.core := by
  have begun : At f 0 r₀ { r₀ with lastByteTimeMs := 0 } := { idle.start f with }
  obtain ⟨r',run,at_⟩ := At.run step begun long (by rw [drop_zero]; exact frame) inTime
  refine ⟨r',?_,⟨at_.state,at_.pos⟩,at_.core⟩
  cases bytes with
  | nil =>
    rw [← frame] at long
    cases long
  | cons byte bytes => rw [idle.forget, run]

end

theorem ackFrame_length (seq : UInt16) : (ackFrame seq).length = 8 := rfl

theorem ack_run (idle : r.Idle) {seq : UInt16} (frame : bytes.map Prod.snd = ackFrame seq)
    (inTime : InTime cfg 0 bytes) : ∃ r', receiveTimed cfg bytes r = some r' ∧ r'.Idle ∧ r'.core = r.core := by
  have magic : readLE16 (ofList (ackFrame seq)) 2 = kSerialAckMagic :=
    readLE16_append [kSerialSyncByte1, kSerialSyncByte2] kSerialAckMagic _
  have crc : crc16 ((ackFrame seq).take 6) = readLE16 (ofList (ackFrame seq)) 6 := by
    have read := readLE16_append ((ackFrame seq).take 6) (crc16 ((ackFrame seq).take 6)) []
    exact read.symm
  have step : ∀ {n byte r'}, At (ackFrame seq) n r r' → (ackFrame seq)[n]? = some byte →
      ∃ r'', feedByte cfg r' byte = some r'' ∧ r''.lastByteTimeMs = r'.lastByteTimeMs ∧
      if n + 1 = (ackFrame seq).length then At (ackFrame seq) 0 r r'' else At (ackFrame seq) (n + 1) r r'' := by
    intro n byte r' h here
    have lt : n < 8 := (List.getElem?_eq_some_iff.1 here).1
    rw [ackFrame_length]
    by_cases last : n = 7
    · subst last
      obtain ⟨r'',fed,at_,time⟩ := h.ack_last cfg here magic crc
      exact ⟨r'',fed,time,by rw [if_pos rfl]; exact at_⟩
    · obtain ⟨r'',fed,at_,time⟩ := h.header_step cfg rfl here
        (show n + 1 < 10 by omega) fun enough => absurd enough (show ¬ 8 ≤ n + 1 by omega)
      exact ⟨r'',fed,time,by rw [if_neg (by omega)]; exact at_⟩
  exact idle.run step (by rw [ackFrame_length]; decide) frame inTime

theorem frame_run (idle : r.Idle) {f : List UInt8} (ok : WellFormed cfg.frameMaxSize f d)
    (small : cfg.frameMaxSize ≤ cfg.maxFrameSize) (frame : bytes.map Prod.snd = f) (inTime : InTime cfg 0 bytes) :
    ∃ r', receiveTimed cfg bytes r = some r' ∧ r'.Idle ∧ r'.core = (r.deliver cfg d).core := by
  refine idle.run (fun h here => h.frame_step ok small here) ?_ frame inTime
  rw [ok.length_eq]
  omega

theorem items_run (small : cfg.frameMaxSize ≤ cfg.maxFrameSize) (items : List Item) :
    ∀ {ds : List Delivery} {r : Receiver} {bytes : List (Nat × UInt8)}, r.Idle →
      List.Forall₂ (WellFormed cfg.frameMaxSize) (items.filterMap Item.data?) ds →
      bytes.map Prod.snd = items.flatMap Item.bytes → InTimeWithin cfg items bytes →
      ∃ r', receiveTimed cfg bytes r = some r' ∧ r'.Idle ∧ r'.core = (ds.foldl (Receiver.deliver cfg) r).core := by
  induction items with
  | nil =>
    intro ds r bytes idle frames stream _
    rw [filterMap_nil, forall₂_nil_left_iff] at frames
    rw [map_eq_nil_iff.1 stream, frames]
    exact ⟨r,rfl,idle,rfl⟩
  | cons item items ih =>
    intro ds r bytes idle frames stream inTime
    -- the bytes of the first item and the others
    rw [flatMap_cons] at stream
    obtain ⟨first,rest,rfl,here,later⟩ := map_eq_append_iff.1 stream
    rw [InTimeWithin, ← here, length_map, take_left, drop_left] at inTime
    rw [receiveTimed_append]
    cases item with
    | ack seq =>
      obtain ⟨r',run,idle',core⟩ := ack_run idle here inTime.1
      obtain ⟨r'',run',idle'',core'⟩ := ih idle' frames later inTime.2
      refine ⟨r'',by rw [run]; exact run',idle'',core'.trans ?_⟩
      exact Receiver.foldl_core core
    | data f =>
      obtain ⟨d,ds',ok,frames',rfl⟩ := forall₂_cons_left_iff.1 frames
      obtain ⟨r',run,idle',core⟩ := frame_run idle ok small here inTime.1
      obtain ⟨r'',run',idle'',core'⟩ := ih idle' frames' later inTime.2
      refine ⟨r'',by rw [run]; exact run',idle'',core'.trans ?_⟩
      exact Receiver.foldl_core core

end

section

theorem wellFormed_frameBytes {payload : List UInt8} (fits : kSerialMinFrameSize + payload.length ≤ cfg.frameMaxSize)
    (word : 12 + payload.length < 65536) (seq typeIndex : UInt16) :
    WellFormed cfg.frameMaxSize (frameBytes (ofNat (12 + payload.length)) seq typeIndex payload)
      ⟨payload, typeIndex, seq⟩ := by
  have length' : (ofNat (12 + payload.length)).toNat = 12 + payload.length := by
    rw [UInt16.toNat_ofNat']
    exact Nat.mod_eq_of_lt word
  generalize ofNat (12 + payload.length) = len at length' ⊢
  have bodyLength : (frameBody len seq typeIndex payload).length = 10 + payload.length := by
    simp only [frameBody, length_append, writeLE16_length, length_cons, length_nil]
    omega
  have length : (frameBytes len seq typeIndex payload).length = 13 + payload.length := by
    simp only [frameBytes, length_append, bodyLength, writeLE16_length, length_cons, length_nil]
    omega
  have front : (frameBytes len seq typeIndex payload).take (10 + payload.length) =
      frameBody len seq typeIndex payload := by
    rw [← bodyLength]
    exact take_left
  constructor
  case sync => rfl
  case magic => exact readLE16_append [kSerialSyncByte1, kSerialSyncByte2] kSerialMagic _
  case msgLen =>
    rw [length]
    have read := readLE16_append ([kSerialSyncByte1, kSerialSyncByte2] ++ writeLE16 kSerialMagic) len
      ((writeLE16 seq ++ (writeLE16 typeIndex ++ payload)) ++
        (writeLE16 (crc16 (frameBody len seq typeIndex payload)) ++ [kSerialTailByte]))
    exact (congrArg (fun v : UInt16 => v.toNat + 1) read).trans (by rw [length']; omega)
  case size => exact length
  case fits => rw [length]; exact fits
  case seq =>
    exact readLE16_append ([kSerialSyncByte1, kSerialSyncByte2] ++ (writeLE16 kSerialMagic ++
      writeLE16 len)) seq _
  case typeIndex =>
    exact readLE16_append ([kSerialSyncByte1, kSerialSyncByte2] ++ (writeLE16 kSerialMagic ++
      (writeLE16 len ++ writeLE16 seq))) typeIndex _
  case payload =>
    have cut := congrArg (drop 10) front
    rw [drop_take, Nat.add_sub_cancel_left] at cut
    exact cut
  case crc =>
    have read := readLE16_append (frameBody len seq typeIndex payload)
      (crc16 (frameBody len seq typeIndex payload)) [kSerialTailByte]
    rw [bodyLength] at read
    exact read.trans (congrArg crc16 front.symm)
  case tail =>
    have read := ofList_append_right (frameBody len seq typeIndex payload)
      (writeLE16 (crc16 (frameBody len seq typeIndex payload)) ++ [kSerialTailByte]) 2
    rw [bodyLength] at read
    exact read

/-- What the accepted calls lead to, numbered from `seq` on. -/
def deliveries (seq : UInt16) : List Call → List Delivery
  | [] => []
  | c :: calls => ⟨c.payload, c.typeIndex, seq⟩ :: deliveries (seq + 1) calls

/-- The rate limiter lets a call at time `now` through: there is no limit, or the window of the call has room. -/
def Sender.Allows (s : Sender) (cfg : SerialConfig) (now : Nat) : Prop :=
  cfg.maxFramesPerSecond = 0 ∨ (s.openWindow cfg now).framesSentInWindow < cfg.maxFramesPerSecond

variable (small : cfg.frameMaxSize ≤ cfg.maxFrameSize)
include small

theorem send_cases (s : Sender) {c : Call} (fits : kSerialMinFrameSize + c.payload.length ≤ cfg.frameMaxSize) :
    (¬ s.Allows cfg c.now ∧ ∃ s', send cfg s c = (.error .rateLimitExceeded, s') ∧ s'.txSeq = s.txSeq) ∨
    s.Allows cfg c.now ∧ ∃ s',
      send cfg s c = (.ok (frameBytes (ofNat (12 + c.payload.length)) s.txSeq c.typeIndex c.payload), s') ∧
      s'.txSeq = s.txSeq + 1 := by
  have word := cfg.fitsWord
  have most : 13 + c.payload.length ≤ cfg.frameMaxSize := fits
  have seq : (s.openWindow cfg c.now).txSeq = s.txSeq := by
    unfold Sender.openWindow
    split <;> rfl
  have msgLen : wrapTo 32 (kSerialHeaderSize + c.payload.length + kSerialCrcSize) = 12 + c.payload.length := by
    rw [wrapTo_of_lt]
    · simp only [kSerialHeaderSize, kSerialCrcSize]
      omega
    · simp only [kSerialHeaderSize, kSerialCrcSize]
      omega
  have total : wrapTo 32 (12 + c.payload.length + 1) = 13 + c.payload.length := by
    rw [wrapTo_of_lt (by omega)]
    omega
  unfold send Sender.Allows
  simp only [msgLen, total]
  split
  · exact .inl ⟨by omega,_,rfl,seq⟩
  · rw [if_neg (by omega), seq]
    exact .inr ⟨by omega,_,rfl,rfl⟩

theorem send_accepts (s : Sender) {c : Call} (fits : kSerialMinFrameSize + c.payload.length ≤ cfg.frameMaxSize) :
    (∃ bytes, (send cfg s c).1 = .ok bytes) ↔ s.Allows cfg c.now := by
  rcases send_cases small s fits with ⟨full,_,refused,-⟩ | ⟨allowed,_,sent,-⟩
  · simp only [refused, full, reduceCtorEq, exists_const]
  · simp only [sent, allowed, Except.ok.injEq, exists_eq']

theorem produced_wellFormed (calls : List Call) :
    ∀ s : Sender, (∀ c ∈ calls, kSerialMinFrameSize + c.payload.length ≤ cfg.frameMaxSize) →
      List.Forall₂ (WellFormed cfg.frameMaxSize) ((produced cfg s calls).map Prod.snd)
        (deliveries s.txSeq ((produced cfg s calls).map Prod.fst)) := by
  induction calls with
  | nil => exact fun _ _ => .nil
  | cons c calls ih =>
    intro s fits
    have here := fits c (mem_cons_self ..)
    have later : ∀ c ∈ calls, kSerialMinFrameSize + c.payload.length ≤ cfg.frameMaxSize :=
      fun c member => fits c (mem_cons_of_mem _ member)
    have word := cfg.fitsWord
    have most : 13 + c.payload.length ≤ cfg.frameMaxSize := here
    rcases send_cases small s here with ⟨-,s',refused,seq⟩ | ⟨-,s',sent,seq⟩
    · simp only [produced, refused]
      rw [← seq]
      exact ih s' later
    · simp only [produced, sent, map_cons, deliveries]
      refine .cons (wellFormed_frameBytes here (by omega) s.txSeq c.typeIndex) ?_
      rw [← seq]
      exact ih s' later

theorem produced_all (unlimited : cfg.maxFramesPerSecond = 0) (calls : List Call) :
    ∀ s : Sender, (∀ c ∈ calls, kSerialMinFrameSize + c.payload.length ≤ cfg.frameMaxSize) →
      (produced cfg s calls).map Prod.fst = calls := by
  induction calls with
  | nil => exact fun _ _ => rfl
  | cons c calls ih =>
    intro s fits
    rcases send_cases small s (fits c (mem_cons_self ..)) with ⟨full,-⟩ | ⟨-,s',sent,-⟩
    · exact absurd (.inl unlimited) full
    · simp only [produced, sent, map_cons]
      rw [ih s' fun c member => fits c (mem_cons_of_mem _ member)]

end

theorem foldl_deliveries (cfg : SerialConfig) (calls : List Call) : ∀ (seq : UInt16) {r : Receiver},
    r.stats.framesReceived = 0 ∨ r.rxExpectedSeq = seq →
    ((deliveries seq calls).foldl (Receiver.deliver cfg) r).delivered = r.delivered ++ deliveries seq calls ∧
    ((deliveries seq calls).foldl (Receiver.deliver cfg) r).stats =
      { r.stats with framesReceived := r.stats.framesReceived + calls.length } := by
  induction calls with
  | nil =>
    intro seq r _
    exact ⟨(append_nil _).symm,rfl⟩
  | cons c calls ih =>
    intro seq r inSync
    have noGap : ¬ (cfg.enableSeqCheck = true ∧ 0 < r.stats.framesReceived ∧ seq ≠ r.rxExpectedSeq) := by
      rintro ⟨_,some_,differ⟩
      rcases inSync with none_ | same
      · omega
      · exact differ same.symm
    obtain ⟨delivered,stats⟩ := ih (seq + 1) (r := r.deliver cfg ⟨c.payload,c.typeIndex,seq⟩) (.inr rfl)
    simp only [deliveries, foldl_cons, delivered, stats]
    constructor
    · exact append_assoc ..
    · simp only [Receiver.deliver, if_neg noGap, add_zero, length_cons]
      congr 1
      omega

/-- **Round trip**: the calls that `Send` accepts (those below the rate limit, or all without one) are delivered in order
with consecutive sequence numbers, whatever acknowledgements and pauses stand between the frames and however the stream
is cut; and no error is counted. -/
theorem serial_round_trip (small : cfg.frameMaxSize ≤ cfg.maxFrameSize) (s : Sender) {calls : List Call}
    (fits : ∀ c ∈ calls, kSerialMinFrameSize + c.payload.length ≤ cfg.frameMaxSize) {items : List Item}
    (frames : items.filterMap Item.data? = (produced cfg s calls).map Prod.snd) {r : Receiver} (idle : r.Idle)
    (inSync : r.stats.framesReceived = 0 ∨ r.rxExpectedSeq = s.txSeq) {batches : List (Nat × List UInt8)}
    (chunks : batches.flatMap Prod.snd = items.flatMap Item.bytes) (inTime : InTimeWithin cfg items (timed batches)) :
    (∀ s : Sender, ∀ c ∈ calls, (∃ bytes, (send cfg s c).1 = .ok bytes) ↔ s.Allows cfg c.now) ∧
    (cfg.maxFramesPerSecond = 0 → (produced cfg s calls).map Prod.fst = calls) ∧
    ∃ r', receiveAll cfg batches r = some r' ∧ r'.Idle ∧
      r'.delivered = r.delivered ++ deliveries s.txSeq ((produced cfg s calls).map Prod.fst) ∧
      r'.stats = { r.stats with framesReceived := r.stats.framesReceived + (produced cfg s calls).length } := by
  refine ⟨fun s c member => send_accepts small s (fits c member),
    fun unlimited => produced_all small unlimited calls s fits,?_⟩
  have stream : (timed batches).map Prod.snd = items.flatMap Item.bytes := by
    rw [← chunks, timed, map_flatMap]
    simp only [map_map, Function.comp_def, map_id']
  have wellFormed := produced_wellFormed small calls s fits
  rw [← frames] at wellFormed
  obtain ⟨r',run,idle',core⟩ := items_run small items idle wellFormed stream inTime
  obtain ⟨delivered,stats⟩ := foldl_deliveries cfg ((produced cfg s calls).map Prod.fst) s.txSeq inSync
  simp only [Receiver.core, Prod.mk.injEq] at core
  refine ⟨r',by rw [receiveAll_eq, run],idle',?_,?_⟩
  · rw [core.2.2.1, delivered]
  · rw [core.2.1, stats, length_map]

/-- Two calls, the second with bytes of the protocol in its payload. -/
def twoCalls : List Call := [⟨5, 7, []⟩, ⟨6, 8, [0xAA, 0x55, 0x0D]⟩]

/-- The bytes of `twoCalls` across the wrap of the sequence number, one by one, with an acknowledgement and a pause
longer than the timeout before the second frame. -/
def pausing : List (Nat × List UInt8) :=
  (frameBytes 12 0xFFFF 7 [] ++ ackFrame 3).map (fun b => (9, [b])) ++
    (frameBytes 15 0 8 [0xAA, 0x55, 0x0D]).map fun b => (9000, [b])

theorem serial_round_trip_wrapped : smallConfig.interByteTimeoutMs < 8991 ∧
    ∃ r', receiveAll smallConfig pausing (newReceiver fun _ => 0) = some r' ∧
      r'.delivered = [⟨[], 7, 0xFFFF⟩, ⟨[0xAA, 0x55, 0x0D], 8, 0⟩] ∧ r'.stats = ⟨2, 0, 0, 0, 0, 0⟩ := by
  have trip := @serial_round_trip smallConfig (by decide) ⟨0xFFFF,1,0⟩ twoCalls (by decide)
    [.data (frameBytes 12 0xFFFF 7 []), .ack 3, .data (frameBytes 15 0 8 [0xAA, 0x55, 0x0D])]
    (by decide +kernel) (newReceiver fun _ => 0) ⟨rfl,rfl⟩ (.inl rfl) pausing (by decide +kernel)
    ⟨by decide +kernel,by decide +kernel,by decide +kernel,trivial⟩
  obtain ⟨r',run,_,delivered,stats⟩ := trip.2.2
  exact ⟨by decide,r',run,delivered.trans (by decide +kernel),stats.trans (by decide +kernel)⟩

end Newosp.Serial
