import Newosp.Transport.Frame

/-!
# Frames on the wire

What each call does on a stream of whole frames when no loop of it gives up. The bytes `missing` are those of the peer's
frames that never arrive.
-/

namespace Newosp.Transport
open Lib List

/-- The fields that v1 adds. -/
structure Stamp where
  seqNum : UInt32
  timestampNs : UInt64

/-- What one send carries; a v0 frame has no stamp. -/
structure Frame where
  stamp : Option Stamp
  typeIndex : UInt16
  senderId : UInt32
  payload : List UInt8
  fits : payload.length < 2 ^ 32

namespace Frame

def headerV0 (f : Frame) : FrameHeader := {
  magic := kFrameMagic
  length := .ofNat f.payload.length
  typeIndex := f.typeIndex
  senderId := f.senderId }

def header (f : Frame) : FrameHeaderV1 := match f.stamp with
  | none => f.headerV0.toV1
  | some stamp => {
    magic := kFrameMagicV1
    length := .ofNat f.payload.length
    typeIndex := f.typeIndex
    senderId := f.senderId
    seqNum := stamp.seqNum
    timestampNs := stamp.timestampNs }

def headerBytes (f : Frame) : List UInt8 := match f.stamp with
  | none => encodeHeader f.headerV0 kHeaderSize
  | some _ => encodeHeaderV1 f.header kHeaderSizeV1

def wire (f : Frame) : List UInt8 := f.headerBytes ++ f.payload

def send (cfg : TransportConfig) (header body : Behaviour) (f : Frame) (t : TcpTransport) :
    Option (Except TransportError Unit × TcpTransport) :=
  match f.stamp with
  | none => sendFrame cfg header body f.typeIndex f.senderId (.bytes f.payload) t
  | some stamp =>
    sendFrameV1 cfg header body f.typeIndex f.senderId stamp.seqNum stamp.timestampNs (.bytes f.payload) t

theorem headerV0_magic (f : Frame) : f.headerV0.magic = kFrameMagic := rfl

theorem headerV0_length (f : Frame) : f.headerV0.length.toNat = f.payload.length := UInt32.toNat_ofNat_of_lt' f.fits

end Frame

section

variable {α β : Type} {fine fine' : Prop} {b first header body : Behaviour} {t : TcpTransport}
  {cfg : TransportConfig} {f : Frame} {front rest missing : List UInt8} {bufSize : Nat}
  {r : Option (Except TransportError α × TcpTransport)}

@[simp] theorem andThen_ok (a : α) (t : TcpTransport)
    (next : α → TcpTransport → Option (Except TransportError β × TcpTransport)) :
    andThen (some (.ok a, t)) next = next a t := rfl

@[simp] theorem andThen_error (e : TransportError) (t : TcpTransport)
    (next : α → TcpTransport → Option (Except TransportError β × TcpTransport)) :
    andThen (some (.error e, t)) next = some (.error e, t) := rfl

theorem Lost.mono (lost : Lost fine r) (imp : fine' → fine) : Lost fine' r := by
  obtain ⟨e,t',eq,disconnected,bad⟩ := lost
  exact ⟨e,t',eq,disconnected,fun good => bad (imp good)⟩

theorem Lost.andThen (lost : Lost fine r) (next : α → TcpTransport → Option (Except TransportError β × TcpTransport)) :
    Lost fine (Transport.andThen r next) := by
  obtain ⟨e,t',rfl,disconnected,bad⟩ := lost
  exact ⟨e,t',rfl,disconnected,bad⟩

theorem not_disconnected (connected : t.connected = true) : ¬ t.connected = false := by
  rw [connected]
  exact Bool.true_eq_false_eq_False

/-! ### Sending -/

theorem sendPayload_steady (steady : Steady body) (data : List UInt8) (t : TcpTransport) :
    Lost (Healthy body) (sendPayload body t (.bytes data)) ∨
    sendPayload body t (.bytes data) = some (.ok (), { t with outgoing := t.outgoing ++ data }) := by
  rw [sendPayload]
  split
  · exact sendAll_steady steady data t
  · rename_i none_
    obtain rfl : data = [] := length_eq_zero_iff.1 (Nat.eq_zero_of_not_pos none_)
    rw [append_nil]
    exact .inr rfl

theorem Frame.send_eq (cfg : TransportConfig) (header body : Behaviour) (f : Frame) (t : TcpTransport) :
    f.send cfg header body t = if t.connected = false then some (.error .notConnected, t)
      else if cfg.maxFrameSize < f.payload.length then some (.error .bufferFull, t)
      else andThen (sendAll header f.headerBytes t) fun _ t => sendPayload body t (.bytes f.payload) := by
  unfold Frame.send Frame.headerBytes Frame.header
  cases f.stamp with
  | none => rfl
  | some stamp => rfl

theorem Frame.send_steady (connected : t.connected = true) (within : f.payload.length ≤ cfg.maxFrameSize)
    (steady : Steady header) (steadyBody : Steady body) :
    Lost (Healthy header ∧ Healthy body) (f.send cfg header body t) ∨
    f.send cfg header body t = some (.ok (), { t with outgoing := t.outgoing ++ f.wire }) := by
  rw [Frame.send_eq, if_neg (not_disconnected connected), if_neg (Nat.not_lt.2 within)]
  rcases sendAll_steady steady f.headerBytes t with lost | sent
  · exact .inl ((lost.andThen _).mono And.left)
  · rw [sent, andThen_ok]
    rcases sendPayload_steady steadyBody f.payload { t with outgoing := t.outgoing ++ f.headerBytes } with lost | sent'
    · exact .inl (lost.mono And.right)
    · rw [sent', append_assoc]
      exact .inr rfl

/-! ### Receiving -/

theorem recvAll_front (mild : Mild b) (stream : t.incoming ++ missing = front ++ rest) :
    Lost (Healthy b ∧ missing = []) (recvAll b front.length t) ∨ ∃ incoming', incoming' ++ missing = rest ∧
      recvAll b front.length t = some (.ok front, { t with incoming := incoming' }) := by
  rcases recvAll_mild mild front.length t with lost | ⟨arrived,eq⟩
  · refine .inl (lost.mono ?_)
    rintro ⟨healthy,rfl⟩
    refine ⟨healthy,?_⟩
    rw [append_nil] at stream
    rw [stream, length_append]
    exact Nat.le_add_right _ _
  · have taken : t.incoming.take front.length = front := by
      have := congrArg (List.take front.length) stream
      rwa [take_append_of_le_length arrived, take_left] at this
    refine .inr ⟨t.incoming.drop front.length,?_,?_⟩
    · have := congrArg (List.drop front.length) stream
      rwa [drop_append_of_le_length arrived, drop_left] at this
    · rw [eq, taken]

theorem recvPayload_mild (mild : Mild body) (within : f.payload.length ≤ bufSize)
    (stream : t.incoming ++ missing = f.payload ++ rest) :
    Lost (Healthy body ∧ missing = []) (recvPayload body bufSize f.payload.length t) ∨
    ∃ incoming', incoming' ++ missing = rest ∧
      recvPayload body bufSize f.payload.length t = some (.ok f.payload, { t with incoming := incoming' }) := by
  rw [recvPayload, if_neg (Nat.not_lt.2 within)]
  split
  · exact recvAll_front mild stream
  · rename_i none_
    have empty : f.payload = [] := length_eq_zero_iff.1 (Nat.eq_zero_of_not_pos none_)
    rw [empty] at stream ⊢
    exact .inr ⟨t.incoming,stream,rfl⟩

theorem recvFrame_header (body : Behaviour) (bufSize : Nat) (connected : t.connected = true) (v0 : f.stamp = none) (mild : Mild header)
    (stream : t.incoming ++ missing = f.wire ++ rest) :
    Lost (Healthy header ∧ missing = []) (recvFrame header body bufSize t) ∨
    ∃ incoming', incoming' ++ missing = f.payload ++ rest ∧ recvFrame header body bufSize t =
        andThen (recvPayload body bufSize f.payload.length { t with incoming := incoming' })
          fun payload t => some (.ok (f.headerV0, payload), t) := by
  have bytes : f.headerBytes = encodeHeader f.headerV0 kHeaderSize := by rw [Frame.headerBytes, v0]
  rw [Frame.wire, bytes, append_assoc] at stream
  rw [recvFrame, if_neg (not_disconnected connected)]
  have received := recvAll_front mild stream
  rw [encodeHeader_length] at received
  rcases received with lost | ⟨incoming',stream',eq⟩
  · exact .inl (lost.andThen _)
  · refine .inr ⟨incoming',stream',?_⟩
    rw [eq, andThen_ok]
    simp only [decodeHeader_encodeHeader]
    rw [if_neg (not_not_intro f.headerV0_magic), f.headerV0_length]

theorem Frame.headerBytes_take (f : Frame) : f.headerBytes.take 4 = leBytes 4 f.header.magic.toNat := by
  unfold Frame.headerBytes Frame.header
  cases f.stamp with
  | none =>
    simp only [encodeHeader, if_neg (lt_irrefl _), append_assoc]
    exact take_left' (leBytes_length _ _)
  | some stamp =>
    simp only [encodeHeaderV1, if_neg (lt_irrefl _), append_assoc]
    exact take_left' (leBytes_length _ _)

theorem detectVersion_leBytes (magic : UInt32) : detectVersion (leBytes 4 magic.toNat) =
    if magic = kFrameMagicV0 then 0 else if magic = kFrameMagicV1 then 1 else 255 := by
  have read := field_append32 magic []
  rw [append_nil] at read
  simp only [detectVersion, leBytes_length, read, lt_irrefl, if_false]

theorem Frame.detectVersion_v0 (v0 : f.stamp = none) : detectVersion (f.headerBytes.take 4) = 0 := by
  rw [Frame.headerBytes_take, detectVersion_leBytes, Frame.header, v0]
  exact if_pos rfl

theorem Frame.detectVersion_v1 {stamp : Stamp} (v1 : f.stamp = some stamp) :
    detectVersion (f.headerBytes.take 4) = 1 := by
  rw [Frame.headerBytes_take, detectVersion_leBytes, Frame.header, v1]
  have differ : ¬ kFrameMagicV1 = kFrameMagicV0 := by decide
  exact (if_neg differ).trans (if_pos rfl)

theorem recvFrameAuto_header (body : Behaviour) (bufSize : Nat) (connected : t.connected = true) (mildFirst : Mild first) (mild : Mild header)
    (stream : t.incoming ++ missing = f.wire ++ rest) :
    Lost ((Healthy first ∧ Healthy header) ∧ missing = []) (recvFrameAuto first header body bufSize t) ∨
    ∃ incoming', incoming' ++ missing = f.payload ++ rest ∧ recvFrameAuto first header body bufSize t =
        andThen (recvPayload body bufSize f.payload.length { t with incoming := incoming' })
          fun payload t => some (.ok (f.header, payload), t) := by
  rw [Frame.wire, ← take_append_drop 4 f.headerBytes, append_assoc, append_assoc] at stream
  rw [recvFrameAuto, if_neg (not_disconnected connected)]
  have received := recvAll_front mildFirst stream
  rw [f.headerBytes_take, leBytes_length, ← f.headerBytes_take] at received
  rcases received with lost | ⟨incoming₁,stream₁,eq⟩
  · exact .inl ((lost.andThen _).mono fun fine => ⟨fine.1.1,fine.2⟩)
  rw [eq, andThen_ok]
  have received := recvAll_front (t := { t with incoming := incoming₁ }) mild stream₁
  rw [length_drop] at received
  cases version : f.stamp with
  | none =>
    have bytes : f.headerBytes = encodeHeader f.headerV0 kHeaderSize := by rw [Frame.headerBytes, version]
    have shown : f.header = f.headerV0.toV1 := by rw [Frame.header, version]
    rw [Frame.detectVersion_v0 version, if_pos rfl, shown]
    rw [bytes, encodeHeader_length] at received
    rcases received with lost | ⟨incoming₂,stream₂,eq⟩
    · exact .inl ((lost.andThen _).mono fun fine => ⟨fine.1.2,fine.2⟩)
    refine .inr ⟨incoming₂,stream₂,?_⟩
    rw [bytes, eq, andThen_ok]
    have magic : f.headerV0.magic = kFrameMagicV0 := f.headerV0_magic
    simp only [take_append_drop, decodeHeader_encodeHeader]
    rw [if_neg (not_not_intro magic), f.headerV0_length]
  | some stamp =>
    have bytes : f.headerBytes = encodeHeaderV1 f.header kHeaderSizeV1 := by rw [Frame.headerBytes, version]
    have magic : f.header.magic = kFrameMagicV1 := by rw [Frame.header, version]
    have length : f.header.length.toNat = f.payload.length := by
      rw [Frame.header, version]
      exact f.headerV0_length
    rw [Frame.detectVersion_v1 version, if_neg (by decide), if_pos rfl]
    rw [bytes, encodeHeaderV1_length] at received
    rcases received with lost | ⟨incoming₂,stream₂,eq⟩
    · exact .inl ((lost.andThen _).mono fun fine => ⟨fine.1.2,fine.2⟩)
    refine .inr ⟨incoming₂,stream₂,?_⟩
    rw [bytes, eq, andThen_ok]
    simp only [take_append_drop, decodeHeaderV1_encodeHeaderV1]
    rw [if_neg (not_not_intro magic), length]

theorem recvRest_mild (mild : Mild body) (within : f.payload.length ≤ bufSize) (a : α)
    (stream : t.incoming ++ missing = f.payload ++ rest) :
    Lost (Healthy body ∧ missing = []) (andThen (recvPayload body bufSize f.payload.length t)
      fun payload t => some (.ok (a, payload), t)) ∨ ∃ incoming', incoming' ++ missing = rest ∧
      (andThen (recvPayload body bufSize f.payload.length t) fun payload t => some (.ok (a, payload), t)) =
        some (.ok (a, f.payload), { t with incoming := incoming' }) := by
  rcases recvPayload_mild mild within stream with lost | ⟨incoming',stream',eq⟩
  · exact .inl (lost.andThen _)
  · refine .inr ⟨incoming',stream',?_⟩
    rw [eq, andThen_ok]

/-- `RecvFrame` on a v0 frame. -/
theorem recvFrame_mild (connected : t.connected = true) (v0 : f.stamp = none) (within : f.payload.length ≤ bufSize)
    (mild : Mild header) (mildBody : Mild body) (stream : t.incoming ++ missing = f.wire ++ rest) :
    Lost ((Healthy header ∧ Healthy body) ∧ missing = []) (recvFrame header body bufSize t) ∨
    ∃ incoming', incoming' ++ missing = rest ∧
      recvFrame header body bufSize t = some (.ok (f.headerV0, f.payload), { t with incoming := incoming' }) := by
  rcases recvFrame_header body bufSize connected v0 mild stream with
    lost | ⟨incoming₁,stream₁,eq⟩
  · exact .inl (lost.mono fun fine => ⟨fine.1.1,fine.2⟩)
  · rw [eq]
    rcases recvRest_mild (t := { t with incoming := incoming₁ }) mildBody within f.headerV0 stream₁ with lost | done
    · exact .inl (lost.mono fun fine => ⟨fine.1.2,fine.2⟩)
    · exact .inr done

/-- `RecvFrameAuto` on a frame of either version. -/
theorem recvFrameAuto_mild (connected : t.connected = true) (within : f.payload.length ≤ bufSize)
    (mildFirst : Mild first) (mild : Mild header) (mildBody : Mild body)
    (stream : t.incoming ++ missing = f.wire ++ rest) :
    Lost ((Healthy first ∧ Healthy header ∧ Healthy body) ∧ missing = []) (recvFrameAuto first header body bufSize t) ∨
    ∃ incoming', incoming' ++ missing = rest ∧ recvFrameAuto first header body bufSize t =
        some (.ok (f.header, f.payload), { t with incoming := incoming' }) := by
  rcases recvFrameAuto_header body bufSize connected mildFirst mild stream with
    lost | ⟨incoming₁,stream₁,eq⟩
  · exact .inl (lost.mono fun fine => ⟨⟨fine.1.1,fine.1.2.1⟩,fine.2⟩)
  · rw [eq]
    rcases recvRest_mild (t := { t with incoming := incoming₁ }) mildBody within f.header stream₁ with lost | done
    · exact .inl (lost.mono fun fine => ⟨fine.1.2.2,fine.2⟩)
    · exact .inr done

end

end Newosp.Transport
