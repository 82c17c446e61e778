import Newosp.Transport.Socket

/-!
# `FrameCodec` and the frame calls of `TcpTransport`

The v0 header has the magic, the length of the payload, its type and its sender; v1 adds a sequence number and a
timestamp under a magic of its own. Each call runs `SendAll` or `RecvAll` up to three times, each with a behaviour of
the socket.
-/

namespace Newosp.Transport
open Lib List

def kFrameMagicV0 : UInt32 := 0x4F535000
def kFrameMagicV1 : UInt32 := 0x4F535001
def kFrameMagic : UInt32 := kFrameMagicV0
def kHeaderSize : Nat := 14
def kHeaderSizeV1 : Nat := 26

/-- The build's `OSP_TRANSPORT_MAX_FRAME_SIZE`. -/
structure TransportConfig where
  maxFrameSize : Nat
  fits : maxFrameSize < 2 ^ 32

structure FrameHeader where
  magic : UInt32
  length : UInt32
  typeIndex : UInt16
  senderId : UInt32
  deriving DecidableEq

structure FrameHeaderV1 where
  magic : UInt32
  length : UInt32
  typeIndex : UInt16
  senderId : UInt32
  seqNum : UInt32
  timestampNs : UInt64
  deriving DecidableEq

def encodeHeader (hdr : FrameHeader) (bufSize : Nat) : List UInt8 :=
  if bufSize < kHeaderSize then []
  else leBytes 4 hdr.magic.toNat ++ leBytes 4 hdr.length.toNat ++ leBytes 2 hdr.typeIndex.toNat ++
    leBytes 4 hdr.senderId.toNat

/-- The number in `k` bytes of a buffer. -/
def field (buf : List UInt8) (p k : Nat) : Nat := leValue ((buf.drop p).take k)

def decodeHeader (buf : List UInt8) : Option FrameHeader :=
  if buf.length < kHeaderSize then none else some {
    magic := .ofNat (field buf 0 4)
    length := .ofNat (field buf 4 4)
    typeIndex := .ofNat (field buf 8 2)
    senderId := .ofNat (field buf 10 4) }

def encodeHeaderV1 (hdr : FrameHeaderV1) (bufSize : Nat) : List UInt8 :=
  if bufSize < kHeaderSizeV1 then []
  else leBytes 4 hdr.magic.toNat ++ leBytes 4 hdr.length.toNat ++ leBytes 2 hdr.typeIndex.toNat ++
    leBytes 4 hdr.senderId.toNat ++ leBytes 4 hdr.seqNum.toNat ++ leBytes 8 hdr.timestampNs.toNat

def decodeHeaderV1 (buf : List UInt8) : Option FrameHeaderV1 :=
  if buf.length < kHeaderSizeV1 then none else some {
    magic := .ofNat (field buf 0 4)
    length := .ofNat (field buf 4 4)
    typeIndex := .ofNat (field buf 8 2)
    senderId := .ofNat (field buf 10 4)
    seqNum := .ofNat (field buf 14 4)
    timestampNs := .ofNat (field buf 18 8) }

/-- `DetectVersion`: 0, 1, or 255 for an unknown magic. -/
def detectVersion (buf : List UInt8) : UInt8 :=
  if buf.length < 4 then 255 else
    let magic := UInt32.ofNat (field buf 0 4)
    if magic = kFrameMagicV0 then 0
    else if magic = kFrameMagicV1 then 1
    else 255

/-- Go on with the value of a call, unless it is an error. -/
def andThen {α β : Type} (r : Option (Except TransportError α × TcpTransport))
    (next : α → TcpTransport → Option (Except TransportError β × TcpTransport)) :
    Option (Except TransportError β × TcpTransport) :=
  match r with
  | none => none
  | some (.error e, t) => some (.error e, t)
  | some (.ok a, t) => next a t

/-- The payload pointer and length of a call. -/
inductive Payload
  | bytes (data : List UInt8)
  | null (len : Nat)

def Payload.len : Payload → Nat
  | bytes data => data.length
  | null len => len

def sendPayload (body : Behaviour) (t : TcpTransport) : Payload → Option (Except TransportError Unit × TcpTransport)
  | .bytes data => if 0 < data.length then sendAll body data t else some (.ok (), t)
  | .null _ => some (.ok (), t)

def sendFrame (cfg : TransportConfig) (header body : Behaviour) (typeIndex : UInt16) (senderId : UInt32)
    (payload : Payload) (t : TcpTransport) : Option (Except TransportError Unit × TcpTransport) :=
  if t.connected = false then some (.error .notConnected, t)
  else if cfg.maxFrameSize < payload.len then some (.error .bufferFull, t)
  else
    let hdr : FrameHeader := {
      magic := kFrameMagic
      length := .ofNat payload.len
      typeIndex
      senderId }
    andThen (sendAll header (encodeHeader hdr kHeaderSize) t) fun _ t => sendPayload body t payload

def sendFrameV1 (cfg : TransportConfig) (header body : Behaviour) (typeIndex : UInt16) (senderId seqNum : UInt32)
    (timestampNs : UInt64) (payload : Payload) (t : TcpTransport) :
    Option (Except TransportError Unit × TcpTransport) :=
  if t.connected = false then some (.error .notConnected, t)
  else if cfg.maxFrameSize < payload.len then some (.error .bufferFull, t)
  else
    let hdr : FrameHeaderV1 := {
      magic := kFrameMagicV1
      length := .ofNat payload.len
      typeIndex
      senderId
      seqNum
      timestampNs }
    andThen (sendAll header (encodeHeaderV1 hdr kHeaderSizeV1) t) fun _ t => sendPayload body t payload

/-- The part of a receive after the header: the size check and the payload. -/
def recvPayload (body : Behaviour) (bufSize length : Nat) (t : TcpTransport) :
    Option (Except TransportError (List UInt8) × TcpTransport) :=
  if bufSize < length then some (.error .bufferFull, t)
  else if 0 < length then recvAll body length t
  else some (.ok [], t)

def recvFrame (header body : Behaviour) (bufSize : Nat) (t : TcpTransport) :
    Option (Except TransportError (FrameHeader × List UInt8) × TcpTransport) :=
  if t.connected = false then some (.error .notConnected, t)
  else
    andThen (recvAll header kHeaderSize t) fun buf t =>
      match decodeHeader buf with
      | none => some (.error .invalidFrame, t)
      | some hdr =>
        if hdr.magic ≠ kFrameMagic then some (.error .invalidFrame, t)
        else andThen (recvPayload body bufSize hdr.length.toNat t) fun payload t => some (.ok (hdr, payload), t)

def FrameHeader.toV1 (hdr : FrameHeader) : FrameHeaderV1 := {
  magic := hdr.magic
  length := hdr.length
  typeIndex := hdr.typeIndex
  senderId := hdr.senderId
  seqNum := 0
  timestampNs := 0 }

def recvFrameAuto (first header body : Behaviour) (bufSize : Nat) (t : TcpTransport) :
    Option (Except TransportError (FrameHeaderV1 × List UInt8) × TcpTransport) :=
  if t.connected = false then some (.error .notConnected, t)
  else
    andThen (recvAll first 4 t) fun magic t =>
      if detectVersion magic = 0 then
        andThen (recvAll header (kHeaderSize - 4) t) fun more t =>
          match decodeHeader (magic ++ more) with
          | none => some (.error .invalidFrame, t)
          | some hdr =>
            if hdr.magic ≠ kFrameMagicV0 then some (.error .invalidFrame, t)
            else andThen (recvPayload body bufSize hdr.length.toNat t) fun payload t => some (.ok (hdr.toV1, payload), t)
      else if detectVersion magic = 1 then
        andThen (recvAll header (kHeaderSizeV1 - 4) t) fun more t =>
          match decodeHeaderV1 (magic ++ more) with
          | none => some (.error .invalidFrame, t)
          | some hdr =>
            if hdr.magic ≠ kFrameMagicV1 then some (.error .invalidFrame, t)
            else andThen (recvPayload body bufSize hdr.length.toNat t) fun payload t => some (.ok (hdr, payload), t)
      else some (.error .invalidFrame, t)

/-! ### What the codec reads back -/

theorem field_append (k n : Nat) (rest : List UInt8) (fits : n < 256 ^ k) : field (leBytes k n ++ rest) 0 k = n := by
  rw [field, drop_zero, take_left' (leBytes_length k n), leValue_leBytes fits]

theorem field_skip {k p : Nat} (n : Nat) (rest : List UInt8) (j : Nat) (past : k ≤ p) :
    field (leBytes k n ++ rest) p j = field rest (p - k) j := by
  rw [field, field, drop_append, leBytes_length, drop_eq_nil_of_le (by rwa [leBytes_length]), nil_append]

@[simp] theorem field_append16 (v : UInt16) (rest : List UInt8) :
    UInt16.ofNat (field (leBytes 2 v.toNat ++ rest) 0 2) = v := by
  rw [field_append 2 _ rest v.toNat_lt, UInt16.ofNat_toNat]

@[simp] theorem field_append32 (v : UInt32) (rest : List UInt8) :
    UInt32.ofNat (field (leBytes 4 v.toNat ++ rest) 0 4) = v := by
  rw [field_append 4 _ rest v.toNat_lt, UInt32.ofNat_toNat]

@[simp] theorem field_append64 (v : UInt64) (rest : List UInt8) :
    UInt64.ofNat (field (leBytes 8 v.toNat ++ rest) 0 8) = v := by
  rw [field_append 8 _ rest v.toNat_lt, UInt64.ofNat_toNat]

@[simp] theorem encodeHeader_length (hdr : FrameHeader) : (encodeHeader hdr kHeaderSize).length = kHeaderSize := by
  rw [encodeHeader, if_neg (lt_irrefl _)]
  simp only [length_append, leBytes_length, kHeaderSize]

@[simp] theorem encodeHeaderV1_length (hdr : FrameHeaderV1) :
    (encodeHeaderV1 hdr kHeaderSizeV1).length = kHeaderSizeV1 := by
  rw [encodeHeaderV1, if_neg (lt_irrefl _)]
  simp only [length_append, leBytes_length, kHeaderSizeV1]

theorem decodeHeader_encodeHeader (hdr : FrameHeader) : decodeHeader (encodeHeader hdr kHeaderSize) = some hdr := by
  rw [decodeHeader, encodeHeader_length, if_neg (lt_irrefl _), encodeHeader, if_neg (lt_irrefl _)]
  -- the last field too is followed by a list, the empty one
  rw [← append_nil (leBytes 4 hdr.senderId.toNat)]
  simp (disch := decide) only [append_assoc, field_skip, field_append16, field_append32, Nat.reduceSub]

theorem decodeHeaderV1_encodeHeaderV1 (hdr : FrameHeaderV1) :
    decodeHeaderV1 (encodeHeaderV1 hdr kHeaderSizeV1) = some hdr := by
  rw [decodeHeaderV1, encodeHeaderV1_length, if_neg (lt_irrefl _), encodeHeaderV1, if_neg (lt_irrefl _)]
  rw [← append_nil (leBytes 8 hdr.timestampNs.toNat)]
  simp (disch := decide) only [append_assoc, field_skip, field_append16, field_append32, field_append64,
    Nat.reduceSub]

end Newosp.Transport
