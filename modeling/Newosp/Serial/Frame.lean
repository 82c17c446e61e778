import Newosp.Lib.Buffer
import Newosp.Lib.Counter

/-!
# Serial frames: layout, checksum and `Send`

A data frame is the sync word, the magic, the length, the sequence number, the type, the payload, the checksum, and a
tail byte; the length counts everything but the tail. An acknowledgement is shorter. Numbers are written with their low
byte first.
-/

namespace Newosp.Serial
open Lib

def kSerialMagic : UInt16 := 0x4F53
def kSerialAckMagic : UInt16 := 0x4F41
def kSerialTailByte : UInt8 := 0x0D
def kSerialSyncByte1 : UInt8 := 0xAA
def kSerialSyncByte2 : UInt8 := 0x55
def kSerialHeaderSize : Nat := 10
def kSerialTrailerSize : Nat := 3
def kSerialMinFrameSize : Nat := kSerialHeaderSize + kSerialTrailerSize
def kSerialAckFrameSize : Nat := 8
def kSerialCrcSize : Nat := 2

/-- `SerialConfig` with the receive buffer's size `OSP_SERIAL_MAX_FRAME_SIZE` and its static assertions. -/
structure SerialConfig where
  maxFrameSize : Nat
  holdsMinimum : kSerialMinFrameSize ≤ maxFrameSize
  fitsWord : maxFrameSize ≤ 65535
  frameMaxSize : Nat
  interByteTimeoutMs : Nat
  enableAck : Bool
  enableSeqCheck : Bool
  maxFramesPerSecond : Nat

def kTable : List UInt16 := [
  0x0000, 0x1021, 0x2042, 0x3063, 0x4084, 0x50A5, 0x60C6, 0x70E7, 0x8108, 0x9129, 0xA14A, 0xB16B,
  0xC18C, 0xD1AD, 0xE1CE, 0xF1EF, 0x1231, 0x0210, 0x3273, 0x2252, 0x52B5, 0x4294, 0x72F7, 0x62D6,
  0x9339, 0x8318, 0xB37B, 0xA35A, 0xD3BD, 0xC39C, 0xF3FF, 0xE3DE, 0x2462, 0x3443, 0x0420, 0x1401,
  0x64E6, 0x74C7, 0x44A4, 0x5485, 0xA56A, 0xB54B, 0x8528, 0x9509, 0xE5EE, 0xF5CF, 0xC5AC, 0xD58D,
  0x3653, 0x2672, 0x1611, 0x0630, 0x76D7, 0x66F6, 0x5695, 0x46B4, 0xB75B, 0xA77A, 0x9719, 0x8738,
  0xF7DF, 0xE7FE, 0xD79D, 0xC7BC, 0x48C4, 0x58E5, 0x6886, 0x78A7, 0x0840, 0x1861, 0x2802, 0x3823,
  0xC9CC, 0xD9ED, 0xE98E, 0xF9AF, 0x8948, 0x9969, 0xA90A, 0xB92B, 0x5AF5, 0x4AD4, 0x7AB7, 0x6A96,
  0x1A71, 0x0A50, 0x3A33, 0x2A12, 0xDBFD, 0xCBDC, 0xFBBF, 0xEB9E, 0x9B79, 0x8B58, 0xBB3B, 0xAB1A,
  0x6CA6, 0x7C87, 0x4CE4, 0x5CC5, 0x2C22, 0x3C03, 0x0C60, 0x1C41, 0xEDAE, 0xFD8F, 0xCDEC, 0xDDCD,
  0xAD2A, 0xBD0B, 0x8D68, 0x9D49, 0x7E97, 0x6EB6, 0x5ED5, 0x4EF4, 0x3E13, 0x2E32, 0x1E51, 0x0E70,
  0xFF9F, 0xEFBE, 0xDFDD, 0xCFFC, 0xBF1B, 0xAF3A, 0x9F59, 0x8F78, 0x9188, 0x81A9, 0xB1CA, 0xA1EB,
  0xD10C, 0xC12D, 0xF14E, 0xE16F, 0x1080, 0x00A1, 0x30C2, 0x20E3, 0x5004, 0x4025, 0x7046, 0x6067,
  0x83B9, 0x9398, 0xA3FB, 0xB3DA, 0xC33D, 0xD31C, 0xE37F, 0xF35E, 0x02B1, 0x1290, 0x22F3, 0x32D2,
  0x4235, 0x5214, 0x6277, 0x7256, 0xB5EA, 0xA5CB, 0x95A8, 0x8589, 0xF56E, 0xE54F, 0xD52C, 0xC50D,
  0x34E2, 0x24C3, 0x14A0, 0x0481, 0x7466, 0x6447, 0x5424, 0x4405, 0xA7DB, 0xB7FA, 0x8799, 0x97B8,
  0xE75F, 0xF77E, 0xC71D, 0xD73C, 0x26D3, 0x36F2, 0x0691, 0x16B0, 0x6657, 0x7676, 0x4615, 0x5634,
  0xD94C, 0xC96D, 0xF90E, 0xE92F, 0x99C8, 0x89E9, 0xB98A, 0xA9AB, 0x5844, 0x4865, 0x7806, 0x6827,
  0x18C0, 0x08E1, 0x3882, 0x28A3, 0xCB7D, 0xDB5C, 0xEB3F, 0xFB1E, 0x8BF9, 0x9BD8, 0xABBB, 0xBB9A,
  0x4A75, 0x5A54, 0x6A37, 0x7A16, 0x0AF1, 0x1AD0, 0x2AB3, 0x3A92, 0xFD2E, 0xED0F, 0xDD6C, 0xCD4D,
  0xBDAA, 0xAD8B, 0x9DE8, 0x8DC9, 0x7C26, 0x6C07, 0x5C64, 0x4C45, 0x3CA2, 0x2C83, 0x1CE0, 0x0CC1,
  0xEF1F, 0xFF3E, 0xCF5D, 0xDF7C, 0xAF9B, 0xBFBA, 0x8FD9, 0x9FF8, 0x6E17, 0x7E36, 0x4E55, 0x5E74,
  0x2E93, 0x3EB2, 0x0ED1, 0x1EF0]

/-- One byte of `Crc16Ccitt::Calculate`. -/
def crcStep (crc : UInt16) (byte : UInt8) : UInt16 :=
  let index := ((crc >>> 8) ^^^ byte.toUInt16).toUInt8
  (crc <<< 8) ^^^ kTable.getD index.toNat 0

/-- `Crc16Ccitt::Calculate`. -/
def crc16 (data : List UInt8) : UInt16 := data.foldl crcStep 0xFFFF

def writeLE16 (v : UInt16) : List UInt8 := [(v &&& 0xFF).toUInt8, ((v >>> 8) &&& 0xFF).toUInt8]

/-- `ReadLE16` at index `p`. -/
def readLE16 (buf : Nat → UInt8) (p : Nat) : UInt16 := (buf p).toUInt16 ||| ((buf (p + 1)).toUInt16 <<< 8)

section

variable {buf : Nat → UInt8} {p : Nat}

@[simp] theorem writeLE16_length (v : UInt16) : (writeLE16 v).length = 2 := rfl

theorem word_of_bytes (v : UInt16) :
    (v &&& 0xFF).toUInt8.toUInt16 ||| ((v >>> 8 &&& 0xFF).toUInt8.toUInt16 <<< 8) = v := by
  apply UInt16.toNat_inj.1
  have lt := v.toNat_lt
  have low : (v.toNat &&& 255) % 2 ^ 8 = v.toNat % 2 ^ 8 := by
    rw [Nat.and_two_pow_sub_one_eq_mod v.toNat 8, Nat.mod_mod]
  have high : (v.toNat >>> 8 &&& 255) % 2 ^ 8 = v.toNat / 2 ^ 8 := by
    rw [Nat.and_two_pow_sub_one_eq_mod _ 8, Nat.shiftRight_eq_div_pow]
    omega
  have fits : (v.toNat / 2 ^ 8) <<< 8 % 2 ^ 16 = (v.toNat / 2 ^ 8) <<< 8 := by
    rw [Nat.shiftLeft_eq]
    omega
  simp only [UInt16.toNat_or, UInt8.toNat_toUInt16, UInt16.toNat_toUInt8, UInt16.toNat_and, UInt16.toNat_shiftLeft,
    UInt16.toNat_shiftRight]
  change (v.toNat &&& 255) % 2 ^ 8 ||| ((v.toNat >>> 8 &&& 255) % 2 ^ 8) <<< 8 % 2 ^ 16 = v.toNat
  rw [low, high, fits, Nat.or_comm, ← Nat.shiftLeft_add_eq_or_of_lt (Nat.mod_lt _ (by decide)), Nat.shiftLeft_eq]
  omega

theorem readLE16_congr {buf' : Nat → UInt8} (low : buf' p = buf p) (high : buf' (p + 1) = buf (p + 1)) :
    readLE16 buf' p = readLE16 buf p := by
  rw [readLE16, readLE16, low, high]

theorem readLE16_append (l : List UInt8) (v : UInt16) (l' : List UInt8) :
    readLE16 (ofList (l ++ (writeLE16 v ++ l'))) l.length = v := by
  have low : ofList (l ++ (writeLE16 v ++ l')) l.length = (v &&& 0xFF).toUInt8 :=
    (ofList_append_right l _ 0).trans rfl
  have high : ofList (l ++ (writeLE16 v ++ l')) (l.length + 1) = (v >>> 8 &&& 0xFF).toUInt8 :=
    (ofList_append_right l _ 1).trans rfl
  rw [readLE16, low, high]
  exact word_of_bytes v

end

def frameBody (msgLen seq typeIndex : UInt16) (payload : List UInt8) : List UInt8 :=
  [kSerialSyncByte1, kSerialSyncByte2] ++ (writeLE16 kSerialMagic ++ (writeLE16 msgLen ++ (writeLE16 seq ++
    (writeLE16 typeIndex ++ payload))))

/-- The bytes that `Send` builds. -/
def frameBytes (msgLen seq typeIndex : UInt16) (payload : List UInt8) : List UInt8 :=
  let body := frameBody msgLen seq typeIndex payload
  body ++ (writeLE16 (crc16 body) ++ [kSerialTailByte])

def ackFrame (seq : UInt16) : List UInt8 :=
  let body := [kSerialSyncByte1, kSerialSyncByte2] ++ (writeLE16 kSerialAckMagic ++ writeLE16 seq)
  body ++ writeLE16 (crc16 body)

inductive SerialError
  | frameOversize
  | rateLimitExceeded
  deriving DecidableEq

/-- The sender's side of a transport. -/
structure Sender where
  txSeq : UInt16
  frameCountWindowStartMs : Nat
  framesSentInWindow : Nat

/-- One call of `Send` at time `now`. -/
structure Call where
  now : Nat
  typeIndex : UInt16
  payload : List UInt8

/-- The rate limiter opens a new window every second. -/
def Sender.openWindow (s : Sender) (cfg : SerialConfig) (now : Nat) : Sender :=
  if 0 < cfg.maxFramesPerSecond ∧ 1000 ≤ subTo 64 now s.frameCountWindowStartMs then
    { s with frameCountWindowStartMs := now, framesSentInWindow := 0 }
  else s

/-- `Send` on an open port that takes every byte: the bytes written, and the sender after the call. -/
def send (cfg : SerialConfig) (s : Sender) (c : Call) : Except SerialError (List UInt8) × Sender :=
  let s := s.openWindow cfg c.now
  if 0 < cfg.maxFramesPerSecond ∧ cfg.maxFramesPerSecond ≤ s.framesSentInWindow then (.error .rateLimitExceeded, s)
  else
    let msgLen := wrapTo 32 (kSerialHeaderSize + c.payload.length + kSerialCrcSize)
    let total := wrapTo 32 (msgLen + 1)
    if cfg.frameMaxSize < total then (.error .frameOversize, s)
    else (.ok (frameBytes (UInt16.ofNat msgLen) s.txSeq c.typeIndex c.payload),
      { s with txSeq := s.txSeq + 1, framesSentInWindow := wrapTo 32 (s.framesSentInWindow + 1) })

/-- The calls that `Send` accepted, one after another, and the bytes of each. -/
def produced (cfg : SerialConfig) : Sender → List Call → List (Call × List UInt8)
  | _, [] => []
  | s, c :: calls => match send cfg s c with
    | (.ok bytes, s') => (c, bytes) :: produced cfg s' calls
    | (.error _, s') => produced cfg s' calls

end Newosp.Serial
