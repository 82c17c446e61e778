import Mathlib.Data.List.Basic

/-!
# The telnet filter

`FilterIac` takes the protocol bytes out of a telnet stream, one byte at a time; a byte that it consumes comes out as NUL.
`Interleaved plain wire` says that `wire` is `plain` with option negotiations between its bytes.
-/

namespace Newosp.Shell

inductive IacState
  | normal
  | iac
  | nego
  | sub
  deriving DecidableEq

def kIacByte : UInt8 := 0xFF
def kCarriageReturn : UInt8 := 0x0D
def kLineFeed : UInt8 := 0x0A

/-- `FilterIac`: the effective character and the next state. -/
def filterIac (state : IacState) (byte : UInt8) : UInt8 × IacState := match state with
  | .normal => if byte = kIacByte then (0, .iac) else (byte, .normal)
  | .iac =>
    -- WILL, WONT, DO, DONT
    if 0xFB ≤ byte ∧ byte ≤ 0xFE then (0, .nego)
    -- SB
    else if byte = 0xFA then (0, .sub)
    -- a doubled byte stands for itself
    else (if byte = kIacByte then kIacByte else 0, .normal)
  | .nego => (0, .normal)
  | .sub => if byte = kIacByte then (0, .iac) else (0, .sub)

def filtered : IacState → List UInt8 → List UInt8
  | _, [] => []
  | state, byte :: rest =>
    let step := filterIac state byte
    if step.1 = 0 then filtered step.2 rest else step.1 :: filtered step.2 rest

theorem filtered_nonzero (state : IacState) (bytes : List UInt8) : 0 ∉ filtered state bytes := by
  induction bytes generalizing state with
  | nil => exact List.not_mem_nil
  | cons byte rest ih =>
    simp only [filtered]
    split
    · exact ih _
    · rename_i nonzero
      rw [List.mem_cons, not_or]
      exact ⟨fun same => nonzero same.symm,ih _⟩

/-- Any number of option negotiations: IAC, a command from WILL to DONT, an option. -/
inductive Negotiations : List UInt8 → Prop
  | nil : Negotiations []
  | cons {command option : UInt8} {rest : List UInt8} : 0xFB ≤ command → command ≤ 0xFE → Negotiations rest →
      Negotiations (kIacByte :: command :: option :: rest)

/-- The bytes of `plain`, with negotiations before and between them. -/
inductive Interleaved : List UInt8 → List UInt8 → Prop
  | nil : Interleaved [] []
  | cons {negotiations plain wire : List UInt8} {byte : UInt8} : Negotiations negotiations → Interleaved plain wire →
      Interleaved (byte :: plain) (negotiations ++ byte :: wire)

theorem filterIac_plain {byte : UInt8} (plain : byte ≠ kIacByte) : filterIac .normal byte = (byte, .normal) :=
  if_neg plain

theorem filterIac_command {command : UInt8} (low : 0xFB ≤ command) (high : command ≤ 0xFE) :
    filterIac .iac command = (0, .nego) := if_pos ⟨low, high⟩

theorem interleaved_self (plain : List UInt8) : Interleaved plain plain := by
  induction plain with
  | nil => exact .nil
  | cons byte plain ih => exact .cons .nil ih

section
open List

/-- A piece of a telnet stream. The content of a subnegotiation is given before its IAC bytes are doubled. -/
inductive Piece
  | plain (byte : UInt8) (data : byte ≠ kIacByte)
  | escaped
  | command (code : UInt8) (short : code < 0xFA)
  | negotiation (verb option : UInt8) (low : 0xFB ≤ verb) (high : verb ≤ 0xFE)
  | subnegotiation (content : List UInt8)

def doubled (content : List UInt8) : List UInt8 :=
  content.flatMap fun byte => if byte = kIacByte then [kIacByte, kIacByte] else [byte]

/-- A piece on the wire; SB is 0xFA and SE is 0xF0. -/
def Piece.bytes : Piece → List UInt8
  | .plain byte _ => [byte]
  | .escaped => [kIacByte, kIacByte]
  | .command code _ => [kIacByte, code]
  | .negotiation verb option _ _ => [kIacByte, verb, option]
  | .subnegotiation content => kIacByte :: 0xFA :: (doubled content ++ [kIacByte, 0xF0])

/-- The characters a piece stands for, NUL left out. -/
def Piece.characters : Piece → List UInt8
  | .plain byte _ => if byte = 0 then [] else [byte]
  | .escaped => [kIacByte]
  | _ => []

def iacAfter (state : IacState) (bytes : List UInt8) : IacState := bytes.foldl (fun state byte => (filterIac state byte).2) state

def yields : IacState → List Piece → List (List UInt8)
  | _, [] => []
  | state, piece :: rest => filtered state piece.bytes :: yields (iacAfter state piece.bytes) rest

/-- The filter yields exactly the characters of the stream, nothing of a piece that stands for none, and ends in its
normal state. -/
structure FiltersExactly (stream : List Piece) : Prop where
  characters : filtered .normal (stream.flatMap Piece.bytes) = stream.flatMap Piece.characters
  pieces : yields .normal stream = stream.map Piece.characters
  ends : iacAfter .normal (stream.flatMap Piece.bytes) = .normal

theorem filtered_append (xs ys : List UInt8) (state : IacState) :
    filtered state (xs ++ ys) = filtered state xs ++ filtered (iacAfter state xs) ys := by
  induction xs generalizing state with
  | nil => rfl
  | cons byte xs ih => simp only [cons_append, filtered, iacAfter, foldl_cons, ih]; split <;> rfl

theorem iacAfter_append (state : IacState) (bytes more : List UInt8) :
    iacAfter state (bytes ++ more) = iacAfter (iacAfter state bytes) more := foldl_append

theorem iacAfter_doubled (content : List UInt8) : iacAfter .normal (doubled content ++ [kIacByte, 0xF0]) = .normal := by
  induction content with
  | nil => rfl
  | cons byte content ih =>
    have back : iacAfter .normal (if byte = kIacByte then [kIacByte, kIacByte] else [byte]) = .normal := by
      split
      · rfl
      · rename_i plain
        exact congrArg Prod.snd (filterIac_plain plain)
    rw [doubled, flatMap_cons, append_assoc, iacAfter_append, back]
    exact ih

theorem subnegotiation_content (content : List UInt8) : iacAfter .sub (doubled content ++ [kIacByte, 0xF0]) = .normal ∧
      (filtered .sub (doubled content ++ [kIacByte, 0xF0]) = [] ↔ kIacByte ∉ content) := by
  induction content with
  | nil => exact ⟨rfl,by decide⟩
  | cons byte content ih =>
    by_cases iac : byte = kIacByte
    · subst iac
      -- the first of the two bytes leaves the subnegotiation, so the second is taken for a character
      refine ⟨iacAfter_doubled content,⟨fun nothing => ?_,fun free => absurd mem_cons_self free⟩⟩
      cases nothing
    · have stays : filterIac .sub byte = (0, .sub) := if_neg iac
      have first : doubled (byte :: content) = byte :: doubled content := by rw [doubled, flatMap_cons, if_neg iac]; rfl
      rw [first, cons_append, iacAfter, foldl_cons, stays, filtered, stays, mem_cons, not_or]
      exact ⟨ih.1,fun nothing => ⟨Ne.symm iac,ih.2.1 nothing⟩,fun free => ih.2.2 free.2⟩

theorem filterIac_short {code : UInt8} (short : code < 0xFA) : filterIac .iac code = (0, .normal) := by
  have below : code.toNat < 0xFA := short
  have notVerb : ¬ (0xFB ≤ code ∧ code ≤ 0xFE) := by
    rintro ⟨low,-⟩
    have above : 0xFB ≤ code.toNat := low
    omega
  have notBegin : code ≠ 0xFA := by rintro rfl; exact absurd below (by decide)
  have notIac : code ≠ kIacByte := by rintro rfl; exact absurd below (by decide)
  simp only [filterIac, notVerb, notBegin, notIac, if_false]

theorem Piece.filtered (piece : Piece) : iacAfter .normal piece.bytes = .normal ∧
    (Shell.filtered .normal piece.bytes = piece.characters ↔
      ∀ content, piece = .subnegotiation content → kIacByte ∉ content) := by
  have begins : filterIac .normal kIacByte = (0, .iac) := rfl
  cases piece with
  | plain byte data =>
    have taken := filterIac_plain data
    exact ⟨congrArg Prod.snd taken,nofun,fun _ => by simp only [bytes, Shell.filtered, taken, characters]⟩
  | escaped => exact ⟨rfl,nofun,fun _ => rfl⟩
  | command code short =>
    have taken := filterIac_short short
    exact ⟨congrArg Prod.snd taken,nofun,fun _ => by simp [bytes, Shell.filtered, begins, taken, characters]⟩
  | negotiation verb option low high =>
    have taken := filterIac_command low high
    have skipped : filterIac .nego option = (0, .normal) := rfl
    refine ⟨?_,nofun,fun _ => by simp [bytes, Shell.filtered, begins, taken, skipped, characters]⟩
    simp [bytes, iacAfter, begins, taken, skipped]
  | subnegotiation content =>
    obtain ⟨ends,free⟩ := subnegotiation_content content
    refine ⟨ends,fun nothing other same => ?_,fun all => free.2 (all content rfl)⟩
    cases same
    exact free.1 nothing

theorem filtered_pieces (stream : List Piece) : iacAfter .normal (stream.flatMap Piece.bytes) = .normal ∧
    filtered .normal (stream.flatMap Piece.bytes) = stream.flatMap (fun piece => filtered .normal piece.bytes) ∧
    yields .normal stream = stream.map fun piece => filtered .normal piece.bytes := by
  induction stream with
  | nil => exact ⟨rfl,rfl,rfl⟩
  | cons piece rest ih =>
    obtain ⟨ends,characters,pieces⟩ := ih
    have back := piece.filtered.1
    simp only [flatMap_cons, iacAfter_append, filtered_append, yields, map_cons, back, ends, characters, pieces,
      and_self]

/-- **The filter is exact on a stream iff no subnegotiation of it has an IAC byte in its content.** -/
theorem filters_exactly_iff (stream : List Piece) :
    FiltersExactly stream ↔ ∀ content, .subnegotiation content ∈ stream → kIacByte ∉ content := by
  obtain ⟨ends,characters,pieces⟩ := filtered_pieces stream
  constructor
  · intro exactly content member
    have own := map_inj_left.1 (pieces.symm.trans exactly.pieces) _ member
    exact (Piece.filtered _).2.1 own content rfl
  · intro free
    have own : ∀ piece ∈ stream, filtered .normal piece.bytes = piece.characters := by
      intro piece member
      refine piece.filtered.2.2 fun content same => ?_
      subst same
      exact free content member
    exact ⟨characters.trans (flatMap_congr own),pieces.trans (map_congr_left own),ends⟩

/-- A subnegotiation whose only byte is a doubled IAC: the byte reaches the line editor. -/
theorem doubled_byte_leaks : ¬ FiltersExactly [.subnegotiation [kIacByte]] := by
  intro exactly
  have leaks : filtered .normal (Piece.subnegotiation [kIacByte]).bytes = [kIacByte] := by decide
  cases leaks.symm.trans (by simpa using exactly.characters)

end

end Newosp.Shell
