import Newosp.Shell.RunAuth

/-!
# A login at the first attempt

The flag that skips the line feed of CR LF is looked at after the line feed has already ended the field, so it is taken
for an empty password. With any other line terminator the right credentials are accepted at the first attempt.
-/

namespace Newosp.Shell
open List

variable {cfg : ShellConfig} {s : Login} {ch : UInt8} {wire : List UInt8}

/-- How a client ends its lines. -/
inductive Terminator
  | cr
  | lf
  | crLf
  | crNul
  deriving DecidableEq

/-- The byte that ends the field. -/
def Terminator.first : Terminator → UInt8
  | .lf => kLineFeed
  | .cr | .crLf | .crNul => kCarriageReturn

def Terminator.second : Terminator → List UInt8
  | .cr | .lf => []
  | .crLf => [kLineFeed]
  | .crNul => [0]

def Terminator.bytes (t : Terminator) : List UInt8 := t.first :: t.second

/-- A username or password of printable ASCII characters that fits its buffer with the terminator. -/
structure Credential where
  text : List UInt8
  nonempty : text ≠ []
  short : text.length ≤ 62
  printable : ∀ ch ∈ text, 0x20 ≤ ch ∧ ch ≤ 0x7E

theorem printable_nonzero (low : 0x20 ≤ ch) : ch ≠ 0 := by
  rintro rfl
  exact absurd low (by decide)

theorem printable_plain (high : ch ≤ 0x7E) : ch ≠ kIacByte := by
  rintro rfl
  exact absurd high (by decide)

theorem printable_isEnd (low : 0x20 ≤ ch) : isEnd ch = false := by
  rw [isEnd, Bool.or_eq_false_iff, decide_eq_false_iff_not, decide_eq_false_iff_not]
  constructor
  · rintro rfl
    exact absurd low (by decide)
  · rintro rfl
    exact absurd low (by decide)

theorem printable_isErase (low : 0x20 ≤ ch) (high : ch ≤ 0x7E) : isErase ch = false := by
  rw [isErase, Bool.or_eq_false_iff, decide_eq_false_iff_not, decide_eq_false_iff_not]
  constructor
  · rintro rfl
    exact absurd high (by decide)
  · rintro rfl
    exact absurd low (by decide)

theorem printable_isText (low : 0x20 ≤ ch) (high : ch ≤ 0x7E) : isText cfg ch = true := by
  have ascii : ch < 0x80 := UInt8.lt_of_le_of_lt high (by decide)
  rw [isText, decide_eq_true low, decide_eq_true ascii, Bool.or_true, Bool.and_self]

theorem fieldByte_printable (cfg : ShellConfig) (masked : Bool) (field : List UInt8) (normal : s.iacState = .normal) (low : 0x20 ≤ ch) (high : ch ≤ 0x7E) :
    ∃ s', fieldByte cfg masked s field ch = .more s' (field ++ [ch]) ∧ s'.iacState = .normal := by
  have plain : filterIac s.iacState ch = (ch, .normal) := by
    rw [normal]
    exact filterIac_plain (printable_plain high)
  have notFeed : ch ≠ kLineFeed := by
    rintro rfl
    exact absurd low (by decide)
  simp only [fieldByte, plain, if_neg (printable_nonzero low), printable_isEnd low, notFeed, and_false,
    printable_isErase low high, printable_isText low high, Bool.false_eq_true, if_false, if_true]
  exact ⟨_,rfl,rfl⟩

theorem fieldByte_end (cfg : ShellConfig) (masked : Bool) (field : List UInt8) (normal : s.iacState = .normal) (ends : isEnd ch = true) :
    ∃ s', fieldByte cfg masked s field ch = .ends s' ∧ s'.iacState = .normal := by
  have which : ch = kCarriageReturn ∨ ch = kLineFeed := by
    rw [isEnd, Bool.or_eq_true, decide_eq_true_eq, decide_eq_true_eq] at ends
    exact ends
  have nonzero : ch ≠ 0 := by
    rcases which with rfl | rfl
    · decide
    · decide
  have plain : filterIac s.iacState ch = (ch, .normal) := by
    rw [normal]
    apply filterIac_plain
    rcases which with rfl | rfl
    · decide
    · decide
  simp only [fieldByte, plain, if_neg nonzero, ends, if_true]
  refine ⟨_,rfl,?_⟩
  split <;> rfl

section

variable (cfg) (masked : Bool) (rest : List UInt8) {field tail : List UInt8}

theorem readField_negotiations {negotiations : List UInt8} (n : Negotiations negotiations)
    (normal : s.iacState = .normal) (room : field.length < kFieldSize) :
    readField cfg masked s field (negotiations ++ rest) = readField cfg masked s field rest := by
  induction n with
  | nil => rfl
  | @cons command option more low high _ ih =>
    have back : { s with iacState := IacState.normal } = s := by rw [← normal]
    have start : filterIac s.iacState kIacByte = (0, .iac) := by
      rw [normal]
      rfl
    rw [cons_append, readField_byte room, fieldByte_consumed start]
    simp only
    rw [cons_append, readField_byte room, fieldByte_consumed (filterIac_command low high)]
    simp only
    have last : filterIac .nego option = (0, .normal) := rfl
    rw [cons_append, readField_byte room, fieldByte_consumed last]
    simp only
    rw [back]
    exact ih

theorem readField_text {text : List UInt8} (printable : ∀ ch ∈ text, 0x20 ≤ ch ∧ ch ≤ 0x7E)
    (normal : s.iacState = .normal) (room : field.length + text.length < kFieldSize)
    (stream : Interleaved (text ++ tail) wire) : ∃ s' wire', s'.iacState = .normal ∧ Interleaved tail wire' ∧
      readField cfg masked s field (wire ++ rest) = readField cfg masked s' (field ++ text) (wire' ++ rest) := by
  induction text generalizing s field wire with
  | nil =>
    rw [append_nil]
    exact ⟨s,wire,normal,stream,rfl⟩
  | cons ch text ih =>
    obtain ⟨low,high⟩ := printable ch mem_cons_self
    rw [length_cons] at room
    cases stream with
    | @cons negotiations _ wire _ n stream =>
      obtain ⟨s₁,step,normal₁⟩ := fieldByte_printable cfg masked field normal low high
      have longer : (field ++ [ch]).length + text.length < kFieldSize := by
        rw [length_append, length_singleton]
        omega
      obtain ⟨s₂,wire',normal₂,stream',read⟩ :=
        ih (fun c member => printable c (mem_cons_of_mem _ member)) normal₁ longer stream
      refine ⟨s₂,wire',normal₂,stream',?_⟩
      rw [append_assoc, readField_negotiations cfg masked _ n normal (by omega), cons_append,
        readField_byte (by omega), step]
      simp only
      rw [read, append_assoc, singleton_append]

theorem readField_end (ends : isEnd ch = true) (normal : s.iacState = .normal) (room : field.length < kFieldSize)
    (stream : Interleaved (ch :: tail) wire) : ∃ s' wire', s'.iacState = .normal ∧ Interleaved tail wire' ∧
      readField cfg masked s field (wire ++ rest) = (s', some (field, wire' ++ rest)) := by
  cases stream with
  | @cons negotiations _ wire _ n stream =>
    obtain ⟨s',step,normal'⟩ := fieldByte_end cfg masked field normal ends
    refine ⟨s',wire,normal',stream,?_⟩
    rw [append_assoc, readField_negotiations cfg masked _ n normal room, cons_append, readField_byte room, step]

theorem readField_nul (normal : s.iacState = .normal) (room : field.length < kFieldSize)
    (stream : Interleaved (0 :: tail) wire) : ∃ wire', Interleaved tail wire' ∧
      readField cfg masked s field (wire ++ rest) = readField cfg masked s field (wire' ++ rest) := by
  cases stream with
  | @cons negotiations _ wire _ n stream =>
    have back : { s with iacState := IacState.normal } = s := by rw [← normal]
    have consumed : filterIac s.iacState 0 = (0, .normal) := by
      rw [normal]
      rfl
    refine ⟨wire,stream,?_⟩
    rw [append_assoc, readField_negotiations cfg masked _ n normal room, cons_append, readField_byte room,
      fieldByte_consumed consumed]
    simp only
    rw [back]

theorem Terminator.first_ends (t : Terminator) : isEnd t.first = true := by cases t <;> rfl

theorem readField_line (c : Credential) (normal : s.iacState = .normal) (t : Terminator)
    (stream : Interleaved (c.text ++ t.first :: tail) wire) :
    ∃ s' wire', s'.iacState = .normal ∧ Interleaved tail wire' ∧
      readField cfg masked s [] (wire ++ rest) = (s', some (c.text, wire' ++ rest)) := by
  have room : ([] : List UInt8).length + c.text.length < kFieldSize := by
    have short := c.short
    have size : kFieldSize = 63 := rfl
    rw [length_nil]
    omega
  have room₁ : ([] ++ c.text).length < kFieldSize := by
    rw [length_append]
    exact room
  obtain ⟨s₁,wire₁,normal₁,stream₁,read⟩ := readField_text cfg masked rest c.printable normal room stream
  obtain ⟨s₂,wire₂,normal₂,stream₂,ended⟩ :=
    readField_end cfg masked rest t.first_ends normal₁ room₁ stream₁
  exact ⟨s₂,wire₂,normal₂,stream₂,read.trans ended⟩

end

section

variable {rest : List UInt8} {user pass : Credential} {t : Terminator}

theorem readCredentials_lines (cfg : ShellConfig) (rest : List UInt8) (normal : s.iacState = .normal)
    (stream : Interleaved (user.text ++ t.bytes ++ (pass.text ++ t.bytes)) wire) :
    ∃ s' left, readCredentials cfg s (wire ++ rest) =
      (s', some (user.text, if t = .crLf then [] else pass.text, left)) := by
  have lines : user.text ++ t.bytes ++ (pass.text ++ t.bytes) =
      user.text ++ t.first :: (t.second ++ (pass.text ++ t.first :: t.second)) := by
    simp only [Terminator.bytes, append_assoc, cons_append]
  rw [lines] at stream
  obtain ⟨s₁,wire₁,normal₁,stream₁,first⟩ :=
    readField_line cfg false rest user (s := s.write (.text "Username: ")) normal t stream
  have empty : ([] : List UInt8).length < kFieldSize := by decide
  generalize next_ : (s₁.write (.text "\r\n")).write (.text "Password: ") = s₂
  have normal₂ : s₂.iacState = .normal := by
    rw [← next_]
    exact normal₁
  -- what the second byte of the terminator does to the password
  have second : ∃ s₃ left, readField cfg true s₂ [] (wire₁ ++ rest) =
      (s₃, some (if t = .crLf then [] else pass.text, left)) := by
    cases t with
    | cr =>
      obtain ⟨s₃,wire₃,_,_,read⟩ := readField_line cfg true rest pass normal₂ .cr stream₁
      exact ⟨s₃,wire₃ ++ rest,read⟩
    | lf =>
      obtain ⟨s₃,wire₃,_,_,read⟩ := readField_line cfg true rest pass normal₂ .lf stream₁
      exact ⟨s₃,wire₃ ++ rest,read⟩
    | crLf =>
      have ends : isEnd kLineFeed = true := rfl
      obtain ⟨s₃,wire₃,_,_,read⟩ := readField_end cfg true rest ends normal₂ empty stream₁
      exact ⟨s₃,wire₃ ++ rest,read⟩
    | crNul =>
      obtain ⟨wire₂,stream₂,skipped⟩ := readField_nul cfg true rest normal₂ empty stream₁
      obtain ⟨s₃,wire₃,_,_,read⟩ := readField_line cfg true rest pass normal₂ .crNul stream₂
      exact ⟨s₃,wire₃ ++ rest,skipped.trans read⟩
  obtain ⟨s₃,left,read⟩ := second
  refine ⟨s₃.write (.text "\r\n"),left,?_⟩
  simp only [readCredentials, first, next_, read]

theorem runAuthLoop_attempts (cfg : ShellConfig) (alive : Nat → Bool) (left : Nat) (s : Login) (input : List UInt8) :
    s.authAttempts ≤ (runAuthLoop cfg alive left s input).session.authAttempts := by
  induction left generalizing s input with
  | zero => exact Nat.le_refl _
  | succ left ih =>
    have frame := readCredentials_frame cfg s input
    rw [runAuthLoop]
    split
    · exact Nat.le_refl _
    · split
      · rename_i read
        rw [read] at frame
        exact Nat.le_of_eq frame.authAttempts.symm
      · rename_i read
        rw [read] at frame
        simp only
        split
        · exact Nat.le_of_eq frame.authAttempts.symm
        · refine Nat.le_trans ?_ (ih _ _)
          have same := frame.authAttempts
          simp only [Login.write] at same ⊢
          omega

theorem Credential.nonzero (c : Credential) : 0 ∉ c.text := by
  intro member
  exact printable_nonzero (c.printable 0 member).1 rfl

/-- **The right credentials are accepted at the first attempt**, unless the lines end with CR LF. -/
theorem login_completes (alive : Nat → Bool) (up : alive 0 = true) (username : cfg.username = some user.text)
    (password : cfg.password = some pass.text)
    (stream : Interleaved (user.text ++ t.bytes ++ (pass.text ++ t.bytes)) wire) :
    ((runAuth cfg alive (Login.init cfg) (wire ++ rest)).ok = true ∧
      (runAuth cfg alive (Login.init cfg) (wire ++ rest)).session.authAttempts = 0) ↔ t ≠ .crLf := by
  have normal : (Login.init cfg).iacState = .normal := rfl
  obtain ⟨s',left,read⟩ := readCredentials_lines cfg rest normal stream
  have frame := readCredentials_frame cfg (Login.init cfg) (wire ++ rest)
  rw [read] at frame
  have attempts : s'.authAttempts = 0 := frame.authAttempts
  have userSame : constantTimeEquals (some user.text) cfg.username = true := by
    rw [username, constantTimeEquals_iff user.nonzero user.nonzero]
  have check : (alive (Login.init cfg).authAttempts) = true := up
  have start : runAuth cfg alive (Login.init cfg) (wire ++ rest) =
      runAuthLoop cfg alive (2 + 1) (Login.init cfg) (wire ++ rest) := rfl
  rw [start, runAuthLoop, check]
  simp only [Bool.true_eq_false, if_false, read, userSame, Bool.true_and]
  by_cases skipped : t = .crLf
  · -- the line feed is taken for the password
    have passDiffers : constantTimeEquals (some []) cfg.password = false := by
      rw [password, Bool.eq_false_iff, ne_eq, constantTimeEquals_iff not_mem_nil pass.nonzero]
      exact fun same => pass.nonempty same.symm
    simp only [skipped, if_true, passDiffers, Bool.false_eq_true, if_false, ne_eq, not_true_eq_false, iff_false, not_and]
    intro _ none_
    have more := runAuthLoop_attempts cfg alive 2
      ({ s' with tries := s'.tries ++ [(user.text, [])], authAttempts := s'.authAttempts + 1 }.write
        (.text "\r\nLogin incorrect.\r\n\r\n")) left
    rw [none_] at more
    exact absurd more (Nat.not_succ_le_zero _)
  · have passSame : constantTimeEquals (some pass.text) cfg.password = true := by
      rw [password, constantTimeEquals_iff pass.nonzero pass.nonzero]
    simp only [skipped, if_false, passSame, if_true, ne_eq, not_false_eq_true, iff_true]
    exact ⟨trivial,attempts⟩

def smallUser : Credential := ⟨[0x61, 0x62], by decide, by decide, by decide +kernel⟩
def smallPass : Credential := ⟨[0x63, 0x20, 0x64], by decide, by decide, by decide +kernel⟩
def smallShell : ShellConfig := ⟨some smallUser.text, some smallPass.text, true⟩

theorem login_completes_crNul : (runAuth smallShell (fun _ => true) (Login.init smallShell)
    ([0xFF, 0xFD, 0x03, 0x61, 0x62, 0x0D, 0xFF, 0xFB, 0x0D, 0x00, 0x63, 0x20, 0x64, 0x0D, 0x00] ++ [0x68])).ok = true := by
  have none_ : Negotiations [] := .nil
  have doSga : Negotiations [0xFF, 0xFD, 0x03] := .cons (by decide) (by decide) none_
  have will : Negotiations [0xFF, 0xFB, 0x0D] := .cons (by decide) (by decide) none_
  have stream : Interleaved (smallUser.text ++ Terminator.crNul.bytes ++ (smallPass.text ++ Terminator.crNul.bytes))
      [0xFF, 0xFD, 0x03, 0x61, 0x62, 0x0D, 0xFF, 0xFB, 0x0D, 0x00, 0x63, 0x20, 0x64, 0x0D, 0x00] :=
    .cons doSga (.cons none_ (.cons none_ (.cons will (interleaved_self _))))
  exact ((login_completes (fun _ => true) rfl rfl rfl stream).2 (by decide)).1

/-- With CR LF the line feed after the username is the password of the first attempt, and the password is the username
of the second. -/
theorem login_fails_crLf :
    let result := runAuth smallShell (fun _ => true) (Login.init smallShell)
      (smallUser.text ++ Terminator.crLf.bytes ++ (smallPass.text ++ Terminator.crLf.bytes))
    result.ok = false ∧ result.session.tries = [(smallUser.text, []), (smallPass.text, [])] := by
  decide +kernel

end

end Newosp.Shell
