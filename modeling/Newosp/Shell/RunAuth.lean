import Mathlib.Data.List.GetD
import Newosp.Shell.Telnet

/-!
# `DebugShell::RunAuth`

A username and a password are read character by character, with backspace editing, and compared with the configured
ones, at most three times. When the client's bytes are used up, `read` returns nothing more and the login fails. `tries`
is a history.
-/

namespace Newosp.Shell
open List

/-- `cfg_.username` and `cfg_.password`, as the strings they point to, and whether `char` is signed. -/
structure ShellConfig where
  username : Option (List UInt8)
  password : Option (List UInt8)
  signedChar : Bool

def kMaxAuthAttempts : Nat := 3

/-- `sizeof(user_buf) - 1`. -/
def kFieldSize : Nat := 63

/-- What is written to the client: a text, or a character as it was typed. -/
inductive Write
  | text (text : String)
  | byte (ch : UInt8)
  deriving DecidableEq

/-- The part of `ShellSession` that the login uses. -/
structure Login where
  iacState : IacState
  skipNextLf : Bool
  authAttempts : Nat
  authenticated : Bool
  output : List Write
  tries : List (List UInt8 × List UInt8)
  deriving DecidableEq

def Login.write (s : Login) (w : Write) : Login := { s with output := s.output ++ [w] }

/-- `ch >= 0x20`, for a `char` that may be signed. -/
def isText (cfg : ShellConfig) (ch : UInt8) : Bool := 0x20 ≤ ch && (!cfg.signedChar || ch < 0x80)

def isErase (ch : UInt8) : Bool := ch = 0x7F || ch = 0x08

def isEnd (ch : UInt8) : Bool := ch = kCarriageReturn || ch = kLineFeed

inductive FieldStep
  | ends (s : Login)
  | more (s : Login) (field : List UInt8)

/-- One byte in the loop that reads a field; the characters of a password are masked. -/
def fieldByte (cfg : ShellConfig) (masked : Bool) (s : Login) (field : List UInt8) (byte : UInt8) : FieldStep :=
  let ch := (filterIac s.iacState byte).1
  let s := { s with iacState := (filterIac s.iacState byte).2 }
  if ch = 0 then .more s field
  else if isEnd ch then .ends (if ch = kCarriageReturn then { s with skipNextLf := true } else s)
  else if s.skipNextLf ∧ ch = kLineFeed then .more { s with skipNextLf := false } field
  else
    let s := { s with skipNextLf := false }
    if isErase ch then
      if field = [] then .more s field else .more (s.write (.text "\x08 \x08")) field.dropLast
    else if isText cfg ch then
      .more (s.write (if masked then .text "*" else .byte ch)) (field ++ [ch])
    else .more s field

/-- The loop that reads a field: the session after it, the field and the bytes left, or nothing if the client sends no
more. -/
def readField (cfg : ShellConfig) (masked : Bool) (s : Login) (field : List UInt8) :
    List UInt8 → Login × Option (List UInt8 × List UInt8)
  | [] => if field.length < kFieldSize then (s, none) else (s, some (field, []))
  | byte :: rest =>
    if field.length < kFieldSize then
      match fieldByte cfg masked s field byte with
      | .ends s' => (s', some (field, rest))
      | .more s' field' => readField cfg masked s' field' rest
    else (s, some (field, byte :: rest))

/-- `ConstantTimeEquals`, over strings without NUL; a null pointer is equal to nothing. -/
def constantTimeEquals (lhs rhs : Option (List UInt8)) : Bool := match lhs, rhs with
  | some lhs, some rhs =>
    let maxLen := if lhs.length > rhs.length then lhs.length else rhs.length
    let diff := UInt8.ofNat (lhs.length ^^^ rhs.length)
    (List.range maxLen).foldl (fun diff i => diff ||| (lhs.getD i 0 ^^^ rhs.getD i 0)) diff = 0
  | _, _ => false

def readCredentials (cfg : ShellConfig) (s : Login) (input : List UInt8) :
    Login × Option (List UInt8 × List UInt8 × List UInt8) :=
  match readField cfg false (s.write (.text "Username: ")) [] input with
  | (s, none) => (s, none)
  | (s, some (user, input)) =>
    match readField cfg true ((s.write (.text "\r\n")).write (.text "Password: ")) [] input with
    | (s, none) => (s, none)
    | (s, some (pass, input)) => (s.write (.text "\r\n"), some (user, pass, input))

/-- What `RunAuth` returns, with the session and the bytes that are left. -/
structure AuthResult where
  ok : Bool
  session : Login
  rest : List UInt8
  deriving DecidableEq

/-- The loop of `RunAuth` with `left` attempts left; `alive k` is the check of `active` and `running_` before attempt
`k`. -/
def runAuthLoop (cfg : ShellConfig) (alive : Nat → Bool) : Nat → Login → List UInt8 → AuthResult
  | 0, s, input => ⟨false, s.write (.text "Too many attempts. Disconnecting.\r\n"), input⟩
  | left + 1, s, input =>
    if alive s.authAttempts = false then ⟨false, s.write (.text "Too many attempts. Disconnecting.\r\n"), input⟩
    else match readCredentials cfg s input with
      | (s, none) => ⟨false, s, []⟩
      | (s, some (user, pass, input)) =>
        let s := { s with tries := s.tries ++ [(user, pass)] }
        if constantTimeEquals (some user) cfg.username && constantTimeEquals (some pass) cfg.password then
          ⟨true, { s with authenticated := true }.write (.text "\r\nAuthenticated.\r\n\r\n"), input⟩
        else
          runAuthLoop cfg alive left
            ({ s with authAttempts := s.authAttempts + 1 }.write (.text "\r\nLogin incorrect.\r\n\r\n")) input

def runAuth (cfg : ShellConfig) (alive : Nat → Bool) (s : Login) (input : List UInt8) : AuthResult :=
  runAuthLoop cfg alive (kMaxAuthAttempts - s.authAttempts) s input

/-- `ShellSessionInit` and what `AcceptLoop` sets after it. -/
def Login.init (cfg : ShellConfig) : Login where
  iacState := .normal
  skipNextLf := false
  authAttempts := 0
  authenticated := cfg.username.isNone
  output := []
  tries := []

/-! ### The comparison -/

theorem foldl_diff {f g : Nat → UInt8} (indices : List Nat) (diff : UInt8) :
    indices.foldl (fun diff i => diff ||| (f i ^^^ g i)) diff = 0 ↔ diff = 0 ∧ ∀ i ∈ indices, f i = g i := by
  induction indices generalizing diff with
  | nil => simp
  | cons i indices ih =>
    rw [foldl_cons, ih, UInt8.or_eq_zero_iff, UInt8.xor_eq_zero_iff, forall_mem_cons, and_assoc]

theorem length_le_of_padded {lhs rhs : List UInt8} (nonzero : 0 ∉ rhs)
    (agree : ∀ i < rhs.length, lhs.getD i 0 = rhs.getD i 0) : rhs.length ≤ lhs.length := by
  by_contra longer
  have inside : lhs.length < rhs.length := Nat.lt_of_not_le longer
  have same := agree lhs.length inside
  rw [getD_eq_default _ _ (Nat.le_refl _), getD_eq_getElem _ _ inside] at same
  apply nonzero
  rw [same]
  exact getElem_mem inside

/-- The comparison is exact for strings of any lengths. -/
theorem constantTimeEquals_iff {lhs rhs : List UInt8} (nonzeroL : 0 ∉ lhs) (nonzeroR : 0 ∉ rhs) :
    constantTimeEquals (some lhs) (some rhs) = true ↔ lhs = rhs := by
  simp only [constantTimeEquals, decide_eq_true_eq, foldl_diff, mem_range]
  constructor
  · rintro ⟨_,agree⟩
    have atMost : ∀ i, i < lhs.length ∨ i < rhs.length → lhs.getD i 0 = rhs.getD i 0 := by
      intro i inside
      apply agree
      split <;> omega
    have le := length_le_of_padded nonzeroR fun i inside => atMost i (.inr inside)
    have ge := length_le_of_padded nonzeroL fun i inside => (atMost i (.inl inside)).symm
    apply ext_getElem (Nat.le_antisymm ge le)
    intro i insideL insideR
    have same := atMost i (.inl insideL)
    rw [getD_eq_getElem _ _ insideL, getD_eq_getElem _ _ insideR] at same
    exact same
  · rintro rfl
    refine ⟨?_,fun _ _ => rfl⟩
    rw [Nat.xor_self]
    rfl

/-! ### Reading a field -/

section

variable {cfg : ShellConfig} {masked : Bool} {s s' : Login} {field : List UInt8} {byte : UInt8} {rest : List UInt8}

/-- What reading a field leaves alone. -/
structure Frame (s s' : Login) : Prop where
  authAttempts : s'.authAttempts = s.authAttempts
  authenticated : s'.authenticated = s.authenticated
  tries : s'.tries = s.tries

theorem Frame.rfl' (s : Login) : Frame s s := ⟨rfl, rfl, rfl⟩

theorem Frame.trans {s'' : Login} (h : Frame s s') (h' : Frame s' s'') : Frame s s'' :=
  ⟨h'.1.trans h.1, h'.2.trans h.2, h'.3.trans h.3⟩

def FieldStep.session : FieldStep → Login
  | .ends s => s
  | .more s _ => s

theorem fieldByte_frame (cfg : ShellConfig) (masked : Bool) (s : Login) (field : List UInt8) (byte : UInt8) :
    Frame s (fieldByte cfg masked s field byte).session := by
  simp only [fieldByte]
  split
  · exact ⟨rfl,rfl,rfl⟩
  split
  · split <;> exact ⟨rfl,rfl,rfl⟩
  split
  · exact ⟨rfl,rfl,rfl⟩
  split
  · split <;> exact ⟨rfl,rfl,rfl⟩
  split <;> exact ⟨rfl,rfl,rfl⟩

theorem readField_byte (room : field.length < kFieldSize) :
    readField cfg masked s field (byte :: rest) = match fieldByte cfg masked s field byte with
      | .ends s' => (s', some (field, rest)) | .more s' field' => readField cfg masked s' field' rest := by
  rw [readField, if_pos room]

theorem readField_frame (cfg : ShellConfig) (masked : Bool) (s : Login) (field input : List UInt8) :
    Frame s (readField cfg masked s field input).1 := by
  induction input generalizing s field with
  | nil =>
    rw [readField]
    split <;> exact Frame.rfl' s
  | cons byte rest ih =>
    have frame := fieldByte_frame cfg masked s field byte
    rw [readField]
    split
    · cases step : fieldByte cfg masked s field byte with
      | ends s' =>
        rw [step] at frame
        exact frame
      | more s' field' =>
        rw [step] at frame
        exact frame.trans (ih s' field')
    · exact Frame.rfl' s

theorem fieldByte_consumed {state : IacState} (consumed : filterIac s.iacState byte = (0, state)) :
    fieldByte cfg masked s field byte = .more { s with iacState := state } field := by
  simp only [fieldByte, consumed, if_true]

end

theorem readCredentials_frame (cfg : ShellConfig) (s : Login) (input : List UInt8) : Frame s (readCredentials cfg s input).1 := by
  have first := readField_frame cfg false (s.write (.text "Username: ")) [] input
  unfold readCredentials
  split
  · rename_i read
    rw [read] at first
    exact ⟨first.1,first.2,first.3⟩
  · rename_i s' user input' read
    rw [read] at first
    have second := readField_frame cfg true ((s'.write (.text "\r\n")).write (.text "Password: ")) [] input'
    split <;>
    · rename_i read'
      rw [read'] at second
      exact ⟨second.1.trans first.1,second.2.trans first.2,second.3.trans first.3⟩

end Newosp.Shell
