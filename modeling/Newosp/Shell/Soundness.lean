import Newosp.Shell.Sessions

/-!
# Only the configured credentials log in

`Typed` says what a client typed into a field: the characters that the telnet filter lets through, up to the end of the
line, with the erased ones taken back.
-/

namespace Newosp.Shell
open Lib List

section

/-- One character of a line, with backspace editing. -/
def edit (cfg : ShellConfig) (field : List UInt8) (ch : UInt8) : List UInt8 :=
  if isErase ch then field.dropLast else if isText cfg ch then field ++ [ch] else field

structure TypedOn (cfg : ShellConfig) (state : IacState) (old bytes field : List UInt8) : Prop where
  line : ∃ chars, (∀ ch ∈ chars, isEnd ch = false) ∧ field = chars.foldl (edit cfg) old ∧
    (filtered state bytes = chars ∨ ∃ last, isEnd last = true ∧ filtered state bytes = chars ++ [last])

/-- The client typed `field` with `bytes`. -/
def Typed (cfg : ShellConfig) (state : IacState) (bytes field : List UInt8) : Prop := TypedOn cfg state [] bytes field

variable {cfg : ShellConfig} {state : IacState} {old bytes field : List UInt8} {byte : UInt8} {state' : IacState}
  {ch : UInt8}

theorem TypedOn.consumed (step : filterIac state byte = (0, state'))
    (h : TypedOn cfg state' old bytes field) : TypedOn cfg state old (byte :: bytes) field := by
  obtain ⟨chars,plain,text,stream⟩ := h.line
  have same : filtered state (byte :: bytes) = filtered state' bytes := by
    simp only [filtered, step, if_true]
  refine ⟨chars,plain,text,?_⟩
  rw [same]
  exact stream

theorem TypedOn.char (step : filterIac state byte = (ch, state')) (nonzero : ch ≠ 0)
    (plain : isEnd ch = false) (h : TypedOn cfg state' (edit cfg old ch) bytes field) :
    TypedOn cfg state old (byte :: bytes) field := by
  obtain ⟨chars,rest,text,stream⟩ := h.line
  have same : filtered state (byte :: bytes) = ch :: filtered state' bytes := by
    simp only [filtered, step, if_neg nonzero]
  refine ⟨ch :: chars,?_,text,?_⟩
  · intro c member
    rcases mem_cons.1 member with rfl | later
    · exact plain
    · exact rest c later
  · rw [same]
    rcases stream with all | ⟨last,ends,all⟩
    · exact .inl (by rw [all])
    · exact .inr ⟨last,ends,by rw [all, cons_append]⟩

theorem TypedOn.ended (step : filterIac state byte = (ch, state')) (nonzero : ch ≠ 0)
    (ends : isEnd ch = true) : TypedOn cfg state old [byte] old := by
  refine ⟨[],fun _ member => absurd member not_mem_nil,rfl,.inr ⟨ch,ends,?_⟩⟩
  simp only [filtered, step, if_neg nonzero, nil_append]

theorem TypedOn.nothing : TypedOn cfg state old [] old := ⟨[], fun _ member => absurd member not_mem_nil, rfl, .inl rfl⟩

theorem fieldByte_cases (cfg : ShellConfig) (masked : Bool) (s : Login) (field : List UInt8) (byte : UInt8) :
    let ch := (filterIac s.iacState byte).1
    let state := (filterIac s.iacState byte).2
    (ch = 0 ∧ ∃ s', fieldByte cfg masked s field byte = .more s' field ∧ s'.iacState = state) ∨
    (ch ≠ 0 ∧ isEnd ch = true ∧ ∃ s', fieldByte cfg masked s field byte = .ends s' ∧ s'.iacState = state) ∨
    (ch ≠ 0 ∧ isEnd ch = false ∧
      ∃ s', fieldByte cfg masked s field byte = .more s' (edit cfg field ch) ∧ s'.iacState = state) := by
  intro ch state
  by_cases consumed : ch = 0
  · refine .inl ⟨consumed,{ s with iacState := state },?_,rfl⟩
    exact fieldByte_consumed (Prod.ext consumed rfl)
  right
  cases ends : isEnd ch with
  | true =>
    refine .inl ⟨consumed,rfl,?_⟩
    simp only [fieldByte, ch, state] at consumed ends ⊢
    simp only [if_neg consumed, ends, if_true]
    refine ⟨_,rfl,?_⟩
    split <;> rfl
  | false =>
    have notFeed : ch ≠ kLineFeed := by
      intro feed
      rw [feed] at ends
      cases ends
    refine .inr ⟨consumed,rfl,?_⟩
    simp only [fieldByte, ch, state] at consumed ends notFeed ⊢
    simp only [if_neg consumed, ends, notFeed, and_false, if_false, Bool.false_eq_true]
    unfold edit
    split
    · split
      · rename_i empty
        rw [empty]
        exact ⟨_,rfl,rfl⟩
      · exact ⟨_,rfl,rfl⟩
    · split
      · exact ⟨_,rfl,rfl⟩
      · exact ⟨_,rfl,rfl⟩

theorem edit_length (cfg : ShellConfig) (field : List UInt8) (ch : UInt8) : (edit cfg field ch).length ≤ field.length + 1 := by
  unfold edit
  split
  · rw [length_dropLast]
    omega
  · split
    · exact Nat.le_of_eq length_append
    · omega

theorem readField_typed {masked : Bool} {s s' : Login} {input rest : List UInt8} (fits : old.length ≤ kFieldSize)
    (read : readField cfg masked s old input = (s', some (field, rest))) :
    ∃ used, input = used ++ rest ∧ TypedOn cfg s.iacState old used field ∧ s'.iacState = iacAfter s.iacState used ∧
      field.length ≤ kFieldSize := by
  induction input generalizing s old with
  | nil =>
    rw [readField] at read
    split at read
    · cases read
    · cases read
      exact ⟨[],rfl,.nothing,rfl,fits⟩
  | cons byte more ih =>
    rw [readField] at read
    split at read
    · rename_i room
      rcases fieldByte_cases cfg masked s old byte with
        ⟨consumed,s₁,step,state⟩ | ⟨nonzero,ends,s₁,step,state⟩ | ⟨nonzero,plain,s₁,step,state⟩
      · rw [step] at read
        obtain ⟨used,split_,typed,after,length⟩ := ih fits read
        rw [state] at typed after
        exact ⟨byte :: used,by rw [split_, cons_append],typed.consumed (Prod.ext consumed rfl),after,length⟩
      · rw [step] at read
        cases read
        exact ⟨[byte],rfl,.ended rfl nonzero ends,state,fits⟩
      · rw [step] at read
        have longer := edit_length cfg old (filterIac s.iacState byte).1
        obtain ⟨used,split_,typed,after,length⟩ := ih (by omega) read
        rw [state] at typed after
        exact ⟨byte :: used,by rw [split_, cons_append],typed.char rfl nonzero plain,after,length⟩
    · cases read
      exact ⟨[],rfl,.nothing,rfl,fits⟩

theorem mem_edited {chars : List UInt8} (member : ch ∈ chars.foldl (edit cfg) old) : ch ∈ old ∨ ch ∈ chars := by
  induction chars generalizing old with
  | nil => exact .inl member
  | cons c chars ih =>
    rcases ih member with here | later
    · unfold edit at here
      split at here
      · exact .inl ((dropLast_sublist _).mem here)
      · split at here
        · rcases mem_append.1 here with was | new
          · exact .inl was
          · rw [mem_singleton.1 new]
            exact .inr mem_cons_self
        · exact .inl here
    · exact .inr (mem_cons_of_mem _ later)

theorem Typed.nonzero (h : Typed cfg state bytes field) : 0 ∉ field := by
  obtain ⟨chars,_,text,stream⟩ := h.line
  have clean := filtered_nonzero state bytes
  intro member
  rw [text] at member
  rcases mem_edited member with none_ | typed
  · exact absurd none_ not_mem_nil
  · rcases stream with all | ⟨last,_,all⟩
    · rw [all] at clean
      exact clean typed
    · rw [all] at clean
      exact clean (mem_append_left _ typed)

end

section

variable {cfg : ShellConfig} {user pass : List UInt8} {input : List UInt8} {s : Login}

theorem readCredentials_typed {s s' : Login} {rest : List UInt8}
    (read : readCredentials cfg s input = (s', some (user, pass, rest))) :
    ∃ userBytes passBytes, input = userBytes ++ passBytes ++ rest ∧ Typed cfg s.iacState userBytes user ∧
      Typed cfg (iacAfter s.iacState userBytes) passBytes pass ∧ user.length ≤ kFieldSize ∧ pass.length ≤ kFieldSize ∧
      s'.iacState = iacAfter s.iacState (userBytes ++ passBytes) := by
  unfold readCredentials at read
  split at read
  · cases read
  · rename_i s₁ user₁ input₁ first
    split at read
    · cases read
    · rename_i s₂ pass₁ input₂ second
      cases read
      obtain ⟨userBytes,split₁,typed₁,after₁,length₁⟩ := readField_typed (Nat.zero_le _) first
      obtain ⟨passBytes,split₂,typed₂,after₂,length₂⟩ := readField_typed (Nat.zero_le _) second
      have between : ((s₁.write (.text "\r\n")).write (.text "Password: ")).iacState = iacAfter s.iacState userBytes := after₁
      rw [between] at typed₂ after₂
      refine ⟨userBytes,passBytes,?_,typed₁,typed₂,length₁,length₂,?_⟩
      · rw [split₁, split₂, append_assoc]
      · rw [iacAfter_append]
        exact after₂

/-- The client typed the credentials at an attempt before which there were fewer than three. -/
def Accepted (cfg : ShellConfig) (user pass : List UInt8) (s : Login) (input : List UInt8) (r : AuthResult) : Prop :=
  ∃ earlier before userBytes passBytes, earlier.length < kMaxAuthAttempts ∧
    r.session.tries = s.tries ++ earlier ++ [(user, pass)] ∧ input = before ++ userBytes ++ passBytes ++ r.rest ∧
    Typed cfg (iacAfter s.iacState before) userBytes user ∧
    Typed cfg (iacAfter s.iacState (before ++ userBytes)) passBytes pass ∧
    user.length ≤ kFieldSize ∧ pass.length ≤ kFieldSize

section

variable (username : cfg.username = some user) (password : cfg.password = some pass) (userClean : 0 ∉ user)
  (passClean : 0 ∉ pass)
include username password userClean passClean

theorem runAuthLoop_sound (alive : Nat → Bool) {left : Nat} (ok : (runAuthLoop cfg alive left s input).ok = true) :
    ∃ earlier before userBytes passBytes, earlier.length < left ∧
      (runAuthLoop cfg alive left s input).session.tries = s.tries ++ earlier ++ [(user, pass)] ∧
      input = before ++ userBytes ++ passBytes ++ (runAuthLoop cfg alive left s input).rest ∧
      Typed cfg (iacAfter s.iacState before) userBytes user ∧
      Typed cfg (iacAfter s.iacState (before ++ userBytes)) passBytes pass ∧
      user.length ≤ kFieldSize ∧ pass.length ≤ kFieldSize := by
  induction left generalizing s input with
  | zero => cases ok
  | succ left ih =>
    have frame := readCredentials_frame cfg s input
    rw [runAuthLoop] at ok ⊢
    split at ok
    · cases ok
    · rename_i check
      rw [if_neg check]
      split at ok
      · cases ok
      · rename_i s₁ user₁ pass₁ input₁ read
        rw [read] at frame
        obtain ⟨userBytes,passBytes,split_,userTyped,passTyped,userShort,passShort,after⟩ :=
          readCredentials_typed read
        simp only at ok ⊢
        split at ok
        · rename_i equal
          have same := equal
          -- both comparisons hold, so the fields are the configured strings
          rw [Bool.and_eq_true, username, password, constantTimeEquals_iff userTyped.nonzero userClean,
            constantTimeEquals_iff passTyped.nonzero passClean] at same
          obtain ⟨rfl,rfl⟩ := same
          rw [if_pos equal]
          refine ⟨[],[],userBytes,passBytes,Nat.succ_pos _,?_,?_,userTyped,passTyped,userShort,passShort⟩
          · rw [append_nil, ← frame.tries]
            rfl
          · rw [nil_append]
            exact split_
        · rename_i differ
          rw [if_neg differ]
          obtain ⟨earlier,before,userBytes',passBytes',fewer,tries,stream,userTyped',passTyped',short⟩ := ih ok
          refine ⟨(user₁, pass₁) :: earlier,userBytes ++ passBytes ++ before,userBytes',passBytes',Nat.succ_lt_succ fewer,
            ?_, ?_, ?_, ?_, short⟩
          · have kept : s₁.tries = s.tries := frame.tries
            rw [tries, ← kept]
            simp [Login.write]
          · rw [split_]
            conv_lhs => rw [stream]
            simp only [append_assoc]
          · rw [iacAfter_append, ← after]
            exact userTyped'
          · rw [append_assoc, iacAfter_append, ← after]
            exact passTyped'

theorem runAuth_sound (alive : Nat → Bool)
    (ok : (runAuth cfg alive s input).ok = true) : Accepted cfg user pass s input (runAuth cfg alive s input) := by
  obtain ⟨earlier,before,userBytes,passBytes,fewer,rest⟩ :=
    runAuthLoop_sound username password userClean passClean alive ok
  refine ⟨earlier,before,userBytes,passBytes,?_,rest⟩
  exact Nat.lt_of_lt_of_le fewer (Nat.sub_le ..)

end

/-- Handlers run after the login of their connection, and a login is a `RunAuth` that returned true for it. -/
structure Private (cfg : ShellConfig) (maxConnections : Nat) (s : State) : Prop where
  loginFirst : LoginFirst s.events
  passes : ∀ a s' c, next cfg maxConnections a s = some s' → s'.events = s.events ++ [.passed c] →
    ∃ i alive input, a = .login i alive input ∧ (s.slots i).connection = c ∧
      (runAuth cfg alive (s.slots i).login input).ok = true

/-- **Only the configured credentials log in**, and no handler runs for a connection before its login. -/
theorem login_sound (username : cfg.username = some user) (password : cfg.password = some pass) (userClean : 0 ∉ user)
    (passClean : 0 ∉ pass) :
    (∀ lhs rhs : List UInt8, 0 ∉ lhs → 0 ∉ rhs → (constantTimeEquals (some lhs) (some rhs) = true ↔ lhs = rhs)) ∧
    (∀ alive s input, (runAuth cfg alive s input).ok = true →
      Accepted cfg user pass s input (runAuth cfg alive s input)) ∧
    ∀ maxConnections s, Reach (machine cfg maxConnections) anyStep s → Private cfg maxConnections s := by
  refine ⟨?_,?_,?_⟩
  · exact fun lhs rhs left right => constantTimeEquals_iff left right
  · exact fun alive s input ok => runAuth_sound username password userClean passClean alive ok
  · intro maxConnections s reached
    have configured : cfg.username.isNone = false := by
      rw [username]
      rfl
    have guarded : Guarded s := by
      apply reached.invariant
      case base => exact init_guarded
      case keep =>
        intro s s' a _ before _ step
        exact next_guarded configured before step
    exact ⟨guarded.ordered,fun a s' c step passed => next_passed step passed⟩

def tinyShell : ShellConfig := ⟨some [0x61], some [0x62], true⟩

/-- The accept thread takes a connection in hand and starts its session in slot 0. -/
def accepted : List Act := [.connect] ++ List.replicate 6 (.accept true)

/-- A client logs in, has a handler run and leaves. The next one gets the same slot and sends the same bytes with
another password. -/
def reusedSlot : List Act :=
  accepted ++ [.login 0 (fun _ => true) [0x61, 0x0A, 0x62, 0x0A], .turn 0 .handler, .turn 0 .leave, .finish 0] ++
    accepted ++ [.login 0 (fun _ => true) [0x61, 0x0A, 0x63, 0x0A]]

theorem login_sound_reused : ∃ s, Reach (machine tinyShell 1) anyStep s ∧ s.events = [.passed 0, .handled 0] ∧
    (s.slots 0).connection = 1 ∧ (s.slots 0).thread = .leaving ∧ Private tinyShell 1 s := by
  obtain ⟨s,reached,events,connection,thread⟩ := reach_of_schedule (machine tinyShell 1) reusedSlot (fun s =>
      s.events = [.passed 0, .handled 0] ∧ (s.slots 0).connection = 1 ∧ (s.slots 0).thread = .leaving)
      (by decide +kernel)
  have username : tinyShell.username = some [0x61] := rfl
  have sound := login_sound username rfl (by decide) (by decide)
  exact ⟨s,reached,events,connection,thread,sound.2.2 1 s reached⟩

end

end Newosp.Shell
