import Newosp.Lib.Machine
import Newosp.Shell.RunAuth

/-!
# The sessions of the debug shell

`AcceptLoop` puts a new connection into the first session slot that is not active, once the thread that used it before
has ended, and starts a thread in `SessionLoop`; `Stop` may come at any time. A byte that a session thread reads after
its login may complete a line whose handler runs, end the session, or do neither.
-/

namespace Newosp.Shell
open Lib List Function

/-- The thread of a session slot: none that has not ended, before the login, in the command loop, or on its way out. -/
inductive SessionThread
  | ended
  | started
  | commands
  | leaving
  deriving DecidableEq

/-- A session slot, with the connection that it was last set up for. -/
structure Slot where
  active : Bool
  login : Login
  connection : Nat
  thread : SessionThread

inductive AcceptPC
  | polling
  | scanning (connection slot : Nat)
  | joining (connection slot : Nat)
  | initialising (connection slot : Nat)
  | flagging (connection slot : Nat)
  | activating (connection slot : Nat)
  | launching (connection slot : Nat)
  deriving DecidableEq

/-- `RunAuth` returned true for a connection, or a command handler is run for it. -/
inductive Event
  | passed (connection : Nat)
  | handled (connection : Nat)
  deriving DecidableEq

structure State where
  running : Bool
  accept : AcceptPC
  slots : Nat → Slot
  accepted : Nat
  events : List Event

/-- What one turn of the command loop does. -/
inductive Turn
  | quiet
  | handler
  | logout
  | leave
  deriving DecidableEq

/-- A client connects; the accept thread goes on (`started`: a thread could be started); a session thread logs in, takes
a turn of its loop or ends; `Stop` clears `running_` and then the slots; the shell starts again. -/
inductive Act
  | connect
  | accept (started : Bool)
  | login (slot : Nat) (alive : Nat → Bool) (input : List UInt8)
  | turn (slot : Nat) (turn : Turn)
  | finish (slot : Nat)
  | stop
  | stopSlot (slot : Nat)
  | restart

namespace State

variable (s : State) (i : Nat)

def setSlot (slot : Slot) : State := { s with slots := update s.slots i slot }

def acceptAt (pc : AcceptPC) : State := { s with accept := pc }

def enter (e : Event) : State := { s with events := s.events ++ [e] }

end State

def Slot.empty : Slot := ⟨false, ⟨.normal, false, 0, false, [], []⟩, 0, .ended⟩

def acceptNext (cfg : ShellConfig) (maxConnections : Nat) (started : Bool) (s : State) : Option State :=
  match s.accept with
  | .polling => none
  | .scanning c i =>
    if i < maxConnections then
      if (s.slots i).active then some (s.acceptAt (.scanning c (i + 1))) else some (s.acceptAt (.joining c i))
    -- too many connections
    else some (s.acceptAt .polling)
  | .joining c i => if (s.slots i).thread = .ended then some (s.acceptAt (.initialising c i)) else none
  | .initialising c i =>
    -- ShellSessionInit
    let slot := s.slots i
    some ((s.setSlot i { slot with
      login := { slot.login with iacState := .normal, skipNextLf := false, output := [], tries := [] }
      active := true
      connection := c }).acceptAt (.flagging c i))
  | .flagging c i =>
    let slot := s.slots i
    some ((s.setSlot i { slot with
      login := { slot.login with authenticated := cfg.username.isNone, authAttempts := 0 } }).acceptAt (.activating c i))
  | .activating c i => some ((s.setSlot i { s.slots i with active := true }).acceptAt (.launching c i))
  | .launching _ i =>
    if started then some ((s.setSlot i { s.slots i with thread := .started }).acceptAt .polling)
    else some ((s.setSlot i { s.slots i with active := false }).acceptAt .polling)

def loginNext (cfg : ShellConfig) (i : Nat) (alive : Nat → Bool) (input : List UInt8) (s : State) : Option State :=
  let slot := s.slots i
  if slot.thread = .started then
    if slot.login.authenticated then some (s.setSlot i { slot with thread := .commands })
    else
      let result := runAuth cfg alive slot.login input
      if result.ok then
        some ((s.setSlot i { slot with login := result.session, thread := .commands }).enter (.passed slot.connection))
      else some (s.setSlot i { slot with login := result.session, thread := .leaving })
  else none

def turnNext (i : Nat) (turn : Turn) (s : State) : Option State :=
  let slot := s.slots i
  if slot.thread = .commands then
    match turn with
    | .quiet => some s
    | .handler => some (s.enter (.handled slot.connection))
    | .logout => some (s.setSlot i { slot with active := false })
    | .leave => some (s.setSlot i { slot with thread := .leaving })
  else none

def next (cfg : ShellConfig) (maxConnections : Nat) : Act → State → Option State
  | .connect, s =>
    if s.accept = .polling then
      -- a connection that comes after Stop is closed
      some { s with accepted := s.accepted + 1, accept := if s.running then .scanning s.accepted 0 else .polling }
    else none
  | .accept started, s => acceptNext cfg maxConnections started s
  | .login i alive input, s => loginNext cfg i alive input s
  | .turn i turn, s => turnNext i turn s
  | .finish i, s =>
    if (s.slots i).thread = .leaving then some (s.setSlot i { s.slots i with thread := .ended, active := false }) else none
  | .stop, s => some { s with running := false }
  | .stopSlot i, s => if s.running then none else some (s.setSlot i { s.slots i with active := false })
  | .restart, s =>
    if s.running = false ∧ s.accept = .polling ∧ ∀ i < maxConnections, (s.slots i).thread = .ended then
      some { s with running := true, slots := fun _ => .empty }
    else none

def machine (cfg : ShellConfig) (maxConnections : Nat) : Machine State Act where
  init := { running := true, accept := .polling, slots := fun _ => .empty, accepted := 0, events := [] }
  next := next cfg maxConnections

/-! ### A session runs commands only after its login -/

section

/-- Every handler runs after the login of its connection. -/
def LoginFirst (events : List Event) : Prop :=
  ∀ before after c, events = before ++ .handled c :: after → .passed c ∈ before

/-- The slot that the accept thread has joined and is setting up. -/
def AcceptPC.claims : AcceptPC → Option Nat
  | .initialising _ i | .flagging _ i | .activating _ i | .launching _ i => some i
  | _ => none

/-- The slot whose flag is set for the connection in hand. -/
def AcceptPC.flagged : AcceptPC → Option Nat
  | .activating _ i | .launching _ i => some i
  | _ => none

/-- The accept thread works on slots whose thread has ended, and a thread reaches its command loop through the login. -/
structure Guarded (s : State) : Prop where
  claimed : ∀ i, s.accept.claims = some i → (s.slots i).thread = .ended
  flagged : ∀ i, s.accept.flagged = some i → (s.slots i).login.authenticated = false
  started : ∀ i, (s.slots i).thread = .started → (s.slots i).login.authenticated = false
  commands : ∀ i, (s.slots i).thread = .commands → .passed (s.slots i).connection ∈ s.events
  ordered : LoginFirst s.events

variable {cfg : ShellConfig} {maxConnections : Nat} {s s' : State} {i : Nat} {slot : Slot} {events : List Event}
  {c : Nat} {a : Act}

theorem LoginFirst.append_passed (h : LoginFirst events) (c : Nat) : LoginFirst (events ++ [.passed c]) := by
  intro before after d split
  rcases eq_nil_or_concat after with rfl | ⟨rest,last,rfl⟩
  · have ends := append_inj_right' split rfl
    cases ends
  · rw [concat_eq_append, ← cons_append, ← append_assoc] at split
    exact h before rest d (append_inj_left' split rfl)

theorem LoginFirst.append_handled (h : LoginFirst events) (passed : .passed c ∈ events) :
    LoginFirst (events ++ [.handled c]) := by
  intro before after d split
  rcases eq_nil_or_concat after with rfl | ⟨rest,last,rfl⟩
  · have ends := append_inj_right' split rfl
    cases ends
    rw [← append_inj_left' split rfl]
    exact passed
  · rw [concat_eq_append, ← cons_append, ← append_assoc] at split
    exact h before rest d (append_inj_left' split rfl)

theorem Guarded.change (h : Guarded s) (slots : s'.slots = update s.slots i slot) (kept : ∀ e ∈ s.events, e ∈ s'.events)
    (ordered : LoginFirst s'.events)
    (claimed : ∀ j, s'.accept.claims = some j → if j = i then slot.thread = .ended else s.accept.claims = some j)
    (flagged : ∀ j, s'.accept.flagged = some j →
      if j = i then slot.login.authenticated = false else s.accept.flagged = some j)
    (started : slot.thread = .started → slot.login.authenticated = false)
    (commands : slot.thread = .commands → .passed slot.connection ∈ s'.events) : Guarded s' := by
  have here : s'.slots i = slot := by rw [slots, update_self]
  have elsewhere : ∀ j, j ≠ i → s'.slots j = s.slots j := fun j other => by rw [slots, update_of_ne other]
  constructor
  case claimed =>
    intro j claims
    have old := claimed j claims
    by_cases same : j = i
    · rw [if_pos same] at old
      rw [same, here]
      exact old
    · rw [if_neg same] at old
      rw [elsewhere j same]
      exact h.claimed j old
  case flagged =>
    intro j flag
    have old := flagged j flag
    by_cases same : j = i
    · rw [if_pos same] at old
      rw [same, here]
      exact old
    · rw [if_neg same] at old
      rw [elsewhere j same]
      exact h.flagged j old
  case started =>
    intro j
    by_cases same : j = i
    · rw [same, here]
      exact started
    · rw [elsewhere j same]
      exact h.started j
  case commands =>
    intro j
    by_cases same : j = i
    · rw [same, here]
      exact commands
    · rw [elsewhere j same]
      exact fun loops => kept _ (h.commands j loops)
  case ordered => exact ordered

theorem Guarded.keep (h : Guarded s) (slots : s'.slots = s.slots) (events : s'.events = s.events)
    (claimed : ∀ i, s'.accept.claims = some i → (s.slots i).thread = .ended)
    (flagged : ∀ i, s'.accept.flagged = some i → (s.slots i).login.authenticated = false) : Guarded s' := by
  constructor
  case claimed =>
    rw [slots]
    exact claimed
  case flagged =>
    rw [slots]
    exact flagged
  case started =>
    rw [slots]
    exact h.started
  case commands =>
    rw [slots, events]
    exact h.commands
  case ordered =>
    rw [events]
    exact h.ordered

theorem claims_of_flagged {pc : AcceptPC} (flagged : pc.flagged = some i) : pc.claims = some i := by
  cases pc <;> first | exact flagged | cases flagged

theorem Guarded.session (h : Guarded s) (busy : (s.slots i).thread ≠ .ended)
    (slots : s'.slots = update s.slots i slot) (accept : s'.accept = s.accept)
    (kept : ∀ e ∈ s.events, e ∈ s'.events) (ordered : LoginFirst s'.events)
    (started : slot.thread = .started → slot.login.authenticated = false)
    (commands : slot.thread = .commands → .passed slot.connection ∈ s'.events) : Guarded s' := by
  have free : ∀ j, s.accept.claims = some j → j ≠ i := by
    rintro j claims rfl
    exact busy (h.claimed j claims)
  refine h.change slots kept ordered ?_ ?_ started commands
  · intro j claims
    rw [accept] at claims
    rw [if_neg (free j claims)]
    exact claims
  · intro j flagged
    rw [accept] at flagged
    rw [if_neg (free j (claims_of_flagged flagged))]
    exact flagged

theorem Guarded.prepare (h : Guarded s) (claims : s.accept.claims = some i)
    (slots : s'.slots = update s.slots i slot) (events : s'.events = s.events)
    (claimed : s'.accept.claims = some i) (thread : slot.thread = (s.slots i).thread)
    (flagged : s'.accept.flagged = some i → slot.login.authenticated = false) : Guarded s' := by
  have ended := h.claimed i claims
  refine h.change slots (fun e member => by rw [events]; exact member) (by rw [events]; exact h.ordered) ?_ ?_ ?_ ?_
  · intro j same
    rw [claimed] at same
    rw [if_pos (Option.some.inj same).symm, thread, ended]
  · intro j same
    have here : j = i := Option.some.inj ((claims_of_flagged same).symm.trans claimed)
    rw [here] at same
    rw [if_pos here]
    exact flagged same
  · rw [thread, ended]
    exact nofun
  · rw [thread, ended]
    exact nofun

theorem acceptNext_guarded (configured : cfg.username.isNone = false) (h : Guarded s) {started : Bool}
    (step : acceptNext cfg maxConnections started s = some s') : Guarded s' := by
  unfold acceptNext at step
  split at step
  · cases step
  · split at step
    · split at step
      · cases step
        exact h.keep rfl rfl nofun nofun
      · cases step
        exact h.keep rfl rfl nofun nofun
    · cases step
      exact h.keep rfl rfl nofun nofun
  · obtain ⟨ended,⟨⟩⟩ := enabled step
    refine h.keep rfl rfl ?_ nofun
    intro j claims
    rw [← Option.some.inj claims]
    exact ended
  · rename_i c i pc
    cases step
    exact h.prepare (by rw [pc]; rfl) rfl rfl rfl rfl nofun
  · rename_i c i pc
    cases step
    exact h.prepare (by rw [pc]; rfl) rfl rfl rfl rfl fun _ => configured
  · rename_i c i pc
    cases step
    exact h.prepare (by rw [pc]; rfl) rfl rfl rfl rfl fun _ => h.flagged i (by rw [pc]; rfl)
  · rename_i c i pc
    have ended := h.claimed i (by rw [pc]; rfl)
    split at step
    · cases step
      exact h.change rfl (fun _ member => member) h.ordered nofun nofun (fun _ => h.flagged i (by rw [pc]; rfl)) nofun
    · cases step
      refine h.change rfl (fun _ member => member) h.ordered nofun nofun ?_ ?_
      · rw [ended]
        exact nofun
      · rw [ended]
        exact nofun

/-- Every step keeps the handlers behind the login. -/
theorem next_guarded (configured : cfg.username.isNone = false) (h : Guarded s)
    (step : next cfg maxConnections a s = some s') : Guarded s' := by
  have same : ∀ e ∈ s.events, e ∈ s.events := fun _ member => member
  cases a <;> simp only [next] at step
  case connect =>
    obtain ⟨_,⟨⟩⟩ := enabled step
    split
    · exact h.keep rfl rfl nofun nofun
    · exact h.keep rfl rfl nofun nofun
  case accept started => exact acceptNext_guarded configured h step
  case login i alive input =>
    simp only [loginNext] at step
    obtain ⟨thread,step⟩ := enabled step
    have busy : (s.slots i).thread ≠ .ended := by
      rw [thread]
      exact nofun
    rw [h.started i thread] at step
    simp only [Bool.false_eq_true, if_false] at step
    split at step
    · cases step
      refine h.session busy rfl rfl (fun e member => mem_append_left _ member) ?_ nofun ?_
      · exact h.ordered.append_passed _
      · exact fun _ => mem_append_right _ mem_cons_self
    · cases step
      exact h.session busy rfl rfl same h.ordered nofun nofun
  case turn i turn =>
    simp only [turnNext] at step
    obtain ⟨thread,step⟩ := enabled step
    have busy : (s.slots i).thread ≠ .ended := by
      rw [thread]
      exact nofun
    have passed := h.commands i thread
    cases turn with
    | quiet =>
      cases step
      exact h
    | handler =>
      cases step
      refine ⟨h.claimed,h.flagged,h.started,?_,h.ordered.append_handled passed⟩
      exact fun j loops => mem_append_left _ (h.commands j loops)
    | logout =>
      cases step
      refine h.session busy rfl rfl same h.ordered ?_ fun _ => passed
      rw [thread]
      exact nofun
    | leave =>
      cases step
      exact h.session busy rfl rfl same h.ordered nofun nofun
  case finish i =>
    obtain ⟨thread,⟨⟩⟩ := enabled step
    refine h.session ?_ rfl rfl same h.ordered nofun nofun
    rw [thread]
    exact nofun
  case stop =>
    cases step
    exact h.keep rfl rfl h.claimed h.flagged
  case stopSlot i =>
    split at step
    · cases step
    · cases step
      refine h.change rfl same h.ordered ?_ ?_ (h.started i) (h.commands i)
      · intro j claims
        split
        · rename_i here
          rw [← here]
          exact h.claimed j claims
        · exact claims
      · intro j flagged
        split
        · rename_i here
          rw [← here]
          exact h.flagged j flagged
        · exact flagged
  case restart =>
    obtain ⟨enabled,⟨⟩⟩ := enabled step
    constructor
    case claimed => exact fun _ _ => rfl
    case flagged => exact fun _ _ => rfl
    case started => exact fun _ _ => rfl
    case commands => exact fun _ => nofun
    case ordered => exact h.ordered

theorem init_guarded : Guarded (machine cfg maxConnections).init := by
  constructor
  case claimed => exact fun _ _ => rfl
  case flagged => exact fun _ _ => rfl
  case started => exact fun _ _ => rfl
  case commands => exact fun _ => nofun
  case ordered =>
    intro before after c split
    have nothing : before ++ .handled c :: after = [] := split.symm
    exact absurd (append_eq_nil_iff.1 nothing).2 (cons_ne_nil _ _)

theorem next_passed (step : next cfg maxConnections a s = some s') (passed : s'.events = s.events ++ [.passed c]) :
    ∃ i alive input, a = .login i alive input ∧ (s.slots i).connection = c ∧
      (runAuth cfg alive (s.slots i).login input).ok = true := by
  have silent : ∀ r : State, some r = some s' → r.events = s.events → False := by
    intro r same quiet
    rw [Option.some.inj same, passed] at quiet
    exact cons_ne_nil _ _ (append_cancel_left (quiet.trans (append_nil _).symm))
  cases a <;> simp only [next] at step
  case connect =>
    obtain ⟨_,step⟩ := enabled step
    exact (silent _ step (by split <;> rfl)).elim
  case accept started =>
    simp only [acceptNext] at step
    split at step
    · cases step
    · split at step
      · split at step <;> exact (silent _ step rfl).elim
      · exact (silent _ step rfl).elim
    · obtain ⟨_,step⟩ := enabled step
      exact (silent _ step rfl).elim
    · exact (silent _ step rfl).elim
    · exact (silent _ step rfl).elim
    · exact (silent _ step rfl).elim
    · split at step <;> exact (silent _ step rfl).elim
  case login i alive input =>
    simp only [loginNext] at step
    obtain ⟨_,step⟩ := enabled step
    split at step
    · exact (silent _ step rfl).elim
    · split at step
      · rename_i ok
        have events : s.events ++ [.passed (s.slots i).connection] = s.events ++ [.passed c] := by
          rw [← passed, ← Option.some.inj step]
          rfl
        have last := singleton_inj.1 (append_cancel_left events)
        exact ⟨i,alive,input,rfl,Event.passed.inj last,ok⟩
      · exact (silent _ step rfl).elim
  case turn i turn =>
    simp only [turnNext] at step
    obtain ⟨_,step⟩ := enabled step
    cases turn with
    | handler =>
      rw [← Option.some.inj step] at passed
      cases singleton_inj.1 (append_cancel_left passed)
    | quiet | logout | leave => exact (silent _ step rfl).elim
  case finish | restart =>
    obtain ⟨_,step⟩ := enabled step
    exact (silent _ step rfl).elim
  case stop => exact (silent _ step rfl).elim
  case stopSlot i =>
    split at step
    · cases step
    · exact (silent _ step rfl).elim

end

end Newosp.Shell
