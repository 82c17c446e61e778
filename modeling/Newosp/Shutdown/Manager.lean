import Newosp.Lib.Machine

/-!
# The shutdown manager

A request sets the flag, stores its signal number and writes a byte into the pipe, in three steps; `WaitForShutdown`
goes on if the flag is set. The callbacks are run from the last registered one on, with the number loaded once before
the loop.
-/

namespace Newosp.Shutdown
open Lib Function List

/-- A `ShutdownManager` after the calls of `Register`, which refuses a null function and, without a pipe, every
function. -/
structure Manager where
  valid : Bool
  callbacks : List Nat
  refused : valid = false → callbacks = []

inductive Source
  | quit
  | signalHandler
deriving DecidableEq

/-- The next step of a request. -/
inductive RequestPC
  | idle
  | setFlag (source : Source) (signo : Int)
  | storeSigno (signo : Int)
  | writePipe
  | done
deriving DecidableEq

/-- The next step of `WaitForShutdown`. -/
inductive WaitPC
  | idle
  | testFlag
  | readPipe
  | loadSigno
  /-- The loop over the callbacks, those that are left first to last; with none left the call returns. -/
  | run (signo : Int) (left : List Nat)
deriving DecidableEq

structure State (ι : Type) where
  shutdownFlag : Bool
  signo : Int
  pipe : Nat
  request : ι → RequestPC
  wait : WaitPC
  /-- The numbers of the requests that were made. -/
  requested : List Int
  /-- The callbacks that were run, with their argument. -/
  ran : List (Nat × Int)

inductive Act (ι : Type)
  | request (c : ι) (source : Source) (signo : Int)
  | requester (c : ι)
  | waitForShutdown
  | waiter

section

variable {ι : Type} [DecidableEq ι] (m : Manager)

def State.goto (s : State ι) (c : ι) (pc : RequestPC) : State ι := { s with request := update s.request c pc }

/-- `Quit` stops at a flag that is set; the signal handler stores it without a test. -/
def requesterNext (c : ι) (s : State ι) : Option (State ι) := match s.request c with
  | .idle | .done => none
  | .setFlag .quit n =>
    if s.shutdownFlag then some (s.goto c .done) else some ({ s with shutdownFlag := true }.goto c (.storeSigno n))
  | .setFlag .signalHandler n => some ({ s with shutdownFlag := true }.goto c (.storeSigno n))
  | .storeSigno n => some ({ s with signo := n }.goto c .writePipe)
  | .writePipe => some ({ s with pipe := if m.valid then s.pipe + 1 else s.pipe }.goto c .done)

def waiterNext (s : State ι) : Option (State ι) := match s.wait with
  | .idle | .run _ [] => none
  | .testFlag => some { s with wait := if m.valid && !s.shutdownFlag then .readPipe else .loadSigno }
  -- the read blocks as long as the pipe is empty
  | .readPipe => if 0 < s.pipe then some { s with pipe := s.pipe - 1, wait := .loadSigno } else none
  | .loadSigno => some { s with wait := .run s.signo m.callbacks.reverse }
  | .run n (f :: left) => some { s with wait := .run n left, ran := s.ran ++ [(f, n)] }

def next : Act ι → State ι → Option (State ι)
  | .request c source n, s =>
    if s.request c = .idle then some ({ s with requested := s.requested ++ [n] }.goto c (.setFlag source n)) else none
  | .requester c, s => requesterNext m c s
  | .waitForShutdown, s => if s.wait = .idle then some { s with wait := .testFlag } else none
  | .waiter, s => waiterNext m s

def State.init : State ι := ⟨false, 0, 0, fun _ => .idle, .idle, [], []⟩

def machine : Machine (State ι) (Act ι) := ⟨.init, next m⟩

end

section

variable {ι : Type} (m : Manager)

/-- `WaitForShutdown` tests the flag while no request is between its two stores. -/
def settled (s : State ι) : Act ι → Prop
  | .waiter => s.wait = .testFlag → ∀ c n, s.request c ≠ .storeSigno n
  | _ => True

/-- Callbacks are run by the loop only: all of them, in reverse order of registration and once each, with the number of
a request. -/
structure Notified (s : State ι) : Prop where
  before : (∀ n left, s.wait ≠ .run n left) → s.ran = []
  loop : ∀ n left, s.wait = .run n left → ∃ done, done ++ left = m.callbacks.reverse ∧ s.ran = done.map (·, n) ∧
    (m.callbacks ≠ [] → n ∈ s.requested)

def Quiet (s : State ι) : Prop := ∀ c, s.request c = .idle ∨ s.request c = .done

/-- `WaitForShutdown` has run every callback, from the last registered one on. -/
def Returned (s : State ι) : Prop := ∃ n, s.wait = .run n [] ∧ s.ran = m.callbacks.reverse.map (·, n)

/-- Whoever writes the byte has stored a number, and whoever has set the flag writes the byte that `WaitForShutdown`
reads. -/
structure Inv (s : State ι) : Prop where
  args : ∀ c n, (∃ source, s.request c = .setFlag source n) ∨ s.request c = .storeSigno n → n ∈ s.requested
  flag : s.shutdownFlag = true → s.signo ∈ s.requested ∨ ∃ c n, s.request c = .storeSigno n
  written : (∃ c, s.request c = .writePipe) ∨ 0 < s.pipe → s.signo ∈ s.requested
  load : s.wait = .loadSigno → s.signo ∈ s.requested ∨ m.callbacks = []
  made : s.requested ≠ [] → s.shutdownFlag = true ∨ ∃ c source n, s.request c = .setFlag source n
  reads : s.wait = .readPipe → m.valid = true
  byte : m.valid = true → s.shutdownFlag = true → s.wait = .idle ∨ s.wait = .testFlag ∨ s.wait = .readPipe →
    0 < s.pipe ∨ ∃ c, (∃ n, s.request c = .storeSigno n) ∨ s.request c = .writePipe
  notified : Notified m s

end

section

variable {ι : Type} {m : Manager} {s t : State ι} {c : ι}

theorem Notified.keep (h : Notified m s) (wait : t.wait = s.wait) (ran : t.ran = s.ran)
    (requested : ∀ n ∈ s.requested, n ∈ t.requested) : Notified m t := by
  refine ⟨by rw [wait, ran]; exact h.before,?_⟩
  rw [wait, ran]
  intro n left here
  obtain ⟨done,split_,ran,known⟩ := h.loop n left here
  exact ⟨done,split_,ran,fun some_ => requested n (known some_)⟩

/-- One step of `WaitForShutdown`. -/
theorem Inv.waiter (h : Inv m s) (guard : settled s .waiter) (step : waiterNext m s = some t) : Inv m t := by
  have refused := m.refused
  obtain ⟨args,flag,written,load,made,reads,byte,⟨before,loop⟩⟩ := h
  unfold waiterNext at step
  split at step
  case h_1 | h_2 => cases step
  case h_3 here =>
    cases step
    have stored := guard here
    refine ⟨args,flag,written,?_,made,?_,?_,⟨?_,?_⟩⟩ <;> grind
  case h_4 here =>
    split at step <;> cases step
    refine ⟨args,flag,?_,?_,made,nofun,?_,⟨?_,?_⟩⟩ <;> grind
  case h_5 here =>
    cases step
    refine ⟨args,flag,written,nofun,made,nofun,?_,⟨fun out => absurd rfl (out _ _),?_⟩⟩
    · rintro - - (no | no | no) <;> cases no
    · rintro n left ⟨⟩
      exact ⟨[],rfl,before (by rw [here]; exact nofun),(load here).resolve_right⟩
  case h_6 n f left here =>
    cases step
    obtain ⟨done,split_,ran,known⟩ := loop _ _ here
    refine ⟨args,flag,written,nofun,made,nofun,?_,⟨fun out => absurd rfl (out _ _),?_⟩⟩
    · rintro - - (no | no | no) <;> cases no
    · rintro n' left' ⟨⟩
      exact ⟨done ++ [f],by rw [← split_, append_assoc]; rfl,by rw [map_append, ran]; rfl,known⟩

/-- The steps that `WaitForShutdown` has before it. -/
def WaitPC.work (m : Manager) : WaitPC → Nat
  | .idle | .testFlag => m.callbacks.length + 3
  | .readPipe => m.callbacks.length + 2
  | .loadSigno => m.callbacks.length + 1
  | .run _ left => left.length

theorem Inv.advances (h : Inv m s) (quiet : Quiet s) (some_ : s.requested ≠ []) (called : s.wait ≠ .idle)
    (busy : ∀ n, s.wait ≠ .run n []) : ∃ t, waiterNext m s = some t ∧ t.wait.work m < s.wait.work m ∧
      t.request = s.request ∧ t.requested = s.requested ∧ t.wait ≠ .idle := by
  unfold Quiet at quiet
  obtain ⟨-,-,-,-,made,reads,byte,-⟩ := h
  unfold waiterNext
  cases here : s.wait with
  | idle => exact absurd here called
  | testFlag =>
    refine ⟨_,rfl,?_,rfl,rfl,?_⟩
    · dsimp only
      split <;> exact Nat.lt_succ_of_le (by simp [WaitPC.work])
    · dsimp only
      split <;> exact nofun
  | readPipe =>
    have full : 0 < s.pipe := by grind
    exact ⟨_,if_pos full,by simp [WaitPC.work],rfl,rfl,nofun⟩
  | loadSigno => exact ⟨_,rfl,by simp [WaitPC.work],rfl,rfl,nofun⟩
  | run n left =>
    cases left with
    | nil => exact absurd here (busy n)
    | cons f left => exact ⟨_,rfl,by simp [WaitPC.work],rfl,rfl,nofun⟩

variable [DecidableEq ι]

theorem Inv.request (h : Inv m s) (idle : s.request c = .idle) (source : Source) (n : Int) :
    Inv m ({ s with requested := s.requested ++ [n] }.goto c (.setFlag source n)) := by
  have notified := h.notified.keep (t := { s with requested := s.requested ++ [n] }.goto c (.setFlag source n)) rfl rfl
    fun _ => mem_append_left _
  obtain ⟨args,flag,written,load,made,reads,byte,-⟩ := h
  refine ⟨?_,?_,?_,?_,?_,?_,?_,notified⟩
  all_goals simp only [State.goto, update_apply, mem_append, mem_singleton]
  all_goals grind

/-- One step of a request. -/
theorem Inv.requester (h : Inv m s) (step : requesterNext m c s = some t) : Inv m t := by
  have same : t.ran = s.ran ∧ t.requested = s.requested ∧ t.wait = s.wait := by
    unfold requesterNext at step
    grind [State.goto]
  have notified := h.notified.keep same.2.2 same.1 (by rw [same.2.1]; exact fun _ => id)
  obtain ⟨args,flag,written,load,made,reads,byte,-⟩ := h
  have mine := args c
  unfold requesterNext at step
  repeat' split at step
  all_goals cases step
  all_goals refine ⟨?_,?_,?_,?_,?_,?_,?_,notified⟩ <;> simp only [State.goto, update_apply]
  all_goals grind

theorem reach_inv (h : Reach (machine m) (settled (ι := ι)) s) : Inv m s := by
  refine h.invariant ?_ ?_
  · exact ⟨by simp [machine, State.init],nofun,by simp [machine, State.init],nofun,fun some_ => absurd rfl some_,nofun,
      nofun, ⟨fun _ => rfl,nofun⟩⟩
  · intro s t a _ inv guard step
    cases a with
    | request c source n =>
      simp only [machine, next] at step
      split at step <;> cases step
      rename_i idle
      exact inv.request idle source n
    | requester c => exact inv.requester step
    | waitForShutdown =>
      simp only [machine, next] at step
      split at step <;> cases step
      rename_i idle
      refine ⟨inv.args,inv.flag,inv.written,nofun,inv.made,nofun,fun valid set _ => inv.byte valid set (.inl idle),
        ⟨fun _ => inv.notified.before ?_,nofun⟩⟩
      rw [idle]
      exact nofun
    | waiter => exact inv.waiter guard step

/-- **Every callback is run once, in reverse order of registration, with the number of a request**, if `WaitForShutdown`
tests the flag while no request is between its two stores; and after a request it runs them all by its own steps. -/
theorem callbacks_get_requested_number (h : Reach (machine m) (settled (ι := ι)) s) : Notified m s ∧
    (s.requested ≠ [] → Quiet s → s.wait ≠ .idle →
      ∃ as t, (∀ a ∈ as, a = .waiter) ∧ (machine m).exec as s = some t ∧ Returned m t) := by
  have advance : ∀ s : State ι, Inv m s ∧ s.requested ≠ [] ∧ Quiet s ∧ s.wait ≠ .idle → ¬ Returned m s →
      ∃ a t, a = .waiter ∧ (machine m).next a s = some t ∧ t.wait.work m < s.wait.work m ∧
        Inv m t ∧ t.requested ≠ [] ∧ Quiet t ∧ t.wait ≠ .idle := by
    rintro s ⟨inv,some_,quiet,called⟩ busy
    have unfinished : ∀ n, s.wait ≠ .run n [] := by
      intro n here
      obtain ⟨done,all,ran,-⟩ := inv.notified.loop n [] here
      rw [append_nil] at all
      exact busy ⟨n,here,all ▸ ran⟩
    obtain ⟨t,step,less,request,requested,called⟩ := inv.advances quiet some_ called unfinished
    refine ⟨.waiter,t,rfl,step,less,inv.waiter ?_ step,requested ▸ some_,?_,called⟩
    · intro _ c n here
      rcases quiet c with idle | through
      · rw [here] at idle
        cases idle
      · rw [here] at through
        cases through
    · unfold Quiet
      rw [request]
      exact quiet
  refine ⟨(reach_inv h).notified,fun some_ quiet called => ?_⟩
  obtain ⟨as,t,own,-,run,last⟩ := Machine.finishes_keeping (fun s => s.wait.work m) advance s
    ⟨reach_inv h,some_,quiet,called⟩
  exact ⟨as,t,own,run,last⟩

end

def two : Manager := ⟨true, [10, 20], nofun⟩

/-- The waiter blocks until the byte of `Quit(15)` arrives; a signal stores its number before the waiter loads it. -/
theorem callbacks_get_requested_number_signal : ∃ s : State (Fin 2), Reach (machine two) settled s ∧
    s.ran = [(20, 2), (10, 2)] ∧ Notified two s := by
  have run : checkRun (machine two) (fun s a => match a with
        | .waiter => decide (s.wait = .testFlag → ∀ c : Fin 2, s.request c = .idle)
        | _ => true)
      [.waitForShutdown, .waiter, .request 0 .quit 15, .requester 0, .requester 0, .requester 0, .waiter,
        .request 1 .signalHandler 2, .requester 1, .requester 1, .waiter, .waiter, .waiter]
      (fun _ => true) (fun s => s.ran = [(20, 2), (10, 2)]) = true := by decide +kernel
  obtain ⟨s,reached,ran⟩ := checkRun_reach (fun s a passes => show settled s a by
    cases a
    case waiter =>
      intro here c n
      rw [of_decide_eq_true passes here c]
      exact nofun
    all_goals trivial) run
  exact ⟨s,reached,of_decide_eq_true ran,(callbacks_get_requested_number reached).1⟩

/-- The waiter finds the flag of `Quit(15)` set and loads the number before it is stored: the callbacks get 0, which
nobody requested. -/
theorem callbacks_get_unrequested_number : ∃ s : State (Fin 1), Reach (machine two) anyStep s ∧
    s.requested = [15] ∧ s.wait = .run 0 [] ∧ s.ran = [(20, 0), (10, 0)] ∧ ¬ Notified two s := by
  obtain ⟨s,reached,requested,over_,ran⟩ := reach_of_schedule (machine two)
      [.waitForShutdown, .request 0 .quit 15, .requester 0, .waiter, .waiter, .waiter, .waiter]
      (fun s : State (Fin 1) => s.requested = [15] ∧ s.wait = .run 0 [] ∧
        s.ran = [(20, 0), (10, 0)]) (by decide +kernel)
  refine ⟨s,reached,requested,over_,ran,fun good => ?_⟩
  obtain ⟨_,-,-,known⟩ := good.loop 0 [] over_
  rw [requested] at known
  exact absurd (known nofun) (by decide)

end Newosp.Shutdown
