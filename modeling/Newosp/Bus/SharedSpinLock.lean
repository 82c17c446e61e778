import Newosp.Lib.Machine
import Newosp.Lib.ReaderWriter
import Newosp.Lib.Wrap

/-!
# `SharedSpinLock`

Threads `τ` use the locks `κ` in well-nested order: each has a stack of what it holds and releases the top. `state_` is
one 32-bit word per lock; the `thread_local` fields are static, so a thread has one of each for all its locks. Every
access to a `state_` is one step. `Backoff` only delays.
-/

namespace Newosp.Bus.SpinLock
open Lib Function

def int32 (n : Int) : Int := n.bmod 4294967296

inductive Mode
  | shared
  | exclusive
deriving DecidableEq, Repr

/-- Program counters of the four operations. -/
inductive PC (κ : Type)
  | idle
  | loadState (l : κ)
  | casShared (l : κ) (state : Int)
  | assertLoad (l : κ)
  | subShared (l : κ)
  | upgradeSub (l : κ)
  | lockCas (l : κ)
  | unlockStore (l : κ) (value : Nat)
  | aborted
deriving DecidableEq, Repr

/-- A thread with its thread-local variables. -/
structure Thread (κ : Type) where
  pc : PC κ
  readerDepth : Nat
  upgradeWriter : Bool
  upgradeDepth : Nat
  stack : List (κ × Mode)

structure State (τ κ : Type) where
  state : κ → Int
  thread : τ → Thread κ

/-- A thread calls an operation, or takes its next step (a weak compare-exchange fails without cause if `spurious`). -/
inductive Act (τ κ : Type)
  | lockShared (t : τ) (l : κ)
  | unlockShared (t : τ)
  | lock (t : τ) (l : κ)
  | unlock (t : τ)
  | step (t : τ) (spurious : Bool)

section

variable {τ κ : Type} [DecidableEq τ] [DecidableEq κ]

def Thread.lockShared (l : κ) (th : Thread κ) : Thread κ :=
  if 0 < th.readerDepth then
    { th with readerDepth := wrap32 (th.readerDepth + 1), stack := (l, .shared) :: th.stack }
  else { th with pc := .loadState l }

def Thread.unlockShared (th : Thread κ) : Option (Thread κ) := match th.stack with
  | (l, .shared) :: rest => some <|
    if 1 < th.readerDepth then { th with readerDepth := th.readerDepth - 1, stack := rest }
    else { th with readerDepth := 0, pc := .assertLoad l }
  | _ => none

def Thread.lock (l : κ) (th : Thread κ) : Thread κ :=
  if 0 < th.readerDepth then { th with upgradeDepth := th.readerDepth, pc := .upgradeSub l }
  else { th with pc := .lockCas l }

def Thread.unlock (th : Thread κ) : Option (Thread κ) := match th.stack with
  | (l, .exclusive) :: _ => some <| if th.upgradeWriter then
      { th with upgradeWriter := false, readerDepth := th.upgradeDepth,
                pc := .unlockStore l th.upgradeDepth }
    else { th with pc := .unlockStore l 0 }
  | _ => none

def Thread.access (spurious : Bool) (state : κ → Int) (th : Thread κ) : Option ((κ → Int) × Thread κ) :=
  match th.pc with
  | .idle | .aborted => none
  | .loadState l => some (state, { th with
      pc := if 0 ≤ state l then .casShared l (state l) else .loadState l })
  | .casShared l v =>
    if state l = v ∧ spurious = false then
      some (update state l (int32 (v + 1)),
        { th with readerDepth := 1, pc := .idle, stack := (l, .shared) :: th.stack })
    else some (state, { th with pc := .loadState l })
  | .assertLoad l => some (state, { th with pc := if 0 < state l then .subShared l else .aborted })
  | .subShared l =>
    some (update state l (int32 (state l - 1)), { th with pc := .idle, stack := th.stack.tail })
  | .upgradeSub l =>
    some (update state l (int32 (state l - th.readerDepth)),
      { th with readerDepth := 0, upgradeWriter := true, pc := .lockCas l })
  | .lockCas l =>
    if state l = 0 ∧ spurious = false then
      some (update state l (-1), { th with pc := .idle, stack := (l, .exclusive) :: th.stack })
    else some (state, th)
  | .unlockStore l value =>
    some (update state l (int32 value), { th with pc := .idle, stack := th.stack.tail })

def State.setThread (s : State τ κ) (t : τ) (th : Thread κ) : State τ κ := { s with thread := update s.thread t th }

/-- One step of the threads; an operation is called between two others. -/
def next : Act τ κ → State τ κ → Option (State τ κ)
  | .lockShared t l, s =>
    if (s.thread t).pc = .idle then some (s.setThread t ((s.thread t).lockShared l)) else none
  | .unlockShared t, s =>
    if (s.thread t).pc = .idle then (s.thread t).unlockShared.map (s.setThread t) else none
  | .lock t l, s =>
    if (s.thread t).pc = .idle then some (s.setThread t ((s.thread t).lock l)) else none
  | .unlock t, s =>
    if (s.thread t).pc = .idle then (s.thread t).unlock.map (s.setThread t) else none
  | .step t spurious, s => ((s.thread t).access spurious s.state).map fun r =>
      { s with state := r.1 }.setThread t r.2

def State.init : State τ κ where
  state := fun _ => 0
  thread := fun _ => ⟨.idle, 0, false, 0, []⟩

def machine : Machine (State τ κ) (Act τ κ) := ⟨.init, next⟩

def Thread.owns (l : κ) (th : Thread κ) : Bool := decide ((l, Mode.exclusive) ∈ th.stack)

/-- The thread holds `l` shared; from the wait of an upgrade until its exclusive hold is given back it does not. -/
def Thread.shares (l : κ) (th : Thread κ) : Bool :=
  decide ((l, Mode.shared) ∈ th.stack ∧ (l, Mode.exclusive) ∉ th.stack ∧ th.pc ≠ .lockCas l)

variable [Fintype τ]

def State.owners (s : State τ κ) (l : κ) : Finset τ := threadsWith (Thread.owns l) s.thread

def State.sharers (s : State τ κ) (l : κ) : Finset τ := threadsWith (Thread.shares l) s.thread

end

end Newosp.Bus.SpinLock
