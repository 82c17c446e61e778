import Newosp.Hsm.Paths
import Newosp.Lib.Machine

/-!
# `StateMachine`

A handler may request transitions; the value it returns is `kTransition` only if one of its requests returned that. The
log holds the states entered and left, with or without an action. A failed assertion is `none`.
-/

namespace Newosp.Hsm
open Lib

inductive TransitionResult
  | handled
  | unhandled
  | transition
  deriving DecidableEq

/-- What a handler returns: one of the two plain results, or what its request number `i` returned. -/
inductive Reply (n : Nat)
  | handled
  | unhandled
  | ofRequest (i : Fin n)

/-- What a handler does: the context it leaves, its calls of `RequestTransition` and what it returns. -/
structure Reaction (κ : Type) where
  ctx : κ
  requests : List Int
  reply : Reply requests.length

structure StateConfig (κ ε : Type) where
  parentIndex : Int
  handler : Option (κ → ε → Reaction κ)
  onEntry : Option (κ → κ)
  onExit : Option (κ → κ)
  guard : Option (κ → ε → Bool)

structure Chart (κ ε : Type) where
  states : List (StateConfig κ ε)
  parentsFirst : ∀ (i : Nat) (config : StateConfig κ ε), states[i]? = some config → config.parentIndex < i
  initialState : Nat
  initialAdded : initialState < states.length

inductive Act
  | enter (state : Nat)
  | exit (state : Nat)
  deriving DecidableEq

structure State (κ : Type) where
  ctx : κ
  currentState : Option Nat
  started : Bool
  pendingTarget : Option Nat
  log : List Act

namespace Chart

variable {κ ε : Type} (m : Chart κ ε)

def parent (i : Nat) : Option Nat :=
  match m.states[i]? with
  | none => none
  | some config => if config.parentIndex < 0 then none else some config.parentIndex.toNat

theorem parent_lt {i p : Nat} (eq : m.parent i = some p) : p < i := by
  unfold parent at eq
  split at eq
  · cases eq
  · rename_i config found
    have := m.parentsFirst i config found
    split at eq
    · cases eq
    · cases eq
      omega

def forest : Forest where
  parent := m.parent
  before := m.parent_lt

/-- No state lies deeper than the path arrays of the machine. -/
def Shallow (maxDepth : Nat) : Prop := ∀ i < m.states.length, (m.forest.line (some i)).length ≤ maxDepth

def exit (s : State κ) (i : Nat) : State κ := {
  s with
  ctx := match m.states[i]?.bind StateConfig.onExit with
    | none => s.ctx
    | some action => action s.ctx
  log := s.log ++ [.exit i] }

def enter (s : State κ) (i : Nat) : State κ := {
  s with
  ctx := match m.states[i]?.bind StateConfig.onEntry with
    | none => s.ctx
    | some action => action s.ctx
  log := s.log ++ [.enter i] }

def buildExitPath (maxDepth : Nat) (source lca : Option Nat) : Option (List Nat) :=
  buildPath m.forest maxDepth source lca

def buildEntryPath (maxDepth : Nat) (lca target : Option Nat) : Option (List Nat) :=
  buildPath m.forest maxDepth target lca

def transitionTo (maxDepth target : Nat) (s : State κ) : Option (State κ) :=
  match s.currentState with
  | none => none
  | some source =>
    if source = target then some (m.enter (m.exit s source) source)
    else do
      let lca := findLCA m.forest (some source) (some target)
      let exitPath ← m.buildExitPath maxDepth (some source) lca
      let s := exitPath.foldl m.exit s
      let entryPath ← m.buildEntryPath maxDepth lca (some target)
      let s := entryPath.reverse.foldl m.enter s
      some { s with currentState := some target }

def start (maxDepth : Nat) (s : State κ) : Option (State κ) :=
  if s.started then none
  else do
    let s := { s with started := true, currentState := some m.initialState }
    let path ← m.buildEntryPath maxDepth none (some m.initialState)
    some (path.reverse.foldl m.enter s)

def validTarget (target : Int) : Bool := ¬ target < 0 ∧ target.toNat < m.states.length

/-- The effect of one `RequestTransition`. -/
def requestTransition (pending : Option Nat) (target : Int) : Option Nat :=
  if m.validTarget target then some target.toNat else pending

def requestResult (target : Int) : TransitionResult := if m.validTarget target then .transition else .unhandled

def Reaction.result (r : Reaction κ) : TransitionResult :=
  match r.reply with
  | .handled => .handled
  | .unhandled => .unhandled
  | .ofRequest i => m.requestResult (r.requests.get i)

def dispatchLoop (maxDepth : Nat) (event : ε) : Nat → Option Nat → State κ → Option (State κ)
  | 0, _, s => some s
  | _ + 1, none, s => some s
  | n + 1, some i, s =>
    match m.states[i]? with
    | none => none
    | some config =>
      if (config.guard.map fun guard => guard s.ctx event) = some false then
        dispatchLoop maxDepth event n (m.parent i) s
      else
        match config.handler with
        | none => dispatchLoop maxDepth event n (m.parent i) s
        | some handler =>
          let r := handler s.ctx event
          let s := { s with ctx := r.ctx, pendingTarget := r.requests.foldl m.requestTransition s.pendingTarget }
          match Reaction.result m r with
          | .handled => some s
          | .unhandled => dispatchLoop maxDepth event n (m.parent i) s
          | .transition =>
            match s.pendingTarget with
            | none => none
            | some target => m.transitionTo maxDepth target { s with pendingTarget := none }

def dispatch (maxDepth : Nat) (event : ε) (s : State κ) : Option (State κ) :=
  if s.started then m.dispatchLoop maxDepth event (Forest.rank s.currentState) s.currentState s
  else none

/-- `ForceTransition`; the state is unchanged when it returns `false`. -/
def forceTransition (maxDepth : Nat) (target : Int) (s : State κ) : Option (State κ) :=
  if ¬ s.started then some s
  else if ¬ m.validTarget target then some s
  else m.transitionTo maxDepth target.toNat s

end Chart

inductive Call (ε : Type)
  | start
  | dispatch (event : ε)
  | forceTransition (target : Int)

def State.fresh {κ : Type} (ctx : κ) : State κ := {
  ctx
  currentState := none
  started := false
  pendingTarget := none
  log := [] }

def Chart.machine {κ ε : Type} (m : Chart κ ε) (maxDepth : Nat) (ctx : κ) : Machine (State κ) (Call ε) where
  init := .fresh ctx
  next
    | .start => m.start maxDepth
    | .dispatch event => m.dispatch maxDepth event
    | .forceTransition target => m.forceTransition maxDepth target

end Newosp.Hsm
