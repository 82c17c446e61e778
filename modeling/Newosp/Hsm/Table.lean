import Newosp.Hsm.Entered

/-!
# `TableHsm`

The first row for the state and the event whose guard passes is applied, its action first. `chart` is the `StateMachine`
whose handlers scan the same rows; `traced` has actions that also write down that they ran.
-/

namespace Newosp.Hsm
open Lib

inductive TransitionKind
  | external
  | internal
  | self
  deriving DecidableEq

structure Event (δ : Type) where
  id : UInt32
  data : δ

/-- A state; a negative parent is none. -/
structure StateDef (κ : Type) where
  parent : Int
  onEntry : Option (κ → κ)
  onExit : Option (κ → κ)

/-- A row; a guard may change the context too. -/
structure TransitionDef (κ δ : Type) where
  source : Int
  event : UInt32
  target : Int
  kind : TransitionKind
  action : Option (κ → δ → κ)
  guard : Option (κ → δ → Bool × κ)

/-- The caller's tables, with indices in range and parents first. -/
structure Table (κ δ : Type) where
  states : List (StateDef κ)
  rows : List (TransitionDef κ δ)
  parentsFirst : ∀ (i : Nat) (def_ : StateDef κ), states[i]? = some def_ → def_.parent < i
  rowsValid : ∀ row ∈ rows, (0 ≤ row.source ∧ row.source < states.length) ∧ 0 ≤ row.target ∧ row.target < states.length
  initialState : Nat
  initialValid : initialState < states.length

/-- The fields that `Start` and `Dispatch` change. -/
structure TableState (κ : Type) where
  ctx : κ
  currentState : Option Nat
  started : Bool

/-- The first row for a state and an event whose guard passes, with the context that the guards leave. -/
def findTransition {κ δ : Type} (state : Nat) (event : Event δ) :
    List (TransitionDef κ δ) → κ → Option (TransitionDef κ δ) × κ
  | [], ctx => (none, ctx)
  | row :: rows, ctx =>
    if row.source = state ∧ row.event = event.id then
      match row.guard with
      | none => (some row, ctx)
      | some guard =>
        let (passes, ctx) := guard ctx event.data
        if passes then (some row, ctx) else findTransition state event rows ctx
    else findTransition state event rows ctx

/-- A missing action does nothing. -/
def runAction {κ : Type} (action : Option (κ → κ)) (ctx : κ) : κ := match action with
  | none => ctx
  | some action => action ctx

namespace Table

variable {κ δ : Type} (T : Table κ δ)

/-- The parent of a state, if any. -/
def parent (i : Nat) : Option Nat := match T.states[i]? with
  | none => none
  | some def_ => if def_.parent < 0 then none else some def_.parent.toNat

theorem parent_lt {i p : Nat} (eq : T.parent i = some p) : p < i := by
  unfold parent at eq
  split at eq
  · cases eq
  · rename_i def_ found
    have := T.parentsFirst i def_ found
    split at eq
    · cases eq
    · cases eq
      omega

/-- The states under their parents. -/
def forest : Forest where
  parent := T.parent
  before := T.parent_lt

def exit (t : TableState κ) (i : Nat) : TableState κ :=
  { t with ctx := runAction (T.states[i]?.bind StateDef.onExit) t.ctx }

def enter (t : TableState κ) (i : Nat) : TableState κ :=
  { t with ctx := runAction (T.states[i]?.bind StateDef.onEntry) t.ctx }

/-- The exits of `TransitionTo`. -/
def exitLoop (lca : Option Nat) : Nat → Option Nat → TableState κ → TableState κ
  | 0, _, t => t
  | _ + 1, none, t => t
  | n + 1, some i, t => if some i = lca then t else exitLoop lca n (T.parent i) (T.exit t i)

/-- The loop of `RunEntryPathTo` that fills the path; it ends where the array is full. -/
def pathLoop (maxStates : Nat) (below : Option Nat) : Nat → Option Nat → List Nat → List Nat
  | 0, _, path => path
  | _ + 1, none, path => path
  | n + 1, some i, path =>
    if some i ≠ below ∧ path.length < maxStates then pathLoop maxStates below n (T.parent i) (path ++ [i]) else path

/-- The path is entered from the outside in. -/
def runEntryPathTo (maxStates : Nat) (node below : Option Nat) (t : TableState κ) : TableState κ :=
  (T.pathLoop maxStates below (Forest.rank node) node []).reverse.foldl T.enter t

def runEntryPath (maxStates : Nat) (leaf : Option Nat) (t : TableState κ) : TableState κ :=
  T.runEntryPathTo maxStates leaf none t

/-- A state left for itself is entered again. -/
def transitionTo (maxStates target : Nat) (t : TableState κ) : TableState κ := match t.currentState with
  | none => t
  | some source =>
    if source = target then T.enter (T.exit t source) source
    else
      let lca := findLCA T.forest (some source) (some target)
      let t := T.exitLoop lca (Forest.rank (some source)) (some source) t
      let t := T.runEntryPathTo maxStates (some target) lca t
      { t with currentState := some target }

def runRow (row : TransitionDef κ δ) (event : Event δ) (ctx : κ) : κ :=
  runAction (row.action.map fun action ctx => action ctx event.data) ctx

/-- The action, then the transition unless the row is internal. -/
def apply (maxStates : Nat) (row : TransitionDef κ δ) (event : Event δ) (t : TableState κ) : TableState κ :=
  let t := { t with ctx := runRow row event t.ctx }
  if row.kind = .internal then t else T.transitionTo maxStates row.target.toNat t

/-- The state and its ancestors are asked in turn. -/
def dispatchLoop (maxStates : Nat) (event : Event δ) : Nat → Option Nat → TableState κ → TableState κ
  | 0, _, t => t
  | _ + 1, none, t => t
  | n + 1, some i, t =>
    match findTransition i event T.rows t.ctx with
    | (some row, ctx) => T.apply maxStates row event { t with ctx }
    | (none, ctx) => dispatchLoop maxStates event n (T.parent i) { t with ctx }

/-- `Dispatch`; nothing happens before `Start`. -/
def dispatch (maxStates : Nat) (event : Event δ) (t : TableState κ) : TableState κ :=
  if t.started then T.dispatchLoop maxStates event (Forest.rank t.currentState) t.currentState t else t

/-- `Start`: the line of the initial state is entered. -/
def start (maxStates : Nat) (t : TableState κ) : TableState κ :=
  T.runEntryPath maxStates (some T.initialState) { t with started := true, currentState := some T.initialState }

/-- `Start`, then the events one after the other. -/
def run (maxStates : Nat) (ctx : κ) (events : List (Event δ)) : TableState κ :=
  events.foldl (fun t event => T.dispatch maxStates event t) (T.start maxStates ⟨ctx, none, false⟩)

/-- The handler that scans the rows of a state: the row's action first, then the result for its kind. -/
def handler (i : Nat) (ctx : κ) (event : Event δ) : Reaction κ := match findTransition i event T.rows ctx with
  | (none, ctx) => ⟨ctx, [], .unhandled⟩
  | (some row, ctx) =>
    if row.kind = .internal then ⟨runRow row event ctx, [], .handled⟩
    else ⟨runRow row event ctx, [row.target], .ofRequest ⟨0, Nat.one_pos⟩⟩

/-- The `StateMachine` with these states and handlers. -/
def chart : Chart κ (Event δ) where
  states := T.states.mapIdx fun i def_ => {
    parentIndex := def_.parent
    handler := some (T.handler i)
    onEntry := def_.onEntry
    onExit := def_.onExit
    guard := none }
  parentsFirst := by
    intro i config found
    rw [List.getElem?_mapIdx] at found
    obtain ⟨def_, here, rfl⟩ := Option.map_eq_some_iff.1 found
    exact T.parentsFirst i def_ here
  initialState := T.initialState
  initialAdded := by
    rw [List.length_mapIdx]
    exact T.initialValid

end Table

/-- `Start`, then the events one after the other. -/
def Chart.run {κ ε : Type} (m : Chart κ ε) (maxDepth : Nat) (ctx : κ) (events : List ε) : Option (State κ) :=
  events.foldlM (fun s event => m.dispatch maxDepth event s) =<< m.start maxDepth (.fresh ctx)

end Newosp.Hsm
