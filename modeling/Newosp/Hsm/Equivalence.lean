import Newosp.Hsm.Table

/-!
# `TableHsm` and `StateMachine` agree

Both machines are compared call by call: the same context and the same current state before a call give the same after
it. Both common-ancestor walks and both path loops are reduced to the lines of the forest.
-/

namespace Newosp.Hsm
open Lib List
open Option (bind_some map_some)

/-- The two machines agree. -/
structure Same {κ : Type} (t : TableState κ) (s : State κ) : Prop where
  ctx : t.ctx = s.ctx
  currentState : t.currentState = s.currentState
  started : t.started = s.started

variable {κ δ : Type} {T : Table κ δ} {maxStates : Nat}

section

variable {maxDepth : Nat} {t : TableState κ} {s : State κ} {o lca : Option Nat}

theorem chart_getElem? (T : Table κ δ) (i : Nat) : T.chart.states[i]? = T.states[i]?.map fun def_ => {
    parentIndex := def_.parent
    handler := some (T.handler i)
    onEntry := def_.onEntry
    onExit := def_.onExit
    guard := none } := getElem?_mapIdx

theorem chart_length (T : Table κ δ) : T.chart.states.length = T.states.length := length_mapIdx

theorem chart_parent (T : Table κ δ) (i : Nat) : T.chart.parent i = T.parent i := by
  rw [Chart.parent, chart_getElem?, Table.parent]
  cases T.states[i]? with
  | none => rfl
  | some def_ => rfl

theorem chart_forest (T : Table κ δ) : T.chart.forest = T.forest := by
  have same : T.chart.parent = T.parent := funext (chart_parent T)
  simp only [Chart.forest, Table.forest, same]

/-! ### Exits and entries -/

theorem Same.exit (same : Same t s) (i : Nat) : Same (T.exit t i) (T.chart.exit s i) := by
  refine ⟨?_,same.currentState,same.started⟩
  simp only [Table.exit, Chart.exit, chart_getElem?, same.ctx]
  cases T.states[i]? with
  | none => rfl
  | some def_ => rfl

theorem Same.enter (same : Same t s) (i : Nat) : Same (T.enter t i) (T.chart.enter s i) := by
  refine ⟨?_,same.currentState,same.started⟩
  simp only [Table.enter, Chart.enter, chart_getElem?, same.ctx]
  cases T.states[i]? with
  | none => rfl
  | some def_ => rfl

theorem Same.exits (same : Same t s) (path : List Nat) : Same (path.foldl T.exit t) (path.foldl T.chart.exit s) := by
  induction path generalizing t s with
  | nil => exact same
  | cons i path ih => exact ih (same.exit i)

theorem Same.entries (same : Same t s) (path : List Nat) : Same (path.foldl T.enter t) (path.foldl T.chart.enter s) := by
  induction path generalizing t s with
  | nil => exact same
  | cons i path ih => exact ih (same.enter i)

theorem exitLoop_eq (n : Nat) (enough : Forest.rank o ≤ n) (t : TableState κ) :
    T.exitLoop lca n o t = (T.forest.upTo o lca).foldl T.exit t := by
  induction o using T.forest.lineInduction generalizing n t with
  | absent => cases n <;> rfl
  | child i ih =>
    obtain ⟨n,rfl⟩ := Nat.exists_eq_add_one_of_ne_zero (ne_of_gt (Nat.zero_lt_of_lt enough))
    rw [Table.exitLoop]
    split
    · rename_i here
      rw [← here, T.forest.upTo_self]
      rfl
    · rename_i other
      rw [Forest.upTo_some (Ne.symm other), foldl_cons]
      exact ih n ((T.forest.rank_parent_le i).trans (Nat.le_of_succ_le_succ enough)) _

theorem pathLoop_eq (n : Nat) (path : List Nat) (enough : Forest.rank o ≤ n)
    (room : path.length + (T.forest.upTo o lca).length ≤ maxStates) :
    T.pathLoop maxStates lca n o path = path ++ T.forest.upTo o lca := by
  induction o using T.forest.lineInduction generalizing n path with
  | absent => cases n <;> exact (append_nil path).symm
  | child i ih =>
    obtain ⟨n,rfl⟩ := Nat.exists_eq_add_one_of_ne_zero (ne_of_gt (Nat.zero_lt_of_lt enough))
    rw [Table.pathLoop]
    by_cases here : some i = lca
    · rw [if_neg (fun more => more.1 here), ← here, T.forest.upTo_self, append_nil]
    · rw [Forest.upTo_some (Ne.symm here), length_cons] at room
      have longer : (path ++ [i]).length + (T.forest.upTo (T.forest.parent i) lca).length ≤ maxStates := by
        rw [length_append, length_singleton]
        omega
      have next := ih n (path ++ [i]) ((T.forest.rank_parent_le i).trans (Nat.le_of_succ_le_succ enough)) longer
      rw [append_assoc, singleton_append] at next
      rw [if_pos ⟨here,by omega⟩, Forest.upTo_some (Ne.symm here)]
      exact next

theorem runEntryPathTo_eq (shallow : (T.forest.line o).length ≤ maxStates) (t : TableState κ) :
    T.runEntryPathTo maxStates o lca t = (T.forest.upTo o lca).reverse.foldl T.enter t := by
  have short := (T.forest.upTo_length_le o lca).trans shallow
  rw [Table.runEntryPathTo, pathLoop_eq _ _ le_rfl (by rwa [length_nil, Nat.zero_add]), nil_append]

/-! ### The calls -/

/-- No state lies deeper than the path arrays of either machine. -/
def Table.Shallow (T : Table κ δ) (maxStates maxDepth : Nat) : Prop :=
  ∀ i < T.states.length, (T.forest.line (some i)).length ≤ min maxStates maxDepth

theorem findTransition_mem {state : Nat} {event : Event δ} {rows : List (TransitionDef κ δ)} {ctx ctx' : κ}
    {row : TransitionDef κ δ} (found : findTransition state event rows ctx = (some row, ctx')) :
    row ∈ rows ∧ row.source = state := by
  induction rows generalizing ctx with
  | nil => cases found
  | cons first rows ih =>
    rw [findTransition] at found
    split at found
    · rename_i here
      split at found
      · cases found
        exact ⟨mem_cons_self,here.1⟩
      · split at found
        split at found
        · cases found
          exact ⟨mem_cons_self,here.1⟩
        · exact (ih found).imp_left (mem_cons_of_mem _)
    · exact (ih found).imp_left (mem_cons_of_mem _)

variable (shallow : T.Shallow maxStates maxDepth)
include shallow

theorem Table.Shallow.chart : T.chart.Shallow maxDepth := by
  intro i inside
  rw [chart_length] at inside
  rw [chart_forest]
  exact (shallow i inside).trans (min_le_right _ _)

theorem Same.transitionTo (same : Same t s) (ready : Ready T.chart s) {target : Nat}
    (valid : target < T.states.length) :
    ∃ s', T.chart.transitionTo maxDepth target s = some s' ∧ Same (T.transitionTo maxStates target t) s' := by
  obtain ⟨source,inside,current⟩ := ready.current
  have inside' := inside
  rw [chart_length] at inside'
  rw [Chart.transitionTo, Table.transitionTo, same.currentState, current]
  dsimp only
  split
  · exact ⟨_,rfl,(same.exit source).enter source⟩
  · have deep := shallow.chart source inside
    have deep' := shallow.chart target (by rwa [chart_length])
    rw [Chart.buildExitPath, buildPath_eq deep, Chart.buildEntryPath, buildPath_eq deep', chart_forest,
      exitLoop_eq _ le_rfl, runEntryPathTo_eq ((shallow target valid).trans (min_le_left _ _))]
    refine ⟨_,rfl,?_⟩
    have left := same.exits (T := T) (T.forest.upTo (some source) (findLCA T.forest (some source) (some target)))
    have after := left.entries (T := T)
      (T.forest.upTo (some target) (findLCA T.forest (some source) (some target))).reverse
    exact ⟨after.ctx,rfl,after.started⟩

/-- `Dispatch` from a state on. -/
theorem Same.dispatchLoop (event : Event δ) (n : Nat) (o : Option Nat) (added : ∀ i, o = some i → i < T.states.length)
    (same : Same t s) (ready : Ready T.chart s) :
    ∃ s', T.chart.dispatchLoop maxDepth event n o s = some s' ∧ Same (T.dispatchLoop maxStates event n o t) s' := by
  induction n generalizing o t s with
  | zero => exact ⟨s,rfl,same⟩
  | succ n ih =>
    cases o with
    | none => exact ⟨s,rfl,same⟩
    | some i =>
      have inside := added i rfl
      have up : ∀ p, T.parent i = some p → p < T.states.length := fun p eq => (T.parent_lt eq).trans inside
      have none_ : ¬ (none : Option Bool) = some false := by simp
      rw [Chart.dispatchLoop, chart_getElem?, getElem?_eq_getElem inside, Table.dispatchLoop, chart_parent]
      simp only [map_some, Option.map_none, if_neg none_, Table.handler, same.ctx]
      cases found : findTransition i event T.rows s.ctx with
      | mk row ctx =>
        cases row with
        | none =>
          -- no row: both machines go on with the parent
          exact ih _ up ⟨rfl,same.currentState,same.started⟩ ⟨ready.started,ready.current,ready.pending⟩
        | some row =>
          obtain ⟨-,positive,below⟩ := T.rowsValid row (findTransition_mem found).1
          have small : row.target.toNat < T.states.length := by omega
          simp only [Table.apply]
          by_cases internal : row.kind = .internal
          · simp only [if_pos internal]
            exact ⟨_,rfl,rfl,same.currentState,same.started⟩
          · have accepted : T.chart.validTarget row.target = true := by
              rw [Chart.validTarget, chart_length]
              exact decide_eq_true ⟨Int.not_lt.2 positive,small⟩
            have pending : [row.target].foldl T.chart.requestTransition s.pendingTarget = some row.target.toNat :=
              if_pos accepted
            have result : Chart.Reaction.result T.chart ⟨Table.runRow row event ctx,[row.target],.ofRequest ⟨0,Nat.one_pos⟩⟩ =
                .transition := if_pos accepted
            simp only [if_neg internal, pending, result]
            have same' : Same { t with ctx := Table.runRow row event ctx }
                { s with ctx := Table.runRow row event ctx, pendingTarget := none } :=
              ⟨rfl,same.currentState,same.started⟩
            exact same'.transitionTo shallow ⟨ready.started,ready.current,by simp⟩ small

theorem Same.dispatch (event : Event δ) (same : Same t s) (ready : Ready T.chart s) :
    ∃ s', T.chart.dispatch maxDepth event s = some s' ∧ Same (T.dispatch maxStates event t) s' := by
  have running : t.started = true := same.started.trans ready.started
  rw [Chart.dispatch, if_pos ready.started, Table.dispatch, if_pos running, same.currentState]
  refine Same.dispatchLoop shallow event _ _ ?_ same ready
  intro i eq
  obtain ⟨j,inside,current⟩ := ready.current
  rw [current] at eq
  cases eq
  rwa [chart_length] at inside

theorem Same.start (ctx : κ) :
    ∃ s', T.chart.start maxDepth (.fresh ctx) = some s' ∧ Same (T.start maxStates ⟨ctx, none, false⟩) s' ∧
      Ready T.chart s' := by
  obtain ⟨s',eq,ready,-,-⟩ := start_spec (s := .fresh ctx) shallow.chart rfl nofun
  refine ⟨s',eq,?_,ready⟩
  have deep := shallow.chart T.chart.initialState T.chart.initialAdded
  have stopped : ¬ (State.fresh ctx).started = true := Bool.false_ne_true
  rw [Chart.start, if_neg stopped, Chart.buildEntryPath, buildPath_eq deep, chart_forest] at eq
  cases eq
  rw [Table.start, Table.runEntryPath,
    runEntryPathTo_eq ((shallow T.initialState T.initialValid).trans (min_le_left _ _))]
  have begun : Same (TableState.mk ctx (some T.initialState) true)
      { State.fresh ctx with started := true, currentState := some T.chart.initialState } := ⟨rfl,rfl,rfl⟩
  exact begun.entries _

theorem Same.events (events : List (Event δ)) (same : Same t s) (ready : Ready T.chart s) :
    ∃ s', events.foldlM (fun s event => T.chart.dispatch maxDepth event s) s = some s' ∧
      Same (events.foldl (fun t event => T.dispatch maxStates event t) t) s' := by
  induction events generalizing t s with
  | nil => exact ⟨s,rfl,same⟩
  | cons event events ih =>
    obtain ⟨s₁,eq,same₁⟩ := same.dispatch shallow event ready
    obtain ⟨s₂,eq₂,ready₁,-⟩ := dispatch_spec shallow.chart event ready
    cases eq.symm.trans eq₂
    rw [foldlM_cons, eq, foldl_cons]
    exact ih same₁ ready₁

theorem Same.run (ctx : κ) (events : List (Event δ)) :
    ∃ s, T.chart.run maxDepth ctx events = some s ∧ Same (T.run maxStates ctx events) s := by
  obtain ⟨s₁,eq,same₁,ready₁⟩ := Same.start shallow ctx
  obtain ⟨s,eq',same⟩ := same₁.events shallow events ready₁
  refine ⟨s,?_,same⟩
  rw [Chart.run, eq]
  exact eq'

end

/-! ### The sequence of actions -/

/-- An action that ran: of a row, or of a state. -/
inductive Note
  | row (index : Nat)
  | entry (state : Nat)
  | exit (state : Nat)
  deriving DecidableEq

namespace Table

def noting (note : Note) (action : Option (κ → κ)) : Option (κ × List Note → κ × List Note) :=
  action.map fun action ctx => (action ctx.1, ctx.2 ++ [note])

def tracedState (i : Nat) (def_ : StateDef κ) : StateDef (κ × List Note) := {
  parent := def_.parent
  onEntry := noting (.entry i) def_.onEntry
  onExit := noting (.exit i) def_.onExit }

def tracedRow (i : Nat) (row : TransitionDef κ δ) : TransitionDef (κ × List Note) δ := { row with
  action := row.action.map fun action ctx data => (action ctx.1 data, ctx.2 ++ [.row i])
  guard := row.guard.map fun guard ctx data => ((guard ctx.1 data).1, (guard ctx.1 data).2, ctx.2) }

def traced (T : Table κ δ) : Table (κ × List Note) δ where
  states := T.states.mapIdx tracedState
  rows := T.rows.mapIdx tracedRow
  parentsFirst := by
    intro i def_ found
    rw [getElem?_mapIdx] at found
    obtain ⟨d, here, rfl⟩ := Option.map_eq_some_iff.1 found
    exact T.parentsFirst i d here
  rowsValid := by
    intro row mem
    obtain ⟨i, inside, rfl⟩ := mem_mapIdx.1 mem
    rw [length_mapIdx]
    exact T.rowsValid _ (getElem_mem inside)
  initialState := T.initialState
  initialValid := by
    rw [length_mapIdx]
    exact T.initialValid

end Table

def erase {κ : Type} (t : TableState (κ × List Note)) : TableState κ := { t with ctx := t.ctx.1 }

section

variable {t : TableState (κ × List Note)}

theorem traced_getElem? (T : Table κ δ) (i : Nat) :
    T.traced.states[i]? = T.states[i]?.map (Table.tracedState i) := getElem?_mapIdx

theorem traced_parent (T : Table κ δ) : T.traced.parent = T.parent := by
  funext i
  rw [Table.parent, traced_getElem?, Table.parent]
  cases T.states[i]? with
  | none => rfl
  | some def_ => rfl

theorem traced_forest (T : Table κ δ) : T.traced.forest = T.forest := by
  simp only [Table.forest, traced_parent]

theorem runAction_noting (note : Note) (action : Option (κ → κ)) (ctx : κ × List Note) :
    (runAction (Table.noting note action) ctx).1 = runAction action ctx.1 := by
  cases action with
  | none => rfl
  | some action => rfl

theorem erase_exit (t : TableState (κ × List Note)) (i : Nat) : erase (T.traced.exit t i) = T.exit (erase t) i := by
  simp only [erase, Table.exit, traced_getElem?]
  cases T.states[i]? with
  | none => rfl
  | some def_ => rw [map_some, bind_some, bind_some, Table.tracedState, runAction_noting]

theorem erase_enter (t : TableState (κ × List Note)) (i : Nat) : erase (T.traced.enter t i) = T.enter (erase t) i := by
  simp only [erase, Table.enter, traced_getElem?]
  cases T.states[i]? with
  | none => rfl
  | some def_ => rw [map_some, bind_some, bind_some, Table.tracedState, runAction_noting]

theorem erase_entries (path : List Nat) (t : TableState (κ × List Note)) :
    erase (path.foldl T.traced.enter t) = path.foldl T.enter (erase t) := by
  induction path generalizing t with
  | nil => rfl
  | cons i path ih => rw [foldl_cons, ih, erase_enter, foldl_cons]

theorem erase_exitLoop (lca : Option Nat) (n : Nat) (o : Option Nat) (t : TableState (κ × List Note)) :
    erase (T.traced.exitLoop lca n o t) = T.exitLoop lca n o (erase t) := by
  induction n generalizing o t with
  | zero => rfl
  | succ n ih =>
    cases o with
    | none => rfl
    | some i =>
      rw [Table.exitLoop, Table.exitLoop, traced_parent]
      split
      · rfl
      · rw [ih, erase_exit]

theorem traced_pathLoop (below : Option Nat) (n : Nat) (o : Option Nat) (path : List Nat) :
    T.traced.pathLoop maxStates below n o path = T.pathLoop maxStates below n o path := by
  induction n generalizing o path with
  | zero => rfl
  | succ n ih =>
    cases o with
    | none => rfl
    | some i => rw [Table.pathLoop, Table.pathLoop, traced_parent, ih]

theorem erase_runEntryPathTo (node below : Option Nat) (t : TableState (κ × List Note)) :
    erase (T.traced.runEntryPathTo maxStates node below t) = T.runEntryPathTo maxStates node below (erase t) := by
  rw [Table.runEntryPathTo, erase_entries, traced_pathLoop, Table.runEntryPathTo]

theorem erase_transitionTo (target : Nat) (t : TableState (κ × List Note)) :
    erase (T.traced.transitionTo maxStates target t) = T.transitionTo maxStates target (erase t) := by
  unfold Table.transitionTo
  rw [show (erase t).currentState = t.currentState from rfl]
  cases t.currentState with
  | none => rfl
  | some source =>
    dsimp only
    split
    · rw [erase_enter, erase_exit]
    · rw [traced_forest, ← erase_exitLoop, ← erase_runEntryPathTo]
      rfl

theorem findTransition_traced (state : Nat) (event : Event δ) (rows : List (TransitionDef κ δ)) (k : Nat)
    (ctx : κ × List Note) :
    ∃ index, findTransition state event (rows.mapIdx fun i row => Table.tracedRow (i + k) row) ctx =
      ((findTransition state event rows ctx.1).1.map (Table.tracedRow index),
        (findTransition state event rows ctx.1).2, ctx.2) := by
  induction rows generalizing k ctx with
  | nil => exact ⟨0,rfl⟩
  | cons row rows ih =>
    have later : (fun i row => Table.tracedRow (i + 1 + k) row) =
        fun (i : Nat) (row : TransitionDef κ δ) => Table.tracedRow (i + (k + 1)) row := by
      funext i row
      rw [Nat.add_assoc, Nat.add_comm 1 k]
    rw [mapIdx_cons, later, Nat.zero_add, findTransition, findTransition]
    by_cases here : row.source = state ∧ row.event = event.id
    · have here' : (Table.tracedRow k row).source = state ∧ (Table.tracedRow k row).event = event.id := here
      rw [if_pos here, if_pos here']
      cases guarded : row.guard with
      | none =>
        have open_ : (Table.tracedRow k row).guard = none := by rw [Table.tracedRow, guarded]; rfl
        rw [open_]
        exact ⟨k,rfl⟩
      | some guard =>
        have guarded' : (Table.tracedRow k row).guard =
            some fun ctx data => ((guard ctx.1 data).1, (guard ctx.1 data).2, ctx.2) := by
          rw [Table.tracedRow, guarded]
          rfl
        rw [guarded']
        dsimp only
        split
        · exact ⟨k,rfl⟩
        · exact ih (k + 1) _
    · have here' : ¬ ((Table.tracedRow k row).source = state ∧ (Table.tracedRow k row).event = event.id) := here
      rw [if_neg here, if_neg here']
      exact ih (k + 1) ctx

theorem erase_dispatchLoop (event : Event δ) (n : Nat) (o : Option Nat) (t : TableState (κ × List Note)) :
    erase (T.traced.dispatchLoop maxStates event n o t) = T.dispatchLoop maxStates event n o (erase t) := by
  induction n generalizing o t with
  | zero => rfl
  | succ n ih =>
    cases o with
    | none => rfl
    | some i =>
      obtain ⟨index,scanned⟩ := findTransition_traced i event T.rows 0 t.ctx
      have scanned' : findTransition i event T.traced.rows t.ctx = _ := scanned
      rw [Table.dispatchLoop, scanned', Table.dispatchLoop, traced_parent]
      rw [show (erase t).ctx = t.ctx.1 from rfl]
      cases findTransition i event T.rows t.ctx.1 with
      | mk row ctx =>
        cases row with
        | none => exact ih _ _
        | some row =>
          have ran : ∀ c : κ × List Note, (Table.runRow (Table.tracedRow index row) event c).1 =
              Table.runRow row event c.1 := by
            intro c
            simp only [Table.runRow, Table.tracedRow]
            cases row.action with
            | none => rfl
            | some action => rfl
          simp only [map_some, Table.apply]
          by_cases internal : row.kind = .internal
          · have internal' : (Table.tracedRow index row).kind = .internal := internal
            rw [if_pos internal, if_pos internal']
            simp only [erase, ran]
          · have internal' : ¬ (Table.tracedRow index row).kind = .internal := internal
            rw [if_neg internal, if_neg internal', erase_transitionTo]
            simp only [erase, ran]
            rfl

theorem erase_run (T : Table κ δ) (maxStates : Nat) (ctx : κ) (events : List (Event δ)) :
    erase (T.traced.run maxStates (ctx, []) events) = T.run maxStates ctx events := by
  have begun : erase (T.traced.start maxStates ⟨(ctx, []),none,false⟩) = T.start maxStates ⟨ctx,none,false⟩ := by
    rw [Table.start, Table.runEntryPath, erase_runEntryPathTo]
    rfl
  rw [Table.run, Table.run, ← begun]
  generalize T.traced.start maxStates ⟨(ctx, []),none,false⟩ = t
  induction events generalizing t with
  | nil => rfl
  | cons event events ih =>
    rw [foldl_cons, ih, foldl_cons]
    congr 1
    rw [Table.dispatch, Table.dispatch]
    change erase (if t.started = true then _ else t) = if t.started = true then _ else _
    split
    · exact erase_dispatchLoop _ _ _ _
    · rfl

/-- **The two machines have one semantics.** After `Start` and any events, the `StateMachine` whose handlers scan the
rows has the context and the current state of the `TableHsm`, also for a context that records every action. -/
theorem same_semantics (T : Table κ δ) (maxStates maxDepth : Nat) (shallow : T.Shallow maxStates maxDepth) (ctx : κ)
    (events : List (Event δ)) :
    (∃ s, T.chart.run maxDepth ctx events = some s ∧ s.ctx = (T.run maxStates ctx events).ctx ∧
      s.currentState = (T.run maxStates ctx events).currentState) ∧
    ∃ s, T.traced.chart.run maxDepth (ctx, []) events = some s ∧
      s.ctx = (T.traced.run maxStates (ctx, []) events).ctx ∧
      s.ctx.1 = (T.run maxStates ctx events).ctx ∧
      s.currentState = (T.run maxStates ctx events).currentState := by
  have shallow' : T.traced.Shallow maxStates maxDepth := by
    intro i inside
    rw [traced_forest]
    exact shallow i (by rwa [Table.traced, length_mapIdx] at inside)
  obtain ⟨s,eq,same⟩ := Same.run shallow ctx events
  obtain ⟨s',eq',same'⟩ := Same.run shallow' (ctx, []) events
  have erased := erase_run T maxStates ctx events
  refine ⟨⟨s,eq,same.ctx.symm,same.currentState.symm⟩,s',eq',same'.ctx.symm,?_,?_⟩
  · rw [← erased, ← same'.ctx]
    rfl
  · rw [← erased, ← same'.currentState]
    rfl

def smallTable : Table Nat Unit where
  states := [⟨-1, some (· + 1), some (· * 2)⟩, ⟨0, some (· + 1), some (· * 2)⟩, ⟨0, some (· + 1), some (· * 2)⟩]
  rows := [⟨1, 7, 2, .external, some fun ctx _ => ctx + 10, some fun ctx _ => (true, ctx)⟩]
  parentsFirst := by
    intro i def_ found
    rcases i with _ | _ | _ | i <;> cases found <;> decide
  rowsValid := by
    simp only [mem_singleton, forall_eq]
    decide
  initialState := 1
  initialValid := by decide

theorem same_semantics_small : ∃ s, smallTable.traced.chart.run 32 (0, []) [⟨7, ()⟩] = some s ∧
      s.ctx = (25, [.entry 0, .entry 1, .row 0, .exit 1, .entry 2]) ∧ s.currentState = some 2 := by
  have shallow : smallTable.Shallow 16 32 := by
    unfold Table.Shallow
    decide
  obtain ⟨-,s,run,ctx,-,current⟩ := same_semantics smallTable 16 32 shallow 0 [⟨7,()⟩]
  exact ⟨s,run,ctx.trans rfl,current.trans rfl⟩

end

end Newosp.Hsm
