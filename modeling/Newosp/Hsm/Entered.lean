import Newosp.Hsm.StateMachine

/-!
# The entered states

The log of entries and exits is replayed on the line of the entered states: a state is entered when the line is that of
its parent, and left when it is the innermost one. So the line is always that of the current state.
-/

namespace Newosp.Hsm
open Lib List

def Act.concerns (i : Nat) (a : Act) : Bool := a = .enter i ∨ a = .exit i

/-- The entry action of a state has run, and its exit action has not run since. -/
def Entered (log : List Act) (i : Nat) : Prop := log.reverse.find? (Act.concerns i) = some (.enter i)

def replayStep (F : Forest) (entered : List Nat) : Act → Option (List Nat)
  | .enter i => if entered = F.line (F.parent i) then some (i :: entered) else none
  | .exit i => if entered.head? = some i then some entered.tail else none

/-- The line of the entered states after a log. -/
def replay (F : Forest) (log : List Act) : Option (List Nat) := log.foldlM (replayStep F) []

/-- The states below the common ancestor are left from the inside out, those of the target entered from the outside in;
a state left for itself is entered again. -/
def transitionActs (F : Forest) (source target : Nat) : List Act :=
  if source = target then [.exit source, .enter source]
  else
    let lca := findLCA F (some source) (some target)
    (F.upTo (some source) lca).map .exit ++ (F.upTo (some target) lca).reverse.map .enter

section

variable {F : Forest} {o stop : Option Nat} {log : List Act} {entered : List Nat}

theorem replay_exits (ends : F.line stop <:+ F.line o) :
    ((F.upTo o stop).map Act.exit).foldlM (replayStep F) (F.line o) = some (F.line stop) := by
  induction o using F.lineInduction with
  | absent =>
    rw [F.line_none, suffix_nil] at ends
    rw [ends]
    rfl
  | child i ih =>
    by_cases here : stop = some i
    · rw [here, F.upTo_self]
      rfl
    · have up := Forest.line_suffix_parent ends here
      rw [Forest.upTo_some here, map_cons, foldlM_cons, F.line_some i, replayStep, head?_cons, if_pos rfl]
      exact ih up

theorem replay_entries (F : Forest) (o stop : Option Nat) (ends : F.line stop <:+ F.line o) :
    ((F.upTo o stop).reverse.map Act.enter).foldlM (replayStep F) (F.line stop) = some (F.line o) := by
  induction o using F.lineInduction with
  | absent =>
    rw [F.line_none, suffix_nil] at ends
    rw [ends]
    rfl
  | child i ih =>
    by_cases here : stop = some i
    · rw [here, F.upTo_self]
      rfl
    · have up := Forest.line_suffix_parent ends here
      rw [Forest.upTo_some here, reverse_cons, map_append, foldlM_append, ih up]
      change (replayStep F (F.line (F.parent i)) (.enter i)).bind some = _
      rw [replayStep, if_pos rfl, F.line_some i]
      rfl

theorem replay_transition (source target : Nat) :
    (transitionActs F source target).foldlM (replayStep F) (F.line (some source)) = some (F.line (some target)) := by
  rw [transitionActs]
  split
  · rename_i same
    subst same
    change ((replayStep F (F.line (some source)) (.exit source)).bind fun e =>
      (replayStep F e (.enter source)).bind some) = _
    rw [F.line_some, replayStep, head?_cons, if_pos rfl]
    change (replayStep F (F.line (F.parent source)) (.enter source)).bind some = _
    rw [replayStep, if_pos rfl]
    rfl
  · have meet := findLCA_isMeet F (some source) (some target)
    rw [foldlM_append, replay_exits meet.left]
    exact replay_entries F _ _ meet.right

theorem replay_append {more : List Act} (eq : replay F log = some entered) :
    replay F (log ++ more) = more.foldlM (replayStep F) entered := by
  rw [replay, foldlM_append, ← replay, eq]
  rfl

theorem entered_snoc (log : List Act) (a : Act) (i : Nat) :
    Entered (log ++ [a]) i ↔ if a.concerns i then a = .enter i else Entered log i := by
  unfold Entered
  rw [reverse_append, reverse_singleton, singleton_append, find?_cons]
  cases about : a.concerns i with
  | true => simp only [if_true, Option.some.injEq]
  | false => simp only [Bool.false_eq_true, if_false]

theorem entered_of_replay (eq : replay F log = some entered) :
    (∃ o, entered = F.line o) ∧ ∀ i, Entered log i ↔ i ∈ entered := by
  induction log using List.reverseRecOn generalizing entered with
  | nil =>
    cases eq
    refine ⟨⟨none,rfl⟩,?_⟩
    intro i
    exact ⟨fun h => (by cases h),fun h => (by cases h)⟩
  | append_singleton log a ih =>
    rw [replay, foldlM_append, ← replay] at eq
    obtain ⟨before,eq',last⟩ := Option.bind_eq_some_iff.1 eq
    obtain ⟨⟨o,line⟩,members⟩ := ih eq'
    obtain ⟨_,last,⟨⟩⟩ := Option.bind_eq_some_iff.1 last
    cases a with
    | enter j =>
      rw [replayStep] at last
      obtain ⟨child,⟨⟩⟩ := enabled last
      refine ⟨⟨some j,by rw [F.line_some, child]⟩,?_⟩
      intro i
      rw [entered_snoc, mem_cons, ← members i]
      by_cases same : i = j
      · subst same
        simp only [Act.concerns, true_or, decide_true, if_true]
      · have apart : (Act.enter j).concerns i = false := by
          simp only [Act.concerns, Act.enter.injEq, reduceCtorEq, or_false, decide_eq_false_iff_not]
          exact fun eq => same eq.symm
        rw [apart]
        simp only [Bool.false_eq_true, if_false, same, false_or]
    | exit j =>
      rw [replayStep] at last
      obtain ⟨innermost,⟨⟩⟩ := enabled last
      -- the innermost state of the line is left
      obtain rfl : o = some j := by
        cases o with
        | none => rw [line] at innermost; cases innermost
        | some k =>
          rw [line, F.line_some] at innermost
          exact innermost
      rw [line, F.line_some, tail_cons]
      refine ⟨⟨_,rfl⟩,?_⟩
      intro i
      rw [entered_snoc]
      by_cases same : i = j
      · subst same
        have about : (Act.exit i).concerns i = true := by
          simp only [Act.concerns, or_true, decide_true]
        rw [about, if_pos rfl]
        exact ⟨fun h => (by cases h),fun mem => absurd mem (F.not_mem_line_parent i)⟩
      · have apart : (Act.exit j).concerns i = false := by
          simp only [Act.concerns, Act.exit.injEq, reduceCtorEq, false_or, decide_eq_false_iff_not]
          exact fun eq => same eq.symm
        rw [apart, members i, line, F.line_some, mem_cons]
        simp only [Bool.false_eq_true, if_false, same, false_or]

end

/-! ### The calls -/

structure Ready {κ ε : Type} (m : Chart κ ε) (s : State κ) : Prop where
  started : s.started = true
  current : ∃ i < m.states.length, s.currentState = some i
  pending : ∀ t, s.pendingTarget = some t → t < m.states.length

/-- A call that makes no transition. -/
def Stays {κ : Type} (s t : State κ) : Prop := t.currentState = s.currentState ∧ t.log = s.log

/-- A call that makes the transition to `target`. -/
def MovesTo {κ ε : Type} (m : Chart κ ε) (target : Nat) (s t : State κ) : Prop :=
  ∃ source, s.currentState = some source ∧ t.currentState = some target ∧
    t.log = s.log ++ transitionActs m.forest source target

section

variable {κ ε : Type} {m : Chart κ ε} {maxDepth : Nat} {s : State κ} {t : State κ} {target : Nat} {ctx : κ}

/-- Exits, and entries, change the context and extend the log. -/
theorem foldl_frame {f : State κ → Nat → State κ} {act : Nat → Act}
    (one : ∀ s i, ∃ ctx, f s i = { s with ctx, log := s.log ++ [act i] }) (path : List Nat) (s : State κ) :
    ∃ ctx, path.foldl f s = { s with ctx, log := s.log ++ path.map act } := by
  induction path generalizing s with
  | nil => exact ⟨s.ctx,by rw [map_nil, append_nil]; rfl⟩
  | cons i path ih =>
    obtain ⟨_,first⟩ := one s i
    obtain ⟨ctx,eq⟩ := ih (f s i)
    refine ⟨ctx,?_⟩
    rw [foldl_cons, eq, map_cons, append_cons, first]

/-- A transition returns in the target. -/
theorem transitionTo_spec (shallow : m.Shallow maxDepth) (ready : Ready m s) (valid : target < m.states.length) :
    ∃ t, m.transitionTo maxDepth target s = some t ∧ Ready m t ∧ MovesTo m target s t := by
  obtain ⟨source,inside,current⟩ := ready.current
  rw [Chart.transitionTo, current]
  dsimp only
  split
  · rename_i same
    subst same
    refine ⟨_,rfl,⟨ready.started,⟨source,inside,current⟩,ready.pending⟩,source,current,current,?_⟩
    rw [transitionActs, if_pos rfl]
    change (s.log ++ [.exit source]) ++ [.enter source] = _
    rw [append_assoc]
    rfl
  · rename_i differ
    rw [Chart.buildExitPath, buildPath_eq (shallow source inside), Chart.buildEntryPath, buildPath_eq (shallow target valid)]
    obtain ⟨ctx₁,left⟩ := foldl_frame (f := m.exit) (fun _ _ => ⟨_,rfl⟩)
      (m.forest.upTo (some source) (findLCA m.forest (some source) (some target))) s
    obtain ⟨ctx₂,entered⟩ := foldl_frame (f := m.enter) (fun _ _ => ⟨_,rfl⟩)
      (m.forest.upTo (some target) (findLCA m.forest (some source) (some target))).reverse
      ((m.forest.upTo (some source) (findLCA m.forest (some source) (some target))).foldl m.exit s)
    rw [left] at entered
    refine ⟨_,rfl,?_⟩
    rw [left, entered]
    refine ⟨⟨ready.started,⟨target,valid,rfl⟩,ready.pending⟩,source,current,rfl,?_⟩
    rw [transitionActs, if_neg differ]
    exact append_assoc _ _ _

theorem validTarget_lt {target : Int} (valid : m.validTarget target = true) : target.toNat < m.states.length :=
  (of_decide_eq_true valid).2

theorem requests_pending (requests : List Int) (pending : Option Nat) : ((∀ t, pending = some t → t < m.states.length) →
      ∀ t, requests.foldl m.requestTransition pending = some t → t < m.states.length) ∧
    ((pending ≠ none ∨ ∃ r ∈ requests, m.validTarget r = true) →
      requests.foldl m.requestTransition pending ≠ none) := by
  induction requests generalizing pending with
  | nil =>
    refine ⟨id,?_⟩
    rintro (some_ | ⟨r,mem,-⟩)
    · exact some_
    · cases mem
  | cons r requests ih =>
    obtain ⟨inside,pends⟩ := ih (m.requestTransition pending r)
    rw [foldl_cons]
    constructor
    · intro valid
      apply inside
      rw [Chart.requestTransition]
      split
      · rename_i accepted
        rintro t ⟨⟩
        exact validTarget_lt accepted
      · exact valid
    · intro some_
      apply pends
      rw [Chart.requestTransition]
      split
      · exact .inl (Option.some_ne_none _)
      · rename_i refused
        rcases some_ with some_ | ⟨r',mem,accepted⟩
        · exact .inl some_
        · rcases mem_cons.1 mem with rfl | later
          · exact absurd accepted refused
          · exact .inr ⟨r',later,accepted⟩

theorem accepted_of_transition {r : Reaction κ} (requested : Chart.Reaction.result m r = .transition) :
    ∃ target ∈ r.requests, m.validTarget target = true := by
  unfold Chart.Reaction.result at requested
  split at requested
  · cases requested
  · cases requested
  · rename_i i _
    refine ⟨r.requests.get i,get_mem _ _,?_⟩
    rw [Chart.requestResult] at requested
    split at requested
    · assumption
    · cases requested

theorem parent_added {i p : Nat} (inside : i < m.states.length) (eq : m.parent i = some p) : p < m.states.length :=
  (m.parent_lt eq).trans inside

section

variable (shallow : m.Shallow maxDepth)
include shallow

/-- `Dispatch` from a state on returns, with at most one transition. -/
theorem dispatchLoop_spec (event : ε) (n : Nat) (o : Option Nat) (s : State κ)
    (added : ∀ i, o = some i → i < m.states.length) (ready : Ready m s) :
    ∃ t, m.dispatchLoop maxDepth event n o s = some t ∧ Ready m t ∧
      (Stays s t ∨ ∃ target < m.states.length, MovesTo m target s t) := by
  induction n generalizing o s with
  | zero => exact ⟨s,rfl,ready,.inl ⟨rfl,rfl⟩⟩
  | succ n ih =>
    cases o with
    | none => exact ⟨s,rfl,ready,.inl ⟨rfl,rfl⟩⟩
    | some i =>
      have inside := added i rfl
      have up : ∀ p, m.parent i = some p → p < m.states.length := fun p eq => parent_added inside eq
      rw [Chart.dispatchLoop, getElem?_eq_getElem inside]
      dsimp only
      split
      · exact ih _ s up ready
      · split
        · exact ih _ s up ready
        · rename_i handler _
          obtain ⟨kept,pends⟩ := requests_pending (m := m) (handler s.ctx event).requests s.pendingTarget
          generalize reaction : handler s.ctx event = r at *
          have ready' : Ready m { s with ctx := r.ctx, pendingTarget := r.requests.foldl m.requestTransition s.pendingTarget } :=
            ⟨ready.started,ready.current,kept ready.pending⟩
          split
          · exact ⟨_,rfl,ready',.inl ⟨rfl,rfl⟩⟩
          · exact ih _ _ up ready'
          · rename_i requested
            have some_ := pends (.inr (accepted_of_transition requested))
            split
            · rename_i none_
              exact absurd none_ some_
            · rename_i target found
              have valid := kept ready.pending target found
              obtain ⟨t,eq,ready'',moved⟩ := transitionTo_spec shallow
                (s := { s with ctx := r.ctx, pendingTarget := none }) ⟨ready.started,ready.current,nofun⟩ valid
              exact ⟨t,eq,ready'',.inr ⟨target,valid,moved⟩⟩

theorem dispatch_spec (event : ε) (ready : Ready m s) : ∃ t, m.dispatch maxDepth event s = some t ∧ Ready m t ∧
      (Stays s t ∨ ∃ target < m.states.length, MovesTo m target s t) := by
  rw [Chart.dispatch, if_pos ready.started]
  refine dispatchLoop_spec shallow event _ _ s ?_ ready
  intro i eq
  obtain ⟨j,inside,current⟩ := ready.current
  rw [current] at eq
  cases eq
  exact inside

theorem forceTransition_spec (target : Int) (ready : Ready m s) :
    ∃ t, m.forceTransition maxDepth target s = some t ∧ Ready m t ∧
      if m.validTarget target then MovesTo m target.toNat s t else t = s := by
  rw [Chart.forceTransition, if_neg (not_not_intro ready.started)]
  by_cases valid : m.validTarget target = true
  · rw [if_neg (not_not_intro valid)]
    simp only [if_pos valid]
    exact transitionTo_spec shallow ready (validTarget_lt valid)
  · rw [if_pos valid]
    simp only [if_neg valid]
    exact ⟨s,rfl,ready,rfl⟩

theorem start_spec (stopped : s.started = false) (pending : ∀ t, s.pendingTarget = some t → t < m.states.length) :
    ∃ t, m.start maxDepth s = some t ∧ Ready m t ∧ t.currentState = some m.initialState ∧
      t.log = s.log ++ (m.forest.line (some m.initialState)).reverse.map .enter := by
  rw [Chart.start, if_neg (by rw [stopped]; exact Bool.false_ne_true), Chart.buildEntryPath,
    buildPath_eq (shallow _ m.initialAdded), Forest.upTo_root]
  obtain ⟨ctx,entered⟩ := foldl_frame (f := m.enter) (fun _ _ => ⟨_,rfl⟩) (m.forest.line (some m.initialState)).reverse
    { s with started := true, currentState := some m.initialState }
  refine ⟨_,rfl,?_⟩
  rw [entered]
  exact ⟨⟨rfl,⟨m.initialState,m.initialAdded,rfl⟩,pending⟩,rfl,rfl⟩

end

/-- What holds between the calls: the line of the entered states is that of the current state. -/
structure Inv (m : Chart κ ε) (s : State κ) : Prop where
  line : replay m.forest s.log = some (m.forest.line s.currentState)
  ready : s.started = true → Ready m s
  fresh : s.started = false → s.currentState = none ∧ s.pendingTarget = none

theorem Inv.moved (inv : Inv m s) (ready : Ready m t) (moved : MovesTo m target s t) : Inv m t := by
  obtain ⟨source,current,current',log⟩ := moved
  refine ⟨?_,fun _ => ready,?_⟩
  · rw [log, replay_append inv.line, current, replay_transition, current']
  · intro stopped
    rw [ready.started] at stopped
    cases stopped

theorem Inv.stayed (inv : Inv m s) (ready : Ready m t) (stayed : Stays s t) : Inv m t := by
  refine ⟨?_,fun _ => ready,?_⟩
  · rw [stayed.2, stayed.1]
    exact inv.line
  · intro stopped
    rw [ready.started] at stopped
    cases stopped

/-- Every call keeps the entered states in line with the current state. -/
theorem Inv.step {c : Call ε} (shallow : m.Shallow maxDepth) (inv : Inv m s)
    (next : (m.machine maxDepth ctx).next c s = some t) : Inv m t := by
  cases started : s.started with
  | false =>
    obtain ⟨none_,nothing⟩ := inv.fresh started
    cases c with
    | start =>
      obtain ⟨t',eq,ready,current,log⟩ := start_spec shallow started (by rw [nothing]; exact nofun)
      cases next.symm.trans eq
      refine ⟨?_,fun _ => ready,?_⟩
      · have whole := replay_entries m.forest (some m.initialState) none nil_suffix
        rw [Forest.upTo_root] at whole
        rw [log, replay_append inv.line, none_, whole, current]
      · intro stopped
        rw [ready.started] at stopped
        cases stopped
    | dispatch event =>
      change m.dispatch maxDepth event s = some t at next
      rw [Chart.dispatch, if_neg (by rw [started]; exact Bool.false_ne_true)] at next
      cases next
    | forceTransition target =>
      change m.forceTransition maxDepth target s = some t at next
      rw [Chart.forceTransition, if_pos (by rw [started]; exact Bool.false_ne_true)] at next
      cases next
      exact inv
  | true =>
    have ready := inv.ready started
    cases c with
    | start =>
      change m.start maxDepth s = some t at next
      rw [Chart.start, if_pos started] at next
      cases next
    | dispatch event =>
      obtain ⟨t',eq,ready',stayed | ⟨target,-,moved⟩⟩ := dispatch_spec shallow event ready
      · cases next.symm.trans eq
        exact inv.stayed ready' stayed
      · cases next.symm.trans eq
        exact inv.moved ready' moved
    | forceTransition target =>
      obtain ⟨t',eq,ready',effect⟩ := forceTransition_spec shallow target ready
      cases next.symm.trans eq
      split at effect
      · exact inv.moved ready' effect
      · exact inv.stayed ready' (by rw [effect]; exact ⟨rfl,rfl⟩)

theorem Inv.of_reach (shallow : m.Shallow maxDepth) (reached : Reach (m.machine maxDepth ctx) anyStep s) : Inv m s := by
  refine Reach.invariant ⟨rfl,nofun,fun _ => ⟨rfl,rfl⟩⟩ ?_ reached
  intro s t c _ inv _ next
  exact inv.step shallow next

/-- **The entered states are the current state and its ancestors**, after every sequence of calls. `Start` enters the
initial state's line from the outside in; `Dispatch` and `ForceTransition` make at most one transition, its exits and
entries in order; and `FindLCA` gives the deepest common ancestor. -/
theorem entered_states (m : Chart κ ε) (maxDepth : Nat) (shallow : m.Shallow maxDepth) (ctx : κ)
    (reached : Reach (m.machine maxDepth ctx) anyStep s) : (∀ i, Entered s.log i ↔ i ∈ m.forest.line s.currentState) ∧
    (s.started = false → ∃ t, m.start maxDepth s = some t ∧ t.currentState = some m.initialState ∧
      t.log = s.log ++ (m.forest.line (some m.initialState)).reverse.map .enter) ∧
    (s.started = true → (∀ event, ∃ t, m.dispatch maxDepth event s = some t ∧
        (Stays s t ∨ ∃ target < m.states.length, MovesTo m target s t)) ∧
      ∀ target, ∃ t, m.forceTransition maxDepth target s = some t ∧
        if m.validTarget target then MovesTo m target.toNat s t else t = s) ∧
    ∀ a b, m.forest.IsMeet a b (findLCA m.forest a b) := by
  have inv := Inv.of_reach shallow reached
  refine ⟨(entered_of_replay inv.line).2,?_,?_,findLCA_isMeet m.forest⟩
  · intro stopped
    obtain ⟨t,eq,-,current,log⟩ := start_spec shallow stopped (by rw [(inv.fresh stopped).2]; exact nofun)
    exact ⟨t,eq,current,log⟩
  · intro started
    constructor
    · intro event
      obtain ⟨t,eq,-,effect⟩ := dispatch_spec shallow event (inv.ready started)
      exact ⟨t,eq,effect⟩
    · intro target
      obtain ⟨t,eq,-,effect⟩ := forceTransition_spec shallow target (inv.ready started)
      exact ⟨t,eq,effect⟩

def plainState (parentIndex : Int) (handler : Option (Unit → Unit → Reaction Unit)) : StateConfig Unit Unit := {
  parentIndex
  handler
  onEntry := none
  onExit := none
  guard := none }

def smallChart : Chart Unit Unit where
  states := [plainState (-1) none, plainState 0 (some fun _ _ => ⟨(), [2], .ofRequest ⟨0, by decide⟩⟩), plainState 0 none,
    plainState 1 none]
  parentsFirst := by
    intro i config found
    rcases i with _ | _ | _ | _ | i <;> cases found <;> decide
  initialState := 3
  initialAdded := by decide

theorem entered_states_moved : Entered [.enter 0, .enter 1, .enter 3, .exit 3, .exit 1, .enter 2] 0 ∧
    Entered [.enter 0, .enter 1, .enter 3, .exit 3, .exit 1, .enter 2] 2 ∧
    ¬ Entered [.enter 0, .enter 1, .enter 3, .exit 3, .exit 1, .enter 2] 3 := by
  have shallow : smallChart.Shallow 32 := by
    unfold Chart.Shallow
    decide
  have reached : Reach (smallChart.machine 32 ()) anyStep
      ⟨(),some 2,true,none,[.enter 0, .enter 1, .enter 3, .exit 3, .exit 1, .enter 2]⟩ :=
    .step (a := .dispatch ()) (.step (a := .start) .init trivial rfl) trivial rfl
  have entered : ∀ i, _ ↔ i ∈ [2, 0] := (entered_states smallChart 32 shallow () reached).1
  exact ⟨(entered 0).2 (by decide),(entered 2).2 (by decide),fun inside => absurd ((entered 3).1 inside) (by decide)⟩

end

end Newosp.Hsm
