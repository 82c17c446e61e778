import Newosp.Hsm.StateMachine

/-!
# Connection supervision in `HsmNodeManager`

Each node has a state machine of three states beside each other and a counter of missed heartbeats. A round of
`CheckTimeouts` sends a timeout to every node whose last heartbeat is too old.
-/

namespace Newosp.Supervision
open Lib Hsm
open Function

structure Context where
  missedHeartbeats : UInt32
  maxMissed : UInt32
  lastHeartbeatUs : UInt64
  disconnectRequested : Bool
  disconnects : Nat

inductive Event
  | heartbeatReceived (timestamp : UInt64)
  | heartbeatTimeout
  | disconnect
  | reconnect

def Context.missed (ctx : Context) : Context := { ctx with missedHeartbeats := ctx.missedHeartbeats + 1 }

def handled (ctx : Context) : Reaction Context := ⟨ctx, [], .handled⟩

def unhandled (ctx : Context) : Reaction Context := ⟨ctx, [], .unhandled⟩

def toState (ctx : Context) (target : Int) : Reaction Context := ⟨ctx, [target], .ofRequest 0⟩

def stateConnected (ctx : Context) : Event → Reaction Context
  | .heartbeatReceived timestamp => handled { ctx with missedHeartbeats := 0, lastHeartbeatUs := timestamp }
  | .heartbeatTimeout => toState ctx.missed 1
  | .disconnect => toState { ctx with disconnectRequested := true } 2
  | .reconnect => unhandled ctx

def stateSuspect (ctx : Context) : Event → Reaction Context
  | .heartbeatReceived timestamp => toState { ctx with missedHeartbeats := 0, lastHeartbeatUs := timestamp } 0
  | .heartbeatTimeout =>
    if ctx.maxMissed ≤ ctx.missed.missedHeartbeats then toState ctx.missed 2 else handled ctx.missed
  | .disconnect => toState { ctx with disconnectRequested := true } 2
  | .reconnect => unhandled ctx

def stateDisconnected (ctx : Context) : Event → Reaction Context
  | .reconnect => toState { ctx with missedHeartbeats := 0, disconnectRequested := false } 0
  | _ => unhandled ctx

/-- The callback is set; `disconnects` counts its calls. -/
def onEnterDisconnected (ctx : Context) : Context := { ctx with disconnects := ctx.disconnects + 1 }

/-- Connected, Suspect and Disconnected. -/
def chart : Chart Context Event where
  states := [⟨-1, some stateConnected, none, none, none⟩, ⟨-1, some stateSuspect, none, none, none⟩,
    ⟨-1, some stateDisconnected, some onEnterDisconnected, none, none⟩]
  parentsFirst := by
    intro i config here
    match i with
    | 0 | 1 | 2 =>
      cases here
      decide
  initialState := 0
  initialAdded := by decide

/-- `OSP_HSM_MAX_DEPTH`. -/
def maxDepth : Nat := 32

/-- An active entry; `stale` counts the rounds that found it stale since its `AddNode`, last heartbeat or last
reconnect. -/
structure Node where
  hsm : State Context
  stale : Nat

def Node.disconnected (n : Node) : Prop := n.hsm.currentState = some 2

instance (n : Node) : Decidable n.disconnected := inferInstanceAs (Decidable (_ = _))

/-- A failed assertion would leave the node as it is. -/
def Node.dispatch (n : Node) (e : Event) : Node :=
  ⟨(chart.dispatch maxDepth e n.hsm).getD n.hsm, match e with
    | .heartbeatReceived _ => 0
    | .heartbeatTimeout => n.stale + 1
    | .disconnect => n.stale
    | .reconnect => if n.disconnected then 0 else n.stale⟩

/-- The entries by their ids, which are distinct. -/
structure Manager where
  nodes : UInt16 → Option Node
  heartbeatIntervalMs : UInt32

/-- The calls in processing order. The clock is read in `now` and `timestamp`, and `AddNode` may find a free slot or
not. -/
inductive Call
  | addNode (id : UInt16) (maxMissed : UInt32) (now : UInt64) (slot : Bool)
  | setHeartbeatInterval (intervalMs : UInt32)
  | event (id : UInt16) (e : Event)
  | checkTimeouts (now : UInt64)

def Node.isStale (n : Node) (intervalMs : UInt32) (now : UInt64) : Bool :=
  intervalMs.toUInt64 * 1000 < now - n.hsm.ctx.lastHeartbeatUs

def Node.check (n : Node) (intervalMs : UInt32) (now : UInt64) : Node :=
  if n.isStale intervalMs now then n.dispatch .heartbeatTimeout else n

def next : Call → Manager → Option Manager
  | .addNode id maxMissed now slot, s => match s.nodes id, slot with
    | some _, _ => none
    | none, false => some s
    | none, true => (chart.start maxDepth (.fresh ⟨0, maxMissed, now, false, 0⟩)).map fun hsm =>
      { s with nodes := update s.nodes id (some ⟨hsm, 0⟩) }
  | .setHeartbeatInterval intervalMs, s => some { s with heartbeatIntervalMs := intervalMs }
  | .event id e, s => some { s with nodes := update s.nodes id ((s.nodes id).map (·.dispatch e)) }
  | .checkTimeouts now, s => some { s with nodes := fun id => (s.nodes id).map (·.check s.heartbeatIntervalMs now) }

def machine : Machine Manager Call := ⟨⟨fun _ => none, 1000⟩, next⟩

/-- The stale rounds that disconnect a node. -/
def Node.limit (n : Node) : Nat := max 2 n.hsm.ctx.maxMissed.toNat

/-- The event that a call is for a node. -/
def Call.eventFor (intervalMs : UInt32) (id : UInt16) (n : Node) : Call → Option Event
  | .event other e => if id = other then some e else none
  | .checkTimeouts now => if n.isStale intervalMs now then some .heartbeatTimeout else none
  | _ => none

/-- What an event does to its node: only a disconnect request and the stale round that reaches the limit disconnect it,
that round does so whenever it comes, and only a reconnect request leads out again. -/
structure Supervised (e : Event) (n n' : Node) : Prop where
  runs : chart.dispatch maxDepth e n.hsm = some n'.hsm
  limit : n'.limit = n.limit
  enters : ¬ n.disconnected → n'.disconnected → e = .disconnect ∨ e = .heartbeatTimeout ∧ n.limit ≤ n.stale + 1
  reaches : e = .heartbeatTimeout → n.limit ≤ n.stale + 1 → n'.disconnected
  leaves : n.disconnected → ¬ n'.disconnected → e = .reconnect

/-- The counter of a node that is not disconnected, and one call of the callback for each entry into Disconnected. -/
structure Counted (n : Node) : Prop where
  ready : n.hsm.started = true ∧ n.hsm.pendingTarget = none
  state : n.hsm.currentState = some 0 ∧ n.hsm.ctx.missedHeartbeats = 0 ∧ n.stale = 0 ∨
    n.hsm.currentState = some 1 ∧ n.hsm.ctx.missedHeartbeats.toNat = n.stale ∧ 0 < n.stale ∧ n.stale < n.limit ∨
    n.hsm.currentState = some 2
  calls : n.hsm.ctx.disconnects = n.hsm.log.count (.enter 2)

variable {s s' : Manager} {n n' : Node} {log : List Act} {a : Call} {id : UInt16}

/-- The state after a transition from state `i` to state `j`. -/
def moved (i j : Nat) (ctx : Context) (log : List Act) : State Context :=
  ⟨ctx, some j, true, none, log ++ [.exit i] ++ [.enter j]⟩

/-- The callback runs on the way into Disconnected. -/
theorem moved_calls {ctx ctx' : Context} (i j : Nat) (calls : ctx.disconnects = log.count (.enter 2))
    (called : ctx'.disconnects = ctx.disconnects + if j = 2 then 1 else 0) :
    ctx'.disconnects = (moved i j ctx' log).log.count (.enter 2) := by
  by_cases two : j = 2 <;> simp_all [moved]

theorem suspect_runs (ctx : Context) (log : List Act) :
    chart.dispatch maxDepth .heartbeatTimeout ⟨ctx, some 1, true, none, log⟩ = some (
      if ctx.maxMissed ≤ ctx.missed.missedHeartbeats then moved 1 2 (onEnterDisconnected ctx.missed) log
      else ⟨ctx.missed, some 1, true, none, log⟩) := by
  show chart.dispatchLoop maxDepth .heartbeatTimeout (1 + 1) (some 1) _ = _
  rw [Chart.dispatchLoop]
  by_cases reached : ctx.maxMissed ≤ ctx.missed.missedHeartbeats <;>
    simp only [chart, List.getElem?_cons_succ, List.getElem?_cons_zero, stateSuspect, reached, if_true, if_false] <;> rfl

/-- The rounds that find a suspect node stale. -/
theorem suspect_timeout {ctx : Context} {stale : Nat} (calls : ctx.disconnects = log.count (.enter 2))
    (missed : ctx.missedHeartbeats.toNat = stale) (pos : 0 < stale) (below : stale < max 2 ctx.maxMissed.toNat)
    (here : n = ⟨⟨ctx, some 1, true, none, log⟩, stale⟩) :
    Counted (n.dispatch .heartbeatTimeout) ∧ Supervised .heartbeatTimeout n (n.dispatch .heartbeatTimeout) := by
  subst here
  have count : ctx.missed.missedHeartbeats.toNat = stale + 1 := by
    rw [Context.missed, UInt32.toNat_add, missed]
    have := ctx.maxMissed.toNat_lt
    exact Nat.mod_eq_of_lt (by simp; omega)
  have runs := suspect_runs ctx log
  split at runs <;> rename_i reached <;> rw [UInt32.le_iff_toNat_le, count] at reached <;>
    simp only [Node.dispatch, runs, Option.getD_some]
  · exact ⟨⟨⟨rfl,rfl⟩,.inr (.inr rfl),moved_calls 1 2 calls rfl⟩,runs,rfl,
      fun _ _ => .inr ⟨rfl,Nat.max_le.2 ⟨Nat.succ_le_succ pos,reached⟩⟩, fun _ _ => rfl, nofun⟩
  · have under : stale + 1 < max 2 ctx.maxMissed.toNat := by omega
    exact ⟨⟨⟨rfl,rfl⟩,.inr (.inl ⟨rfl,count,Nat.succ_pos _,under⟩),calls⟩,runs,rfl,nofun,
      fun _ le => absurd le (Nat.not_le.2 under), nofun⟩

theorem dispatch_supervised (h : Counted n) (e : Event) : Counted (n.dispatch e) ∧ Supervised e n (n.dispatch e) := by
  obtain ⟨⟨ctx,current,started,pending,log⟩,stale⟩ := n
  obtain ⟨⟨rfl,rfl⟩,state,calls⟩ := h
  dsimp only at state calls
  have two : 2 ≤ max 2 ctx.maxMissed.toNat := le_max_left ..
  rcases state with ⟨rfl,zero,rfl⟩ | ⟨rfl,missed,pos,below⟩ | rfl
  · cases e with
    | heartbeatReceived ts => exact ⟨⟨⟨rfl,rfl⟩,.inl ⟨rfl,rfl,rfl⟩,calls⟩,rfl,rfl,nofun,nofun,nofun⟩
    | heartbeatTimeout =>
      refine ⟨⟨⟨rfl,rfl⟩,.inr (.inl ⟨rfl,?_,Nat.one_pos,two⟩),moved_calls 0 1 calls rfl⟩,rfl,rfl,nofun,
        fun _ le => absurd (two.trans le) (by simp), nofun⟩
      show (ctx.missedHeartbeats + 1).toNat = 1
      rw [zero]
      rfl
    | disconnect =>
      exact ⟨⟨⟨rfl,rfl⟩,.inr (.inr rfl),moved_calls 0 2 calls rfl⟩,rfl,rfl,fun _ _ => .inl rfl,nofun,nofun⟩
    | reconnect => exact ⟨⟨⟨rfl,rfl⟩,.inl ⟨rfl,zero,rfl⟩,calls⟩,rfl,rfl,nofun,nofun,nofun⟩
  · cases e with
    | heartbeatReceived ts =>
      exact ⟨⟨⟨rfl,rfl⟩,.inl ⟨rfl,rfl,rfl⟩,moved_calls 1 0 calls rfl⟩,rfl,rfl,nofun,nofun,nofun⟩
    | heartbeatTimeout => exact suspect_timeout calls missed pos below rfl
    | disconnect =>
      exact ⟨⟨⟨rfl,rfl⟩,.inr (.inr rfl),moved_calls 1 2 calls rfl⟩,rfl,rfl,fun _ _ => .inl rfl,nofun,nofun⟩
    | reconnect =>
      exact ⟨⟨⟨rfl,rfl⟩,.inr (.inl ⟨rfl,missed,pos,below⟩),calls⟩,rfl,rfl,nofun,nofun,nofun⟩
  · cases e with
    | reconnect =>
      exact ⟨⟨⟨rfl,rfl⟩,.inl ⟨rfl,rfl,rfl⟩,moved_calls 2 0 calls rfl⟩,rfl,rfl,nofun,nofun,fun _ _ => rfl⟩
    | _ =>
      exact ⟨⟨⟨rfl,rfl⟩,.inr (.inr rfl),calls⟩,rfl,rfl,fun up => absurd rfl up,fun _ _ => rfl,
        fun _ up => absurd rfl up⟩

/-- What a call does to a node. -/
def Treated (e : Option Event) (n n' : Node) : Prop := match e with
  | none => n' = n
  | some e => Supervised e n n'

/-- A call treats each node by itself. -/
theorem next_treated (step : next a s = some s') (here : s.nodes id = some n) (h : Counted n) :
    ∃ n', s'.nodes id = some n' ∧ Counted n' ∧ Treated (a.eventFor s.heartbeatIntervalMs id n) n n' := by
  cases a with
  | addNode new maxMissed now slot =>
    simp only [next] at step
    split at step <;> cases step
    · exact ⟨n,here,h,rfl⟩
    · rename_i free
      refine ⟨n,(update_of_ne ?_ ..).trans here,h,rfl⟩
      rintro rfl
      cases here.symm.trans free
  | setHeartbeatInterval =>
    cases step
    exact ⟨n,here,h,rfl⟩
  | event other e =>
    cases step
    by_cases same : id = other
    · subst same
      rw [Call.eventFor, if_pos rfl]
      exact ⟨n.dispatch e,by simp [here],dispatch_supervised h e⟩
    · rw [Call.eventFor, if_neg same]
      exact ⟨n,(update_of_ne same ..).trans here,h,rfl⟩
  | checkTimeouts now =>
    cases step
    by_cases stale : n.isStale s.heartbeatIntervalMs now = true
    · rw [Call.eventFor, if_pos stale]
      exact ⟨n.dispatch .heartbeatTimeout,by simp [here, Node.check, stale],dispatch_supervised h _⟩
    · rw [Call.eventFor, if_neg stale]
      exact ⟨n,by simp [here, Node.check, stale],h,rfl⟩

theorem next_new (step : next a s = some s') (absent : s.nodes id = none)
    (here : s'.nodes id = some n) : Counted n := by
  cases a with
  | addNode new maxMissed now slot =>
    simp only [next] at step
    split at step <;> cases step
    · cases absent.symm.trans here
    · by_cases same : id = new
      · subst same
        cases (update_self (f := s.nodes) ..).symm.trans here
        exact ⟨⟨rfl,rfl⟩,.inl ⟨rfl,rfl,rfl⟩,rfl⟩
      · cases absent.symm.trans ((update_of_ne same ..).symm.trans here)
  | event other e =>
    cases step
    by_cases same : id = other
    · simp [← same, absent] at here
    · simp [update_of_ne same, absent] at here
  | setHeartbeatInterval | checkTimeouts =>
    cases step
    simp [absent] at here

/-- **Connection supervision**: in every run a call treats each node as `Supervised` says, or leaves it as it is, and
the callback has run once for each entry into Disconnected. -/
theorem supervised {id : UInt16} (reached : Reach machine anyStep s) (here : s.nodes id = some n) :
    n.hsm.ctx.disconnects = n.hsm.log.count (.enter 2) ∧ ∀ a s', next a s = some s' →
      ∃ n', s'.nodes id = some n' ∧ Treated (a.eventFor s.heartbeatIntervalMs id n) n n' := by
  have counted : ∀ id n, s.nodes id = some n → Counted n := by
    apply reached.invariant (I := fun s => ∀ id n, s.nodes id = some n → Counted n)
    · exact fun _ _ h => nomatch h
    · intro s s' a _ ih _ step id n here
      cases before : s.nodes id with
      | some m =>
        obtain ⟨n',there,kept,-⟩ := next_treated step before (ih id m before)
        cases here.symm.trans there
        exact kept
      | none => exact next_new step before here
  refine ⟨(counted id n here).calls,fun a s' step => ?_⟩
  obtain ⟨n',there,-,treated⟩ := next_treated step here (counted id n here)
  exact ⟨n',there,treated⟩

/-- The third round that finds a node stale disconnects it. -/
theorem supervised_three_rounds : ∃ s s', Reach machine anyStep s ∧ next (.checkTimeouts 5) s = some s' ∧
    ∃ n ∈ s.nodes 1, ¬ n.disconnected ∧ ∃ n' ∈ s'.nodes 1, n'.disconnected := by
  obtain ⟨s,reached,n,here,up,stale,last⟩ := reach_of_schedule machine
    [.setHeartbeatInterval 0, .addNode 1 3 0 true, .checkTimeouts 5, .checkTimeouts 5]
    (fun s => ∃ n ∈ s.nodes 1, ¬ n.disconnected ∧ n.isStale s.heartbeatIntervalMs 5 = true ∧ n.limit ≤ n.stale + 1)
    (by decide)
  obtain ⟨n',there,done⟩ := (supervised reached here).2 (.checkTimeouts 5) _ rfl
  rw [Call.eventFor, if_pos stale] at done
  exact ⟨s,_,reached,rfl,n,here,up,n',there,done.reaches rfl last⟩

end Newosp.Supervision
