import Newosp.Nodes.Manager

/-!
# The table of the loop and the connections

`Watching`: the table of the loop and the interest list are in step with the connections. A timeout and `Stop` close
sockets that stay in the table; as many timeouts as the table has slots leave none for a new connection.
-/

namespace Newosp.Nodes
open Lib List

variable {n : NodeEntry} {fd : Int} {cfg : NodeConfig} {s : State}

def NodeEntry.connection (n : NodeEntry) : Option Int := if n.active && !n.isListener then some n.socket else none

def connections (nodes : List NodeEntry) : List Int := nodes.filterMap NodeEntry.connection

/-- The descriptors of a node: a connection has a socket, an inactive node has none open. -/
def NodeEntry.Ok (n : NodeEntry) : Prop := match n.active, n.isListener with
  | true, true => n.socket = -1
  | true, false => 0 ≤ n.socket ∧ n.listener = -1
  | false, _ => n.socket = -1 ∧ n.listener = -1

/-- The table of the loop and the interest list are in step with the connections. -/
structure Watching (cfg : NodeConfig) (s : State) : Prop where
  size : s.nodes.length = cfg.maxNodes
  slots : s.loop.fds.length = cfg.maxNodes + 1
  occupied : s.loop.occupied.Perm (connections s.nodes)
  watched : ∀ fd, fd ∈ s.loop.poller.watched ↔ fd = cfg.wakeFd ∨ fd ∈ connections s.nodes
  nodup : (connections s.nodes).Nodup
  foreign : cfg.wakeFd ∉ connections s.nodes
  entries : ∀ n ∈ s.nodes, n.Ok
  apart : ∀ n ∈ s.nodes, 0 ≤ n.listener → n.listener ∉ s.loop.poller.watched
  seen : ∀ r ∈ s.results, 0 ≤ r.fd

/-- The kernel accepts the socket of a new connection, `Stop` finds no connection, and a heartbeat round finds none that
is overdue. -/
def Intact (cfg : NodeConfig) (s : State) : Act → Prop
  | .connect _ accepted => accepted = true
  | .stop => ∀ n ∈ s.nodes, n.active = true → n.isListener = true
  | .heartbeat _ => s.round = .sending [] → ∀ n ∈ s.nodes, overdue cfg s.clock n = false
  | _ => True

theorem connection_of_active (active : n.active = true) (isNode : n.isListener = false) :
    n.connection = some n.socket := by
  rw [NodeEntry.connection, active, isNode]
  rfl

theorem connection_of_listener (listens : n.isListener = true) : n.connection = none := by
  rw [NodeEntry.connection, listens, Bool.not_true, Bool.and_false]
  rfl

theorem connection_of_inactive (inactive : n.active = false) : n.connection = none := by
  rw [NodeEntry.connection, inactive]
  rfl

theorem connection_socket (held : n.connection = some fd) : n.socket = fd := by
  rw [NodeEntry.connection] at held
  obtain ⟨_,held⟩ := enabled held
  exact Option.some.inj held

theorem connection_active (held : n.connection = some fd) : n.active = true ∧ n.isListener = false := by
  rw [NodeEntry.connection] at held
  split at held
  · rename_i both
    rw [Bool.and_eq_true, Bool.not_eq_true'] at both
    exact both
  · cases held

theorem NodeEntry.Ok.inactive (ok : n.Ok) (inactive : n.active = false) : n.socket = -1 ∧ n.listener = -1 := by
  rw [NodeEntry.Ok, inactive] at ok
  exact ok

theorem NodeEntry.Ok.connected (ok : n.Ok) (active : n.active = true) (isNode : n.isListener = false) :
    0 ≤ n.socket ∧ n.listener = -1 := by
  rw [NodeEntry.Ok, active, isNode] at ok
  exact ok

theorem NodeEntry.Ok.listens (ok : n.Ok) (active : n.active = true) (isListener : n.isListener = true) :
    n.socket = -1 := by
  rw [NodeEntry.Ok, active, isListener] at ok
  exact ok

theorem connection_nonneg (ok : n.Ok) (held : n.connection = some fd) : 0 ≤ fd := by
  obtain ⟨active,isNode⟩ := connection_active held
  rw [← connection_socket held]
  exact (ok.connected active isNode).1

theorem NodeEntry.Ok.isConnection (ok : n.Ok) (active : n.active = true) (isOpen : 0 ≤ n.socket) :
    n.isListener = false := by
  cases listener : n.isListener with
  | false => rfl
  | true =>
    have closed := ok.listens active listener
    omega

section

variable {l : EventLoop}

theorem closeFd_invalid : closeFd l (-1) = l := if_neg (by decide)

theorem closeFd_unwatched (unwatched : 0 ≤ fd → fd ∉ l.poller.watched) : closeFd l fd = l := by
  unfold closeFd
  split
  · rename_i isOpen
    have same : l.poller.watched.filter (· ≠ fd) = l.poller.watched := by
      rw [filter_eq_self]
      intro c member
      rw [decide_eq_true_eq]
      rintro rfl
      exact unwatched isOpen member
    rw [EventLoop.close, IoPoller.close, same]
  · rfl

theorem foldl_closeFd_unwatched {fds : List Int} (unwatched : ∀ fd ∈ fds, 0 ≤ fd → fd ∉ l.poller.watched) :
    fds.foldl closeFd l = l := by
  induction fds with
  | nil => rfl
  | cons fd fds ih =>
    rw [foldl_cons, closeFd_unwatched (unwatched fd mem_cons_self)]
    exact ih fun c member => unwatched c (mem_cons_of_mem _ member)

end

section

variable {s' : State} {i : Nat} {entry : NodeEntry}

section

theorem collectTimeouts_none (none_ : ∀ n ∈ s.nodes, overdue cfg s.clock n = false) : collectTimeouts cfg s = s := by
  have nodes : s.nodes.map (fun n => if overdue cfg s.clock n then { n with socket := -1, active := false } else n) =
      s.nodes := by
    conv_rhs => rw [← map_id s.nodes]
    apply map_congr_left
    intro n member
    rw [none_ n member]
    rfl
  have filtered : s.nodes.filter (overdue cfg s.clock) = [] := by
    rw [filter_eq_nil_iff]
    intro n member
    rw [none_ n member]
    exact Bool.false_ne_true
  have count : s.nodes.countP (overdue cfg s.clock) = 0 := by
    rw [countP_eq_length_filter, filtered]
    rfl
  rw [collectTimeouts, nodes, filtered, count]
  rfl

variable (h : Watching cfg s)
include h

theorem Watching.keep (size : s'.nodes.length = s.nodes.length) (same : connections s'.nodes = connections s.nodes)
    (loop : s'.loop = s.loop) (entries : ∀ n ∈ s'.nodes, n.Ok)
    (apart : ∀ n ∈ s'.nodes, 0 ≤ n.listener → n.listener ∉ s.loop.poller.watched) (seen : ∀ r ∈ s'.results, 0 ≤ r.fd) :
    Watching cfg s' := by
  constructor
  case size => rw [size, h.size]
  case slots => rw [loop, h.slots]
  case occupied =>
    rw [loop, same]
    exact h.occupied
  case watched =>
    rw [loop, same]
    exact h.watched
  case nodup =>
    rw [same]
    exact h.nodup
  case foreign =>
    rw [same]
    exact h.foreign
  case entries => exact entries
  case apart =>
    rw [loop]
    exact apart
  case seen => exact seen

theorem Watching.replace (here : s.nodes[i]? = some n) (nodes : s'.nodes = s.nodes.set i entry)
    (same : entry.connection = n.connection) (loop : s'.loop = s.loop) (results : s'.results = s.results)
    (ok : entry.Ok) (apart : 0 ≤ entry.listener → entry.listener ∉ s.loop.poller.watched) : Watching cfg s' := by
  apply h.keep
  case size => rw [nodes, length_set]
  case same =>
    rw [nodes]
    exact filterMap_keep here same
  case loop => exact loop
  case entries =>
    rw [nodes]
    exact forall_mem_set h.entries ok
  case apart =>
    rw [nodes]
    exact forall_mem_set h.apart apart
  case seen =>
    rw [results]
    exact h.seen

theorem Watching.unplug (here : s.nodes[i]? = some n) (held : n.connection = some n.socket)
    (nodes : s'.nodes = s.nodes.set i entry) (gone : entry.connection = none) (ok : entry.Ok)
    (apart : entry.listener = -1) (loop : s'.loop = closeFd (s.loop.ignore (s.loop.removeFd n.socket)) n.socket)
    (results : s'.results = s.results) : Watching cfg s' := by
  have member : n.socket ∈ connections s.nodes := mem_filterMap.2 ⟨n,mem_of_getElem? here,held⟩
  have fewer : (connections s.nodes).Perm (n.socket :: connections s'.nodes) := by
    rw [nodes]
    exact filterMap_clear here held gone
  obtain ⟨l',removed,freed,size,rest⟩ :=
    removeFd_spec ((h.watched _).2 (.inr member)) (h.occupied.mem_iff.2 member)
  have unwatched : n.socket ∉ l'.poller.watched := by
    rw [rest, mem_remaining]
    exact fun both => both.2 rfl
  have after : s'.loop = l' := by
    rw [loop, removed]
    exact closeFd_unwatched fun _ => unwatched
  have nodup := nodup_cons.1 (fewer.nodup_iff.1 h.nodup)
  constructor
  case size => rw [nodes, length_set, h.size]
  case slots => rw [after, size, h.slots]
  case occupied =>
    rw [after]
    exact (freed.symm.trans (h.occupied.trans fewer)).cons_inv
  case watched =>
    intro fd
    rw [after, rest, mem_remaining, h.watched, fewer.mem_iff, mem_cons]
    constructor
    · rintro ⟨wake | same | other,ne⟩
      · exact .inl wake
      · exact absurd same ne
      · exact .inr other
    · rintro (rfl | other)
      · refine ⟨.inl rfl,?_⟩
        intro same
        have foreign := h.foreign
        rw [same] at foreign
        exact foreign member
      · refine ⟨.inr (.inr other),?_⟩
        rintro rfl
        exact nodup.1 other
  case nodup => exact nodup.2
  case foreign =>
    intro wake
    exact h.foreign (fewer.mem_iff.2 (mem_cons_of_mem _ wake))
  case entries =>
    rw [nodes]
    exact forall_mem_set h.entries ok
  case apart =>
    rw [nodes]
    refine forall_mem_set ?_ fun isOpen => by omega
    intro m found isOpen watched
    rw [after, rest, mem_remaining] at watched
    exact h.apart m found isOpen watched.1
  case seen =>
    rw [results]
    exact h.seen

theorem Watching.createListener {opened : Option Int} (fresh : ∀ fd ∈ opened, Fresh cfg s fd) :
    Watching cfg (createListener opened s).2 := by
  unfold Nodes.createListener
  split
  · exact h
  · rename_i i found
    obtain ⟨slot,here,inactive⟩ := findSlot_found found
    have closed := (h.entries slot (mem_of_getElem? here)).inactive inactive
    rw [here]
    cases opened with
    | none => exact h
    | some fd =>
      obtain ⟨_,notWake,unused⟩ := fresh fd rfl
      apply h.replace here rfl
      case same => rw [connection_of_inactive inactive, connection_of_listener rfl]
      case loop =>
        change closeFd s.loop slot.listener = s.loop
        rw [closed.2, closeFd_invalid]
      case results => rfl
      case ok => exact closed.1
      case apart =>
        intro _ watched
        rcases (h.watched fd).1 watched with wake | connection
        · exact notWake wake
        · obtain ⟨n,member,held⟩ := mem_filterMap.1 connection
          exact (unused n member).1 (connection_socket held)

theorem Watching.connect (fresh : Fresh cfg s fd) (found : findSlot s.nodes = some i) :
    (connect (some fd) true s).1 = .ok s.nextNodeId ∧ Watching cfg (connect (some fd) true s).2 ∧
      fd ∈ (connect (some fd) true s).2.loop.occupied ∧ fd ∈ (connect (some fd) true s).2.loop.poller.watched := by
  obtain ⟨slot,here,inactive⟩ := findSlot_found found
  obtain ⟨isOpen,notWake,unused⟩ := fresh
  have closed := (h.entries slot (mem_of_getElem? here)).inactive inactive
  have new : fd ∉ connections s.nodes := by
    intro connection
    obtain ⟨n,member,held⟩ := mem_filterMap.1 connection
    exact (unused n member).1 (connection_socket held)
  have unwatched : fd ∉ s.loop.poller.watched := by
    rw [h.watched]
    rintro (wake | connection)
    · exact notWake wake
    · exact new connection
  have room : s.loop.occupied.length < s.loop.fds.length := by
    have fewer : (connections s.nodes).length < s.nodes.length :=
      filterMap_length_lt here (connection_of_inactive inactive)
    rw [h.occupied.length_eq, h.slots, ← h.size]
    omega
  obtain ⟨l',added,filled,size,list⟩ := addFd_spec s.nextNodeId room unwatched
  obtain ⟨entry,result,ok,closes,held⟩ : ∃ entry, Nodes.connect (some fd) true s = (.ok s.nextNodeId, s.place i entry l') ∧
      entry.Ok ∧ entry.listener = -1 ∧ entry.connection = some fd := by
    simp only [Nodes.connect, found, here, closed.1, closeFd_invalid, allocNodeId, added, EventLoop.ignore]
    exact ⟨_,rfl,⟨isOpen,closed.2⟩,closed.2,rfl⟩
  rw [result]
  have more : (connections (s.nodes.set i entry)).Perm (fd :: connections s.nodes) :=
    filterMap_fill here (connection_of_inactive inactive) held
  refine ⟨rfl,?_,filled.mem_iff.2 mem_cons_self,?_⟩
  · constructor
    case size => exact length_set.trans h.size
    case slots => exact size.trans h.slots
    case occupied => exact filled.trans ((h.occupied.cons fd).trans more.symm)
    case watched =>
      intro c
      change c ∈ l'.poller.watched ↔ c = cfg.wakeFd ∨ c ∈ connections (s.nodes.set i _)
      rw [list, more.mem_iff, mem_cons, mem_cons, h.watched]
      exact or_left_comm
    case nodup => exact more.nodup_iff.2 (nodup_cons.2 ⟨new,h.nodup⟩)
    case foreign =>
      change cfg.wakeFd ∉ connections (s.nodes.set i _)
      rw [more.mem_iff, mem_cons, not_or]
      exact ⟨fun same => notWake same.symm,h.foreign⟩
    case entries => exact forall_mem_set h.entries ok
    case apart =>
      refine forall_mem_set ?_ fun listens => by omega
      intro n old listens watched
      change n.listener ∈ l'.poller.watched at watched
      rw [list, mem_cons] at watched
      rcases watched with same | before
      · exact (unused n old).2 same
      · exact h.apart n old listens before
    case seen => exact h.seen
  · change fd ∈ l'.poller.watched
    rw [list]
    exact mem_cons_self

theorem Watching.disconnect (id : Nat) : Watching cfg (disconnect id s).2 := by
  unfold Nodes.disconnect
  split
  · exact h
  · rename_i i found
    obtain ⟨n,here,active,_⟩ := findNode_found found
    simp only [here]
    have ok := h.entries n (mem_of_getElem? here)
    cases listener : n.isListener with
    | true =>
      have socket := ok.listens active listener
      have shut : n.shut = { n with listener := -1, active := false } := if_pos listener
      apply h.replace here rfl
      case same => rw [shut, connection_of_inactive rfl, connection_of_listener listener]
      case loop =>
        change (if n.isListener = true then _ else _) = s.loop
        rw [if_pos listener]
        exact closeFd_unwatched (h.apart n (mem_of_getElem? here))
      case results => rfl
      case ok =>
        rw [shut]
        exact ⟨socket,rfl⟩
      case apart =>
        rw [shut]
        exact nofun
    | false =>
      have shut : n.shut = { n with socket := -1, active := false } :=
        if_neg (by rw [listener]; exact Bool.false_ne_true)
      have listens := (ok.connected active listener).2
      apply h.unplug here (connection_of_active active listener) rfl
      case gone => rw [shut, connection_of_inactive rfl]
      case ok =>
        rw [shut]
        exact ⟨rfl,listens⟩
      case apart =>
        rw [shut]
        exact listens
      case loop =>
        change (if n.isListener = true then _ else _) = _
        rw [if_neg (by rw [listener]; exact Bool.false_ne_true)]
      case results => rfl

theorem Watching.refresh (nodeId : Nat) (fd : Int) (timestamp : Nat) :
    Watching cfg (s.refresh nodeId fd timestamp) := by
  unfold State.refresh
  split
  · exact h
  · rename_i i n found
    have here := (ownerOf_found found).1
    have member := mem_of_getElem? here
    exact h.replace here rfl rfl rfl rfl (h.entries n member) (h.apart n member)

theorem Watching.disconnectByNodeId (nodeId : Nat) (isOpen : 0 ≤ fd) :
    Watching cfg (disconnectByNodeId nodeId fd s) := by
  unfold Nodes.disconnectByNodeId
  split
  · exact h
  · rename_i i n found
    obtain ⟨here,active,_,rfl⟩ := ownerOf_found found
    have ok := h.entries n (mem_of_getElem? here)
    have isNode := ok.isConnection active isOpen
    have listens := (ok.connected active isNode).2
    exact h.unplug here (connection_of_active active isNode) rfl (connection_of_inactive rfl) ⟨rfl,listens⟩ listens rfl
      rfl

theorem Watching.onFd {r : PollResult} (isOpen : 0 ≤ r.fd) (answer : Received) : Watching cfg (onFd r answer s) := by
  simp only [Nodes.onFd]
  split
  · exact h
  · cases answer with
    | data => exact h.refresh ..
    | closed | failed => exact h.disconnectByNodeId _ isOpen
    | again => exact h

theorem Watching.stop (none_ : ∀ n ∈ s.nodes, n.active = true → n.isListener = true) : Watching cfg (stop s) := by
  have idle : ∀ n ∈ s.nodes, n.connection = none := by
    intro n member
    cases active : n.active with
    | false => exact connection_of_inactive active
    | true => exact connection_of_listener (none_ n member active)
  have gone : ∀ n ∈ (Nodes.stop s).nodes, n.active = false ∧ n.Ok := by
    intro m member
    obtain ⟨n,old,rfl⟩ := mem_map.1 member
    split
    · rename_i active
      have listens := none_ n old active
      have shut : n.shut = { n with listener := -1, active := false } := if_pos listens
      rw [shut]
      exact ⟨rfl,(h.entries n old).listens active listens,rfl⟩
    · rename_i inactive
      rw [Bool.not_eq_true] at inactive
      exact ⟨inactive,h.entries n old⟩
  apply h.keep
  case size => exact length_map _
  case same =>
    have before : connections s.nodes = [] := filterMap_eq_nil_iff.2 idle
    rw [before]
    exact filterMap_eq_nil_iff.2 fun n member => connection_of_inactive (gone n member).1
  case loop =>
    apply foldl_closeFd_unwatched
    intro fd member
    obtain ⟨n,old,held⟩ := mem_flatMap.1 member
    rw [NodeEntry.fds] at held
    split at held
    · rename_i active
      rw [if_pos (none_ n old active), mem_singleton] at held
      rw [held]
      exact h.apart n old
    · exact absurd held not_mem_nil
  case entries => exact fun n member => (gone n member).2
  case apart =>
    intro n member isOpen
    have closed := ((gone n member).2.inactive (gone n member).1).2
    omega
  case seen => exact h.seen

theorem Watching.round (round : Round) : Watching cfg { s with round } :=
  ⟨h.size, h.slots, h.occupied, h.watched, h.nodup, h.foreign, h.entries, h.apart, h.seen⟩

theorem Watching.heartbeatOnce (none_ : s.round = .sending [] → ∀ n ∈ s.nodes, overdue cfg s.clock n = false)
    (sent : Bool) : Watching cfg (heartbeatOnce cfg sent s) := by
  unfold Nodes.heartbeatOnce
  split
  · exact h.round _
  · split
    · exact h.round _
    · exact h.round _
  · exact (h.refresh ..).round _
  · rename_i due
    rw [collectTimeouts_none (none_ due)]
    exact h.round _

end

/-- Every intact step keeps the table in step. -/
theorem next_watching {a : Act} (h : Watching cfg s) (guard : Intact cfg s a) (step : next cfg a s = some s') :
    Watching cfg s' := by
  cases a <;> simp only [next] at step
  case createListener opened =>
    obtain ⟨_,⟨⟩⟩ := enabled step
    exact h.createListener ‹_›
  case connect opened accepted =>
    change accepted = true at guard
    subst guard
    obtain ⟨fresh,⟨⟩⟩ := enabled step
    cases found : findSlot s.nodes with
    | none =>
      simp only [Nodes.connect, found]
      exact h
    | some i =>
      cases opened with
      | none =>
        simp only [Nodes.connect, found]
        exact h
      | some fd => exact (h.connect (fresh fd rfl) found).2.1
  case disconnect nodeId =>
    cases step
    exact h.disconnect nodeId
  case start started =>
    cases step
    unfold start
    split
    · exact h
    · split
      · exact h.keep rfl rfl rfl h.entries h.apart h.seen
      · exact h
  case stop =>
    cases step
    exact h.stop guard
  case tick now =>
    obtain ⟨_,⟨⟩⟩ := enabled step
    exact h.keep rfl rfl rfl h.entries h.apart h.seen
  case wait ready =>
    obtain ⟨enabled,⟨⟩⟩ := enabled step
    refine h.keep rfl rfl rfl h.entries h.apart ?_
    intro r member
    obtain ⟨ready,monitored,rfl⟩ := mem_map.1 member
    rcases (h.watched _).1 (enabled.2 ready monitored) with wake | connection
    · rw [wake]
      exact cfg.wakes
    · obtain ⟨n,old,held⟩ := mem_filterMap.1 connection
      exact connection_nonneg (h.entries n old) held
  case onFd answer =>
    split at step
    · cases step
    · rename_i r rest results
      have first : 0 ≤ r.fd := h.seen r (by rw [results]; exact mem_cons_self)
      have later : ∀ r ∈ rest, 0 ≤ r.fd := fun q member => h.seen q (by rw [results]; exact mem_cons_of_mem _ member)
      split at step
      · cases step
        exact h.keep rfl rfl rfl h.entries h.apart later
      · cases step
        have handled := h.onFd first answer
        exact handled.keep rfl rfl rfl handled.entries handled.apart later
  case heartbeat sent =>
    cases step
    exact h.heartbeatOnce guard sent

theorem init_watching : Watching cfg (machine cfg).init := by
  have none_ : connections (machine cfg).init.nodes = [] := by
    apply filterMap_eq_nil_iff.2
    intro n member
    rw [eq_of_mem_replicate member]
    rfl
  have empty : (machine cfg).init.loop.occupied = [] := by
    apply filterMap_eq_nil_iff.2
    intro slot member
    rw [eq_of_mem_replicate member]
    rfl
  constructor
  case size => exact length_replicate
  case slots => exact length_replicate
  case occupied => rw [none_, empty]
  case watched =>
    intro fd
    rw [none_]
    exact ⟨fun member => .inl (mem_singleton.1 member),fun found =>
      mem_singleton.2 (found.resolve_right not_mem_nil)⟩
  case nodup =>
    rw [none_]
    exact nodup_nil
  case foreign =>
    rw [none_]
    exact not_mem_nil
  case entries =>
    intro n member
    rw [eq_of_mem_replicate member]
    exact ⟨rfl,rfl⟩
  case apart =>
    intro n member isOpen
    rw [eq_of_mem_replicate member] at isOpen
    cases isOpen
  case seen => exact fun r member => absurd member not_mem_nil

end

/-- The loop's table has the descriptors of the connections, each once, and a `Connect` with a free node slot gets its
socket monitored. -/
structure Monitored (cfg : NodeConfig) (s : State) : Prop where
  exact_ : ∀ fd, fd ∈ s.loop.occupied ↔ ∃ n ∈ s.nodes, n.active = true ∧ n.isListener = false ∧ n.socket = fd
  once : s.loop.occupied.Nodup
  connects : ∀ fd i, Fresh cfg s fd → findSlot s.nodes = some i →
    (connect (some fd) true s).1 = .ok s.nextNodeId ∧ fd ∈ (connect (some fd) true s).2.loop.occupied ∧
      fd ∈ (connect (some fd) true s).2.loop.poller.watched

/-- **The table of the loop is in step with the connections** in every run without timeouts whose `Stop`s find no
connection. -/
theorem table_in_step (h : Reach (machine cfg) (Intact cfg) s) : Monitored cfg s := by
  have watching : Watching cfg s := by
    apply h.invariant
    case base => exact init_watching
    case keep =>
      intro s s' a _ before guard step
      exact next_watching before guard step
  constructor
  case exact_ =>
    intro fd
    rw [watching.occupied.mem_iff]
    constructor
    · intro connection
      obtain ⟨n,member,held⟩ := mem_filterMap.1 connection
      obtain ⟨active,isNode⟩ := connection_active held
      exact ⟨n,member,active,isNode,connection_socket held⟩
    · rintro ⟨n,member,active,isNode,rfl⟩
      exact mem_filterMap.2 ⟨n,member,connection_of_active active isNode⟩
  case once => exact watching.occupied.nodup_iff.2 watching.nodup
  case connects =>
    intro fd i fresh found
    obtain ⟨ok,_,slot,listed⟩ := watching.connect fresh found
    exact ⟨ok,slot,listed⟩

instance (cfg : NodeConfig) (s : State) (a : Act) : Decidable (Intact cfg s a) := by
  unfold Intact
  split <;> infer_instance

/-- A listener and two connections, one of which its peer closes; its slot goes to a third. -/
def reconnected : List Act :=
  [.start true, .createListener (some 5), .connect (some 6) true, .connect (some 7) true, .heartbeat true,
    .wait [(6, kReadable)], .onFd .closed, .connect (some 6) true, .tick 1000000, .heartbeat true, .heartbeat true]

theorem table_in_step_reconnected : ∃ s, Reach (machine (threeSeconds 3)) (Intact (threeSeconds 3)) s ∧
    s.loop.occupied = [6, 7] ∧ s.nextNodeId = 5 ∧ Monitored (threeSeconds 3) s := by
  obtain ⟨s,reached,occupied,id⟩ := reach_of_decided (machine (threeSeconds 3))
      (Intact (threeSeconds 3)) reconnected
      (fun s => s.loop.occupied = [6, 7] ∧ s.nextNodeId = 5) (by decide +kernel)
  exact ⟨s,reached,occupied,id,table_in_step reached⟩

def timedOut (fd : Int) (now : Nat) : List Act :=
  [.connect (some fd) true, .tick now, .heartbeat true, .heartbeat false, .heartbeat true]

/-- With one node, two timeouts fill the table of the loop; the next `Connect` reports success, and its socket is not
monitored. -/
theorem table_leaks : ∃ s, Reach (machine (threeSeconds 1)) anyStep s ∧ s.loop.occupied = [5, 5] ∧
    connections s.nodes = [] ∧ findSlot s.nodes = some 0 ∧ Fresh (threeSeconds 1) s 5 ∧
    (connect (some 5) true s).1.toOption = some 3 ∧ 5 ∉ (connect (some 5) true s).2.loop.poller.watched := by
  exact reach_of_schedule (machine (threeSeconds 1)) ([.start true] ++ timedOut 5 4000000 ++ timedOut 5 8000000) _
    (by decide +kernel)

end Newosp.Nodes
