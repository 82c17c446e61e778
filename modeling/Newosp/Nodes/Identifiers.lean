import Newosp.Nodes.Manager

/-!
# The ids of the nodes

The ids are handed out in turn from 1 to 65535 and then again from 1, so as long as no node lives through that many
creations, an id finds the node it was returned for. A listener that lives longer shares its id with a later connection.
-/

namespace Newosp.Nodes
open Lib List

variable {n : NodeEntry} {cfg : NodeConfig} {s : State} {i : Nat} {opened : Option Int}
  {r : Except NodeManagerError Nat × State}

/-- The id that the creation number `k` returns. -/
def idOf (k : Nat) : Nat := k % 65535 + 1

def NodeEntry.creation (n : NodeEntry) : Option Nat := if n.active then some n.serial else none

def NodeEntry.activeId (n : NodeEntry) : Option Nat := if n.active then some n.nodeId else none

def creations (nodes : List NodeEntry) : List Nat := nodes.filterMap NodeEntry.creation

def activeIds (nodes : List NodeEntry) : List Nat := nodes.filterMap NodeEntry.activeId

/-- The ids tell the creations apart. -/
structure Numbered (s : State) : Prop where
  counter : s.nextNodeId = idOf s.created
  named : ∀ n ∈ s.nodes, n.active = true → n.nodeId = idOf n.serial
  past : ∀ n ∈ s.nodes, n.active = true → n.serial < s.created
  near : ∀ n ∈ s.nodes, n.active = true → s.created ≤ n.serial + 65535
  nodup : (creations s.nodes).Nodup

/-- When a node is created, the active ones are among the last 65534 that were created before it. -/
def Young (s : State) : Act → Prop
  | .createListener (some _) | .connect (some _) _ => (findSlot s.nodes).isSome = true →
      ∀ n ∈ s.nodes, n.active = true → s.created < n.serial + 65535
  | _ => True

theorem idOf_pos (k : Nat) : idOf k ≠ 0 := Nat.succ_ne_zero _

theorem idOf_injective {j k c : Nat} (jPast : j < c) (jNear : c ≤ j + 65535) (kPast : k < c) (kNear : c ≤ k + 65535)
    (same : idOf j = idOf k) : j = k := by
  unfold idOf at same
  omega

theorem allocNodeId_idOf (k : Nat) : allocNodeId (idOf k) = (idOf k, idOf (k + 1)) := by
  have now : idOf k = k % 65535 + 1 := rfl
  have after : idOf (k + 1) = (k + 1) % 65535 + 1 := rfl
  simp only [allocNodeId, Prod.mk.injEq, true_and]
  by_cases wraps : (idOf k + 1) % 65536 = 0
  · rw [if_pos wraps]
    omega
  · rw [if_neg wraps]
    omega

section

variable {old new : List NodeEntry} {nodes : List NodeEntry}

theorem creation_of_active (active : n.active = true) : n.creation = some n.serial := if_pos active

theorem creation_of_inactive (inactive : n.active = false) : n.creation = none := by
  rw [NodeEntry.creation, inactive]
  rfl

def Lasts (old new : NodeEntry) : Prop :=
  new.active = true → old.active = true ∧ new.nodeId = old.nodeId ∧ new.serial = old.serial

theorem Lasts.rfl' (n : NodeEntry) : Lasts n n := fun active => ⟨active, rfl, rfl⟩

theorem Lasts.creations_sublist (lasts : List.Forall₂ Lasts old new) : (creations new).Sublist (creations old) := by
  induction lasts with
  | nil => exact .slnil
  | @cons a b old new head tail ih =>
    unfold creations at ih ⊢
    cases active : b.active with
    | false =>
      rw [filterMap_cons_none (creation_of_inactive active)]
      apply ih.trans
      rw [← singleton_append, filterMap_append]
      exact sublist_append_right ..
    | true =>
      obtain ⟨was,_,same⟩ := head active
      rw [filterMap_cons_some (creation_of_active active), filterMap_cons_some (creation_of_active was), same]
      exact ih.cons_cons _

theorem Lasts.set {entry : NodeEntry} (here : nodes[i]? = some n)
    (lasts : Lasts n entry) : List.Forall₂ Lasts nodes (nodes.set i entry) := by
  induction nodes generalizing i with
  | nil => exact .nil
  | cons a nodes ih =>
    cases i with
    | zero =>
      cases here
      exact .cons lasts (forall₂_same.2 fun m _ => Lasts.rfl' m)
    | succ i => exact .cons (Lasts.rfl' a) (ih here)

theorem Lasts.map {f : NodeEntry → NodeEntry} (lasts : ∀ n, Lasts n (f n)) :
    List.Forall₂ Lasts nodes (nodes.map f) := by
  rw [forall₂_map_right_iff, forall₂_same]
  exact fun n _ => lasts n

theorem Lasts.mem (lasts : List.Forall₂ Lasts old new) {m : NodeEntry} (member : m ∈ new) : ∃ n ∈ old, Lasts n m := by
  induction lasts with
  | nil => exact absurd member not_mem_nil
  | cons head tail ih =>
    rcases mem_cons.1 member with rfl | later
    · exact ⟨_,mem_cons_self,head⟩
    · obtain ⟨n,found,rest⟩ := ih later
      exact ⟨n,mem_cons_of_mem _ found,rest⟩

end

section

variable {s' : State} {entry : NodeEntry}

section

variable (h : Numbered s) (counter : s'.nextNodeId = s.nextNodeId) (created : s'.created = s.created)
include h counter created

theorem Numbered.keep (lasts : List.Forall₂ Lasts s.nodes s'.nodes) : Numbered s' := by
  -- an active node has the id and the number of one that was active
  have old (p : Nat → Nat → Prop) (was : ∀ n ∈ s.nodes, n.active = true → p n.nodeId n.serial) :
      ∀ m ∈ s'.nodes, m.active = true → p m.nodeId m.serial := by
    intro m member active
    obtain ⟨n,found,rest⟩ := Lasts.mem lasts member
    obtain ⟨live,id,serial⟩ := rest active
    rw [id, serial]
    exact was n found live
  constructor
  case counter => rw [counter, created, h.counter]
  case named => exact old (fun id k => id = idOf k) h.named
  case past =>
    rw [created]
    exact old (fun _ k => k < s.created) h.past
  case near =>
    rw [created]
    exact old (fun _ k => s.created ≤ k + 65535) h.near
  case nodup => exact (Lasts.creations_sublist lasts).nodup h.nodup

theorem Numbered.same (nodes : s'.nodes = s.nodes) : Numbered s' := by
  apply h.keep counter created
  rw [nodes]
  exact forall₂_same.2 fun n _ => Lasts.rfl' n

end

theorem Numbered.place (h : Numbered s) (young : ∀ n ∈ s.nodes, n.active = true → s.created < n.serial + 65535)
    (here : s.nodes[i]? = some n) (inactive : n.active = false) (active : entry.active = true)
    (id : entry.nodeId = s.nextNodeId) (serial : entry.serial = s.created) (loop : EventLoop) :
    Numbered (s.place i entry loop) := by
  have more : (creations (s.nodes.set i entry)).Perm (s.created :: creations s.nodes) := by
    rw [← serial]
    exact filterMap_fill here (creation_of_inactive inactive) (creation_of_active active)
  have new : s.created ∉ creations s.nodes := by
    intro member
    obtain ⟨m,found,created⟩ := mem_filterMap.1 member
    rw [NodeEntry.creation] at created
    split at created
    · rename_i live
      have past := h.past m found live
      rw [Option.some.inj created] at past
      exact lt_irrefl _ past
    · cases created
  constructor
  case counter =>
    change (allocNodeId s.nextNodeId).2 = idOf (s.created + 1)
    rw [h.counter, allocNodeId_idOf]
  case named => exact forall_mem_set h.named fun _ => by rw [id, serial, h.counter]
  case past =>
    refine forall_mem_set (fun m old live => Nat.lt_succ_of_lt (h.past m old live)) fun _ => ?_
    rw [serial]
    exact Nat.lt_succ_self _
  case near =>
    refine forall_mem_set young fun _ => ?_
    change s.created + 1 ≤ entry.serial + 65535
    omega
  case nodup => exact more.nodup_iff.2 (nodup_cons.2 ⟨new,h.nodup⟩)

theorem refresh_lasts (nodeId : Nat) (fd : Int) (timestamp : Nat) :
    List.Forall₂ Lasts s.nodes (s.refresh nodeId fd timestamp).nodes ∧
      (s.refresh nodeId fd timestamp).nextNodeId = s.nextNodeId ∧
      (s.refresh nodeId fd timestamp).created = s.created := by
  unfold State.refresh
  split
  · exact ⟨forall₂_same.2 fun n _ => Lasts.rfl' n,rfl,rfl⟩
  · rename_i i n found
    exact ⟨Lasts.set (ownerOf_found found).1 fun active => ⟨active,rfl,rfl⟩,rfl,rfl⟩

theorem Numbered.refresh (h : Numbered s) (nodeId : Nat) (fd : Int) (timestamp : Nat) :
    Numbered (s.refresh nodeId fd timestamp) := by
  obtain ⟨lasts,counter,created⟩ := refresh_lasts (s := s) nodeId fd timestamp
  exact h.keep counter created lasts

theorem Numbered.disconnectByNodeId (h : Numbered s) (nodeId : Nat) (fd : Int) :
    Numbered (disconnectByNodeId nodeId fd s) := by
  unfold Nodes.disconnectByNodeId
  split
  · exact h
  · rename_i i n found
    exact h.keep rfl rfl (Lasts.set (ownerOf_found found).1 nofun)

theorem shut_inactive (n : NodeEntry) : n.shut.active = false := by
  unfold NodeEntry.shut
  split <;> rfl

theorem Lasts.gone {new : NodeEntry} (inactive : new.active = false) : Lasts n new := by
  intro active
  rw [inactive] at active
  cases active

/-- A call fails and changes nothing, or creates a node with the next id in the first free slot and returns the id. -/
def Creates (s : State) (opened : Option Int) (r : Except NodeManagerError Nat × State) : Prop :=
  (∃ e, r = (.error e, s)) ∨ ∃ i n entry loop, opened.isSome = true ∧ findSlot s.nodes = some i ∧
    s.nodes[i]? = some n ∧ n.active = false ∧ entry.active = true ∧ entry.nodeId = s.nextNodeId ∧
    entry.serial = s.created ∧ r = (.ok s.nextNodeId, s.place i entry loop)

theorem createListener_creates (opened : Option Int) (s : State) : Creates s opened (createListener opened s) := by
  cases found : findSlot s.nodes with
  | none =>
    refine .inl ⟨.tableFull,?_⟩
    simp only [createListener, found]
  | some i =>
    obtain ⟨n,here,inactive⟩ := findSlot_found found
    cases opened with
    | none =>
      refine .inl ⟨.bindFailed,?_⟩
      simp only [createListener, found]
    | some fd =>
      refine .inr ⟨i,n,{ n with
        nodeId := s.nextNodeId, listener := fd, lastHeartbeatUs := s.clock, active := true, isListener := true,
        serial := s.created }, closeFd s.loop n.listener, rfl, found, here, inactive, rfl, rfl, rfl, ?_⟩
      simp only [createListener, found, here, allocNodeId]

theorem connect_creates (opened : Option Int) (accepted : Bool) (s : State) :
    Creates s opened (connect opened accepted s) := by
  cases found : findSlot s.nodes with
  | none =>
    refine .inl ⟨.tableFull,?_⟩
    simp only [connect, found]
  | some i =>
    obtain ⟨n,here,inactive⟩ := findSlot_found found
    cases opened with
    | none =>
      refine .inl ⟨.connectionFailed,?_⟩
      simp only [connect, found]
    | some fd =>
      let loop := closeFd s.loop n.socket
      refine .inr ⟨i,n,{ n with
        nodeId := s.nextNodeId, socket := fd, lastHeartbeatUs := s.clock, active := true, isListener := false,
        serial := s.created }, loop.ignore (loop.addFd fd s.nextNodeId accepted), rfl, found, here, inactive, rfl, rfl,
        rfl, ?_⟩
      simp only [connect, found, here, allocNodeId, loop]

theorem Numbered.creates (h : Numbered s)
    (creates : Creates s opened r) (young : opened.isSome = true → (findSlot s.nodes).isSome = true →
      ∀ n ∈ s.nodes, n.active = true → s.created < n.serial + 65535) : Numbered r.2 := by
  rcases creates with ⟨e,rfl⟩ | ⟨i,n,entry,loop,got,found,here,inactive,active,id,serial,rfl⟩
  · exact h
  · exact h.place (young got (by rw [found]; rfl)) here inactive active id serial loop

theorem Numbered.collectTimeouts (h : Numbered s) : Numbered (collectTimeouts cfg s) := by
  refine h.keep rfl rfl ?_
  apply Lasts.map
  intro n
  split
  · exact Lasts.gone rfl
  · exact Lasts.rfl' n

/-- Every young step keeps the ids apart. -/
theorem next_numbered {a : Act} (h : Numbered s) (guard : Young s a) (step : next cfg a s = some s') : Numbered s' := by
  cases a <;> simp only [next] at step
  case createListener opened =>
    obtain ⟨_,⟨⟩⟩ := enabled step
    refine h.creates (createListener_creates opened s) ?_
    intro got
    obtain ⟨fd,rfl⟩ := Option.isSome_iff_exists.1 got
    exact guard
  case connect opened accepted =>
    obtain ⟨_,⟨⟩⟩ := enabled step
    refine h.creates (connect_creates opened accepted s) ?_
    intro got
    obtain ⟨fd,rfl⟩ := Option.isSome_iff_exists.1 got
    exact guard
  case disconnect nodeId =>
    cases step
    unfold disconnect
    split
    · exact h
    · split
      · exact h
      · rename_i here
        exact h.keep rfl rfl (Lasts.set here (Lasts.gone (shut_inactive _)))
  case start started =>
    cases step
    unfold start
    split
    · exact h
    · split
      · exact h.same rfl rfl rfl
      · exact h
  case stop =>
    cases step
    refine h.keep rfl rfl ?_
    apply Lasts.map
    intro n
    split
    · exact Lasts.gone (shut_inactive n)
    · exact Lasts.rfl' n
  case tick | wait =>
    obtain ⟨_,⟨⟩⟩ := enabled step
    exact h.same rfl rfl rfl
  case onFd answer =>
    split at step
    · cases step
    · rename_i r rest _
      split at step
      · cases step
        exact h.same rfl rfl rfl
      · cases step
        have handled : Numbered (onFd r answer s) := by
          simp only [onFd]
          split
          · exact h
          · cases answer with
            | data => exact h.refresh ..
            | closed | failed => exact h.disconnectByNodeId ..
            | again => exact h
        exact handled.same rfl rfl rfl
  case heartbeat sent =>
    cases step
    unfold heartbeatOnce
    split
    · exact h.same rfl rfl rfl
    · split <;> exact h.same rfl rfl rfl
    · exact (h.refresh ..).same rfl rfl rfl
    · exact h.collectTimeouts.same rfl rfl rfl

theorem init_numbered : Numbered (machine cfg).init := by
  have inactive : ∀ n ∈ (machine cfg).init.nodes, n.active = false := by
    intro n member
    rw [eq_of_mem_replicate member]
    rfl
  have none_ {p : NodeEntry → Prop} : ∀ n ∈ (machine cfg).init.nodes, n.active = true → p n := by
    intro n member active
    cases (inactive n member).symm.trans active
  refine ⟨rfl,none_,none_,none_,?_⟩
  · have nothing : creations (machine cfg).init.nodes = [] :=
      filterMap_eq_nil_iff.2 fun n member => creation_of_inactive (inactive n member)
    rw [nothing]
    exact nodup_nil

end

section

variable {k : Nat}

theorem Numbered.activeIds_eq (h : Numbered s) : activeIds s.nodes = (creations s.nodes).map idOf := by
  rw [activeIds, creations, map_filterMap]
  apply filterMap_congr
  intro n member
  cases active : n.active with
  | true =>
    rw [creation_of_active active, NodeEntry.activeId, if_pos active, h.named n member active]
    rfl
  | false =>
    rw [creation_of_inactive active, NodeEntry.activeId, active]
    rfl

theorem mem_creations : k ∈ creations s.nodes ↔ ∃ n ∈ s.nodes, n.active = true ∧ n.serial = k := by
  rw [creations, mem_filterMap]
  constructor
  · rintro ⟨n,member,created⟩
    rw [NodeEntry.creation] at created
    obtain ⟨_,created⟩ := enabled created
    exact ⟨n,member,‹_›,Option.some.inj created⟩
  · rintro ⟨n,member,active,rfl⟩
    exact ⟨n,member,creation_of_active active⟩

theorem Numbered.nodup_ids (h : Numbered s) : (activeIds s.nodes).Nodup := by
  rw [h.activeIds_eq]
  apply List.Nodup.map_on _ h.nodup
  intro j jHere k kHere
  obtain ⟨n,member,active,rfl⟩ := mem_creations.1 jHere
  obtain ⟨m,member',active',rfl⟩ := mem_creations.1 kHere
  exact idOf_injective (h.past n member active) (h.near n member active) (h.past m member' active')
    (h.near m member' active')

theorem Numbered.findNode (h : Numbered s) (past : k < s.created) (near : s.created ≤ k + 65535)
    (here : s.nodes[i]? = some n) (active : n.active = true) (serial : n.serial = k) :
    findNode s.nodes (idOf k) = some i := by
  have member := mem_of_getElem? here
  have named : n.nodeId = idOf k := by rw [h.named n member active, serial]
  cases found : Nodes.findNode s.nodes (idOf k) with
  | none =>
    have misses := findIdx?_eq_none_iff.1 found n member
    rw [active, named, decide_eq_true rfl] at misses
    cases misses
  | some j =>
    obtain ⟨m,there,live,same⟩ := findNode_found found
    have member' := mem_of_getElem? there
    rw [h.named m member' live] at same
    have equal := idOf_injective (h.past m member' live) (h.near m member' live) past near same
    have slot := filterMap_index h.nodup there here (creation_of_active live)
      (by rw [creation_of_active active, serial, equal])
    rw [slot]

theorem Numbered.findNode_none (h : Numbered s) (past : k < s.created) (near : s.created ≤ k + 65535)
    (gone : ¬ ∃ n ∈ s.nodes, n.active = true ∧ n.serial = k) : Nodes.findNode s.nodes (idOf k) = none := by
  cases found : Nodes.findNode s.nodes (idOf k) with
  | none => rfl
  | some j =>
    obtain ⟨m,there,live,same⟩ := findNode_found found
    have member := mem_of_getElem? there
    rw [h.named m member live] at same
    have equal := idOf_injective (h.past m member live) (h.near m member live) past near same
    exact absurd ⟨m,member,live,equal⟩ gone

end

/-- The ids of the active nodes are distinct and not zero. With fewer than 65535 creations after it, the id `idOf k`
stands for the node that creation `k` made: `IsConnected` says whether it is active, and `Disconnect` shuts it down or
finds none. -/
structure Identified (s : State) : Prop where
  distinct : (activeIds s.nodes).Nodup
  nonzero : ∀ id ∈ activeIds s.nodes, id ≠ 0
  listens : ∀ opened id, (createListener opened s).1 = .ok id → id = idOf s.created ∧
    s.created ∈ creations (createListener opened s).2.nodes
  connects : ∀ opened accepted id, (connect opened accepted s).1 = .ok id → id = idOf s.created ∧
    s.created ∈ creations (connect opened accepted s).2.nodes
  connected : ∀ k < s.created, s.created ≤ k + 65535 →
    (isConnected (idOf k) s = true ↔ ∃ n ∈ s.nodes, n.active = true ∧ n.serial = k)
  disconnects : ∀ k < s.created, s.created ≤ k + 65535 → ∀ i n, s.nodes[i]? = some n → n.active = true →
    n.serial = k → disconnect (idOf k) s = (.ok (), s.drop i n)
  gone : ∀ k < s.created, s.created ≤ k + 65535 → (¬ ∃ n ∈ s.nodes, n.active = true ∧ n.serial = k) →
    disconnect (idOf k) s = (.error .notFound, s)

theorem Numbered.returned (h : Numbered s) (creates : Creates s opened r) {id : Nat} (ok : r.1 = .ok id) :
    id = idOf s.created ∧ s.created ∈ creations r.2.nodes := by
  rcases creates with ⟨e,rfl⟩ | ⟨i,n,entry,loop,_,_,here,inactive,active,_,serial,rfl⟩
  · cases ok
  · cases ok
    refine ⟨h.counter,?_⟩
    have more : (creations (s.nodes.set i entry)).Perm (entry.serial :: creations s.nodes) :=
      filterMap_fill here (creation_of_inactive inactive) (creation_of_active active)
    rw [← serial]
    exact more.mem_iff.2 mem_cons_self

theorem Numbered.identified (h : Numbered s) : Identified s := by
  constructor
  case distinct => exact h.nodup_ids
  case nonzero =>
    intro id member
    rw [h.activeIds_eq] at member
    obtain ⟨k,_,rfl⟩ := mem_map.1 member
    exact idOf_pos k
  case listens => exact fun opened id ok => h.returned (createListener_creates opened s) ok
  case connects => exact fun opened accepted id ok => h.returned (connect_creates opened accepted s) ok
  case connected =>
    intro k past near
    constructor
    · intro found
      by_contra gone
      rw [isConnected, h.findNode_none past near gone] at found
      cases found
    · rintro ⟨n,member,active,serial⟩
      obtain ⟨i,here⟩ := mem_iff_getElem?.1 member
      rw [isConnected, h.findNode past near here active serial]
      rfl
  case disconnects =>
    intro k past near i n here active serial
    simp only [disconnect, h.findNode past near here active serial, here]
  case gone =>
    intro k past near none_
    simp only [disconnect, h.findNode_none past near none_]

/-- **The ids stay apart** in every run in which no node lives through 65535 creations. -/
theorem ids_apart (h : Reach (machine cfg) Young s) : Identified s := by
  have numbered : Numbered s := by
    apply h.invariant
    case base => exact init_numbered
    case keep =>
      intro s s' a _ before guard step
      exact next_numbered before guard step
  exact numbered.identified

instance (s : State) (a : Act) : Decidable (Young s a) := by
  unfold Young
  split <;> infer_instance

def twoNodes : NodeConfig := threeSeconds 2

theorem ids_apart_reconnected : ∃ s, Reach (machine twoNodes) Young s ∧ activeIds s.nodes = [1, 3] ∧ s.created = 3 ∧
    Identified s := by
  obtain ⟨s,reached,ids,created⟩ := reach_of_decided (machine twoNodes) Young
      [.createListener (some 5), .connect (some 6) true, .disconnect 2, .connect (some 6) true]
      (fun s => activeIds s.nodes = [1, 3] ∧ s.created = 3) (by decide +kernel)
  exact ⟨s,reached,ids,created,ids_apart reached⟩

/-- A listener with id 1 since the beginning, and a slot that node `last` has left; `next` is the next id. -/
def worn (created next last : Nat) : State where
  running := false
  nextNodeId := next
  nodeCount := 1
  nodes := [⟨1, -1, 5, 0, true, true, 0⟩, ⟨last, -1, -1, 0, false, false, created - 1⟩]
  loop := (machine twoNodes).init.loop
  clock := 0
  results := []
  round := .idle
  created

theorem worn_reconnect {created next last : Nat} (other : next ≠ 1) (reached : Reach (machine twoNodes) anyStep
    (worn created next last)) : Reach (machine twoNodes) anyStep (worn (created + 1) (allocNodeId next).2 next) := by
  have fresh : ∀ fd ∈ some (6 : Int), Fresh twoNodes (worn created next last) fd := by
    intro fd given
    cases given
    refine ⟨by decide,by decide,?_⟩
    intro n member
    have nowhere : (-1 : Int) ≠ 6 := by decide
    rcases mem_pair.1 member with rfl | rfl
    · exact ⟨nowhere,by decide⟩
    · exact ⟨nowhere,nowhere⟩
  have step : Nodes.next twoNodes (.connect (some 6) true) (worn created next last) =
      some (connect (some 6) true (worn created next last)).2 := by
    rw [Nodes.next, if_pos fresh]
  have connected : Reach (machine twoNodes) anyStep (connect (some 6) true (worn created next last)).2 :=
    .step (a := .connect (some 6) true) reached trivial step
  refine .step connected (a := .disconnect next) trivial ?_
  have found : findNode (connect (some 6) true (worn created next last)).2.nodes next = some 1 := by
    change findIdx? (fun n : NodeEntry => n.active && n.nodeId = next) [_, _] = some 1
    simp [findIdx?_cons, other.symm, allocNodeId, worn]
  change some (disconnect next _).2 = some _
  simp only [disconnect, found]
  rfl

theorem worn_reached (m : Nat) (small : m ≤ 65533) :
    ∃ last, Reach (machine twoNodes) anyStep (worn (m + 1) (m + 2) last) := by
  induction m with
  | zero =>
    refine ⟨0,.step .init (a := .createListener (some 5)) trivial ?_⟩
    decide +kernel
  | succ m ih =>
    obtain ⟨last,reached⟩ := ih (by omega)
    have after : (allocNodeId (m + 2)).2 = m + 3 := by
      have word : (m + 2 + 1) % 65536 = m + 3 := Nat.mod_eq_of_lt (by omega)
      simp only [allocNodeId, word]
      exact if_neg (Nat.succ_ne_zero _)
    have again := worn_reconnect (by omega) reached
    rw [after] at again
    exact ⟨m + 2,again⟩

/-- After 65534 reconnections the next connection gets the id of the listener, which `Disconnect` with that id closes.
-/
theorem id_shared : ∃ s r, Reach (machine twoNodes) anyStep s ∧ Fresh twoNodes s 6 ∧ connect (some 6) true s = r ∧
    r.1.toOption = some 1 ∧ Reach (machine twoNodes) anyStep r.2 ∧ activeIds r.2.nodes = [1, 1] ∧
    (disconnect 1 r.2).2.nodes.map (·.active) = [false, true] := by
  obtain ⟨last,reached⟩ := worn_reached 65533 le_rfl
  have wrapped : Reach (machine twoNodes) anyStep (worn 65535 1 65535) := worn_reconnect (by decide) reached
  have fresh : Fresh twoNodes (worn 65535 1 65535) 6 := by decide +kernel
  have step : next twoNodes (.connect (some 6) true) (worn 65535 1 65535) =
      some (connect (some 6) true (worn 65535 1 65535)).2 := by decide +kernel
  refine ⟨worn 65535 1 65535,_,wrapped,fresh,rfl,?_,.step (a := .connect (some 6) true) wrapped trivial step,?_,?_⟩
  · decide +kernel
  · decide +kernel
  · decide +kernel

end Newosp.Nodes
