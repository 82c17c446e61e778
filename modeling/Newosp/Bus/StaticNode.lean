import Newosp.Bus.Sequential

/-!
# `StaticNode::SpinOnce` in its two modes

A started node is called back through the callback table, and its callbacks skip what is not of its topic. A node that
was not started visits the ring directly, where nobody looks at the topic.
-/

namespace Newosp.Bus.StaticNode
open Lib Function List

/-- `Fnv1a32`, with characters that are signed. -/
def fnv1a32 : Option (List Int8) → UInt32
  | none => 0
  | some str => str.foldl (fun hash c => (hash ^^^ c.toInt32.toUInt32) * 16777619) 2166136261

/-- The alternatives of `PayloadVariant`, `OSP_BUS_MAX_CALLBACKS_PER_TYPE` and `OSP_MAX_STATIC_NODE_SUBSCRIPTIONS`. -/
structure Types (α : Type) where
  index : α → Nat
  size : Nat
  maxCallbacks : Nat
  maxSubscriptions : Nat
  index_lt : ∀ payload, index payload < size

/-- The callback table of the bus: the entry `some I` holds the callback of `SubscribeOne<I>`. -/
abbrev Table := Nat → List (Option Nat)

/-- The handler's object and the bus that it may publish to. -/
abbrev World (σ α : Type) := σ × Memory α

structure Node (σ α : Type) where
  topic : Option (List Int8)
  handler : Envelope α → World σ α → World σ α

variable {σ α : Type} (types : Types α) (cfg : Config)

def subscribeOne : Table × Nat → Nat → Option (Table × Nat)
  | (table, handleCount), I =>
    if types.maxSubscriptions ≤ handleCount then none
    else ((table I).findIdx? (·.isNone)).map fun i => (update table I ((table I).set i (some I)), handleCount + 1)

/-- `Start` of a node that is not started, on a bus without subscribers; `none` is the error. -/
def start : Option Table :=
  ((range types.size).foldlM (subscribeOne types) (fun _ => replicate types.maxCallbacks none, 0)).map (·.1)

/-- What a message does, and the calls of the handler it leads to. -/
abbrev Dispatch (σ α : Type) := Envelope α → World σ α → World σ α × List (Envelope α)

def Node.invoke (node : Node σ α) : Dispatch σ α := fun e w => (node.handler e w, [e])

/-- A message is skipped by the node's callbacks. -/
def Node.skips (node : Node σ α) (e : Envelope α) : Prop :=
  fnv1a32 node.topic ≠ 0 ∧ e.header.topicHash ≠ fnv1a32 node.topic

instance (node : Node σ α) (e : Envelope α) : Decidable (node.skips e) := inferInstanceAs (Decidable (_ ∧ _))

/-- The lambda of `SubscribeOne<I>`. -/
def Node.callback (node : Node σ α) (I : Nat) : Dispatch σ α := fun e w =>
  if node.skips e then (w, []) else if types.index e.payload = I then node.invoke e w else (w, [])

def Node.dispatchMessage (node : Node σ α) (table : Table) : Dispatch σ α := fun e w =>
  ((table (types.index e.payload)).filterMap id).foldl
    (fun (w, calls) I => let (w, more) := node.callback types I e w; (w, calls ++ more)) (w, [])

def publishedAt (m : Memory α) (consPos : Nat) : Option (Envelope α) :=
  let node := m.ring (cfg.index consPos)
  if node.sequence = wrap32 (consPos + 1) then some ⟨node.header, node.payload⟩ else none

/-- An iteration of the batch at a published message: claim the slot, dispatch, release the slot. -/
def visitSlot (dispatch : Dispatch σ α) (e : Envelope α) (w : World σ α) (consPos : Nat) :
    World σ α × List (Envelope α) :=
  let i := cfg.index consPos
  let (w, calls) := dispatch e (w.1, w.2.storeSequence i (wrap32 (consPos + 1 + cfg.queueDepth)))
  ((w.1, w.2.storeSequence i (wrap32 (consPos + cfg.queueDepth))), calls)

/-- `n` more iterations: the world, the position, the messages processed and the calls of the handler. -/
def batchLoop (dispatch : Dispatch σ α) : Nat → World σ α → Nat → World σ α × Nat × Nat × List (Envelope α)
  | 0, w, consPos => (w, consPos, 0, [])
  | n + 1, w, consPos => match publishedAt cfg w.2 consPos with
    | none => (w, consPos, 0, [])
    | some e =>
      let (w, calls) := visitSlot cfg dispatch e w consPos
      let (w, last, processed, more) := batchLoop dispatch n w (wrap32 (consPos + 1))
      (w, last, processed + 1, calls ++ more)

def processWith (dispatch : Dispatch σ α) (w : World σ α) : World σ α × Nat × List (Envelope α) :=
  let (w, consPos, processed, calls) := batchLoop cfg dispatch cfg.batchSize w w.2.consumerPos
  if 0 < processed then
    ((w.1, { w.2 with consumerPos := consPos, stats := w.2.stats.addProcessed processed }), processed, calls)
  else (w, processed, calls)

/-- The bus after `SpinOnce`, what it returns, and the calls of the handler; a started node has a table. -/
def Node.spinOnce (node : Node σ α) (started : Option Table) : World σ α → World σ α × Nat × List (Envelope α) :=
  match started with
  | some table => processWith cfg (node.dispatchMessage types table)
  | none => processWith cfg node.invoke

/-- The condition, at each of `n` iterations: the message that is published at the position is of the node's topic. -/
def Node.AllOfTopic (node : Node σ α) : Nat → World σ α → Nat → Prop
  | 0, _, _ => True
  | n + 1, w, consPos => ∀ e, publishedAt cfg w.2 consPos = some e →
      ¬ node.skips e ∧ Node.AllOfTopic node n (visitSlot cfg node.invoke e w consPos).1 (wrap32 (consPos + 1))

def Subscribed (table : Table) : Prop := ∀ I < types.size, (table I).filterMap id = [I]

variable {types cfg} {node : Node σ α} {table : Table}

theorem start_subscribed (started : start types = some table) : Subscribed types table := by
  -- the types below `k` have their callback, the others an empty slot
  have upto : ∀ k s, (range k).foldlM (subscribeOne types) (fun _ => replicate types.maxCallbacks none, 0) =
      some s → (∀ I < k, (s.1 I).filterMap id = [I]) ∧ ∀ I, k ≤ I → s.1 I = replicate types.maxCallbacks none := by
    intro k
    induction k with
    | zero =>
      intro s h
      cases h
      exact ⟨fun I lt => absurd lt (Nat.not_lt_zero _),fun I _ => rfl⟩
    | succ k ih =>
      intro s h
      rw [range_succ, foldlM_append] at h
      obtain ⟨⟨table,count⟩,run,last⟩ := Option.bind_eq_some_iff.1 h
      obtain ⟨done,empty⟩ := ih _ run
      simp only [foldlM_cons, foldlM_nil, subscribeOne] at last
      obtain ⟨-,i,free,rfl⟩ := by simpa using last
      dsimp only at done empty ⊢
      refine ⟨fun I lt => ?_,fun I le => ?_⟩
      · by_cases same : I = k
        · subst same
          rw [empty I (le_refl _)] at free ⊢
          obtain ⟨lt,-⟩ := findIdx?_eq_some_iff_getElem.1 free
          rw [update_self, set_eq_take_append_cons_drop, if_pos lt]
          simp
        · rw [update_of_ne same]
          exact done I (by omega)
      · rw [update_of_ne (by omega)]
        exact empty I (by omega)
  obtain ⟨s,run,rfl⟩ := Option.map_eq_some_iff.1 started
  exact (upto _ s run).1

section

variable (one : Subscribed types table)
include one

/-- A message reaches the handler of a started node once, or is skipped. -/
theorem dispatchMessage_eq (e : Envelope α) (w : World σ α) :
    node.dispatchMessage types table e w = if node.skips e then (w, []) else node.invoke e w := by
  simp only [Node.dispatchMessage, one _ (types.index_lt _), foldl_cons, foldl_nil, Node.callback]
  split <;> simp

theorem batchLoop_eq (n : Nat) : ∀ (w : World σ α) (consPos : Nat), node.AllOfTopic cfg n w consPos →
      batchLoop cfg node.invoke n w consPos = batchLoop cfg (node.dispatchMessage types table) n w consPos := by
  induction n with
  | zero => intros; rfl
  | succ n ih =>
    intro w consPos all
    cases here : publishedAt cfg w.2 consPos with
    | none => simp only [batchLoop, here]
    | some e =>
      obtain ⟨topic,rest⟩ := all e here
      have same : visitSlot cfg (node.dispatchMessage types table) e w consPos = visitSlot cfg node.invoke e w consPos := by
        simp only [visitSlot, dispatchMessage_eq one, if_neg topic]
      simp only [batchLoop, here, same, ih _ _ rest]

/-- The table lets no skipped message through. -/
theorem batchLoop_calls (n : Nat) : ∀ (w : World σ α) (consPos : Nat),
    ∀ e ∈ (batchLoop cfg (node.dispatchMessage types table) n w consPos).2.2.2, ¬ node.skips e := by
  induction n with
  | zero => simp [batchLoop]
  | succ n ih =>
    intro w consPos
    cases here : publishedAt cfg w.2 consPos with
    | none => simp [batchLoop, here]
    | some e =>
      simp only [batchLoop, here, mem_append]
      rintro e' (first | later)
      · simp only [visitSlot, dispatchMessage_eq one] at first
        split at first
        · cases first
        · cases mem_singleton.1 first
          assumption
      · exact ih _ _ e' later

end

/-- Direct visits call the handler with every message. -/
theorem allOfTopic_of_calls (n : Nat) : ∀ (w : World σ α) (consPos : Nat),
    (∀ e ∈ (batchLoop cfg node.invoke n w consPos).2.2.2, ¬ node.skips e) → node.AllOfTopic cfg n w consPos := by
  induction n with
  | zero => intros; trivial
  | succ n ih =>
    intro w consPos calls e here
    simp only [batchLoop, here, mem_append] at calls
    exact ⟨calls e (.inl (mem_singleton.2 rfl)),ih _ _ fun e' later => calls e' (.inr later)⟩

theorem processWith_calls (dispatch : Dispatch σ α) (w : World σ α) :
    (processWith cfg dispatch w).2 = (batchLoop cfg dispatch cfg.batchSize w w.2.consumerPos).2.2 := by
  unfold processWith
  dsimp only
  split <;> rfl

/-- **The two modes of `SpinOnce`** call the handler with the same messages and return the same count exactly if every
message that the batch comes to is of the node's topic. -/
theorem modes_agree_iff (started : start types = some table) (node : Node σ α) (w : World σ α) :
    (node.spinOnce types cfg none w).2 = (node.spinOnce types cfg table w).2 ↔
      node.AllOfTopic cfg cfg.batchSize w w.2.consumerPos := by
  have one := start_subscribed started
  simp only [Node.spinOnce, processWith_calls]
  refine ⟨fun same => allOfTopic_of_calls _ _ _ ?_,fun all => by rw [batchLoop_eq one _ _ _ all]⟩
  rw [same]
  exact batchLoop_calls one _ _ _

/-- Two message types, in a bus of eight slots, and a node that listens to the topic `"a"`. -/
def twoTypes : Types Bool := ⟨Bool.toNat, 2, 16, 16, fun b => by cases b <;> decide⟩

def eightSlots : Config := ⟨3, 4, by decide, by decide⟩

def listener : Node Unit Bool := ⟨some [97], fun _ w => w⟩

def afterPublish (topic : Option (List Int8)) : World Unit Bool :=
  ((), (publishInternal eightSlots .init ⟨true, 7, 0, .kMedium, fnv1a32 topic⟩).1)

theorem modes_agree_own_topic : (start twoTypes).isSome = true ∧ ∀ table, start twoTypes = some table →
    (listener.spinOnce twoTypes eightSlots table (afterPublish (some [97]))).2.1 = 1 ∧
    (listener.spinOnce twoTypes eightSlots none (afterPublish (some [97]))).2 =
      (listener.spinOnce twoTypes eightSlots table (afterPublish (some [97]))).2 := by
  refine ⟨by decide,fun table started => ⟨?_,(modes_agree_iff started _ _).2 ?_⟩⟩
  · cases started
    decide
  · exact allOfTopic_of_calls _ _ _ (by decide)

/-- A message without a topic reaches the handler only as long as the node is not started. -/
theorem direct_mode_ignores_topic : ∃ table, start twoTypes = some table ∧
    (listener.spinOnce twoTypes eightSlots none (afterPublish none)).2.2.length = 1 ∧
    (listener.spinOnce twoTypes eightSlots table (afterPublish none)).2.2.length = 0 := ⟨_, rfl, by decide, by decide⟩

end Newosp.Bus.StaticNode
