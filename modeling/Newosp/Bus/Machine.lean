import Newosp.Bus.Memory
import Newosp.Lib.Machine

/-!
# `AsyncBus` one atomic access at a time

Any number of `PublishInternal` calls (`ι`) run beside one consumer in `ProcessBatch`. Every atomic access, and every
access to the header and payload of a node, is one step on a sequentially consistent memory; a weak compare-exchange may
fail without cause. The fields after `cpc` are histories.
-/

namespace Newosp.Bus
open Lib Function

/-- How a call owns a node while it writes it: by the claim of a fresh position, or by the
eviction marker on a published one. -/
inductive Hold
  | claimed (pos : Nat)
  | reserved (pos : Nat)
deriving DecidableEq, Repr

def Hold.pos : Hold → Nat
  | .claimed pos => pos
  | .reserved pos => pos

/-- Program counters of `PublishInternal` and, from `scanProd` to `scanRestore`, of `TryEvictAndPublish`. `id` is
`current_id`. -/
inductive PC
  | idle
  | loadId
  | loadProd (id : Nat)
  | loadCached (id prod : Nat)
  | loadReal (id prod : Nat)
  | storeCached (id prod real : Nat)
  | addRecheck (id prod real : Nat)
  | loadPos (id : Nat)
  | loadSeq (id pos : Nat)
  | loadCons (id pos : Nat)
  | casPos (id pos : Nat)
  | scanProd (id : Nat)
  | scanCons (id prod : Nat)
  | scanSeq (id prod cons i : Nat)
  | scanPeek (id prod cons i : Nat)
  | scanCas (id prod cons i : Nat)
  | scanVerify (id prod cons i : Nat)
  | scanRestore (id prod cons i : Nat)
  | fetchId (hold : Hold)
  | writeHeader (hold : Hold) (msgId : Nat)
  | writePayload (hold : Hold)
  | storePriority (hold : Hold)
  | storeSequence (hold : Hold)
  | addEvicted
  | addPublished
  | addDropped (id : Nat)
  | done (o : Outcome)
deriving DecidableEq, Repr

/-- Program counters of `ProcessBatch`; `idle` carries the result of the last call. -/
inductive ConsumerPC (ι : Type)
  | idle (last : Nat)
  | casSeq (i consPos processed : Nat)
  | readHeader (i consPos processed : Nat)
  | readPayload (i consPos processed : Nat) (header : MessageHeader) (by' : Option ι)
  | release (i consPos processed : Nat)
  | storePos (consPos processed : Nat)
  | addProcessed (processed : Nat)

/-- One dispatched envelope, with the position and the calls that wrote its two parts. -/
structure Dispatch (ι α : Type) where
  pos : Nat
  envelope : Envelope α
  headerBy : Option ι
  payloadBy : Option ι

/-- The bus with its running calls, and what happened so far: who last wrote the header and the payload of each node,
the claims `(call, position)`, the dispatched envelopes, the released positions, the evictions `(victim, evictor)`, and
the claims when each call last loaded `producer_pos_`. -/
structure State (ι α : Type) where
  mem : Memory α
  pc : ι → PC
  cpc : ConsumerPC ι
  headerBy : Nat → Option ι
  payloadBy : Nat → Option ι
  claims : List (ι × Nat)
  released : Nat
  dispatched : List (Dispatch ι α)
  evicted : List (Option ι × ι)
  loaded : ι → Nat

/-- A call starts, a call takes its next step (if `spurious`, a weak compare-exchange fails), or the consumer does. -/
inductive Act (ι : Type)
  | call (c : ι)
  | producer (c : ι) (spurious : Bool)
  | consumer

section

variable {ι α : Type} [DecidableEq ι] (cfg : Config) (req : ι → Request α)

/-- The loop head of the eviction scan at `i`. -/
def scanAt (id prod cons i : Nat) : PC :=
  if i < cfg.queueDepth then
    if wrap32 (cons + i) = prod then .addDropped id else .scanSeq id prod cons i
  else .addDropped id

def finishBatch (consPos processed : Nat) : ConsumerPC ι :=
  if 0 < processed then .storePos consPos processed else .idle processed

def batchAt (i consPos processed : Nat) : ConsumerPC ι :=
  if i < cfg.batchSize then .casSeq i consPos processed else finishBatch consPos processed

def State.goto (s : State ι α) (c : ι) (pc : PC) : State ι α := { s with pc := update s.pc c pc }

/-- Note how many positions are claimed at a load of `producer_pos_` by call `c`. -/
def State.noteLoad (s : State ι α) (c : ι) : State ι α := { s with loaded := update s.loaded c s.claims.length }

def producerNext (c : ι) (spurious : Bool) (s : State ι α) : Option (State ι α) :=
  let m := s.mem
  let r := req c
  match s.pc c with
  | .idle | .done _ => none
  | .loadId =>
    some <| s.goto c <|
      if msgIdWrapThreshold ≤ m.nextMsgId then .done (.rejected .kOverflowDetected m.nextMsgId)
      else .loadProd m.nextMsgId
  | .loadProd id => some <| (s.noteLoad c).goto c (.loadCached id m.producerPos)
  | .loadCached id prod =>
    some <| s.goto c <|
      if cfg.getThresholdForPriority r.priority ≤ sub32 prod m.cachedConsumerPos then .loadReal id prod
      else .loadPos id
  | .loadReal id prod => some <| s.goto c (.storeCached id prod m.consumerPos)
  | .storeCached id prod real =>
    some <| { s with mem := { m with cachedConsumerPos := real } }.goto c (.addRecheck id prod real)
  | .addRecheck id prod real =>
    some <| { s with mem := { m with stats := m.stats.addRecheck } }.goto c <|
      if cfg.getThresholdForPriority r.priority ≤ sub32 prod real then
        if r.priority = MessagePriority.kHigh then .scanProd id else .addDropped id
      else .loadPos id
  | .loadPos id => some <| (s.noteLoad c).goto c (.loadSeq id m.producerPos)
  | .loadSeq id pos =>
    some <| s.goto c <|
      if (m.ring (cfg.index pos)).sequence ≠ pos then .loadCons id pos else .casPos id pos
  | .loadCons id pos =>
    -- `continue` goes on to the loop condition: the compare-exchange
    some <| s.goto c <|
      if cfg.queueDepth ≤ sub32 pos m.consumerPos then .addDropped id else .casPos id pos
  | .casPos id pos =>
    if m.producerPos = pos ∧ spurious = false then
      some <| { s with mem := { m with producerPos := wrap32 (pos + 1) },
                       claims := s.claims ++ [(c, pos)] }.goto c (.fetchId (.claimed pos))
    else some <| s.goto c (.loadPos id)
  | .scanProd id => some <| s.goto c (.scanCons id m.producerPos)
  | .scanCons id prod => some <| s.goto c (scanAt cfg id prod m.consumerPos 1)
  | .scanSeq id prod cons i =>
    let p := wrap32 (cons + i)
    some <| s.goto c <|
      if (m.ring (cfg.index p)).sequence ≠ wrap32 (p + 1) then scanAt cfg id prod cons (i + 1)
      else .scanPeek id prod cons i
  | .scanPeek id prod cons i =>
    let p := wrap32 (cons + i)
    some <| s.goto c <|
      if MessagePriority.kHigh.code ≤ (m.ring (cfg.index p)).slotPriority then
        scanAt cfg id prod cons (i + 1)
      else .scanCas id prod cons i
  | .scanCas id prod cons i =>
    let p := wrap32 (cons + i)
    if (m.ring (cfg.index p)).sequence = wrap32 (p + 1) then
      let marker := wrap32 (p + 1 + 2 * cfg.queueDepth)
      some <| { s with mem := m.storeSequence (cfg.index p) marker }.goto c (.scanVerify id prod cons i)
    else some <| s.goto c (scanAt cfg id prod cons (i + 1))
  | .scanVerify id prod cons i =>
    let p := wrap32 (cons + i)
    some <| s.goto c <|
      if MessagePriority.kHigh.code ≤ (m.ring (cfg.index p)).slotPriority then
        .scanRestore id prod cons i
      else .fetchId (.reserved p)
  | .scanRestore id prod cons i =>
    let p := wrap32 (cons + i)
    some <| { s with mem := m.storeSequence (cfg.index p) (wrap32 (p + 1)) }.goto c
      (scanAt cfg id prod cons (i + 1))
  | .fetchId hold =>
    some <| { s with mem := { m with nextMsgId := wrap64 (m.nextMsgId + 1) } }.goto c
      (.writeHeader hold m.nextMsgId)
  | .writeHeader hold msgId =>
    let j := cfg.index hold.pos
    let header := match hold with
      | .claimed _ => r.header msgId
      | .reserved _ => { r.header msgId with priority := .kHigh }
    let evicted := match hold with
      | .claimed _ => s.evicted
      | .reserved _ => s.evicted ++ [(s.payloadBy j, c)]
    some <| { s with mem := m.setNode j { m.ring j with header := header },
                     headerBy := update s.headerBy j (some c),
                     evicted := evicted }.goto c (.writePayload hold)
  | .writePayload hold =>
    let j := cfg.index hold.pos
    some <| { s with mem := m.setNode j { m.ring j with payload := r.payload },
                     payloadBy := update s.payloadBy j (some c) }.goto c (.storePriority hold)
  | .storePriority hold =>
    let j := cfg.index hold.pos
    let priority := match hold with
      | .claimed _ => r.priority
      | .reserved _ => MessagePriority.kHigh
    some <| { s with mem := m.setNode j { m.ring j with slotPriority := priority.code } }.goto c
      (.storeSequence hold)
  | .storeSequence hold =>
    some <| { s with mem := m.storeSequence (cfg.index hold.pos) (wrap32 (hold.pos + 1)) }.goto c <|
      match hold with
      | .claimed _ => .addPublished
      | .reserved _ => .addEvicted
  | .addEvicted =>
    some <| { s with mem := { m with stats := m.stats.addDropped } }.goto c .addPublished
  | .addPublished =>
    some <| { s with mem := { m with stats := m.stats.addPublished } }.goto c (.done .accepted)
  | .addDropped id =>
    some <| { s with mem := { m with stats := m.stats.addDropped } }.goto c
      (.done (.rejected .kQueueFull id))

def consumerNext (s : State ι α) : State ι α :=
  let m := s.mem
  match s.cpc with
  | .idle _ => { s with cpc := batchAt cfg 0 m.consumerPos 0 }
  | .casSeq i consPos processed =>
    let expected := wrap32 (consPos + 1)
    if (m.ring (cfg.index consPos)).sequence = expected then
      { s with mem := m.storeSequence (cfg.index consPos) (wrap32 (expected + cfg.queueDepth)),
               cpc := .readHeader i consPos processed }
    else { s with cpc := finishBatch consPos processed }
  | .readHeader i consPos processed =>
    let j := cfg.index consPos
    { s with cpc := .readPayload i consPos processed (m.ring j).header (s.headerBy j) }
  | .readPayload i consPos processed header by' =>
    let j := cfg.index consPos
    { s with cpc := .release i consPos processed,
             dispatched := s.dispatched ++
               [⟨consPos, ⟨header, (m.ring j).payload⟩, by', s.payloadBy j⟩] }
  | .release i consPos processed =>
    { s with mem := m.storeSequence (cfg.index consPos) (wrap32 (consPos + cfg.queueDepth)),
             released := s.released + 1,
             cpc := batchAt cfg (i + 1) (wrap32 (consPos + 1)) (processed + 1) }
  | .storePos consPos processed =>
    { s with mem := { m with consumerPos := consPos }, cpc := .addProcessed processed }
  | .addProcessed processed =>
    { s with mem := { m with stats := m.stats.addProcessed processed }, cpc := .idle processed }

def next : Act ι → State ι α → Option (State ι α)
  | .call c, s => if s.pc c = .idle then some (s.goto c .loadId) else none
  | .producer c spurious, s => producerNext cfg req c spurious s
  | .consumer, s => some (consumerNext cfg s)

def State.init [Inhabited α] : State ι α where
  mem := .init
  pc := fun _ => .idle
  cpc := .idle 0
  headerBy := fun _ => none
  payloadBy := fun _ => none
  claims := []
  released := 0
  dispatched := []
  evicted := []
  loaded := fun _ => 0

def machine [Inhabited α] : Machine (State ι α) (Act ι) := ⟨.init, next cfg req⟩

end

section

variable {ι α : Type}

/-- The next step of the call overwrites a published message. -/
def PC.evicting : PC → Bool
  | .writeHeader (.reserved _) _ => true
  | _ => false

def State.running (s : State ι α) (c : ι) : Prop := s.pc c ≠ .idle ∧ ∀ o, s.pc c ≠ .done o

instance (s : State ι α) (c : ι) : Decidable (s.running c) :=
  decidable_of_iff ((match s.pc c with
    | .idle => false
    | .done _ => false
    | _ => true) = true) (by cases here : s.pc c <;> simp [State.running, here])

end

section

variable {ι α : Type} [DecidableEq ι] (s : State ι α) (c : ι) (pc : PC)

attribute [simps -fullyApplied mem cpc headerBy payloadBy claims released dispatched evicted loaded] State.goto
attribute [simps -fullyApplied mem pc cpc claims released] State.noteLoad

@[simp] theorem State.goto_pc_self : (s.goto c pc).pc c = pc := update_self ..
theorem State.goto_pc_of_ne {d : ι} (h : d ≠ c) : (s.goto c pc).pc d = s.pc d := update_of_ne h ..

theorem consumerNext_frame {ι α : Type} (cfg : Config) (s : State ι α) : (consumerNext cfg s).pc = s.pc ∧
    (consumerNext cfg s).claims = s.claims ∧ (consumerNext cfg s).loaded = s.loaded := by
  cases here : s.cpc <;> simp only [consumerNext, here, and_self]
  case casSeq => split <;> exact ⟨rfl,rfl,rfl⟩

theorem consumerNext_released {ι α : Type} (cfg : Config) (s : State ι α) :
    s.released ≤ (consumerNext cfg s).released ∧ (consumerNext cfg s).evicted = s.evicted := by
  cases here : s.cpc <;> simp only [consumerNext, here, le_refl, true_and]
  case casSeq => split <;> exact ⟨le_rfl,rfl⟩
  case release => exact ⟨Nat.le_succ _,trivial⟩

variable {s c} {cfg : Config} {req : ι → Request α} {t : State ι α} {spurious : Bool}

theorem running_of_producerNext (step : producerNext cfg req c spurious s = some t) : s.running c := by
  constructor
  · intro idle
    simp [producerNext, idle] at step
  · intro o done
    simp [producerNext, done] at step

theorem producerNext_evicted (claims : (s.pc c).evicting = false)
    (step : producerNext cfg req c spurious s = some t) : t.evicted = s.evicted := by
  cases here : s.pc c <;> simp only [producerNext, here] at step
  case idle | done => cases step
  case casPos | scanCas => split at step <;> cases step <;> rfl
  case writeHeader hold msgId =>
    cases step
    cases hold with
    | claimed p => rfl
    | reserved p =>
      rw [here] at claims
      cases claims
  all_goals
    cases step
    rfl

theorem producerNext_consumer (step : producerNext cfg req c spurious s = some t) :
    t.cpc = s.cpc ∧ t.released = s.released ∧ t.dispatched = s.dispatched := by
  cases here : s.pc c <;> simp only [producerNext, here] at step
  case idle | done => cases step
  case casPos | scanCas => split at step <;> cases step <;> exact ⟨rfl,rfl,rfl⟩
  all_goals
    cases step
    exact ⟨rfl,rfl,rfl⟩

end

def depth4 : Config := ⟨2, 4, by decide, by decide⟩

def oneUrgent (c : Nat) : Request Nat := ⟨c, 0, 0, if c = 3 then .kHigh else .kMedium, 0⟩

def callSteps (c n : Nat) : List (Act Nat) := .call c :: List.replicate n (.producer c false)

end Newosp.Bus
