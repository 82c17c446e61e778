import Newosp.Bus.PriorityQueue

/-!
# `AsyncBus` refines the bounded priority queue

`Rep` adds the position words, the message ids and the statistics to `Ring`. The queue simulates every complete call for
the thresholds the code computes: percentages of the depth while the 32-bit product `kQueueDepth * 99` does not wrap.
-/

namespace Newosp.Bus
open Lib List
open Bus.Config (index_eq percentages wrap32_mod)

variable {α : Type} {m : Memory α} {cfg : Config} {q : Queue α} {cached cons : Nat}

/-- The bus stands for the queue `q`: `cons` and `cached` are the positions behind `consumer_pos_` and
`cached_consumer_pos_`. -/
structure Rep (cfg : Config) (m : Memory α) (q : Queue α) (cached cons : Nat) : Prop where
  ring : Ring cfg m.ring cons q.items
  prodPos : m.producerPos = wrap32 (cons + q.items.length)
  consPos : m.consumerPos = wrap32 cons
  cachedPos : m.cachedConsumerPos = wrap32 cached
  cached_le : cached ≤ cons
  window : cons + q.items.length < cached + cfg.queueDepth
  nextId : m.nextMsgId = q.accepted + 1
  ids : q.accepted < msgIdWrapThreshold
  published : m.stats.messagesPublished = q.accepted
  processed : m.stats.messagesProcessed = q.processed
  dropped : m.stats.messagesDropped = wrap64 (q.rejected + q.evictions)
  balance : q.accepted = q.processed + q.evictions + q.items.length

theorem fillNode_ring (cfg : Config) {id : Nat} (nextId : m.nextMsgId = id) (pos : Nat) (r : Request α) :
    (fillNode cfg m pos r.priority r).ring =
      Function.update m.ring (pos % cfg.queueDepth) ((r.envelope id).node pos) := by
  subst nextId
  simp only [fillNode, Memory.setNode_ring, index_eq]
  rfl

theorem Envelope.node_wrap32 (e : Envelope α) (p : Nat) : e.node (wrap32 p) = e.node p := by
  simp only [Envelope.node, wrap32_add_left]

section

theorem Rep.init [Inhabited α] (cfg : Config) : Rep (α := α) cfg .init .empty 0 0 := by
  have two := cfg.queueDepth_two_le
  exact ⟨Ring.init cfg,rfl,rfl,rfl,le_refl 0,by simp only [Queue.empty, length_nil]; omega,
    rfl, by simp only [Queue.empty]; decide, rfl, rfl, rfl, rfl⟩

variable {cfg : Config} {m : Memory α} {q : Queue α} {cached cons : Nat} (h : Rep cfg m q cached cons)
include h

theorem Rep.realDepth : sub32 m.producerPos m.consumerPos = q.items.length := by
  have room := h.ring.room
  have limit := cfg.queueDepth_le
  rw [h.prodPos, h.consPos, sub32_wrap32 (by omega) (by omega)]
  omega

theorem Rep.estimatedDepth : sub32 m.producerPos m.cachedConsumerPos = cons + q.items.length - cached := by
  have window := h.window
  have le := h.cached_le
  have limit := cfg.queueDepth_le
  rw [h.prodPos, h.cachedPos, sub32_wrap32 (by omega) (by omega)]

theorem Rep.decision (threshold : Nat) : threshold ≤ sub32 m.producerPos m.cachedConsumerPos ∧
      threshold ≤ sub32 m.producerPos m.consumerPos ↔ q.items.length ≥ threshold := by
  have le := h.cached_le
  rw [h.realDepth, h.estimatedDepth]
  omega

theorem Rep.recheck :
    Rep cfg { m with cachedConsumerPos := m.consumerPos, stats := m.stats.addRecheck } q cons cons where
  ring := h.ring
  prodPos := h.prodPos
  consPos := h.consPos
  cachedPos := h.consPos
  cached_le := le_refl cons
  window := by
    have := h.ring.room
    omega
  nextId := h.nextId
  ids := h.ids
  published := h.published
  processed := h.processed
  dropped := h.dropped
  balance := h.balance

theorem Rep.drop :
    Rep cfg { m with stats := m.stats.addDropped } { q with rejected := q.rejected + 1 } cached cons where
  ring := h.ring
  prodPos := h.prodPos
  consPos := h.consPos
  cachedPos := h.cachedPos
  cached_le := h.cached_le
  window := h.window
  nextId := h.nextId
  ids := h.ids
  published := h.published
  processed := h.processed
  dropped := by
    simp only [Stats.addDropped, h.dropped, wrap64]
    omega
  balance := h.balance

section

variable (below : m.nextMsgId < msgIdWrapThreshold)
include below

theorem claim_sim
    (room : cons + q.items.length + 1 < cached + cfg.queueDepth) (currentId : Nat) (r : Request α) :
    ∃ m', claimAndPublish cfg m currentId r = (m', .accepted) ∧
      Rep cfg m' { q with items := q.items ++ [r.envelope (q.accepted + 1)],
                          accepted := q.accepted + 1 } cached cons := by
  have le := h.cached_le
  have ids := h.nextId
  have free := h.ring.free (cons + q.items.length) le_rfl (by have := h.ring.room; omega)
  have node : (m.ring (cfg.index m.producerPos)).sequence = m.producerPos := by
    rw [index_eq, h.prodPos, wrap32_mod, free]
  simp only [claimAndPublish, node, ne_eq, not_true_eq_false, false_and, if_false]
  refine ⟨_,rfl,?_⟩
  have pushed := h.ring.push (r.envelope (q.accepted + 1)) (by omega)
  constructor
  · rw [← wrap32_mod, ← h.prodPos, ← Envelope.node_wrap32, ← h.prodPos] at pushed
    rw [fillNode_ring cfg (m := { m with producerPos := wrap32 (m.producerPos + 1) }) ids]
    exact pushed
  · simp only [fillNode, Memory.setNode_producerPos, h.prodPos, wrap32_add_left, length_append,
      length_singleton, add_assoc]
  · exact h.consPos
  · exact h.cachedPos
  · exact le
  · simp only [length_append, length_singleton]
    omega
  · simp only [fillNode, wrap64, ids, msgIdWrapThreshold] at below ⊢
    omega
  · simp only [ids] at below ⊢
    exact below
  · simp only [fillNode, Memory.setNode_stats, Stats.addPublished, h.published, wrap64,
      msgIdWrapThreshold] at below ⊢
    omega
  · exact h.processed
  · exact h.dropped
  · simp only [length_append, length_singleton, h.balance]
    omega

/-- The eviction scan picks the queue's victim. -/
theorem evict_sim (r : Request α) (high : r.priority = .kHigh)
    (nonempty : 1 ≤ q.items.length) :
    match Queue.victim q.items with
    | some i => ∃ m', tryEvictAndPublish cfg m r = some m' ∧
        Rep cfg m' { q with items := q.items.set i (r.envelope (q.accepted + 1)),
                            accepted := q.accepted + 1, evictions := q.evictions + 1 } cached cons
    | none => tryEvictAndPublish cfg m r = none := by
  have two := cfg.queueDepth_two_le
  have ids := h.nextId
  have scan := evictScan_eq m h.ring (cfg.queueDepth - 1) 1 (by omega) nonempty
  simp only [tryEvictAndPublish, Queue.victim, h.prodPos, h.consPos, scan]
  cases found : (q.items.drop 1).findIdx? Queue.evictable with
  | none => rfl
  | some j =>
    have inside : j + 1 < q.items.length := by
      have := (findIdx?_eq_some_iff_getElem.1 found).1
      rw [length_drop] at this
      omega
    refine ⟨_,rfl,?_⟩
    have replaced := h.ring.set (r.envelope (q.accepted + 1)) inside
    dsimp only
    rw [add_comm 1 j, ← high]
    constructor
    · rw [← wrap32_mod, ← Envelope.node_wrap32] at replaced
      rw [fillNode_ring cfg ids]
      exact replaced
    · rw [length_set]
      exact h.prodPos
    · exact h.consPos
    · exact h.cachedPos
    · exact h.cached_le
    · simpa only [length_set] using h.window
    · simp only [fillNode, wrap64, ids, msgIdWrapThreshold] at below ⊢
      omega
    · simp only [ids] at below ⊢
      exact below
    · simp only [fillNode, Memory.setNode_stats, Stats.addPublished, Stats.addDropped, h.published,
        wrap64, msgIdWrapThreshold] at below ⊢
      omega
    · exact h.processed
    · simp only [fillNode, Memory.setNode_stats, Stats.addPublished, Stats.addDropped, h.dropped, wrap64]
      omega
    · simp only [length_set, h.balance]
      omega

/-- Bus and queue answer one publish call alike. -/
theorem publish_sim (r : Request α) :
    ∃ cached', (publishInternal cfg m r).2 = (q.publish cfg.getThresholdForPriority r).2 ∧
      Rep cfg (publishInternal cfg m r).1 (q.publish cfg.getThresholdForPriority r).1 cached' cons := by
  have limit := cfg.threshold_lt r.priority
  have le := h.cached_le
  have ids := h.nextId
  simp only [publishInternal, Nat.not_le.2 below, if_false, Queue.publish]
  by_cases estimate : cfg.getThresholdForPriority r.priority ≤ sub32 m.producerPos m.cachedConsumerPos
  · rw [if_pos estimate, h.realDepth]
    have fresh := h.recheck
    by_cases full : cfg.getThresholdForPriority r.priority ≤ q.items.length
    · rw [if_pos full, if_neg (Nat.not_lt.2 full)]
      by_cases high : r.priority = .kHigh
      · rw [if_pos high, if_pos high]
        have positive := cfg.high_pos
        rw [← high] at positive
        have evicted := evict_sim fresh below r high (by omega)
        revert evicted
        cases Queue.victim q.items with
        | none =>
          intro evicted
          rw [evicted]
          exact ⟨cons,by simp only [dropFull, ids],fresh.drop⟩
        | some i =>
          rintro ⟨m',run,rep⟩
          rw [run]
          exact ⟨cons,rfl,rep⟩
      · rw [if_neg high, if_neg high]
        exact ⟨cons,by simp only [dropFull, ids],fresh.drop⟩
    · rw [if_neg full, if_pos (Nat.not_le.1 full)]
      obtain ⟨m',run,rep⟩ := claim_sim fresh below (by omega) m.nextMsgId r
      exact ⟨cons,by rw [run],by rw [run]; exact rep⟩
  · rw [if_neg estimate]
    rw [h.estimatedDepth] at estimate
    rw [if_pos (by omega)]
    obtain ⟨m',run,rep⟩ := claim_sim h below (by omega) m.nextMsgId r
    exact ⟨cached,by rw [run],by rw [run]; exact rep⟩

end

/-- One batch dispatches what the queue delivers. -/
theorem process_sim : (processBatch cfg m).2 = (q.process cfg.batchSize).2 ∧
      Rep cfg (processBatch cfg m).1 (q.process cfg.batchSize).1 cached (cons + min cfg.batchSize q.items.length) := by
  obtain ⟨m',run,ring,hp,hr,hc,hi,hs⟩ := processLoop_spec cfg.batchSize m cons q.items h.ring
  have count : (q.items.take (min cfg.batchSize q.items.length)).length = min cfg.batchSize q.items.length := by
    rw [length_take]
    omega
  have left : (q.items.drop (min cfg.batchSize q.items.length)).length =
      q.items.length - min cfg.batchSize q.items.length := length_drop ..
  have least := min_le_right cfg.batchSize q.items.length
  have total := h.balance
  have bound := h.ids
  simp only [processBatch, Queue.process, h.consPos, run, count]
  generalize hn : min cfg.batchSize q.items.length = n at *
  have prod : wrap32 (cons + q.items.length) = wrap32 (cons + n + (q.items.drop n).length) := by
    rw [left]
    congr 1
    omega
  by_cases some : 0 < n
  · rw [if_pos some]
    refine ⟨rfl,ring,?_,rfl,?_,?_,?_,?_,h.ids,?_,?_,?_,?_⟩
    · rw [← prod, ← h.prodPos]
      exact hp
    · rw [← h.cachedPos]
      exact hc
    · have := h.cached_le
      omega
    · have := h.window
      dsimp only
      omega
    · rw [← h.nextId]
      exact hi
    · simpa only [Stats.addProcessed, hs] using h.published
    · simp only [Stats.addProcessed, hs, h.processed, wrap64, msgIdWrapThreshold] at bound ⊢
      omega
    · simpa only [Stats.addProcessed, hs] using h.dropped
    · dsimp only
      omega
  · have none : n = 0 := by omega
    subst none
    simp only [lt_irrefl, if_false, add_zero, take_zero, drop_zero] at ring prod ⊢
    refine ⟨trivial,ring,?_,?_,?_,h.cached_le,h.window,?_,h.ids,?_,?_,?_,h.balance⟩
    · rw [hp, h.prodPos]
    · rw [hr, h.consPos]
    · rw [hc, h.cachedPos]
    · rw [hi, h.nextId]
    · rw [hs, h.published]
    · rw [hs, h.processed]
    · rw [hs, h.dropped]

end

/-! ## Sequences of calls -/

/-- Every publish of the sequence starts with a message id below the wrap threshold. -/
def IdsBelow (cfg : Config) : Memory α → List (Op α) → Prop
  | _, [] => True
  | m, op :: ops =>
    (∀ r, op = .publish r → m.nextMsgId < msgIdWrapThreshold) ∧ IdsBelow cfg (apply cfg m op).1 ops

theorem apply_sim (h : Rep cfg m q cached cons) (op : Op α)
    (below : ∀ r, op = .publish r → m.nextMsgId < msgIdWrapThreshold) :
    ∃ cached' cons', (apply cfg m op).2 = (q.apply cfg.getThresholdForPriority cfg.batchSize op).2 ∧
      Rep cfg (apply cfg m op).1 (q.apply cfg.getThresholdForPriority cfg.batchSize op).1 cached' cons' := by
  cases op with
  | publish r =>
    obtain ⟨cached',same,rep⟩ := publish_sim h (below r rfl) r
    exact ⟨cached',cons,by simp only [apply, Queue.apply, same],rep⟩
  | process =>
    obtain ⟨same,rep⟩ := process_sim h
    exact ⟨cached,_,by simp only [apply, Queue.apply, same],rep⟩

/-- Every sequence of calls runs in lockstep with the queue. -/
theorem run_sim : ∀ (ops : List (Op α)) (m : Memory α) (q : Queue α) (cached cons : Nat),
    Rep cfg m q cached cons → IdsBelow cfg m ops →
    (runCalls cfg m ops).2 = (q.run cfg.getThresholdForPriority cfg.batchSize ops).2 ∧
      ∃ cached' cons', Rep cfg (runCalls cfg m ops).1
        (q.run cfg.getThresholdForPriority cfg.batchSize ops).1 cached' cons' := by
  intro ops
  induction ops with
  | nil =>
    intro m q cached cons h _
    exact ⟨rfl,cached,cons,h⟩
  | cons op ops ih =>
    intro m q cached cons h below
    obtain ⟨cached',cons',same,rep⟩ := apply_sim h op below.1
    obtain ⟨tail,last⟩ := ih _ _ cached' cons' rep below.2
    exact ⟨by simp only [runCalls, Queue.run, same, tail],last⟩

/-- The pending envelopes as the consumer would read them: from `consumer_pos_` on, as many as
`Depth()` says. -/
def pendingItems (cfg : Config) (m : Memory α) : List (Envelope α) :=
  (range (sub32 m.producerPos m.consumerPos)).map fun i =>
    let node := m.ring (cfg.index (wrap32 (m.consumerPos + i)))
    ⟨node.header, node.payload⟩

theorem Rep.pendingItems_eq (h : Rep cfg m q cached cons) : pendingItems cfg m = q.items := by
  apply ext_getElem
  · simp only [pendingItems, length_map, length_range, h.realDepth]
  · intro i _ hi
    have node := h.ring.pending i hi
    simp only [pendingItems, getElem_map, getElem_range, h.consPos, wrap32_add_left,
      index_eq, wrap32_mod, node, Envelope.node]

/-- The bus as a list: after every sequence of complete calls with ids below the wrap threshold, the answers and the
pending envelopes are the queue's, the cached consumer position changes no admission decision, and the counters balance.
-/
def BehavesAsQueue (α : Type) [Inhabited α] (cfg : Config) (threshold : MessagePriority → Nat) : Prop :=
  ∀ ops : List (Op α), IdsBelow cfg .init ops → let m := (runCalls cfg .init ops).1
    let q := (Queue.empty.run threshold cfg.batchSize ops).1
    (runCalls cfg .init ops).2 = (Queue.empty.run threshold cfg.batchSize ops).2 ∧
    pendingItems cfg m = q.items ∧
    (∀ p, (cfg.getThresholdForPriority p ≤ sub32 m.producerPos m.cachedConsumerPos ∧
        cfg.getThresholdForPriority p ≤ sub32 m.producerPos m.consumerPos) ↔
      cfg.getThresholdForPriority p ≤ sub32 m.producerPos m.consumerPos) ∧
    m.stats.messagesPublished = m.stats.messagesProcessed + q.evictions + q.items.length ∧
    m.stats.messagesDropped = wrap64 (q.rejected + q.evictions)

theorem behaves_code_thresholds [Inhabited α] (cfg : Config) : BehavesAsQueue α cfg cfg.getThresholdForPriority := by
  intro ops below
  obtain ⟨same,cached,cons,rep⟩ := run_sim ops _ _ 0 0 (Rep.init cfg) below
  refine ⟨same,rep.pendingItems_eq,?_,?_,rep.dropped⟩
  · intro p
    rw [rep.decision, rep.realDepth]
  · rw [rep.published, rep.processed]
    exact rep.balance

theorem thresholds_eq (cfg : Config) (fits : cfg.queueDepth ≤ 2 ^ 25) :
    cfg.getThresholdForPriority = cfg.percentages := by
  funext p
  cases p <;> simp only [Config.getThresholdForPriority, percentages] <;> exact cfg.percent_of_fits (by omega)

theorem behaves_of_fits [Inhabited α] (cfg : Config) (fits : cfg.queueDepth ≤ 2 ^ 25) :
    BehavesAsQueue α cfg cfg.percentages := thresholds_eq cfg fits ▸ behaves_code_thresholds cfg

/-! ## What a wrapped threshold does -/

theorem medium_wraps (cfg : Config) (big : 2 ^ 25 < cfg.queueDepth) :
    cfg.getThresholdForPriority .kMedium < cfg.percentages .kMedium := by
  have upper := cfg.asserted
  have lower : 25 < cfg.logDepth := (Nat.pow_lt_pow_iff_right (by decide)).1 big
  simp only [Config.getThresholdForPriority, percentages, Config.percent, Config.queueDepth, wrap32]
  generalize cfg.logDepth = k at lower upper
  interval_cases k <;> decide

section

variable (threshold : MessagePriority → Nat) (batch : Nat)
include threshold batch

theorem Queue.accepted_apply (q : Queue α) (op : Op α) :
    (q.apply threshold batch op).1.accepted ≤ q.accepted + 1 := by
  cases op with
  | process => exact Nat.le_succ _
  | publish r =>
    simp only [Queue.apply, Queue.publish]
    split
    · exact le_rfl
    · split
      · cases Queue.victim q.items with
        | none => exact Nat.le_succ _
        | some i => exact le_rfl
      · exact Nat.le_succ _

omit threshold batch in
theorem idsBelow_of_length : ∀ (ops : List (Op α)) (m : Memory α) (q : Queue α)
    (cached cons : Nat), Rep cfg m q cached cons → q.accepted + ops.length < msgIdWrapThreshold →
    IdsBelow cfg m ops := by
  intro ops
  induction ops with
  | nil => intros; trivial
  | cons op ops ih =>
    intro m q cached cons h short
    simp only [length_cons] at short
    have below : m.nextMsgId < msgIdWrapThreshold := by
      rw [h.nextId]
      omega
    obtain ⟨cached',cons',_,rep⟩ := apply_sim h op (fun _ _ => below)
    have grown := q.accepted_apply cfg.getThresholdForPriority cfg.batchSize op
    exact ⟨fun _ _ => below,ih _ _ cached' cons' rep (by omega)⟩

theorem Queue.run_append (xs ys : List (Op α)) :
    ∀ q : Queue α, (q.run threshold batch (xs ++ ys)).2 =
      (q.run threshold batch xs).2 ++ ((q.run threshold batch xs).1.run threshold batch ys).2 := by
  induction xs with
  | nil => intro q; rfl
  | cons x xs ih => intro q; simp only [cons_append, Queue.run, ih]

theorem run_replicate (r : Request α)
    (medium : r.priority = .kMedium) : ∀ (n : Nat) (q : Queue α), q.items.length + n ≤ threshold .kMedium →
      (q.run threshold batch (replicate n (.publish r))).2 = replicate n (.outcome .accepted) ∧
        (q.run threshold batch (replicate n (.publish r))).1.items.length = q.items.length + n := by
  intro n
  induction n with
  | zero =>
    intro q _
    exact ⟨rfl,rfl⟩
  | succ n ih =>
    intro q room
    have admitted : q.items.length < threshold r.priority := by
      rw [medium]
      omega
    simp only [replicate_succ, Queue.run, Queue.apply, Queue.publish, if_pos admitted]
    obtain ⟨outs,len⟩ := ih { q with items := q.items ++ [r.envelope (q.accepted + 1)], accepted := q.accepted + 1 }
      (by simp only [length_append, length_singleton]; omega)
    refine ⟨by rw [outs],?_⟩
    rw [len]
    simp only [length_append, length_singleton]
    omega

end

/-- At the wrapped threshold the bus drops what the queue appends. -/
theorem not_behaves [Inhabited α] (cfg : Config) (big : 2 ^ 25 < cfg.queueDepth) :
    ¬ BehavesAsQueue α cfg cfg.percentages := by
  intro behaves
  have lower := medium_wraps cfg big
  have limit := cfg.threshold_lt .kMedium
  have small := cfg.queueDepth_le
  generalize hT : cfg.getThresholdForPriority .kMedium = T at lower limit
  let r : Request α := ⟨default,0,0,.kMedium,0⟩
  have short : IdsBelow cfg .init (replicate (T + 1) (Op.publish r)) :=
    idsBelow_of_length _ _ _ 0 0 (Rep.init cfg) (by
      simp only [Queue.empty, length_replicate, msgIdWrapThreshold]
      omega)
  have spec := (behaves _ short).1
  rw [(behaves_code_thresholds cfg _ short).1, (run_replicate cfg.percentages cfg.batchSize r rfl (T + 1) .empty (by
      simp only [Queue.empty, length_nil]
      omega)).1, replicate_succ', replicate_succ', Queue.run_append] at spec
  -- after `T` accepted messages the code's queue is at its own threshold
  obtain ⟨outs,len⟩ := run_replicate cfg.getThresholdForPriority cfg.batchSize r rfl T .empty
    (by simp [Queue.empty, hT])
  have full : ¬ (Queue.empty.run cfg.getThresholdForPriority cfg.batchSize
      (replicate T (.publish r))).1.items.length < cfg.getThresholdForPriority r.priority := by
    rw [len, hT]
    simp [Queue.empty]
  rw [outs] at spec
  have last := append_cancel_left spec
  simp only [Queue.run, Queue.apply, Queue.publish, if_neg full, r, reduceCtorEq, if_false,
    cons.injEq, Output.outcome.injEq, and_true] at last

/-- **The bus as a bounded priority queue**, with thresholds of 60, 80 and 99 percent of the depth, exactly for
depths up to `2 ^ 25`; above that the threshold products wrap in `uint32_t`. -/
theorem behaves_as_queue_iff [Inhabited α] (cfg : Config) :
    BehavesAsQueue α cfg cfg.percentages ↔ cfg.queueDepth ≤ 2 ^ 25 := by
  constructor
  · intro behaves
    by_contra big
    exact not_behaves cfg (Nat.not_le.1 big) behaves
  · exact behaves_of_fits cfg

/-- A depth of `2 ^ 26` passes both static assertions, and the 10737419th medium message is dropped at 16 percent of
the depth. -/
theorem depth_2_26_not_queue : ¬ BehavesAsQueue Unit ⟨26, 256, by decide, by decide⟩
      (Config.percentages ⟨26, 256, by decide, by decide⟩) := not_behaves _ (by decide)

end Newosp.Bus
