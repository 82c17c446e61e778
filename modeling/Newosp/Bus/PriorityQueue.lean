import Newosp.Bus.Sequential

/-!
# The bounded priority queue behind `AsyncBus`

`Queue` says what the bus is for: a list of envelopes with admission thresholds per priority and in-place eviction for
`kHigh`. `Ring` relates the nodes of the bus to it, across the `2 ^ 32` wrap of the positions.
-/

namespace Newosp.Bus
open Lib List Function

variable {α : Type}

/-! ## The queue -/

/-- The pending envelopes and the counts a client can observe. -/
structure Queue (α : Type) where
  items : List (Envelope α)
  accepted : Nat
  rejected : Nat
  evictions : Nat
  processed : Nat

namespace Queue

def empty : Queue α := ⟨[], 0, 0, 0, 0⟩

def evictable (e : Envelope α) : Bool := e.header.priority != .kHigh

/-- The index of the first element of index at least 1 whose priority is below `kHigh`. -/
def victim (items : List (Envelope α)) : Option Nat := ((items.drop 1).findIdx? evictable).map (· + 1)

/-- Append below the threshold; at it, `kHigh` replaces the victim in place. -/
def publish (threshold : MessagePriority → Nat) (q : Queue α) (r : Request α) : Queue α × Outcome :=
  let e := r.envelope (q.accepted + 1)
  if q.items.length < threshold r.priority then
    ({ q with items := q.items ++ [e], accepted := q.accepted + 1 }, .accepted)
  else if r.priority = .kHigh then
    match victim q.items with
    | some i =>
      ({ q with items := q.items.set i e, accepted := q.accepted + 1,
                evictions := q.evictions + 1 }, .accepted)
    | none => ({ q with rejected := q.rejected + 1 }, .rejected .kQueueFull (q.accepted + 1))
  else ({ q with rejected := q.rejected + 1 }, .rejected .kQueueFull (q.accepted + 1))

/-- Deliver and remove the first `min batch length` elements. -/
def process (batch : Nat) (q : Queue α) : Queue α × List (Envelope α) :=
  let n := min batch q.items.length
  ({ q with items := q.items.drop n, processed := q.processed + n }, q.items.take n)

def apply (threshold : MessagePriority → Nat) (batch : Nat) (q : Queue α) : Op α → Queue α × Output α
  | .publish r => let (q, o) := q.publish threshold r; (q, .outcome o)
  | .process => let (q, out) := q.process batch; (q, .delivered out)

def run (threshold : MessagePriority → Nat) (batch : Nat) (q : Queue α) : List (Op α) → Queue α × List (Output α)
  | [] => (q, [])
  | op :: ops =>
    let (q, o) := q.apply threshold batch op
    let (q, os) := run threshold batch q ops
    (q, o :: os)

end Queue

def Config.percentages (cfg : Config) : MessagePriority → Nat
  | .kLow => cfg.queueDepth * 60 / 100
  | .kMedium => cfg.queueDepth * 80 / 100
  | .kHigh => cfg.queueDepth * 99 / 100

/-! ## The ring holds the list -/

def Envelope.node (e : Envelope α) (p : Nat) : Node α := ⟨wrap32 (p + 1), e.header.priority.code, e.header, e.payload⟩

/-- The nodes from position `cons` on hold `items`, published, and the others are free. -/
structure Ring (cfg : Config) (ring : Nat → Node α) (cons : Nat) (items : List (Envelope α)) : Prop where
  room : items.length < cfg.queueDepth
  pending : ∀ i (hi : i < items.length), ring ((cons + i) % cfg.queueDepth) = items[i].node (cons + i)
  free : ∀ p, cons + items.length ≤ p → p < cons + cfg.queueDepth → (ring (p % cfg.queueDepth)).sequence = wrap32 p

section

variable {cfg : Config} {ring : Nat → Node α} {cons : Nat} {items : List (Envelope α)}

theorem Ring.push (h : Ring cfg ring cons items) (e : Envelope α) (room : items.length + 1 < cfg.queueDepth) :
    Ring cfg (update ring ((cons + items.length) % cfg.queueDepth)
      (e.node (cons + items.length))) cons (items ++ [e]) where
  room := by simpa using room
  pending := by
    intro i hi
    simp only [length_append, length_singleton] at hi
    by_cases old : i < items.length
    · have apart : (cons + i) % cfg.queueDepth ≠ (cons + items.length) % cfg.queueDepth :=
        index_ne (by omega) (by omega) (by omega)
      rw [update_of_ne apart, h.pending i old, getElem_append_left old]
    · have new : i = items.length := by omega
      subst new
      rw [update_self, getElem_append_right le_rfl]
      simp
  free := by
    intro p lo hi
    simp only [length_append, length_singleton] at lo
    have apart : p % cfg.queueDepth ≠ (cons + items.length) % cfg.queueDepth :=
      index_ne (by omega) (by omega) (by omega)
    rw [update_of_ne apart]
    exact h.free p (by omega) hi

theorem Ring.set (h : Ring cfg ring cons items) (e : Envelope α) {i : Nat} (hi : i < items.length) :
    Ring cfg (update ring ((cons + i) % cfg.queueDepth) (e.node (cons + i))) cons (items.set i e) where
  room := by simpa using h.room
  pending := by
    intro j hj
    simp only [length_set] at hj
    have room := h.room
    by_cases same : j = i
    · subst same
      rw [update_self, getElem_set_self]
    · have apart : (cons + j) % cfg.queueDepth ≠ (cons + i) % cfg.queueDepth :=
        index_ne (by omega) (by omega) (by omega)
      rw [update_of_ne apart, h.pending j hj, getElem_set_ne (Ne.symm same)]
  free := by
    intro p lo hp
    simp only [length_set] at lo
    have apart : p % cfg.queueDepth ≠ (cons + i) % cfg.queueDepth :=
      index_ne (by omega) (by omega) (by omega)
    rw [update_of_ne apart]
    exact h.free p lo hp

theorem Ring.pop {e : Envelope α} (h : Ring cfg ring cons (e :: items)) (n : Node α)
    (released : n.sequence = wrap32 (cons + cfg.queueDepth)) :
    Ring cfg (update ring (cons % cfg.queueDepth) n) (cons + 1) items where
  room := by
    have := h.room
    simp only [length_cons] at this
    omega
  pending := by
    intro i hi
    have room := h.room
    simp only [length_cons] at room
    have apart : (cons + 1 + i) % cfg.queueDepth ≠ cons % cfg.queueDepth :=
      index_ne (by omega) (by omega) (by omega)
    have old := h.pending (i + 1) (by simpa using hi)
    rw [update_of_ne apart, show cons + 1 + i = cons + (i + 1) by omega, old, getElem_cons_succ]
  free := by
    intro p lo hp
    by_cases last : p = cons + cfg.queueDepth
    · subst last
      rw [Nat.add_mod_right, update_self, released]
    · have apart : p % cfg.queueDepth ≠ cons % cfg.queueDepth :=
        index_ne (by omega) (by omega) (by omega)
      rw [update_of_ne apart]
      exact h.free p (by simp only [length_cons]; omega) (by omega)

theorem Ring.init [Inhabited α] (cfg : Config) : Ring (α := α) cfg Memory.init.ring 0 [] where
  room := by
    have := cfg.queueDepth_two_le
    simp only [length_nil]
    omega
  pending := by
    intro i hi
    cases hi
  free := by
    intro p _ hp
    have := cfg.queueDepth_le
    have small : p % cfg.queueDepth = p := Nat.mod_eq_of_lt (by omega)
    rw [small, wrap32_of_lt (by omega)]
    rfl

theorem evictScan_eq (m : Memory α) (h : Ring cfg m.ring cons items) :
    ∀ n i, i + n = cfg.queueDepth → i ≤ items.length →
      evictScan cfg m (wrap32 (cons + items.length)) (wrap32 cons) n i =
        ((items.drop i).findIdx? Queue.evictable).map (fun j => wrap32 (cons + (i + j))) := by
  have room := h.room
  have limit := cfg.queueDepth_le
  intro n
  induction n with
  | zero =>
    intro i hn hi
    omega
  | succ n ih =>
    intro i hn hi
    simp only [evictScan, wrap32_add_left, Config.index_eq, Config.wrap32_mod]
    rcases Nat.eq_or_lt_of_le hi with last | inside
    · subst last
      simp
    · have differ : wrap32 (cons + i) ≠ wrap32 (cons + items.length) := by
        intro eq
        have := wrap32_inj (by omega) (by omega) eq
        omega
      have node := h.pending i inside
      rw [if_neg differ, node, drop_eq_getElem_cons inside, findIdx?_cons]
      have same : ¬ (items[i].node (cons + i)).sequence ≠ wrap32 (cons + i + 1) := by
        simp [Envelope.node]
      rw [if_neg same]
      simp only [Envelope.node, MessagePriority.high_le_code]
      by_cases high : items[i].header.priority = .kHigh
      · rw [if_pos high, ih (i + 1) (by omega) inside]
        simp only [Queue.evictable, high, bne_self_eq_false, Bool.false_eq_true, if_false, Option.map_map]
        congr 1
        funext j
        simp only [comp]
        congr 1
        omega
      · rw [if_neg high]
        simp [Queue.evictable, high]

theorem processLoop_spec : ∀ (n : Nat) (m : Memory α) (cons : Nat) (items : List (Envelope α)),
      Ring cfg m.ring cons items → ∃ m', processLoop cfg n m (wrap32 cons) =
          (m', wrap32 (cons + min n items.length), items.take (min n items.length)) ∧
        Ring cfg m'.ring (cons + min n items.length) (items.drop (min n items.length)) ∧
        m'.producerPos = m.producerPos ∧ m'.consumerPos = m.consumerPos ∧
        m'.cachedConsumerPos = m.cachedConsumerPos ∧ m'.nextMsgId = m.nextMsgId ∧ m'.stats = m.stats := by
  intro n
  induction n with
  | zero =>
    intro m cons items h
    exact ⟨m,by simp [processLoop],by simpa using h,rfl,rfl,rfl,rfl,rfl⟩
  | succ n ih =>
    intro m cons items h
    have limit := cfg.queueDepth_le
    have two := cfg.queueDepth_two_le
    simp only [processLoop, wrap32_add_left, Config.index_eq, Config.wrap32_mod]
    cases items with
    | nil =>
      have seq := h.free cons (by simp) (by omega)
      have stop : ¬ (m.ring (cons % cfg.queueDepth)).sequence = wrap32 (cons + 1) := by
        rw [seq]
        intro eq
        have := wrap32_inj (by omega) (by omega) eq
        omega
      rw [if_neg stop]
      exact ⟨m,by simp,by simpa using h,rfl,rfl,rfl,rfl,rfl⟩
    | cons e items =>
      have node := h.pending 0 (by simp)
      simp only [add_zero, getElem_cons_zero] at node
      have go : (m.ring (cons % cfg.queueDepth)).sequence = wrap32 (cons + 1) := by
        rw [node]
        rfl
      rw [if_pos go]
      have popped := h.pop { m.ring (cons % cfg.queueDepth) with
        sequence := wrap32 (cons + cfg.queueDepth) } rfl
      obtain ⟨m',run,ring,frame⟩ := ih
        (m.storeSequence (cons % cfg.queueDepth) (wrap32 (cons + cfg.queueDepth))) (cons + 1) items popped
      rw [run, node]
      have count : min (n + 1) (e :: items).length = min n items.length + 1 := by
        simp only [length_cons]
        omega
      rw [count]
      refine ⟨m',?_,?_,frame⟩
      · simp only [Envelope.node, take_succ_cons]
        rw [show cons + 1 + min n items.length = cons + (min n items.length + 1) by omega]
      · rw [drop_succ_cons, show cons + (min n items.length + 1) = cons + 1 + min n items.length by omega]
        exact ring

end

end Newosp.Bus
