import Mathlib.Data.List.Nodup
import Newosp.Bus.ConsumerSteps

/-!
# Exactly-once delivery of the bus

Before the positions wrap: only free slots are claimed, every accepted message is in one slot, was dispatched once or
overwritten once, dispatch follows the claims, evictions spare `kHigh`, and no envelope mixes two publishes.
-/

namespace Newosp.Bus
open Lib List

variable {ι α : Type} {cfg : Config} {req : ι → Request α} {s : State ι α} {st : Nat → Status ι} {p : Nat} {m : ι}

theorem RingInv.evictor_header (h : RingInv cfg req s st) (small : Unwrapped cfg s) {e : ι}
    (win : InWindow cfg s p) (eq : st p = .reserved e none) : s.headerBy (p % cfg.queueDepth) = some e := by
  unfold Unwrapped at small
  have position := h.owner p e win (by rw [eq]; rfl)
  have call := h.calls e
  have consumed := h.cons_le
  have behind := h.released_le
  have scan : ∀ {cons i}, ScanOk cfg req s e cons i → wrap32 (cons + i) = cons + i :=
    fun ok => wrap32_of_lt (by have := ok.2.1; have := ok.2.2.2; omega)
  have untouched : ∀ hold, Untouched cfg req s st e hold → hold.pos ≠ p := by
    rintro hold u rfl
    cases hold with
    | claimed q => simp [show st q = .claimed e from u.2, Hold.pos] at eq
    | reserved q =>
      obtain ⟨-,-,m,held,-⟩ := u
      simp [held, Hold.pos] at eq
  cases here : s.pc e <;> rw [here] at position call
  case scanVerify id prod cons i | scanRestore id prod cons i =>
    obtain ⟨ok,-,m,held⟩ := call
    simp only [PC.position, scan ok, Option.some.injEq] at position
    rw [position, eq] at held
    cases held
  case fetchId hold | writeHeader hold msgId =>
    cases position
    exact absurd rfl (untouched hold call)
  case writePayload hold | storePriority hold | storeSequence hold =>
    cases position
    have := call.2
    first
      | exact this.1
      | exact this.1.1
  all_goals cases position

theorem RingInv.releasing_of_consuming (h : RingInv cfg req s st) (win : InWindow cfg s p)
    (eq : st p = .consuming none) : s.cpc.releasing = true ∧ p = s.released := by
  obtain ⟨rfl,busy⟩ := h.consuming p none win eq
  have call := h.consumer
  refine ⟨?_,rfl⟩
  cases here : s.cpc <;> rw [here] at busy call
  case release => rfl
  case readHeader =>
    obtain ⟨-,-,m,held⟩ := call
    rw [eq] at held
    cases held
  case readPayload =>
    obtain ⟨-,-,m,held,-⟩ := call
    rw [eq] at held
    cases held
  all_goals cases busy

/-- The number that a waiting message shows is of no position of its node. -/
theorem Status.seq_of_message {x : Status ι} (message : x.message = some m) (p : Nat) :
    x.seq cfg.queueDepth p % cfg.queueDepth ≠ p % cfg.queueDepth := by
  have next := index_succ_ne (a := p) cfg.queueDepth_two_le
  cases x with
  | free | claimed => cases message
  | published => exact next
  | reserved =>
    rw [Status.seq, Nat.add_mul_mod_self_right]
    exact next
  | consuming =>
    rw [Status.seq, Nat.add_mod_right]
    exact next

theorem dispatched_le (h : RingInv cfg req s st) :
    (s.released + if s.cpc.releasing then 1 else 0) ≤ s.claims.length := by
  have behind := h.released_le
  have two := cfg.queueDepth_two_le
  have win : InWindow cfg s s.released := ⟨le_rfl,by omega⟩
  have call := h.consumer
  cases here : s.cpc <;> rw [here] at call
  case release =>
    obtain ⟨-,-,held⟩ := call
    by_contra full
    have free := (h.free_iff s.released win).2 (by simp only [ConsumerPC.releasing, if_true] at full; omega)
    rw [held] at free
    cases free
  all_goals exact behind

section

variable [DecidableEq ι] {t : State ι α} {a : Act ι}

theorem init_inv [Inhabited α] (cfg : Config) (req : ι → Request α) : Inv cfg req (State.init : State ι α) := by
  have two := cfg.queueDepth_two_le
  refine ⟨fun _ => .free,fun _ => .unplaced,?_,?_⟩
  · constructor
    case prodPos | claimPos => rfl
    case cons_le | released_le => exact le_rfl
    case room => exact Nat.zero_le _
    case free_iff => exact fun _ _ => ⟨fun _ => Nat.zero_le _,fun _ => rfl⟩
    case sequence =>
      rintro p ⟨-,hi⟩
      have small : p < cfg.queueDepth := by simpa [State.init] using hi
      exact Nat.mod_eq_of_lt small
    case content => rintro p m - ⟨⟩
    case owner => rintro p c - ⟨⟩
    case consuming => rintro p m - ⟨⟩
    case calls => exact fun _ => trivial
    case consumer => rfl
  · constructor
    case message_iff => simp [Status.message]
    case window => rintro p m ⟨⟩
    case unplaced_iff => exact fun _ => ⟨fun _ => rfl,fun _ => rfl⟩
    case dispatched | evicted => exact fun _ => rfl
    case dispatchPos => rfl
    case dispatchOk | evictOk => rintro d ⟨⟩

theorem next_claims (step : next cfg req a s = some t) : s.claims.length ≤ t.claims.length := by
  cases a with
  | call c =>
    simp only [next] at step
    obtain ⟨_,⟨⟩⟩ := enabled step
    simp
  | producer c spurious => exact producerNext_claims step
  | consumer =>
    cases step
    rw [(consumerNext_frame cfg s).2.1]

/-- One step of the bus. -/
theorem next_inv (h : Inv cfg req s) (small : Unwrapped cfg t) (step : next cfg req a s = some t) : Inv cfg req t := by
  have narrow : Unwrapped cfg s := lt_of_le_of_lt (Nat.add_le_add_right (next_claims step) _) small
  obtain ⟨st,place,ring,log⟩ := h
  cases a with
  | call c =>
    simp only [next] at step
    obtain ⟨idle,⟨⟩⟩ := enabled step
    exact goto_step ring log idle rfl rfl trivial
  | producer c spurious => exact producer_step ring log small step
  | consumer =>
    cases step
    exact consumer_step ring log narrow

theorem reach_inv [Inhabited α] {ok : State ι α → Act ι → Prop} (h : Reach (machine cfg req) ok s)
    (small : Unwrapped cfg s) : Inv cfg req s := by
  refine h.invariant (I := fun s => Unwrapped cfg s → Inv cfg req s) (fun _ => init_inv cfg req) ?_ small
  intro s t a _ ih _ step small
  exact next_inv (ih (lt_of_le_of_lt (Nat.add_le_add_right (next_claims step) _) small)) small step

end

/-! ## What an observer of the memory sees -/

section

variable [DecidableEq ι] (cfg req)

/-- The whole message of call `m` sits in node `j`, which is not free, and the consumer has not dispatched it. -/
def PendingAt (s : State ι α) (m : ι) (j : Nat) : Prop := s.headerBy j = some m ∧ s.payloadBy j = some m ∧
  (s.mem.ring j).sequence % cfg.queueDepth ≠ j ∧
  ¬ (s.cpc.releasing = true ∧ s.released % cfg.queueDepth = j)

instance (s : State ι α) (m : ι) (j : Nat) : Decidable (PendingAt cfg s m j) :=
  inferInstanceAs (Decidable (_ ∧ _ ∧ _ ∧ _))

/-- In how many nodes the message of call `m` is pending. -/
def pendingCount (s : State ι α) (m : ι) : Nat := (range cfg.queueDepth).countP fun j => PendingAt cfg s m j

/-- The slot of position `pos` shows its number, nobody works on it, and its previous occupant was dispatched and
released. -/
structure SlotFree (s : State ι α) (pos : Nat) : Prop where
  sequence : (s.mem.ring (cfg.index pos)).sequence = pos
  noCall : ∀ d p, (s.pc d).position = some p → p % cfg.queueDepth ≠ pos % cfg.queueDepth
  noConsumer : s.cpc.busy = true → s.released % cfg.queueDepth ≠ pos % cfg.queueDepth
  occupant : ∀ q, q + cfg.queueDepth = pos → q < s.released ∧ ∃ d ∈ s.dispatched, d.pos = q

/-- Exactly-once delivery, as an observer of one state sees it. -/
structure ExactlyOnce (s : State ι α) : Prop where
  claimFree : ∀ c id pos, s.pc c = .casPos id pos → s.mem.producerPos = pos → SlotFree cfg s pos
  accounted : ∀ c, s.pc c = .done .accepted → pendingCount cfg s c + dispatchCount s c + evictCount s c = 1
  inOrder : s.dispatched.map Dispatch.pos <+: s.claims.map Prod.snd
  evictedLow : ∀ x ∈ s.evicted, ∃ v, x.1 = some v ∧ (req v).priority ≠ .kHigh
  highKept : ∀ c, (req c).priority = .kHigh → evictCount s c = 0
  whole : ∀ d ∈ s.dispatched, ∃ c id, d.headerBy = some c ∧ d.payloadBy = some c ∧ d.envelope = (req c).envelope id

variable {cfg req} {place : ι → Place}

section

variable (h : RingInv cfg req s st) (l : LogInv cfg req s st place) (small : Unwrapped cfg s)
include h l small

theorem pendingAt_iff (returned : (s.pc m).position = none) {j : Nat} (hj : j < cfg.queueDepth) :
    PendingAt cfg s m j ↔ ∃ p, place m = .pending p ∧ p % cfg.queueDepth = j := by
  constructor
  · rintro ⟨header,payload,seq,notReleasing⟩
    obtain ⟨q,win,at_j⟩ := window_cover cfg s j
    rw [Nat.mod_eq_of_lt hj] at at_j
    subst at_j
    have shown := h.sequence q win
    have found : ∀ m', (st q).message = some m' →
        ∃ p, place m = .pending p ∧ p % cfg.queueDepth = q % cfg.queueDepth := by
      intro m' message
      have writer := (h.content q m' win message).1.1
      rw [header] at writer
      cases writer
      exact ⟨q,(l.message_iff q m win).1 message,rfl⟩
    cases eq : st q with
    | free | claimed =>
      rw [eq] at shown
      exact absurd (by rw [shown]; rfl) seq
    | published m' => exact found m' (by rw [eq]; rfl)
    | reserved e old =>
      cases old with
      | some m' => exact found m' (by rw [eq]; rfl)
      | none =>
        have writer := h.evictor_header small win eq
        rw [header] at writer
        cases writer
        rw [h.owner q m win (by rw [eq]; rfl)] at returned
        cases returned
    | consuming old =>
      cases old with
      | some m' => exact found m' (by rw [eq]; rfl)
      | none =>
        obtain ⟨releasing,head⟩ := h.releasing_of_consuming win eq
        exact absurd ⟨releasing,by rw [head]⟩ notReleasing
  · rintro ⟨p,pending,rfl⟩
    have win := l.window p m pending
    have message := (l.message_iff p m win).2 pending
    obtain ⟨⟨header,-⟩,⟨payload,-⟩,-⟩ := h.content p m win message
    refine ⟨header,payload,?_,?_⟩
    · rw [h.sequence p win]
      exact Status.seq_of_message message p
    · rintro ⟨releasing,head⟩
      have call := h.consumer
      cases here : s.cpc <;> rw [here] at releasing call
      case release =>
        obtain ⟨-,-,gone⟩ := call
        have two := cfg.queueDepth_two_le
        have first : InWindow cfg s s.released := ⟨le_rfl,by omega⟩
        rw [← first.inj win head, gone] at message
        cases message
      all_goals cases releasing

theorem pendingCount_eq (returned : (s.pc m).position = none) :
    pendingCount cfg s m = match place m with | .pending _ => 1 | _ => 0 := by
  have two := cfg.queueDepth_two_le
  have iff := fun j (hj : j ∈ range cfg.queueDepth) =>
    pendingAt_iff h l small returned (mem_range.1 hj)
  unfold pendingCount
  cases eq : place m with
  | pending p =>
    have here : p % cfg.queueDepth ∈ range cfg.queueDepth := mem_range.2 (Nat.mod_lt _ (by omega))
    rw [← count_eq_one_of_mem nodup_range here]
    refine countP_congr fun j hj => ?_
    rw [decide_eq_true_iff, iff j hj, eq, beq_iff_eq]
    exact ⟨fun ⟨q,same,at_j⟩ => by cases same; exact at_j.symm,fun at_j => ⟨p,rfl,at_j.symm⟩⟩
  | _ =>
    refine countP_eq_zero.2 fun j hj => ?_
    rw [decide_eq_true_iff, iff j hj, eq]
    rintro ⟨p,⟨⟩,-⟩

theorem slotFree {c : ι} {id pos : Nat} (here : s.pc c = .casPos id pos) (current : s.mem.producerPos = pos) :
    SlotFree cfg s pos := by
  have call := h.calls c
  rw [here] at call
  have last : pos = s.claims.length := by rw [← current]; exact h.prodPos
  have consumed := h.cons_le
  have behind := h.released_le
  have hi := call.2 last
  have win : InWindow cfg s pos := ⟨by omega,by omega⟩
  have free : st pos = .free := (h.free_iff pos win).2 (by omega)
  have apart : ∀ q, InWindow cfg s q → st q ≠ .free → q % cfg.queueDepth ≠ pos % cfg.queueDepth := by
    intro q wq taken same
    rw [wq.inj win same] at taken
    exact taken free
  constructor
  case sequence =>
    rw [Config.index_eq, h.sequence pos win, free]
    rfl
  case noCall =>
    intro d p position
    obtain ⟨wp,owner⟩ := (h.calls d).owned small (by omega) position
    refine apart p wp fun free' => ?_
    rw [free'] at owner
    cases owner
  case noConsumer =>
    intro busy
    have two := cfg.queueDepth_two_le
    refine apart s.released ⟨le_rfl,by omega⟩ fun free' => ?_
    have owned := h.consumer
    cases at_ : s.cpc <;> rw [at_] at busy owned
    case readHeader =>
      obtain ⟨-,-,m,held⟩ := owned
      rw [free'] at held
      cases held
    case readPayload =>
      obtain ⟨-,-,m,held,-⟩ := owned
      rw [free'] at held
      cases held
    case release =>
      obtain ⟨-,-,held⟩ := owned
      rw [free'] at held
      cases held
    all_goals cases busy
  case occupant =>
    intro q before
    have below : q < s.released := by omega
    refine ⟨below,?_⟩
    have member : q ∈ s.dispatched.map Dispatch.pos := by
      rw [l.dispatchPos, mem_range]
      omega
    exact mem_map.1 member

end

theorem Inv.exactlyOnce (h : Inv cfg req s) (small : Unwrapped cfg s) : ExactlyOnce cfg req s := by
  obtain ⟨st,place,ring,log⟩ := h
  constructor
  case claimFree => exact fun c id pos here current => slotFree ring log small here current
  case accounted =>
    intro c returned
    have placed : place c ≠ .unplaced := by
      intro none
      have := (log.unplaced_iff c).1 none
      rw [returned] at this
      cases this
    rw [pendingCount_eq ring log small (by rw [returned]; rfl), log.dispatched, log.evicted]
    cases eq : place c with
    | unplaced => exact absurd eq placed
    | pending p => rfl
    | dispatched => rfl
    | evicted => rfl
  case inOrder =>
    rw [log.dispatchPos, ring.claimPos, prefix_iff_eq_take, length_range, take_range,
      min_eq_left (dispatched_le ring)]
  case evictedLow =>
    intro x member
    obtain ⟨v,eq,low,-⟩ := log.evictOk x member
    exact ⟨v,eq,low⟩
  case highKept =>
    intro c high
    refine countP_eq_zero.2 fun x member => ?_
    obtain ⟨v,eq,low,-⟩ := log.evictOk x member
    rw [decide_eq_true_iff, eq, Option.some.injEq]
    rintro rfl
    exact low high
  case whole => exact log.dispatchOk

/-- **Exactly-once delivery** in every state of every schedule with fewer than
`2 ^ 32 - 3 * kQueueDepth` claims. -/
theorem exactly_once [Inhabited α] (h : Reach (machine cfg req) anyStep s) (small : Unwrapped cfg s) :
    ExactlyOnce cfg req s := (reach_inv h small).exactlyOnce small

end

/-- Three calls fill the bus, the urgent one evicts the second message, and a batch delivers. -/
theorem exactly_once_eviction : ∃ s : State Nat Nat, Reach (machine depth4 oneUrgent) anyStep s ∧ Unwrapped depth4 s ∧
    (s.dispatched.map Dispatch.payloadBy = [some 0, some 3, some 2] ∧ s.evicted = [(some 1, 3)] ∧
      s.pc 1 = .done .accepted) ∧ ExactlyOnce depth4 oneUrgent s := by
  obtain ⟨s,reached,small,seen⟩ := reach_of_schedule (machine depth4 oneUrgent)
      (callSteps 0 12 ++ callSteps 1 12 ++ callSteps 2 12 ++ callSteps 3 19 ++ replicate 16 .consumer)
      (fun s => s.claims.length + 3 * depth4.queueDepth < 4294967296 ∧
        s.dispatched.map Dispatch.payloadBy = [some 0, some 3, some 2] ∧ s.evicted = [(some 1, 3)] ∧
        s.pc 1 = .done .accepted) (by decide +kernel)
  exact ⟨s,reached,small,seen,exactly_once reached small⟩

end Newosp.Bus
