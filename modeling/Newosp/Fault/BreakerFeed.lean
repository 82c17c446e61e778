import Newosp.Breaker.Steps
import Newosp.Fault.Shutdown
import Newosp.Lib.Endless

/-!
# What the collector feeds its breaker

`ReportFault` feeds an overflow for each drop, and the consumer loop a dispatch cycle and a watermark per round.
`OnProbeSuccess` is called nowhere, so a breaker that has left Normal does not come back. It stays Normal as long as
nothing is dropped and the queues are less than half full.
-/

namespace Newosp.Breaker

section

theorem valid_unpack (word : Nat) : Valid (unpack word) := by
  have field : ∀ k m, word >>> k &&& (2 ^ m - 1) < 2 ^ m := by
    intro k m
    rw [Nat.and_two_pow_sub_one_eq_mod]
    exact Nat.mod_lt _ (Nat.two_pow_pos m)
  have cooldown := field kCooldownShift 16
  have direct := field kDirectTimeoutShift 2
  have rtc := field kRtcTimeoutShift 2
  have high := field kHighWatermarkShift 2
  have low := field kLowWatermarkShift 2
  have healthy := field kHealthyWindowShift 2
  exact ⟨cooldown,Nat.le_of_lt_succ direct,Nat.le_of_lt_succ rtc,Nat.le_of_lt_succ high,Nat.le_of_lt_succ low,
    Nat.le_of_lt_succ healthy⟩

theorem unpack_update (cooldownCycles : UInt16) (word : Nat) (e : Event) :
    unpack (update cooldownCycles word e) = transition cooldownCycles e (unpack word) :=
  unpack_pack ((valid_unpack word).transition e)

variable {cooldownCycles : UInt16} {s : State}

theorem onDispatchCycle_unprobed (unprobed : s.probeSuccess = false) :
    onDispatchCycle s = { s with cooldownRemaining := s.cooldownRemaining - 1 } := by
  apply onDispatchCycle_idle
  rintro ⟨-,-,probed⟩
  rw [unprobed] at probed
  cases probed

def Event.Fed (e : Event) : Prop := e = .overflow ∨ e = .dispatchCycle ∨ ∃ percent, e = .watermark percent

theorem Event.Fed.no_way_up {e : Event} (fed : e.Fed) (unprobed : s.probeSuccess = false) :
    (transition cooldownCycles e s).probeSuccess = false ∧
      (s.level ≠ .normal → (transition cooldownCycles e s).level ≠ .normal) := by
  rcases fed with rfl | rfl | ⟨percent,rfl⟩
  · cases here : s.level <;> simp only [transition, onOverflow, here]
    case normal | brokenL1 | recovering => exact ⟨rfl,by rintro _ ⟨⟩⟩
    case brokenL2 | safe => exact ⟨unprobed,id⟩
  · simp only [transition, onDispatchCycle_unprobed unprobed]
    exact ⟨unprobed,id⟩
  · obtain ⟨high,low,eq,-⟩ := sample_spec (e := .watermark percent) s rfl
    cases here : s.level <;> simp only [transition, onWatermark, eq, here]
    case safe => exact ⟨unprobed,id⟩
    case brokenL1 =>
      split
      · exact ⟨rfl,by rintro _ ⟨⟩⟩
      · split
        · exact ⟨rfl,by rintro _ ⟨⟩⟩
        · exact ⟨unprobed,by simp⟩
    all_goals
      split
      · exact ⟨rfl,by rintro _ ⟨⟩⟩
      · exact ⟨unprobed,id⟩

theorem stays_normal {percent : UInt8} (low : percent < kLowWatermarkPct) (normal : s.level = .normal) :
    (transition cooldownCycles (.watermark percent) s).level = .normal := by
  rcases normal_step cooldownCycles normal (.watermark percent) with stays | ⟨-,cause⟩
  · exact stays.level
  · -- a sample below 50 percent ends a row of high ones
    have reset : sampleStep isHigh s.highWatermarkConsec (.watermark percent) = 0 := by
      have below : ¬ percent > kWatermarkViolationPct := by
        intro above
        have lt : percent.toNat < 50 := UInt8.lt_iff_toNat_lt.1 low
        have gt : 80 < percent.toNat := UInt8.lt_iff_toNat_lt.1 above
        omega
      show (if isHigh percent then _ else 0) = 0
      rw [isHigh, decide_eq_false below]
      exact if_neg Bool.false_ne_true
    rcases cause with ⟨no,-⟩ | ⟨no,-⟩ | row | no | no | no
    · cases no
    · cases no
    · omega
    all_goals cases no

end

end Newosp.Breaker

namespace Newosp.Fault
open Lib List
open Function (update update_self)
open Breaker (Event level unpack unpack_update)

section

variable {ι : Type} {spurious : Bool}

def sizeOf (s : State ι) (p : FaultPriority) : Nat := Mpsc.size (s.queues p).mem.producerPos (s.queues p).mem.consumerPos

/-- `QueueDepthCurrent`, if nothing moves meanwhile. -/
def queueDepthCurrent (s : State ι) : Nat :=
  wrap32 (wrap32 (wrap32 (wrap32 (0 + sizeOf s .kCritical) + sizeOf s .kHigh) + sizeOf s .kMedium) + sizeOf s .kLow)

def held (s : State ι) (p : FaultPriority) : Nat := (s.queues p).claims.length - (s.queues p).popped.length

def heldAbove (s : State ι) : FaultPriority → Nat
  | .kCritical => 0
  | .kHigh => held s .kCritical
  | .kMedium => held s .kCritical + held s .kHigh
  | .kLow => held s .kCritical + held s .kHigh + held s .kMedium

def heldTotal (s : State ι) : Nat := heldAbove s .kLow + held s .kLow

def Sampled (s : State ι) : Prop :=
  match s.cpc with
  | .sampleProd _ pri usage => usage ≤ heldAbove s pri
  | .sampleCons _ pri usage prod => usage ≤ heldAbove s pri ∧
      ∃ n, prod = wrap32 n ∧ (s.queues pri).popped.length ≤ n ∧ n ≤ (s.queues pri).claims.length
  | .onWatermark _ usage => usage ≤ heldTotal s
  | _ => True

variable {cfg : Config} {s t : State ι}

theorem Sampled.keep (h : Sampled s) (cpc : t.cpc = s.cpc) (popped : ∀ p, (t.queues p).popped = (s.queues p).popped)
    (claims : ∀ p, (s.queues p).claims.length ≤ (t.queues p).claims.length) : Sampled t := by
  have more : ∀ p, held s p ≤ held t p := by
    intro p
    rw [held, held, popped]
    exact Nat.sub_le_sub_right (claims p) _
  have moreAbove : ∀ p, heldAbove s p ≤ heldAbove t p := by
    intro p
    have critical := more .kCritical
    have high := more .kHigh
    have medium := more .kMedium
    cases p <;> simp only [heldAbove] <;> omega
  unfold Sampled at h ⊢
  rw [cpc]
  cases here : s.cpc <;> simp only [here] at h ⊢
  case sampleProd => exact h.trans (moreAbove _)
  case sampleCons =>
    obtain ⟨le,n,eq,low,high⟩ := h
    exact ⟨le.trans (moreAbove _),n,eq,popped _ ▸ low,high.trans (claims _)⟩
  case onWatermark => exact h.trans (Nat.add_le_add (moreAbove _) (more _))

def Settled (s : State ι) : Prop := ∀ p pos out, (s.queues p).cpc ≠ .storePos pos out

theorem Inv.settled (h : Inv cfg s) (out : ∀ v, s.cpc ≠ .popping v) : Settled s :=
  fun p => Mpsc.ConsumerPC.settled (h.log.quiet out p)

theorem Inv.sizeOf_eq (h : Inv cfg s) (settled : Settled s) (p : FaultPriority) : sizeOf s p = held s p := by
  have ring := h.rings p
  have small : cfg.queue.depth ≤ 2 ^ 29 := Nat.pow_le_pow_right (by decide) cfg.capacity
  have room := ring.room
  rw [sizeOf, Mpsc.size, ring.producerPos, ring.consumerPos (settled p), sub32_wrap32 ring.le (by omega), held]

theorem Inv.held_le (h : Inv cfg s) (p : FaultPriority) : held s p ≤ cfg.queueDepth := by
  have room := (h.rings p).room
  rw [held, Config.queueDepth]
  omega

theorem wrap32_le (n : Nat) : wrap32 n ≤ n := Nat.mod_le ..

theorem Inv.queueDepthCurrent_eq (h : Inv cfg s) (settled : Settled s) : queueDepthCurrent s = heldTotal s := by
  have small : cfg.queueDepth ≤ 2 ^ 29 := Nat.pow_le_pow_right (by decide) cfg.capacity
  have critical := h.held_le .kCritical
  have high := h.held_le .kHigh
  have medium := h.held_le .kMedium
  have low := h.held_le .kLow
  simp only [queueDepthCurrent, h.sizeOf_eq settled, heldTotal, heldAbove, wrap32]
  omega

theorem heldAbove_lower (s : State ι) (pri : FaultPriority) : match pri.lower with
    | some below => heldAbove s below = heldAbove s pri + held s pri
    | none => heldTotal s = heldAbove s pri + held s pri := by
  cases pri <;> simp only [FaultPriority.lower, heldAbove, heldTotal, zero_add]

def ConsumerPC.sampling : ConsumerPC → Bool
  | .sampleProd _ _ _ | .sampleCons _ _ _ _ | .onWatermark _ _ => true
  | _ => false

theorem Sampled.of_not_sampling (rest : s.cpc.sampling = false) : Sampled s := by
  unfold Sampled
  cases here : s.cpc <;> simp only
  case sampleProd | sampleCons | onWatermark => rw [here] at rest; cases rest

theorem Visit.leave_sampling (v : Visit) : v.leave.sampling = false := by
  unfold Visit.leave
  split
  · rfl
  · split <;> rfl

variable [DecidableEq ι]

theorem Sampled.consumer (h : Sampled s) (inv : Inv cfg s) (step : consumerNext cfg spurious s = some t) :
    Sampled t := by
  cases here : s.cpc <;> simp only [consumerNext, here] at step
  case hook v entry event | exited => cases step
  case drain v =>
    obtain ⟨s',-,rfl⟩ := Option.map_eq_some_iff.1 step
    exact .of_not_sampling rfl
  case popping v =>
    obtain ⟨s',-,rfl⟩ := Option.map_eq_some_iff.1 step
    apply Sampled.of_not_sampling
    show (v.popped _).sampling = false
    unfold Visit.popped
    split
    · exact v.leave_sampling
    · rfl
    · rfl
  case count v entry =>
    split at step <;> cases step <;> exact .of_not_sampling rfl
  case escalate v entry =>
    split at step
    · obtain ⟨s',-,rfl⟩ := Option.map_eq_some_iff.1 step
      apply Sampled.of_not_sampling
      show (v.pushed _ _).sampling = false
      unfold Visit.pushed
      split <;> rfl
    · cases step
  case loadRunning | onWatermark =>
    cases step
    apply Sampled.of_not_sampling
    dsimp only
    split <;> rfl
  case loadShutdown | clear _ _ | requestShutdown _ | addProcessed _ | wait =>
    cases step
    exact .of_not_sampling rfl
  case dispatchCycle processed =>
    cases step
    exact le_refl 0
  case sampleProd processed pri usage =>
    cases step
    simp only [Sampled, here] at h
    exact ⟨h,_,(inv.rings pri).producerPos,(inv.rings pri).le,le_rfl⟩
  case sampleCons processed pri usage prod =>
    cases step
    simp only [Sampled, here] at h
    obtain ⟨le,n,rfl,low,high⟩ := h
    have counted : Mpsc.size (wrap32 n) (s.queues pri).mem.consumerPos ≤ held s pri := by
      rw [(inv.rings pri).consumerPos (inv.settled (by simp [here]) pri)]
      exact (sub32_wrap32_le low).trans (Nat.sub_le_sub_right high _)
    have sum : wrap32 (usage + Mpsc.size (wrap32 n) (s.queues pri).mem.consumerPos) ≤ heldAbove s pri + held s pri :=
      (wrap32_le _).trans (Nat.add_le_add le counted)
    have grow := heldAbove_lower s pri
    cases lower : pri.lower with
    | none =>
      rw [lower] at grow
      simp only [Sampled]
      show _ ≤ heldTotal s
      omega
    | some below =>
      rw [lower] at grow
      simp only [Sampled]
      show _ ≤ heldAbove s below
      omega

theorem reporter_frame {c : ι} (step : reporterNext cfg c spurious s = some t) : t.cpc = s.cpc ∧
    (t.breaker = s.breaker ∨ s.pc c = .onOverflow ∧ t.breaker = Breaker.update kCooldownCycles s.breaker .overflow) ∧
    (∀ p, (t.queues p).popped = (s.queues p).popped) ∧
    ∀ p, (s.queues p).claims.length ≤ (t.queues p).claims.length := by
  cases here : s.pc c <;> simp only [reporterNext, here] at step
  case idle | done outcome => cases step
  case loadProd | addDropped | addTotalDropped | addReported | addTotalReported | setActive =>
    cases step
    exact ⟨rfl,.inl rfl,fun _ => rfl,fun _ => le_rfl⟩
  case onOverflow =>
    cases step
    exact ⟨rfl,.inr ⟨rfl,rfl⟩,fun _ => rfl,fun _ => le_rfl⟩
  case loadCons prod =>
    split at step
    · obtain ⟨q,ring,rfl⟩ := onQueue_map_eq step
      obtain ⟨own,-⟩ := Mpsc.pushNext_own ring
      exact ⟨rfl,.inl rfl,update_same (·.popped) own.popped,fun p => ((queue_kept ring).1 p).length_le⟩
    · cases step
      exact ⟨rfl,.inl rfl,fun _ => rfl,fun _ => le_rfl⟩
  case pushing =>
    obtain ⟨q,ring,rfl⟩ := onQueue_map_eq step
    obtain ⟨own,-⟩ := Mpsc.producerNext_own ring
    exact ⟨rfl,.inl rfl,update_same (·.popped) own.popped,fun p => ((queue_kept ring).1 p).length_le⟩

theorem Sampled.next {a : Act ι} (h : Sampled s) (inv : Inv cfg s) (step : next cfg a s = some t) : Sampled t := by
  cases a with
  | report c entry =>
    simp only [Fault.next, reportNext] at step
    obtain ⟨_,⟨⟩⟩ := enabled step
    exact h.keep rfl (fun _ => rfl) fun _ => le_rfl
  | reporter c spurious =>
    obtain ⟨cpc,-,popped,claims⟩ := reporter_frame step
    exact h.keep cpc popped claims
  | copyIn c i =>
    simp only [Fault.next, copyInNext] at step
    obtain ⟨_,step⟩ := enabled step
    obtain ⟨q,ring,rfl⟩ := onQueue_eq step
    obtain ⟨own,-⟩ := Mpsc.copyInNext_own ring
    exact h.keep rfl (update_same (·.popped) own.popped) fun p => ((queue_kept ring).1 p).length_le
  | consumer spurious => exact h.consumer inv step
  | copyOut i =>
    obtain ⟨v,q,here,-,rfl⟩ := copyOutNext_eq step
    exact .of_not_sampling (by rw [here]; rfl)
  | copyEscalated i =>
    obtain ⟨v,entry,p,q,here,-,-,rfl⟩ := copyEscalatedNext_eq step
    exact .of_not_sampling (by rw [here]; rfl)
  | answer action =>
    obtain ⟨v,entry,event,-,⟨-,on⟩ | ⟨-,p,q,-,-,rfl⟩⟩ := answerNext_eq step
    · apply Sampled.of_not_sampling
      rcases on with ⟨-,eq⟩ | ⟨-,eq | eq⟩ <;> rw [eq] <;> rfl
    · exact .of_not_sampling rfl
  | callStop =>
    simp only [Fault.next] at step
    obtain ⟨_,⟨⟩⟩ := enabled step
    exact h.keep rfl (fun _ => rfl) fun _ => le_rfl
  | stopper =>
    rw [stopperNext_frame step]
    exact h.keep rfl (fun _ => rfl) fun _ => le_rfl

theorem reach_sampled {entry : FaultEntry} (h : Reach (machine cfg entry) (prompt cfg) s) : Inv cfg s ∧ Sampled s := by
  apply h.invariant (I := fun s => Inv cfg s ∧ Sampled s) ⟨init_inv cfg entry,.of_not_sampling rfl⟩
  intro s t a _ ih guard step
  exact ⟨next_inv ih.1 guard step,ih.2.next ih.1 step⟩

end

section

variable {ι : Type} [DecidableEq ι] {cfg : Config} {s t : State ι} {a : Act ι} {entry : FaultEntry}
  {ok : State ι → Act ι → Prop}

/-- The events that a step feeds the breaker. -/
inductive Feeds (cfg : Config) (s : State ι) : Act ι → Event → Prop
  | overflow {c : ι} {spurious : Bool} : s.pc c = .onOverflow → Feeds cfg s (.reporter c spurious) .overflow
  | dispatchCycle {spurious : Bool} {processed : Nat} : s.cpc = .dispatchCycle processed →
      Feeds cfg s (.consumer spurious) .dispatchCycle
  | watermark {spurious : Bool} {processed usage : Nat} : s.cpc = .onWatermark processed usage →
      Feeds cfg s (.consumer spurious) (.watermark (cfg.watermark usage))

omit [DecidableEq ι] in
theorem Feeds.fed {e : Event} (feeds : Feeds cfg s a e) : e.Fed := by
  cases feeds with
  | overflow => exact .inl rfl
  | dispatchCycle => exact .inr (.inl rfl)
  | watermark => exact .inr (.inr ⟨_,rfl⟩)

theorem next_breaker (step : next cfg a s = some t) : t.breaker = s.breaker ∨
    ∃ e, Feeds cfg s a e ∧ unpack t.breaker = Breaker.transition kCooldownCycles e (unpack s.breaker) := by
  cases a with
  | report c entry =>
    simp only [next, reportNext] at step
    split at step <;> cases step
    exact .inl rfl
  | reporter c spurious =>
    rcases (reporter_frame step).2.1 with same | ⟨here,fed⟩
    · exact .inl same
    · exact .inr ⟨_,.overflow here,fed ▸ unpack_update ..⟩
  | copyIn c i =>
    simp only [next, copyInNext] at step
    obtain ⟨_,step⟩ := enabled step
    obtain ⟨q,-,rfl⟩ := onQueue_eq step
    exact .inl rfl
  | consumer spurious =>
    cases here : s.cpc <;> simp only [next, consumerNext, here] at step
    case hook | exited => cases step
    case dispatchCycle =>
      cases step
      exact .inr ⟨_,.dispatchCycle here,unpack_update ..⟩
    case onWatermark =>
      cases step
      exact .inr ⟨_,.watermark here,unpack_update ..⟩
    case drain | popping =>
      obtain ⟨q,-,rfl⟩ := onQueue_map_eq step
      exact .inl rfl
    case count =>
      split at step <;> cases step <;> exact .inl rfl
    case escalate =>
      split at step
      · obtain ⟨q,-,rfl⟩ := onQueue_map_eq step
        exact .inl rfl
      · cases step
    all_goals
      cases step
      exact .inl rfl
  | copyOut i =>
    obtain ⟨v,q,-,-,rfl⟩ := copyOutNext_eq step
    exact .inl rfl
  | copyEscalated i =>
    obtain ⟨v,entry,p,q,-,-,-,rfl⟩ := copyEscalatedNext_eq step
    exact .inl rfl
  | answer action =>
    obtain ⟨v,entry,event,-,⟨frame,-⟩ | ⟨-,p,q,-,-,rfl⟩⟩ := answerNext_eq step
    · exact .inl (by rw [frame])
    · exact .inl rfl
  | callStop =>
    simp only [next] at step
    split at step <;> cases step
    exact .inl rfl
  | stopper =>
    exact .inl (by rw [stopperNext_frame step])

def Unprobed (s : State ι) : Prop := (unpack s.breaker).probeSuccess = false

omit [DecidableEq ι] in
theorem unprobed_init (entry : FaultEntry) : Unprobed (State.init (ι := ι) entry) := by
  have word : (State.init (ι := ι) entry).breaker = Breaker.pack Breaker.fresh := rfl
  rw [Unprobed, word, Breaker.unpack_pack Breaker.valid_fresh]
  rfl

theorem Unprobed.next (h : Unprobed s) (step : next cfg a s = some t) : Unprobed t := by
  rcases next_breaker step with eq | ⟨e,feeds,eq⟩
  · rw [Unprobed, eq]
    exact h
  · rw [Unprobed, eq]
    exact (feeds.fed.no_way_up (s := unpack s.breaker) h).1

theorem reach_unprobed (h : Reach (machine cfg entry) ok s) : Unprobed s := by
  apply h.invariant (unprobed_init entry)
  intro s t a _ ih _ step
  exact ih.next step

theorem level_stays_broken (h : Reach (machine cfg entry) ok s)
    (step : next cfg a s = some t) (broken : level s.breaker ≠ .normal) : level t.breaker ≠ .normal := by
  rcases next_breaker step with eq | ⟨e,feeds,eq⟩
  · rw [eq]
    exact broken
  · rw [level, eq]
    exact (feeds.fed.no_way_up (s := unpack s.breaker) (reach_unprobed h)).2 broken

theorem watermark_lt {usage : Nat} (low : usage * 100 < 50 * (cfg.queueDepth * 4)) :
    cfg.watermark usage < Breaker.kLowWatermarkPct := by
  have small : cfg.queueDepth ≤ 2 ^ 29 := Nat.pow_le_pow_right (by decide) cfg.capacity
  have capacity : wrap32 (cfg.queueDepth * 4) = cfg.queueDepth * 4 := wrap32_of_lt (by omega)
  have percent : wrap32 (usage * 100) / wrap32 (cfg.queueDepth * 4) < 50 := by
    rw [capacity]
    apply Nat.div_lt_of_lt_mul
    exact lt_of_le_of_lt (wrap32_le _) (by omega)
  rw [Config.watermark, UInt8.lt_iff_toNat_lt, UInt8.toNat_ofNat']
  exact lt_of_le_of_lt (Nat.mod_le ..) percent

theorem level_stays_normal (h : Reach (machine cfg entry) (prompt cfg) s)
    (step : next cfg a s = some t) (kept : ∀ c spurious, a = .reporter c spurious → s.pc c ≠ .onOverflow)
    (low : queueDepthCurrent s * 100 < 50 * (cfg.queueDepth * 4)) (normal : level s.breaker = .normal) :
    level t.breaker = .normal := by
  obtain ⟨inv,sampled⟩ := reach_sampled h
  rcases next_breaker step with eq | ⟨e,feeds,eq⟩
  · rw [eq]
    exact normal
  · rw [level, eq]
    cases feeds with
    | overflow dropping => exact absurd dropping (kept _ _ rfl)
    | dispatchCycle =>
      simp only [Breaker.transition, Breaker.onDispatchCycle_unprobed (s := unpack s.breaker) (reach_unprobed h)]
      exact normal
    | watermark here =>
      apply Breaker.stays_normal _ normal
      apply watermark_lt
      simp only [Sampled, here] at sampled
      rw [inv.queueDepthCurrent_eq (inv.settled (by simp [here]))] at low
      omega

end

section

variable {ι : Type} [DecidableEq ι] {cfg : Config} {entry : FaultEntry} {ρ : Nat → State ι} {α : Nat → Act ι}

/-- From here on no report is dropped, and the queues are less than half full. -/
structure Relaxed (cfg : Config) (ρ : Nat → State ι) (α : Nat → Act ι) : Prop where
  kept : ∀ k c spurious, α k = .reporter c spurious → (ρ k).pc c ≠ .onOverflow
  low : ∀ k, queueDepthCurrent (ρ k) * 100 < 50 * (cfg.queueDepth * 4)

theorem stays_broken (run : Endless (machine cfg entry) (prompt cfg) ρ α) (broken : level (ρ 0).breaker ≠ .normal)
    (k : Nat) : level (ρ k).breaker ≠ .normal := by
  induction k with
  | zero => exact broken
  | succ k ih => exact level_stays_broken (run.reach k) (run.next k) ih

/-- **The breaker comes back to Normal exactly if it never left it.** -/
theorem breaker_normal_iff (run : Endless (machine cfg entry) (prompt cfg) ρ α) (relaxed : Relaxed cfg ρ α) :
    (∃ m, ∀ k, m ≤ k → level (ρ k).breaker = .normal) ↔ level (ρ 0).breaker = .normal := by
  constructor
  · rintro ⟨m,normal⟩
    by_contra broken
    exact stays_broken run broken m (normal m (le_refl m))
  · intro normal
    refine ⟨0,fun k later => ?_⟩
    clear later
    induction k with
    | zero => exact normal
    | succ k ih => exact level_stays_normal (run.reach k) (run.next k) (relaxed.kept k) (relaxed.low k) ih

/-! ### A collector with nothing to do -/

def ConsumerPC.Idling : ConsumerPC → Prop
  | .loadRunning | .loadShutdown | .wait => True
  | .drain v | .popping v => v.final = false ∧ v.processed = 0
  | .dispatchCycle processed | .sampleProd processed _ _ | .sampleCons processed _ _ _ | .onWatermark processed _ =>
    processed = 0
  | _ => False

def ConsumerPC.phase : ConsumerPC → Nat
  | .loadShutdown => 1
  | .drain v => 2 + 2 * v.pri.code
  | .popping v => 3 + 2 * v.pri.code
  | .dispatchCycle _ => 10
  | .sampleProd _ pri _ => 11 + 2 * pri.code
  | .sampleCons _ pri _ _ => 12 + 2 * pri.code
  | .onWatermark _ _ => 19
  | .wait => 20
  | _ => 0

structure Idle (cfg : Config) (s : State ι) : Prop where
  inv : Inv cfg s
  running : s.running = true
  going : s.shutdownRequested = false
  empty : ∀ p, (s.queues p).claims.length = (s.queues p).popped.length
  consumer : s.cpc.Idling
  looking : ∀ v, s.cpc = .popping v → ∃ pos out, (s.queues v.pri).cpc = .loadSeq pos out

variable {s t : State ι}

section

variable (h : Idle cfg s)
include h

omit [DecidableEq ι] in
theorem Idle.prompted : prompt cfg s (.consumer false) := by
  intro v entry p here
  have idling := h.consumer
  rw [here] at idling
  exact idling.elim

theorem Idle.rest (step : consumerNext cfg false s = some t) (frame : t = { t with
      queues := s.queues, running := s.running, shutdownRequested := s.shutdownRequested }) (idling : t.cpc.Idling)
    (out : ∀ v, t.cpc ≠ .popping v) : Idle cfg t := by
  have inv := next_inv (a := .consumer false) h.inv h.prompted step
  rw [frame] at inv ⊢
  exact { h with inv := inv, consumer := idling, looking := fun v here => absurd here (out v) }

theorem Idle.inQueue {p : FaultPriority} {q : Mpsc.State (Caller ι) 4 UInt64} {cpc : ConsumerPC}
    (step : consumerNext cfg false s = some { s with queues := update s.queues p q, cpc := cpc })
    (claims : q.claims = (s.queues p).claims) (popped : q.popped = (s.queues p).popped) (idling : cpc.Idling)
    (looking : ∀ v, cpc = .popping v → v.pri = p ∧ ∃ pos out, q.cpc = .loadSeq pos out) :
    Idle cfg { s with queues := update s.queues p q, cpc := cpc } where
  inv := next_inv (a := .consumer false) h.inv h.prompted step
  running := h.running
  going := h.going
  empty p' := by
    show (update s.queues p q p').claims.length = (update s.queues p q p').popped.length
    rw [update_same (·.claims) claims p', update_same (·.popped) popped p']
    exact h.empty p'
  consumer := idling
  looking v here := by
    obtain ⟨rfl,found⟩ := looking v here
    simpa only [update_self] using found

/-- One step of a collector with nothing to do: it goes on in its round, or begins the next one. -/
theorem Idle.step : ∃ t, next cfg (.consumer false) s = some t ∧ Idle cfg t ∧
    (t.cpc = .loadRunning ∨ t.cpc.phase = s.cpc.phase + 1) := by
  have idling := h.consumer
  cases here : s.cpc <;> rw [here] at idling
  case hook v entry event | exited | count v entry | clear v entry | escalate v entry | requestShutdown v | addProcessed v =>
    exact idling.elim
  case loadRunning =>
    have step : consumerNext cfg false s = some { s with cpc := .loadShutdown } := by
      simp only [consumerNext, here, h.running, if_true]
    exact ⟨_,step,h.rest step rfl trivial (by simp),.inr rfl⟩
  case loadShutdown =>
    have step : consumerNext cfg false s = some { s with cpc := .drain ⟨false,.kCritical,0⟩ } := by
      simp only [consumerNext, here, h.going]
    exact ⟨_,step,h.rest step rfl ⟨rfl,rfl⟩ (by simp),.inr rfl⟩
  case drain v =>
    have ring := (Mpsc.popNext_eq fun _ => 0).trans (if_pos (h.inv.log.quiet (by simp [here]) v.pri))
    have step := (show consumerNext cfg false s = _ by
      simp only [consumerNext, here, State.onQueue, Mpsc.next, ring, Option.map_some]; rfl)
    refine ⟨_,step,h.inQueue step rfl rfl idling ?_,.inr ?_⟩
    · rintro w ⟨⟩
      exact ⟨rfl,_,_,rfl⟩
    · show 3 + 2 * v.pri.code = 2 + 2 * v.pri.code + 1
      omega
  case popping v =>
    obtain ⟨pos,out,at_⟩ := h.looking v here
    have ring := (h.inv.rings v.pri).finds_nothing at_ (h.empty v.pri)
    have step : consumerNext cfg false s = some { s with
        queues := update s.queues v.pri { s.queues v.pri with cpc := .done none }, cpc := v.leave } := by
      simp only [consumerNext, here, State.onQueue, Mpsc.next, ring, Option.map_some, update_self, Visit.popped]
    have leave : v.leave.Idling ∧ v.leave.phase = 4 + 2 * v.pri.code ∧ ∀ w, v.leave ≠ .popping w := by
      obtain ⟨final,pri,processed⟩ := v
      obtain ⟨rfl,rfl⟩ := idling
      cases pri <;> exact ⟨by simp [Visit.leave, FaultPriority.lower, ConsumerPC.Idling],rfl,by rintro _ ⟨⟩⟩
    refine ⟨_,step,h.inQueue step rfl rfl leave.1 fun w eq => absurd eq (leave.2.2 w),.inr ?_⟩
    rw [show ConsumerPC.phase (.popping v) = 3 + 2 * v.pri.code from rfl]
    exact leave.2.1.trans (by omega)
  case dispatchCycle processed =>
    have step := (show consumerNext cfg false s = _ by simp only [consumerNext, here]; rfl)
    exact ⟨_,step,h.rest step rfl idling (by simp),.inr rfl⟩
  case sampleProd processed pri usage =>
    have step := (show consumerNext cfg false s = _ by simp only [consumerNext, here]; rfl)
    refine ⟨_,step,h.rest step rfl idling (by simp),.inr ?_⟩
    show 12 + 2 * pri.code = 11 + 2 * pri.code + 1
    omega
  case sampleCons processed pri usage prod =>
    have step := (show consumerNext cfg false s = _ by simp only [consumerNext, here]; rfl)
    refine ⟨_,step,h.rest step rfl ?_ ?_,.inr ?_⟩
    · cases pri <;> exact idling
    · cases pri <;> rintro _ ⟨⟩
    · cases pri <;> rfl
  case onWatermark processed usage =>
    cases idling
    have step := (show consumerNext cfg false s = _ by simp only [consumerNext, here]; rfl)
    exact ⟨_,step,h.rest step rfl trivial (by simp),.inr rfl⟩
  case wait =>
    have step := (show consumerNext cfg false s = _ by simp only [consumerNext, here]; rfl)
    exact ⟨_,step,h.rest step rfl trivial (by simp),.inl rfl⟩

omit [DecidableEq ι] in
theorem Idle.usage : queueDepthCurrent s = 0 := by
  have settled : Settled s := by
    intro p pos entry here
    obtain ⟨v,popping,rfl⟩ := h.inv.log.resting p (by rw [here]; rfl)
    obtain ⟨_,_,looking⟩ := h.looking v popping
    cases here.symm.trans looking
  have nothing : ∀ p, held s p = 0 := by
    intro p
    rw [held, h.empty p, Nat.sub_self]
  simp only [h.inv.queueDepthCurrent_eq settled, heldTotal, heldAbove, nothing]

end

theorem ConsumerPC.phase_le (cpc : ConsumerPC) : cpc.phase ≤ 20 := by
  cases cpc
  case drain v | popping v => have := v.pri.code_lt; simp only [phase]; omega
  case sampleProd _ pri _ => have := pri.code_lt; simp only [phase]; omega
  case sampleCons _ pri _ _ => have := pri.code_lt; simp only [phase]; omega
  all_goals simp [phase]

theorem Idle.run (h : Idle cfg s) (reached : Reach (machine cfg entry) (prompt cfg) s) :
    ∃ ρ, ρ 0 = s ∧ Endless (machine cfg entry) (prompt cfg) ρ (fun _ => .consumer false) ∧
      Relaxed cfg ρ (fun _ => .consumer false) ∧ ∀ k, ∃ m, k ≤ m ∧ (ρ m).cpc = .loadRunning := by
  have progress : ∀ s : State ι, Idle cfg s → prompt cfg s (.consumer false) ∧
      ∃ t, (machine cfg entry).next (.consumer false) s = some t ∧ Idle cfg t := by
    intro s idle
    obtain ⟨t,step,idle',-⟩ := idle.step
    exact ⟨idle.prompted,t,step,idle'⟩
  obtain ⟨ρ,start,run,idle⟩ := Endless.exists_of_progress (fun _ => .consumer false) progress reached h
  have one_le : 1 ≤ cfg.queueDepth := Nat.two_pow_pos _
  refine ⟨ρ,start,run,⟨nofun,fun k => by rw [(idle k).usage]; omega⟩,?_⟩
  -- a round has 21 steps
  have soon : ∀ n k, 20 < n + (ρ k).cpc.phase → ∃ m, k ≤ m ∧ (ρ m).cpc = .loadRunning := by
    intro n
    induction n with
    | zero =>
      intro k late
      have := (ρ k).cpc.phase_le
      omega
    | succ n ih =>
      intro k late
      obtain ⟨t,step,-,moved⟩ := (idle k).step
      cases step.symm.trans (run.next k)
      rcases moved with begins | on
      · exact ⟨k + 1,Nat.le_succ k,begins⟩
      · obtain ⟨m,later,begins⟩ := ih (k + 1) (by omega)
        exact ⟨m,by omega,begins⟩
  exact fun k => soon 21 k (by omega)

def lowFault : FaultEntry := ⟨3, .kLow, 12, 600⟩

/-- A report is queued. -/
def queueRun {ι : Type} (c : ι) : List (Act ι) :=
  .report c lowFault :: replicate 5 (.reporter c false) ++ (finRange 4).map (.copyIn c) ++
    replicate 4 (.reporter c false)

/-- The consumer handles a report of the lowest priority and ends its round. -/
def handleRun {ι : Type} : List (Act ι) :=
  replicate 10 (.consumer false) ++ (finRange 4).map .copyOut ++ replicate 3 (.consumer false) ++
    .answer .kHandled :: replicate 14 (.consumer false)

/-- A prompt step, as a run without escalations can check it. -/
def promptCheck (s : State (Fin 2)) : Act (Fin 2) → Bool
  | .reporter c _ =>
    let q := s.queues (s.report c).priority
    q.claims.length - q.loaded (.inl c) + pairs.queueDepth ≤ 2147483648
  | .consumer _ => !(s.cpc matches .escalate _ _)
  | _ => true

theorem promptCheck_sound (s : State (Fin 2)) (a : Act (Fin 2)) (passes : promptCheck s a = true) : prompt pairs s a := by
  cases a with
  | reporter c spurious => exact fun _ => recent_of_le (of_decide_eq_true passes)
  | consumer spurious =>
    intro v entry p here
    simp only [promptCheck, here] at passes
    cases passes
  | _ => trivial

/-- The consumer is about to begin a round over empty queues. -/
def Rested (s : State (Fin 2)) : Prop := s.cpc = .loadRunning ∧ s.running = true ∧ s.shutdownRequested = false ∧
  ∀ p ∈ [FaultPriority.kCritical, .kHigh, .kMedium, .kLow], (s.queues p).claims.length = (s.queues p).popped.length

instance (s : State (Fin 2)) : Decidable (Rested s) := inferInstanceAs (Decidable (_ ∧ _))

theorem Rested.idle {s : State (Fin 2)} (h : Rested s) (reached : Reach (machine pairs lowFault) (prompt pairs) s) :
    Idle pairs s where
  inv := (reach_sampled reached).1
  running := h.2.1
  going := h.2.2.1
  empty p := h.2.2.2 p (by cases p <;> decide)
  consumer := by rw [h.1]; trivial
  looking := by rw [h.1]; nofun

/-- A collector that has handled one report and then has nothing to do. -/
theorem breaker_normal_iff_new : ∃ (ρ : Nat → State (Fin 2)) (α : Nat → Act (Fin 2)),
    Endless (machine pairs lowFault) (prompt pairs) ρ α ∧ Relaxed pairs ρ α ∧
    ((ρ 0).queues .kLow).popped.length = 1 ∧ level (ρ 0).breaker = .normal ∧
    ((∃ m, ∀ k, m ≤ k → level (ρ k).breaker = .normal) ↔ level (ρ 0).breaker = .normal) := by
  obtain ⟨s,reached,rested,popped,normal⟩ := reach_of_run (machine pairs lowFault) promptCheck_sound
    (queueRun 0 ++ handleRun)
    (fun s => Rested s ∧ (s.queues .kLow).popped.length = 1 ∧ level s.breaker = .normal) (by decide +kernel)
  obtain ⟨ρ,start,run,relaxed,-⟩ := (rested.idle reached).run reached
  exact ⟨ρ,_,run,relaxed,by rw [start, popped],by rw [start, normal],breaker_normal_iff run relaxed⟩

/-- After one drop the collector is idle for ever, and the breaker is never Normal again. -/
theorem dropped_once_never_normal : ∃ ρ : Nat → State (Fin 2),
    Endless (machine pairs lowFault) (prompt pairs) ρ (fun _ => .consumer false) ∧
    Relaxed pairs ρ (fun _ => .consumer false) ∧ (∀ k, ∃ m, k ≤ m ∧ (ρ m).cpc = .loadRunning) ∧
    ∀ k, level (ρ k).breaker ≠ .normal := by
  obtain ⟨s,reached,rested,broken⟩ := reach_of_run (machine pairs lowFault) promptCheck_sound
    (queueRun 0 ++ .report 1 lowFault :: replicate 5 (.reporter 1 false) ++ handleRun)
    (fun s => Rested s ∧ level s.breaker = .brokenL2) (by decide +kernel)
  obtain ⟨ρ,start,run,relaxed,rounds⟩ := (rested.idle reached).run reached
  refine ⟨ρ,run,relaxed,rounds,stays_broken run ?_⟩
  rw [start, broken]
  nofun

end

end Newosp.Fault
