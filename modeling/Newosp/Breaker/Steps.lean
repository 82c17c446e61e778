import Mathlib.Data.List.Induction
import Newosp.Breaker.Breaker

/-!
# What an event does at each level

The word after a history unpacks to the state after it. One lemma for each kind of level says what an event can do
there; the counters of the state never exceed those read off the history.
-/

namespace Newosp.Breaker

def states (cycles : UInt16) (history : List Event) : State := history.foldl (fun s e => transition cycles e s) fresh

def Event.percent? : Event → Option UInt8
  | watermark percent => some percent
  | watermarkViolation => some (kWatermarkViolationPct + 1)
  | _ => none

/-! ### Counts of a history -/

/-- One more event of the kind `k`, or a call that ends the row. -/
def okStep (k : Event) (n : Nat) (e : Event) : Nat := if e = .rtcOk then 0 else if e = k then n + 1 else n

def sinceOk (k : Event) (history : List Event) : Nat := history.foldl (okStep k) 0

/-- One more watermark sample that meets `q`, or one that ends the row. -/
def sampleStep (q : UInt8 → Bool) (n : Nat) (e : Event) : Nat := match e.percent? with
  | none => n
  | some percent => if q percent then n + 1 else 0

/-- The watermark samples in a row, up to the end, that meet `q`. -/
def sampleRun (q : UInt8 → Bool) (history : List Event) : Nat := history.foldl (sampleStep q) 0

def isHigh (percent : UInt8) : Bool := percent > kWatermarkViolationPct

def isLow (percent : UInt8) : Bool := percent < kLowWatermarkPct

section

variable {k e : Event} {q : UInt8 → Bool} {history : List Event} {m n : Nat}

theorem sinceOk_snoc (k : Event) (history : List Event) (e : Event) :
    sinceOk k (history ++ [e]) = okStep k (sinceOk k history) e := List.foldl_append

theorem sampleRun_snoc (q : UInt8 → Bool) (history : List Event) (e : Event) :
    sampleRun q (history ++ [e]) = sampleStep q (sampleRun q history) e := List.foldl_append

theorem okStep_mono (le : m ≤ n) : okStep k m e ≤ okStep k n e := by
  unfold okStep
  split
  · exact le_rfl
  · split
    · exact Nat.succ_le_succ le
    · exact le

theorem sampleStep_mono (le : m ≤ n) : sampleStep q m e ≤ sampleStep q n e := by
  unfold sampleStep
  split
  · exact le
  · split
    · exact Nat.succ_le_succ le
    · exact le_rfl

end

/-! ### The word and the state -/

theorem increment_le {c : Nat} (le : c ≤ 3) : increment c ≤ 3 := by
  unfold increment kCounterMask
  split <;> omega

theorem increment_le_succ (c : Nat) : increment c ≤ c + 1 := by
  unfold increment
  split <;> omega

section

variable {cycles : UInt16} {s : State}

theorem valid_fresh : Valid fresh := by
  constructor <;> decide

theorem Valid.enterBroken (l : BreakerLevel) : Valid (enterBroken l cycles s) :=
  ⟨cycles.toNat_lt, Nat.zero_le _, Nat.zero_le _, Nat.zero_le _, Nat.zero_le _, Nat.zero_le _⟩

theorem Valid.enterRecovering (v : Valid s) : Valid (enterRecovering s) :=
  ⟨v.cooldown, Nat.zero_le _, Nat.zero_le _, Nat.zero_le _, Nat.zero_le _, Nat.zero_le _⟩

theorem Valid.ite {p : Prop} [Decidable p] {t : State} (v : Valid s) (w : Valid t) : Valid (if p then s else t) := by
  split
  · exact v
  · exact w

theorem Valid.sample (v : Valid s) (percent : UInt8) : Valid (sample s percent) := by
  unfold Breaker.sample
  split
  · exact ⟨v.cooldown,v.direct,v.rtc,increment_le v.high,Nat.zero_le _,v.healthy⟩
  · split
    · exact ⟨v.cooldown,v.direct,v.rtc,Nat.zero_le _,increment_le v.low,v.healthy⟩
    · exact ⟨v.cooldown,v.direct,v.rtc,Nat.zero_le _,Nat.zero_le _,v.healthy⟩

theorem Valid.onWatermark (v : Valid s) (percent : UInt8) : Valid (onWatermark cycles s percent) := by
  have v' := v.sample percent
  unfold Breaker.onWatermark
  dsimp only
  split
  · exact .ite (.enterBroken _) v'
  · exact .ite (.enterBroken _) (.ite v'.enterRecovering v')
  · exact .ite v'.enterRecovering v'
  · exact v'
  · exact .ite (.enterBroken _) v'

theorem Valid.onKeyReserveExhausted (v : Valid s) : Valid (onKeyReserveExhausted cycles s) := .ite (.enterBroken _) v

theorem Valid.onDispatchCycle (v : Valid s) : Valid (onDispatchCycle s) := by
  have cooled : Valid (if 0 < s.cooldownRemaining then { s with cooldownRemaining := s.cooldownRemaining - 1 } else s) :=
    .ite ⟨(Nat.sub_le _ _).trans_lt v.cooldown,v.direct,v.rtc,v.high,v.low,v.healthy⟩ v
  unfold Breaker.onDispatchCycle
  generalize (if 0 < s.cooldownRemaining then _ else s) = s' at cooled
  dsimp only
  exact .ite (.ite { cooled with healthy := Nat.zero_le _ } { cooled with healthy := increment_le cooled.healthy }) cooled

theorem Valid.transition (v : Valid s) (e : Event) : Valid (transition cycles e s) := by
  cases e with
  | directTimeout =>
    have v' : Valid { s with directTimeoutConsec := increment s.directTimeoutConsec } :=
      { v with direct := increment_le v.direct }
    unfold Breaker.transition onDirectTimeout
    dsimp only
    split
    · exact .ite (.enterBroken _) v'
    · exact v'
    · exact v'
    · exact v'
    · exact .enterBroken _
  | rtcTimeout =>
    have v' : Valid { s with rtcTimeoutConsec := increment s.rtcTimeoutConsec } :=
      { v with rtc := increment_le v.rtc }
    unfold Breaker.transition onRtcTimeout
    dsimp only
    split
    · exact .ite (.enterBroken _) v'
    · exact .ite (.enterBroken _) v'
    · exact v'
    · exact v'
    · exact .enterBroken _
  | rtcOk => exact { v with direct := Nat.zero_le _, rtc := Nat.zero_le _ }
  | watermark | watermarkViolation => exact v.onWatermark _
  | overflow =>
    unfold Breaker.transition onOverflow
    dsimp only
    split
    · exact .enterBroken _
    · exact .enterBroken _
    · exact .enterBroken _
    · exact v
    · exact v
  | keyReserveExhausted | watchdog => exact v.onKeyReserveExhausted
  | dispatchCycle => exact v.onDispatchCycle
  | probeSuccess => exact .ite { v with } v
  | probeFailure => exact .ite (.enterBroken _) v
  | externalSafeRestore => exact .ite v.enterRecovering v

theorem states_snoc (cycles : UInt16) (history : List Event) (e : Event) :
    states cycles (history ++ [e]) = transition cycles e (states cycles history) := List.foldl_append

theorem states_valid (cycles : UInt16) (history : List Event) : Valid (states cycles history) := by
  induction history using List.reverseRecOn with
  | nil => exact valid_fresh
  | append_singleton history e ih =>
    rw [states_snoc]
    exact ih.transition e

/-- The word unpacks to the state. -/
theorem unpack_run (cycles : UInt16) (history : List Event) : unpack (run cycles history) = states cycles history := by
  induction history using List.reverseRecOn with
  | nil => exact unpack_pack valid_fresh
  | append_singleton history e ih =>
    have next : run cycles (history ++ [e]) = update cycles (run cycles history) e := List.foldl_append
    rw [next, update, ih, ← states_snoc, unpack_pack (states_valid _ _)]

theorem level_run (cycles : UInt16) (history : List Event) :
    level (run cycles history) = (states cycles history).level := by
  rw [level, unpack_run]

end

/-! ### The levels -/

def BreakerLevel.Broken (l : BreakerLevel) : Prop := l = .brokenL1 ∨ l = .brokenL2 ∨ l = .safe

/-- A state right after an entry into L1, L2 or Safe. -/
structure JustBroken (cycles : UInt16) (l : BreakerLevel) (t : State) : Prop where
  broken : l.Broken
  level : t.level = l
  cooldown : t.cooldownRemaining = cycles.toNat
  low : t.lowWatermarkConsec = 0

/-- The reasons to leave Normal, given the timeouts since the last `OnRtcOk` and the high samples in a row before the
event. -/
def Cause (direct rtc high : Nat) (e : Event) : Prop :=
  (e = .directTimeout ∧ 3 ≤ okStep .directTimeout direct e) ∨ (e = .rtcTimeout ∧ 3 ≤ okStep .rtcTimeout rtc e) ∨
  3 ≤ sampleStep isHigh high e ∨ e = .overflow ∨ e = .keyReserveExhausted ∨ e = .watchdog

def Event.Bad (e : Event) : Prop :=
  e = .directTimeout ∨ e = .rtcTimeout ∨ e = .overflow ∨ e = .probeFailure ∨ e = .keyReserveExhausted ∨ e = .watchdog ∨
    ∃ percent, e.percent? = some percent ∧ kLowWatermarkPct ≤ percent

def cycle (e : Event) : Nat := if e = .dispatchCycle then 1 else 0

section

variable {cycles : UInt16} {s : State} {e : Event} {percent : UInt8}

theorem JustBroken.enter {l : BreakerLevel} (broken : l.Broken) (s : State) :
    JustBroken cycles l (enterBroken l cycles s) := ⟨broken, rfl, rfl, rfl⟩

theorem broken_L1 : BreakerLevel.brokenL1.Broken := .inl rfl

theorem broken_L2 : BreakerLevel.brokenL2.Broken := .inr (.inl rfl)

theorem broken_safe : BreakerLevel.safe.Broken := .inr (.inr rfl)

theorem sample_spec (s : State) (taken : e.percent? = some percent) :
    ∃ high low, sample s percent = { s with highWatermarkConsec := high, lowWatermarkConsec := low } ∧
      high ≤ sampleStep isHigh s.highWatermarkConsec e ∧ low ≤ sampleStep isLow s.lowWatermarkConsec e := by
  unfold sample sampleStep isHigh isLow
  rw [taken]
  dsimp only
  split
  · rename_i above
    refine ⟨_,_,rfl,?_,Nat.zero_le _⟩
    rw [decide_eq_true above, if_pos rfl]
    exact increment_le_succ _
  · split
    · rename_i below
      refine ⟨_,_,rfl,Nat.zero_le _,?_⟩
      rw [decide_eq_true below, if_pos rfl]
      exact increment_le_succ _
    · exact ⟨_,_,rfl,Nat.zero_le _,Nat.zero_le _⟩

theorem cooled_eq (s : State) : (if 0 < s.cooldownRemaining then { s with cooldownRemaining := s.cooldownRemaining - 1 }
    else s) = { s with cooldownRemaining := s.cooldownRemaining - 1 } := by
  split
  · rfl
  · rename_i elapsed
    have zero : s.cooldownRemaining = 0 := Nat.eq_zero_of_not_pos elapsed
    rw [zero]
    cases s
    cases zero
    rfl

theorem onDispatchCycle_idle (idle : ¬ (s.level = .recovering ∧ s.cooldownRemaining - 1 = 0 ∧ s.probeSuccess = true)) :
    onDispatchCycle s = { s with cooldownRemaining := s.cooldownRemaining - 1 } := by
  rw [onDispatchCycle, cooled_eq]
  exact if_neg idle

structure StaysNormal (s t : State) (e : Event) : Prop where
  level : t.level = .normal
  direct : t.directTimeoutConsec ≤ okStep .directTimeout s.directTimeoutConsec e
  rtc : t.rtcTimeoutConsec ≤ okStep .rtcTimeout s.rtcTimeoutConsec e
  high : t.highWatermarkConsec ≤ sampleStep isHigh s.highWatermarkConsec e

theorem normal_watermark (normal : s.level = .normal) (taken : e.percent? = some percent)
    (direct : s.directTimeoutConsec ≤ okStep .directTimeout s.directTimeoutConsec e)
    (rtc : s.rtcTimeoutConsec ≤ okStep .rtcTimeout s.rtcTimeoutConsec e) :
    StaysNormal s (onWatermark cycles s percent) e ∨ (∃ l, JustBroken cycles l (onWatermark cycles s percent)) ∧
      Cause s.directTimeoutConsec s.rtcTimeoutConsec s.highWatermarkConsec e := by
  obtain ⟨high,low,eq,more,-⟩ := sample_spec s taken
  simp only [onWatermark, eq, normal]
  split
  · rename_i reached
    exact .inr ⟨⟨_,.enter broken_L2 _⟩,.inr (.inr (.inl (le_trans reached more)))⟩
  · exact .inl ⟨rfl,direct,rtc,more⟩

theorem normal_step (cycles : UInt16) (normal : s.level = .normal) (e : Event) :
    StaysNormal s (transition cycles e s) e ∨ (∃ l, JustBroken cycles l (transition cycles e s)) ∧
      Cause s.directTimeoutConsec s.rtcTimeoutConsec s.highWatermarkConsec e := by
  have other : s.level ≠ .recovering ∧ s.level ≠ .safe := by rw [normal]; decide
  cases e with
  | directTimeout =>
    simp only [transition, onDirectTimeout, normal]
    split
    · rename_i reached
      refine .inr ⟨⟨_,.enter broken_L1 _⟩,.inl ⟨rfl,le_trans reached (increment_le_succ _)⟩⟩
    · exact .inl ⟨rfl,increment_le_succ _,le_rfl,le_rfl⟩
  | rtcTimeout =>
    simp only [transition, onRtcTimeout, normal]
    split
    · rename_i reached
      refine .inr ⟨⟨_,.enter broken_L2 _⟩,.inr (.inl ⟨rfl,le_trans reached (increment_le_succ _)⟩)⟩
    · exact .inl ⟨rfl,le_rfl,increment_le_succ _,le_rfl⟩
  | rtcOk => exact .inl ⟨normal,le_rfl,le_rfl,le_rfl⟩
  | watermark | watermarkViolation => exact normal_watermark normal rfl le_rfl le_rfl
  | overflow =>
    simp only [transition, onOverflow, normal]
    exact .inr ⟨⟨_,.enter broken_L2 _⟩,.inr (.inr (.inr (.inl rfl)))⟩
  | keyReserveExhausted =>
    simp only [transition, onKeyReserveExhausted, if_pos other.2]
    exact .inr ⟨⟨_,.enter broken_safe _⟩,.inr (.inr (.inr (.inr (.inl rfl))))⟩
  | watchdog =>
    simp only [transition, onWatchdog, onKeyReserveExhausted, if_pos other.2]
    exact .inr ⟨⟨_,.enter broken_safe _⟩,.inr (.inr (.inr (.inr (.inr rfl))))⟩
  | dispatchCycle =>
    rw [transition, onDispatchCycle_idle fun counted => other.1 counted.1]
    exact .inl ⟨normal,le_rfl,le_rfl,le_rfl⟩
  | probeSuccess | probeFailure | externalSafeRestore =>
    simp only [transition, onProbeSuccess, onProbeFailure, onExternalSafeRestore, if_neg other.1, if_neg other.2]
    exact .inl ⟨normal,le_rfl,le_rfl,le_rfl⟩

structure StaysBroken (s t : State) (e : Event) : Prop where
  level : t.level = s.level
  cooldown : t.cooldownRemaining = s.cooldownRemaining - cycle e
  low : t.lowWatermarkConsec ≤ sampleStep isLow s.lowWatermarkConsec e

/-- A state right after the entry into Recovering. -/
structure JustRecovering (s t : State) : Prop where
  level : t.level = .recovering
  cooldown : t.cooldownRemaining = s.cooldownRemaining
  direct : t.directTimeoutConsec = 0
  rtc : t.rtcTimeoutConsec = 0
  high : t.highWatermarkConsec = 0
  healthy : t.healthyWindowCount = 0
  probe : t.probeSuccess = false

/-- What begins a recovery: from Safe the external restore, from L1 and L2 the third low sample in a row after the
cooldown. -/
def BeginsRecovery (s : State) (e : Event) : Prop := (s.level = .safe ∧ e = .externalSafeRestore) ∨
  (s.level ≠ .safe ∧ s.cooldownRemaining = 0 ∧ 3 ≤ sampleStep isLow s.lowWatermarkConsec e)

theorem JustRecovering.enter (high low : Nat) :
    JustRecovering s (enterRecovering { s with highWatermarkConsec := high, lowWatermarkConsec := low }) :=
  ⟨rfl, rfl, rfl, rfl, rfl, rfl, rfl⟩

theorem broken_watermark (broken : s.level.Broken) (taken : e.percent? = some percent) (idle : cycle e = 0) :
    StaysBroken s (onWatermark cycles s percent) e ∨
    (s.level ≠ .safe ∧ ∃ l, l ≠ s.level ∧ JustBroken cycles l (onWatermark cycles s percent)) ∨
    (JustRecovering s (onWatermark cycles s percent) ∧ BeginsRecovery s e) := by
  obtain ⟨high,low,eq,-,more⟩ := sample_spec s taken
  have stays : StaysBroken s { s with highWatermarkConsec := high, lowWatermarkConsec := low } e :=
    ⟨rfl,by rw [idle]; rfl,more⟩
  simp only [onWatermark, eq]
  rcases broken with l1 | l2 | safe
  · simp only [l1]
    rw [← l1]
    split
    · exact .inr (.inl ⟨by rw [l1]; decide,.brokenL2,by rw [l1]; decide,.enter broken_L2 _⟩)
    · split
      · rename_i ready
        exact .inr (.inr ⟨.enter _ _,.inr ⟨by rw [l1]; decide,ready.1,le_trans ready.2 more⟩⟩)
      · exact .inl stays
  · simp only [l2]
    rw [← l2]
    split
    · rename_i ready
      exact .inr (.inr ⟨.enter _ _,.inr ⟨by rw [l2]; decide,ready.1,le_trans ready.2 more⟩⟩)
    · exact .inl stays
  · simp only [safe]
    rw [← safe]
    exact .inl stays

theorem broken_step (cycles : UInt16) (broken : s.level.Broken) (e : Event) : StaysBroken s (transition cycles e s) e ∨
    (s.level ≠ .safe ∧ ∃ l, l ≠ s.level ∧ JustBroken cycles l (transition cycles e s)) ∨
    (JustRecovering s (transition cycles e s) ∧ BeginsRecovery s e) := by
  have notRecovering : ¬ s.level = .recovering := by rcases broken with eq | eq | eq <;> rw [eq] <;> decide
  cases e with
  | directTimeout =>
    have stays : transition cycles .directTimeout s =
        { s with directTimeoutConsec := increment s.directTimeoutConsec } := by
      rcases broken with eq | eq | eq <;> simp only [transition, onDirectTimeout, eq]
    rw [stays]
    exact .inl ⟨rfl,rfl,le_rfl⟩
  | rtcTimeout =>
    rcases broken with eq | eq | eq <;> simp only [transition, onRtcTimeout, eq]
    · split
      · exact .inr (.inl ⟨by decide,.brokenL2,by decide,.enter broken_L2 _⟩)
      · exact .inl ⟨eq.symm,rfl,le_rfl⟩
    · exact .inl ⟨eq.symm,rfl,le_rfl⟩
    · exact .inl ⟨eq.symm,rfl,le_rfl⟩
  | rtcOk => exact .inl ⟨rfl,rfl,le_rfl⟩
  | watermark | watermarkViolation => exact broken_watermark broken rfl rfl
  | overflow =>
    rcases broken with eq | eq | eq <;> simp only [transition, onOverflow, eq]
    · exact .inr (.inl ⟨by decide,.brokenL2,by decide,.enter broken_L2 _⟩)
    · exact .inl ⟨rfl,rfl,le_rfl⟩
    · exact .inl ⟨rfl,rfl,le_rfl⟩
  | keyReserveExhausted | watchdog =>
    simp only [transition, onWatchdog, onKeyReserveExhausted]
    split
    · rename_i other
      exact .inr (.inl ⟨other,.safe,other.symm,.enter broken_safe _⟩)
    · exact .inl ⟨rfl,rfl,le_rfl⟩
  | dispatchCycle =>
    rw [transition, onDispatchCycle_idle fun counted => notRecovering counted.1]
    exact .inl ⟨rfl,rfl,le_rfl⟩
  | probeSuccess | probeFailure =>
    simp only [transition, onProbeSuccess, onProbeFailure, if_neg notRecovering]
    exact .inl ⟨rfl,rfl,le_rfl⟩
  | externalSafeRestore =>
    simp only [transition, onExternalSafeRestore]
    split
    · rename_i safe
      exact .inr (.inr ⟨.enter _ _,.inl ⟨safe,rfl⟩⟩)
    · exact .inl ⟨rfl,rfl,le_rfl⟩

/-- The counters that are zero while Recovering. -/
structure Clear (s : State) : Prop where
  direct : s.directTimeoutConsec = 0
  rtc : s.rtcTimeoutConsec = 0
  high : s.highWatermarkConsec = 0

structure Idle (s t : State) (e : Event) : Prop where
  level : t.level = .recovering
  good : ¬ e.Bad
  clear : Clear t
  cooldown : t.cooldownRemaining = s.cooldownRemaining - cycle e
  healthy : t.healthyWindowCount = s.healthyWindowCount
  probe : t.probeSuccess = true → s.probeSuccess = true ∨ e = .probeSuccess

/-- A dispatch cycle that counts a healthy window. -/
structure Counts (s t : State) (e : Event) : Prop where
  event : e = .dispatchCycle
  probed : s.probeSuccess = true
  elapsed : s.cooldownRemaining - 1 = 0
  clear : Clear t
  cooldown : t.cooldownRemaining = 0

theorem not_bad (samples : ∀ percent, e.percent? = some percent → ¬ kLowWatermarkPct ≤ percent)
    (kinds : e ≠ .directTimeout ∧ e ≠ .rtcTimeout ∧ e ≠ .overflow ∧ e ≠ .probeFailure ∧ e ≠ .keyReserveExhausted ∧
      e ≠ .watchdog) : ¬ e.Bad := by
  obtain ⟨direct,rtc,overflow,failure,exhausted,watchdog⟩ := kinds
  rintro (eq | eq | eq | eq | eq | eq | ⟨percent,eq,loaded⟩)
  · exact direct eq
  · exact rtc eq
  · exact overflow eq
  · exact failure eq
  · exact exhausted eq
  · exact watchdog eq
  · exact samples percent eq loaded

theorem recovering_watermark (cycles : UInt16) (recovering : s.level = .recovering) (clear : Clear s)
    (taken : e.percent? = some percent)
    (plain : cycle e = 0 ∧ e ≠ .directTimeout ∧ e ≠ .rtcTimeout ∧ e ≠ .overflow ∧ e ≠ .probeFailure ∧
      e ≠ .keyReserveExhausted ∧ e ≠ .watchdog) : Idle s (onWatermark cycles s percent) e ∨
    ∃ l, JustBroken cycles l (onWatermark cycles s percent) := by
  obtain ⟨idle,kinds⟩ := plain
  by_cases loaded : kLowWatermarkPct ≤ percent
  · right
    refine ⟨.brokenL2,?_⟩
    obtain ⟨high,low,eq,-,-⟩ := sample_spec s taken
    simp only [onWatermark, eq, recovering, if_pos loaded]
    exact .enter broken_L2 _
  · left
    have below : percent < kLowWatermarkPct := UInt8.not_le.1 loaded
    have small : ¬ percent > kWatermarkViolationPct := by
      have : percent.toNat < 50 := below
      intro above
      have : 80 < percent.toNat := above
      omega
    have sampled : onWatermark cycles s percent =
        { s with highWatermarkConsec := 0, lowWatermarkConsec := increment s.lowWatermarkConsec } := by
      simp only [onWatermark, sample, if_neg small, if_pos below, recovering, if_neg loaded]
    rw [sampled]
    refine ⟨recovering,not_bad ?_ kinds,⟨clear.direct,clear.rtc,rfl⟩,by rw [idle]; rfl,rfl,.inl⟩
    intro percent' eq
    rw [taken] at eq
    cases eq
    exact loaded

theorem recovering_step (cycles : UInt16) (recovering : s.level = .recovering) (clear : Clear s)
    (few : s.healthyWindowCount ≤ 2) (e : Event) : Idle s (transition cycles e s) e ∨
    (Counts s (transition cycles e s) e ∧ (transition cycles e s).probeSuccess = false ∧
      ((transition cycles e s).level = .recovering ∧
          (transition cycles e s).healthyWindowCount = s.healthyWindowCount + 1 ∧ s.healthyWindowCount ≤ 1 ∨
        (transition cycles e s).level = .normal ∧ s.healthyWindowCount = 2)) ∨
    ∃ l, JustBroken cycles l (transition cycles e s) := by
  have other : s.level ≠ .safe := by rw [recovering]; decide
  cases e with
  | directTimeout | rtcTimeout | overflow =>
    simp only [transition, onDirectTimeout, onRtcTimeout, onOverflow, recovering]
    exact .inr (.inr ⟨_,.enter broken_L2 _⟩)
  | rtcOk =>
    exact .inl ⟨recovering,not_bad nofun (by decide),⟨rfl,rfl,clear.high⟩,rfl,rfl,.inl⟩
  | watermark | watermarkViolation =>
    refine Or.imp_right .inr (recovering_watermark cycles recovering clear rfl ?_)
    exact ⟨rfl,nofun,nofun,nofun,nofun,nofun,nofun⟩
  | keyReserveExhausted | watchdog =>
    simp only [transition, onWatchdog, onKeyReserveExhausted, if_pos other]
    exact .inr (.inr ⟨_,.enter broken_safe _⟩)
  | dispatchCycle =>
    by_cases counted : s.level = .recovering ∧ s.cooldownRemaining - 1 = 0 ∧ s.probeSuccess = true
    · have more : increment s.healthyWindowCount = s.healthyWindowCount + 1 := if_pos (Nat.lt_succ_of_le few)
      right
      left
      rw [transition, onDispatchCycle, cooled_eq]
      simp only [if_pos counted, more]
      split
      · rename_i third
        have third' : 3 ≤ s.healthyWindowCount + 1 := third
        exact ⟨⟨rfl,counted.2.2,counted.2.1,{ clear with },counted.2.1⟩,rfl,
          .inr ⟨rfl,by omega⟩⟩
      · rename_i early
        have early' : ¬ 3 ≤ s.healthyWindowCount + 1 := early
        exact ⟨⟨rfl,counted.2.2,counted.2.1,{ clear with },counted.2.1⟩,rfl,
          .inl ⟨recovering,rfl,by omega⟩⟩
    · rw [transition, onDispatchCycle_idle counted]
      exact .inl ⟨recovering,not_bad nofun (by decide),{ clear with },rfl,rfl,.inl⟩
  | probeSuccess =>
    simp only [transition, onProbeSuccess, if_pos recovering]
    exact .inl ⟨recovering,not_bad nofun (by decide),{ clear with },rfl,rfl,fun _ => .inr rfl⟩
  | probeFailure =>
    simp only [transition, onProbeFailure, if_pos recovering]
    exact .inr (.inr ⟨_,.enter broken_L2 _⟩)
  | externalSafeRestore =>
    simp only [transition, onExternalSafeRestore, if_neg other]
    exact .inl ⟨recovering,not_bad nofun (by decide),clear,rfl,rfl,.inl⟩

end

end Newosp.Breaker
