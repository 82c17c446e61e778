import Newosp.Breaker.Steps

/-!
# The way back to Normal

A history that ends in Normal after a break has a last entry into L1, L2 or Safe, then a wait there, the begin of a
recovery, and a recovery of at least three counted dispatch cycles; the fields of the state are related to what these
parts contain.
-/

namespace Newosp.Breaker
open List

variable (cycles : UInt16)

def Stay (l : BreakerLevel) (earlier stay : List Event) : Prop :=
  ∀ p, p <+: stay → level (run cycles (earlier ++ p)) = l

/-- Counted dispatch cycles since Recovering was entered, each after a probe success of its own and with the cooldown
elapsed; `base` are the events from the last break to the begin of the recovery. -/
inductive Windows (base : List Event) : Nat → List Event → Prop
  | none : Windows base 0 []
  | count {n : Nat} {counted back : List Event} (before : Windows base n counted) (probed : Event.probeSuccess ∈ back)
      (elapsed : cycles.toNat ≤ (base ++ (counted ++ (back ++ [Event.dispatchCycle]))).count .dispatchCycle) :
      Windows base (n + 1) (counted ++ (back ++ [Event.dispatchCycle]))

/-- The last entry into the broken level `l`, with the event `e`, and the wait there. -/
structure Broke (l : BreakerLevel) (before : List Event) (e : Event) (waiting : List Event) : Prop where
  broken : l.Broken
  entry : level (run cycles before) ≠ l
  stay : Stay cycles l (before ++ [e]) waiting

/-- The begin of the recovery with the event `r`. -/
structure Began (l : BreakerLevel) (before : List Event) (e : Event) (waiting : List Event) (r : Event) : Prop
    extends Broke cycles l before e waiting where
  restored : l = .safe → r = .externalSafeRestore
  lows : l ≠ .safe → 3 ≤ sampleRun isLow (waiting ++ [r])
  cooled : l ≠ .safe → cycles.toNat ≤ (waiting ++ [r]).count .dispatchCycle

/-- A completed recovery: the events `recovering` end with the third counted dispatch cycle. -/
structure Recovery (l : BreakerLevel) (before : List Event) (e : Event) (waiting : List Event) (r : Event)
    (recovering : List Event) : Prop extends Began cycles l before e waiting r where
  during : ∀ p q, recovering = p ++ q → q ≠ [] →
    level (run cycles (before ++ e :: (waiting ++ r :: p))) = .recovering
  good : ∀ x ∈ recovering, ¬ x.Bad
  windows : Windows cycles (waiting ++ [r]) 3 recovering

/-- The histories of each level, with what the state's fields say about them. -/
inductive Inv : List Event → Prop
  | normal (earlier stay : List Event) (stays : Stay cycles .normal earlier stay)
      (direct : (states cycles (earlier ++ stay)).directTimeoutConsec ≤ sinceOk .directTimeout stay)
      (rtc : (states cycles (earlier ++ stay)).rtcTimeoutConsec ≤ sinceOk .rtcTimeout stay)
      (high : (states cycles (earlier ++ stay)).highWatermarkConsec ≤ sampleRun isHigh stay)
      (origin : earlier = [] ∨ ∃ l before e waiting r recovering,
        earlier = before ++ e :: (waiting ++ r :: recovering) ∧
        Recovery cycles l before e waiting r recovering) : Inv (earlier ++ stay)
  | broken (l : BreakerLevel) (before : List Event) (e : Event) (waiting : List Event)
      (broke : Broke cycles l before e waiting)
      (cooldown : cycles.toNat ≤ (states cycles (before ++ e :: waiting)).cooldownRemaining +
        waiting.count .dispatchCycle)
      (low : (states cycles (before ++ e :: waiting)).lowWatermarkConsec ≤ sampleRun isLow waiting) :
      Inv (before ++ e :: waiting)
  | recovering (l : BreakerLevel) (before : List Event) (e : Event) (waiting : List Event) (r : Event)
      (counted back : List Event) (began : Began cycles l before e waiting r)
      (stays : Stay cycles .recovering (before ++ e :: (waiting ++ [r])) (counted ++ back))
      (good : ∀ x ∈ counted ++ back, ¬ x.Bad)
      (clear : Clear (states cycles (before ++ e :: (waiting ++ r :: (counted ++ back)))))
      (cooldown : cycles.toNat ≤
        (states cycles (before ++ e :: (waiting ++ r :: (counted ++ back)))).cooldownRemaining +
          (waiting ++ r :: (counted ++ back)).count .dispatchCycle)
      (few : (states cycles (before ++ e :: (waiting ++ r :: (counted ++ back)))).healthyWindowCount ≤ 2)
      (windows : Windows cycles (waiting ++ [r])
        (states cycles (before ++ e :: (waiting ++ r :: (counted ++ back)))).healthyWindowCount counted)
      (probe : (states cycles (before ++ e :: (waiting ++ r :: (counted ++ back)))).probeSuccess = true →
        .probeSuccess ∈ back) :
      Inv (before ++ e :: (waiting ++ r :: (counted ++ back)))

section

variable {cycles} {l : BreakerLevel} {earlier stay history before waiting : List Event} {e x : Event}

theorem Stay.last (h : Stay cycles l earlier stay) : (states cycles (earlier ++ stay)).level = l := by
  rw [← level_run]
  exact h stay (prefix_refl _)

theorem Stay.single (level : (states cycles earlier).level = l) : Stay cycles l earlier [] := by
  intro p short
  rw [prefix_nil.1 short, append_nil, level_run]
  exact level

theorem Stay.snoc (h : Stay cycles l earlier stay) (level : (states cycles (earlier ++ stay ++ [x])).level = l) :
    Stay cycles l earlier (stay ++ [x]) := by
  intro p short
  rcases prefix_concat_iff.1 short with rfl | shorter
  · rw [← append_assoc, level_run]
    exact level
  · exact h p shorter

theorem count_cycle (events : List Event) (x : Event) :
    (events ++ [x]).count .dispatchCycle = events.count .dispatchCycle + cycle x := by
  rw [count_append, count_singleton]
  unfold cycle
  simp only [beq_iff_eq]

theorem Inv.breaks (entry : (states cycles history).level ≠ l)
    (now : JustBroken cycles l (states cycles (history ++ [x]))) : Inv cycles (history ++ [x]) := by
  refine .broken l history x [] ⟨now.broken,by rwa [level_run],.single now.level⟩ ?_ ?_
  · exact Nat.le_add_right_of_le now.cooldown.ge
  · exact now.low.le

theorem Broken.ne_normal (broken : l.Broken) : BreakerLevel.normal ≠ l := by
  rcases broken with rfl | rfl | rfl <;> decide

theorem Broken.ne_recovering (broken : l.Broken) : BreakerLevel.recovering ≠ l := by
  rcases broken with rfl | rfl | rfl <;> decide

theorem Inv.init (cycles : UInt16) : Inv cycles [] := .normal [] [] (.single rfl) le_rfl le_rfl le_rfl (.inl rfl)

theorem Inv.step_normal (x : Event) (stays : Stay cycles .normal earlier stay)
    (direct : (states cycles (earlier ++ stay)).directTimeoutConsec ≤ sinceOk .directTimeout stay)
    (rtc : (states cycles (earlier ++ stay)).rtcTimeoutConsec ≤ sinceOk .rtcTimeout stay)
    (high : (states cycles (earlier ++ stay)).highWatermarkConsec ≤ sampleRun isHigh stay)
    (origin : earlier = [] ∨ ∃ l before e waiting r recovering, earlier = before ++ e :: (waiting ++ r :: recovering) ∧
      Recovery cycles l before e waiting r recovering) : Inv cycles (earlier ++ stay ++ [x]) := by
  have next := states_snoc cycles (earlier ++ stay) x
  rcases normal_step cycles stays.last x with calm | ⟨⟨l,broke⟩,-⟩ <;> rw [← next] at *
  · rw [append_assoc] at calm ⊢
    refine .normal earlier (stay ++ [x]) ?_ ?_ ?_ ?_ origin
    · refine stays.snoc ?_
      rw [append_assoc]
      exact calm.level
    · rw [sinceOk_snoc]
      exact calm.direct.trans (okStep_mono direct)
    · rw [sinceOk_snoc]
      exact calm.rtc.trans (okStep_mono rtc)
    · rw [sampleRun_snoc]
      exact calm.high.trans (sampleStep_mono high)
  · exact .breaks (by rw [stays.last]; exact Broken.ne_normal broke.broken) broke

theorem Inv.step_broken (x : Event) (broke : Broke cycles l before e waiting)
    (cooldown : cycles.toNat ≤ (states cycles (before ++ e :: waiting)).cooldownRemaining +
      waiting.count .dispatchCycle)
    (low : (states cycles (before ++ e :: waiting)).lowWatermarkConsec ≤ sampleRun isLow waiting) :
    Inv cycles (before ++ e :: waiting ++ [x]) := by
  have next := states_snoc cycles (before ++ e :: waiting) x
  have level := broke.stay.last
  rw [← append_cons] at level
  have longer : before ++ e :: waiting ++ [x] = before ++ e :: (waiting ++ [x]) := by
    rw [append_assoc, cons_append]
  rcases broken_step cycles (by rw [level]; exact broke.broken) x with
    calm | ⟨-,l',other,again⟩ | ⟨ready,begins⟩
  · rw [← next] at calm
    rw [longer] at calm ⊢
    refine .broken l before e (waiting ++ [x]) ⟨broke.broken,broke.entry,broke.stay.snoc ?_⟩ ?_ ?_
    · rw [← append_cons, longer, calm.level, level]
    · rw [calm.cooldown, count_cycle]
      omega
    · rw [sampleRun_snoc]
      exact calm.low.trans (sampleStep_mono low)
  · rw [← next] at again
    exact .breaks other.symm again
  · rw [← next] at ready
    have longer' : before ++ e :: waiting ++ [x] = before ++ e :: (waiting ++ x :: ([] ++ [])) := longer
    rw [longer'] at ready ⊢
    have counted : (waiting ++ x :: ([] ++ [])).count .dispatchCycle = waiting.count .dispatchCycle + cycle x :=
      count_cycle waiting x
    refine .recovering l before e waiting x [] [] ⟨broke,?_,?_,?_⟩ (.single ready.level) (fun _ none_ => (by cases none_))
      ⟨ready.direct,ready.rtc,ready.high⟩ ?_ (by rw [ready.healthy]; decide) (by rw [ready.healthy]; exact .none) ?_
    · intro safe
      rcases begins with ⟨-,restore⟩ | ⟨other,-⟩
      · exact restore
      · exact absurd (level.trans safe) other
    · intro other
      rcases begins with ⟨safe,-⟩ | ⟨-,-,third⟩
      · exact absurd (level.symm.trans safe) other
      · rw [sampleRun_snoc]
        exact third.trans (sampleStep_mono low)
    · intro other
      rcases begins with ⟨safe,-⟩ | ⟨-,elapsed,-⟩
      · exact absurd (level.symm.trans safe) other
      · rw [count_cycle]
        omega
    · rw [ready.cooldown, counted]
      omega
    · intro probed
      rw [ready.probe] at probed
      cases probed

theorem Inv.step_recovering (x : Event) {r : Event} {counted back : List Event} {s : State}
    (now : s = states cycles (before ++ e :: (waiting ++ r :: (counted ++ back))))
    (began : Began cycles l before e waiting r)
    (stays : Stay cycles .recovering (before ++ e :: (waiting ++ [r])) (counted ++ back))
    (good : ∀ x ∈ counted ++ back, ¬ x.Bad) (clear : Clear s)
    (cooldown : cycles.toNat ≤ s.cooldownRemaining + (waiting ++ r :: (counted ++ back)).count .dispatchCycle)
    (few : s.healthyWindowCount ≤ 2) (windows : Windows cycles (waiting ++ [r]) s.healthyWindowCount counted)
    (probe : s.probeSuccess = true → .probeSuccess ∈ back) :
    Inv cycles (before ++ e :: (waiting ++ r :: (counted ++ back)) ++ [x]) := by
  subst now
  have next := states_snoc cycles (before ++ e :: (waiting ++ r :: (counted ++ back))) x
  have whole : ∀ events, before ++ e :: (waiting ++ [r]) ++ events = before ++ e :: (waiting ++ r :: events) := by
    intro events
    rw [append_assoc, cons_append, ← append_cons]
  have level := stays.last
  rw [whole] at level
  have longer : before ++ e :: (waiting ++ r :: (counted ++ back)) ++ [x] =
      before ++ e :: (waiting ++ r :: (counted ++ (back ++ [x]))) := by
    simp only [append_assoc, cons_append]
  have total : (waiting ++ r :: (counted ++ (back ++ [x]))).count .dispatchCycle =
      (waiting ++ r :: (counted ++ back)).count .dispatchCycle + cycle x := by
    rw [← count_cycle]
    simp only [append_assoc, cons_append]
  have after : ∀ l', (states cycles (before ++ e :: (waiting ++ r :: (counted ++ back)) ++ [x])).level = l' →
      (states cycles (before ++ e :: (waiting ++ [r]) ++ (counted ++ back) ++ [x])).level = l' := by
    intro l' eq
    rw [whole]
    exact eq
  have goods : ¬ x.Bad → ∀ y ∈ counted ++ (back ++ [x]), ¬ y.Bad := by
    intro last y mem
    rw [← append_assoc] at mem
    rcases mem_append.1 mem with old | new
    · exact good y old
    · rwa [mem_singleton.1 new]
  rcases recovering_step cycles level clear few x with idle | ⟨count,unprobed,outcome⟩ | ⟨l',broke⟩
  · rw [← next] at idle
    have stays' := stays.snoc (after _ idle.level)
    rw [append_assoc] at stays'
    rw [longer] at idle ⊢
    refine .recovering l before e waiting r counted (back ++ [x]) began stays' (goods idle.good) idle.clear ?_ ?_ ?_ ?_
    · rw [idle.cooldown, total]
      omega
    · rw [idle.healthy]
      exact few
    · rw [idle.healthy]
      exact windows
    · intro probed
      rcases idle.probe probed with old | rfl
      · exact mem_append_left _ (probe old)
      · exact mem_append_right _ mem_cons_self
  · -- a counted cycle: the window ends with it
    obtain rfl := count.event
    have good' := goods (not_bad nofun (by decide))
    have elapsed : cycles.toNat ≤
        (waiting ++ [r] ++ (counted ++ (back ++ [Event.dispatchCycle]))).count .dispatchCycle := by
      rw [← append_cons, total]
      have one : cycle Event.dispatchCycle = 1 := rfl
      have zero := count.elapsed
      omega
    have windows' := Windows.count windows (probe count.probed) elapsed
    rw [← next] at count unprobed outcome
    rcases outcome with ⟨still,more,early⟩ | ⟨normal,third⟩
    · have stays' := stays.snoc (after _ still)
      rw [append_assoc] at stays'
      rw [longer] at count unprobed more ⊢
      have empty : counted ++ (back ++ [.dispatchCycle]) = counted ++ (back ++ [.dispatchCycle]) ++ [] :=
        (append_nil _).symm
      rw [empty] at count unprobed more stays' good' ⊢
      refine .recovering l before e waiting r _ [] began stays' good' count.clear ?_ ?_ ?_ ?_
      · rw [append_nil, total]
        have one : cycle .dispatchCycle = 1 := rfl
        have zero := count.elapsed
        omega
      · rw [more]
        omega
      · rw [more]
        exact windows'
      · intro probed
        rw [unprobed] at probed
        cases probed
    · rw [longer] at count normal ⊢
      rw [third] at windows'
      have recovery : Recovery cycles l before e waiting r (counted ++ (back ++ [.dispatchCycle])) := by
        refine ⟨began,?_,good',windows'⟩
        intro p q split nonempty
        -- a proper part of the recovery lies before its last event
        have short : p <+: counted ++ back := by
          rw [← append_assoc] at split
          rcases prefix_concat_iff.1 ⟨q,split.symm⟩ with all | shorter
          · rw [all, self_eq_append_right] at split
            exact absurd split nonempty
          · exact shorter
        rw [← whole]
        exact stays p short
      have nothing : Inv cycles _ := .normal
        (before ++ e :: (waiting ++ r :: (counted ++ (back ++ [.dispatchCycle])))) []
        (.single normal) (by rw [append_nil]; exact count.clear.direct.le)
        (by rw [append_nil]; exact count.clear.rtc.le) (by rw [append_nil]; exact count.clear.high.le)
        (.inr ⟨l,before,e,waiting,r,_,rfl,recovery⟩)
      rwa [append_nil] at nothing
  · rw [← next] at broke
    exact .breaks (by rw [level]; exact Broken.ne_recovering broke.broken) broke

/-- Every history has the parts of its level. -/
theorem Inv.all (cycles : UInt16) (history : List Event) : Inv cycles history := by
  induction history using List.reverseRecOn with
  | nil => exact .init cycles
  | append_singleton history x ih =>
    cases ih with
    | normal earlier stay stays direct rtc high origin => exact .step_normal x stays direct rtc high origin
    | broken l before e waiting broke cooldown low => exact .step_broken x broke cooldown low
    | recovering l before e waiting r counted back began stays good clear cooldown few windows probe =>
      exact .step_recovering x rfl began stays good clear cooldown few windows probe

theorem Windows.elapsed {base recovering : List Event} {n : Nat} (windows : Windows cycles base (n + 1) recovering) :
    cycles.toNat ≤ (base ++ recovering).count .dispatchCycle := by
  cases windows with
  | count _ _ elapsed => exact elapsed

/-- **The circuit breaker over whole histories.** A breaker that is back in Normal went through a completed recovery of
at least `CooldownCycles` dispatch cycles since its last break; Safe is left only by the external restore; and Normal
only for a reason of `Cause`. -/
theorem breaker_recovers (cycles : UInt16) (history : List Event) :
    (level (run cycles history) = .normal → (∃ p, p <+: history ∧ (level (run cycles p)).Broken) →
      ∃ l before e waiting r recovering stay, history = before ++ e :: (waiting ++ r :: recovering) ++ stay ∧
        Recovery cycles l before e waiting r recovering ∧
        Stay cycles .normal (before ++ e :: (waiting ++ r :: recovering)) stay ∧
        cycles.toNat ≤ (waiting ++ r :: recovering).count .dispatchCycle) ∧
    (∀ e, level (run cycles history) = .safe → level (run cycles (history ++ [e])) ≠ .safe →
      e = .externalSafeRestore) ∧
    (∀ e, level (run cycles history) = .normal → level (run cycles (history ++ [e])) ≠ .normal →
      ∃ earlier stay, history = earlier ++ stay ∧ Stay cycles .normal earlier stay ∧
        Cause (sinceOk .directTimeout stay) (sinceOk .rtcTimeout stay) (sampleRun isHigh stay) e) := by
  refine and_left_comm.1 ⟨?_,?_⟩
  · intro e safe left
    rw [level_run] at safe left
    rw [states_snoc] at left
    rcases broken_step cycles (by rw [safe]; exact broken_safe) e with calm | ⟨other,-⟩ | ⟨-,begins⟩
    · exact absurd (calm.level.trans safe) left
    · exact absurd safe other
    · rcases begins with ⟨-,restore⟩ | ⟨other,-⟩
      · exact restore
      · exact absurd safe other
  cases Inv.all cycles history with
  | normal earlier stay stays direct rtc high origin =>
    refine ⟨?_,?_⟩
    · rintro - ⟨p,short,broken⟩
      rcases origin with rfl | ⟨l,before,e,waiting,r,recovering,rfl,recovery⟩
      · exact absurd (stays p short).symm (Broken.ne_normal broken)
      · refine ⟨l,before,e,waiting,r,recovering,stay,rfl,recovery,stays,?_⟩
        have elapsed := recovery.windows.elapsed
        rwa [← append_cons] at elapsed
    · intro e normal left
      rw [level_run] at normal left
      rw [states_snoc] at left
      refine ⟨earlier,stay,rfl,stays,?_⟩
      rcases normal_step cycles normal e with calm | ⟨-,cause⟩
      · exact absurd calm.level left
      · rcases cause with ⟨kind,third⟩ | ⟨kind,third⟩ | third | other
        · exact .inl ⟨kind,third.trans (okStep_mono direct)⟩
        · exact .inr (.inl ⟨kind,third.trans (okStep_mono rtc)⟩)
        · exact .inr (.inr (.inl (third.trans (sampleStep_mono high))))
        · exact .inr (.inr (.inr other))
  | broken l before e waiting broke =>
    have level := broke.stay.last
    rw [← append_cons, ← level_run] at level
    rw [level]
    exact ⟨fun normal => absurd normal.symm (Broken.ne_normal broke.broken),
      fun _ normal => absurd normal.symm (Broken.ne_normal broke.broken)⟩
  | recovering l before e waiting r counted back began stays =>
    have level := stays.last
    rw [append_assoc, cons_append, ← append_cons, ← level_run] at level
    rw [level]
    exact ⟨nofun,fun _ => nofun⟩

theorem breaker_recovers_once : ∃ l before e waiting r recovering stay,
      [.overflow, .dispatchCycle, .watermark 10, .watermark 10, .watermark 10, .probeSuccess, .dispatchCycle,
        .probeSuccess, .dispatchCycle, .probeSuccess, .dispatchCycle] =
        before ++ e :: (waiting ++ r :: recovering) ++ stay ∧
      Recovery 1 l before e waiting r recovering := by
  have broken : (level (run 1 [.overflow])).Broken := .inr (.inl (by decide))
  obtain ⟨l,before,e,waiting,r,recovering,stay,eq,recovery,-,-⟩ := (breaker_recovers 1
    [.overflow, .dispatchCycle, .watermark 10, .watermark 10, .watermark 10, .probeSuccess, .dispatchCycle,
      .probeSuccess, .dispatchCycle, .probeSuccess, .dispatchCycle]).1 (by decide +kernel) ⟨[.overflow],⟨_,rfl⟩,broken⟩
  exact ⟨l,before,e,waiting,r,recovering,stay,eq,recovery⟩

end

end Newosp.Breaker
