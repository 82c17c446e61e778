import Newosp.Watchdog.Threads

/-!
# What `Check` finds

A check reads the clock before it takes the lock. If the checks take the lock in the order of the times they have read,
and a beat does not store an older time over a newer one, a flag is set only on a slot whose last beat is too old, and
taken back only after a beat or a new registration.
-/

namespace Newosp.Watchdog
open Lib List Function

variable {ι : Type} {cfg : Config} {s t : State ι} {c : ι} {pc : PC} {slots : Slots} {lock : Option ι}
  {given : List Given} {owner : Nat → Nat} {beats : Nat → List Nat} {fresh : Nat → Bool} {fed : List Fed} {slot : Slot}

section

def PC.now : PC → Option Nat
  | .checkLock now | .checkSlot now _ _ _ _ => some now
  | _ => none

/-- The time of the check that owns the lock. -/
def PC.ruling : PC → Option Nat
  | .checkSlot now _ _ _ _ => some now
  | _ => none

def PC.pending : PC → List Callback
  | .checkSlot _ _ timeouts recovers _ => timeouts ++ recovers
  | .callbacks pending _ => pending
  | _ => []

variable (cfg)

/-- A check takes the lock with a time not older than any check before it, and a beat is not stored over a later one. -/
def ordered (s : State ι) : Act ι → Prop
  | .step c => match s.pc c with
    | .checkLock now => s.checked ≤ now
    | .feedStore g time => (s.slots (idIndex cfg g.id)).lastBeatUs ≤ time
    | .beatStore i time => (s.slots i).lastBeatUs ≤ time
    | _ => True
  | _ => True

/-- The slot has beaten or was registered since it was flagged; or every beat was longer ago than its timeout at the
time read. -/
structure Just (r : Ruling) : Prop where
  recovered : r.verdict = .recovered → r.fresh = true
  timeout : r.verdict = .timeout → r.started ≤ r.now ∧ r.now ≤ r.ruledAt ∧ ∀ b ∈ r.beats, b + r.timeoutUs < r.now

structure Flags (s : State ι) : Prop where
  late : ∀ i, (s.slots i).active = true → (s.slots i).timedOut = true → s.fresh i = false →
    late s.checked (s.slots i) = true
  beats : ∀ i, ∀ b ∈ s.beats i, b ≤ (s.slots i).lastBeatUs
  healthy : ∀ c i, (s.pc c).resets = some i → (s.slots i).timedOut = false

structure Times (s : State ι) : Prop where
  begun : ∀ c, s.started c ≤ s.clock
  read : ∀ c now, (s.pc c).now = some now → s.started c ≤ now ∧ now ≤ s.clock
  ruling : ∀ c now, (s.pc c).ruling = some now → now = s.checked

structure Callbacks (s : State ι) : Prop where
  issued : ∀ cb ∈ s.issued, ∃ r ∈ s.rulings, r.verdict = cb.verdict ∧ r.id = cb.slotId ∧ r.name = cb.name
  pending : ∀ c, ∀ cb ∈ (s.pc c).pending, ∃ r ∈ s.rulings, r.verdict = cb.verdict ∧ r.id = cb.slotId ∧ r.name = cb.name

structure Verdicts (s : State ι) : Prop where
  flags : Flags s
  times : Times s
  rulings : ∀ r ∈ s.rulings, Just r
  callbacks : Callbacks s

end

section

theorem late_mono {now now' : Nat} (le : now ≤ now') (is : late now slot = true) : late now' slot = true := by
  simp only [late, Bool.and_eq_true, decide_eq_true_eq] at is ⊢
  omega

theorem PC.resets_of_unlocked (unlocked : pc.locked = false) : pc.resets = none := by
  cases pc <;> first | rfl | cases unlocked

theorem PC.ruling_of_unlocked (unlocked : pc.locked = false) : pc.ruling = none := by
  cases pc <;> first | rfl | cases unlocked

variable [DecidableEq ι] {issued : List Callback} {checked : Nat} {rulings : List Ruling} {started : ι → Nat}

theorem Times.goto (h : Times s) (read : ∀ now, pc.now = some now → s.started c ≤ now ∧ now ≤ s.clock)
    (ruling : ∀ now, pc.ruling = some now → now = s.checked) :
    Times ({ s with slots, lock, given, issued, owner, beats, fresh, rulings, fed }.goto c pc) where
  begun := h.begun
  read := (forall_update_iff s.pc fun d q => ∀ now, q.now = some now → s.started d ≤ now ∧ now ≤ s.clock).2
    ⟨read, fun d _ => h.read d⟩
  ruling := (forall_update_iff s.pc fun _ q => ∀ now, q.ruling = some now → now = s.checked).2
    ⟨ruling, fun d _ => h.ruling d⟩

theorem Flags.goto (h : Flags s) (later : s.checked ≤ checked)
    (healthy : ∀ i, pc.resets = some i → (s.slots i).timedOut = false) :
    Flags ({ s with lock, given, issued, owner, checked, rulings, fed, started }.goto c pc) where
  late := fun i active flagged stale => late_mono later (h.late i active flagged stale)
  beats := h.beats
  healthy := (forall_update_iff s.pc fun _ q => ∀ i, q.resets = some i → (s.slots i).timedOut = false).2
    ⟨healthy, fun d _ => h.healthy d⟩

theorem Callbacks.goto (h : Callbacks s) (more : s.rulings ⊆ rulings)
    (old : ∀ cb ∈ issued, cb ∈ s.issued ∨ cb ∈ (s.pc c).pending) (pending : ∀ cb ∈ pc.pending, cb ∈ (s.pc c).pending ∨
      ∃ r ∈ rulings, r.verdict = cb.verdict ∧ r.id = cb.slotId ∧ r.name = cb.name) :
    Callbacks ({ s with slots, lock, given, issued, owner, beats, fresh, checked, rulings, fed, started }.goto c pc) := by
  have later : ∀ {cb : Callback}, (∃ r ∈ s.rulings, r.verdict = cb.verdict ∧ r.id = cb.slotId ∧ r.name = cb.name) →
      ∃ r ∈ rulings, r.verdict = cb.verdict ∧ r.id = cb.slotId ∧ r.name = cb.name := by
    rintro cb ⟨r,old,rest⟩
    exact ⟨r,more old,rest⟩
  constructor
  case issued =>
    intro cb out
    rcases old cb out with old | waiting
    · exact later (h.issued cb old)
    · exact later (h.pending c cb waiting)
  case pending =>
    refine (forall_update_iff s.pc fun _ q => ∀ cb ∈ q.pending,
      ∃ r ∈ rulings, r.verdict = cb.verdict ∧ r.id = cb.slotId ∧ r.name = cb.name).2 ⟨?_,?_⟩
    · intro cb waiting
      rcases pending cb waiting with old | new
      · exact later (h.pending c cb old)
      · exact new
    · exact fun d _ cb waiting => later (h.pending d cb waiting)

theorem Flags.set (h : Flags s) {j : Nat} (sameFresh : ∀ i, i ≠ j → fresh i = s.fresh i)
    (sameBeats : ∀ i, i ≠ j → beats i = s.beats i)
    (flag : slot.active = true → slot.timedOut = true → fresh j = false → Watchdog.late s.checked slot = true)
    (last : ∀ b ∈ beats j, b ≤ slot.lastBeatUs)
    (healthy : ∀ i, pc.resets = some i → i ≠ j → (s.slots i).timedOut = false)
    (reset : slot.timedOut = false ∨ pc.resets ≠ some j ∧ ∀ d, d ≠ c → (s.pc d).resets ≠ some j) : Flags ({ s with
      slots := update s.slots j slot, lock, given, issued, owner, beats, fresh, rulings, fed }.goto c pc) := by
  constructor
  case late =>
    intro i
    by_cases same : i = j
    · subst same
      simp only [State.goto, update_self]
      exact flag
    · simp only [State.goto, update_of_ne same, sameFresh i same]
      exact h.late i
  case beats =>
    intro i
    by_cases same : i = j
    · subst same
      simp only [State.goto, update_self]
      exact last
    · simp only [State.goto, update_of_ne same, sameBeats i same]
      exact h.beats i
  case healthy =>
    refine (forall_update_iff s.pc fun _ q =>
      ∀ i, q.resets = some i → (update s.slots j slot i).timedOut = false).2 ⟨?_,?_⟩
    · intro i resets
      by_cases same : i = j
      · subst same
        rw [update_self]
        exact reset.resolve_right fun alone => alone.1 resets
      · rw [update_of_ne same]
        exact healthy i resets same
    · intro d other i resets
      by_cases same : i = j
      · subst same
        rw [update_self]
        exact reset.resolve_right fun alone => alone.2 d other resets
      · rw [update_of_ne same]
        exact h.healthy d i resets

end

section

theorem setSlot_timedOut (s : State ι) (j : Nat) (slot : Slot) (same : slot.timedOut = (s.slots j).timedOut) (i : Nat) :
    ((s.setSlot j slot).slots i).timedOut = (s.slots i).timedOut := update_same Slot.timedOut same i

variable [DecidableEq ι] {timeouts recovers : List Callback} {a : Act ι}

section

variable (h : Verdicts s)
include h

theorem Verdicts.aside (flags : Flags ({ s with slots, lock, given, owner, beats, fresh, fed }.goto c pc))
    (now : pc.now = none) (pending : pc.pending = []) :
    Verdicts ({ s with slots, lock, given, owner, beats, fresh, fed }.goto c pc) where
  flags := flags
  times := by
    refine h.times.goto ?_ ?_
    · rw [now]
      nofun
    · intro t ruling
      cases pc <;> first | (cases ruling; done) | cases now
  rulings := h.rulings
  callbacks := by
    refine h.callbacks.goto (Subset.refl _) (fun _ => .inl) ?_
    rw [pending]
    nofun

theorem Verdicts.pass (resets : pc.resets = none) (now : pc.now = none) (pending : pc.pending = []) :
    Verdicts ({ s with lock, given, owner, fed }.goto c pc) := by
  refine h.aside (h.flags.goto le_rfl ?_) now pending
  rw [resets]
  nofun

theorem Verdicts.beat {i time : Nat} (fed : List Fed) (later : (s.slots i).lastBeatUs ≤ time) :
    Verdicts ({ s.beat i time with fed := fed }.goto c .done) := by
  refine h.aside (h.flags.set (j := i) (fun j other => update_of_ne other ..)
    (fun j other => update_of_ne other ..) ?_ ?_ nofun ?_) rfl rfl
  · intro _ _ stale
    simp only [State.beat, update_self] at stale
    cases stale
  · intro b stored
    simp only [State.beat, update_self] at stored
    rcases mem_cons.1 stored with rfl | old
    · exact le_rfl
    · exact (h.flags.beats i b old).trans later
  · by_cases flagged : (s.slots i).timedOut = false
    · exact .inl flagged
    · refine .inr ⟨nofun,fun d _ resets => ?_⟩
      exact flagged (h.flags.healthy d i resets)

omit h in
omit [DecidableEq ι] in
theorem Locked.no_other_resets (lock : Locked cfg s) (mine : (s.pc c).locked = true) {d : ι} (other : d ≠ c) (i : Nat) :
    (s.pc d).resets ≠ some i := by
  rw [PC.resets_of_unlocked (lock.alone mine d other)]
  nofun

theorem Verdicts.judged (lock : Locked cfg s) {now i total : Nat}
    (here : s.pc c = .checkSlot now i timeouts recovers total) (judged : Judged cfg c now i timeouts recovers s t) :
    Verdicts t := by
  have mine : (s.pc c).locked = true := by rw [here]; rfl
  have read := h.times.read c
  have time := h.times.ruling c
  rw [here] at read time
  have waiting : (s.pc c).pending = timeouts ++ recovers := by rw [here]; rfl
  have asks : ∀ {v : Verdict} {l l' : List Callback}, (l' = l ∨ l' = l ++ [callbackOf cfg s i v]) → ∀ cb ∈ l', cb ∈ l ∨
      ∃ r ∈ s.rulings ++ [rulingOf cfg s c now i v], r.verdict = cb.verdict ∧ r.id = cb.slotId ∧ r.name = cb.name := by
    rintro v l l' (rfl | rfl) cb waits
    · exact .inl waits
    · rcases mem_append.1 waits with old | new
      · exact .inl old
      · rw [mem_singleton.1 new]
        exact .inr ⟨_,mem_append_right _ (mem_singleton_self _),rfl,rfl,rfl⟩
  have rules : ∀ {r : Ruling}, Just r → ∀ r' ∈ s.rulings ++ [r], Just r' := by
    intro r just r' ruled
    rcases mem_append.1 ruled with old | new
    · exact h.rulings r' old
    · rw [mem_singleton.1 new]
      exact just
  cases judged with
  | same total' =>
    refine ⟨h.flags.goto le_rfl nofun,h.times.goto read time,h.rulings,?_⟩
    refine h.callbacks.goto (Subset.refl _) (fun _ => .inl) fun cb pending => .inl ?_
    rw [waiting]
    exact pending
  | timeout timeouts' total' active is healthy pending =>
    have just : Just (rulingOf cfg s c now i .timeout) := by
      refine ⟨nofun,fun _ => ⟨(read now rfl).1,(read now rfl).2,fun b stored => ?_⟩⟩
      have last := h.flags.beats i b stored
      simp only [late, Bool.and_eq_true, decide_eq_true_eq] at is
      simp only [rulingOf]
      omega
    refine ⟨?_,h.times.goto read time,rules just,?_⟩
    · refine h.flags.set (j := i) (fun j other => update_of_ne other ..) (fun _ _ => rfl) ?_
        (h.flags.beats i) nofun (.inr ⟨nofun,fun d other => lock.no_other_resets mine other i⟩)
      intro _ _ _
      rw [← time now rfl]
      exact is
    · refine h.callbacks.goto (subset_append_left ..) (fun _ => .inl) fun cb waits => ?_
      rw [waiting]
      rcases mem_append.1 waits with timeout | recover
      · exact (asks pending cb timeout).imp_left (mem_append_left _)
      · exact .inl (mem_append_right _ recover)
  | recovered recovers' total' active early flagged pending =>
    have just : Just (rulingOf cfg s c now i .recovered) := by
      refine ⟨fun _ => ?_,nofun⟩
      show s.fresh i = true
      by_contra stale
      -- the flag was set for a time that is not after that of this check
      have is := h.flags.late i active flagged (Bool.eq_false_iff.2 stale)
      rw [← time now rfl, early] at is
      cases is
    refine ⟨?_,h.times.goto read time,rules just,?_⟩
    · exact h.flags.set (j := i) (fun _ _ => rfl) (fun _ _ => rfl) nofun (h.flags.beats i) nofun (.inl rfl)
    · refine h.callbacks.goto (subset_append_left ..) (fun _ => .inl) fun cb waits => ?_
      rw [waiting]
      rcases mem_append.1 waits with timeout | recover
      · exact .inl (mem_append_left _ timeout)
      · exact (asks pending cb recover).imp_left (mem_append_right _)

theorem Verdicts.step (lock : Locked cfg s) (guard : ordered cfg s (.step c))
    (step : stepNext cfg c s = some t) : Verdicts t := by
  have flags := h.flags
  simp only [ordered] at guard
  cases here : s.pc c <;> simp only [stepNext, here] at step
  case idle | done => cases step
  case regLock name timeoutMs =>
    obtain ⟨free,step⟩ := enabled step
    split at step
    · cases step
      exact h.pass rfl rfl rfl
    · rename_i i slot
      cases step
      -- the slot is free: no check looks at its flag
      refine h.aside ?_ rfl rfl
      refine flags.set (j := i) (fun _ _ => rfl) (fun _ _ => rfl) ?_ (flags.beats i) (by rintro _ ⟨⟩)
        (.inr ⟨by rintro ⟨⟩,fun d _ resets => ?_⟩)
      · intro active
        rw [show (s.slots i).active = false from (freeSlot_some slot).2] at active
        cases active
      · rw [PC.resets_of_unlocked (lock.nobody free d)] at resets
        cases resets
  case regClock | feedClock | beatClock =>
    cases step
    exact h.pass rfl rfl rfl
  case regStore i time =>
    cases step
    refine h.aside ?_ rfl rfl
    refine flags.set (j := i) (fun j other => update_of_ne other ..)
      (fun j other => update_of_ne other ..) (by simp) ?_ ?_ (.inl rfl)
    · intro b stored
      simp only [update_self, mem_singleton] at stored
      exact le_of_eq stored
    · rintro j ⟨⟩ other
      exact absurd rfl other
  case regBump i =>
    cases step
    have healthy := flags.healthy c i (by rw [here]; rfl)
    refine h.aside ?_ rfl rfl
    refine flags.set (j := i) (fun _ _ => rfl) (fun _ _ => rfl) (flags.late i) (flags.beats i) ?_ (.inl healthy)
    rintro j ⟨⟩ other
    exact absurd rfl other
  case regActivate i generation =>
    cases step
    have healthy := flags.healthy c i (by rw [here]; rfl)
    refine h.aside ?_ rfl rfl
    refine flags.set (j := i) (fun _ _ => rfl) (fun _ _ => rfl) ?_ (flags.beats i) (by rintro _ ⟨⟩) (.inl healthy)
    intro _ flagged
    rw [show (s.slots i).timedOut = true from flagged] at healthy
    cases healthy
  case unregLock id =>
    obtain ⟨free,⟨⟩⟩ := enabled step
    refine h.aside ?_ rfl rfl
    by_cases ok : accepts cfg s.slots id = true
    · simp only [unregister, ok, if_true]
      refine flags.set (fun _ _ => rfl) (fun _ _ => rfl) (by simp) (flags.beats _) (by rintro _ ⟨⟩)
        (.inr ⟨by rintro ⟨⟩,fun d _ resets => ?_⟩)
      rw [PC.resets_of_unlocked (lock.nobody free d)] at resets
      cases resets
    · simp only [unregister, ok, Bool.false_eq_true, if_false]
      exact flags.goto le_rfl (by rintro _ ⟨⟩)
  case feedActive | feedGeneration =>
    cases step
    split <;> exact h.pass rfl rfl rfl
  case feedStore g time =>
    simp only [here] at guard
    cases step
    exact h.beat _ guard
  case beatStore i time =>
    simp only [here] at guard
    cases step
    exact h.beat s.fed guard
  case checkClock =>
    cases step
    refine ⟨flags.goto le_rfl (by rintro _ ⟨⟩),?_,h.rulings,?_⟩
    · refine h.times.goto ?_ (by rintro _ ⟨⟩)
      rintro now ⟨⟩
      exact ⟨h.times.begun c,le_rfl⟩
    · exact h.callbacks.goto (Subset.refl _) (fun _ => .inl) (by rintro _ ⟨⟩)
  case checkLock now =>
    simp only [here] at guard
    obtain ⟨free,⟨⟩⟩ := enabled step
    refine ⟨flags.goto (le_max_left ..) (by rintro _ ⟨⟩),?_,h.rulings,?_⟩
    · -- nobody else owns the lock, and this check has the latest time
      constructor
      case begun => exact h.times.begun
      case read =>
        refine (forall_update_iff s.pc fun d q => ∀ t, q.now = some t → s.started d ≤ t ∧ t ≤ s.clock).2
          ⟨?_,fun d _ => h.times.read d⟩
        rintro now' ⟨⟩
        exact h.times.read c now (by rw [here]; rfl)
      case ruling =>
        refine (forall_update_iff s.pc fun _ q => ∀ t, q.ruling = some t → t = max s.checked now).2 ⟨?_,?_⟩
        · rintro now' ⟨⟩
          exact (max_eq_right guard).symm
        · intro d _
          rw [PC.ruling_of_unlocked (lock.nobody free d)]
          simp
    · exact h.callbacks.goto (Subset.refl _) (fun _ => .inl) (by rintro _ ⟨⟩)
  case checkSlot now i timeouts recovers total =>
    simp only [Option.some.injEq] at step
    subst step
    split
    · exact h.judged lock here (judgeNext_judged cfg c now i timeouts recovers total s)
    · refine ⟨flags.goto le_rfl (by rintro _ ⟨⟩),h.times.goto (by rintro _ ⟨⟩) (by rintro _ ⟨⟩),h.rulings,?_⟩
      refine h.callbacks.goto (Subset.refl _) (fun _ => .inl) fun cb waits => .inl ?_
      rw [here]
      exact waits
  case callbacks pending total =>
    cases pending with
    | nil =>
      simp only at step
      cases step
      exact h.pass rfl rfl rfl
    | cons callback pending =>
      simp only at step
      cases step
      refine ⟨flags.goto le_rfl (by rintro _ ⟨⟩),h.times.goto (by rintro _ ⟨⟩) (by rintro _ ⟨⟩),h.rulings,?_⟩
      refine h.callbacks.goto (Subset.refl _) (fun cb out => ?_) fun cb waits => .inl ?_
      · rw [here]
        rcases mem_append.1 out with old | new
        · exact .inl old
        · rw [mem_singleton.1 new]
          exact .inr (mem_cons_self ..)
      · rw [here]
        exact mem_cons_of_mem _ waits

theorem Verdicts.next (lock : Locked cfg s) (guard : ordered cfg s a)
    (step : next cfg a s = some t) : Verdicts t := by
  cases a with
  | tick us =>
    cases step
    refine ⟨⟨h.flags.late,h.flags.beats,h.flags.healthy⟩,⟨?_,?_,h.times.ruling⟩,h.rulings,
      ⟨h.callbacks.issued,h.callbacks.pending⟩⟩
    · exact fun c => (h.times.begun c).trans (Nat.le_add_right ..)
    · exact fun c now seen => ⟨(h.times.read c now seen).1,(h.times.read c now seen).2.trans (Nat.le_add_right ..)⟩
  | call c op =>
    simp only [Watchdog.next] at step
    obtain ⟨idle,step⟩ := enabled step
    obtain ⟨pc,start,rfl⟩ := Option.map_eq_some_iff.1 step
    have fresh : pc.resets = none ∧ pc.now = none ∧ pc.ruling = none ∧ pc.pending = [] := by
      cases op with
      | register name timeoutMs =>
        cases start
        split <;> exact ⟨rfl,rfl,rfl,rfl⟩
      | unregister k | feed k | beat k =>
        obtain ⟨g,-,rfl⟩ := Option.map_eq_some_iff.1 start
        exact ⟨rfl,rfl,rfl,rfl⟩
      | check =>
        cases start
        exact ⟨rfl,rfl,rfl,rfl⟩
    obtain ⟨resets,now,ruling,pending⟩ := fresh
    refine ⟨h.flags.goto le_rfl (by simp [resets]),?_,h.rulings,?_⟩
    · constructor
      case begun =>
        exact (forall_update_iff s.started fun _ time => time ≤ s.clock).2 ⟨le_rfl,fun d _ => h.times.begun d⟩
      case read =>
        refine (forall_update_iff s.pc fun d q => ∀ t, q.now = some t →
          update s.started c s.clock d ≤ t ∧ t ≤ s.clock).2 ⟨?_,?_⟩
        · rw [now]
          simp
        · intro d other
          rw [update_of_ne other]
          exact h.times.read d
      case ruling =>
        refine (forall_update_iff s.pc fun _ q => ∀ t, q.ruling = some t → t = s.checked).2
          ⟨?_,fun d _ => h.times.ruling d⟩
        rw [ruling]
        simp
    · refine h.callbacks.goto (Subset.refl _) (fun _ => .inl) ?_
      rw [pending]
      simp
  | step c => exact h.step lock guard step

end

theorem reach_verdicts (h : Reach (machine cfg) (ordered cfg) s) : Locked cfg s ∧ Verdicts s := by
  have base : Verdicts (State.init (ι := ι)) :=
    ⟨⟨nofun,nofun,nofun⟩,⟨fun _ => le_rfl,nofun,nofun⟩,nofun,⟨nofun,nofun⟩⟩
  apply h.invariant (I := fun s => Locked cfg s ∧ Verdicts s) ⟨locked_init,base⟩
  intro s t a _ ih guard step
  exact ⟨ih.1.next step,ih.2.next ih.1 guard step⟩

/-- The flag of slot `i` changes with a ruling on it, or with a new registration. -/
def Accounted (s t : State ι) (a : Act ι) (i : Nat) : Prop :=
  (∃ r, t.rulings = s.rulings ++ [r] ∧ r.slot = i ∧ ((t.slots i).timedOut = true ↔ r.verdict = .timeout)) ∨
    ∃ c time, a = .step c ∧ s.pc c = .regStore i time

theorem Judged.accounted {now i : Nat} (judged : Judged cfg c now i timeouts recovers s t)
    (a : Act ι) (j : Nat) (changed : (t.slots j).timedOut ≠ (s.slots j).timedOut) : Accounted s t a j := by
  cases judged with
  | same => exact absurd rfl changed
  | timeout | recovered =>
    by_cases same : j = i
    · subst same
      refine .inl ⟨_,rfl,rfl,?_⟩
      simp only [State.goto, State.setSlot, update_self, rulingOf, reduceCtorEq, Bool.false_eq_true]
    · simp only [State.goto, State.setSlot, update_of_ne same] at changed
      exact absurd rfl changed

theorem flag_accounted (step : next cfg a s = some t) (i : Nat)
    (changed : (t.slots i).timedOut ≠ (s.slots i).timedOut) : Accounted s t a i := by
  cases a with
  | tick us =>
    cases step
    exact absurd rfl changed
  | call c op =>
    simp only [Watchdog.next] at step
    obtain ⟨_,step⟩ := enabled step
    obtain ⟨pc,-,rfl⟩ := Option.map_eq_some_iff.1 step
    exact absurd rfl changed
  | step c =>
    simp only [Watchdog.next] at step
    cases here : s.pc c <;> simp only [stepNext, here] at step
    case idle | done => cases step
    case regLock =>
      obtain ⟨_,step⟩ := enabled step
      split at step <;> cases step
      · exact absurd rfl changed
      · exact (changed (setSlot_timedOut s _ _ (by rfl) i)).elim
    case regStore j time =>
      cases step
      by_cases same : i = j
      · subst same
        exact .inr ⟨c,time,rfl,here⟩
      · simp only [State.goto, State.setSlot, update_of_ne same] at changed
        exact absurd rfl changed
    case regBump | regActivate | feedStore | beatStore =>
      cases step
      exact (changed (setSlot_timedOut s _ _ (by rfl) i)).elim
    case unregLock id =>
      obtain ⟨_,⟨⟩⟩ := enabled step
      simp only [State.goto, unregister] at changed
      split at changed
      · exact (changed (setSlot_timedOut s _ _ (by rfl) i)).elim
      · exact absurd rfl changed
    case checkLock =>
      obtain ⟨_,⟨⟩⟩ := enabled step
      exact absurd rfl changed
    case checkSlot now j timeouts recovers total =>
      simp only [Option.some.injEq] at step
      subst step
      split at changed
      · rename_i inside
        rw [if_pos inside]
        exact (judgeNext_judged cfg c now j timeouts recovers total s).accounted _ i changed
      · exact absurd rfl changed
    case callbacks pending total =>
      cases pending <;> cases step <;> exact absurd rfl changed
    all_goals
      cases step
      exact absurd rfl changed

structure Justified (cfg : Config) (s : State ι) : Prop where
  rulings : ∀ r ∈ s.rulings, Just r
  callbacks : ∀ cb ∈ s.issued, ∃ r ∈ s.rulings, r.verdict = cb.verdict ∧ r.id = cb.slotId ∧ r.name = cb.name
  flags : ∀ a t i, next cfg a s = some t → (t.slots i).timedOut ≠ (s.slots i).timedOut → Accounted s t a i

/-- **A slot is flagged only when its beats are too old, and the flag is taken back only after a beat or a new
registration.** -/
theorem verdicts_justified (h : Reach (machine cfg) (ordered cfg) s) : Justified cfg s := by
  have verdicts := (reach_verdicts h).2
  constructor
  case rulings => exact verdicts.rulings
  case callbacks => exact verdicts.callbacks.issued
  case flags => exact fun a t i step changed => flag_accounted step i changed

end

instance {ι : Type} {cfg : Config} (s : State ι) (a : Act ι) : Decidable (ordered cfg s a) := by
  unfold ordered
  repeat' split
  all_goals infer_instance

def registerRun {ι : Type} (c : ι) : List (Act ι) := .call c (.register [] 1) :: replicate 5 (.step c)

/-- A thread that is silent for too long is flagged; it beats, and the next check takes the flag back. -/
theorem verdicts_justified_recovered : ∃ s : State (Fin 4), Reach (machine single) (ordered single) s ∧
    s.issued.map (·.verdict) = [.timeout, .recovered] ∧ Justified single s := by
  exact reach_and_then (machine (ι := Fin 4) single)
      (registerRun 0 ++ .tick 5000 :: .call 1 .check :: replicate 6 (.step 1) ++
        .call 2 (.beat 0) :: replicate 2 (.step 2) ++ .call 3 .check :: replicate 6 (.step 3))
      (by decide +kernel) fun s reached _ => verdicts_justified reached

/-- A check that has read the clock early takes the flag of another check back, although the thread has not beaten. -/
theorem recovered_without_beat : ∃ s : State (Fin 4), Reach (machine single) anyStep s ∧
    s.issued.map (·.verdict) = [.timeout, .recovered] ∧
    ∃ r ∈ s.rulings, r.verdict = .recovered ∧ r.fresh = false ∧ r.beats = [0] ∧ ¬ Just r := by
  obtain ⟨s,reached,issued,last⟩ := reach_of_schedule (machine (ι := Fin 4) single)
      (registerRun 0 ++ .tick 100 :: .call 1 .check :: .step 1 :: .tick 5000 :: .call 2 .check ::
        replicate 6 (.step 2) ++ replicate 4 (.step 1))
      (fun s => s.issued.map (·.verdict) = [.timeout, .recovered] ∧
        s.rulings.getLast? = some ⟨.recovered,0,2,[],100,100,5100,1000,[0],false⟩) (by decide +kernel)
  refine ⟨s,reached,issued,_,mem_of_getLast? last,rfl,rfl,rfl,fun just => ?_⟩
  cases just.recovered rfl

end Newosp.Watchdog
