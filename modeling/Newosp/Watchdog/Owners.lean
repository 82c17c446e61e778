import Newosp.Watchdog.Threads

/-!
# Whom `Feed` feeds

`Feed` tests the flag and the generation of the slot and then stores the heartbeat, without the lock: a registration of
the slot that comes in between gets the heartbeat of a call with an old id. `separate` excludes that a first heartbeat
is stored while a `Feed` that has seen the slot active is under way, and `2 ^ 32` registrations of one slot.
-/

namespace Newosp.Watchdog
open Lib Function List

variable {g : Given}

section

variable {ι : Type}

/-- The registration that a `Feed` was called for. -/
def PC.caller : PC → Option Given
  | .feedActive g | .feedGeneration g | .feedClock g | .feedStore g _ => some g
  | _ => none

/-- The registration of a `Feed` that has seen the slot active. -/
def PC.feeding : PC → Option Given
  | .feedGeneration g | .feedClock g | .feedStore g _ => some g
  | _ => none

def PC.passed : PC → Option Given
  | .feedClock g | .feedStore g _ => some g
  | _ => none

variable (cfg : Config)

/-- No registration takes a slot's heartbeat over while a `Feed` is past its test of the flag there, and none is the
slot's `2 ^ 32`th. -/
def separate (s : State ι) : Act ι → Prop
  | .step c => (∀ i time, s.pc c = .regStore i time → ∀ d g, (s.pc d).feeding = some g → idIndex cfg g.id ≠ i) ∧
      ∀ i, s.pc c = .regBump i → s.owner i < 4294967296
  | _ => True

structure Owners (s : State ι) : Prop where
  known : ∀ c g, (s.pc c).caller = some g → g ∈ s.given
  given : ∀ g ∈ s.given, g.slot < cfg.maxThreads ∧ g.number ≤ s.owner g.slot ∧
    g.id = encode cfg (wrap32 g.number) g.slot
  bumping : ∀ c i, s.pc c = .regBump i → ∃ n, s.owner i = n + 1 ∧ (s.slots i).generation = wrap32 n
  counted : ∀ i, (∀ c, s.pc c ≠ .regBump i) → (s.slots i).generation = wrap32 (s.owner i) ∧ s.owner i < 4294967296
  activating : ∀ c i generation, s.pc c = .regActivate i generation → generation = (s.slots i).generation
  looking : ∀ c g, (s.pc c).feeding = some g → ∀ d, s.pc d ≠ .regBump g.slot
  passed : ∀ c g, (s.pc c).passed = some g → s.owner g.slot = g.number
  fed : ∀ f ∈ s.fed, f.slot = f.caller.slot ∧ f.owner = f.caller.number

end

section

variable {ι : Type} {cfg : Config} {s t : State ι} {c : ι} {pc : PC}

theorem PC.caller_of_feeding (feeding : pc.feeding = some g) : pc.caller = some g := by
  cases pc <;> first | exact feeding | cases feeding

theorem PC.feeding_of_passed (passed : pc.passed = some g) : pc.feeding = some g := by
  cases pc <;> first | exact passed | cases passed

theorem Owners.index (h : Owners cfg s) (given : g ∈ s.given) : idIndex cfg g.id = g.slot := by
  obtain ⟨inside,-,id⟩ := h.given g given
  rw [id, idIndex_encode inside]

theorem Owners.same_generation (h : Owners cfg s) (given : g ∈ s.given)
    (settled : ∀ d, s.pc d ≠ .regBump g.slot) (same : idGeneration cfg g.id = (s.slots g.slot).generation) :
    s.owner g.slot = g.number := by
  obtain ⟨inside,le,id⟩ := h.given g given
  obtain ⟨generation,small⟩ := h.counted g.slot settled
  rw [id, idGeneration_encode inside, generation, wrap32_of_lt small, wrap32_of_lt (lt_of_le_of_lt le small)] at same
  exact le_antisymm (same ▸ Nat.mod_le ..) le

theorem Locked.no_other_bump (lock : Locked cfg s) (mine : (s.pc c).locked = true) (other : d ≠ c) (i : Nat) :
    s.pc d ≠ .regBump i := by
  intro here
  have owns := lock.alone mine d other
  rw [here] at owns
  cases owns

theorem setSlot_generation (s : State ι) (j : Nat) (slot : Slot) (same : slot.generation = (s.slots j).generation) (i : Nat) :
    ((s.setSlot j slot).slots i).generation = (s.slots i).generation := update_same Slot.generation same i

variable [DecidableEq ι]
  {pc now : PC} {slots : Slots} {clock : Nat} {owns : Option ι} {issued : List Callback} {beats : Nat → List Nat}
  {fresh : Nat → Bool} {checked : Nat} {rulings : List Ruling} {feeds : List Fed} {started : ι → Nat} {d : ι}
  {slot : Slot}

theorem Owners.goto (h : Owners cfg s) (here : s.pc c = now)
    (generation : ∀ i, (slots i).generation = (s.slots i).generation)
    (fed : ∀ f ∈ feeds, f.slot = f.caller.slot ∧ f.owner = f.caller.number)
    (before : ∀ i, now ≠ .regBump i) (after : ∀ i, pc ≠ .regBump i)
    (activate : ∀ i generation, pc = .regActivate i generation → generation = (s.slots i).generation)
    (caller : ∀ g, pc.caller = some g → g ∈ s.given)
    (looking : ∀ g, pc.feeding = some g → ∀ d, s.pc d ≠ .regBump g.slot)
    (passed : ∀ g, pc.passed = some g → s.owner g.slot = g.number) : Owners cfg ({ s with
      slots, clock, lock := owns, issued, beats, fresh, checked, rulings, fed := feeds, started }.goto c pc) := by
  have bump : ∀ d i, update s.pc c pc d = .regBump i ↔ s.pc d = .regBump i :=
    fun d i => update_eq_iff (here ▸ before i) (after i) d
  constructor
  case known =>
    exact (forall_update_iff s.pc fun _ q => ∀ g, q.caller = some g → g ∈ s.given).2
      ⟨caller,fun d _ => h.known d⟩
  case given => exact h.given
  case bumping =>
    intro d i bumps
    obtain ⟨n,owner,old⟩ := h.bumping d i ((bump d i).1 bumps)
    exact ⟨n,owner,(generation i).trans old⟩
  case counted =>
    intro i none_
    obtain ⟨old,small⟩ := h.counted i fun d bumps => none_ d ((bump d i).2 bumps)
    exact ⟨(generation i).trans old,small⟩
  case activating =>
    intro d i g activating
    refine Eq.trans ?_ (generation i).symm
    rcases goto_sees id activating with ⟨-,now⟩ | ⟨-,old⟩
    · exact activate i g now
    · exact h.activating d i g old
  case looking =>
    intro d g feeding e bumping
    rcases goto_sees PC.feeding feeding with ⟨-,now⟩ | ⟨-,old⟩
    · exact looking g now e ((bump e g.slot).1 bumping)
    · exact h.looking d g old e ((bump e g.slot).1 bumping)
  case passed =>
    exact (forall_update_iff s.pc fun _ q => ∀ g, q.passed = some g → s.owner g.slot = g.number).2
      ⟨passed,fun d _ => h.passed d⟩
  case fed => exact fed

theorem Locked.no_bump (lock : Locked cfg s) (mine : (s.pc c).locked = true) (self : ∀ i, s.pc c ≠ .regBump i) (d : ι) (i : Nat) :
    s.pc d ≠ .regBump i := by
  by_cases same : d = c
  · rw [same]
    exact self i
  · exact lock.no_other_bump mine same i

theorem goto_observe {γ : Type} (f : PC → Option γ) {u : State ι} {x : γ} (silent : f pc = none)
    (seen : f ((u.goto c pc).pc d) = some x) : f (u.pc d) = some x := by
  rcases goto_sees f seen with ⟨-,now⟩ | ⟨-,old⟩
  · rw [silent] at now
    cases now
  · exact old

section

variable (h : Owners cfg s)
include h

section

theorem Owners.aside (here : s.pc c = now)
    (generation : ∀ i, (slots i).generation = (s.slots i).generation) (before : ∀ i, now ≠ .regBump i)
    (after : pc.resets = none) (silent : pc.caller = none) :
    Owners cfg ({ s with slots, clock, lock := owns, issued, beats, fresh, checked, rulings, started }.goto c pc) := by
  refine h.goto here generation h.fed before ?_ ?_ ?_ ?_ ?_
  · rintro i rfl
    cases after
  · rintro i g rfl
    cases after
  · intro g caller
    rw [caller] at silent
    cases silent
  · intro g feeding
    rw [PC.caller_of_feeding feeding] at silent
    cases silent
  · intro g passed
    rw [PC.caller_of_feeding (PC.feeding_of_passed passed)] at silent
    cases silent

variable (lock : Locked cfg s)
include lock

theorem Owners.store {i time : Nat} (here : s.pc c = .regStore i time)
    (clear : ∀ d g, (s.pc d).feeding = some g → idIndex cfg g.id ≠ i) (same : slot.generation = (s.slots i).generation) :
    Owners cfg ({ s.setSlot i slot with
      owner := update s.owner i (s.owner i + 1), beats := beats, fresh := fresh }.goto c (.regBump i)) := by
  have mine : (s.pc c).locked = true := by rw [here]; rfl
  have elsewhere : ∀ d g, (s.pc d).feeding = some g → g.slot ≠ i := by
    intro d g feeding
    have index := clear d g feeding
    rwa [h.index (h.known d g (PC.caller_of_feeding feeding))] at index
  have quiet := lock.no_bump mine (by rw [here]; nofun)
  have generation := setSlot_generation s i slot same
  constructor
  case known => exact fun d g caller => h.known d g (goto_observe PC.caller rfl caller)
  case given =>
    intro g given
    obtain ⟨inside,le,id⟩ := h.given g given
    refine ⟨inside,?_,id⟩
    simp only [State.goto]
    by_cases slot_eq : g.slot = i
    · rw [slot_eq, update_self]
      rw [slot_eq] at le
      exact Nat.le_succ_of_le le
    · rw [update_of_ne slot_eq]
      exact le
  case bumping =>
    intro d j bump
    rcases goto_sees id bump with ⟨-,⟨⟩⟩ | ⟨-,old⟩
    · exact ⟨s.owner i,update_self ..,(generation i).trans (h.counted i fun d => quiet d i).1⟩
    · exact absurd old (quiet d j)
  case counted =>
    intro j none_
    have other : j ≠ i := by
      rintro rfl
      exact none_ c (update_self ..)
    obtain ⟨eq,small⟩ := h.counted j fun d => quiet d j
    simp only [State.goto, update_of_ne other]
    exact ⟨(generation j).trans eq,small⟩
  case activating =>
    intro d j g activating
    rcases goto_sees id activating with ⟨-,⟨⟩⟩ | ⟨-,old⟩
    exact (h.activating d j g old).trans (generation j).symm
  case looking =>
    intro d g feeding e bump
    have before : (s.pc d).feeding = some g := (goto_observe PC.feeding rfl feeding)
    rcases goto_sees id bump with ⟨-,now⟩ | ⟨-,old⟩
    · exact elsewhere d g before (PC.regBump.inj now).symm
    · exact quiet e _ old
  case passed =>
    intro d g passed
    have before : (s.pc d).passed = some g := (goto_observe PC.passed rfl passed)
    simp only [State.goto, update_of_ne (elsewhere d g (PC.feeding_of_passed before))]
    exact h.passed d g before
  case fed => exact h.fed

theorem Owners.bump {i : Nat} (here : s.pc c = .regBump i)
    (few : s.owner i < 4294967296) :
    Owners cfg ((s.setSlot i { s.slots i with generation := wrap32 ((s.slots i).generation + 1) }).goto c
      (.regActivate i (wrap32 ((s.slots i).generation + 1)))) := by
  have mine : (s.pc c).locked = true := by rw [here]; rfl
  obtain ⟨n,owner,generation⟩ := h.bumping c i here
  have counted : wrap32 ((s.slots i).generation + 1) = wrap32 (s.owner i) := by
    rw [generation, wrap32_add_left, owner]
  constructor
  case known => exact fun d g caller => h.known d g (goto_observe PC.caller rfl caller)
  case given => exact h.given
  case bumping =>
    intro d j bump
    rcases goto_sees id bump with ⟨-,⟨⟩⟩ | ⟨self,old⟩
    exact absurd old (lock.no_other_bump mine self j)
  case counted =>
    intro j none_
    by_cases same : j = i
    · subst same
      simp only [State.goto, State.setSlot, update_self]
      exact ⟨counted,few⟩
    · simp only [State.goto, State.setSlot, update_of_ne same]
      refine h.counted j fun d bump => ?_
      by_cases self : d = c
      · rw [self, here] at bump
        cases bump
        exact same rfl
      · exact lock.no_other_bump mine self j bump
  case activating =>
    intro d j g activating
    rcases goto_sees id activating with ⟨-,⟨⟩⟩ | ⟨self,old⟩
    · simp only [State.goto, State.setSlot, update_self]
    · have owns := lock.alone mine d self
      rw [show s.pc d = .regActivate j g from old] at owns
      cases owns
  case looking =>
    intro d g feeding e bump
    rcases goto_sees id bump with ⟨-,⟨⟩⟩ | ⟨-,old⟩
    exact h.looking d g (goto_observe PC.feeding rfl feeding) e old
  case passed => exact fun d g passed => h.passed d g (goto_observe PC.passed rfl passed)
  case fed => exact h.fed

theorem Owners.activate {i generation : Nat}
    (here : s.pc c = .regActivate i generation) (same : slot.generation = (s.slots i).generation) :
    Owners cfg ({ s.setSlot i slot with
      lock := owns, given := s.given ++ [Given.mk i (s.owner i) (encode cfg generation i)] }.goto c .done) := by
  have mine : (s.pc c).locked = true := by rw [here]; rfl
  have quiet := lock.no_bump mine (by rw [here]; nofun)
  have silent : ∀ d j, ({ s.setSlot i slot with
      lock := owns, given := s.given ++ [Given.mk i (s.owner i) (encode cfg generation i)] }.goto c .done).pc d ≠
      .regBump j := by
    intro d j bump
    rcases goto_sees id bump with ⟨-,⟨⟩⟩ | ⟨-,old⟩
    exact quiet d j old
  have inside := (lock.filling c i (by rw [here]; rfl)).1
  have word : generation = wrap32 (s.owner i) := (h.activating c i generation here).trans (h.counted i fun d => quiet d i).1
  have generations := setSlot_generation s i slot same
  constructor
  case known => exact fun d g caller => mem_append_left _ (h.known d g (goto_observe PC.caller rfl caller))
  case given =>
    intro g given
    rcases mem_append.1 given with old | new
    · exact h.given g old
    · cases mem_singleton.1 new
      exact ⟨inside,le_rfl,by rw [word]⟩
  case bumping => exact fun d j bump => absurd bump (silent d j)
  case counted =>
    intro j _
    obtain ⟨eq,small⟩ := h.counted j fun d => quiet d j
    exact ⟨(generations j).trans eq,small⟩
  case activating =>
    intro d j g activating
    rcases goto_sees id activating with ⟨-,⟨⟩⟩ | ⟨-,old⟩
    exact (h.activating d j g old).trans (generations j).symm
  case looking => exact fun d g _ e => silent e g.slot
  case passed => exact fun d g passed => h.passed d g (goto_observe PC.passed rfl passed)
  case fed => exact h.fed

theorem Owners.step (guard : separate cfg s (.step c))
    (step : stepNext cfg c s = some t) : Owners cfg t := by
  cases here : s.pc c <;> simp only [stepNext, here] at step
  case idle | done => cases step
  case regLock name timeoutMs =>
    obtain ⟨_,step⟩ := enabled step
    split at step
    · cases step
      exact h.aside here (fun _ => rfl) (by simp) rfl rfl
    · rename_i i slot
      cases step
      exact h.aside here (setSlot_generation s i _ rfl) (by simp) rfl rfl
  case regStore i time =>
    cases step
    exact h.store lock here (guard.1 i time here) rfl
  case regBump i =>
    cases step
    exact h.bump lock here (guard.2 i here)
  case regActivate i generation =>
    cases step
    exact h.activate lock here rfl
  case unregLock id =>
    obtain ⟨_,⟨⟩⟩ := enabled step
    refine h.aside here (fun i => ?_) (by simp) rfl rfl
    simp only [unregister]
    split
    · exact setSlot_generation s (idIndex cfg id) { s.slots (idIndex cfg id) with active := false } rfl i
    · rfl
  case feedActive g =>
    cases step
    have known := h.known c g (by rw [here]; rfl)
    split
    · rename_i active
      rw [h.index known, Bool.and_eq_true] at active
      -- the slot is active: no registration is filling it
      refine h.goto here (fun _ => rfl) h.fed (by simp) (by simp) (by simp) ?_ ?_ (by rintro _ ⟨⟩)
      · rintro g' ⟨⟩
        exact known
      · rintro g' ⟨⟩ d bump
        rw [(lock.filling d g.slot (by rw [bump]; rfl)).2] at active
        cases active.2
    · exact h.aside here (fun _ => rfl) (by simp) rfl rfl
  case feedGeneration g =>
    cases step
    have known := h.known c g (by rw [here]; rfl)
    have looking := h.looking c g (by rw [here]; rfl)
    split
    · rename_i same
      rw [h.index known] at same
      refine h.goto here (fun _ => rfl) h.fed (by simp) (by simp) (by simp) ?_ ?_ ?_
      · rintro g' ⟨⟩
        exact known
      · rintro g' ⟨⟩
        exact looking
      · rintro g' ⟨⟩
        exact h.same_generation known looking same
    · exact h.aside here (fun _ => rfl) (by simp) rfl rfl
  case feedClock g =>
    cases step
    refine h.goto here (fun _ => rfl) h.fed (by simp) (by simp) (by simp) ?_ ?_ ?_
    · rintro g' ⟨⟩
      exact h.known c g (by rw [here]; rfl)
    · rintro g' ⟨⟩
      exact h.looking c g (by rw [here]; rfl)
    · rintro g' ⟨⟩
      exact h.passed c g (by rw [here]; rfl)
  case feedStore g time =>
    cases step
    have index := h.index (h.known c g (by rw [here]; rfl))
    refine h.goto here (setSlot_generation s _ _ rfl) ?_
      (by simp) (by simp) (by simp) (by rintro _ ⟨⟩) (by rintro _ ⟨⟩) (by rintro _ ⟨⟩)
    intro f fed
    rcases mem_append.1 fed with old | new
    · exact h.fed f old
    · cases mem_singleton.1 new
      refine ⟨index,?_⟩
      rw [index]
      exact h.passed c g (by rw [here]; rfl)
  case regClock | beatClock | checkClock =>
    cases step
    exact h.aside here (fun _ => rfl) (by simp) rfl rfl
  case beatStore i time =>
    cases step
    exact h.aside here (setSlot_generation s _ _ rfl) (by simp) rfl rfl
  case checkLock now =>
    obtain ⟨_,⟨⟩⟩ := enabled step
    exact h.aside here (fun _ => rfl) (by simp) rfl rfl
  case checkSlot now i timeouts recovers total =>
    simp only [Option.some.injEq] at step
    subst step
    split
    · have judged := judgeNext_judged cfg c now i timeouts recovers total s
      generalize judgeNext cfg c now i timeouts recovers total s = u at judged ⊢
      cases judged with
      | same => exact h.aside here (fun _ => rfl) (by simp) rfl rfl
      | timeout | recovered => exact h.aside here (setSlot_generation s _ _ rfl) (by simp) rfl rfl
    · exact h.aside here (fun _ => rfl) (by simp) rfl rfl
  case callbacks pending total =>
    cases pending with
    | nil | cons _ _ =>
      simp only at step
      cases step
      exact h.aside here (fun _ => rfl) (by simp) rfl rfl

theorem Owners.next {a : Act ι} (guard : separate cfg s a)
    (step : next cfg a s = some t) : Owners cfg t := by
  cases a with
  | tick us =>
    cases step
    exact ⟨h.known,h.given,h.bumping,h.counted,h.activating,h.looking,h.passed,h.fed⟩
  | call c op =>
    simp only [Watchdog.next] at step
    obtain ⟨idle,step⟩ := enabled step
    obtain ⟨pc,start,rfl⟩ := Option.map_eq_some_iff.1 step
    cases op with
    | feed k =>
      obtain ⟨g,given,rfl⟩ := Option.map_eq_some_iff.1 start
      refine h.goto idle (fun _ => rfl) h.fed (by simp) (by simp) (by simp) ?_ (by rintro _ ⟨⟩) (by rintro _ ⟨⟩)
      rintro g' ⟨⟩
      exact mem_of_getElem? given
    | register name timeoutMs =>
      cases start
      refine h.aside idle (fun _ => rfl) (by simp) ?_ ?_ <;> split <;> rfl
    | unregister k | beat k =>
      obtain ⟨g,given,rfl⟩ := Option.map_eq_some_iff.1 start
      exact h.aside idle (fun _ => rfl) (by simp) rfl rfl
    | check =>
      cases start
      exact h.aside idle (fun _ => rfl) (by simp) rfl rfl
  | step c => exact h.step lock guard step

end

end

theorem reach_owners (h : Reach (machine cfg) (separate cfg) s) : Locked cfg s ∧ Owners cfg s := by
  have base : Owners cfg (State.init (ι := ι)) := by
    constructor
    case counted => exact fun i _ => ⟨rfl,(by decide : 0 < 4294967296)⟩
    all_goals nofun
  apply h.invariant (I := fun s => Locked cfg s ∧ Owners cfg s) ⟨locked_init,base⟩
  intro s t a _ ih guard step
  exact ⟨ih.1.next step,ih.2.next ih.1 guard step⟩

/-- **Every heartbeat that `Feed` stores is that of the registration whose id it got.** -/
theorem feeds_own_registration (h : Reach (machine cfg) (separate cfg) s) (f : Fed) (fed : f ∈ s.fed) :
    f.slot = f.caller.slot ∧ f.owner = f.caller.number := (reach_owners h).2.fed f fed

end

def separateCheck {n : Nat} (s : State (Fin n)) : Act (Fin n) → Bool
  | .step c => match s.pc c with
    | .regStore i _ => decide (∀ d, (s.pc d).feeding.all fun g => idIndex single g.id ≠ i)
    | .regBump i => s.owner i < 4294967296
    | _ => true
  | _ => true

theorem separateCheck_sound {n : Nat} (s : State (Fin n)) (a : Act (Fin n)) (passes : separateCheck s a = true) :
    separate single s a := by
  cases a with
  | step c =>
    refine ⟨?_,?_⟩
    · intro i time here d g feeding
      simp only [separateCheck, here] at passes
      have clear := of_decide_eq_true passes d
      rw [feeding, Option.all_some] at clear
      exact of_decide_eq_true clear
    · intro i here
      simp only [separateCheck, here] at passes
      exact of_decide_eq_true passes
  | _ => trivial

/-- A thread registers, and another is about to store a heartbeat. -/
def feedRun {ι : Type} (c d : ι) : List (Act ι) :=
  .call c (.register [] 5) :: replicate 5 (.step c) ++ .call d (.feed 0) :: replicate 3 (.step d)

/-- The slot is given back and registered again. -/
def reuseRun {ι : Type} (c d : ι) : List (Act ι) :=
  .call c (.unregister 0) :: .step c :: .call d (.register [] 5) :: replicate 5 (.step d)

/-- Two registrations of one slot are fed, and a `Feed` with the id of the first is refused in the second. -/
theorem feeds_own_registration_once : ∃ s : State (Fin 6), Reach (machine single) (separate single) s ∧
    s.given = [⟨0, 1, 2⟩, ⟨0, 2, 4⟩] ∧ s.pc 4 = .done ∧ s.fed.map Fed.caller = s.given ∧
    ∀ f ∈ s.fed, f.slot = f.caller.slot ∧ f.owner = f.caller.number := by
  obtain ⟨s,reached,given,refused,fed⟩ := reach_of_run (machine (ι := Fin 6) single) separateCheck_sound
      (feedRun 0 1 ++ .step 1 :: reuseRun 2 3 ++ .call 4 (.feed 0) :: .step 4 :: .step 4 ::
        .call 5 (.feed 1) :: replicate 4 (.step 5))
      (fun s => s.given = [⟨0,1,2⟩,⟨0,2,4⟩] ∧ s.pc 4 = .done ∧ s.fed.map Fed.caller = s.given) (by decide +kernel)
  exact ⟨s,reached,given,refused,fed,feeds_own_registration reached⟩

/-- The slot changes hands before the heartbeat is stored: the call with the old id feeds the new registration. -/
theorem feeds_next_registration : ∃ s : State (Fin 4), Reach (machine single) anyStep s ∧
    ∃ f ∈ s.fed, f.slot = f.caller.slot ∧ f.owner = f.caller.number + 1 := by
  obtain ⟨s,reached,final⟩ := reach_of_schedule (machine (ι := Fin 4) single)
      (feedRun 0 1 ++ reuseRun 2 3 ++ [.step 1])
      (fun s => s.fed = [⟨⟨0,1,2⟩,0,2⟩]) (by decide +kernel)
  refine ⟨s,reached,⟨⟨0,1,2⟩,0,2⟩,?_,rfl,rfl⟩
  rw [final]
  exact .head _

end Newosp.Watchdog
