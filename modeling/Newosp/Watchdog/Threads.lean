import Newosp.Lib.Machine
import Newosp.Watchdog.Watchdog

/-!
# `ThreadWatchdog` one access at a time

Any number of calls (`ι`) run beside each other, each of `Register`, `Unregister`, `Feed`, `Check` or `Beat` on the
heartbeat of a registration. Every access to `active`, `generation` and the heartbeats is one step; what only the owner
of the lock touches goes with the step beside it.
-/

namespace Newosp.Watchdog
open Lib
open Function (update update_of_ne update_self)

/-- A registration that has returned: its slot, its number among the registrations of that slot, and its id. -/
structure Given where
  slot : Nat
  number : Nat
  id : Nat
  deriving DecidableEq

/-- `PendingCallback`. -/
structure Callback where
  verdict : Verdict
  slotId : Nat
  name : List UInt8
  deriving DecidableEq

/-- Program counters. From `regClock` to `regActivate` and at `checkSlot` the call owns the lock. -/
inductive PC
  | idle
  | regLock (name : List UInt8) (timeoutMs : Nat)
  | regClock (i : Nat)
  | regStore (i time : Nat)
  | regBump (i : Nat)
  | regActivate (i generation : Nat)
  | unregLock (id : Nat)
  | feedActive (g : Given)
  | feedGeneration (g : Given)
  | feedClock (g : Given)
  | feedStore (g : Given) (time : Nat)
  | beatClock (i : Nat)
  | beatStore (i time : Nat)
  | checkClock
  | checkLock (now : Nat)
  | checkSlot (now i : Nat) (timeouts recovers : List Callback) (total : Nat)
  | callbacks (pending : List Callback) (total : Nat)
  | done
  deriving DecidableEq

/-- A flag that a check has changed, with the times it read, began and loaded the heartbeat, and what had happened to
the slot. -/
structure Ruling where
  verdict : Verdict
  slot : Nat
  id : Nat
  name : List UInt8
  started : Nat
  now : Nat
  ruledAt : Nat
  timeoutUs : Nat
  beats : List Nat
  fresh : Bool
  deriving DecidableEq

/-- A heartbeat that `Feed` has stored: with the registration whose id it got, and the one that owned the slot. -/
structure Fed where
  caller : Given
  slot : Nat
  owner : Nat
  deriving DecidableEq

/-- The watchdog and its calls, and what happened so far: the registrations that returned, the callbacks, how often the
heartbeat of a slot was given to a new registration, the times stored since, whether one was since the slot was flagged,
and the latest time of a check with the lock. -/
structure State (ι : Type) where
  slots : Slots
  clock : Nat
  lock : Option ι
  pc : ι → PC
  given : List Given
  issued : List Callback
  owner : Nat → Nat
  beats : Nat → List Nat
  fresh : Nat → Bool
  checked : Nat
  rulings : List Ruling
  fed : List Fed
  started : ι → Nat

/-- The operations; those on a registration name it by its place in `given`. -/
inductive Op
  | register (name : List UInt8) (timeoutMs : Nat)
  | unregister (k : Nat)
  | feed (k : Nat)
  | beat (k : Nat)
  | check

/-- Who moves: time passes, an operation is called, or a call takes its next step. -/
inductive Act (ι : Type)
  | tick (us : Nat)
  | call (c : ι) (op : Op)
  | step (c : ι)

section

variable {ι : Type} [DecidableEq ι] (cfg : Config)

def State.goto (s : State ι) (c : ι) (pc : PC) : State ι := { s with pc := update s.pc c pc }

def State.setSlot (s : State ι) (i : Nat) (slot : Slot) : State ι := { s with slots := update s.slots i slot }

def Op.start (given : List Given) : Op → Option PC
  | .register name timeoutMs => some (if timeoutMs = 0 then .done else .regLock name timeoutMs)
  | .unregister k => given[k]?.map fun g => .unregLock g.id
  | .feed k => given[k]?.map .feedActive
  | .beat k => given[k]?.map fun g => .beatClock g.slot
  | .check => some .checkClock

def State.beat (s : State ι) (i time : Nat) : State ι := { s.setSlot i { s.slots i with lastBeatUs := time } with
    beats := update s.beats i (time :: s.beats i)
    fresh := update s.fresh i true }

def rulingOf (s : State ι) (c : ι) (now i : Nat) (verdict : Verdict) : Ruling :=
  ⟨verdict, i, encodedId cfg s.slots i, (s.slots i).name, s.started c, now, s.clock, (s.slots i).timeoutUs, s.beats i,
    s.fresh i⟩

/-- The callback that a verdict on slot `i` asks for. -/
def callbackOf (s : State ι) (i : Nat) (verdict : Verdict) : Callback :=
  ⟨verdict, encodedId cfg s.slots i, (s.slots i).name⟩

/-- The loop body of `Check`, in call `c`. -/
def judgeNext (c : ι) (now i : Nat) (timeouts recovers : List Callback) (total : Nat) (s : State ι) : State ι :=
  if (s.slots i).active then
    match judge now (s.slots i) with
    | (slot, some .timeout) =>
      { s.setSlot i slot with
        fresh := update s.fresh i false
        rulings := s.rulings ++ [rulingOf cfg s c now i .timeout] }.goto c
        (.checkSlot now (i + 1) (if cfg.onTimeout then timeouts ++ [callbackOf cfg s i .timeout] else timeouts) recovers
          (total + 1))
    | (slot, some .recovered) =>
      { s.setSlot i slot with rulings := s.rulings ++ [rulingOf cfg s c now i .recovered] }.goto c
        (.checkSlot now (i + 1) timeouts
          (if cfg.onRecovered then recovers ++ [callbackOf cfg s i .recovered] else recovers) total)
    | (slot, none) => s.goto c (.checkSlot now (i + 1) timeouts recovers (if slot.timedOut then total + 1 else total))
  else s.goto c (.checkSlot now (i + 1) timeouts recovers total)

def stepNext (c : ι) (s : State ι) : Option (State ι) := match s.pc c with
  | .idle | .done => none
  | .regLock name timeoutMs =>
    if s.lock = none then
      match freeSlot cfg s.slots with
      | none => some (s.goto c .done)
      | some i => some <|
        { s.setSlot i { s.slots i with name := name.take nameCapacity, timeoutUs := timeoutMs * 1000 } with
          lock := some c }.goto c (.regClock i)
    else none
  | .regClock i => some (s.goto c (.regStore i s.clock))
  | .regStore i time => some <| { s.setSlot i { s.slots i with lastBeatUs := time, timedOut := false } with
      owner := update s.owner i (s.owner i + 1)
      beats := update s.beats i [time]
      fresh := update s.fresh i true }.goto c (.regBump i)
  | .regBump i =>
    let generation := wrap32 ((s.slots i).generation + 1)
    some ((s.setSlot i { s.slots i with generation }).goto c (.regActivate i generation))
  | .regActivate i generation => some <| { s.setSlot i { s.slots i with active := true } with
      lock := none
      given := s.given ++ [Given.mk i (s.owner i) (encode cfg generation i)] }.goto c .done
  | .unregLock id =>
    if s.lock = none then some ({ s with slots := (unregister cfg id s.slots).1 }.goto c .done) else none
  | .feedActive g =>
    let i := idIndex cfg g.id
    some (s.goto c (if i < cfg.maxThreads && (s.slots i).active then .feedGeneration g else .done))
  | .feedGeneration g =>
    some (s.goto c (if idGeneration cfg g.id = (s.slots (idIndex cfg g.id)).generation then .feedClock g else .done))
  | .feedClock g => some (s.goto c (.feedStore g s.clock))
  | .feedStore g time =>
    let i := idIndex cfg g.id
    some ({ s.beat i time with fed := s.fed ++ [Fed.mk g i (s.owner i)] }.goto c .done)
  | .beatClock i => some (s.goto c (.beatStore i s.clock))
  | .beatStore i time => some ((s.beat i time).goto c .done)
  | .checkClock => some (s.goto c (.checkLock s.clock))
  | .checkLock now =>
    if s.lock = none then
      some ({ s with lock := some c, checked := max s.checked now }.goto c (.checkSlot now 0 [] [] 0))
    else none
  | .checkSlot now i timeouts recovers total => some <|
    if i < cfg.maxThreads then judgeNext cfg c now i timeouts recovers total s
    else { s with lock := none }.goto c (.callbacks (timeouts ++ recovers) total)
  | .callbacks [] _ => some (s.goto c .done)
  | .callbacks (callback :: pending) total =>
    some ({ s with issued := s.issued ++ [callback] }.goto c (.callbacks pending total))

def next : Act ι → State ι → Option (State ι)
  | .tick us, s => some { s with clock := s.clock + us }
  | .call c op, s =>
    if s.pc c = .idle then
      (op.start s.given).map fun pc => { s with started := update s.started c s.clock }.goto c pc
    else none
  | .step c, s => stepNext cfg c s

def State.init : State ι where
  slots := .init
  clock := 0
  lock := none
  pc := fun _ => .idle
  given := []
  issued := []
  owner := fun _ => 0
  beats := fun _ => []
  fresh := fun _ => false
  checked := 0
  rulings := []
  fed := []
  started := fun _ => 0

def machine : Machine (State ι) (Act ι) := ⟨.init, next cfg⟩

end

def single : Config := ⟨1, by decide, by decide, true, true⟩

section

variable {ι : Type} {pc : PC}

def PC.locked : PC → Bool
  | .regClock _ | .regStore _ _ | .regBump _ | .regActivate _ _ | .checkSlot _ _ _ _ _ => true
  | _ => false

def PC.fills : PC → Option Nat
  | .regClock i | .regStore i _ | .regBump i | .regActivate i _ => some i
  | _ => none

/-- The slot that a registration has made healthy and not yet activated. -/
def PC.resets : PC → Option Nat
  | .regBump i | .regActivate i _ => some i
  | _ => none

/-- The lock is owned by at most one call, and a registration fills a free slot. -/
structure Locked (cfg : Config) (s : State ι) : Prop where
  holder : ∀ c, (s.pc c).locked = true → s.lock = some c
  filling : ∀ c i, (s.pc c).fills = some i → i < cfg.maxThreads ∧ (s.slots i).active = false

theorem PC.locked_of_fills {i : Nat} (fills : pc.fills = some i) : pc.locked = true := by
  cases pc <;> first | rfl | cases fills

variable {cfg : Config} {s t : State ι} {c : ι}

theorem Locked.nobody (h : Locked cfg s) (free : s.lock = none) (d : ι) : (s.pc d).locked = false := by
  by_contra owns
  have holder := h.holder d (Bool.not_eq_false _ ▸ owns)
  rw [free] at holder
  cases holder

theorem Locked.alone (h : Locked cfg s) (mine : (s.pc c).locked = true) (d : ι) (other : d ≠ c) :
    (s.pc d).locked = false := by
  by_contra owns
  have holder := h.holder d (Bool.not_eq_false _ ▸ owns)
  rw [h.holder c mine] at holder
  cases holder
  exact other rfl

theorem setSlot_active (s : State ι) (j : Nat) (slot : Slot) (same : slot.active = true → (s.slots j).active = true) (i : Nat)
    (on : ((s.setSlot j slot).slots i).active = true) : (s.slots i).active = true := by
  by_cases here : i = j
  · subst here
    simp only [State.setSlot, update_self] at on
    exact same on
  · simpa only [State.setSlot, update_of_ne here] using on

theorem Op.start_unlocked {given : List Given} {op : Op} (start : op.start given = some pc) :
    pc.locked = false ∧ pc.fills = none := by
  cases op with
  | register name timeoutMs =>
    cases start
    split <;> exact ⟨rfl,rfl⟩
  | unregister k | feed k | beat k =>
    obtain ⟨g,-,rfl⟩ := Option.map_eq_some_iff.1 start
    exact ⟨rfl,rfl⟩
  | check =>
    cases start
    exact ⟨rfl,rfl⟩

theorem locked_init : Locked cfg (State.init (ι := ι)) := ⟨nofun, nofun⟩

variable [DecidableEq ι] {u : State ι}

theorem goto_sees {γ : Type} (f : PC → γ) {d : ι} {x : γ} (seen : f ((u.goto c pc).pc d) = x) :
    d = c ∧ f pc = x ∨ d ≠ c ∧ f (u.pc d) = x := by
  by_cases self : d = c
  · subst self
    exact .inl ⟨rfl,update_self d pc u.pc ▸ seen⟩
  · exact .inr ⟨self,update_of_ne self pc u.pc ▸ seen⟩

theorem Locked.move (h : Locked cfg s) (pcs : u.pc = s.pc)
    (mine : pc.locked = true → u.lock = some c) (lock : u.lock = s.lock ∨ ∀ d, d ≠ c → (s.pc d).locked = false)
    (active : ∀ i, (u.slots i).active = true → (s.slots i).active = true ∨ ∀ d, d ≠ c → (s.pc d).locked = false)
    (fills : ∀ i, pc.fills = some i → i < cfg.maxThreads ∧ (u.slots i).active = false) : Locked cfg (u.goto c pc) := by
  constructor
  case holder =>
    intro d owns
    rcases goto_sees PC.locked owns with ⟨rfl,now⟩ | ⟨other,old⟩
    · exact mine now
    · rw [pcs] at old
      rcases lock with eq | none_
      · exact eq.trans (h.holder d old)
      · rw [none_ d other] at old
        cases old
  case filling =>
    intro d i filling
    rcases goto_sees PC.fills filling with ⟨-,now⟩ | ⟨other,old⟩
    · exact fills i now
    · rw [pcs] at old
      obtain ⟨inside,inactive⟩ := h.filling d i old
      refine ⟨inside,?_⟩
      by_contra now
      rcases active i (Bool.not_eq_false _ ▸ now) with before | none_
      · rw [inactive] at before
        cases before
      · have owns := PC.locked_of_fills old
        rw [none_ d other] at owns
        cases owns

theorem Locked.goto (h : Locked cfg s) (lock : u.lock = s.lock) (pcs : u.pc = s.pc)
    (active : ∀ i, (u.slots i).active = true → (s.slots i).active = true)
    (owns : pc.locked = true → s.lock = some c) (fills : ∀ i, pc.fills = some i → i < cfg.maxThreads ∧
      (s.slots i).active = false) : Locked cfg (u.goto c pc) := by
  refine h.move pcs (fun locked => lock.trans (owns locked)) (.inl lock) (fun i on => .inl (active i on)) ?_
  intro i filling
  obtain ⟨inside,inactive⟩ := fills i filling
  refine ⟨inside,?_⟩
  by_contra on
  rw [active i (Bool.not_eq_false _ ▸ on)] at inactive
  cases inactive

/-- What a check does to one slot: nothing, flag it, or take the flag back. -/
inductive Judged (cfg : Config) (c : ι) (now i : Nat) (timeouts recovers : List Callback) (s : State ι) : State ι → Prop
  | same (total : Nat) : Judged cfg c now i timeouts recovers s (s.goto c (.checkSlot now (i + 1) timeouts recovers total))
  | timeout (timeouts' : List Callback) (total : Nat) (active : (s.slots i).active = true)
      (late : late now (s.slots i) = true) (healthy : (s.slots i).timedOut = false)
      (pending : timeouts' = timeouts ∨ timeouts' = timeouts ++ [callbackOf cfg s i .timeout]) :
      Judged cfg c now i timeouts recovers s ({ s.setSlot i { s.slots i with timedOut := true } with
        fresh := update s.fresh i false
        rulings := s.rulings ++ [rulingOf cfg s c now i .timeout] }.goto c
        (.checkSlot now (i + 1) timeouts' recovers total))
  | recovered (recovers' : List Callback) (total : Nat) (active : (s.slots i).active = true)
      (early : late now (s.slots i) = false) (flagged : (s.slots i).timedOut = true)
      (pending : recovers' = recovers ∨ recovers' = recovers ++ [callbackOf cfg s i .recovered]) :
      Judged cfg c now i timeouts recovers s ({ s.setSlot i { s.slots i with timedOut := false } with
        rulings := s.rulings ++ [rulingOf cfg s c now i .recovered] }.goto c
        (.checkSlot now (i + 1) timeouts recovers' total))

theorem judgeNext_judged (cfg : Config) (c : ι) (now i : Nat) (timeouts recovers : List Callback) (total : Nat) (s : State ι) :
    Judged cfg c now i timeouts recovers s (judgeNext cfg c now i timeouts recovers total s) := by
  unfold judgeNext
  dsimp only
  split
  · rename_i active
    by_cases flag : late now (s.slots i) && !(s.slots i).timedOut
    · simp only [judge, flag, if_true]
      simp only [Bool.and_eq_true, Bool.not_eq_true'] at flag
      refine .timeout _ (total + 1) active flag.1 flag.2 ?_
      split
      · exact .inr rfl
      · exact .inl rfl
    · by_cases unflag : !late now (s.slots i) && (s.slots i).timedOut
      · simp only [judge, flag, unflag, if_true]
        simp only [Bool.and_eq_true, Bool.not_eq_true'] at unflag
        refine .recovered _ total active unflag.1 unflag.2 ?_
        split
        · exact .inr rfl
        · exact .inl rfl
      · simp only [judge, flag, unflag]
        exact .same _
  · exact .same _

theorem Judged.frame {now i : Nat} {timeouts recovers : List Callback} (judged : Judged cfg c now i timeouts recovers s t) :
    ∃ (u : State ι) (timeouts' recovers' : List Callback) (total : Nat),
      t = u.goto c (.checkSlot now (i + 1) timeouts' recovers' total) ∧ u.lock = s.lock ∧ u.pc = s.pc ∧
      ∀ j, (u.slots j).active = true → (s.slots j).active = true := by
  cases judged with
  | same total => exact ⟨s,_,_,_,rfl,rfl,rfl,fun _ => id⟩
  | timeout _ _ active | recovered _ _ active => exact ⟨_,_,_,_,rfl,rfl,rfl,setSlot_active s i _ fun _ => active⟩

theorem Locked.step (h : Locked cfg s) (step : stepNext cfg c s = some t) : Locked cfg t := by
  cases here : s.pc c <;> simp only [stepNext, here] at step
  case idle | done => cases step
  case regLock name timeoutMs =>
    obtain ⟨free,step⟩ := enabled step
    split at step
    · cases step
      exact h.goto rfl rfl (fun _ => id) nofun nofun
    · rename_i i slot
      cases step
      obtain ⟨inside,inactive⟩ := freeSlot_some slot
      refine h.move rfl (fun _ => rfl) (.inr fun d _ => h.nobody free d) (fun _ _ => .inr fun d _ => h.nobody free d) ?_
      rintro j ⟨⟩
      refine ⟨inside,?_⟩
      simpa only [State.setSlot, update_self] using inactive
  case regClock i =>
    cases step
    have mine := h.holder c (by rw [here]; rfl)
    exact h.goto rfl rfl (fun _ => id) (fun _ => mine) (fun j fills => h.filling c j (by rw [here]; exact fills))
  case regStore i _ | regBump i =>
    cases step
    have mine := h.holder c (by rw [here]; rfl)
    exact h.goto rfl rfl (setSlot_active s i _ id) (fun _ => mine)
      (fun j fills => h.filling c j (by rw [here]; exact fills))
  case regActivate i generation =>
    cases step
    have alone := h.alone (c := c) (by rw [here]; rfl)
    exact h.move rfl nofun (.inr alone) (fun _ _ => .inr alone) nofun
  case unregLock id =>
    obtain ⟨_,⟨⟩⟩ := enabled step
    refine h.goto rfl rfl (fun i on => ?_) nofun nofun
    simp only [unregister] at on
    split at on
    · exact setSlot_active s (idIndex cfg id) { s.slots (idIndex cfg id) with active := false } (fun no => by cases no) i on
    · exact on
  case feedActive g | feedGeneration g =>
    cases step
    refine h.goto rfl rfl (fun _ => id) ?_ ?_ <;> split <;> nofun
  case feedClock g | beatClock i | checkClock =>
    cases step
    exact h.goto rfl rfl (fun _ => id) nofun nofun
  case feedStore g time | beatStore i time =>
    cases step
    exact h.goto rfl rfl (setSlot_active s _ _ id) nofun nofun
  case checkLock now =>
    obtain ⟨free,⟨⟩⟩ := enabled step
    exact h.move rfl (fun _ => rfl) (.inr fun d _ => h.nobody free d) (fun _ on => .inl on) nofun
  case checkSlot now i timeouts recovers total =>
    simp only [Option.some.injEq] at step
    subst step
    split
    · obtain ⟨u,timeouts',recovers',total',eq,lock,pcs,active⟩ :=
        (judgeNext_judged cfg c now i timeouts recovers total s).frame
      rw [eq]
      have mine := h.holder c (by rw [here]; rfl)
      exact h.goto lock pcs active (fun _ => mine) nofun
    · have alone := h.alone (c := c) (by rw [here]; rfl)
      exact h.move rfl nofun (.inr alone) (fun _ on => .inl on) nofun
  case callbacks pending total =>
    cases pending with
    | nil | cons =>
      simp only at step
      cases step
      exact h.goto rfl rfl (fun _ => id) nofun nofun

theorem Locked.next {a : Act ι} (h : Locked cfg s) (step : next cfg a s = some t) : Locked cfg t := by
  cases a with
  | tick us =>
    cases step
    exact ⟨h.holder,h.filling⟩
  | call c op =>
    simp only [Watchdog.next] at step
    obtain ⟨_,step⟩ := enabled step
    obtain ⟨pc,start,rfl⟩ := Option.map_eq_some_iff.1 step
    obtain ⟨unlocked,empty⟩ := Op.start_unlocked start
    exact h.goto rfl rfl (fun _ => id) (fun owns => by rw [unlocked] at owns; cases owns)
      fun i fills => by rw [empty] at fills; cases fills
  | step c => exact h.step step

end

end Newosp.Watchdog
