import Newosp.Lib.Machine
import Newosp.Lib.Wrap

/-!
# Consumers that die, and the cleanup of their references

Consumer processes (`ι`) register in a slot, keep its heartbeat fresh, take the references of a `Submit` and release
them; one may die between any two steps. Threads (`ρ`) run `CleanupDeadConsumers`. Every access to a slot, a count or
the clock is one step, and so is a recycle. A set bit of a `holding_mask` is `some c` with the consumer that set it, at
which no step looks. `grants` and `drops` are histories.
-/

namespace Newosp.Dispatcher.Consumers
open Lib Function

/-- `OSP_JOB_MAX_CONSUMERS`, the capacity of the store and `OSP_JOB_CONSUMER_TIMEOUT_US`. -/
structure Layout where
  maxConsumers : Nat
  maxBlocks : Nat
  timeoutUs : Nat

/-- A `holding_mask`. -/
abbrev Mask (ι : Type) := Nat → Option ι

/-- `ConsumerSlot`, without the process number that nothing reads. -/
structure ConsumerSlot (ι : Type) where
  active : Bool
  heartbeatUs : Nat
  holdingMask : Mask ι

/-- Program counters of a consumer in slot `i`. -/
inductive ConsumerPC
  | out
  | registerCas (i : Nat)
  | registerClock (i : Nat)
  | registerBeat (i now : Nat)
  | registerMask (i : Nat)
  | idle (i : Nat)
  | beat (i now : Nat)
  | trackHold (i b : Nat)
  | releaseLoad (i b : Nat)
  | releaseCas (i b cur : Nat)
  | recycle (i b : Nat)
  | trackRelease (i b : Nat)
  | unregisterMask (i : Nat)
  | unregisterBeat (i : Nat)
  | unregisterActive (i : Nat)

/-- Program counters of `CleanupDeadConsumers` at slot `i` and block `b`, with the mask that it took. -/
inductive CleanupPC (ι : Type)
  | idle
  | loadActive (i : Nat)
  | loadBeat (i : Nat)
  | clock (i heartbeat : Nat)
  | exchange (i : Nat) (active : Bool)
  | casActive (i : Nat) (mask : Mask ι)
  | recheck (i : Nat) (mask : Mask ι)
  | restore (i : Nat) (mask : Mask ι)
  | release (i b : Nat) (mask : Mask ι)
  | releaseCas (i b : Nat) (mask : Mask ι) (cur : Nat)
  | recycle (i b : Nat) (mask : Mask ι)

structure State (ι ρ : Type) where
  now : Nat
  slot : Nat → ConsumerSlot ι
  refcount : Nat → Nat
  taken : Nat → Bool
  alive : ι → Bool
  pc : ι → ConsumerPC
  inbox : ι → Nat → Nat
  has : ι → Nat → Nat
  cleanup : ρ → CleanupPC ι
  grants : ι → Nat → Nat
  drops : ι → Nat → Nat

/-- The clock, a `Submit` of a block to some consumers, a consumer that begins a call, goes on or dies, and a cleanup
(if `spurious`, a weak compare-and-swap fails). -/
inductive Act (ι ρ : Type)
  | tick (us : Nat)
  | submit (b : Nat) (consumers : List ι)
  | register (c : ι)
  | unregister (c : ι)
  | heartbeat (c : ι)
  | take (c : ι) (b : Nat)
  | release (c : ι) (b : Nat)
  | step (c : ι) (spurious : Bool)
  | die (c : ι)
  | beginCleanup (r : ρ)
  | cleanup (r : ρ) (spurious : Bool)

variable {ι ρ : Type} [DecidableEq ι] [DecidableEq ρ]

def update2 (f : ι → Nat → Nat) (c : ι) (b n : Nat) : ι → Nat → Nat := update f c (update (f c) b n)

namespace State

variable (s : State ι ρ)

def setSlot (i : Nat) (slot : ConsumerSlot ι) : State ι ρ := { s with slot := update s.slot i slot }

def setMask (i : Nat) (holdingMask : Mask ι) : State ι ρ := s.setSlot i { s.slot i with holdingMask }

def setActive (i : Nat) (active : Bool) : State ι ρ := s.setSlot i { s.slot i with active }

def setBeat (i : Nat) (heartbeatUs : Nat) : State ι ρ := s.setSlot i { s.slot i with heartbeatUs }

def goto (c : ι) (pc : ConsumerPC) : State ι ρ := { s with pc := update s.pc c pc }

def cleanTo (r : ρ) (pc : CleanupPC ι) : State ι ρ := { s with cleanup := update s.cleanup r pc }

def setRefcount (b n : Nat) : State ι ρ := { s with refcount := update s.refcount b n }

def recycle (b : Nat) : State ι ρ := { s with taken := update s.taken b false }

def drop (c : ι) (b : Nat) : State ι ρ := { s with drops := update2 s.drops c b (s.drops c b + 1) }

def letGo (c : ι) (b : Nat) : State ι ρ := { s with has := update2 s.has c b (s.has c b - 1) }

end State

def State.registerAt (s : State ι ρ) (l : Layout) (c : ι) (i : Nat) : State ι ρ :=
  if i < l.maxConsumers then s.goto c (.registerCas i) else s.goto c .out

def consumerNext (l : Layout) (c : ι) (spurious : Bool) (s : State ι ρ) : Option (State ι ρ) :=
  match s.pc c with
  | .out | .idle _ => none
  | .registerCas i =>
    if (s.slot i).active = false then some ((s.setActive i true).goto c (.registerClock i))
    else some (s.registerAt l c (i + 1))
  | .registerClock i => some (s.goto c (.registerBeat i s.now))
  | .registerBeat i now => some ((s.setBeat i now).goto c (.registerMask i))
  | .registerMask i => some ((s.setMask i fun _ => none).goto c (.idle i))
  | .beat i now => some ((s.setBeat i now).goto c (.idle i))
  | .trackHold i b =>
    some ((s.setMask i (update (s.slot i).holdingMask b (some c))).goto c (.idle i))
  | .releaseLoad i b =>
    let cur := s.refcount b
    if 0 < cur then some (s.goto c (.releaseCas i b cur)) else some ((s.letGo c b).goto c (.trackRelease i b))
  | .releaseCas i b cur =>
    if s.refcount b = cur ∧ spurious = false then
      let s := ((s.setRefcount b (cur - 1)).drop c b).letGo c b
      if cur = 1 then some (s.goto c (.recycle i b)) else some (s.goto c (.trackRelease i b))
    else if 0 < s.refcount b then some (s.goto c (.releaseCas i b (s.refcount b)))
    else some ((s.letGo c b).goto c (.trackRelease i b))
  | .recycle i b => some ((s.recycle b).goto c (.trackRelease i b))
  | .trackRelease i b =>
    some ((s.setMask i (update (s.slot i).holdingMask b none)).goto c (.idle i))
  | .unregisterMask i => some ((s.setMask i fun _ => none).goto c (.unregisterBeat i))
  | .unregisterBeat i => some ((s.setBeat i 0).goto c (.unregisterActive i))
  | .unregisterActive i => some ((s.setActive i false).goto c .out)

/-- The loop of `CleanupDeadConsumers` at slot `i`. -/
def State.cleanupAt (s : State ι ρ) (l : Layout) (r : ρ) (i : Nat) : State ι ρ :=
  if i < l.maxConsumers then s.cleanTo r (.loadActive i) else s.cleanTo r .idle

/-- One step of `CleanupDeadConsumers`; an empty mask is gone through without effect. -/
def cleanupNext (l : Layout) (r : ρ) (spurious : Bool) (s : State ι ρ) : Option (State ι ρ) :=
  match s.cleanup r with
  | .idle => none
  | .loadActive i =>
    if (s.slot i).active then some (s.cleanTo r (.loadBeat i)) else some (s.cleanTo r (.exchange i false))
  | .loadBeat i =>
    -- a heartbeat of 0 is unknown and not dead
    let heartbeat := (s.slot i).heartbeatUs
    if heartbeat = 0 then some (s.cleanupAt l r (i + 1)) else some (s.cleanTo r (.clock i heartbeat))
  | .clock i heartbeat =>
    if heartbeat + l.timeoutUs < s.now then some (s.cleanTo r (.exchange i true))
    else some (s.cleanupAt l r (i + 1))
  | .exchange i active =>
    let mask := (s.slot i).holdingMask
    let s := s.setMask i fun _ => none
    if active then some (s.cleanTo r (.casActive i mask)) else some (s.cleanTo r (.release i 0 mask))
  | .casActive i mask =>
    if (s.slot i).active then some ((s.setActive i false).cleanTo r (.release i 0 mask))
    else some (s.cleanTo r (.recheck i mask))
  | .recheck i mask =>
    if (s.slot i).active then some (s.cleanupAt l r (i + 1)) else some (s.cleanTo r (.restore i mask))
  | .restore i mask =>
    some ((s.setMask i fun b => (s.slot i).holdingMask b <|> mask b).cleanupAt l r (i + 1))
  | .release i b mask =>
    if l.maxBlocks ≤ b then some (s.cleanupAt l r (i + 1))
    else if mask b = none then some (s.cleanTo r (.release i (b + 1) mask))
    else
      let cur := s.refcount b
      if 0 < cur then some (s.cleanTo r (.releaseCas i b mask cur)) else some (s.cleanTo r (.release i (b + 1) mask))
  | .releaseCas i b mask cur =>
    if s.refcount b = cur ∧ spurious = false then
      let s := s.setRefcount b (cur - 1)
      let s := match mask b with
        | some c => s.drop c b
        | none => s
      if cur = 1 then some (s.cleanTo r (.recycle i b mask)) else some (s.cleanTo r (.release i (b + 1) mask))
    else if 0 < s.refcount b then some (s.cleanTo r (.releaseCas i b mask (s.refcount b)))
    else some (s.cleanTo r (.release i (b + 1) mask))
  | .recycle i b mask => some ((s.recycle b).cleanTo r (.release i (b + 1) mask))

/-- One step of the system; only a living consumer moves. -/
def next (l : Layout) : Act ι ρ → State ι ρ → Option (State ι ρ)
  | .tick us, s => some { s with now := s.now + us }
  | .submit b consumers, s =>
    if s.taken b ∨ consumers = [] then none
    else some { s with
      taken := update s.taken b true
      refcount := update s.refcount b (wrap32 consumers.length)
      grants := fun c => update (s.grants c) b (s.grants c b + consumers.count c)
      inbox := fun c => update (s.inbox c) b (s.inbox c b + consumers.count c) }
  | .register c, s => match s.alive c, s.pc c with
    | true, .out => some (s.registerAt l c 0)
    | _, _ => none
  | .unregister c, s => match s.alive c, s.pc c with
    | true, .idle i => some (s.goto c (.unregisterMask i))
    | _, _ => none
  | .heartbeat c, s => match s.alive c, s.pc c with
    | true, .idle i => some (s.goto c (.beat i s.now))
    | _, _ => none
  | .take c b, s => match s.alive c, s.pc c with
    | true, .idle i =>
      if 0 < s.inbox c b then
        some ({ s with inbox := update2 s.inbox c b (s.inbox c b - 1), has := update2 s.has c b (s.has c b + 1) }.goto c
          (.trackHold i b))
      else none
    | _, _ => none
  | .release c b, s => match s.alive c, s.pc c with
    | true, .idle i => if 0 < s.has c b then some (s.goto c (.releaseLoad i b)) else none
    | _, _ => none
  | .step c spurious, s => if s.alive c then consumerNext l c spurious s else none
  | .die c, s => if s.alive c then some { s with alive := update s.alive c false } else none
  | .beginCleanup r, s => match s.cleanup r with
    | .idle => some (s.cleanupAt l r 0)
    | _ => none
  | .cleanup r spurious, s => cleanupNext l r spurious s

def machine (l : Layout) : Machine (State ι ρ) (Act ι ρ) where
  init :=
    { now := 0
      slot := fun _ => ⟨false, 0, fun _ => none⟩
      refcount := fun _ => 0
      taken := fun _ => false
      alive := fun _ => true
      pc := fun _ => .out
      inbox := fun _ _ => 0
      has := fun _ _ => 0
      cleanup := fun _ => .idle
      grants := fun _ _ => 0
      drops := fun _ _ => 0 }
  next := next l

end Newosp.Dispatcher.Consumers
