import Mathlib.Tactic.Abel
import Mathlib.Algebra.Order.BigOperators.Group.Finset
import Newosp.Bus.Delivery
import Newosp.Pool.Machine

/-!
# Where every job of the pool is

A job the dispatcher took from the bus is in its hands, in the queue or the hands of one worker,
handled, or dropped because every queue was full. The counters lag behind by the increments still to
come.
-/

namespace Newosp.Pool
open Lib List
open Function (update update_of_ne update_self)
open Bus (consumerNext reach_inv)
open State (workerGoto)
open Multiset (coe_add)

variable {ι α : Type} {cfg : Config} {req : ι → Bus.Request α} {registered : α → Bool} {s s' : State ι α}
  {pc : DispatcherPC ι α} {job : Job ι α}

def WorkerPC.current : WorkerPC ι α → Multiset (Job ι α)
  | .handling job _ => {job}
  | _ => 0

def WorkerPC.uncounted : WorkerPC ι α → Nat
  | .count _ => 1
  | _ => 0

def DispatcherPC.inHand : DispatcherPC ι α → Multiset (Job ι α)
  | .pick job _ => {job}
  | .push job _ _ _ => {job}
  | .overflow job _ => {job}
  | _ => 0

def DispatcherPC.uncounted : DispatcherPC ι α → Nat
  | .count _ => 1
  | _ => 0

def DispatcherPC.dispatching : DispatcherPC ι α → Bool
  | .pick .. => true
  | .push .. => true
  | .count .. => true
  | .overflow .. => true
  | _ => false

def DispatcherPC.outside : DispatcherPC ι α → Bool
  | .test => true
  | .exited => true
  | _ => false

theorem DispatcherPC.inHand_of_outside (outside : pc.dispatching = false) : pc.inHand = 0 ∧ pc.uncounted = 0 := by
  cases pc <;> first | exact ⟨rfl,rfl⟩ | cases outside

def State.load (s : State ι α) (w : Nat) : Multiset (Job ι α) := (s.wpc w).current + (s.queue w : Multiset (Job ι α))

def State.taken (registered : α → Bool) (s : State ι α) : Multiset (Job ι α) :=
  (s.bus.dispatched.filter fun job => registered job.envelope.payload : List (Job ι α))

section

variable [DecidableEq ι] [Inhabited α] (cfg req registered)

structure PoolInv (s : State ι α) : Prop where
  bus : Reach (Bus.machine cfg.bus req) anyStep s.bus
  outside : s.dpc.outside = true → ∃ n, s.bus.cpc = .idle n
  dispatching : s.dpc.dispatching = true → s.bus.cpc.releasing = true
  taken : s.taken registered = (s.pushed : Multiset (Job ι α)) + (s.dropped : Multiset (Job ι α)) + s.dpc.inHand
  work : (s.pushed : Multiset (Job ι α)) =
    (s.handled : Multiset (Job ι α)) + ∑ w ∈ Finset.range cfg.workerNum, s.load w
  dispatched : ∃ d, s.dispatched = wrap64 d ∧ d + s.dpc.uncounted = s.pushed.length
  processed : ∃ p, s.processed = wrap64 p ∧
    p + ∑ w ∈ Finset.range cfg.workerNum, (s.wpc w).uncounted = s.handled.length
  full : s.workerQueueFull = wrap64 s.dropped.length

end

theorem sum_change {M : Type} [AddCommMonoid M] (f f' : Nat → M) {w n : Nat} (h : w < n)
    (same : ∀ i, i ≠ w → f' i = f i) : ∑ i ∈ Finset.range n, f' i + f w = ∑ i ∈ Finset.range n, f i + f' w := by
  have member : w ∈ Finset.range n := Finset.mem_range.2 h
  rw [← Finset.sum_erase_add _ _ member, ← Finset.sum_erase_add _ f member]
  have rest : ∑ i ∈ (Finset.range n).erase w, f' i = ∑ i ∈ (Finset.range n).erase w, f i :=
    Finset.sum_congr rfl fun i hi => same i (Finset.ne_of_mem_erase hi)
  rw [rest, add_right_comm]

section

variable [DecidableEq ι] [Inhabited α] {w : Nat}

/-- What a step of worker `w` leaves alone. -/
structure WorkerFrame (w : Nat) (s s' : State ι α) : Prop where
  bus : s'.bus = s.bus
  dpc : s'.dpc = s.dpc
  dispatched : s'.dispatched = s.dispatched
  pushed : s'.pushed = s.pushed
  dropped : s'.dropped = s.dropped
  full : s'.workerQueueFull = s.workerQueueFull
  wpc : ∀ i, i ≠ w → s'.wpc i = s.wpc i
  queue : ∀ i, i ≠ w → s'.queue i = s.queue i

variable (h : PoolInv cfg req registered s)
include h

theorem PoolInv.worker (lt : w < cfg.workerNum) (f : WorkerFrame w s s')
    (jobs : (s'.handled : Multiset (Job ι α)) + s'.load w = (s.handled : Multiset (Job ι α)) + s.load w)
    (count : ∀ p, s.processed = wrap64 p → ∃ p', s'.processed = wrap64 p' ∧
      p' + (s'.wpc w).uncounted + s.handled.length = p + (s.wpc w).uncounted + s'.handled.length) :
    PoolInv cfg req registered s' := by
  have loads := sum_change s.load s'.load lt fun i ne => by
    rw [State.load, f.wpc i ne, f.queue i ne]
    rfl
  have counts := sum_change (fun i => (s.wpc i).uncounted) (fun i => (s'.wpc i).uncounted) lt
    fun i ne => by simp only [f.wpc i ne]
  constructor
  case bus => rw [f.bus]; exact h.bus
  case outside => rw [f.bus, f.dpc]; exact h.outside
  case dispatching => rw [f.bus, f.dpc]; exact h.dispatching
  case taken => rw [State.taken, f.bus, f.pushed, f.dropped, f.dpc]; exact h.taken
  case work =>
    rw [f.pushed, h.work]
    refine add_right_cancel (b := s.load w) ?_
    rw [add_assoc, add_assoc, loads, ← add_assoc, add_right_comm, ← jobs, add_right_comm, add_assoc]
  case dispatched => rw [f.dispatched, f.dpc, f.pushed]; exact h.dispatched
  case processed =>
    obtain ⟨p,counter,total⟩ := h.processed
    obtain ⟨p',counter',total'⟩ := count p counter
    refine ⟨p',counter',?_⟩
    omega
  case full => rw [f.full, f.dropped]; exact h.full

theorem PoolInv.workerMove (lt : w < cfg.workerNum) {pc : WorkerPC ι α} (current : pc.current = (s.wpc w).current)
    (uncounted : pc.uncounted = (s.wpc w).uncounted) : PoolInv cfg req registered (s.workerGoto w pc) := by
  refine h.worker lt ⟨rfl,rfl,rfl,rfl,rfl,rfl,fun i ne => update_of_ne ne ..,fun _ _ => rfl⟩
    ?_ fun p counter => ⟨p,counter,?_⟩
  · simp [State.load, workerGoto, current]
  · simp [workerGoto, uncounted]

theorem PoolInv.pop (lt : w < cfg.workerNum) {final : Bool} {empty : WorkerPC ι α} (free : (s.wpc w).current = 0)
    (settled : (s.wpc w).uncounted = 0) (free' : empty.current = 0) (settled' : empty.uncounted = 0) :
    PoolInv cfg req registered (popNext w final empty s) := by
  unfold popNext
  split
  · rename_i job rest queue
    refine h.worker lt ⟨rfl,rfl,rfl,rfl,rfl,rfl,fun i ne => update_of_ne ne ..,
      fun i ne => update_of_ne ne ..⟩ ?_ fun p counter => ⟨p,counter,?_⟩
    · have before : s.load w = (job :: rest : List (Job ι α)) := by rw [State.load, free, queue, zero_add]
      rw [before]
      simp [State.load, workerGoto, WorkerPC.current]
    · rw [settled]
      simp [workerGoto, WorkerPC.uncounted]
  · exact h.workerMove lt (by rw [free', free]) (by rw [settled', settled])

/-- One step of a worker. -/
theorem worker_step (step : workerNext cfg w s = some s') : PoolInv cfg req registered s' := by
  unfold workerNext at step
  obtain ⟨lt,step⟩ := enabled step
  cases here : s.wpc w <;> simp only [here] at step
  case exited => cases step
  case test =>
    cases step
    refine h.workerMove lt ?_ ?_ <;> rw [here] <;> split <;> rfl
  case pop | drainPop =>
    cases step
    exact h.pop lt (by rw [here]; rfl) (by rw [here]; rfl) rfl rfl
  case handling job final =>
    cases step
    refine h.worker lt ⟨rfl,rfl,rfl,rfl,rfl,rfl,fun i ne => update_of_ne ne ..,fun _ _ => rfl⟩
      ?_ fun p counter => ⟨p,counter,?_⟩
    · have before : s.load w = {job} + (s.queue w : Multiset (Job ι α)) := by rw [State.load, here]; rfl
      rw [before]
      simp [State.load, workerGoto, WorkerPC.current, ← coe_add, add_assoc]
    · simp only [workerGoto, here, update_self, WorkerPC.uncounted, length_append, length_singleton]
      omega
  case count final =>
    cases step
    refine h.worker lt ⟨rfl,rfl,rfl,rfl,rfl,rfl,fun i ne => update_of_ne ne ..,fun _ _ => rfl⟩
      ?_ fun p counter => ⟨p + 1,?_,?_⟩
    · have before : s.load w = (s.queue w : Multiset (Job ι α)) := by
        rw [State.load, here]
        exact zero_add _
      rw [before]
      cases final <;> simp [State.load, workerGoto, WorkerPC.current]
    · simp [workerGoto, counter, wrap64, Nat.add_mod]
    · rw [here]
      cases final <;> simp only [workerGoto, update_self, WorkerPC.uncounted, if_true, Bool.false_eq_true, if_false]

end

section

variable [DecidableEq ι] [Inhabited α] {caller : Caller} (h : PoolInv cfg req registered s)
include h

theorem PoolInv.dispatcherMove (n : Nat) (inHand : pc.inHand = s.dpc.inHand)
    (uncounted : pc.uncounted = s.dpc.uncounted) (outside : pc.outside = true → s.dpc.outside = true)
    (dispatching : pc.dispatching = true → s.dpc.dispatching = true) :
    PoolInv cfg req registered { s with dpc := pc, nextWorker := n } := by
  refine ⟨h.bus,fun out => h.outside (outside out),fun inside => h.dispatching (dispatching inside),
    ?_, h.work, ?_, h.processed, h.full⟩
  · show s.taken registered = _ + _ + pc.inHand
    rw [inHand]
    exact h.taken
  · show ∃ d, _ ∧ d + pc.uncounted = _
    rw [uncounted]
    exact h.dispatched

theorem PoolInv.push {start i wid : Nat} (here : s.dpc = .push job start i caller)
    (lt : wid < cfg.workerNum) :
    PoolInv cfg req registered { s with
      queue := update s.queue wid (s.queue wid ++ [job]), pushed := s.pushed ++ [job],
      dpc := .count caller } := by
  constructor
  case bus => exact h.bus
  case outside => exact fun out => by cases out
  case dispatching => exact fun _ => h.dispatching (by rw [here]; rfl)
  case taken =>
    have taken := h.taken
    rw [here] at taken
    show s.taken registered = ((s.pushed ++ [job] : List (Job ι α)) : Multiset (Job ι α)) + _ + 0
    rw [taken, ← coe_add, add_zero, add_right_comm]
    rfl
  case work =>
    have loads := sum_change s.load (fun w => (s.wpc w).current +
      (update s.queue wid (s.queue wid ++ [job]) w : Multiset (Job ι α))) lt fun w ne => by
        simp only [update_of_ne ne, State.load]
    simp only [update_self, ← coe_add, ← add_assoc] at loads
    show ((s.pushed ++ [job] : List (Job ι α)) : Multiset (Job ι α)) = _ + ∑ w ∈ _, ((s.wpc w).current +
      (update s.queue wid (s.queue wid ++ [job]) w : Multiset (Job ι α)))
    refine add_right_cancel (b := s.load wid) ?_
    rw [add_assoc (s.handled : Multiset (Job ι α)), loads, ← coe_add, h.work]
    simp only [State.load]
    abel
  case dispatched =>
    obtain ⟨d,counter,total⟩ := h.dispatched
    rw [here] at total
    refine ⟨d,counter,?_⟩
    simp only [DispatcherPC.uncounted, length_append, length_singleton] at total ⊢
    omega
  case processed => exact h.processed
  case full => exact h.full

theorem PoolInv.read (here : s.dpc = .batch caller) {i consPos n : Nat} {header : Bus.MessageHeader}
    {by' : Option ι} (reading : s.bus.cpc = .readPayload i consPos n header by') :
    PoolInv cfg req registered { s with
      bus := consumerNext cfg.bus s.bus,
      dpc := afterBatchStep registered (consumerNext cfg.bus s.bus) caller true } := by
  have taken := h.taken
  rw [here] at taken
  obtain ⟨d,counter,total⟩ := h.dispatched
  rw [here] at total
  set job : Job ι α := ⟨consPos,⟨header,(s.bus.mem.ring (cfg.bus.index consPos)).payload⟩,by',
    s.bus.payloadBy (cfg.bus.index consPos)⟩ with job_def
  have log : (consumerNext cfg.bus s.bus).dispatched = s.bus.dispatched ++ [job] := by
    simp only [consumerNext, reading, job_def]
  have next : (consumerNext cfg.bus s.bus).cpc = .release i consPos n := by
    simp only [consumerNext, reading]
  have filter : ∀ t : State ι α, t.bus = consumerNext cfg.bus s.bus → t.taken registered =
      s.taken registered + if registered job.envelope.payload then {job} else 0 := by
    intro t eq
    rw [State.taken, eq, log, filter_append, ← coe_add]
    congr 1
    by_cases known : registered job.envelope.payload = true <;> simp [known]
  have goes : afterBatchStep registered (consumerNext cfg.bus s.bus) caller true =
      if registered job.envelope.payload then .pick job caller else .batch caller := by
    simp [afterBatchStep, log]
  rw [goes]
  constructor
  case bus => exact .step h.bus trivial (a := .consumer) rfl
  case outside =>
    intro out
    split at out <;> cases out
  case dispatching =>
    intro _
    show (consumerNext cfg.bus s.bus).cpc.releasing = true
    rw [next]
    rfl
  case taken =>
    rw [filter _ rfl, taken]
    split <;> simp [DispatcherPC.inHand]
  case work => exact h.work
  case dispatched =>
    refine ⟨d,counter,?_⟩
    simp only [DispatcherPC.uncounted] at total
    split <;> exact total
  case processed => exact h.processed
  case full => exact h.full

theorem PoolInv.batch (here : s.dpc = .batch caller)
    (log : (consumerNext cfg.bus s.bus).dispatched = s.bus.dispatched) :
    PoolInv cfg req registered { s with
      bus := consumerNext cfg.bus s.bus,
      dpc := afterBatchStep registered (consumerNext cfg.bus s.bus) caller false } := by
  have taken := h.taken
  rw [here] at taken
  obtain ⟨d,counter,total⟩ := h.dispatched
  rw [here] at total
  have back : ∀ count, (caller.back count : DispatcherPC ι α).inHand = 0 ∧
      (caller.back count : DispatcherPC ι α).uncounted = 0 ∧
      (caller.back count : DispatcherPC ι α).dispatching = false := by
    intro count
    cases caller with
    | loop => exact ⟨rfl,rfl,rfl⟩
    | drain round =>
      simp only [Caller.back]
      split
      · exact ⟨rfl,rfl,rfl⟩
      · split <;> exact ⟨rfl,rfl,rfl⟩
  have empty : (afterBatchStep registered (consumerNext cfg.bus s.bus) caller false).inHand = 0 ∧
      (afterBatchStep registered (consumerNext cfg.bus s.bus) caller false).uncounted = 0 ∧
      (afterBatchStep registered (consumerNext cfg.bus s.bus) caller false).dispatching = false := by
    simp only [afterBatchStep, Bool.false_eq_true, if_false]
    split
    · exact back _
    · exact ⟨rfl,rfl,rfl⟩
  constructor
  case bus => exact .step h.bus trivial (a := .consumer) rfl
  case outside =>
    intro out
    simp only [afterBatchStep, Bool.false_eq_true, if_false] at out
    split at out
    · rename_i count idle
      exact ⟨count,idle⟩
    · cases out
  case dispatching =>
    intro inside
    rw [empty.2.2] at inside
    cases inside
  case taken =>
    rw [empty.1]
    simp only [State.taken, log]
    exact taken
  case work => exact h.work
  case dispatched => exact ⟨d,counter,by rw [empty.2.1]; exact total⟩
  case processed => exact h.processed
  case full => exact h.full

/-- One step of the dispatcher. -/
theorem dispatcher_step (step : dispatcherNext cfg registered s = some s') : PoolInv cfg req registered s' := by
  cases here : s.dpc <;> simp only [dispatcherNext, here] at step
  case exited => cases step
  case test =>
    cases step
    exact h.dispatcherMove _ (by rw [here]; rfl) (by rw [here]; rfl) (by simp [DispatcherPC.outside])
      (by simp [DispatcherPC.dispatching])
  case batch caller =>
    cases step
    cases reading : s.bus.cpc with
    | readPayload i consPos n header by' => exact h.read here reading
    | casSeq i consPos n =>
      refine h.batch here ?_
      simp only [consumerNext, reading]
      split <;> rfl
    | _ => exact h.batch here (by simp only [consumerNext, reading])
  case pick job caller =>
    cases step
    exact h.dispatcherMove _ (by rw [here]; rfl) (by rw [here]; rfl) (by simp [DispatcherPC.outside])
      (by rw [here]; exact fun _ => rfl)
  case push job start i caller =>
    split at step <;> cases step
    · exact h.push here (Nat.mod_lt _ cfg.worker_pos)
    · refine h.dispatcherMove _ ?_ ?_ ?_ (by rw [here]; exact fun _ => rfl)
      · rw [here]
        split <;> rfl
      · rw [here]
        split <;> rfl
      · intro out
        split at out <;> cases out
  case count caller =>
    cases step
    obtain ⟨d,counter,total⟩ := h.dispatched
    have taken := h.taken
    rw [here] at total taken
    refine ⟨h.bus,(fun out => by cases out),(fun inside => by cases inside),taken,h.work,
      ⟨d + 1,?_,total⟩, h.processed, h.full⟩
    simp [counter, wrap64, Nat.add_mod]
  case overflow job caller =>
    cases step
    have taken := h.taken
    have dispatched := h.dispatched
    rw [here] at taken dispatched
    refine ⟨h.bus,(fun out => by cases out),(fun inside => by cases inside),?_,h.work,dispatched,
      h.processed, ?_⟩
    · show s.taken registered = _ + ((s.dropped ++ [job] : List (Job ι α)) : Multiset (Job ι α)) + 0
      rw [taken, ← coe_add, add_zero, ← add_assoc]
      rfl
    · simp [h.full, wrap64, Nat.add_mod]

end

section

variable [DecidableEq ι] [Inhabited α]

section

variable (h : PoolInv cfg req registered s)
include h

theorem PoolInv.submitter {b : Bus.State ι α}
    (reached : Reach (Bus.machine cfg.bus req) anyStep b) (cpc : b.cpc = s.bus.cpc)
    (log : b.dispatched = s.bus.dispatched) : PoolInv cfg req registered { s with bus := b } := by
  refine ⟨reached,?_,?_,?_,h.work,h.dispatched,h.processed,h.full⟩
  · show s.dpc.outside = true → ∃ n, b.cpc = .idle n
    rw [cpc]
    exact h.outside
  · show s.dpc.dispatching = true → b.cpc.releasing = true
    rw [cpc]
    exact h.dispatching
  · have same : ({ s with bus := b } : State ι α).taken registered = s.taken registered := by
      simp only [State.taken, log]
    rw [same]
    exact h.taken

theorem PoolInv.flags (cpc : ControlPC) (paused shutdown : Bool)
    (refused : ι → Bool) : PoolInv cfg req registered { s with
      cpc := cpc, paused := paused, shutdown := shutdown, refused := refused } :=
  ⟨h.bus, h.outside, h.dispatching, h.taken, h.work, h.dispatched, h.processed, h.full⟩

/-- Every step of the pool keeps the accounts. -/
theorem next_poolInv {a : Act ι} (step : next cfg req registered a s = some s') : PoolInv cfg req registered s' := by
  cases next_moved step with
  | refused c refused => exact h.flags s.cpc s.paused s.shutdown refused
  | @entered c idle running => exact h.submitter (.step h.bus trivial (a := .call c) (if_pos idle)) rfl rfl
  | @published c spurious b moved =>
    obtain ⟨cpc,_,log⟩ := Bus.producerNext_consumer moved
    exact h.submitter (.step h.bus trivial (a := .producer c spurious) moved) cpc log
  | dispatched step => exact dispatcher_step h step
  | worked step => exact worker_step h step
  | controlled cpc paused shutdown _ => exact h.flags cpc paused shutdown s.refused

end

theorem init_poolInv (cfg : Config) (req : ι → Bus.Request α) (registered : α → Bool) :
    PoolInv cfg req registered (State.init : State ι α) where
  bus := .init
  outside := fun _ => ⟨0, rfl⟩
  dispatching := fun inside => by cases inside
  taken := rfl
  work := by simp [State.init, State.load, WorkerPC.current]
  dispatched := ⟨0, rfl, rfl⟩
  processed := ⟨0, rfl, by simp [State.init, WorkerPC.uncounted]⟩
  full := rfl

/-- The accounts hold in every reachable state. -/
theorem reach_poolInv {ok : State ι α → Act ι → Prop} (h : Reach (machine cfg req registered) ok s) :
    PoolInv cfg req registered s := by
  refine h.invariant (I := PoolInv cfg req registered) (init_poolInv cfg req registered) ?_
  intro s t a _ inv _ step
  exact next_poolInv inv step

end

/-! ## What one step can change -/

structure SameFlags (s s' : State ι α) : Prop where
  cpc : s'.cpc = s.cpc
  paused : s'.paused = s.paused
  shutdown : s'.shutdown = s.shutdown

theorem workerNext_frame {w : Nat} (step : workerNext cfg w s = some s') :
    WorkerFrame w s s' ∧ SameFlags s s' ∧ s.handled.length ≤ s'.handled.length := by
  have moved : ∀ pc, WorkerFrame w s (s.workerGoto w pc) :=
    fun _ => ⟨rfl,rfl,rfl,rfl,rfl,rfl,fun _ ne => update_of_ne ne ..,fun _ _ => rfl⟩
  have popped : ∀ final empty, WorkerFrame w s (popNext w final empty s) ∧
      SameFlags s (popNext w final empty s) ∧ s.handled.length ≤ (popNext w final empty s).handled.length := by
    intro final empty
    unfold popNext
    split
    · exact ⟨⟨rfl,rfl,rfl,rfl,rfl,rfl,fun _ ne => update_of_ne ne ..,
        fun _ ne => update_of_ne ne ..⟩, ⟨rfl,rfl,rfl⟩, le_rfl⟩
    · exact ⟨moved _,⟨rfl,rfl,rfl⟩,le_rfl⟩
  unfold workerNext at step
  obtain ⟨_,step⟩ := enabled step
  cases here : s.wpc w <;> simp only [here] at step
  case exited => cases step
  case pop | drainPop =>
    cases step
    exact popped ..
  case test =>
    cases step
    exact ⟨moved _,⟨rfl,rfl,rfl⟩,le_rfl⟩
  case handling job final =>
    cases step
    exact ⟨⟨rfl,rfl,rfl,rfl,rfl,rfl,fun _ ne => update_of_ne ne ..,fun _ _ => rfl⟩,
      ⟨rfl,rfl,rfl⟩, by simp [workerGoto]⟩
  case count final =>
    cases step
    exact ⟨⟨rfl,rfl,rfl,rfl,rfl,rfl,fun _ ne => update_of_ne ne ..,fun _ _ => rfl⟩,⟨rfl,rfl,rfl⟩,le_rfl⟩

/-- What a step of the dispatcher leaves alone. -/
structure DispatcherFrame (cfg : Config) (s s' : State ι α) : Prop where
  bus : s'.bus = s.bus ∨ s'.bus = consumerNext cfg.bus s.bus
  wpc : s'.wpc = s.wpc
  handled : s'.handled = s.handled
  pushed : s.dpc.dispatching = false → s'.pushed = s.pushed ∧ s'.queue = s.queue

theorem dispatcherNext_frame (step : dispatcherNext cfg registered s = some s') :
    DispatcherFrame cfg s s' ∧ SameFlags s s' := by
  cases here : s.dpc <;> simp only [dispatcherNext, here] at step
  case exited => cases step
  case batch caller =>
    cases step
    exact ⟨⟨.inr rfl,rfl,rfl,fun _ => ⟨rfl,rfl⟩⟩,rfl,rfl,rfl⟩
  case push job start i caller =>
    split at step <;> cases step
    · refine ⟨⟨.inl rfl,rfl,rfl,fun outside => ?_⟩,rfl,rfl,rfl⟩
      rw [here] at outside
      cases outside
    · exact ⟨⟨.inl rfl,rfl,rfl,fun _ => ⟨rfl,rfl⟩⟩,rfl,rfl,rfl⟩
  all_goals
    cases step
    exact ⟨⟨.inl rfl,rfl,rfl,fun _ => ⟨rfl,rfl⟩⟩,rfl,rfl,rfl⟩

def State.quiet (s : State ι α) : Prop := ∀ c, ¬ s.bus.running c

instance [Fintype ι] (s : State ι α) : Decidable s.quiet := inferInstanceAs (Decidable (∀ c, ¬ s.bus.running c))

section

variable [DecidableEq ι] {a : Act ι} (step : next cfg req registered a s = some s')
include step

/-- The bus of the pool stays, or takes one of its steps. -/
theorem next_bus : s'.bus = s.bus ∨ (∃ c, a = .submit c ∧ s.paused = false ∧ s'.bus = s.bus.goto c .loadId) ∨
    (∃ c spurious, a = .publish c spurious ∧ Bus.producerNext cfg.bus req c spurious s.bus = some s'.bus) ∨
    (a = .dispatcher ∧ s'.bus = consumerNext cfg.bus s.bus) := by
  cases next_moved step with
  | refused | controlled => exact .inl rfl
  | @entered c idle running => exact .inr (.inl ⟨c,rfl,running,rfl⟩)
  | @published c spurious b moved => exact .inr (.inr (.inl ⟨c,spurious,rfl,moved⟩))
  | dispatched step =>
    rcases (dispatcherNext_frame step).1.bus with same | moved
    · exact .inl same
    · exact .inr (.inr (.inr ⟨rfl,moved⟩))
  | worked step => exact .inl (workerNext_frame step).1.bus

theorem next_flags (other : a.byControl = false) : SameFlags s s' := by
  cases next_moved step with
  | refused | entered | published => exact ⟨rfl,rfl,rfl⟩
  | dispatched step => exact (dispatcherNext_frame step).2
  | worked step => exact (workerNext_frame step).2.1
  | controlled _ _ _ control =>
    rw [control] at other
    cases other

theorem next_threads : (a ≠ .dispatcher → s'.dpc = s.dpc) ∧ ((∀ w, a ≠ .worker w) → s'.wpc = s.wpc) ∧
    (a ≠ .dispatcher → (∀ w, a ≠ .worker w) → s'.queue = s.queue) := by
  cases next_moved step with
  | refused | entered | published | controlled => exact ⟨fun _ => rfl,fun _ => rfl,fun _ _ => rfl⟩
  | dispatched step =>
    exact ⟨fun other => absurd rfl other,fun _ => (dispatcherNext_frame step).1.wpc,fun other => absurd rfl other⟩
  | @worked w _ step =>
    exact ⟨fun _ => (workerNext_frame step).1.dpc,fun other => absurd rfl (other w),
      fun _ other => absurd rfl (other w)⟩

theorem next_jobs : s.handled.length ≤ s'.handled.length ∧ (s.dpc.dispatching = false → s'.pushed = s.pushed) := by
  cases next_moved step with
  | refused | entered | published | controlled => exact ⟨le_rfl,fun _ => rfl⟩
  | dispatched step =>
    obtain ⟨frame,-⟩ := dispatcherNext_frame step
    exact ⟨le_of_eq (by rw [frame.handled]),fun outside => (frame.pushed outside).1⟩
  | worked step =>
    obtain ⟨frame,-,handled⟩ := workerNext_frame step
    exact ⟨handled,fun _ => frame.pushed⟩

theorem next_counters : s.bus.claims.length ≤ s'.bus.claims.length ∧ s.bus.released ≤ s'.bus.released ∧
    (s.quiet → s'.bus.claims = s.bus.claims) := by
  rcases next_bus step with same | ⟨c,-,-,eq⟩ | ⟨c,spurious,-,moved⟩ | ⟨-,eq⟩
  · rw [same]
    exact ⟨le_rfl,le_rfl,fun _ => rfl⟩
  · rw [eq]
    exact ⟨le_rfl,le_rfl,fun _ => rfl⟩
  · obtain ⟨-,released,-⟩ := Bus.producerNext_consumer moved
    exact ⟨Bus.producerNext_claims moved,le_of_eq released.symm,
      fun quiet => absurd (Bus.running_of_producerNext moved) (quiet c)⟩
  · obtain ⟨-,claims,-⟩ := Bus.consumerNext_frame cfg.bus s.bus
    rw [eq]
    exact ⟨le_of_eq (by rw [claims]),(Bus.consumerNext_released cfg.bus s.bus).1,fun _ => claims⟩

theorem next_quiet (quiet : s.quiet) (refused : ∀ c, a = .submit c → s.paused = true) : s'.quiet := by
  rcases next_bus step with same | ⟨c,act,on,-⟩ | ⟨c,spurious,-,moved⟩ | ⟨-,eq⟩
  · rw [State.quiet, same]
    exact quiet
  · rw [refused c act] at on
    cases on
  · exact absurd (Bus.running_of_producerNext moved) (quiet c)
  · intro c
    obtain ⟨pcs,-⟩ := Bus.consumerNext_frame cfg.bus s.bus
    rw [eq, Bus.State.running, pcs]
    exact quiet c

theorem next_unwrapped (small : Bus.Unwrapped cfg.bus s'.bus) : Bus.Unwrapped cfg.bus s.bus :=
  lt_of_le_of_lt (Nat.add_le_add_right (next_counters step).1 _) small

end

section

variable [DecidableEq ι] [Inhabited α] (h : PoolInv cfg req registered s) {c : ι}
include h

theorem PoolInv.idle_of_drained (small : Bus.Unwrapped cfg.bus s.bus) (drained : s.bus.released = s.bus.claims.length) :
    s.dpc.dispatching = false := by
  by_contra inside
  have releasing := h.dispatching (by simpa using inside)
  obtain ⟨st,place,ring,-⟩ := reach_inv h.bus small
  have two := cfg.bus.queueDepth_two_le
  have first : Bus.InWindow cfg.bus s.bus s.bus.released := ⟨le_rfl,by omega⟩
  have free := (ring.free_iff _ first).2 (le_of_eq drained.symm)
  have taken := ring.consumer
  cases here : s.bus.cpc <;> rw [here] at releasing taken
  case release =>
    rw [taken.2.2] at free
    cases free
  all_goals cases releasing

omit h in
def jobCount (c : ι) (jobs : List (Job ι α)) : Nat := jobs.countP fun job => job.payloadBy = some c

section

variable (small : Bus.Unwrapped cfg.bus s.bus)
include small

theorem PoolInv.whole (taken : job ∈ s.taken registered) :
    ∃ c id, job.payloadBy = some c ∧ job.envelope = (req c).envelope id := by
  obtain ⟨st,place,ring,log⟩ := reach_inv h.bus small
  obtain ⟨c,id,-,payload,envelope⟩ := log.dispatchOk job (mem_of_mem_filter taken)
  exact ⟨c,id,payload,envelope⟩

theorem PoolInv.taken_count (known : registered (req c).payload = true) :
    (s.taken registered).countP (fun job => job.payloadBy = some c) = Bus.dispatchCount s.bus c := by
  obtain ⟨st,place,ring,log⟩ := reach_inv h.bus small
  rw [State.taken, Multiset.coe_countP, Bus.dispatchCount, countP_filter]
  refine countP_congr fun job member => ?_
  obtain ⟨m,id,-,payload,envelope⟩ := log.dispatchOk job member
  simp only [payload, envelope, Bool.and_eq_true, decide_eq_true_eq, Option.some.injEq]
  refine ⟨fun both => both.1,fun eq => ⟨eq,?_⟩⟩
  subst eq
  exact known

section

variable (drained : s.bus.released = s.bus.claims.length) (accepted : s.bus.pc c = .done .accepted)
include drained accepted

theorem PoolInv.left_bus : Bus.dispatchCount s.bus c + Bus.evictCount s.bus c = 1 := by
  obtain ⟨st,place,ring,log⟩ := reach_inv h.bus small
  rw [log.dispatched, log.evicted]
  cases eq : place c with
  | unplaced =>
    have hidden := (log.unplaced_iff c).1 eq
    rw [accepted] at hidden
    cases hidden
  | pending p =>
    have win := log.window p c eq
    have message := (log.message_iff p c win).2 eq
    have free : st p = .free := (ring.free_iff p win).2 (by have := win.1; omega)
    rw [free] at message
    cases message
  | dispatched => rfl
  | evicted => rfl

/-- The account of a job on a drained bus: pushed, dropped with every queue full, or evicted. -/
theorem PoolInv.accounted (known : registered (req c).payload = true) :
    jobCount c s.pushed + jobCount c s.dropped + Bus.evictCount s.bus c = 1 := by
  have left := h.left_bus small drained accepted
  have empty := (DispatcherPC.inHand_of_outside (h.idle_of_drained small drained)).1
  have taken := h.taken_count small known
  rw [h.taken, empty, add_zero, Multiset.countP_add] at taken
  simp only [Multiset.coe_countP] at taken
  unfold jobCount
  omega

end

end

end

end Newosp.Pool
