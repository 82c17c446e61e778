import Newosp.Pool.Accounting

/-!
# `FlushAndPause`

The flushing thread samples the bus depth, the worker queues, `dispatched_` and `processed_` one after the other. If no
`Submit` that passed the `paused_` check is inside the bus when `producer_pos_` is sampled, the later samples can only
find less work. A `Submit` on its way can make the two counters agree while a job is in a handler.
-/

namespace Newosp.Pool
open Lib List
open List (replicate)

section

variable {ι α : Type}

/-- What the flushing thread relies on at each of its samples. -/
def FlushOk (s : State ι α) : ControlPC → Prop
  | .depthProd => s.paused = true
  | .depthCons prod => s.paused = true ∧ s.quiet ∧ prod = s.bus.claims.length
  | .checkQueue busEmpty _ => s.paused = true ∧ s.quiet ∧ (busEmpty = true → s.bus.released = s.bus.claims.length)
  | .loadDisp busEmpty _ => s.paused = true ∧ s.quiet ∧ (busEmpty = true → s.bus.released = s.bus.claims.length)
  | .loadProc busEmpty _ disp => s.paused = true ∧ s.quiet ∧
      (busEmpty = true → s.bus.released = s.bus.claims.length ∧ disp = wrap64 s.pushed.length)
  | .flushed ok => s.paused = true ∧ (ok = true →
      s.quiet ∧ s.bus.released = s.bus.claims.length ∧ s.handled.length = s.pushed.length)
  | _ => True

/-- The flushing thread samples `producer_pos_` only when no `Submit` is inside the bus. -/
def quietSample (s : State ι α) : Act ι → Prop
  | .control _ => s.cpc = .depthProd → s.quiet
  | _ => True

/-- No `Submit` evicts a job from the bus. -/
def noEviction (s : State ι α) : Act ι → Prop
  | .publish c _ => (s.bus.pc c).evicting = false
  | _ => True

instance [Fintype ι] (s : State ι α) : (a : Act ι) → Decidable (quietSample s a)
  | .control _ => inferInstanceAs (Decidable (s.cpc = .depthProd → s.quiet))
  | .submit _ | .publish .. | .dispatcher | .worker _ | .flush | .resume | .shutdown => .isTrue trivial

instance (s : State ι α) : (a : Act ι) → Decidable (noEviction s a)
  | .publish c _ => inferInstanceAs (Decidable ((s.bus.pc c).evicting = false))
  | .submit _ | .dispatcher | .worker _ | .flush | .resume | .shutdown | .control _ => .isTrue trivial

variable [DecidableEq ι] [Inhabited α] {cfg : Config} {req : ι → Bus.Request α}
  {registered : α → Bool} {s s' : State ι α}

section

theorem reach_noEviction (h : Reach (machine cfg req registered) noEviction s) : s.bus.evicted = [] := by
  refine h.invariant (I := fun s => s.bus.evicted = []) rfl ?_
  intro s t a _ ih guard step
  change next cfg req registered a s = some t at step
  rcases next_bus step with same | ⟨c,-,-,eq⟩ | ⟨c,spurious,rfl,moved⟩ | ⟨-,eq⟩
  · rw [same]
    exact ih
  · rw [eq]
    exact ih
  · exact (Bus.producerNext_evicted guard moved).trans ih
  · rw [eq]
    exact (Bus.consumerNext_released cfg.bus s.bus).2.trans ih

variable (h : PoolInv cfg req registered s)
include h

theorem PoolInv.handled_le : s.handled.length ≤ s.pushed.length := by
  have card := congrArg Multiset.card h.work
  simp only [Multiset.card_add, Multiset.coe_card] at card
  omega

theorem PoolInv.pushed_le (small : Bus.Unwrapped cfg.bus s.bus) : s.pushed.length ≤ s.bus.claims.length := by
  obtain ⟨st,place,ring,log⟩ := Bus.reach_inv h.bus small
  have card := congrArg Multiset.card h.taken
  have positions := congrArg length log.dispatchPos
  have bound := Bus.dispatched_le ring
  simp only [State.taken, Multiset.card_add, Multiset.coe_card, length_map, length_range] at card positions
  have filtered := card.symm.trans_le (length_filter_le ..)
  omega

theorem FlushOk.keep (h' : PoolInv cfg req registered s') (small : Bus.Unwrapped cfg.bus s'.bus) {a : Act ι}
    (step : next cfg req registered a s = some s') (paused : s'.paused = s.paused) {pc : ControlPC}
    (ok : FlushOk s pc) : FlushOk s' pc := by
  have narrow := next_unwrapped step small
  obtain ⟨-,lower,unclaimed⟩ := next_counters step
  obtain ⟨more,pushed⟩ := next_jobs step
  have quiet : s.paused = true → s.quiet → s'.quiet := fun on still =>
    next_quiet step still fun _ _ => on
  have drained : s.quiet → s.bus.released = s.bus.claims.length →
      s'.bus.released = s'.bus.claims.length ∧ s'.pushed = s.pushed := by
    intro still empty
    obtain ⟨st,place,ring,-⟩ := Bus.reach_inv h'.bus small
    have upper := ring.released_le
    have same := unclaimed still
    refine ⟨?_,pushed (h.idle_of_drained narrow empty)⟩
    rw [same] at upper ⊢
    omega
  cases pc <;> simp only [FlushOk, paused] at ok ⊢
  case depthProd => exact ok
  case depthCons prod =>
    obtain ⟨on,still,same⟩ := ok
    exact ⟨on,quiet on still,by rw [unclaimed still]; exact same⟩
  case checkQueue | loadDisp =>
    obtain ⟨on,still,empty⟩ := ok
    exact ⟨on,quiet on still,fun e => (drained still (empty e)).1⟩
  case loadProc =>
    obtain ⟨on,still,sampled⟩ := ok
    refine ⟨on,quiet on still,fun e => ?_⟩
    obtain ⟨empty,count⟩ := sampled e
    obtain ⟨empty',same⟩ := drained still empty
    exact ⟨empty',by rw [same]; exact count⟩
  case flushed =>
    obtain ⟨on,done⟩ := ok
    refine ⟨on,fun success => ?_⟩
    obtain ⟨still,empty,all⟩ := done success
    obtain ⟨empty',same⟩ := drained still empty
    have upper := h'.handled_le
    refine ⟨quiet on still,empty',?_⟩
    rw [same] at upper ⊢
    omega

theorem FlushOk.sample (small : Bus.Unwrapped cfg.bus s.bus) {timeout : Bool} (guard : s.cpc = .depthProd → s.quiet)
    (ok : FlushOk s s.cpc) (step : controlNext cfg timeout s = some s') : FlushOk s s'.cpc := by
  obtain ⟨st,place,ring,-⟩ := Bus.reach_inv h.bus small
  have bound := h.pushed_le small
  have below : s.bus.claims.length < 4294967296 := by
    unfold Bus.Unwrapped at small
    omega
  cases here : s.cpc <;> simp only [controlNext, here] at step <;> rw [here] at ok
  case idle | flushed | stopped => cases step
  case depthProd =>
    cases step
    exact ⟨ok,guard here,ring.prodPos⟩
  case depthCons prod =>
    cases step
    obtain ⟨on,still,rfl⟩ := ok
    refine ⟨on,still,fun e => ?_⟩
    have zero := of_decide_eq_true e
    have lower := ring.cons_le
    have upper := ring.released_le
    unfold sub32 at zero
    omega
  case checkQueue busEmpty i =>
    cases step
    show FlushOk s (if _ then _ else _)
    split
    · split <;> exact ok
    · exact ok
  case loadDisp busEmpty workersEmpty =>
    cases step
    obtain ⟨on,still,empty⟩ := ok
    refine ⟨on,still,fun e => ⟨empty e,?_⟩⟩
    obtain ⟨d,counter,total⟩ := h.dispatched
    have counted := (DispatcherPC.inHand_of_outside (h.idle_of_drained small (empty e))).2
    rw [counter, ← total, counted, add_zero]
  case loadProc busEmpty workersEmpty disp =>
    cases step
    obtain ⟨on,still,sampled⟩ := ok
    show FlushOk s (if _ then _ else _)
    split
    · rename_i agree
      obtain ⟨drained,-,same⟩ := agree
      obtain ⟨empty,count⟩ := sampled drained
      obtain ⟨p,counter,total⟩ := h.processed
      have upper := h.handled_le
      refine ⟨on,fun _ => ⟨still,empty,?_⟩⟩
      rw [same, counter] at count
      unfold wrap64 at count
      omega
    · split
      · exact ⟨on,fun success => by cases success⟩
      · exact on
  case joinDispatcher =>
    split at step <;> cases step
    trivial
  case joinWorker i =>
    split at step
    · split at step <;> cases step
      trivial
    · cases step
      trivial

omit h in
theorem reach_flushOk (h : Reach (machine cfg req registered) quietSample s)
    (small : Bus.Unwrapped cfg.bus s.bus) : FlushOk s s.cpc := by
  refine h.invariant (I := fun s => Bus.Unwrapped cfg.bus s.bus → FlushOk s s.cpc) ?_ ?_ small
  · intro _
    trivial
  intro s t a reached ih guard step small
  change next cfg req registered a s = some t at step
  have inv := reach_poolInv reached
  have inv' := next_poolInv inv step
  have narrow := next_unwrapped step small
  have ok := ih narrow
  cases a with
  | flush =>
    simp only [next] at step
    split at step <;> cases step
    exact rfl
  | resume | shutdown =>
    simp only [next] at step
    split at step <;> cases step
    trivial
  | control timeout =>
    have sampled := ok.sample inv narrow guard step
    refine sampled.keep inv inv' small step ?_
    rw [controlNext_cpc step]
  | _ =>
    obtain ⟨cpc,paused,-⟩ := next_flags step rfl
    rw [cpc]
    exact ok.keep inv inv' small step paused

theorem PoolInv.handled_eq (all : s.handled.length = s.pushed.length) :
    (s.pushed : Multiset (Job ι α)) = s.handled := by
  refine (Multiset.eq_of_le_of_card_le ?_ ?_).symm
  · rw [h.work]
    exact Multiset.le_add_right _ _
  · simp only [Multiset.coe_card, all, le_refl]

end

theorem flush_account (h : Reach (machine cfg req registered) quietSample s)
    (small : Bus.Unwrapped cfg.bus s.bus) (success : s.cpc = .flushed true) {c : ι}
    (accepted : s.bus.pc c = .done .accepted) (known : registered (req c).payload = true) :
    jobCount c s.handled + jobCount c s.dropped + Bus.evictCount s.bus c = 1 := by
  have inv := reach_poolInv h
  have ok := reach_flushOk h small
  rw [success] at ok
  obtain ⟨-,drained,all⟩ := ok.2 rfl
  have same := congrArg (Multiset.countP fun job : Job ι α => job.payloadBy = some c) (inv.handled_eq all)
  simp only [Multiset.coe_countP] at same
  have account := inv.accounted small drained accepted known
  unfold jobCount at account ⊢
  omega

/-- **A successful flush has handled every job**: if `producer_pos_` is sampled only when no `Submit` is inside the
bus and no job is evicted, then the message of every accepted `Submit` has been handled, or is counted in
`worker_queue_full_`. -/
theorem flushed_jobs_handled (h : Reach (machine cfg req registered) (fun s a => quietSample s a ∧ noEviction s a) s)
    (small : Bus.Unwrapped cfg.bus s.bus) (success : s.cpc = .flushed true) :
    s.workerQueueFull = wrap64 s.dropped.length ∧
    ∀ c, s.bus.pc c = .done .accepted → registered (req c).payload = true →
      (∃ job ∈ s.handled, job.payloadBy = some c ∧ ∃ id, job.envelope = (req c).envelope id) ∨
      ∃ job ∈ s.dropped, job.payloadBy = some c := by
  have inv := reach_poolInv h
  refine ⟨inv.full,fun c accepted known => ?_⟩
  have account := flush_account (h.mono fun _ _ ok => ok.1) small success accepted known
  have kept : Bus.evictCount s.bus c = 0 := by
    rw [Bus.evictCount, reach_noEviction (h.mono fun _ _ ok => ok.2)]
    rfl
  by_cases dropped : 0 < jobCount c s.dropped
  · obtain ⟨job,member,mine⟩ := countP_pos_iff.1 dropped
    exact .inr ⟨job,member,of_decide_eq_true mine⟩
  · obtain ⟨job,member,mine⟩ := countP_pos_iff.1 (show 0 < jobCount c s.handled by omega)
    have mine := of_decide_eq_true mine
    refine .inl ⟨job,member,mine,?_⟩
    have taken : job ∈ s.taken registered := by
      rw [inv.taken, inv.work]
      simp [member]
    obtain ⟨m,id,payload,envelope⟩ := inv.whole small taken
    rw [mine] at payload
    cases payload
    exact ⟨id,envelope⟩

end

def pool2 : Config := ⟨Bus.depth4, 2, Nat.two_pos, 4⟩

def twoJobs (c : Fin 2) : Bus.Request Nat := ⟨c, 0, 0, .kMedium, 0⟩

def submitSteps {ι : Type} (c : ι) : List (Act ι) := .submit c :: replicate 12 (.publish c false)

/-- Both jobs are handled before the flush begins. -/
theorem flushed_jobs_handled_both : ∃ s : State (Fin 2) Nat,
    Reach (machine pool2 twoJobs fun _ => true) (fun s a => quietSample s a ∧ noEviction s a) s ∧
    Bus.Unwrapped pool2.bus s.bus ∧ s.cpc = .flushed true ∧ s.bus.pc 0 = .done .accepted ∧
    ((∃ job ∈ s.handled, job.payloadBy = some 0 ∧ ∃ id, job.envelope = (twoJobs 0).envelope id) ∨
      ∃ job ∈ s.dropped, job.payloadBy = some 0) := by
  obtain ⟨s,reached,small,success,accepted⟩ := reach_of_decided (machine pool2 twoJobs fun _ => true)
    (fun s a => quietSample s a ∧ noEviction s a) (submitSteps 0 ++ submitSteps 1 ++ replicate 19 .dispatcher ++
        replicate 4 (.worker 0) ++ replicate 4 (.worker 1) ++
        .flush :: replicate 7 (.control false))
      (fun s => s.bus.claims.length + 3 * pool2.bus.queueDepth < 4294967296 ∧ s.cpc = .flushed true ∧
        s.bus.pc 0 = .done .accepted) (by decide +kernel)
  exact ⟨s,reached,small,success,accepted,(flushed_jobs_handled reached small success).2 0 accepted rfl⟩

/-- Worker 0 holds job 0 when the flush begins. Job 1, which passed the `paused_` check before, is handled by worker 1
and not counted in `dispatched_` yet when that is loaded: both counters read 1. -/
def raceSteps {ι : Type} (c d : ι) : List (Act ι) := submitSteps c ++ replicate 12 .dispatcher ++ replicate 2 (.worker 0) ++
  [.submit d, .flush] ++ replicate 5 (.control false) ++
  replicate 12 (.publish d false) ++ replicate 7 .dispatcher ++
  replicate 4 (.worker 1) ++ replicate 2 (.control false)

/-- A flush succeeds although a job accepted before it is still in its handler. -/
theorem flushed_in_handler : ∃ (s : State (Fin 2) Nat) (past : List (State (Fin 2) Nat)),
    History (machine pool2 twoJobs fun _ => true) anyStep (s :: past) ∧
    (∃ t ∈ past, t.cpc = .idle ∧ t.bus.pc 0 = .done .accepted) ∧ s.cpc = .flushed true ∧
    ¬ ((∃ job ∈ s.handled, job.payloadBy = some 0) ∨ ∃ job ∈ s.dropped, job.payloadBy = some 0) := by
  exact history_of_schedule (machine pool2 twoJobs fun _ => true) (raceSteps 0 1) (by decide +kernel)

/-- The jobs taken from the bus: with the dispatcher, dropped, handled, and in the queue or the hands of a worker. -/
def State.jobs {ι α : Type} (cfg : Config) (s : State ι α) : Multiset (Job ι α) :=
  s.dpc.inHand + s.dropped + (s.handled + ∑ w ∈ Finset.range cfg.workerNum, s.load w)

/-- **Every accepted job is in one place**, in every state of every interleaving: it waits on the bus, was evicted from it,
or is one of the jobs taken from it. -/
theorem job_in_one_place {ι α : Type} [DecidableEq ι] [Inhabited α] {cfg : Config} {req : ι → Bus.Request α}
    {registered : α → Bool} {s : State ι α} {c : ι} (h : Reach (machine cfg req registered) anyStep s)
    (small : Bus.Unwrapped cfg.bus s.bus) (accepted : s.bus.pc c = .done .accepted)
    (known : registered (req c).payload = true) : Bus.pendingCount cfg.bus s.bus c + Bus.evictCount s.bus c +
      (s.jobs cfg).countP (fun job => job.payloadBy = some c) = 1 := by
  have inv := reach_poolInv h
  have taken : s.taken registered = s.jobs cfg := by
    rw [inv.taken, inv.work, State.jobs]
    abel
  have once := ((Bus.reach_inv inv.bus small).exactlyOnce small).accounted c accepted
  rw [← taken, inv.taken_count small known]
  omega

/-- Worker 0 has job 0 in its hands. -/
theorem job_in_one_place_handling : ∃ s : State (Fin 2) Nat, Reach (machine pool2 twoJobs fun _ => true) anyStep s ∧
    (s.wpc 0).current.card = 1 ∧ Bus.pendingCount pool2.bus s.bus 0 + Bus.evictCount s.bus 0 +
      (s.jobs pool2).countP (fun job => job.payloadBy = some 0) = 1 := by
  obtain ⟨s,reached,small,accepted,held⟩ := reach_of_schedule (machine pool2 twoJobs fun _ => true)
    (submitSteps 0 ++ replicate 12 .dispatcher ++ replicate 2 (.worker 0))
    (fun s => s.bus.claims.length + 3 * pool2.bus.queueDepth < 4294967296 ∧ s.bus.pc 0 = .done .accepted ∧
      (s.wpc 0).current.card = 1) (by decide +kernel)
  exact ⟨s,reached,held,job_in_one_place reached small accepted rfl⟩

end Newosp.Pool
