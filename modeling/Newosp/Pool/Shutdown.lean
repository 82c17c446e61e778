import Newosp.Bus.Statistics
import Newosp.Pool.Flush

/-!
# `Shutdown`

The dispatcher and the workers see the shutdown flag each on their own. Nothing is lost if the dispatcher starts its
final drain with no more jobs than its ten batches hold, no `Submit` is inside the bus then or enters it later, and no
worker ends its own drain before the dispatcher has ended.
-/

namespace Newosp.Pool
open Lib List
open Bus (batchAt consumerNext)

variable {ι α : Type} {cfg : Config} {req : ι → Bus.Request α} {s s' : State ι α} {registered : α → Bool}
  {consPos r : Nat}

def Caller.round : Caller → Option Nat
  | .loop => none
  | .drain round => some round

def DispatcherPC.round : DispatcherPC ι α → Option Nat
  | .batch caller => caller.round
  | .pick _ caller => caller.round
  | .push _ _ _ caller => caller.round
  | .count caller => caller.round
  | .overflow _ caller => caller.round
  | _ => none

def DispatcherPC.ended : DispatcherPC ι α → Bool
  | .exited => true
  | _ => false

/-- The dispatcher has seen the shutdown flag. -/
def DispatcherPC.stopping (pc : DispatcherPC ι α) : Bool := pc.round.isSome || pc.ended

def WorkerPC.draining : WorkerPC ι α → Bool
  | .drainPop => true
  | _ => false

def State.remaining (s : State ι α) : Nat := s.bus.claims.length - s.bus.released

/-- How much of its batch the consumer has used up; a batch that is over is used up. -/
def spent (batchSize : Nat) : Bus.ConsumerPC ι → Nat
  | .idle _ => 0
  | .casSeq i _ _ => i
  | .readHeader i _ _ => i
  | .readPayload i _ _ _ _ => i
  | .release i _ _ => i
  | .storePos _ _ => batchSize
  | .addProcessed _ => batchSize

def Nonempty : Bus.ConsumerPC ι → Prop
  | .storePos _ processed => 0 < processed
  | .addProcessed processed => 0 < processed
  | _ => True

/-- In round `r` of the drain the remaining rounds hold what is left. -/
structure Budget (cfg : Config) (s : State ι α) (r : Nat) : Prop where
  round : r < 10
  nonempty : Nonempty s.bus.cpc
  left : s.remaining = 0 ∨ s.remaining + spent cfg.bus.batchSize s.bus.cpc ≤ (10 - r) * cfg.bus.batchSize

/-- The final drain is on the way to empty the bus. -/
structure DrainOk (cfg : Config) (s : State ι α) : Prop where
  quiet : s.dpc.stopping = true → s.quiet
  budget : ∀ r, s.dpc.round = some r → Budget cfg s r
  ended : s.dpc.ended = true → s.remaining = 0

/-- The dispatcher sees the shutdown flag only with no `Submit` inside the bus and no more jobs on it than the ten
batches of the final drain. -/
def drainable (cfg : Config) (s : State ι α) : Act ι → Prop
  | .dispatcher => s.dpc.ended = false ∧ s.dpc.outside = true ∧ s.shutdown = true →
      s.quiet ∧ s.remaining ≤ 10 * cfg.bus.batchSize
  | _ => True

/-- No `Submit` enters the bus once the dispatcher has seen the shutdown flag. -/
def noLateSubmit (s : State ι α) : Act ι → Prop
  | .submit _ => s.dpc.stopping = true → s.paused = true
  | _ => True

/-- No worker finds its queue empty in its final drain before the dispatcher has ended. -/
def dispatcherFirst (s : State ι α) : Act ι → Prop
  | .worker w => (s.wpc w).draining = true ∧ s.queue w = [] → s.dpc.ended = true
  | _ => True

instance [Fintype ι] (cfg : Config) (s : State ι α) : (a : Act ι) → Decidable (drainable cfg s a)
  | .dispatcher => inferInstanceAs (Decidable (_ ∧ _ ∧ _ → s.quiet ∧ _))
  | .submit _ | .publish .. | .worker _ | .flush | .resume | .shutdown | .control _ => .isTrue trivial

instance (s : State ι α) : (a : Act ι) → Decidable (noLateSubmit s a)
  | .submit _ => inferInstanceAs (Decidable (_ → _))
  | .publish .. | .dispatcher | .worker _ | .flush | .resume | .shutdown | .control _ => .isTrue trivial

instance (s : State ι α) : (a : Act ι) → Decidable (dispatcherFirst s a)
  | .worker w => inferInstanceAs (Decidable (_ ∧ s.queue w = [] → _))
  | .submit _ | .publish .. | .dispatcher | .flush | .resume | .shutdown | .control _ => .isTrue trivial

theorem remaining_of_unpublished {st : Nat → Bus.Status ι} (ring : Bus.RingInv cfg.bus req s.bus st)
    (small : Bus.Unwrapped cfg.bus s.bus) (quiet : s.quiet) {i n : Nat} (here : s.bus.cpc = .casSeq i consPos n)
    (unpublished : (s.bus.mem.ring (cfg.bus.index consPos)).sequence ≠ wrap32 (consPos + 1)) : s.remaining = 0 := by
  have consumer := ring.consumer
  rw [here] at consumer
  obtain ⟨rfl,-⟩ := consumer
  have two := cfg.bus.queueDepth_two_le
  have first : Bus.InWindow cfg.bus s.bus s.bus.released := ⟨le_rfl,by omega⟩
  have unowned : ∀ c, (st s.bus.released).owner ≠ some c := by
    intro c owned
    have position := ring.owner _ c first owned
    refine quiet c ⟨fun idle => ?_,fun o done => ?_⟩
    · rw [idle] at position
      cases position
    · rw [done] at position
      cases position
  have shown := ring.sequence _ first
  cases eq : st s.bus.released with
  | free =>
    have all := (ring.free_iff _ first).1 eq
    unfold State.remaining
    omega
  | claimed c => exact absurd (by rw [eq]; rfl) (unowned c)
  | reserved e m => exact absurd (by rw [eq]; rfl) (unowned e)
  | consuming m =>
    have busy := (ring.consuming _ m first eq).2
    rw [here] at busy
    cases busy
  | published m =>
    have bound := ring.released_le
    unfold Bus.Unwrapped at small
    rw [eq] at shown
    rw [Bus.Config.index_eq, shown, wrap32_of_lt (by omega)] at unpublished
    exact absurd rfl unpublished

theorem Budget.back {count : Nat} (round : r < 10)
    (left : s.remaining = 0 ∨ s.remaining + cfg.bus.batchSize ≤ (10 - r) * cfg.bus.batchSize)
    (empty : count = 0 → s.remaining = 0) (idle : s.bus.cpc = .idle count)
    (here : s.dpc = (Caller.drain r).back count) (quiet : s.quiet) : DrainOk cfg s := by
  refine ⟨fun _ => quiet,?_,?_⟩
  · intro r' at_r
    rw [here] at at_r
    simp only [Caller.back] at at_r
    split at at_r
    · cases at_r
    · split at at_r
      · rename_i more
        cases at_r
        refine ⟨more,by rw [idle]; trivial,?_⟩
        rw [idle]
        refine left.imp_right fun fits => ?_
        have split : (10 - r) * cfg.bus.batchSize = (10 - (r + 1)) * cfg.bus.batchSize + cfg.bus.batchSize := by
          rw [← Nat.succ_mul]
          congr 1
          omega
        show s.remaining + 0 ≤ _
        omega
      · cases at_r
  · intro ended
    rw [here] at ended
    simp only [Caller.back] at ended
    split at ended
    · rename_i zero
      exact empty zero
    · split at ended
      · cases ended
      · rcases left with none | fits
        · exact none
        · have last : 10 - r = 1 := by omega
          rw [last, one_mul] at fits
          omega

theorem DrainOk.off (off : s.dpc.stopping = false) : DrainOk cfg s := by
  obtain ⟨noRound,notEnded⟩ := Bool.or_eq_false_iff.1 off
  refine ⟨fun on => ?_,fun r at_r => ?_,fun ended => ?_⟩
  · rw [off] at on
    cases on
  · rw [at_r] at noRound
    cases noRound
  · rw [notEnded] at ended
    cases ended

theorem DrainOk.same (ok : DrainOk cfg s) (round : s'.dpc.round = s.dpc.round)
    (ended : s'.dpc.ended = s.dpc.ended) (bus : s.dpc.stopping = true → s'.bus = s.bus) : DrainOk cfg s' := by
  have stopping : s'.dpc.stopping = s.dpc.stopping := by rw [DispatcherPC.stopping, round, ended]; rfl
  by_cases on : s.dpc.stopping = true
  · have same := bus on
    refine ⟨fun _ => ?_,fun r at_r => ?_,fun finished => ?_⟩
    · rw [State.quiet, same]
      exact ok.quiet on
    · rw [round] at at_r
      obtain ⟨lt,nonempty,left⟩ := ok.budget r at_r
      refine ⟨lt,by rw [same]; exact nonempty,?_⟩
      rw [State.remaining, same]
      exact left
    · rw [ended] at finished
      rw [State.remaining, same]
      exact ok.ended finished
  · refine DrainOk.off ?_
    rw [stopping]
    simpa using on

theorem afterBatchStep_loop (registered : α → Bool) (bus : Bus.State ι α) (wasReading : Bool) :
    (afterBatchStep registered bus .loop wasReading).stopping = false := by
  unfold afterBatchStep
  split
  · split
    · split <;> rfl
    · rfl
  · split <;> rfl

theorem Budget.stay (b : Budget cfg s r) (here : s.dpc.round = some r) (quiet : s.quiet) : DrainOk cfg s := by
  refine ⟨fun _ => quiet,?_,?_⟩
  · intro r' at_r
    rw [here] at at_r
    cases at_r
    exact b
  · intro ended
    cases pc : s.dpc <;> rw [pc] at ended here
    case exited => cases here
    all_goals cases ended

theorem Budget.finish (registered : α → Bool) {processed : Nat} (round : r < 10)
    (left : s.remaining = 0 ∨ s.remaining + cfg.bus.batchSize ≤ (10 - r) * cfg.bus.batchSize)
    (empty : processed = 0 → s.remaining = 0) (ends : s.bus.cpc = Bus.finishBatch consPos processed)
    (here : s.dpc = afterBatchStep registered s.bus (.drain r) false) (quiet : s.quiet) : DrainOk cfg s := by
  simp only [Bus.finishBatch] at ends
  split at ends
  · rename_i some
    simp only [afterBatchStep, ends, Bool.false_eq_true, if_false] at here
    refine Budget.stay (r := r) ⟨round,?_,?_⟩ (by rw [here]; rfl) quiet
    · rw [ends]
      exact some
    · rw [ends]
      exact left
  · rename_i none
    simp only [afterBatchStep, ends, Bool.false_eq_true, if_false] at here
    exact Budget.back round left empty ends here quiet

theorem Budget.loopHead (registered : α → Bool) {i processed : Nat} (round : r < 10)
    (left : s.remaining = 0 ∨ s.remaining + i ≤ (10 - r) * cfg.bus.batchSize)
    (counted : processed = 0 → i = 0) (loops : s.bus.cpc = batchAt cfg.bus i consPos processed)
    (here : s.dpc = afterBatchStep registered s.bus (.drain r) false) (quiet : s.quiet) : DrainOk cfg s := by
  simp only [batchAt] at loops
  split at loops
  · simp only [afterBatchStep, loops, Bool.false_eq_true, if_false] at here
    refine Budget.stay (r := r) ⟨round,?_,?_⟩ (by rw [here]; rfl) quiet
    · rw [loops]
      trivial
    · rw [loops]
      exact left
  · rename_i full
    refine Budget.finish registered round ?_ ?_ loops here quiet
    · exact left.imp_right fun fits => by omega
    · intro zero
      have none : cfg.bus.batchSize = 0 := by
        have := counted zero
        omega
      rw [none, Nat.mul_zero] at left
      omega

section

variable [DecidableEq ι] [Inhabited α]

theorem Budget.batch (b : Budget cfg s r) (inv : PoolInv cfg req registered s)
    (small : Bus.Unwrapped cfg.bus s.bus) (quiet : s.quiet) (here : s.dpc = .batch (.drain r))
    (step : dispatcherNext cfg registered s = some s') : DrainOk cfg s' := by
  obtain ⟨st,place,ring,-⟩ := Bus.reach_inv inv.bus small
  have moved : next cfg req registered .dispatcher s = some s' := step
  have quiet' : s'.quiet := next_quiet moved quiet (by simp)
  obtain ⟨round,nonempty,left⟩ := b
  simp only [dispatcherNext, here] at step
  cases pc : s.bus.cpc <;> rw [pc] at left nonempty <;> simp only [pc] at step <;> cases step
  case idle last =>
    have loops : (consumerNext cfg.bus s.bus).cpc =
        batchAt cfg.bus 0 s.bus.mem.consumerPos 0 := by simp only [consumerNext, pc]
    refine Budget.loopHead registered round ?_ (fun _ => rfl) loops rfl quiet'
    simpa only [State.remaining, consumerNext, pc, spent] using left
  case casSeq i consPos n =>
    by_cases found : (s.bus.mem.ring (cfg.bus.index consPos)).sequence = wrap32 (consPos + 1)
    · refine Budget.stay (r := r) ⟨round,?_,?_⟩ ?_ quiet'
      · simp only [consumerNext, pc, if_pos found, Nonempty]
      · simpa only [State.remaining, consumerNext, pc, if_pos found, spent] using left
      · simp only [afterBatchStep, consumerNext, pc, if_pos found, Bool.false_eq_true, if_false]
        rfl
    · have none := remaining_of_unpublished ring small quiet pc found
      have none' : ({ s with bus := consumerNext cfg.bus s.bus } : State ι α).remaining = 0 := by
        simpa only [State.remaining, consumerNext, pc, if_neg found] using none
      have ends : (consumerNext cfg.bus s.bus).cpc = Bus.finishBatch consPos n := by
        simp only [consumerNext, pc, if_neg found]
      exact Budget.finish registered round (.inl none') (fun _ => none') ends rfl quiet'
  case readPayload i consPos n header by' =>
    refine Budget.stay (r := r) ⟨round,?_,?_⟩ ?_ quiet'
    · simp only [consumerNext, pc, Nonempty]
    · simpa only [State.remaining, consumerNext, pc, spent] using left
    · simp only [afterBatchStep, consumerNext, pc, getLast?_concat, if_true]
      split <;> rfl
  case release i consPos n =>
    have loops : (consumerNext cfg.bus s.bus).cpc =
        batchAt cfg.bus (i + 1) (wrap32 (consPos + 1)) (n + 1) := by simp only [consumerNext, pc]
    refine Budget.loopHead registered round ?_ (fun zero => by omega) loops rfl quiet'
    simp only [State.remaining, consumerNext, pc, spent] at left ⊢
    omega
  case readHeader | storePos =>
    refine Budget.stay (r := r) ⟨round,?_,?_⟩ ?_ quiet'
    · simp only [consumerNext, pc]
      exact nonempty
    · simpa only [State.remaining, consumerNext, pc, spent] using left
    · simp only [afterBatchStep, consumerNext, pc, Bool.false_eq_true, if_false]
      rfl
  case addProcessed n =>
    have idle : (consumerNext cfg.bus s.bus).cpc = .idle n := by simp only [consumerNext, pc]
    have some : 0 < n := nonempty
    refine Budget.back round ?_ (fun zero => by omega) idle ?_ quiet'
    · simpa only [State.remaining, consumerNext, pc, spent] using left
    · simp only [afterBatchStep, idle, Bool.false_eq_true, if_false]

/-- One step of the dispatcher keeps the drain on its way. -/
theorem DrainOk.dispatcher (ok : DrainOk cfg s) (inv : PoolInv cfg req registered s)
    (small : Bus.Unwrapped cfg.bus s.bus) (guard : drainable cfg s .dispatcher)
    (step : dispatcherNext cfg registered s = some s') : DrainOk cfg s' := by
  have moved := step
  cases here : s.dpc <;> simp only [dispatcherNext, here] at step
  case exited => cases step
  case test =>
    cases step
    by_cases on : s.shutdown = true
    · obtain ⟨quiet,fits⟩ := guard ⟨by rw [here]; rfl,by rw [here]; rfl,on⟩
      obtain ⟨n,idle⟩ := inv.outside (by rw [here]; rfl)
      refine Budget.stay (r := 0) ⟨by decide,?_,.inr ?_⟩ (by rw [if_pos on]; rfl) quiet
      · show Nonempty s.bus.cpc
        rw [idle]
        trivial
      · show s.remaining + spent cfg.bus.batchSize s.bus.cpc ≤ _
        rw [idle]
        exact fits
    · refine DrainOk.off ?_
      simp only [if_neg on]
      rfl
  case batch caller =>
    cases caller with
    | loop =>
      cases step
      exact DrainOk.off (afterBatchStep_loop ..)
    | drain r => exact (ok.budget r (by rw [here]; rfl)).batch inv small (ok.quiet (by rw [here]; rfl)) here moved
  case push job start i caller =>
    split at step <;> cases step
    · exact ok.same (by rw [here]; rfl) (by rw [here]; rfl) fun _ => rfl
    · refine ok.same ?_ ?_ fun _ => rfl
      · rw [here]
        split <;> rfl
      · rw [here]
        split <;> rfl
  all_goals
    cases step
    exact ok.same (by rw [here]; rfl) (by rw [here]; rfl) fun _ => rfl

/-- What keeps the three conditions of a lossless shutdown. -/
def orderly (cfg : Config) (s : State ι α) (a : Act ι) : Prop :=
  drainable cfg s a ∧ noLateSubmit s a ∧ dispatcherFirst s a

theorem reach_drainOk (h : Reach (machine cfg req registered) (orderly cfg) s)
    (small : Bus.Unwrapped cfg.bus s.bus) : DrainOk cfg s := by
  refine h.invariant (I := fun s => Bus.Unwrapped cfg.bus s.bus → DrainOk cfg s) ?_ ?_ small
  · exact fun _ => .off rfl
  intro s t a reached ih guard step small
  change next cfg req registered a s = some t at step
  have narrow := next_unwrapped step small
  have ok := ih narrow
  by_cases moves : a = .dispatcher
  · subst moves
    exact ok.dispatcher (reach_poolInv reached) narrow guard.1 step
  · have dpc := (next_threads step).1 moves
    refine ok.same (by rw [dpc]) (by rw [dpc]) fun on => ?_
    rcases next_bus step with same | ⟨c,rfl,running,-⟩ | ⟨c,spurious,-,moved⟩ | ⟨act,-⟩
    · exact same
    · rw [guard.2.1 on] at running
      cases running
    · exact absurd (Bus.running_of_producerNext moved) (ok.quiet on c)
    · exact absurd act moves

end

section

variable {w : Nat}

/-- A worker that has ended left its queue empty, after the last push. -/
def WorkersOk (s : State ι α) : Prop := ∀ w, s.wpc w = .exited → s.dpc.ended = true ∧ s.queue w = []

/-- What `StopAll` knows of the threads it has joined. -/
def JoinOk (cfg : Config) (s : State ι α) : ControlPC → Prop
  | .joinWorker i => s.dpc.ended = true ∧ ∀ w, w < i → s.wpc w = .exited
  | .stopped => s.dpc.ended = true ∧ ∀ w, w < cfg.workerNum → s.wpc w = .exited
  | _ => True

theorem popNext_exited {final : Bool} {empty : WorkerPC ι α}
    (exits : (popNext w final empty s).wpc w = .exited) : s.queue w = [] ∧
    (popNext w final empty s).queue w = [] ∧ empty = .exited := by
  unfold popNext at exits ⊢
  split at exits
  · simp [State.workerGoto] at exits
  · rename_i none
    simp only [State.workerGoto, Function.update_self] at exits
    rw [none]
    exact ⟨rfl,by simp [State.workerGoto, none],exits⟩

theorem workerNext_exited (step : workerNext cfg w s = some s')
    (exits : s'.wpc w = .exited) : s.wpc w = .drainPop ∧ s.queue w = [] ∧ s'.queue w = [] := by
  unfold workerNext at step
  obtain ⟨_,step⟩ := enabled step
  cases here : s.wpc w <;> simp only [here] at step
  case exited => cases step
  case drainPop =>
    cases step
    obtain ⟨before,after,-⟩ := popNext_exited exits
    exact ⟨rfl,before,after⟩
  case pop =>
    cases step
    cases (popNext_exited exits).2.2
  case handling =>
    cases step
    simp [State.workerGoto] at exits
  all_goals
    cases step
    simp only [State.workerGoto, Function.update_self] at exits
    split at exits <;> cases exits

theorem dispatcherNext_ended (step : dispatcherNext cfg registered s = some s') : s.dpc.ended = false := by
  cases here : s.dpc <;> simp only [dispatcherNext, here] at step
  case exited => cases step
  all_goals rfl

theorem workerNext_running (step : workerNext cfg w s = some s') : s.wpc w ≠ .exited := by
  intro exited
  unfold workerNext at step
  rw [exited] at step
  split at step <;> cases step

end

section

variable [DecidableEq ι] {a : Act ι}

theorem next_ended (step : next cfg req registered a s = some s') :
    (s.dpc.ended = true → s'.dpc.ended = true) ∧ ∀ w, s.wpc w = .exited → s'.wpc w = .exited := by
  obtain ⟨dpc,wpc,-⟩ := next_threads step
  constructor
  · intro ended
    by_cases moves : a = .dispatcher
    · subst moves
      rw [dispatcherNext_ended step] at ended
      cases ended
    · rw [dpc moves]
      exact ended
  · intro w exited
    by_cases moves : ∃ v, a = .worker v
    · obtain ⟨v,rfl⟩ := moves
      have other : w ≠ v := by
        rintro rfl
        exact workerNext_running step exited
      rw [(workerNext_frame step).1.wpc w other]
      exact exited
    · rw [wpc fun v act => moves ⟨v,act⟩]
      exact exited

theorem WorkersOk.step (ok : WorkersOk s) (guard : dispatcherFirst s a)
    (step : next cfg req registered a s = some s') : WorkersOk s' := by
  obtain ⟨dpc,wpc,queue⟩ := next_threads step
  intro w exited
  by_cases works : ∃ v, a = .worker v
  · obtain ⟨v,rfl⟩ := works
    obtain ⟨frame,-⟩ := workerNext_frame step
    rw [frame.dpc]
    by_cases self : w = v
    · subst self
      obtain ⟨drains,before,after⟩ := workerNext_exited step exited
      exact ⟨guard ⟨by rw [drains]; rfl,before⟩,after⟩
    · rw [frame.wpc w self] at exited
      rw [frame.queue w self]
      exact ok w exited
  · have others : ∀ v, a ≠ .worker v := fun v act => works ⟨v,act⟩
    rw [wpc others] at exited
    obtain ⟨ended,empty⟩ := ok w exited
    by_cases moves : a = .dispatcher
    · subst moves
      rw [dispatcherNext_ended step] at ended
      cases ended
    · rw [dpc moves, queue moves others]
      exact ⟨ended,empty⟩

/-- One step of the pool keeps what `StopAll` knows. -/
theorem JoinOk.step (ok : JoinOk cfg s s.cpc)
    (step : next cfg req registered a s = some s') : JoinOk cfg s' s'.cpc := by
  obtain ⟨dpc,wpc⟩ := next_ended step
  have stable : ∀ {pc}, JoinOk cfg s pc → JoinOk cfg s' pc := by
    intro pc known
    cases pc
    case joinWorker | stopped => exact ⟨dpc known.1,fun w lt => wpc w (known.2 w lt)⟩
    all_goals trivial
  cases a with
  | control timeout =>
    refine stable ?_
    change controlNext cfg timeout s = some s' at step
    cases here : s.cpc <;> simp only [controlNext, here] at step <;> rw [here] at ok
    case idle | flushed | stopped => cases step
    case checkQueue =>
      cases step
      show JoinOk cfg s (if _ then _ else _)
      split
      · split <;> trivial
      · trivial
    case loadProc =>
      cases step
      show JoinOk cfg s (if _ then _ else _)
      split
      · trivial
      · split <;> trivial
    case joinDispatcher =>
      split at step <;> cases step
      rename_i exited
      exact ⟨by rw [exited]; rfl,fun w lt => absurd lt (Nat.not_lt_zero _)⟩
    case joinWorker i =>
      split at step
      · split at step <;> cases step
        rename_i exited
        refine ⟨ok.1,fun w lt => ?_⟩
        rcases Nat.lt_succ_iff_lt_or_eq.1 lt with before | rfl
        · exact ok.2 w before
        · exact exited
      · rename_i all
        cases step
        exact ⟨ok.1,fun w lt => ok.2 w (by omega)⟩
    all_goals
      cases step
      trivial
  | flush | resume | shutdown =>
    simp only [next] at step
    split at step <;> cases step
    trivial
  | _ =>
    rw [(next_flags step rfl).cpc]
    exact stable ok

end

section

variable [DecidableEq ι] [Inhabited α]

theorem reach_workersOk (h : Reach (machine cfg req registered) (orderly cfg) s) : WorkersOk s := by
  refine h.invariant (I := WorkersOk) ?_ ?_
  · intro w exited
    cases exited
  intro s t a _ ok guard step
  exact ok.step guard.2.2 step

theorem reach_joinOk {ok : State ι α → Act ι → Prop} (h : Reach (machine cfg req registered) ok s) :
    JoinOk cfg s s.cpc := by
  refine h.invariant (I := fun s => JoinOk cfg s s.cpc) ?_ ?_
  · trivial
  intro s t a _ ok _ step
  exact ok.step step

theorem PoolInv.handled_of_exited (h : PoolInv cfg req registered s) (ok : WorkersOk s)
    (all : ∀ w, w < cfg.workerNum → s.wpc w = .exited) : (s.pushed : Multiset (Job ι α)) = s.handled := by
  rw [h.work, add_eq_left]
  refine Finset.sum_eq_zero fun w member => ?_
  have exited := all w (Finset.mem_range.1 member)
  rw [State.load, exited, (ok w exited).2]
  rfl

/-- **`Shutdown` loses no job** in an orderly run: once it has returned, the bus and all queues are empty, and every
accepted job was handled exactly once, is counted in `worker_queue_full_`, or was evicted and counted in
`messages_dropped`. -/
theorem shutdown_loses_no_job (h : Reach (machine cfg req registered) (orderly cfg) s)
    (small : Bus.Unwrapped cfg.bus s.bus) (returned : s.cpc = .stopped) :
    s.bus.released = s.bus.claims.length ∧ (∀ w, w < cfg.workerNum → s.queue w = []) ∧
    s.workerQueueFull = wrap64 s.dropped.length ∧
    (∃ d, s.bus.mem.stats.messagesDropped = wrap64 d ∧ s.bus.evicted.length ≤ d) ∧
    ∀ c, s.bus.pc c = .done .accepted → registered (req c).payload = true →
      jobCount c s.handled + jobCount c s.dropped + Bus.evictCount s.bus c = 1 := by
  have inv := reach_poolInv h
  have drain := reach_drainOk h small
  have workers := reach_workersOk h
  have joined := reach_joinOk h
  rw [returned] at joined
  obtain ⟨ended,exited⟩ := joined
  obtain ⟨st,place,ring,-⟩ := Bus.reach_inv inv.bus small
  have drained : s.bus.released = s.bus.claims.length := by
    have none := drain.ended ended
    have bound := ring.released_le
    unfold State.remaining at none
    omega
  have quiet : s.quiet := drain.quiet (by rw [DispatcherPC.stopping, ended, Bool.or_true])
  refine ⟨drained,fun w lt => (workers w (exited w lt)).2,inv.full,
    (Bus.reach_evictStat inv.bus).settled quiet, ?_⟩
  intro c accepted known
  have account := inv.accounted small drained accepted known
  have same := congrArg (Multiset.countP fun job : Job ι α => job.payloadBy = some c)
    (inv.handled_of_exited workers exited)
  simp only [Multiset.coe_countP] at same
  unfold jobCount at account ⊢
  omega

end

/-- The dispatcher drains two jobs, then the workers handle them. -/
theorem shutdown_loses_no_job_two : ∃ s : State (Fin 2) Nat,
    Reach (machine pool2 twoJobs fun _ => true) (orderly pool2) s ∧ Bus.Unwrapped pool2.bus s.bus ∧
    s.cpc = .stopped ∧ s.bus.pc 1 = .done .accepted ∧
    jobCount 1 s.handled + jobCount 1 s.dropped + Bus.evictCount s.bus 1 = 1 := by
  obtain ⟨s,reached,small,returned,accepted⟩ := reach_of_decided (machine pool2 twoJobs fun _ => true)
    (fun s a => drainable pool2 s a ∧ noLateSubmit s a ∧ dispatcherFirst s a)
      (submitSteps 0 ++ submitSteps 1 ++ .shutdown :: replicate 21 .dispatcher ++
        replicate 5 (.worker 0) ++ replicate 5 (.worker 1) ++
        replicate 4 (.control false))
      (fun s => s.bus.claims.length + 3 * pool2.bus.queueDepth < 4294967296 ∧ s.cpc = .stopped ∧
        s.bus.pc 1 = .done .accepted) (by decide +kernel)
  exact ⟨s,reached,small,returned,accepted,
    (shutdown_loses_no_job reached small returned).2.2.2.2 1 accepted rfl⟩

/-- Both workers see the flag and end before the dispatcher pushes the job. -/
def workersFirst {ι : Type} (c : ι) : List (Act ι) :=
  submitSteps c ++ .shutdown :: replicate 2 (.worker 0) ++ replicate 2 (.worker 1) ++
  replicate 14 .dispatcher ++ replicate 4 (.control false)

/-- `Shutdown` has returned, and an accepted job sits in the queue of a worker that has exited, in no statistic. -/
theorem job_left_in_queue : ∃ (s : State (Fin 2) Nat) (past : List (State (Fin 2) Nat)),
    History (machine pool2 twoJobs fun _ => true) anyStep (s :: past) ∧
    (∃ t ∈ past, t.shutdown = false ∧ t.bus.pc 0 = .done .accepted) ∧ s.cpc = .stopped ∧
    jobCount 0 (s.queue 0) = 1 ∧ s.handled.length = 0 ∧ s.workerQueueFull = 0 ∧
    s.bus.mem.stats.messagesDropped = 0 := by
  exact history_of_schedule (machine pool2 twoJobs fun _ => true) (workersFirst 0) (by decide +kernel)

end Newosp.Pool
