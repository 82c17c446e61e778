import Newosp.Fault.Collector
import Newosp.Mpsc.Invariant

/-!
# The collector and its queues in step

Each report and each escalation is a caller of one queue, and what it has done there follows from its program counter.
What the consumer has popped is what it has passed to the hooks, in that order, and at most one entry in its hand
(`Log`).
-/

namespace Newosp.Fault
open Lib List
open Function (forall_update_iff update update_of_ne update_self)
open State (goto)

variable {k : Nat} {i : Fin 4}

theorem FaultPriority.ofCode_code (p : FaultPriority) : ofCode p.code = p := by
  cases p <;> rfl

theorem FaultPriority.code_lt (p : FaultPriority) : p.code < 4 := by
  cases p <;> decide

theorem FaultEntry.ofWords_words (e : FaultEntry) : ofWords e.words = e := by
  obtain ⟨index,pri,detail,stamp⟩ := e
  have code := pri.code_lt
  have small : (UInt64.ofNat pri.code).toNat = pri.code := by
    rw [UInt64.toNat_ofNat']
    omega
  show FaultEntry.mk (index.toUInt64.toUInt16) (.ofCode (UInt64.ofNat pri.code).toNat) (detail.toUInt64.toUInt32) stamp = _
  rw [small, FaultPriority.ofCode_code, UInt16.toUInt16_toUInt64, UInt32.toUInt32_toUInt64]

def FaultEvent.entry (e : FaultEvent) : FaultEntry := ⟨e.faultIndex, e.priority, e.detail, e.timestampUs⟩

variable {ι : Type} {cfg : Config} {s t : State ι} {c : ι} {p : FaultPriority} {q : Mpsc.State (Caller ι) 4 UInt64}
  {cpc : ConsumerPC} {x : Caller ι} {γ : Type} {spurious : Bool}

section

variable (cfg)

def ReportPC.ring : ReportPC → Mpsc.PC 4 → Prop
  | .idle, q | .loadProd, q | .loadCons _, q | .done (.error .kInvalidIndex), q => q = .idle
  | .pushing, q => q.running = true
  | .addReported, q | .addTotalReported, q | .setActive, q | .done .success, q => q = .done true
  | .addDropped, q | .addTotalDropped, q | .onOverflow, q | .done (.error .kQueueFull), q =>
    q = .idle ∨ q = .done false

/-- What a report has done in its queue, and that it is in no other one. -/
structure ReportOk (s : State ι) (c : ι) : Prop where
  own : (s.pc c).ring ((s.queues (s.report c).priority).pc (.inl c))
  foreign : ∀ p, p ≠ (s.report c).priority → (s.queues p).pc (.inl c) = .idle
  valid : s.pc c ≠ .idle → s.pc c ≠ .done (.error .kInvalidIndex) → (s.report c).faultIndex.toNat < cfg.maxFaults
  arg : (s.queues (s.report c).priority).pc (.inl c) ≠ .idle →
    (s.queues (s.report c).priority).arg (.inl c) = (s.report c).words

structure Escalations (s : State ι) : Prop where
  fresh : ∀ k p, s.escalations ≤ k → (s.queues p).pc (.inr k) = .idle
  running : ∀ k p, ((s.queues p).pc (.inr k)).running = true → k + 1 = s.escalations ∧
    ∃ v entry, s.cpc = .escalate v entry ∧ entry.priority.higher = some p
  active : ∀ v entry, s.cpc = .escalate v entry → ∃ p k, entry.priority.higher = some p ∧ s.escalations = k + 1 ∧
    ((s.queues p).pc (.inr k)).running = true
  arg : ∀ k p, (s.queues p).pc (.inr k) ≠ .idle → ∃ e : FaultEntry, (s.queues p).arg (.inr k) = e.words ∧
    e.priority = p ∧ e.faultIndex.toNat < cfg.maxFaults

/-- The entry of queue `p` that the consumer has taken out of its slot and not passed to a hook yet. -/
def hand (s : State ι) (p : FaultPriority) : List FaultEntry := match s.cpc with
  | .popping v => if v.pri = p then match (s.queues p).cpc with
      | .storePos _ out => [.ofWords out]
      | _ => []
    else []
  | .count v entry => if v.pri = p then [entry] else []
  | .hook v entry _ => if v.pri = p then [entry] else []
  | _ => []

/-- The consumer is in no call of a queue and has nothing in its hand. -/
def ConsumerPC.free : ConsumerPC → Bool
  | .popping _ | .count _ _ | .hook _ _ _ | .escalate _ _ => false
  | _ => true

/-- The consumer has nothing in its hand and takes nothing out of a queue. -/
def ConsumerPC.bare : ConsumerPC → Bool
  | .popping _ | .count _ _ | .hook _ _ _ => false
  | _ => true

def hookedFrom (hooked : List Hooked) (p : FaultPriority) : List FaultEntry :=
  (hooked.filter (·.queue = p)).map (·.event.entry)

structure Log (s : State ι) : Prop where
  popping : ∀ v, s.cpc = .popping v → (s.queues v.pri).cpc.running = true
  resting : ∀ p, (s.queues p).cpc.running = true → ∃ v, s.cpc = .popping v ∧ v.pri = p
  popped : ∀ p, (s.queues p).popped.map .ofWords = hookedFrom s.hooked p ++ hand s p
  event : ∀ v entry event, s.cpc = .hook v entry event → event.entry = entry

structure Inv (s : State ι) : Prop where
  rings : ∀ p, Mpsc.Inv cfg.queue (s.queues p)
  reports : ∀ c, ReportOk cfg s c
  escalations : Escalations cfg s
  log : Log s

variable [DecidableEq ι]

/-- No `TryPush` is stalled for too long. -/
def prompt (s : State ι) : Act ι → Prop
  | .reporter c spurious => s.pc c = .pushing →
      Mpsc.recent cfg.queue (s.queues (s.report c).priority) (.producer (.inl c) spurious)
  | .consumer spurious => ∀ v entry p, s.cpc = .escalate v entry → entry.priority.higher = some p →
      Mpsc.recent cfg.queue (s.queues p) (.producer (.inr (s.escalations - 1)) spurious)
  | _ => True

end

theorem ReportOk.keep (h : ReportOk cfg s c) (pc : t.pc c = s.pc c) (report : t.report c = s.report c)
    (ring : ∀ p, (t.queues p).pc (.inl c) = (s.queues p).pc (.inl c) ∧
      (t.queues p).arg (.inl c) = (s.queues p).arg (.inl c)) : ReportOk cfg t c := by
  constructor <;> simp only [pc, report, ring]
  exacts [h.own, h.foreign, h.valid, h.arg]

theorem reports_move (h : ∀ c, ReportOk cfg s c) (others : ∀ d, d ≠ c → t.pc d = s.pc d ∧ t.report d = s.report d ∧
      ∀ p, (t.queues p).pc (.inl d) = (s.queues p).pc (.inl d) ∧ (t.queues p).arg (.inl d) = (s.queues p).arg (.inl d))
    (own : ReportOk cfg t c) (d : ι) : ReportOk cfg t d := by
  by_cases self : d = c
  · rw [self]
    exact own
  · obtain ⟨pc,report,ring⟩ := others d self
    exact (h d).keep pc report ring

theorem Escalations.keep (h : Escalations cfg s) (escalations : t.escalations = s.escalations)
    (cpc : ∀ v entry, t.cpc = .escalate v entry ↔ s.cpc = .escalate v entry)
    (ring : ∀ k p, (t.queues p).pc (.inr k) = (s.queues p).pc (.inr k) ∧
      (t.queues p).arg (.inr k) = (s.queues p).arg (.inr k)) : Escalations cfg t := by
  constructor
  case fresh =>
    intro k p
    rw [escalations, (ring k p).1]
    exact h.fresh k p
  case running =>
    intro k p busy
    rw [(ring k p).1] at busy
    obtain ⟨last,v,entry,here,pri⟩ := h.running k p busy
    exact ⟨last.trans escalations.symm,v,entry,(cpc v entry).2 here,pri⟩
  case active =>
    intro v entry here
    obtain ⟨p,k,pri,last,busy⟩ := h.active v entry ((cpc v entry).1 here)
    exact ⟨p,k,pri,escalations.trans last,by rw [(ring k p).1]; exact busy⟩
  case arg =>
    intro k p
    rw [(ring k p).1, (ring k p).2]
    exact h.arg k p

theorem Escalations.move (h : Escalations cfg s) (last : t.escalations = k + 1) (before : s.escalations ≤ k + 1)
    (quiet : ∀ j p', j ≠ k ∨ p' ≠ p → ((s.queues p').pc (.inr j)).running = false)
    (ring : ∀ j p', j ≠ k ∨ p' ≠ p → (t.queues p').pc (.inr j) = (s.queues p').pc (.inr j))
    (args : ∀ j p', j ≠ k ∨ p' ≠ p → (t.queues p').arg (.inr j) = (s.queues p').arg (.inr j))
    (running : ((t.queues p).pc (.inr k)).running = true →
      ∃ v entry, t.cpc = .escalate v entry ∧ entry.priority.higher = some p)
    (active : ∀ v entry, t.cpc = .escalate v entry →
      entry.priority.higher = some p ∧ ((t.queues p).pc (.inr k)).running = true)
    (arg : ∃ e : FaultEntry, (t.queues p).arg (.inr k) = e.words ∧ e.priority = p ∧ e.faultIndex.toNat < cfg.maxFaults) :
    Escalations cfg t := by
  constructor
  case fresh =>
    intro j p' late
    rw [ring j p' (.inl (by omega))]
    exact h.fresh j p' (by omega)
  case running =>
    intro j p' busy
    by_cases self : j = k ∧ p' = p
    · obtain ⟨rfl,rfl⟩ := self
      exact ⟨last.symm,running busy⟩
    · rw [ring j p' (not_and_or.1 self), quiet j p' (not_and_or.1 self)] at busy
      cases busy
  case active =>
    intro v entry here
    obtain ⟨higher,busy⟩ := active v entry here
    exact ⟨p,k,higher,last,busy⟩
  case arg =>
    intro j p' started
    by_cases self : j = k ∧ p' = p
    · obtain ⟨rfl,rfl⟩ := self
      exact arg
    · rw [ring j p' (not_and_or.1 self)] at started
      rw [args j p' (not_and_or.1 self)]
      exact h.arg j p' started

theorem Log.keep (h : Log s) (cpc : t.cpc = s.cpc) (hooked : t.hooked = s.hooked)
    (ring : ∀ p, (t.queues p).cpc = (s.queues p).cpc) (popped : ∀ p, (t.queues p).popped = (s.queues p).popped) :
    Log t := by
  constructor
  case popping =>
    intro v
    rw [cpc, ring]
    exact h.popping v
  case resting =>
    intro p
    rw [cpc, ring]
    exact h.resting p
  case popped =>
    intro p
    rw [popped, hand, hooked, cpc, ring]
    exact h.popped p
  case event =>
    intro v entry event
    rw [cpc]
    exact h.event v entry event

theorem ConsumerPC.bare_of_free (free : cpc.free = true) : cpc.bare = true := by
  cases cpc <;> first | rfl | cases free

theorem hand_of_bare (bare : s.cpc.bare = true) (p : FaultPriority) : hand s p = [] := by
  rw [hand]
  split <;> rename_i here <;> first | (rw [here] at bare; cases bare) | rfl

theorem hand_of_free (free : s.cpc.free = true) (p : FaultPriority) : hand s p = [] :=
  hand_of_bare (ConsumerPC.bare_of_free free) p

theorem ConsumerPC.ne_of_free (free : cpc.free = true) : (∀ v, cpc ≠ .popping v) ∧
    (∀ v entry, cpc ≠ .escalate v entry) ∧ ∀ v entry event, cpc ≠ .hook v entry event := by
  refine ⟨?_,?_,?_⟩
  · rintro v rfl
    cases free
  · rintro v entry rfl
    cases free
  · rintro v entry event rfl
    cases free

theorem Log.quiet (h : Log s) (before : ∀ v, s.cpc ≠ .popping v) (p : FaultPriority) :
    (s.queues p).cpc.running = false := by
  by_contra busy
  obtain ⟨v,here,-⟩ := h.resting p (Bool.not_eq_false _ ▸ busy)
  exact before v here

theorem Log.rest (h : Log s) (hooked : t.hooked = s.hooked) (ring : ∀ p, (t.queues p).cpc = (s.queues p).cpc)
    (popped : ∀ p, (t.queues p).popped = (s.queues p).popped) (bare : s.cpc.bare = true) (bare' : t.cpc.bare = true) :
    Log t := by
  constructor
  case popping =>
    intro v here
    rw [here] at bare'
    cases bare'
  case resting =>
    intro p busy
    rw [ring, h.quiet (by rintro v here; rw [here] at bare; cases bare)] at busy
    cases busy
  case popped =>
    intro p
    rw [popped, hooked, hand_of_bare bare', ← hand_of_bare bare p]
    exact h.popped p
  case event =>
    intro v entry event here
    rw [here] at bare'
    cases bare'

theorem Inv.entry_ok (h : Inv cfg s) (called : (s.queues p).pc x ≠ .idle) :
    ∃ e : FaultEntry, (s.queues p).arg x = e.words ∧ e.priority = p ∧ e.faultIndex.toNat < cfg.maxFaults ∧
      ∀ c, x = .inl c → s.report c = e := by
  cases x with
  | inl c =>
    have own : p = (s.report c).priority := by
      by_contra other
      exact called ((h.reports c).foreign p other)
    subst own
    refine ⟨s.report c,(h.reports c).arg called,rfl,?_,?_⟩
    · have ring := (h.reports c).own
      apply (h.reports c).valid
      · intro idle
        rw [idle] at ring
        exact called ring
      · intro refused
        rw [refused] at ring
        exact called ring
    · rintro d ⟨⟩
      rfl
  | inr k =>
    obtain ⟨e,words,pri,small⟩ := h.escalations.arg k p called
    exact ⟨e,words,pri,small,nofun⟩

theorem stopperNext_frame (step : stopperNext s = some t) : t = { s with running := t.running, stop := t.stop } := by
  unfold stopperNext at step
  split at step
  · cases step
  · cases step
  · cases step
    rfl
  · cases step
    rfl
  · obtain ⟨_,⟨⟩⟩ := enabled step
    rfl

theorem update_same (f : Mpsc.State (Caller ι) 4 UInt64 → γ) (same : f q = f (s.queues p))
    (p' : FaultPriority) : f (update s.queues p q p') = f (s.queues p') := Lib.update_same f same p'

theorem queue_same (pc : q.pc x = (s.queues p).pc x) (arg : q.arg x = (s.queues p).arg x)
    (p' : FaultPriority) : (update s.queues p q p').pc x = (s.queues p').pc x ∧
      (update s.queues p q p').arg x = (s.queues p').arg x := ⟨update_same (·.pc x) pc p',update_same (·.arg x) arg p'⟩

theorem Inv.ringed (h : Inv cfg s) (ring : Mpsc.Inv cfg.queue q) : ∀ p', Mpsc.Inv cfg.queue (update s.queues p q p') :=
  (forall_update_iff s.queues fun _ => Mpsc.Inv cfg.queue).2 ⟨ring,fun p _ => h.rings p⟩

theorem ReportPC.pushed_ring {q : Mpsc.PC 4} (called : q ≠ .idle) : (ReportPC.pushed q).ring q := by
  cases q with
  | idle => exact absurd rfl called
  | done result =>
    cases result with
    | true => rfl
    | false => exact .inr rfl
  | _ => rfl

section

variable [DecidableEq ι] {b : Mpsc.Act (Caller ι) 4 UInt64}

theorem onQueue_eq (step : s.onQueue cfg p b = some t) :
    ∃ q, Mpsc.next cfg.queue b (s.queues p) = some q ∧ t = { s with queues := update s.queues p q } := by
  obtain ⟨q,ring,rfl⟩ := Option.map_eq_some_iff.1 step
  exact ⟨q,ring,rfl⟩

theorem queue_kept (ring : Mpsc.next cfg.queue b (s.queues p) = some q) :
    (∀ p', (s.queues p').claims <+: (update s.queues p q p').claims) ∧
      ∀ p' x, (s.queues p').pc x ≠ .idle → (update s.queues p q p').arg x = (s.queues p').arg x := by
  obtain ⟨claims,args⟩ := Mpsc.next_kept ring
  constructor
  · exact (forall_update_iff s.queues fun p q => (s.queues p).claims <+: q.claims).2 ⟨claims,fun _ _ => prefix_rfl⟩
  · exact (forall_update_iff s.queues fun p q => ∀ x, (s.queues p).pc x ≠ .idle → q.arg x = (s.queues p).arg x).2
      ⟨args,fun _ _ _ _ => rfl⟩

theorem onQueue_map_eq {f : State ι → State ι}
    (step : (s.onQueue cfg p b).map f = some t) : ∃ q, Mpsc.next cfg.queue b (s.queues p) = some q ∧
      t = f { s with queues := update s.queues p q } := by
  obtain ⟨s',moved,rfl⟩ := Option.map_eq_some_iff.1 step
  obtain ⟨q,ring,rfl⟩ := onQueue_eq moved
  exact ⟨q,ring,rfl⟩

theorem copyOutNext_eq (step : copyOutNext cfg i s = some t) : ∃ v q, s.cpc = .popping v ∧
    Mpsc.copyOutNext cfg.queue i (s.queues v.pri) = some q ∧ t = { s with queues := update s.queues v.pri q } := by
  unfold copyOutNext at step
  split at step
  · rename_i v here
    obtain ⟨q,moved⟩ := onQueue_eq step
    exact ⟨v,q,here,moved⟩
  · cases step

theorem copyEscalatedNext_eq {i : Fin 4} (step : copyEscalatedNext cfg i s = some t) : ∃ v entry p q,
    s.cpc = .escalate v entry ∧ entry.priority.higher = some p ∧
    Mpsc.copyInNext cfg.queue (.inr (s.escalations - 1)) i (s.queues p) = some q ∧
    t = { s with queues := update s.queues p q } := by
  unfold copyEscalatedNext at step
  split at step
  · rename_i v entry here
    split at step
    · rename_i p higher
      obtain ⟨q,moved⟩ := onQueue_eq step
      exact ⟨v,entry,p,q,here,higher,moved⟩
    · cases step
  · cases step

theorem answerNext_eq {action : HookAction} (step : answerNext cfg action s = some t) : ∃ v entry event,
    s.cpc = .hook v entry event ∧ let hooked := s.hooked ++ [⟨v.pri, event, action⟩]
    (t = { s with hooked := hooked, cpc := t.cpc } ∧ (action = .kHandled ∧ t.cpc = .clear v entry ∨
      action ≠ .kHandled ∧ (t.cpc = .addProcessed v ∨ t.cpc = .requestShutdown v))) ∨
    (action = .kEscalate ∧ ∃ p q, entry.priority.higher = some p ∧
      Mpsc.pushNext (.inr s.escalations) { entry with priority := p }.words (s.queues p) = some q ∧
      t = { s with hooked := hooked, queues := update s.queues p q, escalations := s.escalations + 1
                   cpc := .escalate v entry }) := by
  unfold answerNext at step
  split at step
  · rename_i v entry event here
    refine ⟨v,entry,event,here,?_⟩
    cases action with
    | kHandled =>
      cases step
      exact .inl ⟨rfl,.inl ⟨rfl,rfl⟩⟩
    | kDefer | kShutdown =>
      cases step
      exact .inl ⟨rfl,.inr ⟨nofun,by simp⟩⟩
    | kEscalate =>
      dsimp only at step
      split at step
      · cases step
        exact .inl ⟨rfl,.inr ⟨nofun,.inl rfl⟩⟩
      · rename_i p higher
        obtain ⟨q,ring,eq⟩ := onQueue_map_eq step
        exact .inr ⟨rfl,p,q,higher,ring,eq⟩
  · cases step

section

variable {now pc : ReportPC} (here : s.pc c = now) (live : now ≠ .idle ∧ now ≠ .done (.error .kInvalidIndex))
include here live

theorem Inv.control (h : Inv cfg s) (frame : t = { s with
      pc := update s.pc c pc, bitmap := t.bitmap, stats := t.stats, breaker := t.breaker })
    (own : pc.ring ((s.queues (s.report c).priority).pc (.inl c))) : Inv cfg t := by
  subst here
  rw [frame]
  refine { h with reports := ?_, escalations := { h.escalations with }, log := { h.log with } }
  refine reports_move h.reports (c := c) (fun d other => ⟨update_of_ne other ..,rfl,fun _ => ⟨rfl,rfl⟩⟩)
    ⟨?_,(h.reports c).foreign,fun _ _ => (h.reports c).valid live.1 live.2,(h.reports c).arg⟩
  simp only [update_self]
  exact own

theorem Inv.inQueue (h : Inv cfg s)
    (ring : Mpsc.Inv cfg.queue q) (own : Mpsc.Own (.inl c) (s.queues (s.report c).priority) q)
    (args : ∀ x, x ≠ .inl c → q.arg x = (s.queues (s.report c).priority).arg x) (arg : q.arg (.inl c) = (s.report c).words)
    (mine : pc.ring (q.pc (.inl c))) :
    Inv cfg ({ s with queues := update s.queues (s.report c).priority q }.goto c pc) := by
  subst here
  constructor
  case rings => exact h.ringed ring
  case reports =>
    refine reports_move h.reports (c := c) ?_ ⟨?_,?_,fun _ _ => (h.reports c).valid live.1 live.2,?_⟩
    · intro d other
      have ne : (Sum.inl d : Caller ι) ≠ .inl c := fun eq => other (Sum.inl.inj eq)
      exact ⟨update_of_ne other ..,rfl,queue_same (own.others _ ne) (args _ ne)⟩
    · simp only [goto, update_self]
      exact mine
    · intro p (other : p ≠ (s.report c).priority)
      simp only [goto, update_of_ne other]
      exact (h.reports c).foreign p other
    · intro _
      simp only [goto, update_self]
      exact arg
  case escalations =>
    exact h.escalations.keep rfl (fun _ _ => Iff.rfl) fun k => queue_same (own.others _ nofun) (args _ nofun)
  case log => exact h.log.keep rfl rfl (update_same (·.cpc) own.cpc) (update_same (·.popped) own.popped)

end

/-- One step of a report outside the copy. -/
theorem reporter_step (h : Inv cfg s) (guard : prompt cfg s (.reporter c spurious))
    (step : reporterNext cfg c spurious s = some t) : Inv cfg t := by
  have own := (h.reports c).own
  cases here : s.pc c <;> simp only [reporterNext, here] at step
  case idle | done outcome => cases step
  case loadCons prod =>
    rw [here] at own
    split at step
    · obtain ⟨q,ring,rfl⟩ := onQueue_map_eq step
      obtain ⟨mine,-,called,arg,args,-,-⟩ := Mpsc.pushNext_own ring
      refine Inv.inQueue here ⟨nofun,nofun⟩ h (Mpsc.push_step (h.rings _) ring) mine args arg ?_
      rw [called]
      rfl
    · cases step
      exact Inv.control here ⟨nofun,nofun⟩ h rfl (.inl own)
  case pushing =>
    rw [here] at own
    obtain ⟨q,ring,rfl⟩ := onQueue_map_eq step
    obtain ⟨mine,args,-,called,-⟩ := Mpsc.producerNext_own ring
    refine Inv.inQueue here ⟨nofun,nofun⟩ h (Mpsc.next_inv (h.rings _) (guard here) ring) mine
      (fun x _ => by rw [args]) ?_ ?_
    · rw [args]
      exact (h.reports c).arg (Mpsc.PC.ne_of_running own).1
    · simp only [update_self]
      exact ReportPC.pushed_ring called
  case loadProd | addDropped | addTotalDropped | onOverflow | addReported | addTotalReported | setActive =>
    cases step
    rw [here] at own
    exact Inv.control here ⟨nofun,nofun⟩ h rfl own

theorem copyIn_step (h : Inv cfg s) (step : copyInNext cfg c i s = some t) : Inv cfg t := by
  unfold copyInNext at step
  obtain ⟨here,step⟩ := enabled step
  have own := (h.reports c).own
  rw [here] at own
  obtain ⟨q,ring,rfl⟩ := onQueue_eq step
  obtain ⟨mine,args,-,running,-⟩ := Mpsc.copyInNext_own ring
  have moved : Inv cfg (goto _ c .pushing) := Inv.inQueue here ⟨nofun,nofun⟩ h (Mpsc.copyIn_step (h.rings _) ring) mine
    (fun x _ => by rw [args]) (by rw [args]; exact (h.reports c).arg (Mpsc.PC.ne_of_running own).1) running
  rw [goto, ← here, Function.update_eq_self] at moved
  exact moved

theorem report_step (h : Inv cfg s) {entry : FaultEntry} (step : reportNext cfg c entry s = some t) : Inv cfg t := by
  unfold reportNext at step
  obtain ⟨idle,⟨⟩⟩ := enabled step
  have silent : ∀ p, (s.queues p).pc (.inl c) = .idle := by
    intro p
    have own := (h.reports c).own
    rw [idle] at own
    by_cases same : p = (s.report c).priority
    · rw [same]
      exact own
    · exact (h.reports c).foreign p same
  refine { h with reports := ?_, escalations := { h.escalations with }, log := { h.log with } }
  refine reports_move h.reports (c := c) ?_ ⟨?_,fun p _ => silent p,?_,fun called => absurd (silent _) called⟩
  · exact fun d other => ⟨update_of_ne other ..,update_of_ne other ..,fun _ => ⟨rfl,rfl⟩⟩
  · simp only [goto, update_self, silent]
    split <;> rfl
  · simp only [goto, update_self]
    intro _ valid
    split at valid
    · exact absurd rfl valid
    · rename_i inside
      exact Nat.not_le.1 inside

end

section

variable {v : Visit} {entry : FaultEntry} {cpc : ConsumerPC} {action : HookAction} {event : FaultEvent}

theorem Inv.rest (h : Inv cfg s) (frame : t = { s with
      cpc := t.cpc, bitmap := t.bitmap, occurrenceCount := t.occurrenceCount, stats := t.stats, breaker := t.breaker,
      shutdownRequested := t.shutdownRequested })
    (free : s.cpc.free = true) (free' : t.cpc.free = true) : Inv cfg t := by
  rw [frame]
  refine { h with reports := fun c => { h.reports c with }, escalations := ?_, log := ?_ }
  · refine h.escalations.keep rfl (fun v entry => ?_) fun _ _ => ⟨rfl,rfl⟩
    exact ⟨fun here => absurd here ((ConsumerPC.ne_of_free free').2.1 v entry),
      fun here => absurd here ((ConsumerPC.ne_of_free free).2.1 v entry)⟩
  · exact h.log.rest rfl (fun _ => rfl) (fun _ => rfl) (ConsumerPC.bare_of_free free) (ConsumerPC.bare_of_free free')

theorem Inv.hand_ok (h : Inv cfg s) (held : entry ∈ hand s p) :
    entry.priority = p ∧ entry.faultIndex.toNat < cfg.maxFaults := by
  have popped : entry ∈ (s.queues p).popped.map .ofWords := by
    rw [h.log.popped p]
    exact mem_append_right _ held
  have ring := h.rings p
  rw [ring.order, map_map] at popped
  obtain ⟨x,member,rfl⟩ := mem_map.1 popped
  have called : (s.queues p).pc x ≠ .idle := by
    intro idle
    have claimed := (ring.claimed x).1 (mem_of_mem_take member)
    rw [idle] at claimed
    cases claimed
  obtain ⟨e,words,pri,small,-⟩ := h.entry_ok called
  rw [Function.comp_apply, words, FaultEntry.ofWords_words]
  exact ⟨pri,small⟩

theorem Inv.pops (h : Inv cfg s) (ring : Mpsc.Inv cfg.queue q) (consumes : Mpsc.Consumes (s.queues p) q)
    (idle : ∀ v entry, s.cpc ≠ .escalate v entry) (idle' : ∀ v entry, cpc ≠ .escalate v entry)
    (log : Log { s with queues := update s.queues p q, cpc := cpc }) :
    Inv cfg { s with queues := update s.queues p q, cpc := cpc } := by
  constructor
  case rings => exact h.ringed ring
  case reports =>
    refine fun d => (h.reports d).keep rfl rfl ?_
    exact queue_same (by rw [consumes.pc]) (by rw [consumes.arg])
  case escalations =>
    refine h.escalations.keep rfl ?_ fun k => queue_same (by rw [consumes.pc]) (by rw [consumes.arg])
    intro v entry
    exact ⟨fun here => absurd here (idle' v entry),fun here => absurd here (idle v entry)⟩
  case log => exact log

theorem Log.visit (h : Log s)
    (others : ∀ p, p ≠ v.pri → (s.queues p).cpc.running = false) (before : ∀ p, p ≠ v.pri → hand s p = [])
    (after : ∀ p, p ≠ v.pri → hand { s with queues := update s.queues v.pri q, cpc := cpc } p = [])
    (own : q.popped.map .ofWords =
      hookedFrom s.hooked v.pri ++ hand { s with queues := update s.queues v.pri q, cpc := cpc } v.pri)
    (running : ∀ w, cpc = .popping w → w = v ∧ q.cpc.running = true) (resting : q.cpc.running = true → cpc = .popping v)
    (event : ∀ w entry event, cpc ≠ .hook w entry event) :
    Log { s with queues := update s.queues v.pri q, cpc := cpc } := by
  constructor
  case popping =>
    intro w here
    obtain ⟨rfl,busy⟩ := running w here
    simp only [update_self]
    exact busy
  case resting =>
    intro p busy
    by_cases same : p = v.pri
    · subst same
      simp only [update_self] at busy
      exact ⟨v,resting busy,rfl⟩
    · simp only [update_of_ne same, others p same] at busy
      cases busy
  case popped =>
    intro p
    by_cases same : p = v.pri
    · subst same
      simp only [update_self]
      exact own
    · rw [after p same]
      simp only [update_of_ne same]
      rw [← before p same]
      exact h.popped p
  case event => exact fun w entry ev here => absurd here (event w entry ev)

theorem Log.alone (h : Log s) (here : s.cpc = .popping v) (p : FaultPriority) (other : p ≠ v.pri) :
    (s.queues p).cpc.running = false := by
  by_contra busy
  obtain ⟨w,eq,pri⟩ := h.resting p (Bool.not_eq_false _ ▸ busy)
  rw [here] at eq
  cases eq
  exact other pri.symm

theorem Inv.visiting (h : Inv cfg s) (ring : Mpsc.Inv cfg.queue q) (consumes : Mpsc.Consumes (s.queues v.pri) q)
    (here : s.cpc = .drain v ∨ s.cpc = .popping v) (busy : q.cpc.running = true)
    (own : q.popped.map .ofWords = hookedFrom s.hooked v.pri ++ match q.cpc with
      | .storePos _ out => [.ofWords out]
      | _ => []) : Inv cfg { s with queues := update s.queues v.pri q, cpc := .popping v } := by
  refine h.pops ring consumes (by rcases here with at_ | at_ <;> rw [at_] <;> nofun) nofun ?_
  refine h.log.visit ?_ ?_ ?_ ?_ ?_ (fun _ => rfl) (by rintro _ _ _ ⟨⟩)
  · rcases here with at_ | at_
    · exact fun p _ => h.log.quiet (by rw [at_]; nofun) p
    · exact h.log.alone at_
  · intro p other
    rcases here with at_ | at_ <;> simp only [hand, at_, if_neg (Ne.symm other)]
  · intro p other
    simp only [hand, if_neg (Ne.symm other)]
  · simp only [hand, if_true, update_self]
    exact own
  · rintro w ⟨⟩
    exact ⟨rfl,busy⟩

theorem Inv.drain (h : Inv cfg s)
    {out : Mpsc.Entry 4 UInt64} (here : s.cpc = .drain v) (ring : Mpsc.popNext out (s.queues v.pri) = some q) :
    Inv cfg { s with queues := update s.queues v.pri q, cpc := .popping v } := by
  obtain ⟨consumes,-,cpc,popped,-⟩ := Mpsc.popNext_consumes ring
  have log := h.log.popped v.pri
  simp only [hand, here] at log
  exact h.visiting (Mpsc.pop_step (h.rings _) ring) consumes (.inl here) (by rw [cpc]; rfl)
    (by simp only [cpc, popped]; exact log)

theorem Visit.leave_free (v : Visit) : v.leave.free = true := by
  unfold Visit.leave
  split
  · rfl
  · split <;> rfl

theorem Inv.popping (h : Inv cfg s)
    (here : s.cpc = .popping v) (ring : Mpsc.consumerNext cfg.queue (s.queues v.pri) = some q) :
    Inv cfg { s with queues := update s.queues v.pri q, cpc := v.popped q.cpc } := by
  obtain ⟨consumes,-,what⟩ := Mpsc.consumerNext_consumes ring
  have before : ∀ p, p ≠ v.pri → hand s p = [] := by
    intro p other
    simp only [hand, here, if_neg (Ne.symm other)]
  have log := h.log.popped v.pri
  simp only [hand, here, if_true] at log
  have inv := Mpsc.consumer_step (h.rings _) ring
  rcases what with ⟨pos,out,at_,popped,done | copy,-⟩ | ⟨pos,out,read,at_,store,popped,-⟩ |
    ⟨pos,out,at_,done,popped⟩
  · rw [at_] at log
    have leave : v.popped q.cpc = v.leave := by rw [done]; rfl
    rw [leave]
    obtain ⟨notPopping,notEscalate,notHook⟩ := ConsumerPC.ne_of_free v.leave_free
    refine h.pops inv consumes (by rw [here]; nofun) notEscalate ?_
    refine h.log.visit (h.log.alone here) before ?_ ?_ ?_ ?_ notHook
    · exact fun p _ => hand_of_free v.leave_free p
    · rw [hand_of_free v.leave_free, popped]
      exact log
    · exact fun w eq => absurd eq (notPopping w)
    · rw [done]
      nofun
  · rw [at_] at log
    have stay : v.popped q.cpc = .popping v := by rw [copy]; rfl
    rw [stay]
    exact h.visiting inv consumes (.inr here) (by rw [copy]; rfl) (by simp only [copy, popped]; exact log)
  · rw [at_] at log
    have stay : v.popped q.cpc = .popping v := by rw [store]; rfl
    rw [stay]
    refine h.visiting inv consumes (.inr here) (by rw [store]; rfl) ?_
    simp only [store, popped, map_append, log, append_nil]
    rfl
  · rw [at_] at log
    have next : v.popped q.cpc = .count v (.ofWords out) := by rw [done]; rfl
    rw [next]
    refine h.pops inv consumes (by rw [here]; nofun) nofun ?_
    refine h.log.visit (h.log.alone here) before ?_ ?_ nofun ?_ (by rintro _ _ _ ⟨⟩)
    · intro p other
      simp only [hand, if_neg (Ne.symm other)]
    · simp only [hand, if_true, popped]
      exact log
    · rw [done]
      nofun

theorem copyOut_step [DecidableEq ι] (h : Inv cfg s) (step : copyOutNext cfg i s = some t) : Inv cfg t := by
  obtain ⟨v,q,here,ring,rfl⟩ := copyOutNext_eq step
  obtain ⟨consumes,popped,⟨_,_,_,at_⟩,⟨_,_,_,copy⟩,-⟩ := Mpsc.copyOutNext_consumes ring
  have log := h.log.popped v.pri
  simp only [hand, here, if_true, at_] at log
  have stays := h.visiting (Mpsc.copyOut_step (h.rings _) ring) consumes (.inr here) (by rw [copy]; rfl)
    (by simp only [copy, popped]; exact log)
  rw [← here] at stays
  exact stays

theorem Inv.count (h : Inv cfg s) {counts : UInt16 → Nat}
    (here : s.cpc = .count v entry) (built : event.entry = entry) :
    Inv cfg { s with occurrenceCount := counts, cpc := .hook v entry event } := by
  constructor
  case rings => exact h.rings
  case reports => exact fun c => { h.reports c with }
  case escalations =>
    refine h.escalations.keep rfl ?_ fun _ _ => ⟨rfl,rfl⟩
    intro w e
    rw [here]
    exact ⟨nofun,nofun⟩
  case log =>
    constructor
    case popping => nofun
    case resting =>
      intro p busy
      obtain ⟨w,eq,-⟩ := h.log.resting p busy
      rw [here] at eq
      cases eq
    case popped =>
      intro p
      have log := h.log.popped p
      simp only [hand, here] at log
      exact log
    case event =>
      rintro w e ev ⟨⟩
      exact built

theorem own_elsewhere (f : Mpsc.State (Caller ι) 4 UInt64 → Caller ι → γ)
    (others : ∀ x, x ≠ .inr k → f q x = f (s.queues p) x) (j : Nat) (p' : FaultPriority) (other : j ≠ k ∨ p' ≠ p) :
    f (update s.queues p q p') (.inr j) = f (s.queues p') (.inr j) := by
  rcases other with ne | ne
  · exact update_same (f · (.inr j)) (others _ fun eq => ne (Sum.inr.inj eq)) p'
  · rw [update_of_ne ne]

theorem Inv.escalating (h : Inv cfg s) (here : s.cpc = .escalate v entry)
    (higher : entry.priority.higher = some p) (last : s.escalations = k + 1) (ring : Mpsc.Inv cfg.queue q)
    (own : Mpsc.Own (.inr k) (s.queues p) q) (args : q.arg = (s.queues p).arg) (called : q.pc (.inr k) ≠ .idle)
    (next : cpc = v.pushed entry (q.pc (.inr k))) : Inv cfg { s with queues := update s.queues p q, cpc := cpc } := by
  have cases_ : cpc = .addProcessed v ∧ (q.pc (.inr k)).running = false ∨
      cpc = .escalate v entry ∧ (q.pc (.inr k)).running = true := by
    rw [next]
    cases pc : q.pc (.inr k) with
    | idle => exact absurd pc called
    | done result => exact .inl ⟨rfl,rfl⟩
    | _ => exact .inr ⟨rfl,rfl⟩
  -- no other escalation runs
  have quiet : ∀ j p', j ≠ k ∨ p' ≠ p → ((s.queues p').pc (.inr j)).running = false := by
    intro j p' other
    by_contra busy
    obtain ⟨eq,w,e,at_,pri⟩ := h.escalations.running j p' (Bool.not_eq_false _ ▸ busy)
    rw [here] at at_
    cases at_
    rw [higher] at pri
    cases pri
    rcases other with no | no
    · omega
    · exact no rfl
  constructor
  case rings => exact h.ringed ring
  case reports =>
    refine fun d => (h.reports d).keep rfl rfl ?_
    exact queue_same (own.others _ nofun) (by rw [args])
  case escalations =>
    refine h.escalations.move last last.le quiet (own_elsewhere (·.pc) own.others)
      (own_elsewhere (·.arg) fun x _ => by rw [args]) ?_ ?_ ?_ <;> simp only [update_self]
    · intro busy
      rcases cases_ with ⟨-,idle⟩ | ⟨stays,-⟩
      · rw [idle] at busy
        cases busy
      · exact ⟨v,entry,stays,higher⟩
    · intro w e at_
      rcases cases_ with ⟨ends,-⟩ | ⟨stays,busy⟩
      · cases ends.symm.trans at_
      · cases stays.symm.trans at_
        exact ⟨higher,busy⟩
    · obtain ⟨p',k',higher',last',busy⟩ := h.escalations.active v entry here
      rw [higher] at higher'
      cases higher'
      rw [last] at last'
      cases last'
      rw [args]
      exact h.escalations.arg _ _ (Mpsc.PC.ne_of_running busy).1
  case log =>
    refine h.log.rest rfl (update_same (·.cpc) own.cpc) (update_same (·.popped) own.popped) (by rw [here]; rfl) ?_
    rcases cases_ with ⟨eq,-⟩ | ⟨eq,-⟩ <;> rw [eq] <;> rfl

theorem hookedFrom_append (hooked : List Hooked) (x : Hooked) (p : FaultPriority) :
    hookedFrom (hooked ++ [x]) p = hookedFrom hooked p ++ if x.queue = p then [x.event.entry] else [] := by
  rw [hookedFrom, filter_append, map_append]
  by_cases same : x.queue = p
  · rw [filter_cons_of_pos (by rw [decide_eq_true same]), if_pos same]
    rfl
  · rw [filter_cons_of_neg (by rw [decide_eq_false same]; nofun), if_neg same]
    rfl

section

variable (h : Inv cfg s)
include h

theorem Inv.answered (here : s.cpc = .hook v entry event) (free : cpc.free = true) :
    Inv cfg { s with hooked := s.hooked ++ [⟨v.pri, event, action⟩], cpc := cpc } := by
  obtain ⟨notPopping,notEscalate,notHook⟩ := ConsumerPC.ne_of_free free
  constructor
  case rings => exact h.rings
  case reports => exact fun c => { h.reports c with }
  case escalations =>
    refine h.escalations.keep rfl ?_ fun _ _ => ⟨rfl,rfl⟩
    intro w e
    rw [here]
    exact ⟨fun eq => absurd eq (notEscalate w e),nofun⟩
  case log =>
    constructor
    case popping => exact fun w eq => absurd eq (notPopping w)
    case resting =>
      intro p busy
      rw [h.log.quiet (by rw [here]; nofun)] at busy
      cases busy
    case popped =>
      intro p
      have log := h.log.popped p
      simp only [hand, here] at log
      rw [hand_of_free free, hookedFrom_append, h.log.event v entry event here, append_nil]
      exact log
    case event => exact fun w e ev eq => absurd eq (notHook w e ev)

theorem Inv.escalate [DecidableEq ι] {e : FaultEntry}
    (here : s.cpc = .addProcessed v) (higher : entry.priority.higher = some p)
    (pri : e.priority = p) (small : e.faultIndex.toNat < cfg.maxFaults)
    (ring : Mpsc.pushNext (.inr s.escalations) e.words (s.queues p) = some q) :
    Inv cfg { s with queues := update s.queues p q, escalations := s.escalations + 1,
                     cpc := .escalate v entry } := by
  obtain ⟨own,-,called,arg,args,-,-⟩ := Mpsc.pushNext_own ring
  -- no escalation runs
  have quiet : ∀ j p', ((s.queues p').pc (.inr j)).running = false := by
    intro j p'
    by_contra busy
    obtain ⟨-,w,e,at_,-⟩ := h.escalations.running j p' (Bool.not_eq_false _ ▸ busy)
    rw [here] at at_
    cases at_
  constructor
  case rings => exact h.ringed (Mpsc.push_step (h.rings p) ring)
  case reports =>
    refine fun d => (h.reports d).keep rfl rfl ?_
    exact queue_same (own.others _ nofun) (args _ nofun)
  case escalations =>
    refine h.escalations.move rfl (Nat.le_succ _) (fun j p' _ => quiet j p') (own_elsewhere (·.pc) own.others)
      (own_elsewhere (·.arg) args) ?_ ?_ ?_ <;> simp only [update_self]
    · exact fun _ => ⟨v,entry,rfl,higher⟩
    · rintro w e' ⟨⟩
      rw [called]
      exact ⟨higher,rfl⟩
    · exact ⟨e,arg,pri,small⟩
  case log =>
    exact h.log.rest rfl (update_same (·.cpc) own.cpc) (update_same (·.popped) own.popped) (by rw [here]; rfl) rfl

/-- The hook returns. -/
theorem answer_step [DecidableEq ι] (step : answerNext cfg action s = some t) : Inv cfg t := by
  obtain ⟨v,entry,event,here,⟨frame,on⟩ | ⟨-,p,q,higher,ring,rfl⟩⟩ := answerNext_eq step
  · rw [frame]
    refine h.answered here ?_
    rcases on with ⟨-,eq⟩ | ⟨-,eq | eq⟩ <;> rw [eq] <;> rfl
  · have answered : Inv cfg { s with hooked := s.hooked ++ [⟨v.pri,event,action⟩], cpc := .addProcessed v } :=
      h.answered here rfl
    have held : entry ∈ hand s v.pri := by
      simp only [hand, here, if_true]
      exact .head _
    have small := (h.hand_ok held).2
    exact answered.escalate (e := { entry with priority := p }) rfl higher rfl small ring

/-- One step of the consumer outside copies and hook. -/
theorem consumer_step [DecidableEq ι] (guard : prompt cfg s (.consumer spurious))
    (step : consumerNext cfg spurious s = some t) : Inv cfg t := by
  cases here : s.cpc <;> simp only [consumerNext, here] at step
  case hook v entry event | exited => cases step
  case drain v =>
    obtain ⟨q,ring,rfl⟩ := onQueue_map_eq step
    exact h.drain here ring
  case popping v =>
    obtain ⟨q,ring,rfl⟩ := onQueue_map_eq step
    simp only [update_self]
    exact h.popping here ring
  case count v entry =>
    have held : entry ∈ hand s v.pri := by
      simp only [hand, here, if_true]
      exact .head _
    have small := (h.hand_ok held).2
    rw [if_neg (Nat.not_le.2 small)] at step
    cases step
    exact h.count here rfl
  case escalate v entry =>
    obtain ⟨p,k,higher,last,busy⟩ := h.escalations.active v entry here
    simp only [higher] at step
    obtain ⟨q,ring,rfl⟩ := onQueue_map_eq step
    have recent := guard v entry p here higher
    rw [last, Nat.add_sub_cancel] at ring recent
    obtain ⟨own,args,-,called,-⟩ := Mpsc.producerNext_own ring
    refine h.escalating here higher last (Mpsc.producer_step (h.rings p) recent ring) own args called ?_
    simp only [last, Nat.add_sub_cancel, update_self]
  case loadRunning | sampleCons _ _ _ _ | onWatermark _ _ =>
    cases step
    refine h.rest rfl (by rw [here]; rfl) ?_
    dsimp only
    split <;> rfl
  case loadShutdown | clear _ _ | requestShutdown _ | addProcessed _ | dispatchCycle _ | sampleProd _ _ _ | wait =>
    cases step
    exact h.rest rfl (by rw [here]; rfl) rfl

theorem copyEscalated_step [DecidableEq ι] {i : Fin 4} (step : copyEscalatedNext cfg i s = some t) : Inv cfg t := by
  obtain ⟨v,entry,p,q,here,higher,ring,rfl⟩ := copyEscalatedNext_eq step
  obtain ⟨_,k,_,last,-⟩ := h.escalations.active v entry here
  rw [last, Nat.add_sub_cancel] at ring
  obtain ⟨own,args,-,running,-⟩ := Mpsc.copyInNext_own ring
  have stays : v.pushed entry (q.pc (.inr k)) = .escalate v entry := by
    cases pc : q.pc (.inr k) with
    | idle | done result => rw [pc] at running; cases running
    | _ => rfl
  have moved := h.escalating here higher last (Mpsc.copyIn_step (h.rings p) ring) own args
    (Mpsc.PC.ne_of_running running).1 rfl
  rw [stays, ← here] at moved
  exact moved

end

end

theorem init_inv (cfg : Config) (entry : FaultEntry) : Inv cfg (State.init (ι := ι) entry) := by
  constructor
  case rings => exact fun p => Mpsc.init_inv ..
  case reports => exact fun _ => ⟨rfl,fun _ _ => rfl,fun started => absurd rfl started,fun called => absurd rfl called⟩
  case escalations => exact ⟨fun _ _ _ => rfl,nofun,nofun,fun _ _ called => absurd rfl called⟩
  case log => exact ⟨nofun,nofun,fun _ => rfl,by rintro _ _ _ ⟨⟩⟩

theorem Inv.still (h : Inv cfg s)
    (frame : t = { s with running := t.running, stop := t.stop, atStop := t.atStop }) : Inv cfg t := by
  rw [frame]
  exact { h with reports := fun c => { h.reports c with }, escalations := { h.escalations with }, log := { h.log with } }

/-- Every step keeps the queues in step. -/
theorem next_inv [DecidableEq ι] {a : Act ι} (h : Inv cfg s) (guard : prompt cfg s a) (step : next cfg a s = some t) : Inv cfg t := by
  cases a with
  | report c entry => exact report_step h step
  | reporter c spurious => exact reporter_step h guard step
  | copyIn c i => exact copyIn_step h step
  | consumer spurious => exact consumer_step h guard step
  | copyOut i => exact copyOut_step h step
  | copyEscalated i => exact copyEscalated_step h step
  | answer action => exact answer_step h step
  | callStop =>
    simp only [next] at step
    obtain ⟨_,⟨⟩⟩ := enabled step
    exact h.still rfl
  | stopper =>
    rw [stopperNext_frame step]
    exact h.still rfl

end Newosp.Fault
