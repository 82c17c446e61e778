import Newosp.Fault.Books
import Newosp.Mpsc.Fifo

/-!
# What is admitted is processed before `Stop` returns

After the loop the consumer visits the four queues once more, from the highest priority down. Three things leave an
entry behind: a hook that escalates during this drain, a report after a hook has asked for a shutdown, and an entry that
is claimed and not yet published when the drain comes to it.
-/

namespace Newosp.Fault
open Lib List
open Function (update update_of_ne update_self)

variable {ι : Type} {cfg : Config} {s t : State ι} {p : FaultPriority} {v v' : Visit}
  {q : Mpsc.State (Caller ι) 4 UInt64}

section

def ConsumerPC.visit : ConsumerPC → Option Visit
  | .drain v | .popping v | .count v _ | .hook v _ _ | .clear v _ | .escalate v _ | .requestShutdown v | .addProcessed v =>
    some v
  | _ => none

/-- The final drain has left queue `p`. -/
def ConsumerPC.Left (cpc : ConsumerPC) (p : FaultPriority) : Prop :=
  cpc = .exited ∨ ∃ v, cpc.visit = some v ∧ v.final = true ∧ p.code < v.pri.code

/-- Caller `x` is a report that had not returned with success when `Stop` was called. -/
def Late (s : State ι) (x : Caller ι) : Prop := s.stop ≠ .idle ∧ ∃ c, x = .inl c ∧ s.atStop c ≠ .done .success

def OnlyLate (s : State ι) (p : FaultPriority) : Prop :=
  ∀ k x, (s.queues p).popped.length ≤ k → (s.queues p).claims[k]? = some x → Late s x

variable [DecidableEq ι] (cfg)

/-- The steps that lose nothing: no `TryPush` is stalled for too long; no report claims a place in a queue the final
drain has left, unless `Stop` was called; no hook escalates during that drain, unless the queue above is full; and the
drain meets a claimed and unpublished entry only when `Stop` was called and nothing behind it is an escalation or of a
report that had returned. -/
def orderly (s : State ι) (a : Act ι) : Prop := prompt cfg s a ∧ match a with
  | .reporter c spurious => s.pc c = .pushing →
      (s.queues (s.report c).priority).pc (.inl c) = .casPos (s.queues (s.report c).priority).mem.producerPos →
      spurious = false → ¬ s.cpc.Left (s.report c).priority ∨ s.stop ≠ .idle
  | .answer .kEscalate => ∀ v entry event p, s.cpc = .hook v entry event → v.final = true →
      entry.priority.higher = some p → (s.queues p).claims.length = (s.queues p).popped.length + cfg.queueDepth
  | .consumer _ => ∀ v pos out x, s.cpc = .popping v → v.final = true → (s.queues v.pri).cpc = .loadSeq pos out →
      (s.queues v.pri).claims[(s.queues v.pri).popped.length]? = some x → (s.queues v.pri).pc x ≠ .done true →
      OnlyLate s v.pri
  | _ => True

/-- The reports that had returned when `Stop` was called, where `Stop` is, and that the queues the final drain has left
hold only late entries. -/
structure Leaving (s : State ι) : Prop where
  called : ∀ c o, s.atStop c = .done o → s.pc c = .done o
  running : s.stop = .idle ∨ s.stop = .loadRunning ∨ s.stop = .storeRunning → s.running = true
  returned : s.stop = .returned → s.cpc = .exited
  left : ∀ p, s.cpc.Left p → OnlyLate s p
  full : ∀ v entry p, s.cpc = .escalate v entry → v.final = true → entry.priority.higher = some p →
    (s.queues p).claims.length = (s.queues p).popped.length + cfg.queueDepth

end

section

variable {q : FaultPriority}

theorem OnlyLate.keep (h : OnlyLate s p) (claims : (t.queues p).claims = (s.queues p).claims)
    (popped : (s.queues p).popped.length ≤ (t.queues p).popped.length) (stop : s.stop ≠ .idle → t.stop ≠ .idle)
    (atStop : s.stop ≠ .idle → t.atStop = s.atStop) : OnlyLate t p := by
  intro k x late here
  rw [claims] at here
  obtain ⟨called,c,eq,running⟩ := h k x (popped.trans late) here
  exact ⟨stop called,c,eq,by rw [atStop called]; exact running⟩

theorem FaultPriority.code_inj (same : p.code = q.code) : p = q := by
  rw [← ofCode_code p, same, ofCode_code]

theorem FaultPriority.lower_some (below : p.lower = some q) : q.code = p.code + 1 := by
  cases p <;> cases below <;> rfl

theorem FaultPriority.lower_none (last : p.lower = none) : p.code = 3 := by
  cases p <;> first | rfl | cases last

theorem Visit.left_leave {v : Visit} (left : v.leave.Left p) : v.final = true ∧ (p = v.pri ∨ p.code < v.pri.code) := by
  have near : v.final = true ∧ p.code ≤ v.pri.code := by
    unfold Visit.leave at left
    split at left
    · rename_i q below
      have next := FaultPriority.lower_some below
      rcases left with eq | ⟨w,eq,final,less⟩
      · cases eq
      · cases eq
        exact ⟨final,by simp only at less; omega⟩
    · rename_i last
      have low := FaultPriority.lower_none last
      have code := p.code_lt
      split at left
      · rename_i final
        exact ⟨final,by omega⟩
      · rcases left with eq | ⟨w,eq,-⟩ <;> cases eq
  refine ⟨near.1,?_⟩
  rcases Nat.lt_or_eq_of_le near.2 with less | same
  · exact .inr less
  · exact .inl (FaultPriority.code_inj same)

theorem left_of_visit {cpc cpc' : ConsumerPC} (here : cpc.visit = some v)
    (next : cpc'.visit = some v') (final : v'.final = v.final) (pri : v'.pri = v.pri) (left : cpc'.Left p) :
    cpc.Left p := by
  rcases left with rfl | ⟨w,eq,isFinal,less⟩
  · cases next
  · cases next.symm.trans eq
    exact .inr ⟨v,here,by rw [← final]; exact isFinal,by rw [← pri]; exact less⟩

theorem not_left_of_first {final : Bool} (p : FaultPriority) : ¬ ConsumerPC.Left (.drain ⟨final, .kCritical, 0⟩) p := by
  rintro (eq | ⟨w,eq,-,less⟩)
  · cases eq
  · cases eq
    exact absurd less (Nat.not_lt_zero _)

theorem not_left_of_none {cpc : ConsumerPC} (none_ : cpc.visit = none) (on : cpc ≠ .exited) : ¬ cpc.Left p := by
  rintro (eq | ⟨w,eq,-⟩)
  · exact on eq
  · cases none_.symm.trans eq

theorem Leaving.reports (h : Leaving cfg s) (inv' : Inv cfg t) (frame : t = { s with
      queues := t.queues, bitmap := t.bitmap, stats := t.stats, breaker := t.breaker, report := t.report, pc := t.pc })
    (done : ∀ c o, s.pc c = .done o → t.pc c = .done o) (popped : ∀ p, (t.queues p).popped = (s.queues p).popped)
    (claims : ∀ p, (t.queues p).claims = (s.queues p).claims ∨ ∃ c, (t.queues p).claims = (s.queues p).claims ++ [.inl c] ∧
      (∀ o, s.pc c ≠ .done o) ∧ (s.cpc.Left p → s.stop ≠ .idle)) : Leaving cfg t := by
  rw [frame]
  refine { h with called := fun c o early => done c o (h.called c o early), left := ?_, full := ?_ }
  · intro p left
    rcases claims p with same | ⟨c,new,started,called⟩
    · exact (h.left p left).keep same (by rw [popped]) id fun _ => rfl
    · intro k x late here
      simp only [popped] at late
      simp only [new, getElem?_append] at here
      split at here
      · exact h.left p left k x late here
      · obtain ⟨inside,eq⟩ := List.getElem?_eq_some_iff.1 here
        rw [getElem_singleton] at eq
        exact ⟨called left,c,eq.symm,fun early => started _ (h.called c _ early)⟩
  · intro v entry p here final higher
    have full := h.full v entry p here final higher
    have room : _ ≤ _ + cfg.queueDepth := (inv'.rings p).room
    rw [popped] at room ⊢
    rcases claims p with same | ⟨c,new,-⟩
    · rw [same]
      exact full
    · rw [new, length_append, length_singleton] at room
      omega

/-- `t` has the queues and the other threads of `s`. -/
def Beside (s t : State ι) : Prop :=
  t = { t with queues := s.queues, pc := s.pc, stop := s.stop, atStop := s.atStop, running := s.running }

theorem Leaving.consumes (h : Leaving cfg s) (frame : t = { t with
      pc := s.pc, stop := s.stop, atStop := s.atStop, running := s.running }) (on : s.cpc ≠ .exited)
    (claims : ∀ p, t.cpc.Left p → (t.queues p).claims = (s.queues p).claims)
    (popped : ∀ p, (s.queues p).popped.length ≤ (t.queues p).popped.length)
    (left : ∀ p, t.cpc.Left p → s.cpc.Left p ∨ OnlyLate s p)
    (full : ∀ v entry p, t.cpc = .escalate v entry → v.final = true → entry.priority.higher = some p →
      (t.queues p).claims.length = (t.queues p).popped.length + cfg.queueDepth) : Leaving cfg t := by
  rw [frame]
  refine { h with returned := fun over_ => absurd (h.returned over_) on, left := ?_, full := full }
  intro p there
  have before : OnlyLate s p := by
    rcases left p there with was | new
    · exact h.left p was
    · exact new
  exact before.keep (claims p there) (popped p) id fun _ => rfl

end

section

variable {entry : FaultEntry}

section

variable (h : Leaving cfg s) {c : ι} {i : Fin 4} {spurious : Bool}
include h

theorem Leaving.rest (frame : Beside s t) (on : s.cpc ≠ .exited) (left : ∀ p, t.cpc.Left p → s.cpc.Left p)
    (notEscalate : ∀ v entry, t.cpc ≠ .escalate v entry) : Leaving cfg t := by
  rw [frame]
  refine h.consumes rfl on (fun _ _ => rfl) (fun _ => le_rfl) (fun p there => .inl (left p there)) ?_
  exact fun v entry p here => absurd here (notEscalate v entry)

theorem Leaving.outside (frame : Beside s t) (on : s.cpc ≠ .exited) (none_ : t.cpc.visit = none)
    (going : t.cpc ≠ .exited) : Leaving cfg t := by
  refine h.rest frame on (fun p left => absurd left (not_left_of_none none_ going)) ?_
  intro v entry here
  rw [here] at none_
  cases none_

theorem Leaving.within (frame : Beside s t) (here : s.cpc.visit = some v) (next : t.cpc.visit = some v')
    (final : v'.final = v.final) (pri : v'.pri = v.pri) (notEscalate : ∀ v entry, t.cpc ≠ .escalate v entry) :
    Leaving cfg t := by
  refine h.rest frame ?_ (fun p left => left_of_visit here next final pri left) notEscalate
  intro exited
  rw [exited] at here
  cases here

theorem Leaving.atQueue (frame : t = { t with
      queues := update s.queues p q, pc := s.pc, stop := s.stop, atStop := s.atStop, running := s.running })
    (on : s.cpc ≠ .exited) (claims : q.claims = (s.queues p).claims) (popped : q.popped = (s.queues p).popped)
    (left : ∀ p, t.cpc.Left p → s.cpc.Left p)
    (full : ∀ v entry p, t.cpc = .escalate v entry → v.final = true → entry.priority.higher = some p →
      (s.queues p).claims.length = (s.queues p).popped.length + cfg.queueDepth) : Leaving cfg t := by
  have same := fun p' => (⟨update_same (·.claims) claims p',update_same (·.popped) popped p'⟩ :
    (update s.queues p q p').claims = (s.queues p').claims ∧ (update s.queues p q p').popped = (s.queues p').popped)
  rw [frame]
  refine h.consumes rfl on (fun p _ => (same p).1) (fun p => by rw [(same p).2]) (fun p there => .inl (left p there)) ?_
  intro v entry p here final higher
  rw [(same p).1, (same p).2]
  exact full v entry p here final higher

theorem Leaving.stopper (step : stopperNext s = some t) : Leaving cfg t := by
  unfold stopperNext at step
  split at step
  · cases step
  · cases step
  · rename_i at_
    cases step
    have running := h.running (.inr (.inl at_))
    have called : s.stop ≠ .idle := by rw [at_]; nofun
    refine { h with running := fun _ => running, returned := by rw [running]; nofun, left := ?_ }
    exact fun p left => (h.left p left).keep rfl le_rfl (by rw [running]; nofun) fun _ => rfl
  · rename_i at_
    cases step
    refine { h with running := ?_, returned := nofun, left := ?_ }
    · rintro (no | no | no) <;> cases no
    · exact fun p left => (h.left p left).keep rfl le_rfl nofun fun _ => rfl
  · obtain ⟨exited,⟨⟩⟩ := enabled step
    refine { h with running := ?_, returned := fun _ => exited, left := ?_ }
    · rintro (no | no | no) <;> cases no
    · exact fun p left => (h.left p left).keep rfl le_rfl nofun fun _ => rfl

theorem Leaving.callStop (idle : s.stop = .idle) : Leaving cfg { s with stop := .loadRunning, atStop := s.pc } := by
  constructor
  case called => exact fun _ _ early => early
  case running => exact fun _ => h.running (.inl idle)
  case returned => nofun
  case left =>
    intro p left k x late here
    exact absurd idle (h.left p left k x late here).1
  case full => exact h.full

variable [DecidableEq ι] {pc : ReportPC}

omit h in
theorem done_kept (running : ∀ o, s.pc c ≠ .done o) (d : ι) (o : Outcome)
    (returned : s.pc d = .done o) : update s.pc c pc d = .done o := by
  have other : d ≠ c := by
    rintro rfl
    exact running o returned
  exact (update_of_ne other ..).trans returned

theorem Leaving.report (inv' : Inv cfg t) (step : reportNext cfg c entry s = some t) : Leaving cfg t := by
  unfold reportNext at step
  obtain ⟨idle,⟨⟩⟩ := enabled step
  exact h.reports inv' rfl (done_kept (by simp [idle])) (fun _ => rfl) (fun _ => .inl rfl)

theorem Leaving.goto
    (inv' : Inv cfg ({ s with queues := update s.queues p q }.goto c pc)) (running : ∀ o, s.pc c ≠ .done o) (popped : q.popped = (s.queues p).popped)
    (claims : q.claims = (s.queues p).claims ∨ q.claims = (s.queues p).claims ++ [.inl c] ∧
      (s.cpc.Left p → s.stop ≠ .idle)) : Leaving cfg ({ s with queues := update s.queues p q }.goto c pc) := by
  refine h.reports inv' rfl (done_kept running) (fun p' => update_same (·.popped) popped p') ?_
  intro p'
  by_cases same : p' = p
  · subst same
    simp only [State.goto, update_self]
    rcases claims with eq | ⟨eq,called⟩
    · exact .inl eq
    · exact .inr ⟨c,eq,running,called⟩
  · left
    simp only [State.goto, update_of_ne same]

theorem Leaving.reporter (inv' : Inv cfg t) (guard : orderly cfg s (.reporter c spurious))
    (step : reporterNext cfg c spurious s = some t) : Leaving cfg t := by
  have stays : ∀ {t' : State ι} {pc : ReportPC}, Inv cfg t' → (∀ o, s.pc c ≠ .done o) → t' = { s with
      pc := update s.pc c pc, bitmap := t'.bitmap, stats := t'.stats, breaker := t'.breaker } → Leaving cfg t' := by
    intro t' pc inv' running frame
    rw [frame] at inv' ⊢
    exact h.reports inv' rfl (done_kept running) (fun _ => rfl) (fun _ => .inl rfl)
  cases here : s.pc c <;> simp only [reporterNext, here] at step
  case idle | done outcome => cases step
  case loadCons prod =>
    split at step
    · obtain ⟨q,ring,rfl⟩ := onQueue_map_eq step
      obtain ⟨own,-,-,-,-,claims,-⟩ := Mpsc.pushNext_own ring
      exact h.goto inv' (by simp [here]) own.popped (.inl claims)
    · cases step
      exact stays inv' (by simp [here]) rfl
  case pushing =>
    obtain ⟨q,ring,rfl⟩ := onQueue_map_eq step
    obtain ⟨own,-,-,-,claims⟩ := Mpsc.producerNext_own ring
    refine h.goto inv' (by simp [here]) own.popped ?_
    rcases claims with same | ⟨new,at_,strong⟩
    · exact .inl same
    · refine .inr ⟨new,fun left => ?_⟩
      rcases guard.2 here at_ strong with no | called
      · exact absurd left no
      · exact called
  case loadProd | addDropped | addTotalDropped | onOverflow | addReported | addTotalReported | setActive =>
    cases step
    exact stays inv' (by simp [here]) rfl

theorem Leaving.copyIn (inv' : Inv cfg t) (step : copyInNext cfg c i s = some t) : Leaving cfg t := by
  unfold copyInNext at step
  obtain ⟨here,step⟩ := enabled step
  obtain ⟨q,ring,rfl⟩ := onQueue_eq step
  obtain ⟨own,-,-,-,claims⟩ := Mpsc.copyInNext_own ring
  refine h.reports inv' rfl (fun _ _ returned => returned) ?_ ?_
  · exact fun p' => update_same (·.popped) own.popped p'
  · exact fun p' => .inl (update_same (·.claims) claims p')

/-- One step of the consumer outside the copies and the hook. -/
theorem Leaving.consumer (inv : Inv cfg s) (inv' : Inv cfg t)
    (guard : orderly cfg s (.consumer spurious)) (step : consumerNext cfg spurious s = some t) : Leaving cfg t := by
  cases here : s.cpc <;> simp only [consumerNext, here] at step
  case hook v entry event | exited => cases step
  case drain v =>
    obtain ⟨q,ring,rfl⟩ := onQueue_map_eq step
    obtain ⟨consumes,-,-,same,-⟩ := Mpsc.popNext_consumes ring
    refine h.atQueue rfl (by simp [here]) consumes.claims same ?_ (by simp)
    intro p left
    rw [here]
    exact left_of_visit (v := v) rfl rfl rfl rfl left
  case popping v =>
    obtain ⟨q,ring,rfl⟩ := onQueue_map_eq step
    obtain ⟨consumes,-,what⟩ := Mpsc.consumerNext_consumes ring
    simp only [update_self] at inv' ⊢
    have stay : (v.popped q.cpc).visit = some v → ∀ p, (v.popped q.cpc).Left p → s.cpc.Left p ∨ OnlyLate s p := by
      intro visit p left
      rw [here]
      exact .inl (left_of_visit rfl visit rfl rfl left)
    refine h.consumes rfl (by simp [here]) ?_ ?_ ?_ ?_
    · exact fun p _ => update_same (·.claims) consumes.claims p
    · have grows : (s.queues v.pri).popped.length ≤ q.popped.length := by
        rcases what with ⟨_,_,-,popped,-⟩ | ⟨_,_,_,-,-,popped,-⟩ | ⟨_,_,-,-,popped⟩ <;> rw [popped]
        · rw [length_append]
          exact Nat.le_add_right ..
      intro p
      by_cases same : p = v.pri
      · subst same
        simp only [update_self]
        exact grows
      · simp only [update_of_ne same]
        exact le_rfl
    · rcases what with ⟨pos,out,at_,-,done | copy,-⟩ | ⟨pos,out,read,-,store,-⟩ | ⟨pos,out,-,done,-⟩
      · intro p left
        rw [done] at left
        obtain ⟨final,rfl | less⟩ := v.left_leave left
        · right
          rcases Mpsc.nothing_published (inv.rings v.pri) ring done with empty | ⟨x,oldest,writing⟩
          · intro k x late at_k
            have := (List.getElem?_eq_some_iff.1 at_k).1
            omega
          · exact guard.2 v pos out x here final at_ oldest writing
        · rw [here]
          exact .inl (.inr ⟨v,rfl,final,less⟩)
      · exact stay (by rw [copy]; rfl)
      · exact stay (by rw [store]; rfl)
      · exact stay (by rw [done]; rfl)
    · intro w entry p eq
      cases cpc : q.cpc with
      | done out =>
        rw [cpc] at eq
        cases out with
        | none => exact absurd eq ((ConsumerPC.ne_of_free v.leave_free).2.1 w entry)
        | some out => cases eq
      | _ => rw [cpc] at eq; cases eq
  case escalate v entry =>
    obtain ⟨p,k,higher,last,busy⟩ := inv.escalations.active v entry here
    simp only [higher] at step
    obtain ⟨q,ring,rfl⟩ := onQueue_map_eq step
    obtain ⟨own,-,-,-,claims⟩ := Mpsc.producerNext_own ring
    have room : q.claims.length ≤ q.popped.length + cfg.queueDepth := by
      have room := (inv'.rings p).room
      simp only [update_self] at room
      exact room
    -- in the final drain the queue above is full: nothing is claimed
    have same : v.final = true → q.claims = (s.queues p).claims := by
      intro final
      have full := h.full v entry p here final higher
      rcases claims with same | ⟨new,-⟩
      · exact same
      · rw [new, own.popped, length_append, length_singleton] at room
        omega
    have visit : ∀ {q' : Mpsc.PC 4}, (v.pushed entry q').visit = some v := by
      intro q'
      cases q' <;> rfl
    refine h.consumes rfl (by simp [here]) ?_ ?_ ?_ ?_
    · intro p' left
      have final : v.final = true := by
        have before : ConsumerPC.Left (.escalate v entry) p' := left_of_visit rfl visit rfl rfl left
        rcases before with eq | ⟨w,eq,final,-⟩
        · cases eq
        · cases eq
          exact final
      exact update_same (·.claims) (same final) p'
    · exact fun p' => (update_same (·.popped.length) (by rw [own.popped]) p').ge
    · intro p' left
      rw [here]
      have before : ConsumerPC.Left (.escalate v entry) p' := left_of_visit rfl visit rfl rfl left
      exact .inl before
    · intro w e p' eq final higher'
      have eq' : v = w ∧ entry = e := by
        simp only [Visit.pushed] at eq
        split at eq <;> cases eq
        exact ⟨rfl,rfl⟩
      obtain ⟨rfl,rfl⟩ := eq'
      rw [higher] at higher'
      cases higher'
      simp only [update_self]
      rw [same final, own.popped]
      exact h.full v entry p here final higher
  case loadRunning =>
    cases step
    split
    · exact h.outside rfl (by simp [here]) rfl (by simp)
    · exact h.rest rfl (by simp [here]) (fun p left => absurd left (not_left_of_first p)) (by simp)
  case loadShutdown =>
    cases step
    exact h.rest rfl (by simp [here]) (fun p left => absurd left (not_left_of_first p)) (by simp)
  case count v entry =>
    split at step <;> cases step <;> exact h.within (v := v) rfl (by rw [here]; rfl) rfl rfl rfl (by simp [Visit.more])
  case addProcessed v | clear v _ | requestShutdown v =>
    cases step
    exact h.within (v := v) rfl (by rw [here]; rfl) rfl rfl rfl (by simp [Visit.more])
  case dispatchCycle _ | sampleProd _ _ _ | wait =>
    cases step
    exact h.outside rfl (by simp [here]) rfl (by simp)
  case sampleCons | onWatermark =>
    cases step
    split <;> exact h.outside rfl (by simp [here]) rfl (by simp)

theorem Leaving.copyOut (step : copyOutNext cfg i s = some t) : Leaving cfg t := by
  obtain ⟨v,q,here,ring,rfl⟩ := copyOutNext_eq step
  obtain ⟨consumes,popped,-⟩ := Mpsc.copyOutNext_consumes ring
  refine h.atQueue rfl (by rw [here]; nofun) consumes.claims popped (fun _ left => left) ?_
  intro w entry p eq
  cases here.symm.trans eq

theorem Leaving.copyEscalated (step : copyEscalatedNext cfg i s = some t) : Leaving cfg t := by
  obtain ⟨v,entry,p,q,here,higher,ring,rfl⟩ := copyEscalatedNext_eq step
  obtain ⟨own,-,-,-,claims⟩ := Mpsc.copyInNext_own ring
  exact h.atQueue rfl (by rw [here]; nofun) claims own.popped (fun _ left => left) h.full

theorem Leaving.answer {action : HookAction} (guard : orderly cfg s (.answer action))
    (step : answerNext cfg action s = some t) : Leaving cfg t := by
  obtain ⟨v,entry,event,here,⟨frame,on⟩ | ⟨rfl,p,q,higher,ring,rfl⟩⟩ := answerNext_eq step
  · rw [frame]
    rcases on with ⟨-,eq⟩ | ⟨-,eq | eq⟩ <;> rw [eq] <;>
      exact h.within (v := v) rfl (by rw [here]; rfl) rfl rfl rfl nofun
  · obtain ⟨own,-,-,-,-,claims,-⟩ := Mpsc.pushNext_own ring
    refine h.atQueue rfl (by rw [here]; nofun) claims own.popped ?_ ?_
    · intro p' left
      rw [here]
      exact left_of_visit (v := v) rfl rfl rfl rfl left
    · rintro w e p' ⟨⟩ final higher'
      exact guard.2 v entry event p' here final higher'

end

variable [DecidableEq ι]

/-- Every orderly step leaves only late entries behind. -/
theorem Leaving.next {a : Act ι} (h : Leaving cfg s) (inv : Inv cfg s) (guard : orderly cfg s a)
    (step : next cfg a s = some t) : Leaving cfg t := by
  have inv' := next_inv inv guard.1 step
  cases a with
  | report c entry => exact h.report inv' step
  | reporter c spurious => exact h.reporter inv' guard step
  | copyIn c i => exact h.copyIn inv' step
  | consumer spurious => exact h.consumer inv inv' guard step
  | copyOut i => exact h.copyOut step
  | copyEscalated i => exact h.copyEscalated step
  | answer action => exact h.answer guard step
  | callStop =>
    simp only [Fault.next] at step
    obtain ⟨idle,⟨⟩⟩ := enabled step
    exact h.callStop idle
  | stopper => exact h.stopper step

theorem reach_leaving (h : Reach (machine cfg entry) (orderly cfg) s) : Inv cfg s ∧ Leaving cfg s := by
  have base : Leaving cfg (State.init (ι := ι) entry) := by
    constructor
    case called => nofun
    case running => exact fun _ => rfl
    case returned => nofun
    case left => exact fun p left => absurd left (not_left_of_none rfl nofun)
    case full => nofun
  apply h.invariant (I := fun s => Inv cfg s ∧ Leaving cfg s) ⟨init_inv cfg entry,base⟩
  intro s t a _ ih guard step
  exact ⟨next_inv ih.1 guard.1 step,ih.2.next ih.1 guard step⟩

end

section

variable [DecidableEq ι] {x : Caller ι}

def Passed (s : State ι) (p : FaultPriority) (x : Caller ι) (entry : FaultEntry) : Prop :=
  ∃ k : Nat, (s.queues p).claims[k]? = some x ∧ (hookedFrom s.hooked p)[k]? = some entry

/-- When `Stop` has returned, every report that had returned with success and every queued escalation was passed to its
hook, and all queues are empty if no report ran beside `Stop`. -/
structure Drained (s : State ι) : Prop where
  reports : ∀ c, s.atStop c = .done .success → Passed s (s.report c).priority (.inl c) (s.report c)
  escalated : ∀ k p, (s.queues p).pc (.inr k) = .done true → Passed s p (.inr k) (.ofWords ((s.queues p).arg (.inr k)))
  empty : (∀ c, s.atStop c = .idle ∨ ∃ o, s.atStop c = .done o) → (∀ c, s.pc c = s.atStop c) →
    ∀ p, (s.queues p).claims.length = (s.queues p).popped.length

omit [DecidableEq ι] in
theorem Inv.passed (h : Inv cfg s) (exited : s.cpc = .exited) {k : Nat}
    (here : (s.queues p).claims[k]? = some x) (popped : k < (s.queues p).popped.length) :
    Passed s p x (.ofWords ((s.queues p).arg x)) := by
  have log := h.log.popped p
  rw [hand_of_free (by rw [exited]; rfl), append_nil, (h.rings p).order] at log
  refine ⟨k,here,?_⟩
  rw [← log, getElem?_map, getElem?_map, getElem?_take_of_lt popped, here]
  rfl

omit [DecidableEq ι] in
theorem Leaving.popped (h : Leaving cfg s) (inv : Inv cfg s) (returned : s.stop = .returned)
    (claimed : ((s.queues p).pc x).claimed = true) (early : ¬ Late s x) :
    Passed s p x (.ofWords ((s.queues p).arg x)) := by
  have exited := h.returned returned
  obtain ⟨k,inside,eq⟩ := getElem_of_mem (((inv.rings p).claimed x).2 claimed)
  have here : (s.queues p).claims[k]? = some x := List.getElem?_eq_some_iff.2 ⟨inside,eq⟩
  apply inv.passed exited here
  by_contra late
  exact early (h.left p (.inl exited) k x (Nat.not_lt.1 late) here)

/-- **Nothing that was admitted is lost by `Stop`**, in every run of orderly steps. -/
theorem stop_loses_nothing {entry : FaultEntry} (h : Reach (machine cfg entry) (orderly cfg) s)
    (returned : s.stop = .returned) : Drained s := by
  obtain ⟨inv,leaving⟩ := reach_leaving h
  have exited := leaving.returned returned
  constructor
  case reports =>
    intro c early
    have ring := (inv.reports c).own
    rw [leaving.called c _ early] at ring
    have done : (s.queues (s.report c).priority).pc (.inl c) = .done true := ring
    have passed := leaving.popped inv returned (x := .inl c) (by rw [done]; rfl) (by
      rintro ⟨-,d,eq,late⟩
      cases eq
      exact late early)
    rw [(inv.reports c).arg (by rw [done]; nofun), FaultEntry.ofWords_words] at passed
    exact passed
  case escalated =>
    intro k p done
    apply leaving.popped inv returned (by rw [done]; rfl)
    rintro ⟨-,d,eq,-⟩
    cases eq
  case empty =>
    intro quiet same p
    have le := (inv.rings p).le
    by_contra some_
    -- the oldest entry of a queue that is not empty belongs to a report that ran beside `Stop`
    have inside : (s.queues p).popped.length < (s.queues p).claims.length := by omega
    obtain ⟨-,c,eq,late⟩ := leaving.left p (.inl exited) _ _ le_rfl (getElem?_eq_getElem inside)
    have claimed := ((inv.rings p).claimed (.inl c)).1 (eq ▸ getElem_mem inside)
    have own : p = (s.report c).priority := by
      by_contra other
      rw [(inv.reports c).foreign p other] at claimed
      cases claimed
    have ring := (inv.reports c).own
    rw [← own, same c] at ring
    rcases quiet c with idle | ⟨o,done⟩
    · rw [idle] at ring
      rw [show (s.queues p).pc (.inl c) = .idle from ring] at claimed
      cases claimed
    · rw [done] at ring late
      cases o with
      | success => exact late rfl
      | error e =>
        cases e with
        | kInvalidIndex =>
          rw [show (s.queues p).pc (.inl c) = .idle from ring] at claimed
          cases claimed
        | kQueueFull => rcases ring with no | no <;> rw [no] at claimed <;> cases claimed

def pairs : Config := ⟨Mpsc.depth2, by decide, 4, by decide, by decide, fun _ => 7⟩

def mediumFault : FaultEntry := ⟨2, .kMedium, 11, 500⟩

/-- An orderly step, as a run can check it: no report is admitted during a drain, which escalates nothing, and the
oldest claim is published. -/
def orderlyCheck (s : State (Fin 1)) : Act (Fin 1) → Bool
  | .reporter c _ =>
    let q := s.queues (s.report c).priority
    q.claims.length - q.loaded (.inl c) + pairs.queueDepth ≤ 2147483648 && s.cpc.visit = none && s.cpc ≠ .exited
  | .consumer _ =>
    match s.cpc with
    | .popping v =>
      let q := s.queues v.pri
      q.claims[q.popped.length]?.all fun x => q.pc x = .done true
    | .escalate _ entry => entry.priority.higher.all fun p =>
      (s.queues p).claims.length - (s.queues p).loaded (.inr (s.escalations - 1)) + pairs.queueDepth ≤ 2147483648
    | _ => true
  | .answer .kEscalate => s.cpc.visit.all fun v => v.final = false
  | _ => true

omit [DecidableEq ι] in
theorem recent_of_le {spurious : Bool} (le : q.claims.length - q.loaded x + pairs.queueDepth ≤ 2147483648) :
    Mpsc.recent pairs.queue q (.producer x spurious) := by
  simp only [Mpsc.recent]
  split
  · exact le
  · omega
  · trivial

theorem orderlyCheck_sound (s : State (Fin 1)) (a : Act (Fin 1)) (passes : orderlyCheck s a = true) :
    orderly pairs s a := by
  cases a with
  | reporter c spurious =>
    simp only [orderlyCheck, Bool.and_eq_true, decide_eq_true_eq] at passes
    exact ⟨fun _ => recent_of_le passes.1.1,fun _ _ _ => .inl (not_left_of_none passes.1.2 passes.2)⟩
  | consumer spurious =>
    refine ⟨fun v entry p here higher => ?_,fun v pos out x here final at_ oldest unpublished => ?_⟩
    · simp only [orderlyCheck, here, higher, Option.all_some, decide_eq_true_eq] at passes
      exact recent_of_le passes
    · simp only [orderlyCheck, here, oldest, Option.all_some, decide_eq_true_eq] at passes
      exact absurd passes unpublished
  | answer action =>
    refine ⟨trivial,?_⟩
    cases action with
    | kEscalate =>
      intro v entry event p here final
      simp only [orderlyCheck, here, ConsumerPC.visit, Option.all_some, decide_eq_true_eq] at passes
      rw [passes] at final
      cases final
    | _ => trivial
  | _ => exact ⟨trivial,trivial⟩

def reportRun {ι : Type} (c : ι) : List (Act ι) :=
  .report c mediumFault :: replicate 5 (.reporter c false) ++ (finRange 4).map (.copyIn c) ++
    replicate 4 (.reporter c false)

/-- The consumer takes an entry from the queue that it comes to, up to the call of the hook. -/
def takeRun {ι : Type} : List (Act ι) :=
  replicate 2 (.consumer false) ++ (finRange 4).map .copyOut ++ replicate 3 (.consumer false)

/-- The hook escalates, and the entry is queued one level up. -/
def escalateRun {ι : Type} : List (Act ι) := .answer .kEscalate :: replicate 3 (.consumer false) ++
    (finRange 4).map .copyEscalated ++ replicate 2 (.consumer false)

/-- The hook escalates the entry; then `Stop` is called, and the final drain passes the escalated entry, which the hook
defers. -/
theorem stop_loses_nothing_escalated : ∃ s : State (Fin 1),
    Reach (machine pairs mediumFault) (orderly pairs) s ∧ s.stop = .returned ∧ s.atStop 0 = .done .success ∧
    s.hooked.map (fun h => (h.queue, h.action)) = [(.kMedium, .kEscalate), (.kHigh, .kDefer)] ∧ Drained s := by
  obtain ⟨s,reached,returned,success,hooked⟩ := reach_of_run (machine pairs mediumFault) orderlyCheck_sound
      (reportRun 0 ++ replicate 6 (.consumer false) ++ takeRun ++ escalateRun ++ [.callStop, .stopper, .stopper] ++
        replicate 17 (.consumer false) ++ takeRun ++ [.answer .kDefer] ++ replicate 7 (.consumer false) ++
        [.stopper])
      (fun s => s.stop = .returned ∧ s.atStop 0 = .done .success ∧
        s.hooked.map (fun h => (h.queue, h.action)) = [(.kMedium, .kEscalate), (.kHigh, .kDefer)]) (by decide +kernel)
  exact ⟨s,reached,returned,success,hooked,stop_loses_nothing reached returned⟩

/-- The hook escalates in the final drain, which has left the queue above: the entry is still queued when `Stop` has
returned. -/
theorem escalated_in_final_drain : ∃ s : State (Fin 1),
    Reach (machine pairs mediumFault) (prompt pairs) s ∧ s.stop = .returned ∧
    (∀ c, s.atStop c = .done .success ∧ s.pc c = s.atStop c) ∧ (s.queues .kHigh).pc (.inr 0) = .done true ∧
    s.hooked.map (·.queue) = [.kMedium] ∧ ¬ Drained s := by
  have sound : ∀ (s : State (Fin 1)) (a : Act (Fin 1)), (orderlyCheck s a || a matches .answer _) = true →
      prompt pairs s a := by
    intro s a passes
    cases a with
    | answer action => trivial
    | _ => exact (orderlyCheck_sound s _ (by simpa using passes)).1
  obtain ⟨s,reached,returned,quiet,requeued,hooked,claims,popped⟩ := reach_of_run (machine pairs mediumFault) sound
      (reportRun 0 ++ [.callStop, .stopper, .stopper] ++ replicate 5 (.consumer false) ++ takeRun ++ escalateRun ++
        replicate 4 (.consumer false) ++ [.stopper])
      (fun s => s.stop = .returned ∧ (∀ c, s.atStop c = .done .success ∧ s.pc c = s.atStop c) ∧
        (s.queues .kHigh).pc (.inr 0) = .done true ∧ s.hooked.map (·.queue) = [.kMedium] ∧
        (s.queues .kHigh).claims.length = 1 ∧ (s.queues .kHigh).popped.length = 0) (by decide +kernel)
  refine ⟨s,reached,returned,quiet,requeued,hooked,fun drained => ?_⟩
  have empty := drained.empty (fun c => .inr ⟨_,(quiet c).1⟩) (fun c => (quiet c).2) .kHigh
  omega

/-- **The hooks run in the order of admission**: in every run the entries of a queue that were passed to a hook, and then
the one in the hand of the consumer, are the first that were admitted to it, each once; and the entry of a report is its
own, in the queue of its priority. -/
theorem hooked_in_order {entry : FaultEntry} (h : Reach (machine cfg entry) (prompt cfg) s) (p : FaultPriority) :
    hookedFrom s.hooked p ++ hand s p =
      ((s.queues p).claims.take (s.queues p).popped.length).map (fun x => .ofWords ((s.queues p).arg x)) ∧
    (s.queues p).claims.Nodup ∧ ∀ c, .inl c ∈ (s.queues p).claims →
      (s.report c).priority = p ∧ .ofWords ((s.queues p).arg (.inl c)) = s.report c := by
  have inv : Inv cfg s := by
    apply h.invariant (init_inv cfg entry)
    intro s t a _ ih guard step
    exact next_inv ih guard step
  refine ⟨?_,(inv.rings p).nodup,fun c admitted => ?_⟩
  · have order := congrArg (map FaultEntry.ofWords) (inv.rings p).order
    rw [map_map, inv.log.popped p] at order
    exact order
  · have claimed := ((inv.rings p).claimed (.inl c)).1 admitted
    have own : p = (s.report c).priority := by
      by_contra other
      rw [(inv.reports c).foreign p other] at claimed
      cases claimed
    subst own
    refine ⟨rfl,?_⟩
    have pushed : (s.queues (s.report c).priority).pc (.inl c) ≠ .idle := by
      intro idle
      rw [idle] at claimed
      cases claimed
    rw [(inv.reports c).arg pushed, FaultEntry.ofWords_words]

/-- The hook has escalated the only report. -/
theorem hooked_in_order_escalated : ∃ s : State (Fin 1), Reach (machine pairs mediumFault) (prompt pairs) s ∧
    s.hooked.map (·.action) = [.kEscalate] ∧ hookedFrom s.hooked .kMedium ++ hand s .kMedium =
      ((s.queues .kMedium).claims.take (s.queues .kMedium).popped.length).map
        (fun x => .ofWords ((s.queues .kMedium).arg x)) := by
  obtain ⟨s,reached,hooked⟩ := reach_of_run (machine pairs mediumFault)
    (fun s a passes => (orderlyCheck_sound s a passes).1)
    (reportRun 0 ++ replicate 6 (.consumer false) ++ takeRun ++ escalateRun)
    (fun s => s.hooked.map (·.action) = [.kEscalate]) (by decide +kernel)
  exact ⟨s,reached,hooked,(hooked_in_order reached .kMedium).1⟩

end

end Newosp.Fault
