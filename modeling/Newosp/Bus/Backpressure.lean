import Newosp.Bus.Machine

/-!
# When a publish is dropped

A call compares two counters it loaded at different times. If the consumer position is not past the loaded producer
position, the difference is at most the positions in use at that load, so a drop shows real pressure. If the consumer
has overtaken the call, it wraps to almost `2 ^ 32`, and the call is dropped at any depth.
-/

namespace Newosp.Bus
open Lib List
open State (goto_pc_of_ne goto_pc_self)

variable {ι α : Type} {cfg : Config} {req : ι → Request α} {s s' : State ι α} {c : ι} {quiet : State ι α → Prop}
  {spurious : Bool}

/-- How many released positions of the running batch are not in `consumer_pos_` yet. -/
def ConsumerPC.unstored : ConsumerPC ι → Nat
  | .idle _ => 0
  | .casSeq _ _ n => n
  | .readHeader _ _ n => n
  | .readPayload _ _ n _ _ => n
  | .release _ _ n => n
  | .storePos _ n => n
  | .addProcessed _ => 0

def ConsumerPC.local : ConsumerPC ι → Option Nat
  | .casSeq _ consPos _ => some consPos
  | .readHeader _ consPos _ => some consPos
  | .readPayload _ consPos _ _ _ => some consPos
  | .release _ consPos _ => some consPos
  | .storePos consPos _ => some consPos
  | _ => none

/-- The number of positions `consumer_pos_` stands for. -/
def State.consumed (s : State ι α) : Nat := s.released - s.cpc.unstored

/-- The shared counters are the wrapped numbers of claimed and of consumed positions. -/
structure Counts (s : State ι α) : Prop where
  producer : s.mem.producerPos = wrap32 s.claims.length
  unstored : s.cpc.unstored ≤ s.released
  consumer : s.mem.consumerPos = wrap32 s.consumed
  batch : ∀ consPos, s.cpc.local = some consPos → consPos = wrap32 s.released

theorem finishBatch_counts (consPos n : Nat) : (finishBatch consPos n : ConsumerPC ι).unstored = n ∧
    ∀ p, (finishBatch consPos n : ConsumerPC ι).local = some p → p = consPos := by
  unfold finishBatch
  split
  · exact ⟨rfl,fun p eq => (Option.some.inj eq).symm⟩
  · exact ⟨by simp only [ConsumerPC.unstored]; omega,fun p eq => by cases eq⟩

theorem batchAt_counts (cfg : Config) (i consPos n : Nat) : (batchAt cfg i consPos n : ConsumerPC ι).unstored = n ∧
    ∀ p, (batchAt cfg i consPos n : ConsumerPC ι).local = some p → p = consPos := by
  unfold batchAt
  split
  · exact ⟨rfl,fun p eq => (Option.some.inj eq).symm⟩
  · exact finishBatch_counts consPos n

theorem consumerNext_counts (h : Counts s) : Counts (consumerNext cfg s) := by
  obtain ⟨producer,unstored,consumer,batch⟩ := h
  unfold State.consumed at consumer
  cases here : s.cpc <;> simp only [here, ConsumerPC.unstored, Nat.sub_zero] at unstored consumer <;>
    rw [here] at batch <;> simp only [consumerNext, here]
  case idle last =>
    obtain ⟨same,at_⟩ := batchAt_counts (ι := ι) cfg 0 s.mem.consumerPos 0
    exact ⟨producer,by simp [same],by simpa [State.consumed, same] using consumer,
      fun p eq => by rw [at_ p eq, consumer]⟩
  case casSeq i consPos n =>
    split
    · exact ⟨producer,unstored,consumer,batch⟩
    · obtain ⟨same,at_⟩ := finishBatch_counts (ι := ι) consPos n
      exact ⟨producer,by simpa [same] using unstored,by simpa [State.consumed, same] using consumer,
        fun p eq => by rw [at_ p eq]; exact batch consPos rfl⟩
  case readHeader i consPos n => exact ⟨producer,unstored,consumer,batch⟩
  case readPayload i consPos n header by' => exact ⟨producer,unstored,consumer,batch⟩
  case release i consPos n =>
    obtain ⟨same,at_⟩ := batchAt_counts (ι := ι) cfg (i + 1) (wrap32 (consPos + 1)) (n + 1)
    refine ⟨producer,by simpa [same] using unstored,?_,fun p eq => ?_⟩
    · simpa [State.consumed, same, Memory.storeSequence, Nat.add_sub_add_right] using consumer
    · rw [at_ p eq, batch consPos rfl, wrap32_add_left]
  case storePos consPos n =>
    exact ⟨producer,Nat.zero_le _,batch consPos rfl,fun p eq => by cases eq⟩
  case addProcessed n => exact ⟨producer,Nat.zero_le _,consumer,fun p eq => by cases eq⟩

/-- What a step of call `c` leaves alone. -/
structure CallFrame (c : ι) (s s' : State ι α) : Prop where
  cpc : s'.cpc = s.cpc
  released : s'.released = s.released
  consumerPos : s'.mem.consumerPos = s.mem.consumerPos
  claims : s.claims.length ≤ s'.claims.length
  pc : ∀ d, d ≠ c → s'.pc d = s.pc d
  loaded : ∀ d, d ≠ c → s'.loaded d = s.loaded d

theorem CallFrame.counts (f : CallFrame c s s') (h : Counts s)
    (producer : s'.mem.producerPos = wrap32 s'.claims.length) : Counts s' := by
  obtain ⟨-,unstored,consumer,batch⟩ := h
  refine ⟨producer,?_,?_,?_⟩
  · rw [f.cpc, f.released]
    exact unstored
  · rw [State.consumed, f.consumerPos, f.cpc, f.released]
    exact consumer
  · rw [f.cpc, f.released]
    exact batch

section

variable [DecidableEq ι]

theorem goto_frame (m' : Memory α) (hb pb : Nat → Option ι) (ev : List (Option ι × ι)) (pc' : PC)
    (consumer : m'.consumerPos = s.mem.consumerPos) :
    CallFrame c s ({ s with mem := m', headerBy := hb, payloadBy := pb, evicted := ev }.goto c pc') where
  cpc := rfl
  released := rfl
  consumerPos := consumer
  claims := le_rfl
  pc := fun _ ne => goto_pc_of_ne _ _ _ ne
  loaded := fun _ _ => rfl

theorem producerNext_frame (h : Counts s)
    (step : producerNext cfg req c spurious s = some s') : CallFrame c s s' ∧ Counts s' := by
  have plain : ∀ {m' : Memory α} {hb pb : Nat → Option ι} {ev : List (Option ι × ι)} {pc' : PC},
      m'.consumerPos = s.mem.consumerPos → m'.producerPos = s.mem.producerPos →
      CallFrame c s ({ s with mem := m', headerBy := hb, payloadBy := pb, evicted := ev }.goto c pc') ∧
      Counts ({ s with mem := m', headerBy := hb, payloadBy := pb, evicted := ev }.goto c pc') := by
    intro m' hb pb ev pc' consumer producer
    have frame := goto_frame (s := s) (c := c) m' hb pb ev pc' consumer
    exact ⟨frame,frame.counts h (producer.trans h.producer)⟩
  have noted : ∀ {pc' : PC}, CallFrame c s ((s.noteLoad c).goto c pc') ∧ Counts ((s.noteLoad c).goto c pc') := by
    intro pc'
    have frame : CallFrame c s ((s.noteLoad c).goto c pc') :=
      ⟨rfl,rfl,rfl,le_rfl,fun _ ne => goto_pc_of_ne _ _ _ ne,fun _ ne => Function.update_of_ne ne ..⟩
    exact ⟨frame,frame.counts h h.producer⟩
  cases here : s.pc c <;> simp only [producerNext, here] at step
  case idle | done => cases step
  case loadProd | loadPos =>
    cases step
    exact noted
  case casPos id pos =>
    split at step <;> cases step
    · rename_i success
      have frame : CallFrame c s ({ s with
          mem := { s.mem with producerPos := wrap32 (pos + 1) },
          claims := s.claims ++ [(c, pos)] }.goto c (.fetchId (.claimed pos))) :=
        ⟨rfl,rfl,rfl,by simp,fun _ ne => goto_pc_of_ne _ _ _ ne,fun _ _ => rfl⟩
      refine ⟨frame,frame.counts h ?_⟩
      have current := h.producer
      rw [success.1] at current
      simp [current, wrap32_add_left]
    · exact plain rfl rfl
  case scanCas =>
    split at step <;> cases step <;> exact plain rfl rfl
  all_goals
    cases step
    exact plain rfl rfl

end

/-! ## What a drop shows -/

section

variable (cfg req)

/-- The next step of call `c` loads `consumer_pos_` for a comparison of depths. -/
def State.depthLoad (s : State ι α) (c : ι) : Bool := match s.pc c with
  | .loadReal .. => true
  | .loadCons .. => true
  | _ => false

/-- At some visited instant with `quiet`, at least the threshold of the call's priority was claimed and not consumed. -/
def Pressed (quiet : State ι α → Prop) (visited : List (State ι α)) (c : ι) : Prop :=
  ∃ t ∈ visited, t.running c ∧ quiet t ∧ cfg.getThresholdForPriority (req c).priority ≤ t.claims.length - t.consumed

/-- What is known of call `c`: it loaded the producer position of an earlier instant, and a positive comparison has
shown pressure. -/
def Noted (quiet : State ι α → Prop) (visited : List (State ι α)) (s : State ι α) (c : ι) : PC → Prop
  | .loadCached _ prod => prod = wrap32 (s.loaded c) ∧ s.loaded c ≤ s.claims.length
  | .loadReal _ prod => prod = wrap32 (s.loaded c) ∧ s.loaded c ≤ s.claims.length
  | .storeCached _ prod real => cfg.getThresholdForPriority (req c).priority ≤ sub32 prod real →
      Pressed cfg req quiet visited c
  | .addRecheck _ prod real => cfg.getThresholdForPriority (req c).priority ≤ sub32 prod real →
      Pressed cfg req quiet visited c
  | .loadSeq _ pos => pos = wrap32 (s.loaded c) ∧ s.loaded c ≤ s.claims.length
  | .loadCons _ pos => pos = wrap32 (s.loaded c) ∧ s.loaded c ≤ s.claims.length
  | .scanProd _ => Pressed cfg req quiet visited c
  | .scanCons _ _ => Pressed cfg req quiet visited c
  | .scanSeq .. => Pressed cfg req quiet visited c
  | .scanPeek .. => Pressed cfg req quiet visited c
  | .scanCas .. => Pressed cfg req quiet visited c
  | .scanVerify .. => Pressed cfg req quiet visited c
  | .scanRestore .. => Pressed cfg req quiet visited c
  | .addDropped _ => Pressed cfg req quiet visited c
  | .done (.rejected .kQueueFull _) => Pressed cfg req quiet visited c
  | _ => True

variable {cfg req} {visited : List (State ι α)}

theorem Pressed.later (h : Pressed cfg req quiet visited c) : Pressed cfg req quiet (s :: visited) c := by
  obtain ⟨t,member,rest⟩ := h
  exact ⟨t,mem_cons_of_mem _ member,rest⟩

theorem Noted.later {pc : PC} (h : Noted cfg req quiet visited s c pc)
    (claims : s.claims.length ≤ s'.claims.length) (loaded : s'.loaded c = s.loaded c) :
    Noted cfg req quiet (s' :: visited) s' c pc := by
  cases pc with
  | loadCached | loadReal | loadSeq | loadCons =>
    obtain ⟨eq,le⟩ := h
    exact ⟨by rw [loaded]; exact eq,by rw [loaded]; exact le_trans le claims⟩
  | storeCached | addRecheck => exact fun deep => (h deep).later
  | scanProd | scanCons | scanSeq | scanPeek | scanCas | scanVerify | scanRestore | addDropped =>
    exact Pressed.later h
  | done o =>
    cases o with
    | accepted => trivial
    | rejected e id =>
      cases e with
      | kQueueFull => exact Pressed.later h
      | _ => trivial
  | _ => trivial

theorem scanAt_noted {id prod cons i : Nat} (h : Pressed cfg req quiet visited c) :
    Noted cfg req quiet visited s c (scanAt cfg id prod cons i) := by
  unfold scanAt
  split
  · split
    · exact h
    · exact h
  · exact h

theorem pressed_of_depth {prod n : Nat} (counts : Counts s)
    (loaded : prod = wrap32 (s.loaded c) ∧ s.loaded c ≤ s.claims.length)
    (behind : s.consumed ≤ s.loaded c) (still : quiet s) (runs : s.running c)
    (threshold : cfg.getThresholdForPriority (req c).priority ≤ n)
    (deep : n ≤ sub32 prod s.mem.consumerPos) : Pressed cfg req quiet (s :: visited) c := by
  refine ⟨s,mem_cons_self ..,runs,still,?_⟩
  rw [loaded.1, counts.consumer] at deep
  have bound := sub32_wrap32_le behind
  have later := loaded.2
  omega

end

/-! ## Runs -/

section

variable [DecidableEq ι] {past : List (State ι α)}

theorem producerNext_noted (counts : Counts s) (noted : Noted cfg req quiet (s :: past) s c (s.pc c))
    (behind : s.depthLoad c = true → s.consumed ≤ s.loaded c ∧ quiet s)
    (step : producerNext cfg req c spurious s = some s') : Noted cfg req quiet (s :: past) s' c (s'.pc c) := by
  cases here : s.pc c <;> simp only [producerNext, here] at step <;> rw [here] at noted
  case idle | done => cases step
  case loadId =>
    cases step
    rw [goto_pc_self]
    split <;> trivial
  case loadProd | loadPos =>
    cases step
    rw [goto_pc_self]
    exact ⟨by simp [State.noteLoad, counts.producer],by simp [State.noteLoad]⟩
  case loadCached | loadSeq | scanVerify =>
    cases step
    rw [goto_pc_self]
    split
    · exact noted
    · trivial
  case loadReal id prod =>
    cases step
    rw [goto_pc_self]
    obtain ⟨le,still⟩ := behind (by simp [State.depthLoad, here])
    exact fun deep => pressed_of_depth counts noted le still ⟨by simp [here],by simp [here]⟩ le_rfl deep
  case storeCached | scanProd | addDropped =>
    cases step
    rw [goto_pc_self]
    exact noted
  case addRecheck id prod real =>
    cases step
    rw [goto_pc_self]
    split
    · rename_i deep
      split
      · exact noted deep
      · exact noted deep
    · trivial
  case loadCons id pos =>
    cases step
    rw [goto_pc_self]
    split
    · rename_i full
      obtain ⟨le,still⟩ := behind (by simp [State.depthLoad, here])
      exact pressed_of_depth counts noted le still ⟨by simp [here],by simp [here]⟩
        (le_of_lt (cfg.threshold_lt _)) full
    · trivial
  case casPos id pos =>
    split at step <;> cases step <;> rw [goto_pc_self] <;> trivial
  case scanCons | scanRestore =>
    cases step
    rw [goto_pc_self]
    exact scanAt_noted noted
  case scanSeq id prod cons i | scanPeek id prod cons i =>
    cases step
    rw [goto_pc_self]
    split
    · exact scanAt_noted noted
    · exact noted
  case scanCas id prod cons i =>
    split at step <;> cases step <;> rw [goto_pc_self]
    · exact noted
    · exact scanAt_noted noted
  case storeSequence hold =>
    cases step
    rw [goto_pc_self]
    cases hold <;> trivial
  all_goals
    cases step
    rw [goto_pc_self]
    trivial

/-- Every run keeps the counters and what the calls know. -/
theorem history_noted [Inhabited α] (quiet : State ι α → Prop) {ok : State ι α → Act ι → Prop}
    (behind : ∀ s c spurious, ok s (.producer c spurious) → s.depthLoad c = true →
      s.consumed ≤ s.loaded c ∧ quiet s) {visited : List (State ι α)} (h : History (machine cfg req) ok visited) :
    ∀ s past, visited = s :: past → Counts s ∧ ∀ c, Noted cfg req quiet (s :: past) s c (s.pc c) := by
  refine h.invariant (I := fun visited => ∀ s past, visited = s :: past →
    Counts s ∧ ∀ c, Noted cfg req quiet (s :: past) s c (s.pc c)) ?_ ?_
  · rintro s past ⟨⟩
    exact ⟨⟨rfl,le_rfl,rfl,fun p eq => by cases eq⟩,fun _ => trivial⟩
  · rintro s t a past - known allowed step t' past' ⟨⟩
    obtain ⟨counts,noted⟩ := known s past rfl
    cases a with
    | call c =>
      simp only [machine, next] at step
      obtain ⟨_,⟨⟩⟩ := enabled step
      refine ⟨⟨counts.producer,counts.unstored,counts.consumer,counts.batch⟩,fun d => ?_⟩
      by_cases self : d = c
      · subst self
        rw [goto_pc_self]
        trivial
      · rw [goto_pc_of_ne _ _ _ self]
        exact (noted d).later le_rfl rfl
    | producer c spurious =>
      obtain ⟨frame,counts'⟩ := producerNext_frame counts step
      refine ⟨counts',fun d => ?_⟩
      by_cases self : d = c
      · subst self
        exact (producerNext_noted counts (noted d) (behind s d spurious allowed) step).later le_rfl rfl
      · rw [frame.pc d self]
        exact (noted d).later frame.claims (frame.loaded d self)
    | consumer =>
      cases step
      have frame := consumerNext_frame cfg s
      refine ⟨consumerNext_counts counts,fun d => ?_⟩
      rw [frame.1]
      exact (noted d).later (le_of_eq (by rw [frame.2.1])) (by rw [frame.2.2])

/-- The step is not a load of `consumer_pos_` by a call that the consumer has overtaken since the
call loaded `producer_pos_`. -/
def notOvertaken (s : State ι α) : Act ι → Bool
  | .producer c _ => !s.depthLoad c || decide (s.consumed ≤ s.loaded c)
  | _ => true

/-- The step is not a load of `consumer_pos_` inside a batch that has released positions. -/
def batchStored (s : State ι α) : Act ι → Bool
  | .producer c _ => !s.depthLoad c || decide (s.cpc.unstored = 0)
  | _ => true

/-- A dropped publish never overtaken by the consumer has seen its threshold of positions ahead of `consumer_pos_`. -/
theorem dropped_depth [Inhabited α] (h : History (machine cfg req) (fun s a => notOvertaken s a = true)
    (s :: past)) {id : Nat} (dropped : s.pc c = .done (.rejected .kQueueFull id)) :
    ∃ t ∈ s :: past, t.running c ∧ cfg.getThresholdForPriority (req c).priority ≤ t.claims.length - t.consumed := by
  have known := (history_noted (fun _ => True)
    (fun s c _ ok load => ⟨by simpa [notOvertaken, load] using ok,trivial⟩) h s past rfl).2 c
  rw [dropped] at known
  obtain ⟨t,member,runs,-,depth⟩ := known
  exact ⟨t,member,runs,depth⟩

/-- **Drops show real pressure** in every run in which no call loads `consumer_pos_` after the
consumer has overtaken it or inside a batch that has released positions. -/
theorem drops_under_pressure [Inhabited α] (h : History (machine cfg req)
    (fun s a => notOvertaken s a = true ∧ batchStored s a = true) (s :: past)) {id : Nat}
    (dropped : s.pc c = .done (.rejected .kQueueFull id)) :
    ∃ t ∈ s :: past, t.running c ∧ cfg.getThresholdForPriority (req c).priority ≤ t.claims.length - t.released := by
  have known := (history_noted (fun t => t.cpc.unstored = 0)
    (fun s c _ ok load => ⟨by simpa [notOvertaken, load] using ok.1,
      by simpa [batchStored, load] using ok.2⟩) h s past rfl).2 c
  rw [dropped] at known
  obtain ⟨t,member,runs,still,depth⟩ := known
  rw [State.consumed, still] at depth
  exact ⟨t,member,runs,depth⟩

end

/-- Three messages wait on the bus; the fourth, of medium priority, is dropped. -/
theorem drops_under_pressure_fourth : ∃ (s : State Nat Nat) (past : List (State Nat Nat)),
    History (machine depth4 oneUrgent) (fun s a => notOvertaken s a = true ∧ batchStored s a = true)
      (s :: past) ∧ s.pc 4 = .done (.rejected .kQueueFull 4) ∧ ∃ t ∈ s :: past, t.running 4 ∧
      depth4.getThresholdForPriority (oneUrgent 4).priority ≤ t.claims.length - t.released := by
  have run : checkRun (machine depth4 oneUrgent) (fun s a => notOvertaken s a && batchStored s a)
      (callSteps 0 12 ++ callSteps 1 12 ++ callSteps 2 12 ++ callSteps 4 7) (fun _ => true)
      (fun s => s.pc 4 = .done (.rejected .kQueueFull 4)) = true := by decide +kernel
  obtain ⟨s,past,hist,-,final⟩ := checkRun_history (fun _ _ passes => Bool.and_eq_true_iff.1 passes) run
  have dropped := of_decide_eq_true final
  exact ⟨s,past,hist,dropped,drops_under_pressure hist dropped⟩

/-- A call is suspended after its load of `producer_pos_` while one message is published and consumed; it is then
dropped. -/
theorem dropped_when_overtaken : ∃ (s : State Nat Nat) (past : List (State Nat Nat)),
    History (machine depth4 oneUrgent) anyStep (s :: past) ∧ s.pc 0 = .done (.rejected .kQueueFull 1) ∧
    ¬ ∃ t ∈ s :: past, t.running 0 ∧
      depth4.getThresholdForPriority (oneUrgent 0).priority ≤ t.claims.length - t.released := by
  have run : checkRun (machine depth4 oneUrgent) passAll
      (callSteps 0 4 ++ callSteps 1 12 ++ replicate 8 .consumer ++ replicate 3 (.producer 0 false))
      (fun t => t.claims.length - t.released < 3) (fun s => s.pc 0 = .done (.rejected .kQueueFull 1)) =
        true := by decide +kernel
  obtain ⟨s,past,hist,shallow,final⟩ := checkRun_history (fun _ _ _ => trivial) run
  refine ⟨s,past,hist,of_decide_eq_true final,?_⟩
  rintro ⟨t,member,-,deep⟩
  have low := of_decide_eq_true (shallow t member)
  have threshold : depth4.getThresholdForPriority (oneUrgent 0).priority = 3 := by decide
  omega

end Newosp.Bus
