import Newosp.Bus.ProducerSteps

/-!
# The steps of the consumer

`ProcessBatch` takes the oldest unreleased position, dispatches it and releases it; it stores
`consumer_pos_` at the end of the batch only, so the released positions run ahead of it.
-/

namespace Newosp.Bus
open Lib Function
open Memory (setNode_ring storeSequence)
open ConsumerPC (busy)

variable {ι α : Type} {cfg : Config} {req : ι → Request α} {s : State ι α} {st : Nat → Status ι} {i consPos n : Nat}
  {cpc' : ConsumerPC ι}

@[simp] theorem finishBatch_releasing (consPos n : Nat) : (finishBatch consPos n : ConsumerPC ι).releasing = false := by
  unfold finishBatch
  split <;> rfl

@[simp] theorem batchAt_releasing (i consPos n : Nat) : (batchAt cfg i consPos n : ConsumerPC ι).releasing = false := by
  unfold batchAt
  split
  · rfl
  · exact finishBatch_releasing ..

theorem finishBatch_ok (here : consPos = s.released)
    (batch : s.released = s.mem.consumerPos + n) : ConsumerOk req s st (finishBatch consPos n) := by
  unfold finishBatch
  split
  · exact ⟨here,batch⟩
  · show s.mem.consumerPos = s.released
    omega

theorem batchAt_ok (here : consPos = s.released)
    (batch : s.released = s.mem.consumerPos + n) : ConsumerOk req s st (batchAt cfg i consPos n) := by
  unfold batchAt
  split
  · exact ⟨here,batch⟩
  · exact finishBatch_ok here batch

theorem RingInv.consume (h : RingInv cfg req s st) {n : Node α}
    {log : List (Dispatch ι α)} {x : Option ι} (win : InWindow cfg s s.released)
    (taken : st s.released ≠ .free) (unowned : (st s.released).owner = none)
    (seq : n.sequence = s.released + 1 + cfg.queueDepth)
    (header : n.header = (s.mem.ring (s.released % cfg.queueDepth)).header)
    (payload : n.payload = (s.mem.ring (s.released % cfg.queueDepth)).payload)
    (priority : n.slotPriority = (s.mem.ring (s.released % cfg.queueDepth)).slotPriority)
    (message : ∀ m, x = some m → (st s.released).message = some m) {s' : State ι α}
    (after : s' = { s with mem := s.mem.setNode (s.released % cfg.queueDepth) n, cpc := cpc',
                           dispatched := log })
    (busy : cpc'.busy = true)
    (ok : ConsumerOk req s' (update st s.released (.consuming x)) cpc') :
    RingInv cfg req s' (update st s.released (.consuming x)) := by
  subst after
  have elsewhere : ∀ q, InWindow cfg s q → q ≠ s.released → SameNode s { s with
      mem := s.mem.setNode (s.released % cfg.queueDepth) n, cpc := cpc', dispatched := log } (q % cfg.queueDepth) :=
    fun q wq ne => ⟨update_of_ne (fun same => ne (wq.inj win same)) ..,rfl,rfl⟩
  refine .of_positions h.prodPos h.claimPos h.cons_le h.released_le h.room ?positions ?calls ok
  case positions =>
    refine (forall_update_iff st fun q x => InWindow cfg s q → PositionOk cfg req _ q x).2 ⟨fun _ => ?_,fun q ne wq => ?_⟩
    · refine ⟨?_,?_,fun m eq => ?_,nofun,fun _ _ => ⟨rfl,busy⟩⟩
      · exact iff_of_false nofun fun le => taken ((h.free_iff _ win).2 le)
      · simp only [setNode_ring, update_self, seq, Status.seq]
      · have old := h.content _ m win (message m eq)
        simpa only [Content, HeaderOf, PayloadOf, setNode_ring, update_self, header, payload, priority] using old
    · exact (h.position wq).keep Iff.rfl (elsewhere q wq ne) (fun _ _ => id) fun head => absurd head.1 ne
  case calls =>
    intro d
    refine (h.calls d).transport le_rfl le_rfl le_rfl fun q wq owns => ?_
    have ne : q ≠ s.released := by
      rintro rfl
      rw [unowned] at owns
      cases owns
    exact ⟨wq,update_of_ne ne ..,elsewhere q wq ne⟩

/-- The release of the oldest position: its node now shows the position one ring later. -/
theorem RingInv.release (h : RingInv cfg req s st) (here : s.cpc = .release i consPos n) : RingInv cfg req { s with
      mem := s.mem.storeSequence (s.released % cfg.queueDepth) (s.released + cfg.queueDepth),
      released := s.released + 1,
      cpc := batchAt cfg (i + 1) (s.released + 1) (n + 1) }
      (update st (s.released + cfg.queueDepth) .free) := by
  have two := cfg.queueDepth_two_le
  have call := h.consumer
  rw [here] at call
  obtain ⟨rfl,batch,eq⟩ := call
  have win : InWindow cfg s s.released := ⟨le_rfl,by omega⟩
  have claimed : s.released < s.claims.length := by
    by_contra le
    have := (h.free_iff _ win).2 (by omega)
    rw [eq] at this
    cases this
  have old : ∀ q, s.released + 1 ≤ q → q < s.released + 1 + cfg.queueDepth →
      q ≠ s.released + cfg.queueDepth → InWindow cfg s q ∧ q % cfg.queueDepth ≠ s.released % cfg.queueDepth := by
    intro q lo hi ne
    have wq : InWindow cfg s q := ⟨by omega,by omega⟩
    exact ⟨wq,fun same => absurd (wq.inj win same) (by omega)⟩
  refine .of_positions h.prodPos h.claimPos (Nat.le_succ_of_le h.cons_le) claimed ?room ?positions ?calls ?consumer
  case room => have := h.room; show s.claims.length ≤ s.released + 1 + cfg.queueDepth; omega
  case positions =>
    rintro q ⟨lo,hi⟩
    by_cases last : q = s.released + cfg.queueDepth
    · subst last
      rw [update_self]
      refine ⟨⟨fun _ => h.room,fun _ => rfl⟩,?_,nofun,nofun,nofun⟩
      rw [Nat.add_mod_right]
      simp [storeSequence, Status.seq]
    · obtain ⟨wq,apart⟩ := old q lo hi last
      rw [update_of_ne last]
      refine (h.position wq).keep Iff.rfl ⟨update_of_ne apart ..,rfl,rfl⟩ (fun _ _ => id) fun head => ?_
      have past : s.released + 1 ≤ q := lo
      omega
  case calls =>
    intro d
    refine (h.calls d).transport le_rfl (Nat.le_succ _) le_rfl fun q wq owns => ?_
    have ne : q ≠ s.released := by
      rintro rfl
      rw [eq] at owns
      cases owns
    have lo := wq.1
    have hi := wq.2
    have last : q ≠ s.released + cfg.queueDepth := by omega
    obtain ⟨-,apart⟩ := old q (by omega) (by omega) last
    exact ⟨⟨by show s.released + 1 ≤ q; omega,by show q < s.released + 1 + cfg.queueDepth; omega⟩,
      update_of_ne last .., update_of_ne apart .., rfl, rfl⟩
  case consumer => exact batchAt_ok rfl (by show s.released + 1 = s.mem.consumerPos + (n + 1); omega)

section

variable [DecidableEq ι] {place : ι → Place} (h : RingInv cfg req s st) (l : LogInv cfg req s st place)
include h l

theorem consumer_local {m' : Memory α} (ring : m'.ring = s.mem.ring)
    (prod : m'.producerPos = s.mem.producerPos) (up : s.mem.consumerPos ≤ m'.consumerPos)
    (cons : m'.consumerPos ≤ s.released) (busy : s.cpc.busy = true → cpc'.busy = true)
    (releasing : cpc'.releasing = s.cpc.releasing) (ok : ConsumerOk req { s with mem := m', cpc := cpc' } st cpc') :
    Inv cfg req { s with mem := m', cpc := cpc' } := by
  refine ⟨st,place,?_,l.keep (fun _ _ => rfl) (fun _ => rfl) releasing⟩
  have nodes : ∀ j, SameNode s { s with mem := m', cpc := cpc' } j := fun j => ⟨congrFun ring j,rfl,rfl⟩
  refine .of_positions (prod.trans h.prodPos) h.claimPos cons h.released_le h.room (fun q win => ?_) (fun d => ?_) ok
  · exact (h.position win).keep Iff.rfl (nodes _) (fun _ _ => id) fun head => ⟨head.1,busy head.2⟩
  · exact (h.calls d).transport le_rfl le_rfl up fun q win _ => ⟨win,rfl,nodes _⟩

theorem take_step (here : s.cpc = .casSeq i consPos n)
    (seq : (s.mem.ring (consPos % cfg.queueDepth)).sequence = consPos + 1) :
    Inv cfg req { s with
      mem := s.mem.storeSequence (consPos % cfg.queueDepth) (consPos + 1 + cfg.queueDepth),
      cpc := .readHeader i consPos n } := by
  have two := cfg.queueDepth_two_le
  have call := h.consumer
  rw [here] at call
  obtain ⟨rfl,batch⟩ := call
  obtain ⟨win,m,eq⟩ := h.published_of_seq (by omega) seq
  refine ⟨update st s.released (.consuming (some m)),place,?_,?_⟩
  · refine h.consume (n := { s.mem.ring (s.released % cfg.queueDepth) with
        sequence := s.released + 1 + cfg.queueDepth }) win (by simp [eq]) (by rw [eq]; rfl)
      rfl rfl rfl rfl ?_ rfl rfl ?_
    · rintro m' ⟨⟩
      rw [eq]
      rfl
    · exact ⟨rfl,batch,m,update_self ..⟩
  · exact l.keep (fun q _ => message_update (by rw [eq]; rfl) q) (fun _ => rfl) (by rw [here]; rfl)

theorem dispatch_step {header : MessageHeader} {by' : Option ι}
    (here : s.cpc = .readPayload i consPos n header by') :
    Inv cfg req { s with
      cpc := .release i consPos n,
      dispatched := s.dispatched ++ [⟨consPos, ⟨header, (s.mem.ring (consPos % cfg.queueDepth)).payload⟩,
        by', s.payloadBy (consPos % cfg.queueDepth)⟩] } := by
  have two := cfg.queueDepth_two_le
  have call := h.consumer
  rw [here] at call
  obtain ⟨rfl,batch,m,eq,rfl,id,rfl⟩ := call
  have win : InWindow cfg s s.released := ⟨le_rfl,by omega⟩
  obtain ⟨-,⟨writer,payload⟩,-⟩ := h.content _ m win (by rw [eq]; rfl)
  have seq := h.sequence _ win
  rw [eq] at seq
  refine ⟨update st s.released (.consuming none),update place m .dispatched,?_,?_⟩
  · refine h.consume (n := s.mem.ring (s.released % cfg.queueDepth)) win (by simp [eq])
      (by rw [eq]; rfl) seq rfl rfl rfl (by simp)
      (by simp only [Memory.setNode, update_eq_self]; rfl) rfl ?_
    exact ⟨rfl,batch,update_self ..⟩
  · exact l.dispatch win (by rw [eq]; rfl) (by rw [here]; rfl) rfl rfl ⟨id,by rw [payload]; rfl⟩ writer

theorem release_step (here : s.cpc = .release i consPos n) : Inv cfg req { s with
      mem := s.mem.storeSequence (s.released % cfg.queueDepth) (s.released + cfg.queueDepth),
      released := s.released + 1,
      cpc := batchAt cfg (i + 1) (s.released + 1) (n + 1) } := by
  have call := h.consumer
  rw [here] at call
  refine ⟨_,place,h.release here,?_⟩
  exact l.release (by rw [call.2.2]; rfl) (by rw [update_self]; rfl)
    (fun q ne => update_of_ne ne ..) (by rw [here]; rfl) (batchAt_releasing ..)

/-- One step of the consumer. -/
theorem consumer_step (small : Unwrapped cfg s) : Inv cfg req (consumerNext cfg s) := by
  unfold Unwrapped at small
  have two := cfg.queueDepth_two_le
  have call := h.consumer
  have behind := h.released_le
  cases here : s.cpc <;> simp only [consumerNext, here, Config.index_eq] <;> rw [here] at call
  case idle last =>
    have caught : s.mem.consumerPos = s.released := call
    exact consumer_local h l rfl rfl le_rfl h.cons_le (by rw [here]; simp [busy])
      (by rw [here, batchAt_releasing]; rfl) (batchAt_ok caught (by simpa using caught.symm))
  case casSeq i consPos n =>
    obtain ⟨at_head,batch⟩ := call
    rw [wrap32_of_lt (n := consPos + 1) (by omega)]
    split
    · rw [wrap32_of_lt (by omega)]
      exact take_step h l here ‹_›
    · exact consumer_local h l rfl rfl le_rfl h.cons_le (by rw [here]; simp [busy])
        (by rw [here, finishBatch_releasing]; rfl) (finishBatch_ok at_head batch)
  case readHeader i consPos n =>
    obtain ⟨rfl,batch,m,eq⟩ := call
    have win : InWindow cfg s s.released := ⟨le_rfl,by omega⟩
    obtain ⟨⟨writer,id,header⟩,-⟩ := h.content _ m win (by rw [eq]; rfl)
    exact consumer_local h l rfl rfl le_rfl h.cons_le (fun _ => rfl) (by rw [here]; rfl)
      ⟨rfl,batch,m,eq,writer,id,header⟩
  case readPayload => exact dispatch_step h l here
  case release i consPos n =>
    obtain ⟨rfl,batch,eq⟩ := call
    rw [wrap32_of_lt (n := s.released + cfg.queueDepth) (by omega), wrap32_of_lt (n := s.released + 1) (by omega)]
    exact release_step h l here
  case storePos consPos n =>
    obtain ⟨rfl,batch⟩ := call
    exact consumer_local h l rfl rfl h.cons_le le_rfl (by rw [here]; simp [busy]) (by rw [here]; rfl) rfl
  case addProcessed n =>
    exact consumer_local h l rfl rfl le_rfl h.cons_le (by rw [here]; simp [busy]) (by rw [here]; rfl) call

end

end Newosp.Bus
