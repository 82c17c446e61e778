import Newosp.Lib.TicketRing
import Newosp.Shm.RingBuffer

/-!
# Every pushed message is popped once, whole and in order

Positions are followed as unbounded numbers; the code sees them modulo `2 ^ 32`. A claim is safe because the
compare-exchange finds `producer_pos_` as loaded: with fewer than `2 ^ 32` claims in between, nobody has claimed since.
-/

namespace Newosp.Shm.Ring
open Lib List Function

variable {ι : Type} {cfg : Config} {req : ι → List UInt8} {s s' : State ι} {c : ι} {pc : PC} {slot : Slot} {p : Nat}
  {i : Nat}

section

variable (cfg)

theorem Config.slotCount_two_le : 2 ≤ cfg.slotCount := Nat.pow_le_pow_right Nat.two_pos cfg.two_le

theorem Config.slotCount_le : cfg.slotCount ≤ 2147483648 := Nat.pow_le_pow_right Nat.two_pos cfg.word

theorem Config.index_wrap32 (p : Nat) : cfg.index (wrap32 p) = p % cfg.slotCount :=
  wrap32_mask (by have := cfg.word; omega) p

end

section

variable (cfg req)

/-- The slot has the byte of the message at `i`. -/
def ByteOk (msg : List UInt8) (data : Nat → UInt8) (i : Nat) : Prop := ∀ byte, msg[i]? = some byte → data i = byte

def Intact (msg : List UInt8) (slot : Slot) : Prop := slot.size = msg.length ∧ ∀ i, ByteOk msg slot.data i

def PC.claimed : PC → Bool
  | .writeSize _ => true
  | .copy _ _ => true
  | .done true => true
  | _ => false

/-- What the slot of position `p` holds when the call that claimed it is at this program counter. -/
def SlotFor (msg : List UInt8) (slot : Slot) (p : Nat) : PC → Prop
  | .writeSize pos => pos = wrap32 p ∧ slot.sequence = wrap32 p
  | .copy pos written => pos = wrap32 p ∧ slot.sequence = wrap32 p ∧ slot.size = msg.length ∧
      ∀ i ∈ written, ByteOk msg slot.data i
  | .done true => slot.sequence = wrap32 (p + 1) ∧ Intact msg slot
  | _ => False

/-- What call `c` knows of the position it loaded. -/
def CallOk (s : State ι) (c : ι) : PC → Prop
  | .loadSeq pos => pos = wrap32 (s.loaded c) ∧ s.loaded c ≤ s.claims.length
  | .casPos pos => pos = wrap32 (s.loaded c) ∧ s.loaded c ≤ s.claims.length ∧
      (s.loaded c = s.claims.length → s.claims.length < s.popped.length + cfg.slotCount)
  | _ => True

/-- The oldest position that is not popped is published by call `c`. -/
def Head (s : State ι) (c : ι) : Prop := s.claims[s.popped.length]? = some c ∧ s.pc c = .done true

def ConsumerOk (s : State ι) : ConsumerPC → Prop
  | .idle => s.mem.consumerPos = wrap32 s.popped.length
  | .loadSeq pos => s.mem.consumerPos = wrap32 s.popped.length ∧ pos = wrap32 s.popped.length
  | .readSize pos => s.mem.consumerPos = wrap32 s.popped.length ∧ pos = wrap32 s.popped.length ∧ ∃ c, Head s c
  | .copy pos size buffer read => s.mem.consumerPos = wrap32 s.popped.length ∧ pos = wrap32 s.popped.length ∧
      ∃ c, Head s c ∧ size = (req c).length ∧ ∀ i ∈ read, ByteOk (req c) buffer i
  | .storePos pos => ∃ r, s.popped.length = r + 1 ∧ pos = wrap32 r

/-- The positions are handed out in order, and what the calls and the consumer know is right. -/
structure Inv (s : State ι) : Prop extends
    TicketRing cfg.slotCount (fun slot p => slot.sequence = wrap32 p) (fun c => SlotFor (req c)) PC.claimed
      (.done true) s.claims s.popped.length s.mem.slots s.pc where
  producerPos : s.mem.producerPos = wrap32 s.claims.length
  order : s.popped = (s.claims.take s.popped.length).map req
  calls : ∀ c, CallOk cfg s c (s.pc c)
  consumer : ConsumerOk req s s.cpc

end

section

variable {buffer : Nat → UInt8} {cpc : ConsumerPC} {msg : List UInt8}

theorem CallOk.keep (h : CallOk cfg s c pc) (loaded : s'.loaded c = s.loaded c)
    (claims : s.claims.length ≤ s'.claims.length) (popped : s.popped.length ≤ s'.popped.length) :
    CallOk cfg s' c pc := by
  cases pc <;> simp only [CallOk, loaded] at h ⊢
  case loadSeq => exact ⟨h.1,by omega⟩
  case casPos => exact ⟨h.1,by omega,fun eq => by omega⟩

theorem ConsumerOk.keep (h : ConsumerOk req s cpc)
    (consumerPos : s'.mem.consumerPos = s.mem.consumerPos) (popped : s'.popped = s.popped)
    (head : ∀ d, Head s d → Head s' d) : ConsumerOk req s' cpc := by
  cases cpc <;> simp only [ConsumerOk, consumerPos, popped] at h ⊢
  case readSize =>
    obtain ⟨pos,eq,d,top⟩ := h
    exact ⟨pos,eq,d,head d top⟩
  case copy =>
    obtain ⟨pos,eq,d,top,rest⟩ := h
    exact ⟨pos,eq,d,head d top,rest⟩
  all_goals exact h

theorem SlotFor.sequence (h : SlotFor msg slot p pc) :
    slot.sequence = wrap32 p ∧ pc ≠ .done true ∨ slot.sequence = wrap32 (p + 1) ∧ pc = .done true := by
  cases pc with
  | writeSize pos => exact .inl ⟨h.2,nofun⟩
  | copy pos written => exact .inl ⟨h.2.1,nofun⟩
  | done result =>
    cases result with
    | true => exact .inr ⟨h.1,rfl⟩
    | false => exact h.elim
  | _ => exact h.elim

theorem Inv.room_of_seq (h : Inv cfg req s)
    (seq : (s.mem.slots (s.claims.length % cfg.slotCount)).sequence = wrap32 s.claims.length) :
    s.claims.length < s.popped.length + cfg.slotCount := by
  by_contra full
  have two := cfg.slotCount_two_le
  have small := cfg.slotCount_le
  have room := h.room
  have top : s.claims.length = s.popped.length + cfg.slotCount := by omega
  -- the slot is still that of the oldest position, which is claimed or published
  obtain ⟨d,oldest⟩ : ∃ d, s.claims[s.popped.length]? = some d := ⟨_,getElem?_eq_getElem (by omega)⟩
  have held := h.held _ d le_rfl oldest
  rw [top, Nat.add_mod_right] at seq
  rcases held.sequence with ⟨unpublished,-⟩ | ⟨published,-⟩
  · have := wrap32_inj (by omega) (by omega) (seq.symm.trans unpublished)
    omega
  · have := wrap32_inj (by omega) (by omega) (seq.symm.trans published)
    omega

theorem Inv.head_of_seq (h : Inv cfg req s)
    (seq : (s.mem.slots (s.popped.length % cfg.slotCount)).sequence = wrap32 (s.popped.length + 1)) :
    ∃ d, Head s d := by
  have two := cfg.slotCount_two_le
  have differ : wrap32 s.popped.length ≠ wrap32 (s.popped.length + 1) := by
    intro eq
    have := wrap32_inj (by omega) (by omega) eq
    omega
  rcases lt_or_ge s.popped.length s.claims.length with lt | ge
  · have oldest : s.claims[s.popped.length]? = some s.claims[s.popped.length] := getElem?_eq_getElem lt
    have held := h.held _ _ le_rfl oldest
    rcases held.sequence with ⟨unpublished,-⟩ | ⟨-,published⟩
    · exact absurd (unpublished.symm.trans seq) differ
    · exact ⟨_,oldest,published⟩
  · exact absurd ((h.free _ ge (by omega)).symm.trans seq) differ

theorem Inv.consume (h : Inv cfg req s) {consumerPos : Nat}
    (ok : ConsumerOk req { s with mem := { s.mem with consumerPos := consumerPos }, cpc := cpc } cpc) :
    Inv cfg req { s with mem := { s.mem with consumerPos := consumerPos }, cpc := cpc } := { h with consumer := ok }

theorem map_buffer (bytes : ∀ i < msg.length, ByteOk msg buffer i) : (range msg.length).map buffer = msg := by
  refine ext_getElem (by simp) fun i lt lt' => ?_
  rw [getElem_map, getElem_range]
  exact bytes i lt' _ (getElem?_eq_getElem lt')

theorem Inv.release (h : Inv cfg req s) {pos size : Nat} {read : Finset Nat}
    (here : s.cpc = .copy pos size buffer read) (complete : ∀ i < size, i ∈ read)
    (seq : slot.sequence = wrap32 (s.popped.length + cfg.slotCount)) :
    Inv cfg req { s with mem := s.mem.setSlot (s.popped.length % cfg.slotCount) slot,
                         popped := s.popped ++ [(range size).map buffer], cpc := .storePos pos } := by
  have consumer := h.consumer
  rw [here] at consumer
  obtain ⟨-,pos_eq,d,⟨oldest,published⟩,rfl,bytes⟩ := consumer
  have message := map_buffer fun i lt => bytes i (complete i lt)
  have length : (s.popped ++ [(range (req d).length).map buffer]).length = s.popped.length + 1 := by simp
  have ring := h.toTicketRing.release oldest published seq
  rw [← length] at ring
  refine { ring with
    producerPos := h.producerPos, order := ?_, calls := ?_, consumer := ⟨s.popped.length,length,pos_eq⟩ }
  · rw [length, take_add_one, map_append, oldest, ← h.order, message]
    rfl
  · exact fun c => (h.calls c).keep rfl le_rfl (by rw [length]; omega)

end

section

/-- A stalled call has fewer than `2 ^ 32` claims between its load and its compare-exchange. -/
def prompt (s : State ι) : Act ι → Prop
  | .producer c _ => ∀ pos, s.pc c = .casPos pos → s.claims.length - s.loaded c < 4294967296
  | _ => True

variable [DecidableEq ι] (h : Inv cfg req s)
include h

theorem Inv.move {pc : PC} {loaded : ι → Nat} (unclaimed : (s.pc c).claimed = false) (unclaimed' : pc.claimed = false)
    (others : ∀ d, d ≠ c → loaded d = s.loaded d) (ok : CallOk cfg { s with loaded := loaded } c pc) :
    Inv cfg req ({ s with loaded := loaded }.goto c pc) := by
  have ring := h.toTicketRing.move (fun d => SlotFor (req d)) unclaimed unclaimed' fun _ _ => rfl
  refine { ring with producerPos := h.producerPos, order := h.order, calls := ?_, consumer := ?_ }
  · refine (forall_update_iff s.pc fun d pc => CallOk cfg _ d pc).2 ⟨ok,fun d ne => ?_⟩
    exact (h.calls d).keep (others d ne) le_rfl le_rfl
  · refine h.consumer.keep rfl rfl fun d top => ⟨top.1,?_⟩
    have other := h.toTicketRing.other unclaimed (mem_of_getElem? top.1)
    exact (update_of_ne other ..).trans top.2

theorem Inv.claim {pos : Nat} (here : s.pc c = .casPos pos) (prompt : s.claims.length - s.loaded c < 4294967296)
    (current : s.mem.producerPos = pos) :
    Inv cfg req ({ s with mem := { s.mem with producerPos := wrap32 (pos + 1) },
                          claims := s.claims ++ [c] }.goto c (.writeSize pos)) := by
  have call := h.calls c
  rw [here] at call
  obtain ⟨loaded,le,fits⟩ := call
  -- nobody has claimed since the load
  have still : s.loaded c = s.claims.length := by
    refine wrap32_inj (by omega) (by omega) ?_
    rw [← loaded, ← current, h.producerPos]
  have room := fits still
  have pos_eq : pos = wrap32 s.claims.length := by rw [loaded, still]
  have unclaimed : (s.pc c).claimed = false := by rw [here]; rfl
  have length : (s.claims ++ [c]).length = s.claims.length + 1 := length_append
  have ring := h.toTicketRing.claim (.writeSize pos) unclaimed rfl room ⟨pos_eq,h.free _ le_rfl room⟩
  refine { ring with producerPos := ?_, order := ?_, calls := ?_, consumer := ?_ }
  · show wrap32 (pos + 1) = wrap32 (s.claims ++ [c]).length
    rw [pos_eq, wrap32_add_left, length]
  · simp only [State.goto, take_append_of_le_length h.le]
    exact h.order
  · refine (forall_update_iff s.pc fun d pc => CallOk cfg _ d pc).2 ⟨trivial,fun d ne => ?_⟩
    exact (h.calls d).keep rfl (by show _ ≤ (s.claims ++ [c]).length; omega) le_rfl
  · refine h.consumer.keep rfl rfl fun d top => ⟨?_,?_⟩
    · exact (getElem?_append_left (List.getElem?_eq_some_iff.1 top.1).1).trans top.1
    · have other := h.toTicketRing.other unclaimed (mem_of_getElem? top.1)
      exact (update_of_ne other ..).trans top.2

theorem Inv.write {slot : Slot} {pc : PC} (late : s.popped.length ≤ p)
    (near : p < s.popped.length + cfg.slotCount) (here : s.claims[p]? = some c) (running : s.pc c ≠ .done true)
    (claimed : pc.claimed = true) (ok : SlotFor (req c) slot p pc) :
    Inv cfg req ({ s with mem := s.mem.setSlot (p % cfg.slotCount) slot }.goto c pc) := by
  have ring := h.toTicketRing.write late near here running claimed ok
  refine { ring with producerPos := h.producerPos, order := h.order, calls := ?_, consumer := ?_ }
  · refine (forall_update_iff s.pc fun d pc => CallOk cfg _ d pc).2 ⟨by cases pc <;> trivial,fun d _ => ?_⟩
    exact (h.calls d).keep rfl le_rfl le_rfl
  · refine h.consumer.keep rfl rfl fun d top => ⟨top.1,?_⟩
    have self : d ≠ c := by
      rintro rfl
      exact running top.2
    exact (update_of_ne self ..).trans top.2

/-- One step of a call outside its `memcpy`. -/
theorem producer_step {spurious : Bool} (guard : prompt s (.producer c spurious))
    (step : producerNext cfg req c spurious s = some s') : Inv cfg req s' := by
  have call := h.calls c
  cases here : s.pc c <;> rw [here] at call <;> simp only [producerNext, here] at step
  case idle | done => cases step
  case loadPos =>
    cases step
    refine h.move (by rw [here]; rfl) rfl (fun d ne => update_of_ne ne ..) ?_
    simp only [CallOk, update_self]
    exact ⟨h.producerPos,le_rfl⟩
  case loadSeq pos =>
    cases step
    refine h.move (by rw [here]; rfl) ?_ (fun _ _ => rfl) ?_
    · split <;> rfl
    · split
      · trivial
      · rename_i matches'
        have seq : (s.mem.slots (cfg.index pos)).sequence = pos := by simpa using matches'
        refine ⟨call.1,call.2,fun still => h.room_of_seq ?_⟩
        rw [call.1, cfg.index_wrap32, still] at seq
        exact seq
  case casPos pos =>
    split at step
    · rename_i success
      cases step
      exact h.claim here (guard pos here) success.1
    · cases step
      exact h.move (by rw [here]; rfl) rfl (fun _ _ => rfl) trivial
  case writeSize pos =>
    cases step
    obtain ⟨p,late,near,at_p,pos_eq,seq⟩ := h.toTicketRing.position here rfl nofun
    rw [pos_eq, cfg.index_wrap32]
    refine h.write late near at_p (by rw [here]; simp) rfl ⟨rfl,seq,rfl,?_⟩
    intro i member
    cases member
  case copy pos written =>
    obtain ⟨complete,⟨⟩⟩ := enabled step
    obtain ⟨p,late,near,at_p,pos_eq,-,size,bytes⟩ := h.toTicketRing.position here rfl nofun
    rw [pos_eq, cfg.index_wrap32]
    refine h.write late near at_p (by rw [here]; simp) rfl ⟨wrap32_add_left p 1,size,fun i byte at_i => ?_⟩
    exact bytes i (complete i (List.getElem?_eq_some_iff.1 at_i).1) byte at_i

theorem copyIn_step (step : copyInNext cfg req c i s = some s') : Inv cfg req s' := by
  unfold copyInNext at step
  split at step
  · rename_i pos written byte here at_i
    cases step
    obtain ⟨p,late,near,at_p,pos_eq,seq,size,bytes⟩ := h.toTicketRing.position here rfl nofun
    rw [pos_eq, cfg.index_wrap32]
    refine h.write late near at_p (by rw [here]; simp) rfl ⟨rfl,seq,size,?_⟩
    intro k member b at_k
    by_cases same : k = i
    · subst same
      rw [at_i] at at_k
      cases at_k
      simp
    · simp only [update_of_ne same]
      exact bytes k (Finset.mem_of_mem_insert_of_ne member same) b at_k
  · cases step

theorem push_step (step : pushNext cfg req c s = some s') : Inv cfg req s' := by
  unfold pushNext at step
  obtain ⟨idle,⟨⟩⟩ := enabled step
  refine h.move (by rw [idle]; rfl) ?_ (fun _ _ => rfl) ?_ <;> split <;> trivial

end

/-- One step of the consumer outside its `memcpy`. -/
theorem consumer_step (h : Inv cfg req s) (step : consumerNext cfg s = some s') : Inv cfg req s' := by
  have consumer := h.consumer
  cases here : s.cpc <;> rw [here] at consumer <;> simp only [consumerNext, here] at step
  case idle => cases step
  case loadSeq pos =>
    cases step
    obtain ⟨stored,rfl⟩ := consumer
    refine h.consume ?_
    split
    · exact stored
    · rename_i published
      have seq : (s.mem.slots (cfg.index (wrap32 s.popped.length))).sequence =
          wrap32 (wrap32 s.popped.length + 1) := by simpa using published
      rw [cfg.index_wrap32, wrap32_add_left] at seq
      exact ⟨stored,rfl,h.head_of_seq seq⟩
  case readSize pos =>
    cases step
    obtain ⟨stored,rfl,d,top⟩ := consumer
    have held := h.held _ d le_rfl top.1
    rw [top.2] at held
    refine h.consume ⟨stored,rfl,d,top,?_,?_⟩
    · rw [cfg.index_wrap32]
      exact held.2.1
    · intro i member
      cases member
  case copy pos size buffer read =>
    obtain ⟨complete,⟨⟩⟩ := enabled step
    rw [consumer.2.1, cfg.index_wrap32]
    rw [consumer.2.1] at here
    exact h.release here complete (wrap32_add_left ..)
  case storePos pos =>
    cases step
    obtain ⟨r,length,rfl⟩ := consumer
    refine h.consume ?_
    show wrap32 (wrap32 r + 1) = wrap32 s.popped.length
    rw [wrap32_add_left, length]

theorem copyOut_step (h : Inv cfg req s) (step : copyOutNext cfg i s = some s') : Inv cfg req s' := by
  have consumer := h.consumer
  unfold copyOutNext at step
  split at step
  · rename_i pos size buffer read here
    rw [here] at consumer
    obtain ⟨stored,rfl,d,top,size_eq,bytes⟩ := consumer
    split at step <;> cases step
    have held := h.held _ d le_rfl top.1
    rw [top.2] at held
    refine h.consume ⟨stored,rfl,d,top,size_eq,?_⟩
    intro k member byte at_k
    by_cases same : k = i
    · subst same
      rw [update_self, cfg.index_wrap32]
      exact held.2.2 k byte at_k
    · rw [update_of_ne same]
      exact bytes k (Finset.mem_of_mem_insert_of_ne member same) byte at_k
  · cases step

theorem pop_step (h : Inv cfg req s) (step : popNext s = some s') : Inv cfg req s' := by
  have consumer := h.consumer
  unfold popNext at step
  split at step
  · rename_i idle
    cases step
    rw [idle] at consumer
    exact h.consume ⟨consumer,consumer⟩
  · cases step

section

theorem init_inv (cfg : Config) (req : ι → List UInt8) (garbage : Nat → Nat → UInt8) :
    Inv cfg req (State.init garbage) := by
  have small := cfg.slotCount_le
  refine ⟨.init (fun p lt => ?_) fun _ => rfl,rfl,rfl,fun _ => trivial,rfl⟩
  rw [wrap32_of_lt (by omega)]
  rfl

variable [DecidableEq ι] {garbage : Nat → Nat → UInt8}

/-- Every step of the ring keeps the invariant. -/
theorem next_inv {a : Act ι} (h : Inv cfg req s) (guard : prompt s a)
    (step : next cfg req a s = some s') : Inv cfg req s' := by
  cases a with
  | push c => exact push_step h step
  | producer c spurious => exact producer_step h guard step
  | copyIn c i => exact copyIn_step h step
  | pop => exact pop_step h step
  | consumer => exact consumer_step h step
  | copyOut i => exact copyOut_step h step

theorem reach_inv (h : Reach (machine cfg req garbage) prompt s) : Inv cfg req s := by
  refine h.invariant (I := Inv cfg req) (init_inv cfg req garbage) ?_
  intro s t a _ inv guard step
  exact next_inv inv guard step

variable (cfg req) in
/-- The pops return the messages of the claims, in claim order and each once, and what is pushed and not popped sits
whole in its slot. -/
structure Delivered (s : State ι) : Prop where
  inOrder : s.popped = (s.claims.take s.popped.length).map req
  claimed : ∀ c, s.pc c = .done true → s.claims.count c = 1
  once : ∀ c, (s.claims.take s.popped.length).count c ≤ 1
  intact : ∀ p c, s.popped.length ≤ p → s.claims[p]? = some c → s.pc c = .done true →
    (s.mem.slots (p % cfg.slotCount)).sequence = wrap32 (p + 1) ∧
    Intact (req c) (s.mem.slots (p % cfg.slotCount))

/-- **In every reachable state the ring has delivered what it popped and keeps the rest**, if every call
makes its compare-exchange fewer than `2 ^ 32` claims after its load. -/
theorem pushes_delivered_once (h : Reach (machine cfg req garbage) prompt s) : Delivered cfg req s := by
  have inv := reach_inv h
  constructor
  case inOrder => exact inv.order
  case claimed =>
    intro c returned
    exact count_eq_one_of_mem inv.nodup ((inv.claimed c).2 (by rw [returned]; rfl))
  case once =>
    intro c
    exact nodup_iff_count_le_one.1 (inv.nodup.sublist (take_sublist ..)) c
  case intact =>
    intro p c late here returned
    have held := inv.held p c late here
    rw [returned] at held
    exact held

end

def slots2 : Config := ⟨4, 1, Nat.one_pos, Nat.le_add_left 1 30⟩

def twoBytes (c : Fin 2) : List UInt8 := [7, UInt8.ofNat c.val]

/-- A push copies its bytes backwards; the second push waits in its `memcpy` while the first is popped. -/
theorem pushes_delivered_once_overlapping : ∃ s : State (Fin 2),
    Reach (machine slots2 twoBytes fun _ _ => 9) prompt s ∧ s.popped = [[7, 1]] ∧ s.claims = [1, 0] ∧
    Delivered slots2 twoBytes s := by
  have sound : ∀ (s : State (Fin 2)) (a : Act (Fin 2)), (match a with
      | .producer c _ => decide (s.claims.length - s.loaded c < 4294967296)
      | _ => true) = true → prompt s a := by
    intro s a passes
    cases a
    case producer => exact fun _ _ => of_decide_eq_true passes
    all_goals trivial
  obtain ⟨s,reached,popped,claims⟩ := reach_of_run (machine slots2 twoBytes fun _ _ => 9) sound
      ([.push 1, .producer 1 false, .producer 1 false, .producer 1 false, .producer 1 false,
        .copyIn 1 1, .copyIn 1 0, .push 0, .producer 0 false, .producer 0 false, .producer 0 true,
        .producer 0 false, .producer 0 false, .producer 0 false, .producer 0 false, .copyIn 0 1,
        .producer 1 false, .pop, .consumer, .consumer, .copyOut 0, .copyOut 1, .consumer, .consumer])
      (fun s => s.popped = [[7, 1]] ∧ s.claims = [1, 0]) (by decide +kernel)
  exact ⟨s,reached,popped,claims,pushes_delivered_once reached⟩

end Newosp.Shm.Ring
