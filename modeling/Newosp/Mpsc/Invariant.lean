import Newosp.Lib.TicketRing
import Newosp.Mpsc.EventQueue

/-!
# What every slot of the queue holds

Positions are followed as unbounded numbers; the code sees them modulo `2 ^ 32` and compares them as signed values. The
slot of a position loaded long ago shows at most `depth - 1` positions past the claims made since, and this has to stay
below `2 ^ 31` for the sign of the difference to be right.
-/

namespace Newosp.Mpsc
open Lib List Function

variable {ι β : Type} {n pos : Nat} {cfg : Config} {s s' : State ι n β} {c : ι} {pc : PC n} {slot : Slot n β}
  {cpc : ConsumerPC n β} {event : Entry n β} {p : Nat} {i : Fin n}

section

variable (cfg)

theorem Config.depth_two_le : 2 ≤ cfg.depth := Nat.pow_le_pow_right Nat.two_pos cfg.two_le

theorem Config.depth_le : cfg.depth ≤ 2147483648 := Nat.pow_le_pow_right Nat.two_pos cfg.word

theorem Config.index_wrap32 (p : Nat) : cfg.index (wrap32 p) = p % cfg.depth :=
  wrap32_mask (by have := cfg.word; omega) p

end

section

variable (cfg)

def PC.claimed : PC n → Bool
  | .copy _ _ => true
  | .done true => true
  | _ => false

/-- What the slot of position `p` holds when the call that claimed it is at this program counter. -/
def SlotFor (event : Entry n β) (slot : Slot n β) (p : Nat) : PC n → Prop
  | .copy pos written => pos = wrap32 p ∧ slot.sequence = wrap32 p ∧ ∀ i ∈ written, slot.event i = event i
  | .done true => slot.sequence = wrap32 (p + 1) ∧ slot.event = event
  | _ => False

/-- What call `c` knows of the position it loaded. -/
def CallOk (s : State ι n β) (c : ι) : PC n → Prop
  | .loadSeq pos => pos = wrap32 (s.loaded c) ∧ s.loaded c ≤ s.claims.length
  | .casPos pos => pos = wrap32 (s.loaded c) ∧ s.loaded c ≤ s.claims.length ∧
      (s.loaded c = s.claims.length → s.claims.length < s.popped.length + cfg.depth)
  | _ => True

/-- The oldest position that is not popped is published by call `c`. -/
def Head (s : State ι n β) (c : ι) : Prop := s.claims[s.popped.length]? = some c ∧ s.pc c = .done true

def ConsumerOk (s : State ι n β) : ConsumerPC n β → Prop
  | .idle => s.mem.consumerPos = wrap32 s.popped.length
  | .loadSeq pos _ => s.mem.consumerPos = wrap32 s.popped.length ∧ pos = wrap32 s.popped.length
  | .copy pos out read => s.mem.consumerPos = wrap32 s.popped.length ∧ pos = wrap32 s.popped.length ∧
      ∃ c, Head s c ∧ ∀ i ∈ read, out i = s.arg c i
  | .storePos pos out => ∃ earlier, s.popped = earlier ++ [out] ∧ pos = wrap32 earlier.length
  | .done none => s.mem.consumerPos = wrap32 s.popped.length
  | .done (some out) => s.mem.consumerPos = wrap32 s.popped.length ∧ ∃ earlier, s.popped = earlier ++ [out]

/-- The positions are handed out in order, and what the calls and the consumer know is right. -/
structure Inv (s : State ι n β) : Prop extends
    TicketRing cfg.depth (fun slot p => slot.sequence = wrap32 p) (fun c => SlotFor (s.arg c)) PC.claimed
      (.done true) s.claims s.popped.length s.mem.slots s.pc where
  producerPos : s.mem.producerPos = wrap32 s.claims.length
  order : s.popped = (s.claims.take s.popped.length).map s.arg
  calls : ∀ c, CallOk cfg s c (s.pc c)
  consumer : ConsumerOk s s.cpc

/-- A stalled call: at most `2 ^ 31 - depth` positions are claimed between its load of `producer_pos_` and its load of
the sequence number, and fewer than `2 ^ 32` before its compare-exchange. -/
def recent (s : State ι n β) : Act ι n β → Prop
  | .producer c _ => match s.pc c with
    | .loadSeq _ => s.claims.length - s.loaded c + cfg.depth ≤ 2147483648
    | .casPos _ => s.claims.length - s.loaded c < 4294967296
    | _ => True
  | _ => True

end

theorem CallOk.keep (h : CallOk cfg s c pc) (loaded : s'.loaded c = s.loaded c)
    (claims : s.claims.length ≤ s'.claims.length) (popped : s.popped.length ≤ s'.popped.length) :
    CallOk cfg s' c pc := by
  cases pc <;> simp only [CallOk, loaded] at h ⊢
  case loadSeq => exact ⟨h.1,by omega⟩
  case casPos => exact ⟨h.1,by omega,fun eq => by omega⟩

theorem ConsumerOk.keep (h : ConsumerOk s cpc)
    (consumerPos : s'.mem.consumerPos = s.mem.consumerPos) (popped : s'.popped = s.popped)
    (head : ∀ d, Head s d → Head s' d ∧ s'.arg d = s.arg d) : ConsumerOk s' cpc := by
  cases cpc with
  | copy pos out read =>
    obtain ⟨stored,at_,d,top,words⟩ := h
    obtain ⟨top',same⟩ := head d top
    refine ⟨by rw [consumerPos, popped]; exact stored,by rw [popped]; exact at_,d,top',?_⟩
    rw [same]
    exact words
  | done out => cases out <;> simpa only [ConsumerOk, consumerPos, popped] using h
  | _ => simpa only [ConsumerOk, consumerPos, popped] using h

theorem SlotFor.sequence (h : SlotFor event slot p pc) :
    slot.sequence = wrap32 p ∧ pc ≠ .done true ∨ slot.sequence = wrap32 (p + 1) ∧ pc = .done true := by
  cases pc with
  | copy pos written => exact .inl ⟨h.2.1,nofun⟩
  | done result =>
    cases result with
    | true => exact .inr ⟨h.1,rfl⟩
    | false => exact h.elim
  | _ => exact h.elim

section

variable (h : Inv cfg s)
include h

theorem Inv.shown (pos : Nat) : ∃ p, s.popped.length ≤ p ∧ p < s.popped.length + cfg.depth ∧
    p % cfg.depth = pos % cfg.depth ∧ ((s.mem.slots (pos % cfg.depth)).sequence = wrap32 p ∨
      (s.mem.slots (pos % cfg.depth)).sequence = wrap32 (p + 1) ∧ p < s.claims.length) := by
  have two := cfg.depth_two_le
  obtain ⟨low,high,same⟩ := cover_mod (show 0 < cfg.depth by omega) s.popped.length pos
  refine ⟨_,low,high,same,?_⟩
  rw [← same]
  generalize s.popped.length + (pos + cfg.depth - s.popped.length % cfg.depth) % cfg.depth = p at *
  rcases lt_or_ge p s.claims.length with claimed | free
  · have held := h.held p _ low (getElem?_eq_getElem claimed)
    rcases held.sequence with ⟨seq,-⟩ | ⟨seq,-⟩
    · exact .inl seq
    · exact .inr ⟨seq,claimed⟩
  · exact .inl (h.free p free high)

theorem Inv.room_of_seq (seq : sub32 (s.mem.slots (s.claims.length % cfg.depth)).sequence
    (wrap32 s.claims.length) = 0) : s.claims.length < s.popped.length + cfg.depth := by
  have two := cfg.depth_two_le
  have small := cfg.depth_le
  have le := h.le
  have room := h.room
  obtain ⟨p,low,high,same,shown⟩ := h.shown s.claims.length
  rcases shown with eq | ⟨eq,claimed⟩
  · rw [eq, sub32_wrap32_eq_zero (by omega) (by omega)] at seq
    omega
  · rw [eq, sub32_wrap32_eq_zero (by omega) (by omega)] at seq
    -- then the position and the next one share a slot
    rw [← seq] at same
    exact absurd same.symm (index_succ_ne two)

/-- A refused push finds the queue full. -/
theorem Inv.full_of_negative (old : pos ≤ s.claims.length) (near : s.claims.length - pos + cfg.depth ≤ 2147483648)
    (nonzero : sub32 (s.mem.slots (pos % cfg.depth)).sequence (wrap32 pos) ≠ 0)
    (negative : negative32 (sub32 (s.mem.slots (pos % cfg.depth)).sequence (wrap32 pos))) :
    s.claims.length = s.popped.length + cfg.depth := by
  have two := cfg.depth_two_le
  have le := h.le
  have room := h.room
  by_contra notFull
  obtain ⟨p,low,high,same,shown⟩ := h.shown pos
  -- the window has not fallen behind a position that is claimed or next
  have ahead : pos ≤ p := by
    by_contra behind
    have := index_inj (K := cfg.depth) (a := p) (b := pos) (by omega) (by omega) same
    omega
  rcases shown with eq | ⟨eq,claimed⟩
  · rw [eq] at nonzero negative
    rw [negative32_sub32 (by omega) (by omega)] at negative
    omega
  · rw [eq, negative32_sub32 (by omega) (by omega)] at negative
    omega

theorem Inv.head_of_seq
    (seq : ¬ negative32 (sub32 (s.mem.slots (s.popped.length % cfg.depth)).sequence (wrap32 (s.popped.length + 1)))) :
    ∃ d, Head s d := by
  have two := cfg.depth_two_le
  have unpublished : ¬ ¬ negative32 (sub32 (wrap32 s.popped.length) (wrap32 (s.popped.length + 1))) := by
    rw [not_not, negative32_sub32 (by omega) (by omega)]
    omega
  rcases lt_or_ge s.popped.length s.claims.length with lt | ge
  · have oldest : s.claims[s.popped.length]? = some s.claims[s.popped.length] := getElem?_eq_getElem lt
    have held := h.held _ _ le_rfl oldest
    rcases held.sequence with ⟨eq,-⟩ | ⟨-,published⟩
    · rw [eq] at seq
      exact absurd seq unpublished
    · exact ⟨_,oldest,published⟩
  · rw [h.free _ ge (by omega)] at seq
    exact absurd seq unpublished

theorem Inv.empty_of_negative
    (seq : negative32 (sub32 (s.mem.slots (s.popped.length % cfg.depth)).sequence (wrap32 (s.popped.length + 1)))) :
    s.claims.length = s.popped.length ∨ ∃ d, s.claims[s.popped.length]? = some d ∧ s.pc d ≠ .done true := by
  have le := h.le
  rcases lt_or_ge s.popped.length s.claims.length with lt | ge
  · have oldest : s.claims[s.popped.length]? = some s.claims[s.popped.length] := getElem?_eq_getElem lt
    have held := h.held _ _ le_rfl oldest
    rcases held.sequence with ⟨-,running⟩ | ⟨eq,-⟩
    · exact .inr ⟨_,oldest,running⟩
    · rw [eq, negative32_sub32 (by omega) (by omega)] at seq
      omega
  · exact .inl (by omega)

end

section

variable {out : Entry n β}

section

variable (h : Inv cfg s)
include h

theorem Inv.consume {consumerPos : Nat}
    (ok : ConsumerOk { s with mem := { s.mem with consumerPos := consumerPos }, cpc := cpc } cpc) :
    Inv cfg { s with mem := { s.mem with consumerPos := consumerPos }, cpc := cpc } := { h with consumer := ok }

theorem Inv.release {read : Finset (Fin n)}
    (here : s.cpc = .copy pos out read) (complete : ∀ i, i ∈ read)
    (seq : slot.sequence = wrap32 (s.popped.length + cfg.depth)) :
    Inv cfg { s with mem := s.mem.setSlot (s.popped.length % cfg.depth) slot, popped := s.popped ++ [out],
                     cpc := .storePos pos out } := by
  have consumer := h.consumer
  rw [here] at consumer
  obtain ⟨-,pos_eq,d,⟨oldest,published⟩,words⟩ := consumer
  obtain rfl : out = s.arg d := funext fun i => words i (complete i)
  have length : (s.popped ++ [s.arg d]).length = s.popped.length + 1 := length_append
  have ring := h.toTicketRing.release oldest published seq
  rw [← length] at ring
  refine { ring with producerPos := h.producerPos, order := ?_, calls := ?_, consumer := ⟨s.popped,rfl,pos_eq⟩ }
  · rw [length, take_add_one, map_append, oldest, ← h.order]
    rfl
  · exact fun c => (h.calls c).keep rfl le_rfl (by rw [length]; omega)

/-- One step of the consumer outside the copy. -/
theorem consumer_step (step : consumerNext cfg s = some s') : Inv cfg s' := by
  have consumer := h.consumer
  cases here : s.cpc <;> simp only [consumerNext, here] at step
  case idle | done out => cases step
  case loadSeq pos out =>
    cases step
    rw [here] at consumer
    obtain ⟨stored,rfl⟩ := consumer
    apply h.consume
    split
    · exact stored
    · rename_i published
      rw [cfg.index_wrap32, wrap32_add_left] at published
      obtain ⟨d,top⟩ := h.head_of_seq published
      exact ⟨stored,rfl,d,top,fun i member => absurd member (Finset.notMem_empty i)⟩
  case copy pos out read =>
    rw [here] at consumer
    obtain ⟨complete,⟨⟩⟩ := enabled step
    rw [consumer.2.1, cfg.index_wrap32]
    rw [consumer.2.1] at here
    exact h.release here complete (wrap32_add_left ..)
  case storePos pos out =>
    cases step
    rw [here] at consumer
    obtain ⟨earlier,popped,rfl⟩ := consumer
    refine h.consume ⟨?_,earlier,popped⟩
    show wrap32 (wrap32 earlier.length + 1) = wrap32 s.popped.length
    rw [wrap32_add_left, popped, length_append, length_singleton]

theorem copyOut_step (step : copyOutNext cfg i s = some s') : Inv cfg s' := by
  have consumer := h.consumer
  unfold copyOutNext at step
  split at step
  · rename_i pos out read here
    cases step
    rw [here] at consumer
    obtain ⟨stored,rfl,d,top,words⟩ := consumer
    have held := h.held _ d le_rfl top.1
    rw [top.2] at held
    apply h.consume
    refine ⟨stored,rfl,d,top,?_⟩
    intro k member
    by_cases same : k = i
    · subst same
      rw [update_self, cfg.index_wrap32, held.2]
    · rw [update_of_ne same]
      exact words k (Finset.mem_of_mem_insert_of_ne member same)
  · cases step

theorem Inv.consumerPos (settled : ∀ pos out, s.cpc ≠ .storePos pos out) :
    s.mem.consumerPos = wrap32 s.popped.length := by
  have consumer := h.consumer
  cases here : s.cpc <;> rw [here] at consumer
  case idle => exact consumer
  case loadSeq | copy => exact consumer.1
  case storePos pos out => exact absurd here (settled pos out)
  case done out =>
    cases out with
    | none => exact consumer
    | some out => exact consumer.1

theorem pop_step (step : popNext out s = some s') : Inv cfg s' := by
  rw [popNext_eq] at step
  obtain ⟨rests,⟨⟩⟩ := enabled step
  have stored := h.consumerPos (ConsumerPC.settled rests)
  exact h.consume ⟨stored,stored⟩

end

end

section

variable [DecidableEq ι] (h : Inv cfg s)
include h

theorem Inv.move {pc : PC n} {loaded : ι → Nat} {arg : ι → Entry n β} (unclaimed : (s.pc c).claimed = false)
    (unclaimed' : pc.claimed = false) (others : ∀ d, d ≠ c → loaded d = s.loaded d)
    (args : ∀ d, d ≠ c → arg d = s.arg d) (ok : CallOk cfg { s with loaded := loaded } c pc) :
    Inv cfg ({ s with loaded := loaded, arg := arg }.goto c pc) := by
  have outside : ∀ {d}, d ∈ s.claims → d ≠ c := h.toTicketRing.other unclaimed
  have ring := h.toTicketRing.move (fun d => SlotFor (arg d)) unclaimed unclaimed' fun d ne => by rw [args d ne]
  refine { ring with producerPos := h.producerPos, order := ?_, calls := ?_, consumer := ?_ }
  · show s.popped = (s.claims.take s.popped.length).map arg
    have popped : (s.claims.take s.popped.length).map arg = (s.claims.take s.popped.length).map s.arg := by
      apply map_congr_left
      intro d member
      exact args d (outside (mem_of_mem_take member))
    rw [popped]
    exact h.order
  · refine (forall_update_iff s.pc fun d pc => CallOk cfg _ d pc).2 ⟨?_,fun d ne => ?_⟩
    · exact ok.keep rfl le_rfl le_rfl
    · exact (h.calls d).keep (others d ne) le_rfl le_rfl
  · refine h.consumer.keep rfl rfl ?_
    intro d top
    have other := outside (mem_of_getElem? top.1)
    exact ⟨⟨top.1,(update_of_ne other ..).trans top.2⟩,args d other⟩

theorem Inv.reload (unclaimed : (s.pc c).claimed = false) : Inv cfg (s.reload c) := by
  refine h.move unclaimed rfl (fun d ne => update_of_ne ne ..) (fun _ _ => rfl) ?_
  simp only [CallOk, update_self]
  exact ⟨h.producerPos,le_rfl⟩

theorem Inv.claim {pos : Nat} (here : s.pc c = .casPos pos) (prompt : s.claims.length - s.loaded c < 4294967296)
    (current : s.mem.producerPos = pos) :
    Inv cfg ({ s with mem := { s.mem with producerPos := wrap32 (pos + 1) },
                      claims := s.claims ++ [c] }.goto c (.copy pos ∅)) := by
  have call := h.calls c
  rw [here] at call
  obtain ⟨loaded,le,fits⟩ := call
  -- nobody has claimed since the load
  have still : s.loaded c = s.claims.length := by
    apply wrap32_inj (by omega) (by omega)
    rw [← loaded, ← current, h.producerPos]
  have room := fits still
  have pos_eq : pos = wrap32 s.claims.length := by rw [loaded, still]
  have unclaimed : (s.pc c).claimed = false := by rw [here]; rfl
  have length : (s.claims ++ [c]).length = s.claims.length + 1 := length_append
  have ring := h.toTicketRing.claim (.copy pos ∅) unclaimed rfl room
    ⟨pos_eq,h.free _ le_rfl room,fun i member => absurd member (Finset.notMem_empty i)⟩
  refine { ring with producerPos := ?_, order := ?_, calls := ?_, consumer := ?_ }
  · show wrap32 (pos + 1) = wrap32 (s.claims ++ [c]).length
    rw [pos_eq, wrap32_add_left, length]
  · simp only [State.goto, take_append_of_le_length h.le]
    exact h.order
  · refine (forall_update_iff s.pc fun d pc => CallOk cfg _ d pc).2 ⟨trivial,fun d ne => ?_⟩
    exact (h.calls d).keep rfl (by show _ ≤ (s.claims ++ [c]).length; omega) le_rfl
  · refine h.consumer.keep rfl rfl ?_
    intro d top
    have other := h.toTicketRing.other unclaimed (mem_of_getElem? top.1)
    refine ⟨⟨?_,(update_of_ne other ..).trans top.2⟩,rfl⟩
    exact (getElem?_append_left (List.getElem?_eq_some_iff.1 top.1).1).trans top.1

theorem Inv.write {slot : Slot n β} {pc : PC n} (late : s.popped.length ≤ p)
    (near : p < s.popped.length + cfg.depth) (here : s.claims[p]? = some c) (running : s.pc c ≠ .done true)
    (claimed : pc.claimed = true) (ok : SlotFor (s.arg c) slot p pc) :
    Inv cfg ({ s with mem := s.mem.setSlot (p % cfg.depth) slot }.goto c pc) := by
  have ring := h.toTicketRing.write late near here running claimed ok
  refine { ring with producerPos := h.producerPos, order := h.order, calls := ?_, consumer := ?_ }
  · refine (forall_update_iff s.pc fun d pc => CallOk cfg _ d pc).2 ⟨by cases pc <;> trivial,fun d _ => ?_⟩
    exact (h.calls d).keep rfl le_rfl le_rfl
  · refine h.consumer.keep rfl rfl ?_
    intro d top
    have self : d ≠ c := by
      rintro rfl
      exact running top.2
    exact ⟨⟨top.1,(update_of_ne self ..).trans top.2⟩,rfl⟩

/-- One step of a call outside the copy. -/
theorem producer_step {spurious : Bool} (guard : recent cfg s (.producer c spurious))
    (step : producerNext cfg c spurious s = some s') : Inv cfg s' := by
  have call := h.calls c
  cases here : s.pc c <;> simp only [producerNext, here] at step
  case idle | done result => cases step
  case loadPos =>
    cases step
    exact h.reload (by rw [here]; rfl)
  case loadSeq pos =>
    cases step
    rw [here] at call
    obtain ⟨rfl,old⟩ := call
    refine h.move (by rw [here]; rfl) ?_ (fun _ _ => rfl) (fun _ _ => rfl) ?_
    · split
      · rfl
      · split <;> rfl
    · split
      · rename_i zero
        rw [cfg.index_wrap32] at zero
        refine ⟨rfl,old,fun still => h.room_of_seq ?_⟩
        rw [still] at zero
        exact zero
      · split <;> trivial
  case casPos pos =>
    simp only [recent, here] at guard
    split at step
    · rename_i success
      cases step
      exact h.claim here guard success.1
    · cases step
      exact h.reload (by rw [here]; rfl)
  case copy pos written =>
    obtain ⟨complete,⟨⟩⟩ := enabled step
    obtain ⟨p,late,near,at_p,pos_eq,-,words⟩ := h.toTicketRing.position here rfl (by rintro ⟨⟩)
    rw [pos_eq, cfg.index_wrap32]
    refine h.write late near at_p (by simp [here]) rfl ⟨wrap32_add_left p 1,funext fun i => ?_⟩
    exact words i (complete i)

theorem copyIn_step (step : copyInNext cfg c i s = some s') : Inv cfg s' := by
  unfold copyInNext at step
  split at step
  · rename_i pos written here
    cases step
    obtain ⟨p,late,near,at_p,pos_eq,seq,words⟩ := h.toTicketRing.position here rfl nofun
    rw [pos_eq, cfg.index_wrap32]
    refine h.write late near at_p (by rw [here]; nofun) rfl ⟨rfl,seq,?_⟩
    intro k member
    by_cases same : k = i
    · subst same
      exact update_self ..
    · exact (update_of_ne same ..).trans (words k (Finset.mem_of_mem_insert_of_ne member same))
  · cases step

theorem push_step (step : pushNext c event s = some s') : Inv cfg s' := by
  unfold pushNext at step
  obtain ⟨idle,⟨⟩⟩ := enabled step
  exact h.move (by rw [idle]; rfl) rfl (fun _ _ => rfl) (fun d ne => update_of_ne ne ..) trivial

end

section

theorem init_inv (cfg : Config) (garbage : Nat → Entry n β) (args : ι → Entry n β) :
    Inv cfg (State.init garbage args) := by
  have small := cfg.depth_le
  refine ⟨.init (fun p lt => ?_) fun _ => rfl,rfl,rfl,fun _ => trivial,rfl⟩
  rw [wrap32_of_lt (by omega)]
  rfl

variable [DecidableEq ι]

/-- Every step of the queue keeps the invariant. -/
theorem next_inv {a : Act ι n β} (h : Inv cfg s) (guard : recent cfg s a)
    (step : next cfg a s = some s') : Inv cfg s' := by
  cases a with
  | push c event => exact push_step h step
  | producer c spurious => exact producer_step h guard step
  | copyIn c i => exact copyIn_step h step
  | pop out => exact pop_step h step
  | consumer => exact consumer_step h step
  | copyOut i => exact copyOut_step h step

theorem reach_inv {garbage : Nat → Entry n β} {args : ι → Entry n β}
    (h : Reach (machine cfg garbage args) (recent cfg) s) : Inv cfg s := by
  apply h.invariant (init_inv cfg garbage args)
  intro s t a _ inv guard step
  exact next_inv inv guard step

end

end Newosp.Mpsc
