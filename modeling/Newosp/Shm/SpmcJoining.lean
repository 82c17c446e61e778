import Newosp.Shm.SpmcRefinement
import Newosp.Shm.SpmcSafety

/-!
# The steps of a consumer, and what holds in every run

A consumer stores only its own tail and its own flag. Its tail only moves forward, so the producer never
loses room; the one store that takes room away is the flag raised by `RegisterConsumer`, in front of the
tail left in the slot.
-/

namespace Newosp.Shm.SpmcSteps
open Lib List
open Function (forall_update_iff update update_of_ne update_self)
open State (goto setActive)

variable {ι : Type} {k H i : Nat} {s s' : State ι} {chan : ι → Option (List (List UInt8))} {pos : Nat → Nat} {c : ι}
  {j : Nat} {a : Act ι}

section

variable [DecidableEq ι] {chan' : ι → Option (List (List UInt8))} {pc' : ConsumerPC} {events : List (Event ι)}

theorem Inv.slot_update (slot : pc'.phase.slot = (s.pc c).phase.slot) (d : ι) :
    (update s.pc c pc' d).phase.slot = (s.pc d).phase.slot := update_same (fun pc : ConsumerPC => pc.phase.slot) slot d

section

variable (h : Inv k s chan H pos) (replayed : replay events = some chan') (others : ∀ d, d ≠ c → chan' d = chan d)
include h replayed others

theorem Inv.store {T : Nat} (mine : (s.pc c).phase.slot = some i) (slot : pc'.phase.slot = some i)
    (farther : pos i ≤ T) (le : T ≤ H)
    (ok : ConsumerOk (2 ^ k) s.mem.data H (update pos i T) (chan' c) pc') :
    Inv k { s with mem := { s.mem with tails := update s.mem.tails i (wrap32 T) },
                   pc := update s.pc c pc', events := events } chan' H (update pos i T) := by
  have grows : ∀ j, pos j ≤ update pos i T j :=
    (forall_update_iff pos fun j p => pos j ≤ p).2 ⟨farther,fun _ _ => le_rfl⟩
  have same := Inv.slot_update (slot.trans mine.symm)
  refine ⟨h.capacity,replayed,h.head,?_,?_,h.slots,?_,?_,?_,?_,h.writer.mono (fun _ on => on) grows⟩
  · intro j
    by_cases self : j = i
    · subst self
      simp only [update_self]
    · simp only [update_of_ne self]
      exact h.tails j
  · exact (forall_update_iff pos fun _ p => p ≤ H).2 ⟨le,fun j _ => h.behind j⟩
  · intro j on
    exact (h.window j on).trans (Nat.add_le_add_right (grows j) _)
  · intro d j owns
    exact h.owned d j ((same d).symm.trans owns)
  · intro d e j owns owns'
    exact h.owner d e j ((same d).symm.trans owns) ((same e).symm.trans owns')
  · refine (forall_update_iff s.pc fun d pc => ConsumerOk _ _ _ _ (chan' d) pc).2 ⟨ok,fun d self => ?_⟩
    rw [others d self]
    apply (h.consumers d).keep
    intro j owns
    rw [update_of_ne]
    intro clash
    subst clash
    exact self (h.owner d c j owns mine)

theorem Inv.act (slot : pc'.phase.slot = (s.pc c).phase.slot) (ok : ConsumerOk (2 ^ k) s.mem.data H pos (chan' c) pc') :
    Inv k { s with pc := update s.pc c pc', events := events } chan' H pos := by
  have same := Inv.slot_update slot
  refine { h with replayed := replayed, owned := ?_, owner := ?_, consumers := ?_ }
  · intro d j owns
    exact h.owned d j ((same d).symm.trans owns)
  · intro d e j owns owns'
    exact h.owner d e j ((same d).symm.trans owns) ((same e).symm.trans owns')
  · refine (forall_update_iff s.pc fun d pc => ConsumerOk _ _ _ _ (chan' d) pc).2 ⟨ok,fun d self => ?_⟩
    rw [others d self]
    exact h.consumers d

end

theorem Inv.goto (h : Inv k s chan H pos) (slot : pc'.phase.slot = (s.pc c).phase.slot)
    (ok : ConsumerOk (2 ^ k) s.mem.data H pos (chan c) pc') : Inv k (s.goto c pc') chan H pos :=
  h.act h.replayed (fun _ _ => rfl) slot ok

theorem Inv.count (h : Inv k s chan H pos) (n : Nat) (slot : pc'.phase.slot = (s.pc c).phase.slot)
    (ok : ConsumerOk (2 ^ k) s.mem.data H pos (chan c) pc') : Inv k ((s.setCount n).goto c pc') chan H pos := by
  have counted : Inv k (s.setCount n) chan H pos := { h with }
  exact counted.goto slot ok

end

section

variable [DecidableEq ι] {active : Nat → Nat} {msg : List UInt8} {K T : Nat}

/-- The bytes that a `Write` in progress is going to need in front of slot `i` although it has already passed
the slot. -/
def WritePC.owed (K i : Nat) : WritePC → Nat
  | .scan msg _ _ j | .scanTail msg _ _ j => if i < j ∧ msg.length + 4 ≤ K then msg.length + 4 else 0
  | .reload msg | .writeLen msg _ _ | .writePayload msg _ _ => msg.length + 4
  | _ => 0

theorem Space.join (h : Space K active pos H msg) (farther : pos i ≤ T) (owed : H + (msg.length + 4) ≤ T + K) :
    Space K (update active i 1) (update pos i T) H msg := by
  refine ⟨h.short,h.total,?_⟩
  intro j on
  by_cases self : j = i
  · subst self
    rwa [update_self]
  · rw [update_of_ne self] at on ⊢
    exact h.room j on

theorem Scanned.join {K T head slowest j : Nat} (h : Scanned K active pos H msg head slowest j)
    (owed : H + (if i < j ∧ msg.length + 4 ≤ K then msg.length + 4 else 0) ≤ T + K) :
    Scanned K (update active i 1) (update pos i T) H msg head slowest j := by
  obtain ⟨S,eq,le,near,passed⟩ := h.found
  refine ⟨h.short,h.head,S,eq,le,near,?_⟩
  intro l lt on
  by_cases self : l = i
  · subst self
    rw [update_self]
    by_cases fits : msg.length + 4 ≤ K
    · rw [if_pos ⟨lt,fits⟩] at owed
      exact .inr (.inl owed)
    · exact .inr (.inr (by omega))
  · rw [update_of_ne self] at on ⊢
    exact passed l lt on

theorem WriterOk.join {data : Nat → UInt8} {pc : WritePC}
    (h : WriterOk K data active pos H pc) (farther : pos i ≤ T) (owed : H + pc.owed K i ≤ T + K) :
    WriterOk K data (update active i 1) (update pos i T) H pc := by
  cases pc with
  | scan msg head slowest j => exact Scanned.join h owed
  | scanTail msg head slowest j =>
    refine ⟨h.1.join owed,?_⟩
    by_cases self : j = i
    · subst self
      rw [update_self]
      exact (Nat.le_add_right ..).trans owed
    · rw [update_of_ne self]
      exact h.2
  | reload msg => exact Space.join h farther owed
  | writeLen | writePayload => exact ⟨h.1.join farther owed,h.2⟩
  | _ => exact h

theorem claim_step (h : Inv k s chan H pos) (pc : s.pc c = .claim i) (lt : i < s.mem.maxConsumers)
    (free : s.mem.active i = 0) (near : sub32 s.mem.head (s.mem.tails i) + s.writer.owed (2 ^ k) i ≤ 2 ^ k) :
    ∃ pos', Inv k ((s.setActive i 1).goto c (.loadHead i)) chan H pos' := by
  have behind := h.behind i
  rw [h.head, h.tails] at near
  have distance := sub32_wrap32_le behind
  obtain ⟨T,T_eq⟩ : ∃ T, T + sub32 (wrap32 H) (wrap32 (pos i)) = H :=
    ⟨H - sub32 (wrap32 H) (wrap32 (pos i)),by omega⟩
  have word : wrap32 T = wrap32 (pos i) := by
    simp only [sub32, wrap32] at T_eq ⊢
    omega
  have nobody : ∀ d, (s.pc d).phase.slot ≠ some i := by
    intro d owns
    have := h.owned d i owns
    omega
  have unread : ∀ d j, (update s.pc c (.loadHead i) d).phase.slot = some j →
      (d = c ∧ j = i) ∨ (d ≠ c ∧ j ≠ i ∧ (s.pc d).phase.slot = some j) := by
    intro d j owns
    by_cases self : d = c
    · subst self
      rw [update_self] at owns
      exact .inl ⟨rfl,(Option.some.inj owns).symm⟩
    · rw [update_of_ne self] at owns
      exact .inr ⟨self,(fun clash => nobody d (clash ▸ owns)),owns⟩
  refine ⟨update pos i T,h.capacity,h.replayed,h.head,?_,?_,?_,?_,?_,?_,?_,?_⟩
  · intro j
    by_cases self : j = i
    · subst self
      rw [update_self, word]
      exact h.tails j
    · rw [update_of_ne self]
      exact h.tails j
  · exact (forall_update_iff pos fun _ p => p ≤ H).2 ⟨by omega,fun j _ => h.behind j⟩
  · intro j on
    by_cases self : j = i
    · rwa [self]
    · simp only [goto, setActive, update_of_ne self] at on
      exact h.slots j on
  · intro j on
    by_cases self : j = i
    · subst self
      rw [update_self]
      omega
    · simp only [goto, setActive, update_of_ne self] at on ⊢
      exact h.window j on
  · intro d j owns
    rcases unread d j owns with ⟨_,rfl⟩ | ⟨_,other,owns⟩
    · exact update_self ..
    · simp only [goto, setActive, update_of_ne other]
      exact h.owned d j owns
  · intro d e j owns owns'
    rcases unread d j owns with ⟨rfl,rfl⟩ | ⟨_,other,owns⟩
    · rcases unread e j owns' with ⟨rfl,_⟩ | ⟨_,other,_⟩
      · rfl
      · exact absurd rfl other
    · rcases unread e j owns' with ⟨_,rfl⟩ | ⟨_,_,owns'⟩
      · exact absurd rfl other
      · exact h.owner d e j owns owns'
  · have entry := h.consumers c
    rw [pc] at entry
    refine (forall_update_iff s.pc fun d pc => ConsumerOk _ _ _ _ (chan d) pc).2 ⟨entry,fun d _ => ?_⟩
    apply (h.consumers d).keep
    intro j owns
    rw [update_of_ne]
    intro clash
    exact nobody d (clash ▸ owns)
  · exact h.writer.join (by omega) (by omega)

theorem leave_step (h : Inv k s chan H pos) (pc : s.pc c = .leave i) {pc' : ConsumerPC} (out : pc'.phase = .outside) :
    Inv k (((s.setActive i 0).log (.leave c)).goto c pc') (update chan c none) H pos := by
  have mine : (s.pc c).phase.slot = some i := by rw [pc]; rfl
  have entry := h.consumers c
  rw [pc] at entry
  obtain ⟨q,eq,_⟩ := entry
  have leaves : ∀ d j, (update s.pc c pc' d).phase.slot = some j → d ≠ c ∧ j ≠ i ∧ (s.pc d).phase.slot = some j := by
    intro d j owns
    by_cases self : d = c
    · subst self
      rw [update_self, out] at owns
      cases owns
    · rw [update_of_ne self] at owns
      exact ⟨self,(fun clash => self (h.owner d c j owns (clash ▸ mine))),owns⟩
  have fewer : ∀ j, update s.mem.active i 0 j ≠ 0 → s.mem.active j ≠ 0 := by
    intro j on
    by_cases self : j = i
    · subst self
      exact absurd (update_self ..) on
    · rwa [update_of_ne self] at on
  refine ⟨h.capacity,foldlM_concat h.replayed ?_,h.head,h.tails,h.behind,fun j on => h.slots j (fewer j on),
    fun j on => h.window j (fewer j on), ?_, ?_, ?_, h.writer.mono fewer (fun _ => le_rfl)⟩
  · simp only [accept, eq, Option.isSome_some, if_true]
  · intro d j owns
    obtain ⟨_,other,owns⟩ := leaves d j owns
    simp only [goto, State.log, setActive, update_of_ne other]
    exact h.owned d j owns
  · intro d e j owns owns'
    exact h.owner d e j (leaves d j owns).2.2 (leaves e j owns').2.2
  · intro d
    by_cases self : d = c
    · subst self
      simp only [goto, update_self, ConsumerOk, out]
    · simp only [goto, update_of_ne self]
      exact h.consumers d

end

section

theorem receiveAny_cons (full : msg ≠ []) : receiveAny out (msg :: q) = receive out (msg :: q) := by
  cases msg with
  | nil => exact absurd rfl full
  | cons byte msg => rfl

variable [DecidableEq ι] {q : List (List UInt8)} {i : Nat} {out buffer : List UInt8} {read : Finset Nat}
  {tail msgLen : Nat} {now : ConsumerPC} (h : Inv k s chan H pos) {msg : List UInt8}
include h

section

variable (at_ : s.pc c = now) (phase : now.phase = .member i)
include at_ phase

theorem Inv.member : ∃ q, chan c = some q ∧ Follows (2 ^ k) s.mem.data H (pos i) q ∧ ReadOk q (pos i) now := by
  have ok := h.consumers c
  rw [at_, ConsumerOk, phase] at ok
  exact ok

theorem Inv.unread_le (follows : Follows (2 ^ k) s.mem.data H (pos i) q) : unread q ≤ 2 ^ k := by
  have on := h.owned c i (by rw [at_, phase]; rfl)
  have := h.window i (by omega)
  have := follows.distance
  omega

theorem Inv.finish (entry : chan c = some q) (nothing : receiveAny out q = ((0, out), q)) :
    Inv k (s.finish c i (.read c out 0 out)) chan H pos := by
  obtain ⟨q',entry',follows,_⟩ := h.member at_ phase
  obtain rfl : q = q' := Option.some.inj (entry.symm.trans entry')
  refine h.act (foldlM_concat h.replayed ?_) (fun _ _ => rfl) (by rw [at_, phase]; rfl) ⟨q,entry,follows,trivial⟩
  simp only [accept, entry, nothing, if_true]
  rw [← entry, Function.update_eq_self]

theorem Inv.take {result : List UInt8} {returned : Nat} (entry : chan c = some (msg :: q))
    (takes : receiveAny out (msg :: q) = ((returned, result), q)) :
    ∃ pos', Inv k ((s.setTail i (wrap32 (wrap32 (pos i) + msg.length + 4))).finish c i
      (.read c out returned result)) (update chan c (some q)) H pos' := by
  obtain ⟨q',entry',follows,_⟩ := h.member at_ phase
  obtain rfl : msg :: q = q' := Option.some.inj (entry.symm.trans entry')
  have distance := follows.distance
  rw [unread_cons] at distance
  have mine : (s.pc c).phase.slot = some i := by rw [at_, phase]; rfl
  have rest : Follows (2 ^ k) s.mem.data H (pos i + (msg.length + 4)) q :=
    ⟨by omega,(holds_cons.1 follows.holds).2.2,fun m member => follows.short m (mem_cons_of_mem _ member)⟩
  rw [show wrap32 (wrap32 (pos i) + msg.length + 4) = wrap32 (pos i + (msg.length + 4)) by
    rw [add_assoc, wrap32_add_left]]
  refine ⟨_,h.store (foldlM_concat h.replayed ?_) ?_ mine rfl (by omega) (by omega) ?_⟩
  · simp only [accept, entry, takes, if_true]
  · intro d other
    rw [update_of_ne other]
  · refine ⟨q,update_self ..,?_,trivial⟩
    rw [update_self]
    exact rest

end

theorem available_step (small : k ≤ 30) (pc : s.pc c = .readHead i out tail)
    (step : consumerNext c s = some s') : Inv k s' chan H pos := by
  have bound : 2 ^ k ≤ 2 ^ 30 := Nat.pow_le_pow_right Nat.two_pos small
  obtain ⟨q,entry,follows,rfl⟩ := h.member pc rfl
  have room := h.unread_le pc rfl follows
  have distance := follows.distance
  have available : sub32 s.mem.head (wrap32 (pos i)) = unread q := by
    rw [h.head, sub32_wrap32 (by omega) (by omega)]
    omega
  simp only [consumerNext, pc, available] at step
  split at step
  · rename_i few
    cases step
    obtain rfl := eq_nil_of_unread_lt few
    exact h.finish pc rfl entry rfl
  · rename_i enough
    cases step
    apply h.goto (by rw [pc]; rfl)
    cases q with
    | nil => exact absurd (by decide) enough
    | cons msg q =>
      refine ⟨_,entry,follows,rfl,msg,rfl,?_,filled_empty⟩
      rw [unread_cons]
      omega

theorem length_step {available : Nat}
    (pc : s.pc c = .readLen i out tail available buffer read) (step : consumerNext c s = some s') :
    Inv k s' chan H pos := by
  obtain ⟨q,entry,follows,eq,msg,first,enough,filled⟩ := h.member pc rfl
  obtain ⟨rest,rfl⟩ := head?_eq_some_iff.1 first
  have short := follows.short msg (mem_cons_self ..)
  simp only [consumerNext, pc] at step
  obtain ⟨all,step⟩ := enabled step
  have copied : buffer = leBytes 4 msg.length := by
    have done := filled.eq_append (by rwa [leBytes_length])
    rwa [leBytes_length, show drop 4 [(0 : UInt8), 0, 0, 0] = [] from rfl, append_nil] at done
  rw [copied, short.leValue_eq, short.total] at step
  split at step
  · rename_i none
    cases step
    have empty : msg = [] := length_eq_zero_iff.1 (by omega)
    subst empty
    exact h.finish pc rfl entry rfl
  · rename_i whole
    have full : msg ≠ [] := by
      rintro rfl
      exact whole (.inl rfl)
    split at step
    · rename_i long
      cases step
      exact h.goto (by rw [pc]; rfl) ⟨_,entry,follows,eq,msg,first,rfl,full,long⟩
    · rename_i fits
      cases step
      exact h.goto (by rw [pc]; rfl) ⟨_,entry,follows,eq,msg,first,rfl,full,by omega,filled_empty⟩

theorem skip_step (pc : s.pc c = .skip i out tail msgLen)
    (step : consumerNext c s = some s') : ∃ chan' pos', Inv k s' chan' H pos' := by
  obtain ⟨q,entry,follows,rfl,msg,first,rfl,full,long⟩ := h.member pc rfl
  obtain ⟨rest,rfl⟩ := head?_eq_some_iff.1 first
  simp only [consumerNext, pc] at step
  cases step
  exact ⟨_,h.take pc rfl entry (by rw [receiveAny_cons full, receive_of_lt long])⟩

theorem payload_step (pc : s.pc c = .readPayload i out tail msgLen buffer read) (step : consumerNext c s = some s') :
    ∃ chan' pos', Inv k s' chan' H pos' := by
  obtain ⟨q,entry,follows,rfl,msg,first,rfl,full,fits,filled⟩ := h.member pc rfl
  obtain ⟨rest,rfl⟩ := head?_eq_some_iff.1 first
  simp only [consumerNext, pc] at step
  obtain ⟨all,⟨⟩⟩ := enabled step
  rw [filled.eq_append all]
  exact ⟨_,h.take pc rfl entry (by rw [receiveAny_cons full, receive_of_le fits])⟩

end

section

variable [DecidableEq ι]

/-- Lengths and totals fit 32 bits, and when `RegisterConsumer` takes slot `i`, the tail left there is within the
capacity behind `head`, also after a `Write` in progress that has already passed the slot. -/
def nearTail (s : State ι) : Act ι → Prop
  | .write msg => Short msg
  | .consumer c => ∀ i, s.pc c = .claim i → i < s.mem.maxConsumers → s.mem.active i = 0 →
      sub32 s.mem.head (s.mem.tails i) + s.writer.owed s.mem.capacity i ≤ s.mem.capacity
  | _ => True

variable (h : Inv k s chan H pos)
include h

theorem storeTail_step {head : Nat} (pc : s.pc c = .storeTail i head) :
    ∃ pos', Inv k ((s.setTail i head).goto c (.addCount i)) chan H pos' := by
  have ok := h.consumers c
  rw [pc] at ok
  obtain ⟨q,T,entry,rfl,le,follows⟩ := ok
  have distance := follows.distance
  refine ⟨_,h.store h.replayed (fun _ _ => rfl) (by rw [pc]; rfl) rfl le (by omega) ⟨q,entry,?_,trivial⟩⟩
  rw [update_self]
  exact follows

theorem join_step (pc : s.pc c = .loadHead i) :
    Inv k ((s.log (.join c)).goto c (.storeTail i s.mem.head)) (update chan c (some [])) H pos := by
  have entry := h.consumers c
  rw [pc] at entry
  refine h.act (foldlM_concat h.replayed ?_) (fun d other => update_of_ne other ..) (by rw [pc]; rfl) ?_
  · simp only [accept, show chan c = none from entry, Option.isNone_none, if_true]
  · exact ⟨[],H,update_self ..,h.head,h.behind i,rfl,holds_nil,(fun _ member => absurd member not_mem_nil)⟩

theorem consumer_step (small : k ≤ 30) (guard : nearTail s (.consumer c)) (step : consumerNext c s = some s') :
    ∃ chan' pos', Inv k s' chan' H pos' := by
  have ok := h.consumers c
  have whole := step
  cases pc : s.pc c <;> simp only [consumerNext, pc] at step
  case unregistered =>
    cases step
  case idle i =>
    cases step
  case claim i =>
    rw [pc] at ok
    split at step
    · rename_i lt
      split at step
      · rename_i free
        cases step
        have near := guard i pc lt free
        rw [h.capacity] at near
        exact ⟨chan,claim_step h pc lt free near⟩
      · cases step
        exact ⟨chan,pos,h.goto (by rw [pc]; rfl) ok⟩
    · cases step
      exact ⟨chan,pos,h.goto (by rw [pc]; rfl) ok⟩
  case loadHead i =>
    cases step
    exact ⟨_,pos,join_step h pc⟩
  case storeTail i head =>
    cases step
    exact ⟨chan,storeTail_step h pc⟩
  case addCount | subCount =>
    cases step
    rw [pc] at ok
    exact ⟨chan,pos,h.count _ (by rw [pc]; rfl) ok⟩
  case readTail i out =>
    cases step
    rw [pc] at ok
    obtain ⟨q,entry,follows,_⟩ := ok
    exact ⟨chan,pos,h.goto (by rw [pc]; rfl) ⟨q,entry,follows,h.tails i⟩⟩
  case readHead i out tail => exact ⟨chan,pos,available_step h small pc whole⟩
  case readLen i out tail available buffer read => exact ⟨chan,pos,length_step h pc whole⟩
  case skip i out tail msgLen => exact skip_step h pc whole
  case readPayload i out tail msgLen buffer read => exact payload_step h pc whole
  case leave i =>
    cases step
    refine ⟨_,pos,leave_step h pc ?_⟩
    split <;> rfl

theorem copyOut_step (small : k ≤ 30) (step : copyOutNext c j s = some s') : Inv k s' chan H pos := by
  unfold copyOutNext at step
  simp only [h.capacity] at step
  split at step
  case h_1 i out tail available buffer read pc =>
    obtain ⟨q,entry,follows,rfl,msg,first,enough,filled⟩ := h.member pc rfl
    have room := h.unread_le pc rfl follows
    obtain ⟨rest,rfl⟩ := head?_eq_some_iff.1 first
    rw [unread_cons] at room
    obtain ⟨lt,step⟩ := enabled step
    obtain ⟨byte,here⟩ := leBytes_get lt msg.length
    rw [rawIndex_eq (by omega) lt (by omega), (holds_cons.1 follows.holds).1 j _ here] at step
    cases step
    exact h.goto (by rw [pc]; rfl) ⟨_,entry,follows,rfl,msg,first,enough,
      filled.set (by rw [leBytes_length]; decide) here⟩
  case h_2 i out tail msgLen buffer read pc =>
    obtain ⟨q,entry,follows,rfl,msg,first,rfl,full,fits,filled⟩ := h.member pc rfl
    have room := h.unread_le pc rfl follows
    obtain ⟨rest,rfl⟩ := head?_eq_some_iff.1 first
    rw [unread_cons] at room
    obtain ⟨lt,step⟩ := enabled step
    have here : msg[j]? = some msg[j] := getElem?_eq_getElem lt
    rw [wrap32_add_left, rawIndex_eq (by omega) lt (by omega), (holds_cons.1 follows.holds).2.1 j _ here] at step
    cases step
    exact h.goto (by rw [pc]; rfl) ⟨_,entry,follows,rfl,msg,first,rfl,full,fits,filled.set fits here⟩
  case h_3 => cases step

/-- Every guarded step keeps the ring sound. -/
theorem next_inv (small : k ≤ 30) (guard : nearTail s a) (step : next a s = some s') :
    ∃ chan' H' pos', Inv k s' chan' H' pos' := by
  cases a with
  | write msg => exact ⟨chan,H,pos,write_step h guard step⟩
  | producer =>
    obtain ⟨chan',H',inv⟩ := producer_step h small step
    exact ⟨chan',H',pos,inv⟩
  | copyIn i => exact ⟨chan,H,pos,copyIn_step h small step⟩
  | register c =>
    have ok := h.consumers c
    simp only [next, registerNext] at step
    split at step
    · rename_i pc
      cases step
      rw [pc] at ok
      exact ⟨chan,H,pos,h.goto (by rw [pc]; rfl) ok⟩
    · cases step
  | read c | unregister c =>
    have ok := h.consumers c
    simp only [next, readNext, unregisterNext] at step
    split at step
    · rename_i i pc
      cases step
      rw [pc] at ok
      exact ⟨chan,H,pos,h.goto (by rw [pc]; rfl) ok⟩
    · cases step
  | consumer c =>
    obtain ⟨chan',pos',inv⟩ := consumer_step h small guard step
    exact ⟨chan',H,pos',inv⟩
  | copyOut c j => exact ⟨chan,H,pos,copyOut_step h small step⟩

end

section

theorem producerNext_data (step : producerNext s = some t) : t.mem.data = s.mem.data := by
  simp only [producerNext] at step
  repeat' split at step
  all_goals cases step <;> rfl

variable [DecidableEq ι] {limit totalSize maxConsumers : Nat} {data : Nat → UInt8} {t : State ι}

theorem init_inv (capacity : (Spmc.initAt limit data totalSize maxConsumers).capacity = 2 ^ k) :
    Inv k (machine ι limit data totalSize maxConsumers).init (fun _ => none) 0 (fun _ => 0) where
  capacity := capacity
  replayed := rfl
  head := rfl
  tails := fun _ => rfl
  behind := fun _ => le_rfl
  slots := fun _ on => absurd rfl on
  window := fun _ on => absurd rfl on
  owned := by
    intro c i owns
    cases owns
  owner := by
    intro c d i owns
    cases owns
  consumers := fun _ => rfl
  writer := trivial

theorem reach_inv (accepted : Spmc.kHeaderSize limit < totalSize) (word : totalSize < 4294967296)
    (small : (Spmc.initAt limit data totalSize maxConsumers).capacity ≤ 1073741824)
    (h : Reach (machine ι limit data totalSize maxConsumers) nearTail s) :
    ∃ k ≤ 30, ∃ chan H pos, Inv k s chan H pos := by
  obtain ⟨k,low,capacity⟩ : ∃ k ≤ 30, (Spmc.initAt limit data totalSize maxConsumers).capacity = 2 ^ k :=
    Spmc.initAt_capacity accepted word small
  refine ⟨k,low,?_⟩
  refine h.invariant (I := fun s => ∃ chan H pos, Inv k s chan H pos) ⟨_,0,_,init_inv capacity⟩ ?_
  rintro s t a _ ⟨chan,H,pos,inv⟩ guard step
  exact next_inv inv low guard step

/-- Byte `j` of the data area is one that the consumer of slot `i` has yet to read. -/
def Unread (m : Spmc.Memory) (i j : Nat) : Prop := ∃ d < sub32 m.head (m.tails i), j = (m.tails i + d) % m.capacity

theorem consumerNext_data (step : consumerNext c s = some t) : t.mem.data = s.mem.data := by
  cases pc : s.pc c <;> simp only [consumerNext, pc] at step
  case claim =>
    repeat' split at step
    all_goals
      cases step
      rfl
  case readHead => split at step <;> cases step <;> rfl
  case readLen =>
    repeat' split at step
    all_goals cases step <;> rfl
  case readPayload =>
    split at step <;> cases step
    rfl
  case subCount =>
    -- for every count: with this one `rfl` would compute the wrapping difference
    have data : ∀ n, ((s.setCount n).goto c .unregistered).mem.data = s.mem.data := fun _ => rfl
    cases step
    exact data _
  all_goals cases step <;> rfl

theorem copyOutNext_data (step : copyOutNext c j s = some t) : t.mem.data = s.mem.data := by
  simp only [copyOutNext] at step
  repeat' split at step
  all_goals cases step <;> rfl

theorem next_data (step : next a s = some t) : t.mem.data = s.mem.data ∨ ∃ i, a = .copyIn i := by
  cases a with
  | copyIn i => exact .inr ⟨i,rfl⟩
  | producer => exact .inl (producerNext_data step)
  | consumer c => exact .inl (consumerNext_data step)
  | copyOut c j => exact .inl (copyOutNext_data step)
  | write | register | read | unregister =>
    left
    simp only [next, writeNext, registerNext, readNext, unregisterNext] at step
    split at step <;> cases step
    rfl

/-- No active consumer is farther behind than the capacity, no step changes a byte that one has yet to read, and every
`Read` returned what its consumer had unread of the messages written since it joined. -/
structure Sound (M : Machine (State ι) (Act ι)) (s : State ι) : Prop where
  bounded : ∀ i, s.mem.active i ≠ 0 → sub32 s.mem.head (s.mem.tails i) ≤ s.mem.capacity
  intact : ∀ a t, M.next a s = some t → ∀ i, s.mem.active i ≠ 0 → ∀ j, Unread s.mem i j → t.mem.data j = s.mem.data j
  whole : ∃ chan, replay s.events = some chan

/-- **In every state of a run that meets the guard the ring is sound.** -/
theorem consumers_join_soundly (accepted : Spmc.kHeaderSize limit < totalSize) (word : totalSize < 4294967296)
    (small : (Spmc.initAt limit data totalSize maxConsumers).capacity ≤ 1073741824)
    (h : Reach (machine ι limit data totalSize maxConsumers) nearTail s) :
    Sound (machine ι limit data totalSize maxConsumers) s := by
  obtain ⟨k,low,chan,H,pos,inv⟩ := reach_inv accepted word small h
  have bound : 2 ^ k ≤ 2 ^ 30 := Nat.pow_le_pow_right Nat.two_pos low
  have distance : ∀ i, s.mem.active i ≠ 0 → sub32 s.mem.head (s.mem.tails i) = H - pos i := by
    intro i on
    have := inv.window i on
    rw [inv.head, inv.tails i, sub32_wrap32 (inv.behind i) (by omega)]
  constructor
  case bounded =>
    intro i on
    rw [distance i on, inv.capacity]
    exact Nat.sub_le_of_le_add (by have := inv.window i on; omega)
  case intact =>
    intro a t step i on j unread
    rcases next_data step with same | ⟨b,rfl⟩
    · rw [same]
    · obtain ⟨msg,p,x,_,_,space,past,inside,rfl,rfl,-⟩ := copyIn_stores inv low step
      obtain ⟨d,lt,rfl⟩ := unread
      rw [distance i on] at lt
      have := space.room i on
      rw [inv.capacity, inv.tails i]
      refine update_of_ne ?_ _ _
      have place : (wrap32 (pos i) + d) % 2 ^ k = (pos i + d) % 2 ^ k := by
        rw [Nat.add_mod, ← and_mask k (wrap32 (pos i)), wrap32_mask (by omega), ← Nat.add_mod]
      rw [place]
      exact index_ne (by omega) (by omega) (by omega)
  case whole => exact ⟨chan,inv.replayed⟩

end

/-- A `Write` of `msg` from its call to its store of `head`, when the ring has `n` slots of which `active`
are active. -/
def wholeWrite {ι : Type} (msg : List UInt8) (n active : Nat) : List (Act ι) :=
  [.write msg] ++ replicate (4 + n + active) .producer ++ (range 4).map .copyIn ++ [.producer] ++
    (range msg.length).map .copyIn ++ [.producer]

/-- A `Read` of consumer `c` that finds `n` bytes, without interruption. -/
def wholeRead {ι : Type} (c : ι) (out : List UInt8) (n : Nat) : List (Act ι) :=
  [.read c out, .consumer c, .consumer c] ++ (range 4).map (.copyOut c) ++ [.consumer c] ++
    (range n).map (.copyOut c) ++ [.consumer c]

def nearTailCheck {ι : Type} (s : State ι) : Act ι → Bool
  | .write msg => decide (msg.length ≤ 4294967291)
  | .consumer c => match s.pc c with
    | .claim i => decide (sub32 s.mem.head (s.mem.tails i) + s.writer.owed s.mem.capacity i ≤ s.mem.capacity)
    | _ => true
  | _ => true

theorem nearTailCheck_sound (s : State ι) (a : Act ι) (passes : nearTailCheck s a = true) : nearTail s a := by
  cases a
  case write =>
    have short := of_decide_eq_true passes
    exact short
  case consumer c =>
    intro i pc _ _
    simp only [nearTailCheck, pc] at passes
    exact of_decide_eq_true passes
  all_goals trivial

/-- The second consumer registers while the producer copies a message; both read it. -/
theorem consumers_join_soundly_midway : ∃ s : State (Fin 2), Reach (machine (Fin 2) 2 (fun _ => 255) 48 2) nearTail s ∧
    s.events = [.join 0, .join 1, .write [5], .read 0 [0, 0] 1 [5, 0], .read 1 [0] 1 [5]] ∧
    Sound (machine (Fin 2) 2 (fun _ => 255) 48 2) s := by
  obtain ⟨s,reached,final⟩ := reach_of_run (machine (Fin 2) 2 (fun _ => 255) 48 2) nearTailCheck_sound
      ([.register 0, .consumer 0, .consumer 0, .consumer 0, .consumer 0] ++ (wholeWrite [5] 2 1).take 10 ++
        [.register 1, .consumer 1, .consumer 1, .consumer 1, .consumer 1, .consumer 1] ++
        (wholeWrite [5] 2 1).drop 10 ++ wholeRead 0 [0, 0] 1 ++ wholeRead 1 [0] 1)
      (fun s => s.events = [.join 0, .join 1, .write [5], .read 0 [0, 0] 1 [5, 0], .read 1 [0] 1 [5]])
      (by decide +kernel)
  exact ⟨s,reached,final,consumers_join_soundly (by decide) (by decide) (by decide) reached⟩

/-- Consumer 1 has raised the flag of slot 1, where the tail is still 0 while `head` is 24 in a ring of 16 bytes.
`WriteableBytes` wraps, and the next message overwrites one that consumer 0 has yet to read. -/
theorem stale_tail_misleads_producer : ∃ s : State (Fin 2), Reach (machine (Fin 2) 2 (fun _ => 255) 48 2) anyStep s ∧
    s.mem.active 1 = 1 ∧ s.mem.capacity < sub32 s.mem.head (s.mem.tails 1) ∧
    s.events = [.join 0, .write (replicate 8 1), .read 0 (replicate 8 0) 8 (replicate 8 1),
      .write (replicate 8 2), .write (replicate 8 3),
      .read 0 (replicate 8 0) 0 (replicate 8 0)] ∧ (replay s.events).isNone = true := by
  exact reach_of_schedule (machine (Fin 2) 2 (fun _ => 255) 48 2)
      ([.register 0, .consumer 0, .consumer 0, .consumer 0, .consumer 0] ++
        wholeWrite (replicate 8 1) 2 1 ++ wholeRead 0 (replicate 8 0) 8 ++
        wholeWrite (replicate 8 2) 2 1 ++ [.register 1, .consumer 1, .consumer 1] ++
        wholeWrite (replicate 8 3) 2 2 ++ (wholeRead 0 (replicate 8 0) 0).dropLast) _ (by decide +kernel)

end Newosp.Shm.SpmcSteps
